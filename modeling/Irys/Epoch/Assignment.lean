import Irys.Epoch.Booked
import Irys.Epoch.Collected

/-!
# The partition invariant over runs of epochs

Every epoch snapshot reached from genesis accounts for each partition exactly once: it is
unassigned, in the capacity pool of a miner or in one slot of a data ledger, and an assigned
partition belongs to exactly one pledge of its miner.

* `EpochHistory` — runs of epoch blocks from genesis, under a condition on each block's
  commitments;
* `PartitionInvariant` — the invariant, in the snapshot's own terms;
* `EpochHistory.booked`, `Booked.partitionInvariant` — along every run whose pledges are new;
* `partition_invariant` — for blocks that carry what a commitment snapshot collected;
* `replayed_pledge_breaks_invariant` — a pledge that is carried twice breaks it.
-/

namespace Irys

open List

open Std (TreeMap)

open EpochSnapshot

/-! ### Runs -/

/-- What the next epoch block carries after a sequence of `add_commitment` calls on an empty
commitment snapshot. -/
def EpochSnapshot.collected (s : EpochSnapshot) (txs : List CommitmentTransaction) :
    List CommitmentTransaction :=
  (CommitmentSnapshot.empty.addCommitments txs s).getEpochCommitments

/-- **Runs of epoch blocks from genesis.**  The genesis block lists no transaction twice, and `P`
is what is known of the commitments of each later epoch block. -/
inductive EpochHistory (env : EpochEnv) (config : Config)
    (P : EpochSnapshot → List CommitmentTransaction → Prop) : EpochSnapshot → Prop where
  | genesis {g : IrysBlockHeader} {commitments : List CommitmentTransaction} {s : EpochSnapshot}
      (hids : (commitments.map (·.id)).Nodup)
      (h : EpochSnapshot.new env g commitments config = .ok s) : EpochHistory env config P s
  | step {s s' : EpochSnapshot} {prev : Option IrysBlockHeader} {E : IrysBlockHeader}
      {commitments : List CommitmentTransaction} (run : EpochHistory env config P s)
      (hP : P s commitments) (h : s.performEpochTasks env prev E commitments = .ok s') :
      EpochHistory env config P s'

/-- The commitments come from a commitment snapshot. -/
def FromSnapshot (s : EpochSnapshot) (commitments : List CommitmentTransaction) : Prop :=
  ∃ txs, commitments = s.collected txs

/-- No pledge of the list is already in force for its signer. -/
def NoReplay (s : EpochSnapshot) (commitments : List CommitmentTransaction) : Prop :=
  ∀ c ∈ commitments, c.isPledge = true → ∀ e ∈ s.commitmentState.pledgesOf c.signer, e.id ≠ c.id

variable {env : EpochEnv} {config : Config} {s : EpochSnapshot}
  {P : EpochSnapshot → List CommitmentTransaction → Prop}

theorem EpochHistory.imp {Q : EpochSnapshot → List CommitmentTransaction → Prop}
    (h : EpochHistory env config P s) (hPQ : ∀ s c, P s c → Q s c) :
    EpochHistory env config Q s := by
  induction h with
  | genesis hids h => exact .genesis hids h
  | step run hP h ih => exact .step ih (hPQ _ _ hP) h

theorem pledgesFresh_empty {g : IrysBlockHeader} {commitments : List CommitmentTransaction}
    (hids : (commitments.map (·.id)).Nodup) :
    (EpochSnapshot.empty g config).commitmentState.PledgesFresh commitments := by
  constructor
  · have hfilter : (commitments.filter (·.isPledge)).Sublist commitments := filter_sublist
    have hsub := hids.sublist (hfilter.map _)
    rw [List.Nodup, pairwise_map] at hsub ⊢
    exact hsub.imp fun hne heq => hne (congrArg Prod.snd heq)
  · intro c _ e he
    simp [EpochSnapshot.empty, CommitmentState.pledgesOf] at he

/-- **The registry is well formed along every run whose pledges are new**, as long as no partition
hash repeats. -/
theorem EpochHistory.booked (h : EpochHistory env config
      (fun s commitments => s.commitmentState.PledgesFresh commitments) s)
    (hnodup : s.allActivePartitions.Nodup) : s.Booked := by
  induction h with
  | genesis hids h =>
    exact (empty_booked _ config).moves
      (performEpochTasks_moves (empty_booked _ config) (pledgesFresh_empty hids)
        (expectOk_eq_ok.mp h) hnodup)
  | step run hfresh h ih =>
    have hs := ih (hnodup.sublist (performEpochTasks_minted h).sublist)
    exact hs.moves (performEpochTasks_moves hs hfresh h hnodup)

/-! ### The invariant -/

/-- All pledges in force. -/
def EpochSnapshot.pledgeEntries (s : EpochSnapshot) : List PledgeEntry :=
  s.commitmentState.pledgeCommitments.values.flatten

def EpochSnapshot.assignedPartitions (s : EpochSnapshot) : List PartitionHash :=
  s.partitionAssignments.capacityPartitions.keys ++ s.partitionAssignments.dataPartitions.keys

structure PartitionInvariant (s : EpochSnapshot) : Prop where
  /-- The pool and the two maps are disjoint and free of duplicates. -/
  distinct : (s.unassignedPartitions ++ s.assignedPartitions).Nodup
  /-- Together they are all active partitions. -/
  complete : (s.unassignedPartitions ++ s.assignedPartitions).Perm s.allActivePartitions
  /-- A slot lists the partitions whose data assignment names it. -/
  listed : ∀ ledger i hash, hash ∈ s.ledgers.partitionsIn (ledger, i) ↔
    ∃ a, s.partitionAssignments.dataPartitions[hash]? = some a ∧
      a.ledgerId = some ledger ∧ a.slotIndex = some i
  /-- It lists each of them once. -/
  once : ∀ slot, (s.ledgers.partitionsIn slot).Nodup
  /-- It has no more than the configured number. -/
  room : ∀ slot, (s.ledgers.partitionsIn slot).length ≤ s.config.numPartitionsPerSlot
  /-- It has no two partitions of one miner. -/
  miners : ∀ slot, ((s.ledgers.partitionsIn slot).map s.minerOf).Nodup
  /-- An expired slot has none. -/
  expired : ∀ slot, s.ledgers.expiredIn slot = true → s.ledgers.partitionsIn slot = []
  /-- The partitions of the pledges are the assigned ones, each once. -/
  pledged : (s.pledgeEntries.filterMap (·.partitionHash)).Perm s.assignedPartitions
  /-- The partition of a pledge is assigned to its signer. -/
  owned : ∀ e ∈ s.pledgeEntries, ∀ hash ∈ e.partitionHash,
    ∃ a, s.partitionAssignments.getAssignment hash = some a ∧ a.minerAddress = e.signer

theorem mem_keys_iff {V : Type} {map : TreeMap PartitionHash V} {hash : PartitionHash} :
    hash ∈ map.keys ↔ ∃ a, map[hash]? = some a := by
  rw [TreeMap.mem_keys, TreeMap.mem_iff_isSome_getElem?, Option.isSome_iff_exists]

theorem keys_nodup {V : Type} (map : TreeMap PartitionHash V) : map.keys.Nodup := by
  refine (TreeMap.ordered_keys (t := map)).imp ?_
  intro a b hlt heq
  rw [heq] at hlt
  simp at hlt

theorem mem_assignedPartitions {hash : PartitionHash} :
    hash ∈ s.assignedPartitions ↔ (s.registry.held hash).isSome = true := by
  rw [EpochSnapshot.assignedPartitions, mem_append, mem_keys_iff, mem_keys_iff]
  show _ ↔ ((s.partitionAssignments.getAssignment hash).map _).isSome = true
  rw [Option.isSome_map, getAssignment_eq]
  cases s.partitionAssignments.dataPartitions[hash]? with
  | none =>
    cases s.partitionAssignments.capacityPartitions[hash]? with
    | none => simp
    | some a => simp
  | some a => simp

theorem assignedPartitions_nodup (hs : s.Filed) : s.assignedPartitions.Nodup := by
  refine nodup_append.mpr ⟨keys_nodup _, keys_nodup _, ?_⟩
  intro x hx y hy hxy
  subst hxy
  obtain ⟨a, ha⟩ := mem_keys_iff.mp hx
  obtain ⟨d, hd⟩ := mem_keys_iff.mp hy
  rw [hs.assignments.apart x d hd] at ha
  cases ha

theorem minerOf_eq {hash : PartitionHash} {m : IrysAddress} {p : Option (DataLedger × ℕ)}
    (h : s.registry.held hash = some ⟨m, p⟩) : s.minerOf hash = m := by
  obtain ⟨a, ha, hholding⟩ := Option.map_eq_some_iff.mp h
  rw [minerOf, ha]
  exact congrArg Holding.holder hholding

theorem held_iff_data (hs : s.Filed) {hash : PartitionHash} {ledger : DataLedger} {i : ℕ} :
    (∃ m, s.registry.held hash = some ⟨m, some (ledger, i)⟩) ↔
      ∃ a, s.partitionAssignments.dataPartitions[hash]? = some a ∧
        a.ledgerId = some ledger ∧ a.slotIndex = some i := by
  constructor
  · intro h
    obtain ⟨m, hm⟩ := h
    obtain ⟨a, ha, hholding⟩ := Option.map_eq_some_iff.mp hm
    have hbin : a.bin = some (ledger, i) := congrArg Holding.bin hholding
    rw [getAssignment_eq] at ha
    cases hdata : s.partitionAssignments.dataPartitions[hash]? with
    | none =>
      rw [hdata] at ha
      obtain ⟨-, hl, -⟩ := hs.assignments.capacity hash a ha
      rw [PartitionAssignment.bin, hl] at hbin
      cases hbin
    | some d =>
      rw [hdata] at ha
      cases ha
      obtain ⟨-, ledger', i', hl, hi⟩ := hs.assignments.data hash a hdata
      rw [PartitionAssignment.bin, hl, hi] at hbin
      cases hbin
      exact ⟨a, rfl, hl, hi⟩
  · intro h
    obtain ⟨a, ha, hl, hi⟩ := h
    exact ⟨a.minerAddress, bin_of_data ha hl hi⟩

theorem mem_pledgeEntries (hs : s.Filed) {e : PledgeEntry} :
    e ∈ s.pledgeEntries ↔ e ∈ s.commitmentState.pledgesOf e.signer := by
  rw [EpochSnapshot.pledgeEntries, mem_flatten]
  constructor
  · intro h
    obtain ⟨entries, hentries, he⟩ := h
    obtain ⟨signer, hget⟩ := mem_values_iff.mp hentries
    obtain rfl := pledgesOf_of_getElem? hget
    rw [(hs.commitments.pledges signer e he).1]
    exact he
  · intro h
    rw [CommitmentState.pledgesOf] at h
    cases hget : s.commitmentState.pledgeCommitments[e.signer]? with
    | none =>
      rw [hget] at h
      cases h
    | some entries =>
      rw [hget] at h
      exact ⟨entries, mem_values_iff.mpr ⟨e.signer, hget⟩, h⟩

theorem count_filterMap_partitionHash (entries : List PledgeEntry) (hash : PartitionHash) :
    (entries.filterMap (·.partitionHash)).count hash =
      (entries.map (·.partitionHash)).count (some hash) := by
  rw [count_filterMap, List.count, countP_map]
  rfl

theorem Booked.pledged_nodup (hs : s.Booked) :
    (s.pledgeEntries.filterMap (·.partitionHash)).Nodup := by
  rw [EpochSnapshot.pledgeEntries, filterMap_flatten, ← flatMap_def]
  have hclaims : ∀ {signer : IrysAddress} {entries : List PledgeEntry},
      s.commitmentState.pledgeCommitments[signer]? = some entries →
        s.registry.claims signer = entries.map (·.partitionHash) := by
    intro signer entries hget
    exact congrArg _ (pledgesOf_of_getElem? hget)
  refine nodup_flatMap_values s.minerOf ?_ ?_
  · intro signer entries hget
    rw [nodup_iff_count_le_one]
    intro hash
    rw [count_filterMap_partitionHash, ← hclaims hget]
    exact hs.wellFormed.claim_once signer hash
  · intro signer entries hget hash hhash
    obtain ⟨e, he, hsome⟩ := mem_filterMap.mp hhash
    have hmem : some hash ∈ s.registry.claims signer := by
      rw [hclaims hget]
      exact List.mem_map.mpr ⟨e, he, hsome⟩
    obtain ⟨p, hp⟩ := (hs.wellFormed.mem_claims signer hash).mp hmem
    exact minerOf_eq hp

/-- **A well-formed registry is the invariant.** -/
theorem Booked.partitionInvariant (hs : s.Booked) : PartitionInvariant s := by
  have hwf := hs.wellFormed
  have hpool : ∀ x ∈ s.unassignedPartitions, x ∉ s.assignedPartitions := by
    intro x hx hmem
    rw [mem_assignedPartitions, hwf.pool_free x hx] at hmem
    cases hmem
  have hdistinct : (s.unassignedPartitions ++ s.assignedPartitions).Nodup :=
    nodup_append.mpr ⟨hwf.nodup_pool, assignedPartitions_nodup hs.filed,
      fun x hx y hy hxy => hpool x hx (hxy ▸ hy)⟩
  have hclaim : ∀ e ∈ s.pledgeEntries, ∀ hash ∈ e.partitionHash,
      ∃ p, s.registry.held hash = some ⟨e.signer, p⟩ := by
    intro e he hash hhash
    rw [← hwf.mem_claims]
    exact List.mem_map.mpr ⟨e, (mem_pledgeEntries hs.filed).mp he, hhash⟩
  refine ⟨hdistinct, ?_, ?_, hwf.nodup_bin, hwf.bin_le, ?_, hwf.retired_empty, ?_, ?_⟩
  · refine (perm_ext_iff_of_nodup hdistinct hwf.nodup_minted).mpr ?_
    intro x
    rw [mem_append, mem_assignedPartitions]
    exact (hwf.minted_iff x).symm
  · intro ledger i hash
    rw [← held_iff_data hs.filed]
    exact hwf.mem_bin (ledger, i) hash
  · intro slot
    refine List.Nodup.map_on ?_ (hwf.nodup_bin slot)
    intro x hx y hy hxy
    obtain ⟨m, hm⟩ := (hwf.mem_bin slot x).mp hx
    obtain ⟨m', hm'⟩ := (hwf.mem_bin slot y).mp hy
    rw [minerOf_eq hm, minerOf_eq hm'] at hxy
    subst hxy
    exact hwf.bin_inj slot m x y hm hm'
  · refine (perm_ext_iff_of_nodup (Booked.pledged_nodup hs)
      (assignedPartitions_nodup hs.filed)).mpr ?_
    intro x
    rw [mem_assignedPartitions, mem_filterMap]
    constructor
    · intro h
      obtain ⟨e, he, hhash⟩ := h
      obtain ⟨p, hp⟩ := hclaim e he x hhash
      rw [hp]
      rfl
    · intro h
      obtain ⟨⟨m, p⟩, hheld⟩ := Option.isSome_iff_exists.mp h
      have hmem : some x ∈ s.registry.claims m := (hwf.mem_claims m x).mpr ⟨p, hheld⟩
      obtain ⟨e, he, hsome⟩ := List.mem_map.mp hmem
      have hsigner := (hs.filed.commitments.pledges m e he).1
      exact ⟨e, (mem_pledgeEntries hs.filed).mpr (hsigner.symm ▸ he), hsome⟩
  · intro e he hash hhash
    obtain ⟨p, hp⟩ := hclaim e he hash hhash
    obtain ⟨a, ha, hholding⟩ := Option.map_eq_some_iff.mp hp
    exact ⟨a, ha, congrArg Holding.holder hholding⟩

/-- **The partition invariant.**  In every snapshot reached from genesis by epoch blocks that
carry what a commitment snapshot collected, none of them a pledge already in force, the invariant
holds, as long as no partition hash repeats. -/
theorem partition_invariant
    (h : EpochHistory env config (fun s c => FromSnapshot s c ∧ NoReplay s c) s)
    (hnodup : s.allActivePartitions.Nodup) : PartitionInvariant s := by
  refine Booked.partitionInvariant (EpochHistory.booked (h.imp ?_) hnodup)
  intro s commitments hP
  obtain ⟨⟨txs, rfl⟩, hreplay⟩ := hP
  refine ⟨(CommitmentSnapshot.addCommitments_sound CommitmentSnapshot.sound_empty
    txs).pledges_distinct, ?_⟩
  intro c hc
  obtain ⟨hmem, hpledge⟩ := mem_filter.mp hc
  exact hreplay c hmem hpledge

/-! ### Two runs -/

/-- An epoch block of the sample chain after a sequence of `add_commitment` calls. -/
def epochAfter (s : EpochSnapshot) (height : ℕ) (txs : List CommitmentTransaction) :
    EpochRes EpochSnapshot :=
  s.performEpochTasks referenceEnv (some s.epochBlock)
    (sampleHeader height 0 ((s.collected txs).map (·.id))) (s.collected txs)

/-- The partition of a pledge. -/
def partitionOf (s : EpochSnapshot) (signer : IrysAddress) (id : IrysTransactionId) :
    PartitionHash :=
  (((s.commitmentState.pledgesOf signer).find? (·.id == id)).bind (·.partitionHash)).getD 0

/-- Miner 7 gives up the partition of its first pledge and then adds `pledge`. -/
def pledgeRun (pledge : CommitmentTransaction) :
    EpochRes (EpochSnapshot × EpochSnapshot × EpochSnapshot) := do
  let s₀ ← EpochSnapshot.new referenceEnv (sampleHeader 0 0 [1, 2, 3]) sampleCommitments
    sampleConfig
  let s₁ ← epochAfter s₀ 1 [⟨4, 7, 0, 0, .unpledge 2 (partitionOf s₀ 7 2)⟩]
  let s₂ ← epochAfter s₁ 2 [pledge]
  return (s₀, s₁, s₂)

theorem pledgeRun_history {pledge : CommitmentTransaction} {s₀ s₁ s₂ : EpochSnapshot}
    (h : pledgeRun pledge = .ok (s₀, s₁, s₂))
    (h₁ : P s₀ (s₀.collected [⟨4, 7, 0, 0, .unpledge 2 (partitionOf s₀ 7 2)⟩]))
    (h₂ : P s₁ (s₁.collected [pledge])) : EpochHistory referenceEnv sampleConfig P s₂ := by
  obtain ⟨t₀, hnew, h⟩ := bind_eq_ok.mp h
  obtain ⟨t₁, hstep₁, h⟩ := bind_eq_ok.mp h
  obtain ⟨t₂, hstep₂, hret⟩ := bind_eq_ok.mp h
  cases hret
  exact .step (.step (.genesis (by decide) hnew) h₁ hstep₁) h₂ hstep₂

instance (s : EpochSnapshot) (commitments : List CommitmentTransaction) :
    Decidable (NoReplay s commitments) :=
  inferInstanceAs (Decidable (∀ c ∈ _, _ → ∀ e ∈ _, _))

theorem pledgeRun_new : (match pledgeRun ⟨5, 7, 0, 0, .pledge 1⟩ with
    | .ok (s₀, s₁, s₂) =>
      decide (NoReplay s₀ (s₀.collected [⟨4, 7, 0, 0, .unpledge 2 (partitionOf s₀ 7 2)⟩]))
        && decide (NoReplay s₁ (s₁.collected [⟨5, 7, 0, 0, .pledge 1⟩]))
        && decide s₂.allActivePartitions.Nodup
        && s₂.pledgeEntries.map (·.id) == [3, 5]
    | .error _ => false) = true := by
  decide +kernel

theorem partition_invariant_new_pledge : ∃ s, EpochHistory referenceEnv sampleConfig
      (fun s c => FromSnapshot s c ∧ NoReplay s c) s ∧
    s.pledgeEntries.map (·.id) = [3, 5] ∧ PartitionInvariant s := by
  have hfacts := pledgeRun_new
  cases hrun : pledgeRun ⟨5, 7, 0, 0, .pledge 1⟩ with
  | error e => simp [hrun] at hfacts
  | ok r =>
    obtain ⟨s₀, s₁, s₂⟩ := r
    simp only [hrun, Bool.and_eq_true, decide_eq_true_eq, beq_iff_eq] at hfacts
    obtain ⟨⟨⟨hno₀, hno₁⟩, hnodup⟩, hids⟩ := hfacts
    have hhistory := pledgeRun_history (P := fun s c => FromSnapshot s c ∧ NoReplay s c) hrun
      ⟨⟨_, rfl⟩, hno₀⟩ ⟨⟨_, rfl⟩, hno₁⟩
    exact ⟨s₂, hhistory, hids, partition_invariant hhistory hnodup⟩

theorem pledgeRun_replay : (match pledgeRun ⟨3, 7, 0, 0, .pledge 1⟩ with
    | .ok (_, _, s₂) => decide s₂.allActivePartitions.Nodup
        && (s₂.pledgeEntries.filterMap (·.partitionHash)).length == 1
        && s₂.assignedPartitions.length == 2
    | .error _ => false) = true := by
  decide +kernel

/-- **A pledge carried twice.**  Once its count fits again, the second pledge of genesis can be
added a second time; its entry is found by id, so the new partition overwrites the old one, which
stays assigned with no pledge. -/
theorem replayed_pledge_breaks_invariant : ∃ s,
    EpochHistory referenceEnv sampleConfig FromSnapshot s ∧ s.allActivePartitions.Nodup ∧
      ¬ PartitionInvariant s := by
  have hfacts := pledgeRun_replay
  cases hrun : pledgeRun ⟨3, 7, 0, 0, .pledge 1⟩ with
  | error e => simp [hrun] at hfacts
  | ok r =>
    obtain ⟨s₀, s₁, s₂⟩ := r
    simp only [hrun, Bool.and_eq_true, decide_eq_true_eq, beq_iff_eq] at hfacts
    obtain ⟨⟨hnodup, hpledged⟩, hassigned⟩ := hfacts
    refine ⟨s₂, pledgeRun_history hrun ⟨_, rfl⟩ ⟨_, rfl⟩, hnodup, ?_⟩
    intro hinv
    have hlength := hinv.pledged.length_eq
    rw [hpledged, hassigned] at hlength
    cases hlength

end Irys
