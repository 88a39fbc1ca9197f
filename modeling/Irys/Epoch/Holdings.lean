import Irys.Epoch.Refine
import Irys.Ledger.View
import Irys.Lib.Registry

/-!
# The epoch snapshot as a registry of partitions

An epoch snapshot records each partition in several places: in the pool of unassigned
partitions or in one of two assignment maps, in the slot it replicates, and in the pledge that
paid for it.  `registry` reads these records as one `Registry` whose items are partitions, whose
holders are miners, whose bins are ledger slots and whose claims are pledges.

* one `_moves` lemma for each function that moves partitions.
-/

namespace Irys

open Std (TreeMap)

/-! ### Reading the records -/

/-- The slot an assignment names. -/
def PartitionAssignment.bin (a : PartitionAssignment) : Option (DataLedger × ℕ) :=
  match a.ledgerId, a.slotIndex with
  | some ledger, some slotIndex => some (ledger, slotIndex)
  | _, _ => none

/-- Who holds an assigned partition, and where. -/
def PartitionAssignment.holding (a : PartitionAssignment) : Holding IrysAddress (DataLedger × ℕ) :=
  ⟨a.minerAddress, a.bin⟩

/-- Data assignments name a slot and capacity assignments name none; each is filed under its own
hash, and no hash has both. -/
structure PartitionAssignments.Filed (pa : PartitionAssignments) : Prop where
  data : ∀ (hash : PartitionHash) (a : PartitionAssignment), pa.dataPartitions[hash]? = some a →
    a.partitionHash = hash ∧ ∃ ledger i, a.ledgerId = some ledger ∧ a.slotIndex = some i
  capacity : ∀ (hash : PartitionHash) (a : PartitionAssignment),
    pa.capacityPartitions[hash]? = some a →
      a.partitionHash = hash ∧ a.ledgerId = none ∧ a.slotIndex = none
  apart : ∀ (hash : PartitionHash) (a : PartitionAssignment),
    pa.dataPartitions[hash]? = some a → pa.capacityPartitions[hash]? = none

/-- Stakes and pledges are in force and filed under their signer, and no signer has two pledges
of one id. -/
structure CommitmentState.Filed (cs : CommitmentState) : Prop where
  stakes : ∀ (signer : IrysAddress) (e : StakeEntry), cs.stakeCommitments[signer]? = some e →
    e.commitmentStatus = .active
  pledges : ∀ signer, ∀ e ∈ cs.pledgesOf signer, e.signer = signer ∧ e.commitmentStatus = .active
  ids : ∀ signer, ((cs.pledgesOf signer).map (·.id)).Nodup

namespace EpochSnapshot

/-- Partitions held by miners in ledger slots. -/
abbrev PartitionRegistry := Registry PartitionHash IrysAddress (DataLedger × ℕ)

/-- **The registry of a snapshot.** -/
def registry (s : EpochSnapshot) : PartitionRegistry where
  minted := s.allActivePartitions
  pool := s.unassignedPartitions
  held hash := (s.partitionAssignments.getAssignment hash).map (·.holding)
  bins := s.ledgers.partitionsIn
  retired := s.ledgers.expiredIn
  claims signer := (s.commitmentState.pledgesOf signer).map (·.partitionHash)

/-- The records are where they belong. -/
structure Filed (s : EpochSnapshot) : Prop where
  ledgers : s.ledgers.Uniform s.config.numPartitionsPerSlot
  assignments : s.partitionAssignments.Filed
  commitments : s.commitmentState.Filed

/-- **What an epoch function does to the records.** -/
structure Moves (s s' : EpochSnapshot) : Prop where
  filed : s'.Filed
  steps : Registry.Steps s.config.numPartitionsPerSlot s.registry s'.registry
  config : s'.config = s.config

/-- **The partition invariant**, in the registry's terms. -/
structure Booked (s : EpochSnapshot) : Prop where
  filed : s.Filed
  wellFormed : s.registry.WellFormed s.config.numPartitionsPerSlot

variable {env : EpochEnv} {s s' s'' : EpochSnapshot} {E : IrysBlockHeader}
  {prev : Option IrysBlockHeader} {hash : PartitionHash} {ledger : DataLedger} {i : ℕ}

theorem Moves.refl (h : s.Filed) : s.Moves s := ⟨h, .refl, rfl⟩

theorem Moves.trans (h : s.Moves s') (h' : s'.Moves s'') : s.Moves s'' :=
  ⟨h'.filed, h.steps.trans (h.config ▸ h'.steps), h'.config.trans h.config⟩

theorem Moves.of_eq (h : s'.Filed) (hreg : s'.registry = s.registry) (hcfg : s'.config = s.config) :
    s.Moves s' :=
  ⟨h, hreg ▸ .refl, hcfg⟩

theorem Booked.moves (h : s.Booked) (hm : s.Moves s') : s'.Booked :=
  ⟨hm.filed, hm.config ▸ hm.steps.wellFormed h.wellFormed⟩

variable {ε : Type} {pa : PartitionAssignments} {a : PartitionAssignment}
    {c : CommitmentTransaction}

theorem foldlM_moves {σ β : Type} (snap : σ → EpochSnapshot) {step : σ → β → Res ε σ}
    (hstep : ∀ a b a', (snap a).Booked → step a b = .ok a' → (snap a).Moves (snap a'))
    {l : List β} {a a' : σ} (ha : (snap a).Booked) (h : l.foldlM step a = .ok a') :
    (snap a).Moves (snap a') := by
  induction l generalizing a with
  | nil =>
    cases h
    exact .refl ha.filed
  | cons b l ih =>
    rw [List.foldlM_cons] at h
    obtain ⟨mid, hmid, hrest⟩ := bind_eq_ok.mp h
    have hm := hstep a b mid ha hmid
    exact hm.trans (ih (ha.moves hm) hrest)

/-! ### Assignments -/

theorem getAssignment_eq (pa : PartitionAssignments) (hash : PartitionHash) :
    pa.getAssignment hash =
      match pa.dataPartitions[hash]? with
      | some a => some a
      | none => pa.capacityPartitions[hash]? := by
  rw [PartitionAssignments.getAssignment]
  cases pa.dataPartitions[hash]? <;> rfl

theorem bin_of_data
    (ha : pa.dataPartitions[hash]? = some a) (hl : a.ledgerId = some ledger)
    (hi : a.slotIndex = some i) :
    (pa.getAssignment hash).map (·.holding) = some ⟨a.minerAddress, some (ledger, i)⟩ := by
  rw [getAssignment_eq, ha]
  simp [PartitionAssignment.holding, PartitionAssignment.bin, hl, hi]

theorem bin_of_capacity (h : pa.Filed)
    (ha : pa.capacityPartitions[hash]? = some a) :
    pa.dataPartitions[hash]? = none ∧
      (pa.getAssignment hash).map (·.holding) = some ⟨a.minerAddress, none⟩ := by
  have hdata : pa.dataPartitions[hash]? = none := by
    cases hd : pa.dataPartitions[hash]? with
    | none => rfl
    | some d =>
      rw [h.apart hash d hd] at ha
      cases ha
  refine ⟨hdata, ?_⟩
  obtain ⟨-, hl, hi⟩ := h.capacity hash a ha
  rw [getAssignment_eq, hdata, ha]
  simp [PartitionAssignment.holding, PartitionAssignment.bin, hl]

/-- The assignments of one partition at most differ. -/
structure ChangedAt (hash : PartitionHash) (pa pa' : PartitionAssignments) : Prop where
  data : ∀ x, x ≠ hash → pa'.dataPartitions[x]? = pa.dataPartitions[x]?
  capacity : ∀ x, x ≠ hash → pa'.capacityPartitions[x]? = pa.capacityPartitions[x]?

section

variable {pa' : PartitionAssignments} (h : ChangedAt hash pa pa')
include h

theorem ChangedAt.filed (hf : pa.Filed)
    (hdata : ∀ a, pa'.dataPartitions[hash]? = some a →
      (a.partitionHash = hash ∧ ∃ ledger i, a.ledgerId = some ledger ∧ a.slotIndex = some i) ∧
        pa'.capacityPartitions[hash]? = none)
    (hcap : ∀ a, pa'.capacityPartitions[hash]? = some a →
      a.partitionHash = hash ∧ a.ledgerId = none ∧ a.slotIndex = none) : pa'.Filed := by
  refine ⟨?_, ?_, ?_⟩
  · intro x a ha
    by_cases hx : x = hash
    · subst hx
      exact (hdata a ha).1
    · exact hf.data x a (h.data x hx ▸ ha)
  · intro x a ha
    by_cases hx : x = hash
    · subst hx
      exact hcap a ha
    · exact hf.capacity x a (h.capacity x hx ▸ ha)
  · intro x a ha
    by_cases hx : x = hash
    · subst hx
      exact (hdata a ha).2
    · rw [h.capacity x hx]
      exact hf.apart x a (h.data x hx ▸ ha)

theorem ChangedAt.held {p : Option (Holding IrysAddress (DataLedger × ℕ))}
    (hp : (pa'.getAssignment hash).map (·.holding) = p) :
    (fun x => (pa'.getAssignment x).map (·.holding)) =
      Function.update (fun x => (pa.getAssignment x).map (·.holding)) hash p := by
  funext x
  by_cases hx : x = hash
  · subst hx
    rw [Function.update_self, hp]
  · rw [Function.update_of_ne hx, getAssignment_eq, getAssignment_eq, h.data x hx, h.capacity x hx]

end

/-! ### Back to the capacity pool -/

theorem removePartitionFromSlot_table {L L' : Ledgers}
    (h : (L.removePartitionFromSlot ledger i hash : Res ε _) = .ok L') :
    L'.partitionsIn = Function.update L.partitionsIn (ledger, i)
        ((L.partitionsIn (ledger, i)).filter (· != hash)) ∧
      L'.expiredIn = L.expiredIn ∧ ∀ n, L.Uniform n → L'.Uniform n := by
  rw [Ledgers.removePartitionFromSlot, expect_eq_ok] at h
  exact ⟨Ledgers.partitionsIn_modifySlot? h (fun _ => rfl),
    Ledgers.expiredIn_modifySlot? h (fun _ => rfl),
    fun _ hu => (Ledgers.rewrites_modifySlot? h).uniform hu⟩

/-- **Returning a partition withdraws it from its slot**, if it is in one. -/
theorem returnExpiredPartitionToCapacity_registry (hf : s.Filed)
    (h : s.returnExpiredPartitionToCapacity hash = .ok s') :
    s'.Filed ∧ s'.config = s.config ∧
      ((s' = s ∧ ∀ m b, s.registry.held hash ≠ some ⟨m, some b⟩) ∨
        ∃ m b, s.registry.held hash = some ⟨m, some b⟩ ∧
          s'.registry = s.registry.withdraw hash m b) := by
  rw [returnExpiredPartitionToCapacity] at h
  split at h
  · rename_i hnone
    cases h
    refine ⟨hf, rfl, .inl ⟨rfl, ?_⟩⟩
    intro m b hheld
    obtain ⟨a, ha, hbin⟩ := Option.map_eq_some_iff.mp hheld
    rw [getAssignment_eq, hnone] at ha
    obtain ⟨-, hl, -⟩ := hf.assignments.capacity hash a ha
    simp [PartitionAssignment.holding, PartitionAssignment.bin, hl] at hbin
  · rename_i a ha
    obtain ⟨ledger, hl, h⟩ := bind_eq_ok.mp h
    obtain ⟨i, hi, h⟩ := bind_eq_ok.mp h
    obtain ⟨ledgers, hremove, hret⟩ := bind_eq_ok.mp h
    cases hret
    rw [expect_eq_ok] at hl hi
    have hhash := (hf.assignments.data hash a ha).1
    rw [hhash] at hremove ⊢
    obtain ⟨hparts, hexpired, huniform⟩ := removePartitionFromSlot_table hremove
    have hchanged : ChangedAt hash s.partitionAssignments
        ⟨s.partitionAssignments.dataPartitions.erase hash,
          s.partitionAssignments.capacityPartitions.insert hash
            ⟨hash, a.minerAddress, none, none⟩⟩ := by
      constructor <;> intro x hx <;>
        simp [TreeMap.getElem?_erase, TreeMap.getElem?_insert, hx.symm]
    refine ⟨⟨huniform _ hf.ledgers, hchanged.filed hf.assignments (by simp) (by simp),
      hf.commitments⟩, rfl, .inr ⟨a.minerAddress, (ledger, i), bin_of_data ha hl hi, ?_⟩⟩
    refine Registry.ext rfl rfl (hchanged.held ?_) hparts hexpired rfl
    simp [getAssignment_eq, PartitionAssignment.holding, PartitionAssignment.bin]

/-! ### Back to the pool of unassigned partitions -/

theorem pledgesOf_insert (cs : CommitmentState) (signer other : IrysAddress)
    (entries : List PledgeEntry) :
    ({ cs with pledgeCommitments := cs.pledgeCommitments.insert signer entries } :
      CommitmentState).pledgesOf other = if other = signer then entries else cs.pledgesOf other := by
  by_cases h : other = signer
  · subst h
    simp [CommitmentState.pledgesOf]
  · have h' : ¬ signer = other := fun e => h e.symm
    simp [CommitmentState.pledgesOf, TreeMap.getElem?_insert, h, h']

theorem released_pledgesOf (s : EpochSnapshot) (hash : PartitionHash) (signer other : IrysAddress) :
    (s.released hash signer).commitmentState.pledgesOf other =
      if other = signer then
        (s.commitmentState.pledgesOf signer).eraseP (·.partitionHash == some hash)
      else s.commitmentState.pledgesOf other := by
  rw [released]
  dsimp only
  cases hget : s.commitmentState.pledgeCommitments[signer]? with
  | none =>
    by_cases ho : other = signer
    · subst ho
      simp [CommitmentState.pledgesOf, hget]
    · simp [CommitmentState.pledgesOf, ho]
  | some entries =>
    dsimp only
    rw [pledgesOf_insert]
    simp [CommitmentState.pledgesOf, hget]

theorem released_changed (s : EpochSnapshot) (hash : PartitionHash) (signer : IrysAddress) :
    ChangedAt hash s.partitionAssignments (s.released hash signer).partitionAssignments := by
  constructor <;> intro x hx <;> simp [released, TreeMap.getElem?_erase, hx.symm]

theorem released_filed (hf : s.Filed) (hash : PartitionHash) (signer : IrysAddress) :
    (s.released hash signer).Filed := by
  have hsub : ∀ other, ((s.released hash signer).commitmentState.pledgesOf other).Sublist
      (s.commitmentState.pledgesOf other) := by
    intro other
    rw [released_pledgesOf]
    split
    · rename_i ho
      rw [ho]
      exact List.eraseP_sublist
    · exact List.Sublist.refl _
  refine ⟨hf.ledgers, (released_changed s hash signer).filed hf.assignments (by simp [released])
    (by simp [released]), ⟨hf.commitments.stakes, ?_, ?_⟩⟩
  · intro other e he
    exact hf.commitments.pledges other e ((hsub other).subset he)
  · intro other
    exact (hf.commitments.ids other).sublist ((hsub other).map _)

/-- **The registry after a release.** -/
theorem released_registry (hash : PartitionHash) (signer : IrysAddress)
    (hpool : hash ∉ s.unassignedPartitions) :
    (s.released hash signer).registry = s.registry.release hash signer := by
  refine Registry.ext rfl ?_ ((released_changed s hash signer).held ?_) rfl rfl ?_
  · simp [registry, released, Registry.release, hpool]
  · simp [released, getAssignment_eq]
  · funext other
    show ((s.released hash signer).commitmentState.pledgesOf other).map _ = _
    show _ = Function.update s.registry.claims signer
      (((s.commitmentState.pledgesOf signer).map (·.partitionHash)).erase (some hash)) other
    rw [released_pledgesOf, Function.update_apply]
    split
    · rw [List.erase_eq_eraseP, List.eraseP_map]
      congr 2
      funext e
      simp [eq_comm]
    · rfl

/-- **An unpledge releases the partition**, out of its slot first if it is in one. -/
theorem applyUnpledge_moves (hs : s.Booked)
    (h : s.applyUnpledge c = .ok s') : s.Moves s' := by
  rcases applyUnpledge_cases h with ⟨-, rfl⟩ | ⟨n, hash, -, hcase⟩
  · exact .refl hs.filed
  · rcases hcase with ⟨a, -, hcap, hminer, rfl⟩ |
      ⟨a, ledger, i, ledgers, hdata, -, hminer, hl, hi, hremove, rfl⟩
    · have hheld : s.registry.held hash = some ⟨c.signer, none⟩ :=
        hminer ▸ (bin_of_capacity hs.filed.assignments hcap).2
      have hpool := (hs.wellFormed.of_held hheld).2
      refine ⟨released_filed hs.filed hash c.signer, ?_, rfl⟩
      rw [released_registry hash c.signer hpool]
      exact .single (.release hheld)
    · have hheld : s.registry.held hash = some ⟨c.signer, some (ledger, i)⟩ :=
        hminer ▸ bin_of_data hdata hl hi
      have hpool := (hs.wellFormed.of_held hheld).2
      obtain ⟨hparts, hexpired, huniform⟩ := removePartitionFromSlot_table hremove
      have hmid : (s.withLedgers ledgers).Filed :=
        ⟨huniform _ hs.filed.ledgers, hs.filed.assignments, hs.filed.commitments⟩
      refine ⟨released_filed hmid hash c.signer, ?_, rfl⟩
      rw [released_registry hash c.signer (show hash ∉ (s.withLedgers ledgers).unassignedPartitions
        from hpool)]
      -- out of the slot and then out of hand: the assignment is written once
      have hreg : (s.withLedgers ledgers).registry.release hash c.signer =
          (s.registry.withdraw hash c.signer (ledger, i)).release hash c.signer := by
        refine Registry.ext rfl rfl ?_ hparts hexpired rfl
        simp only [Registry.release, Registry.withdraw, Function.update_idem]
        rfl
      rw [hreg]
      exact (Relation.ReflTransGen.single (.withdraw hheld)).tail
        (.release (Function.update_self ..))

end EpochSnapshot

end Irys
