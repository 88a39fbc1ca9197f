import Irys.Epoch.Holdings
import Irys.Lib.Finmap

/-!
# Pledges and the partitions they get

A pledge enters the commitment state without a partition, and gets one of the unassigned
partitions at the end of some epoch.

Pledge entries are found by id, so the pairing loop depends on ids not being repeated.
-/

namespace Irys

open List

open Std (TreeMap)

def CommitmentTransaction.isPledge (c : CommitmentTransaction) : Bool :=
  c.commitmentType matches .pledge _

/-- **The pledges of a list are new to a commitment state.** -/
structure CommitmentState.PledgesFresh (cs : CommitmentState)
    (commitments : List CommitmentTransaction) : Prop where
  distinct : ((commitments.filter (·.isPledge)).map fun c => (c.signer, c.id)).Nodup
  unused : ∀ c ∈ commitments.filter (·.isPledge), ∀ e ∈ cs.pledgesOf c.signer, e.id ≠ c.id

namespace EpochSnapshot

variable {env : EpochEnv} {s s' : EpochSnapshot} {commitments : List CommitmentTransaction}

/-! ### Filing stakes and pledges -/

variable {cs cs' : CommitmentState}

theorem insertStake_filed (h : cs.Filed) (c : CommitmentTransaction) :
    (insertStake cs c).Filed := by
  refine ⟨?_, h.pledges, h.ids⟩
  intro signer e he
  simp only [insertStake, TreeMap.getElem?_insert, Nat.compare_eq_eq] at he
  split at he
  · cases he
    rfl
  · exact h.stakes signer e he

theorem foldl_insertStake (stakes : List CommitmentTransaction) (cs : CommitmentState) :
    (stakes.foldl insertStake cs).pledgeCommitments = cs.pledgeCommitments ∧
      (cs.Filed → (stakes.foldl insertStake cs).Filed) := by
  induction stakes generalizing cs with
  | nil => exact ⟨rfl, id⟩
  | cons c stakes ih =>
    obtain ⟨hpledges, hfiled⟩ := ih (insertStake cs c)
    exact ⟨hpledges, fun h => hfiled (insertStake_filed h c)⟩

/-- The entry of a new pledge. -/
def newPledge (c : CommitmentTransaction) : PledgeEntry :=
  { id := c.id, commitmentStatus := .active, signer := c.signer, amount := c.value,
    partitionHash := none }

section

variable (cs) (c : CommitmentTransaction)

/-- The commitments with one more pledge, at the end of its signer's. -/
def pledged : CommitmentState :=
  { cs with
    pledgeCommitments :=
      cs.pledgeCommitments.insert c.signer (cs.pledgesOf c.signer ++ [newPledge c]) }

theorem pledged_pledgesOf
    (signer : IrysAddress) :
    (pledged cs c).pledgesOf signer =
      if signer = c.signer then cs.pledgesOf c.signer ++ [newPledge c] else cs.pledgesOf signer :=
  pledgesOf_insert _ _ _ _

end

theorem insertPledge_eq_ok {c : CommitmentTransaction} (h : insertPledge cs c = .ok cs') :
    cs' = pledged cs c := by
  rw [insertPledge] at h
  split at h
  · cases h
    rfl
  · cases h

theorem insertPledge_moves {c : CommitmentTransaction} (hs : (s.withCommitments cs).Filed)
    (hnew : ∀ e ∈ cs.pledgesOf c.signer, e.id ≠ c.id) (h : insertPledge cs c = .ok cs') :
    (s.withCommitments cs).Moves (s.withCommitments cs') := by
  have hcs := hs.commitments
  rw [insertPledge_eq_ok h]
  refine ⟨⟨hs.ledgers, hs.assignments, hcs.stakes, ?_, ?_⟩, ?_, rfl⟩
  · intro signer e he
    rw [withCommitments, pledged_pledgesOf] at he
    split at he
    · rename_i hsigner
      subst hsigner
      rcases mem_append.mp he with he | he
      · exact hcs.pledges c.signer e he
      · cases mem_singleton.mp he
        exact ⟨rfl, rfl⟩
    · exact hcs.pledges signer e he
  · intro signer
    rw [withCommitments, pledged_pledgesOf]
    split
    · rw [map_append]
      refine nodup_append.mpr ⟨hcs.ids c.signer, by simp, ?_⟩
      intro x hx y hy hxy
      obtain ⟨e, he, rfl⟩ := List.mem_map.mp hx
      obtain rfl : y = c.id := by simpa [newPledge] using hy
      exact hnew e he hxy
    · exact hcs.ids signer
  · refine .single ?_
    have hreg : (s.withCommitments (pledged cs c)).registry =
        (s.withCommitments cs).registry.claim c.signer := by
      refine Registry.ext rfl rfl rfl rfl rfl ?_
      funext signer
      show ((pledged cs c).pledgesOf signer).map (·.partitionHash) =
        Function.update (s.withCommitments cs).registry.claims c.signer
          ((cs.pledgesOf c.signer).map (·.partitionHash) ++ [none]) signer
      rw [pledged_pledgesOf, Function.update_apply]
      split
      · rw [map_append]
        rfl
      · rfl
    rw [hreg]
    exact .claim _ _

theorem foldlM_insertPledge_moves {pledges : List CommitmentTransaction}
    (hs : (s.withCommitments cs).Filed)
    (hdistinct : (pledges.map fun c => (c.signer, c.id)).Nodup)
    (hunused : ∀ c ∈ pledges, ∀ e ∈ cs.pledgesOf c.signer, e.id ≠ c.id)
    (h : pledges.foldlM insertPledge cs = .ok cs') :
    (s.withCommitments cs).Moves (s.withCommitments cs') := by
  induction pledges generalizing cs with
  | nil =>
    cases h
    exact .refl hs
  | cons c pledges ih =>
    rw [foldlM_cons] at h
    obtain ⟨mid, hmid, hrest⟩ := bind_eq_ok.mp h
    rw [map_cons, nodup_cons] at hdistinct
    rw [forall_mem_cons] at hunused
    have hm := insertPledge_moves hs hunused.1 hmid
    refine hm.trans (ih hm.filed hdistinct.2 ?_ hrest)
    intro d hd e he
    rw [insertPledge_eq_ok hmid, pledged_pledgesOf] at he
    split at he
    · rename_i hsigner
      rcases mem_append.mp he with he | he
      · exact hunused.2 d hd e (hsigner ▸ he)
      · cases mem_singleton.mp he
        intro hid
        exact hdistinct.1 (List.mem_map.mpr ⟨d, hd, Prod.ext hsigner hid.symm⟩)
    · exact hunused.2 d hd e he

/-- **`compute_commitment_state`** files claims. -/
theorem computeCommitmentState_moves (hs : s.Filed)
    (hfresh : s.commitmentState.PledgesFresh commitments)
    (h : s.computeCommitmentState commitments = .ok s') : s.Moves s' := by
  obtain ⟨state, hstate, hret⟩ := bind_eq_ok.mp h
  cases hret
  have hstart : ∀ stakes : List CommitmentTransaction,
      (s.withCommitments (stakes.foldl insertStake s.commitmentState)).Filed := fun stakes =>
    ⟨hs.ledgers, hs.assignments, (foldl_insertStake stakes _).2 hs.commitments⟩
  have hof : ∀ (stakes : List CommitmentTransaction) signer, CommitmentState.pledgesOf
      (stakes.foldl insertStake s.commitmentState) signer = s.commitmentState.pledgesOf signer := by
    intro stakes signer
    rw [CommitmentState.pledgesOf, (foldl_insertStake stakes _).1]
    rfl
  refine Moves.trans (Moves.of_eq (hstart _) ?_ rfl)
    (foldlM_insertPledge_moves (hstart _) hfresh.distinct ?_ hstate)
  · refine Registry.ext rfl rfl rfl rfl rfl ?_
    funext signer
    exact congrArg _ (hof _ signer)
  · intro c hc e he
    rw [hof] at he
    exact hfresh.unused c hc e he

/-! ### Choosing the pledges to serve -/

theorem map_snd_stampLevels (held : TreeMap IrysAddress ℕ) (nextLevel : TreeMap IrysAddress ℕ)
    (pledges : List PledgeEntry) : (stampLevels held nextLevel pledges).map (·.2) = pledges := by
  induction pledges generalizing nextLevel with
  | nil => rfl
  | cons pledge pledges ih => rw [stampLevels, map_cons, ih]

/-- **The winners are pending pledges, each at most once.** -/
theorem waterFillSelect_subperm (pending : List PledgeEntry) (held : TreeMap IrysAddress ℕ)
    (available : ℕ) : (waterFillSelect pending held available).Subperm pending := by
  rw [waterFillSelect]
  refine (perm_insertionSort _ _).subperm.trans ?_
  refine ((take_sublist _ _).map _).subperm.trans ?_
  refine ((perm_insertionSort _ _).map _).subperm.trans ?_
  rw [map_snd_stampLevels]
  exact (perm_insertionSort _ _).subperm

/-- The pledges that wait for a partition. -/
def pendingPledges (s : EpochSnapshot) : List PledgeEntry :=
  s.commitmentState.pledgeCommitments.values.flatten.filter fun e =>
    e.commitmentStatus == .active && e.partitionHash.isNone

theorem pledgesOf_of_getElem? {entries : List PledgeEntry} {signer : IrysAddress}
    (h : cs.pledgeCommitments[signer]? = some entries) : cs.pledgesOf signer = entries := by
  rw [CommitmentState.pledgesOf, h]
  rfl

theorem mem_pendingPledges (hs : s.commitmentState.Filed) {e : PledgeEntry}
    (he : e ∈ s.pendingPledges) :
    e ∈ s.commitmentState.pledgesOf e.signer ∧ e.partitionHash = none := by
  obtain ⟨hmem, hcond⟩ := mem_filter.mp he
  simp only [Bool.and_eq_true, Option.isNone_iff_eq_none] at hcond
  obtain ⟨entries, hentries, hein⟩ := mem_flatten.mp hmem
  obtain ⟨signer, hget⟩ := mem_values_iff.mp hentries
  obtain rfl := pledgesOf_of_getElem? hget
  rw [(hs.pledges signer e hein).1]
  exact ⟨hein, hcond.2⟩

/-- No two pending pledges agree in signer and id: entries under one signer differ in id, and
entries under two signers differ in signer. -/
theorem pendingPledges_nodup (hs : s.commitmentState.Filed) :
    (s.pendingPledges.map fun e => (e.signer, e.id)).Nodup := by
  refine List.Nodup.sublist (filter_sublist.map _) ?_
  rw [map_flatten, ← flatMap_def]
  refine nodup_flatMap_values Prod.fst ?_ ?_
  · intro signer entries hget
    have hids := hs.ids signer
    rw [pledgesOf_of_getElem? hget, List.Nodup, pairwise_map] at hids
    rw [List.Nodup, pairwise_map]
    exact hids.imp fun hne heq => hne (congrArg Prod.snd heq)
  · intro signer entries hget p hp
    obtain ⟨e, he, rfl⟩ := List.mem_map.mp hp
    exact (hs.pledges signer e (pledgesOf_of_getElem? hget ▸ he)).1

/-! ### Pairing pledges with partitions -/

/-- The snapshot once a pledge has its partition. -/
def granted (s : EpochSnapshot) (hash : PartitionHash) (signer : IrysAddress)
    (entries : List PledgeEntry) : EpochSnapshot :=
  { s with
    commitmentState := { s.commitmentState with
      pledgeCommitments := s.commitmentState.pledgeCommitments.insert signer entries }
    partitionAssignments := { s.partitionAssignments with
      capacityPartitions := s.partitionAssignments.capacityPartitions.insert hash
        { partitionHash := hash, minerAddress := signer, ledgerId := none, slotIndex := none } }
    unassignedPartitions := s.unassignedPartitions.filter (· != hash) }

/-- A pledge that has its partition. -/
def fulfil (hash : PartitionHash) (e : PledgeEntry) : PledgeEntry :=
  { e with partitionHash := some hash }

/-- **One pairing.**  Ids are distinct, so the entry found is the pledge itself. -/
theorem assignLoop_cons {pledge : PledgeEntry} (rest : List PledgeEntry) (hash : PartitionHash)
    (parts : List PartitionHash) (hs : s.commitmentState.Filed)
    (hmem : pledge ∈ s.commitmentState.pledgesOf pledge.signer) :
    ∃ before after, s.commitmentState.pledgesOf pledge.signer = before ++ pledge :: after ∧
      assignLoop (pledge :: rest) (hash :: parts) s =
        assignLoop rest parts
          (s.granted hash pledge.signer (before ++ fulfil hash pledge :: after)) := by
  cases hget : s.commitmentState.pledgeCommitments[pledge.signer]? with
  | none =>
    rw [CommitmentState.pledgesOf, hget] at hmem
    cases hmem
  | some entries =>
    have hof := pledgesOf_of_getElem? hget
    obtain ⟨before, after, hsplit, hupdate⟩ := updateFirst_of_mem (f := fulfil hash)
      (hs.ids pledge.signer) hmem
    refine ⟨before, after, hsplit, ?_⟩
    rw [hof] at hupdate
    rw [assignLoop, hget]
    dsimp only
    rw [show updateFirst (·.id == pledge.id) (fun e => { e with partitionHash := some hash })
      entries = some (before ++ fulfil hash pledge :: after) from hupdate]
    rfl

theorem granted_pledgesOf (s : EpochSnapshot) (hash : PartitionHash) (signer other : IrysAddress)
    (entries : List PledgeEntry) :
    (s.granted hash signer entries).commitmentState.pledgesOf other =
      if other = signer then entries else s.commitmentState.pledgesOf other :=
  pledgesOf_insert _ _ _ _

/-- **A pairing is a grant of the registry.** -/
theorem granted_moves (hs : s.Booked) {hash : PartitionHash} {pledge : PledgeEntry}
    {before after : List PledgeEntry} (hhash : hash ∈ s.unassignedPartitions)
    (hsplit : s.commitmentState.pledgesOf pledge.signer = before ++ pledge :: after)
    (hpending : pledge.partitionHash = none) :
    s.Moves (s.granted hash pledge.signer (before ++ fulfil hash pledge :: after)) := by
  have hcs := hs.filed.commitments
  have hfree : (s.partitionAssignments.getAssignment hash).map (·.holding) = none :=
    hs.wellFormed.pool_free hash hhash
  rw [Option.map_eq_none_iff, getAssignment_eq] at hfree
  have hdata : s.partitionAssignments.dataPartitions[hash]? = none := by
    cases hd : s.partitionAssignments.dataPartitions[hash]? with
    | none => rfl
    | some a =>
      rw [hd] at hfree
      cases hfree
  have hchanged : ChangedAt hash s.partitionAssignments (s.granted hash pledge.signer
      (before ++ fulfil hash pledge :: after)).partitionAssignments := by
    constructor <;> intro x hx <;> simp [granted, TreeMap.getElem?_insert, hx.symm]
  refine ⟨⟨hs.filed.ledgers, hchanged.filed hs.filed.assignments (by simp [granted, hdata])
    (by simp [granted]), hcs.stakes, ?_, ?_⟩, ?_, rfl⟩
  · intro signer e he
    rw [granted_pledgesOf] at he
    split at he
    · rename_i hsigner
      subst hsigner
      have hall : ∀ e' ∈ before ++ pledge :: after,
          e'.signer = pledge.signer ∧ e'.commitmentStatus = .active :=
        hsplit ▸ hcs.pledges pledge.signer
      rcases mem_append.mp he with he | he
      · exact hall e (mem_append.mpr (.inl he))
      · rcases mem_cons.mp he with rfl | he
        · exact hall pledge (by simp)
        · exact hall e (by simp [he])
    · exact hcs.pledges signer e he
  · intro signer
    rw [granted_pledgesOf]
    split
    · have hids := hcs.ids pledge.signer
      rw [hsplit] at hids
      simpa [fulfil] using hids
    · exact hcs.ids signer
  · have hreg : (s.granted hash pledge.signer (before ++ fulfil hash pledge :: after)).registry =
        s.registry.grant hash pledge.signer (before.map (·.partitionHash))
          (after.map (·.partitionHash)) := by
      refine Registry.ext rfl rfl (hchanged.held ?_) rfl rfl ?_
      · simp [granted, getAssignment_eq, hdata, PartitionAssignment.holding,
          PartitionAssignment.bin]
      · funext signer
        show (CommitmentState.pledgesOf _ signer).map (·.partitionHash) =
          Function.update s.registry.claims pledge.signer _ signer
        rw [granted_pledgesOf, Function.update_apply]
        split
        · simp [fulfil]
        · rfl
    rw [hreg]
    refine .single (.grant hhash ?_)
    show (s.commitmentState.pledgesOf pledge.signer).map (·.partitionHash) = _
    rw [hsplit, map_append, map_cons, hpending]

/-- **The pairing loop** grants partitions, as long as the partitions are unassigned and the
pledges pending, each listed once. -/
theorem assignLoop_moves {pledges : List PledgeEntry} {parts : List PartitionHash} (hs : s.Booked)
    (hparts : parts.Nodup) (hpool : ∀ x ∈ parts, x ∈ s.unassignedPartitions)
    (hdistinct : (pledges.map fun e => (e.signer, e.id)).Nodup)
    (hpending : ∀ e ∈ pledges,
      e ∈ s.commitmentState.pledgesOf e.signer ∧ e.partitionHash = none) :
    s.Moves (assignLoop pledges parts s) := by
  induction pledges generalizing parts s with
  | nil => exact .refl hs.filed
  | cons pledge rest ih =>
    cases parts with
    | nil => exact .refl hs.filed
    | cons hash parts =>
      rw [nodup_cons] at hparts
      rw [map_cons, nodup_cons] at hdistinct
      rw [forall_mem_cons] at hpool hpending
      obtain ⟨before, after, hsplit, hloop⟩ :=
        assignLoop_cons rest hash parts hs.filed.commitments hpending.1.1
      rw [hloop]
      have hm := granted_moves hs hpool.1 hsplit hpending.1.2
      refine hm.trans (ih (hs.moves hm) hparts.2 ?_ hdistinct.2 ?_)
      · intro x hx
        refine mem_filter.mpr ⟨hpool.2 x hx, ?_⟩
        rw [bne_iff_ne]
        rintro rfl
        exact hparts.1 hx
      · intro e he
        obtain ⟨hein, hnone⟩ := hpending.2 e he
        refine ⟨?_, hnone⟩
        rw [granted_pledgesOf]
        split
        · rename_i hsigner
          -- another pledge of the same signer is still there
          have hne : e ≠ pledge := by
            rintro rfl
            exact hdistinct.1 (List.mem_map.mpr ⟨e, he, rfl⟩)
          rw [hsigner, hsplit] at hein
          simp only [mem_append, mem_cons] at hein ⊢
          tauto
        · exact hein

/-- **`assign_partition_hashes_to_pledges`.** -/
theorem assignPartitionHashesToPledges_moves (hs : s.Booked) :
    s.Moves s.assignPartitionHashesToPledges := by
  rw [assignPartitionHashesToPledges]
  split
  · exact .refl hs.filed
  · dsimp only
    split
    · exact .refl hs.filed
    · have hsub := waterFillSelect_subperm s.pendingPledges s.capacityHeld
        (s.unassignedPartitions.insertionSort (· ≤ ·)).length
      have hperm := perm_insertionSort (· ≤ ·) s.unassignedPartitions
      refine assignLoop_moves hs (hperm.nodup_iff.mpr hs.wellFormed.nodup_pool)
        (fun x hx => hperm.mem_iff.mp hx) ?_ ?_
      · obtain ⟨l, hl, hsubl⟩ := hsub
        have hnodup := (pendingPledges_nodup hs.filed.commitments).sublist
          (hsubl.map fun e => (e.signer, e.id))
        exact ((hl.map fun e => (e.signer, e.id)).nodup_iff).mp hnodup
      · intro e he
        exact mem_pendingPledges hs.filed.commitments (hsub.subset he)

/-! ### New partitions -/

/-- **`add_capacity_partitions`** mints the next hashes. -/
theorem addCapacityPartitions_moves (hs : s.Filed) (n : ℕ)
    (hnodup : (s.addCapacityPartitions env n).allActivePartitions.Nodup) :
    s.Moves (s.addCapacityPartitions env n) :=
  ⟨⟨hs.ledgers, hs.assignments, hs.commitments⟩, .single (.mint hnodup), rfl⟩

end EpochSnapshot

end Irys
