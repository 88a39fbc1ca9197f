import Irys.Epoch.Holdings
import Irys.Lib.Loops

/-!
# Backfilling slots

`backfill_missing_partitions` draws capacity partitions at random and puts them into slots that
miss replicas.  The lists it draws from are copies taken at the start; the invariants here say
that they stay true to the assignment maps.
-/

namespace Irys

open List

open Std (TreeMap)

namespace EpochSnapshot

variable {s s' : EpochSnapshot} {hash : PartitionHash} {ledger : DataLedger} {i : ℕ}

/-! ### One placement -/

/-- A capacity partition put into a slot, with the ledgers that list it there. -/
def placed (s : EpochSnapshot) (hash : PartitionHash) (ledger : DataLedger) (slotIndex : ℕ)
    (ledgers : Ledgers) : EpochSnapshot :=
  (s.assignPartitionToSlot hash ledger slotIndex).withLedgers ledgers

theorem pushPartitionToSlot_table {L L' : Ledgers} {ε : Type}
    (h : (L.pushPartitionToSlot ledger i hash : Res ε _) = .ok L') :
    L'.partitionsIn = Function.update L.partitionsIn (ledger, i)
        (L.partitionsIn (ledger, i) ++ [hash]) ∧
      L'.expiredIn = L.expiredIn ∧ ∀ n, L.Uniform n → L'.Uniform n := by
  rw [Ledgers.pushPartitionToSlot, expect_eq_ok] at h
  exact ⟨Ledgers.partitionsIn_modifySlot? (F := fun partitions => partitions ++ [hash]) h
      (fun _ => rfl),
    Ledgers.expiredIn_modifySlot? h (fun _ => rfl),
    fun _ hu => (Ledgers.rewrites_modifySlot? h).uniform hu⟩

/-- **Placing a partition is a step of the registry.** -/
theorem placed_registry (hf : s.Filed) {a : PartitionAssignment} {ledgers : Ledgers}
    (ha : s.partitionAssignments.capacityPartitions[hash]? = some a)
    (hpush : s.ledgers.pushPartitionToSlot ledger i hash = (.ok ledgers : EpochRes _)) :
    (s.placed hash ledger i ledgers).Filed ∧
      (s.placed hash ledger i ledgers).registry =
        s.registry.place hash a.minerAddress (ledger, i) := by
  obtain ⟨hparts, hexpired, huniform⟩ := pushPartitionToSlot_table hpush
  obtain ⟨hhash, -, -⟩ := hf.assignments.capacity hash a ha
  have hchanged : ChangedAt hash s.partitionAssignments
      (s.placed hash ledger i ledgers).partitionAssignments := by
    rw [placed, assignPartitionToSlot, ha]
    constructor <;> intro x hx <;>
      simp [withLedgers, TreeMap.getElem?_erase, TreeMap.getElem?_insert, hx.symm]
  rw [placed, assignPartitionToSlot, ha] at hchanged ⊢
  refine ⟨⟨huniform _ hf.ledgers, hchanged.filed hf.assignments ?_ ?_, hf.commitments⟩,
    Registry.ext rfl rfl (hchanged.held ?_) hparts hexpired rfl⟩
  · simp [withLedgers, ← hhash]
  · simp [withLedgers]
  · simp [withLedgers, getAssignment_eq, PartitionAssignment.holding, PartitionAssignment.bin]

theorem placed_capacity {a : PartitionAssignment} {ledgers : Ledgers}
    (ha : s.partitionAssignments.capacityPartitions[hash]? = some a) (x : PartitionHash) :
    (s.placed hash ledger i ledgers).partitionAssignments.capacityPartitions[x]? =
      if x = hash then none else s.partitionAssignments.capacityPartitions[x]? := by
  rw [placed, assignPartitionToSlot, ha]
  by_cases hx : x = hash
  · subst hx
    simp [withLedgers]
  · have hx' : ¬ hash = x := fun h => hx h.symm
    simp [withLedgers, TreeMap.getElem?_erase, hx, hx']

/-! ### One slot -/

/-- `swap_remove` picks an element and leaves the others. -/
theorem swapRemove_spec {α : Type} {l rest : List α} {a : α} {k : ℕ}
    (h : swapRemove l k = some (a, rest)) :
    a ∈ l ∧ ∀ b ∈ rest, b ∈ l := by
  rw [swapRemove] at h
  split at h
  · rename_i a' z hget hlast
    cases h
    refine ⟨mem_of_getElem? hget, ?_⟩
    intro b hb
    rcases mem_or_eq_of_mem_set (dropLast_subset _ hb) with hb | rfl
    · exact hb
    · exact mem_of_getLast? hlast
  · cases h

/-- **The loop invariant while a slot is filled.** -/
structure Drawing (ledger : DataLedger) (i needed : ℕ) (slotPool pool : CapacityPool)
    (s : EpochSnapshot) : Prop where
  booked : s.Booked
  current : ∀ p ∈ pool, s.partitionAssignments.capacityPartitions[p.1]? = some p.2
  within : ∀ p ∈ slotPool, p ∈ pool
  there : ∃ core, s.ledgers.get? ledger = some core ∧ i < core.slots.length
  live : s.ledgers.expiredIn (ledger, i) = false
  room : (s.ledgers.partitionsIn (ledger, i)).length + needed ≤ s.config.numPartitionsPerSlot
  others : ∀ p ∈ slotPool, ∀ x, s.registry.held x ≠ some ⟨p.2.minerAddress, some (ledger, i)⟩

variable {needed : ℕ} {slotPool rest pool : CapacityPool} {pa : PartitionAssignment}
  {ledgers : Ledgers}

theorem assignPartitionToSlot_ledgers (s : EpochSnapshot) (hash : PartitionHash)
    (ledger : DataLedger) (i : ℕ) : (s.assignPartitionToSlot hash ledger i).ledgers = s.ledgers := by
  rw [assignPartitionToSlot]
  split <;> rfl

theorem placed_config (s : EpochSnapshot) : (s.placed hash ledger i ledgers).config = s.config := by
  rw [placed, assignPartitionToSlot]
  split <;> rfl

/-- **One draw** places the partition it picked.  The miner's other partitions leave the slot's
list, so the next draw picks another miner. -/
theorem Drawing.draw (h : Drawing ledger i (needed + 1) slotPool pool s)
    (hp : (hash, pa) ∈ slotPool) (hrest : ∀ q ∈ rest, q ∈ slotPool)
    (hpush : s.ledgers.pushPartitionToSlot ledger i hash = (.ok ledgers : EpochRes _)) :
    s.Moves (s.placed hash ledger i ledgers) ∧
      Drawing ledger i needed (rest.filter (·.2.minerAddress != pa.minerAddress))
        (pool.filter (·.1 != hash)) (s.placed hash ledger i ledgers) := by
  have hcap : s.partitionAssignments.capacityPartitions[hash]? = some pa :=
    h.current _ (h.within _ hp)
  have hheld := (bin_of_capacity h.booked.filed.assignments hcap).2
  obtain ⟨hfiled, hreg⟩ := placed_registry h.booked.filed hcap hpush
  have hcfg : (s.placed hash ledger i ledgers).config = s.config := placed_config s
  have hroom := h.room
  have hmoves : s.Moves (s.placed hash ledger i ledgers) := by
    refine ⟨hfiled, ?_, hcfg⟩
    rw [hreg]
    refine .single (.place hheld h.live ?_ (h.others _ hp))
    show (s.ledgers.partitionsIn (ledger, i)).length < _
    omega
  obtain ⟨hparts, hexpired, -⟩ := pushPartitionToSlot_table hpush
  refine ⟨hmoves, ⟨h.booked.moves hmoves, ?_, ?_, ?_, ?_, ?_, ?_⟩⟩
  · intro p hmem
    obtain ⟨hmem, hne⟩ := mem_filter.mp hmem
    have hne' : ¬ p.1 = hash := by simpa using hne
    rw [placed_capacity hcap, if_neg hne']
    exact h.current p hmem
  · intro p hmem
    obtain ⟨hmem, hne⟩ := mem_filter.mp hmem
    have hpool := h.within p (hrest p hmem)
    refine mem_filter.mpr ⟨hpool, ?_⟩
    -- a partition of another miner is not the one drawn
    have hminer : p.2.minerAddress ≠ pa.minerAddress := by simpa using hne
    rw [bne_iff_ne]
    intro heq
    have hcur := h.current p hpool
    rw [heq, hcap] at hcur
    exact hminer (congrArg PartitionAssignment.minerAddress (Option.some.inj hcur)).symm
  · rw [Ledgers.pushPartitionToSlot, expect_eq_ok] at hpush
    obtain ⟨core, hcore, hi⟩ := h.there
    refine ⟨_, (Ledgers.rewrites_modifySlot? hpush).get? _ _ hcore, ?_⟩
    simpa using hi
  · show ledgers.expiredIn (ledger, i) = false
    rw [hexpired]
    exact h.live
  · show (ledgers.partitionsIn (ledger, i)).length + needed ≤ _
    rw [hparts, Function.update_self, hcfg, length_append, length_singleton]
    omega
  · intro p hmem x
    obtain ⟨hmem, hne⟩ := mem_filter.mp hmem
    have hminer : p.2.minerAddress ≠ pa.minerAddress := by simpa using hne
    rw [hreg]
    show Function.update s.registry.held hash _ x ≠ _
    rw [Function.update_apply]
    split
    · intro heq
      exact hminer (congrArg Holding.holder (Option.some.inj heq)).symm
    · exact h.others p (hrest p hmem) x

/-- The state of the backfill loops. -/
abbrev FillState := EpochSnapshot × CapacityPool × SimpleRng

/-- What filling one slot does: partitions move, the copies stay current, and no other slot's list
changes. -/
structure Filled (ledger : DataLedger) (i : ℕ) (st st' : FillState) : Prop where
  moves : st.1.Moves st'.1
  current : ∀ p ∈ st'.2.1, st'.1.partitionAssignments.capacityPartitions[p.1]? = some p.2
  elsewhere : ∀ slot, slot ≠ (ledger, i) →
    st'.1.ledgers.partitionsIn slot = st.1.ledgers.partitionsIn slot

variable {st st' : FillState} {need : ℕ × ℕ}

theorem Filled.of_draw {rng rng' : SimpleRng} {pool' : CapacityPool}
    (hmoves : s.Moves (s.placed hash ledger i ledgers))
    (hpush : s.ledgers.pushPartitionToSlot ledger i hash = (.ok ledgers : EpochRes _))
    (h : Filled ledger i (s.placed hash ledger i ledgers, pool', rng') st') :
    Filled ledger i (s, pool, rng) st' := by
  obtain ⟨hparts, -, -⟩ := pushPartitionToSlot_table hpush
  refine ⟨hmoves.trans h.moves, h.current, ?_⟩
  intro slot hne
  rw [h.elsewhere slot hne]
  show ledgers.partitionsIn slot = _
  rw [hparts, Function.update_of_ne hne]

theorem fillSlot_succ {rng : SimpleRng} (hempty : slotPool.isEmpty = false) :
    fillSlot ledger i (needed + 1) slotPool (s, pool, rng) = (do
      let (partIndex, rng) ← rng.nextRange (UInt32.ofNat slotPool.length)
      let ((hash, pa), rest) ← expect (swapRemove slotPool partIndex)
      let ledgers ← s.ledgers.pushPartitionToSlot ledger i hash
      fillSlot ledger i needed (rest.filter (·.2.minerAddress != pa.minerAddress))
        (s.placed hash ledger i ledgers, pool.filter (·.1 != hash), rng)) := by
  rw [fillSlot, hempty]
  simp only [assignPartitionToSlot_ledgers]
  rfl

/-- **Filling one slot.** -/
theorem fillSlot_spec (h : Drawing ledger i needed slotPool st.2.1 st.1)
    (hst : fillSlot ledger i needed slotPool st = .ok st') : Filled ledger i st st' := by
  induction needed generalizing slotPool st with
  | zero =>
    cases hst
    exact ⟨.refl h.booked.filed, h.current, fun _ _ => rfl⟩
  | succ needed ih =>
    obtain ⟨s, pool, rng⟩ := st
    cases hempty : slotPool.isEmpty with
    | true =>
      rw [fillSlot, hempty] at hst
      cases hst
      exact ⟨.refl h.booked.filed, h.current, fun _ _ => rfl⟩
    | false =>
      rw [fillSlot_succ hempty] at hst
      obtain ⟨⟨k, rng'⟩, -, hst⟩ := bind_eq_ok.mp hst
      obtain ⟨⟨⟨hash, pa⟩, rest⟩, hpick, hst⟩ := bind_eq_ok.mp hst
      obtain ⟨ledgers, hpush, hst⟩ := bind_eq_ok.mp hst
      obtain ⟨hmem, hrest⟩ := swapRemove_spec (expect_eq_ok.mp hpick)
      obtain ⟨hmoves, hnext⟩ := h.draw hmem hrest hpush
      exact .of_draw hmoves hpush (@ih _ (s.placed hash ledger i ledgers, _, rng') hnext hst)

/-! ### One ledger -/

/-- A slot that wants `needed` more replicas. -/
structure Wants (s : EpochSnapshot) (ledger : DataLedger) (need : ℕ × ℕ) : Prop where
  there : ∃ core, s.ledgers.get? ledger = some core ∧ need.1 < core.slots.length
  live : s.ledgers.expiredIn (ledger, need.1) = false
  room : (s.ledgers.partitionsIn (ledger, need.1)).length + need.2 ≤ s.config.numPartitionsPerSlot

/-- The miner of an assigned partition. -/
def minerOf (s : EpochSnapshot) (hash : PartitionHash) : IrysAddress :=
  ((s.partitionAssignments.getAssignment hash).map (·.minerAddress)).getD 0

/-- **One slot of `process_slot_needs`** is filled from the partitions of miners not in it. -/
theorem processSlotNeed_spec (hs : st.1.Booked)
    (hcur : ∀ p ∈ st.2.1, st.1.partitionAssignments.capacityPartitions[p.1]? = some p.2)
    (hwants : st.1.Wants ledger need) (hst : processSlotNeed ledger st need = .ok st') :
    Filled ledger need.1 st st' := by
  obtain ⟨s, pool, rng⟩ := st
  obtain ⟨core, hcore, hi⟩ := hwants.there
  obtain ⟨slot, hslot⟩ := exists_at hi
  have hparts : s.ledgers.partitionsIn (ledger, need.1) = slot.partitions := by
    rw [Ledgers.partitionsIn_of_get? hcore, Ledgers.partitionsAt, hslot]
    rfl
  -- every partition of the slot is assigned
  have hassigned : ∀ x ∈ slot.partitions,
      (do
        let pa ← expect (s.partitionAssignments.getAssignment x)
        return pa.minerAddress : EpochRes IrysAddress) = .ok (s.minerOf x) := by
    intro x hx
    rw [← hparts] at hx
    obtain ⟨m, hm⟩ := (hs.wellFormed.mem_bin (ledger, need.1) x).mp hx
    obtain ⟨a, ha, -⟩ := Option.map_eq_some_iff.mp hm
    rw [ha, minerOf, ha]
    rfl
  have heq : processSlotNeed ledger (s, pool, rng) need =
      fillSlot ledger need.1 need.2
        (pool.filter fun p => !((slot.partitions.map s.minerOf).contains p.2.minerAddress))
        (s, pool, rng) := by
    rw [processSlotNeed]
    simp only [hcore, hslot, expect_some, ok_bind]
    rw [mapM_eq_ok_map hassigned]
    rfl
  have hdraw : Drawing ledger need.1 need.2
      (pool.filter fun p => !((slot.partitions.map s.minerOf).contains p.2.minerAddress)) pool s := by
    refine ⟨hs, hcur, fun p hp => (mem_filter.mp hp).1, hwants.there, hwants.live,
      hwants.room, ?_⟩
    intro p hp x hx
    have hnot := (mem_filter.mp hp).2
    have hmem : x ∈ slot.partitions := by
      rw [← hparts]
      exact (hs.wellFormed.mem_bin (ledger, need.1) x).mpr ⟨_, hx⟩
    obtain ⟨a, ha, hhold⟩ := Option.map_eq_some_iff.mp hx
    have hminer : s.minerOf x = p.2.minerAddress := by
      rw [minerOf, ha]
      exact congrArg Holding.holder hhold
    have hin : p.2.minerAddress ∈ slot.partitions.map s.minerOf :=
      List.mem_map.mpr ⟨x, hmem, hminer⟩
    simp [hin] at hnot
  rw [heq] at hst
  exact @fillSlot_spec ledger need.1 need.2 _ (s, pool, rng) st' hdraw hst

/-- The needs of a ledger: its live slots with the replicas each misses. -/
def slotNeeds (core : LedgerCore) : List (ℕ × ℕ) :=
  (core.slots.zipIdx.map fun (slot, i) =>
    if 0 < core.numPartitionsPerSlot - slot.partitions.length && !slot.isExpired then
      some (i, core.numPartitionsPerSlot - slot.partitions.length)
    else none).filterMap id

/-- No slot is overfull, so the subtraction in `get_slot_needs` does not overflow. -/
theorem getSlotNeeds_eq {core : LedgerCore} {ε : Type}
    (h : ∀ slot ∈ core.slots, slot.partitions.length ≤ core.numPartitionsPerSlot) :
    (core.getSlotNeeds : Res ε _) = .ok (slotNeeds core) := by
  rw [LedgerCore.getSlotNeeds, mapM_eq_ok_map (g := fun (slot, i) =>
    if 0 < core.numPartitionsPerSlot - slot.partitions.length && !slot.isExpired then
      some (i, core.numPartitionsPerSlot - slot.partitions.length)
    else none)]
  · rfl
  · rintro ⟨slot, i⟩ hmem
    have hslot : slot ∈ core.slots :=
      mem_of_getElem? (mem_zipIdx_iff_getElem?.mp hmem)
    dsimp only
    rw [checkedSub_of_le (h slot hslot)]
    rfl

theorem mem_slotNeeds {core : LedgerCore} (h : need ∈ slotNeeds core) :
    ∃ slot, core.slots[need.1]? = some slot ∧ slot.isExpired = false ∧
      need.2 = core.numPartitionsPerSlot - slot.partitions.length := by
  obtain ⟨o, ho, hid⟩ := mem_filterMap.mp h
  obtain ⟨⟨slot, i⟩, hmem, rfl⟩ := List.mem_map.mp ho
  dsimp only [id] at hid
  split at hid
  · rename_i hcond
    cases hid
    simp only [Bool.and_eq_true, Bool.not_eq_true'] at hcond
    exact ⟨slot, mem_zipIdx_iff_getElem?.mp hmem, hcond.2, rfl⟩
  · cases hid

theorem slotNeeds_nodup (core : LedgerCore) : ((slotNeeds core).map (·.1)).Nodup := by
  have hsorted : (slotNeeds core).Pairwise fun a b => a.1 < b.1 := by
    rw [slotNeeds, filterMap_map]
    refine List.Pairwise.filterMap _ ?_ (zipIdx_sorted core.slots 0)
    rintro ⟨slot, i⟩ ⟨slot', i'⟩ hlt a ha b hb
    simp only [Function.comp_apply, id_eq, Option.ite_none_right_eq_some, Option.some.injEq] at ha hb
    rw [← ha.2, ← hb.2]
    exact hlt
  rw [List.Nodup, pairwise_map]
  exact hsorted.imp fun h => Nat.ne_of_lt h

/-- What the backfill loops do: partitions move, and the copy of the pool stays current. -/
structure Refilled (st st' : FillState) : Prop where
  moves : st.1.Moves st'.1
  current : ∀ p ∈ st'.2.1, st'.1.partitionAssignments.capacityPartitions[p.1]? = some p.2

theorem Refilled.trans {st'' : FillState} (h : Refilled st st') (h' : Refilled st' st'') :
    Refilled st st'' :=
  ⟨h.moves.trans h'.moves, h'.current⟩

theorem Wants.of_filled (h : st.1.Wants ledger need) (hfill : Filled ledger i st st')
    (hbare : st'.1.ledgers.bare = st.1.ledgers.bare) (hne : need.1 ≠ i) :
    st'.1.Wants ledger need where
  there := Ledgers.exists_slot_of_bare hbare h.there
  live := by
    rw [Ledgers.expiredIn_of_bare hbare]
    exact h.live
  room := by
    rw [hfill.elsewhere _ (by simp [hne]), hfill.moves.config]
    exact h.room

section

variable (hs : st.1.Booked)
    (hcur : ∀ p ∈ st.2.1, st.1.partitionAssignments.capacityPartitions[p.1]? = some p.2)
include hs hcur

theorem foldlM_processSlotNeed_spec {needs : List (ℕ × ℕ)} (hnodup : (needs.map (·.1)).Nodup)
    (hwants : ∀ need ∈ needs, st.1.Wants ledger need)
    (hst : needs.foldlM (processSlotNeed ledger) st = .ok st') : Refilled st st' := by
  induction needs generalizing st with
  | nil =>
    cases hst
    exact ⟨.refl hs.filed, hcur⟩
  | cons need needs ih =>
    rw [map_cons, nodup_cons] at hnodup
    rw [forall_mem_cons] at hwants
    rw [foldlM_cons] at hst
    obtain ⟨mid, hmid, hrest⟩ := bind_eq_ok.mp hst
    have hfill := processSlotNeed_spec hs hcur hwants.1 hmid
    have hbare : mid.1.ledgers.bare = st.1.ledgers.bare :=
      congrArg (·.1.2.1) (processSlotNeed_keeps hmid)
    -- what one slot leaves behind meets the hypotheses for the rest
    have hothers : ∀ other ∈ needs, mid.1.Wants ledger other := by
      intro other hother
      refine (hwants.2 other hother).of_filled hfill hbare ?_
      intro heq
      exact hnodup.1 (List.mem_map.mpr ⟨other, hother, heq⟩)
    exact Refilled.trans ⟨hfill.moves, hfill.current⟩
      (ih (hs.moves hfill.moves) hfill.current hnodup.2 hothers hrest)

/-- **`process_slot_needs`.** -/
theorem processSlotNeeds_spec (hactive : ledger ∈ st.1.ledgers.activeLedgers)
    (hst : processSlotNeeds st ledger = .ok st') : Refilled st st' := by
  obtain ⟨core, hcore⟩ := Ledgers.mem_activeLedgers_iff.mp hactive
  have hreplicas := hs.filed.ledgers.replicas ledger core hcore
  have hparts : ∀ (i : ℕ) (slot : LedgerSlot), core.slots[i]? = some slot →
      st.1.ledgers.partitionsIn (ledger, i) = slot.partitions := by
    intro i slot hslot
    rw [Ledgers.partitionsIn_of_get? hcore, Ledgers.partitionsAt, hslot]
    rfl
  have hle : ∀ (i : ℕ) (slot : LedgerSlot), core.slots[i]? = some slot →
      slot.partitions.length ≤ core.numPartitionsPerSlot := by
    intro i slot hslot
    rw [← hparts i slot hslot, hreplicas]
    exact hs.wellFormed.bin_le (ledger, i)
  have heq : processSlotNeeds st ledger = (slotNeeds core).foldlM (processSlotNeed ledger) st := by
    rw [processSlotNeeds, hcore, expect_some, ok_bind, getSlotNeeds_eq, ok_bind]
    intro slot hslot
    obtain ⟨i, hi⟩ := getElem?_of_mem hslot
    exact hle i slot hi
  rw [heq] at hst
  refine foldlM_processSlotNeed_spec hs hcur (slotNeeds_nodup core) ?_ hst
  intro need hneed
  obtain ⟨slot, hslot, hlive, hcount⟩ := mem_slotNeeds hneed
  refine ⟨⟨core, hcore, lt_length_of_some hslot⟩, ?_, ?_⟩
  · rw [Ledgers.expiredIn_of_get? hcore, Ledgers.expiredAt, hslot]
    exact hlive
  · have := hle need.1 slot hslot
    rw [hparts need.1 slot hslot, hcount, ← hreplicas]
    omega

/-! ### All ledgers -/

theorem foldlM_processSlotNeeds_spec {ledgers : List DataLedger}
    (hactive : ∀ ledger ∈ ledgers, ledger ∈ st.1.ledgers.activeLedgers)
    (hst : ledgers.foldlM processSlotNeeds st = .ok st') : Refilled st st' := by
  induction ledgers generalizing st with
  | nil =>
    cases hst
    exact ⟨.refl hs.filed, hcur⟩
  | cons ledger ledgers ih =>
    rw [forall_mem_cons] at hactive
    rw [foldlM_cons] at hst
    obtain ⟨mid, hmid, hrest⟩ := bind_eq_ok.mp hst
    have hfill := processSlotNeeds_spec hs hcur hactive.1 hmid
    have hbare : mid.1.ledgers.bare = st.1.ledgers.bare :=
      congrArg (·.1.2.1) (processSlotNeeds_keeps hmid)
    refine hfill.trans (ih (hs.moves hfill.moves) hfill.current ?_ hrest)
    rw [Ledgers.activeLedgers_eq_of_frame (Ledgers.frame_eq_of_bare hbare)]
    exact hactive.2

end

/-- **`backfill_missing_partitions`** moves capacity partitions into slots. -/
theorem backfillMissingPartitions_spec (hs : s.Booked)
    (h : s.backfillMissingPartitions = .ok s') : s.Moves s' := by
  have hcur : ∀ p ∈ s.partitionAssignments.capacityPartitions.toList,
      s.partitionAssignments.capacityPartitions[p.1]? = some p.2 := by
    rintro ⟨x, a⟩ hp
    exact TreeMap.mem_toList_iff_getElem?_eq_some.mp hp
  obtain ⟨st', hst', hret⟩ := bind_eq_ok.mp h
  cases hret
  exact (foldlM_processSlotNeeds_spec hs hcur (fun _ h => h) hst').moves

end EpochSnapshot

end Irys
