import Irys.Chain.Types

/-!
# Ledger slots

A data ledger is a list of slots of `C = num_chunks_in_partition` chunks each.  Slots are
appended ahead of the data, marked written when the chunk total passes into them, and marked
expired when they are old; none is ever removed.
-/

namespace Irys

open List

/-- A slot of a data ledger: the partitions that hold its replicas, and its expiry clock. -/
structure LedgerSlot where
  partitions : List PartitionHash
  isExpired : Bool
  hasBeenWritten : Bool
  lastHeight : ℕ
  deriving DecidableEq

namespace LedgerSlot

/-- A slot as `allocate_slots` appends it. -/
def fresh (height : ℕ) : LedgerSlot :=
  { partitions := [], isExpired := false, hasBeenWritten := false, lastHeight := height }

/-- A slot that received data: written, and its clock restarted under Cascade.  An expired slot
is not resurrected. -/
def touch (height : ℕ) (refreshLastHeight : Bool) (slot : LedgerSlot) : LedgerSlot :=
  { slot with
    hasBeenWritten := true
    lastHeight := if refreshLastHeight && !slot.isExpired then height else slot.lastHeight }

/-- A slot whose storage has ended. -/
def expire (slot : LedgerSlot) : LedgerSlot := { slot with isExpired := true }

theorem touch_lastHeight (h : ℕ) (s : LedgerSlot) (hs : s.isExpired = false) :
    (s.touch h true).lastHeight = h := by
  simp [touch, hs]

end LedgerSlot

/-! ### The expiry scans -/

/-- Leading slots whose whole chunk range lies below the write frontier. -/
def fullyWrittenSlotCount (totalChunks chunksPerSlot : ℕ) : ℕ := totalChunks / chunksPerSlot

/-- From Cascade on a slot may expire only when it is fully written. -/
def cascadeExpiryGate (cascade : Bool) (slot : LedgerSlot) (slotIndex fullyWrittenSlots : ℕ) :
    Bool :=
  !cascade || (slot.hasBeenWritten && slotIndex < fullyWrittenSlots)

section

variable (slots : List LedgerSlot) (minBlocks epochHeight : ℕ) (cascade : Bool)
    (totalChunks chunksPerSlot : ℕ)

/-- The slots that newly expire at a height, with their indexes.  The last slot never does. -/
def expiringSlots : List (LedgerSlot × ℕ) :=
  if epochHeight < minBlocks then []
  else
    slots.zipIdx.filter fun (slot, i) =>
      i != slots.length - 1
        && cascadeExpiryGate cascade slot i (fullyWrittenSlotCount totalChunks chunksPerSlot)
        && decide (slot.lastHeight ≤ epochHeight - minBlocks)
        && !slot.isExpired

/-- The slots expired as of a height, those expired earlier included. -/
def allExpiredSlotIndexes : List ℕ :=
  if epochHeight < minBlocks then []
  else
    (slots.zipIdx.filter fun (slot, i) =>
      -- an already recycled slot stays in the set for ever, whatever the gate says
      slot.isExpired ||
        (i != slots.length - 1
          && cascadeExpiryGate cascade slot i (fullyWrittenSlotCount totalChunks chunksPerSlot)
          && decide (slot.lastHeight ≤ epochHeight - minBlocks))).map (·.2)

/-- The conditions under which the scan picks slot `i`. -/
structure Expires (slot : LedgerSlot) (i : ℕ) : Prop where
  at_index : slots[i]? = some slot
  not_last : i + 1 ≠ slots.length
  old_enough : minBlocks ≤ epochHeight
  gate : cascade = true →
    slot.hasBeenWritten = true ∧ i < totalChunks / chunksPerSlot
  aged : slot.lastHeight ≤ epochHeight - minBlocks
  live : slot.isExpired = false

end

variable {cascade : Bool} {slot : LedgerSlot} {i height : ℕ} {slots : List LedgerSlot}

theorem cascadeExpiryGate_iff {n : ℕ} :
    cascadeExpiryGate cascade slot i n = true ↔
      (cascade = true → slot.hasBeenWritten = true ∧ i < n) := by
  cases cascade <;> simp [cascadeExpiryGate]

/-- `i` is the last index of a nonempty list exactly when `i + 1` is its length. -/
theorem ne_pred_length_iff (h : slots[i]? = some slot) :
    i ≠ slots.length - 1 ↔ i + 1 ≠ slots.length := by
  have := lt_length_of_some h
  omega

/-- **What the scan returns.** -/
theorem mem_expiringSlots {minBlocks : ℕ} {total C : ℕ} :
    (slot, i) ∈ expiringSlots slots minBlocks height cascade total C ↔
      Expires slots minBlocks height cascade total C slot i := by
  rw [expiringSlots]
  split
  · rename_i hlt
    simp only [not_mem_nil, false_iff]
    intro h
    have := h.old_enough
    omega
  · rename_i hge
    simp only [mem_filter, mem_zipIdx_iff_getElem?, Bool.and_eq_true, bne_iff_ne, decide_eq_true_eq,
      Bool.not_eq_eq_eq_not, Bool.not_true, cascadeExpiryGate_iff, fullyWrittenSlotCount]
    constructor
    · rintro ⟨hat, ⟨⟨hlast, hgate⟩, haged⟩, hlive⟩
      exact ⟨hat, (ne_pred_length_iff hat).mp hlast, by omega, hgate, haged, hlive⟩
    · intro h
      exact ⟨h.at_index, ⟨⟨(ne_pred_length_iff h.at_index).mpr h.not_last, h.gate⟩, h.aged⟩,
        h.live⟩

/-- **What the inclusive scan returns**: every expired slot and every slot that expires now. -/
theorem mem_allExpiredSlotIndexes {minBlocks : ℕ} {total C : ℕ} :
    i ∈ allExpiredSlotIndexes slots minBlocks height cascade total C ↔
      minBlocks ≤ height ∧ ∃ slot, slots[i]? = some slot ∧
        (slot.isExpired = true ∨ Expires slots minBlocks height cascade total C slot i) := by
  rw [allExpiredSlotIndexes]
  split
  · rename_i hlt
    simp only [not_mem_nil, false_iff]
    rintro ⟨h, -⟩
    omega
  · rename_i hge
    simp only [List.mem_map, mem_filter, Prod.exists, exists_eq_right,
      mem_zipIdx_iff_getElem?, Bool.or_eq_true, Bool.and_eq_true, bne_iff_ne,
      decide_eq_true_eq, cascadeExpiryGate_iff, fullyWrittenSlotCount]
    constructor
    · rintro ⟨slot, hat, h⟩
      refine ⟨by omega, slot, hat, ?_⟩
      cases hexp : slot.isExpired with
      | true => exact .inl rfl
      | false =>
        rw [hexp] at h
        obtain h | ⟨⟨hlast, hgate⟩, haged⟩ := h
        · cases h
        · exact .inr ⟨hat, (ne_pred_length_iff hat).mp hlast, by omega, hgate, haged, hexp⟩
    · rintro ⟨-, slot, hat, hexp | h⟩
      · exact ⟨slot, hat, .inl hexp⟩
      · exact ⟨slot, hat,
          Or.inr ⟨⟨(ne_pred_length_iff hat).mpr h.not_last, h.gate⟩, h.aged⟩⟩

theorem zipIdx_sorted {α : Type} (l : List α) (k : ℕ) :
    (l.zipIdx k).Pairwise (fun a b => a.2 < b.2) := by
  induction l generalizing k with
  | nil => exact List.Pairwise.nil
  | cons a l ih =>
    rw [zipIdx_cons, pairwise_cons]
    refine ⟨?_, ih (k + 1)⟩
    rintro ⟨b, j⟩ hb
    have := le_snd_of_mem_zipIdx hb
    simpa using this

theorem expiringSlots_sorted (slots : List LedgerSlot) (minBlocks height : ℕ) (cascade : Bool)
    (total C : ℕ) :
    (expiringSlots slots minBlocks height cascade total C).Pairwise (fun a b => a.2 < b.2) := by
  rw [expiringSlots]
  split
  · exact List.Pairwise.nil
  · exact (zipIdx_sorted slots 0).filter _

/-! ### The writes -/

/-- `touch_filled_slots` on the slots of one ledger: the chunks `[prevTotal, newTotal)` landed
in the slots `first..=last`, clamped to those that exist. -/
def touchFilledSlots (slots : List LedgerSlot)
    (prevTotalChunks newTotalChunks chunksPerSlot height : ℕ) (refreshLastHeight : Bool) :
    List LedgerSlot :=
  if newTotalChunks ≤ prevTotalChunks ∨ chunksPerSlot = 0 then slots
  else
    let first := prevTotalChunks / chunksPerSlot
    let last := (newTotalChunks - 1) / chunksPerSlot
    if slots.length ≤ first then slots
    else
      let last := min last (slots.length - 1)
      slots.mapIdx fun i slot =>
        if first ≤ i ∧ i ≤ last then slot.touch height refreshLastHeight else slot

/-- The slots that the chunks `[prev, new)` land in. -/
def InWriteWindow (prev new C i : ℕ) : Prop :=
  prev < new ∧ 0 < C ∧ prev / C ≤ i ∧ i ≤ (new - 1) / C

instance (prev new C i : ℕ) : Decidable (InWriteWindow prev new C i) :=
  inferInstanceAs (Decidable (_ ∧ _))

section

variable (slots)

/-- **The touch, index by index.**  The clamp is no restriction: an index of the list is in the
clamped range exactly when it is in the write window. -/
theorem getElem?_touchFilledSlots (prev new C height : ℕ)
    (refresh : Bool) (i : ℕ) :
    (touchFilledSlots slots prev new C height refresh)[i]? =
      slots[i]?.map fun slot =>
        if InWriteWindow prev new C i then slot.touch height refresh else slot := by
  rw [touchFilledSlots]
  split
  · rename_i hnone
    have hout : ¬ InWriteWindow prev new C i := by
      rintro ⟨hlt, hC, -⟩
      omega
    simp [hout]
  · rename_i hsome
    dsimp only
    split
    · rename_i hfirst
      cases hget : slots[i]? with
      | none => rfl
      | some slot =>
        have hi := lt_length_of_some hget
        rw [Option.map_some, if_neg]
        rintro ⟨-, -, hle, -⟩
        omega
    · rw [getElem?_mapIdx]
      cases hget : slots[i]? with
      | none => rfl
      | some slot =>
        have hi := lt_length_of_some hget
        have hiff : (prev / C ≤ i ∧ i ≤ min ((new - 1) / C) (slots.length - 1)) ↔
            InWriteWindow prev new C i := by
          rw [InWriteWindow]
          omega
        simp only [Option.map_some, hiff]

@[simp] theorem touchFilledSlots_length (prev new C height : ℕ)
    (refresh : Bool) :
    (touchFilledSlots slots prev new C height refresh).length = slots.length := by
  rw [touchFilledSlots]
  split
  · rfl
  · dsimp only
    split
    · rfl
    · simp

/-- Set the expired flag of the slots at the given indexes. -/
def markExpired (indexes : List ℕ) : List LedgerSlot :=
  indexes.foldl (fun slots i => slots.modify i LedgerSlot.expire) slots

@[simp] theorem markExpired_length (indexes : List ℕ) :
    (markExpired slots indexes).length = slots.length := by
  induction indexes generalizing slots with
  | nil => rfl
  | cons j indexes ih =>
    show (markExpired (slots.modify j LedgerSlot.expire) indexes).length = slots.length
    rw [ih, length_modify]

theorem getElem?_markExpired (indexes : List ℕ) (i : ℕ) :
    (markExpired slots indexes)[i]? =
      slots[i]?.map fun slot => if i ∈ indexes then slot.expire else slot := by
  induction indexes generalizing slots with
  | nil => simp [markExpired]
  | cons j indexes ih =>
    show (markExpired (slots.modify j LedgerSlot.expire) indexes)[i]? = _
    rw [ih, getElem?_modify, Option.map_eq_map, Option.map_map]
    congr 1
    funext slot
    by_cases hij : j = i
    · subst hij
      by_cases hmem : j ∈ indexes <;> simp [hmem, LedgerSlot.expire]
    · have hji : i ≠ j := fun h => hij h.symm
      simp [hij, hji]

/-- Append `count` fresh slots. -/
def appendSlots (count height : ℕ) : List LedgerSlot :=
  slots ++ List.replicate count (LedgerSlot.fresh height)

@[simp] theorem appendSlots_length (count height : ℕ) :
    (appendSlots slots count height).length = slots.length + count := by
  simp [appendSlots]

end

theorem getElem?_appendSlots_of_lt (count height : ℕ) (h : i < slots.length) :
    (appendSlots slots count height)[i]? = slots[i]? :=
  getElem?_append_left h

theorem getElem?_appendSlots_of_ge {count : ℕ} (h : slots.length ≤ i)
    (hget : (appendSlots slots count height)[i]? = some slot) : slot = LedgerSlot.fresh height := by
  rw [appendSlots, getElem?_append_right h] at hget
  exact eq_of_mem_replicate (mem_of_getElem? hget)

/-! ### What the ledger types share -/

/-- `LedgerCore`: the slots of a ledger and the replicas each of them wants. -/
structure LedgerCore where
  slots : List LedgerSlot
  numPartitionsPerSlot : ℕ
  deriving DecidableEq

namespace LedgerCore

variable {ε : Type}

/-- Append slots; also returns how many partitions they want.  The source adds the replica
count once per slot, with an overflow check. -/
def allocateSlots (l : LedgerCore) (slots height : ℕ) : Res ε (LedgerCore × ℕ) := do
  let numPartitionsAdded ← expect (checkedMul 64 slots l.numPartitionsPerSlot)
  return ({ l with slots := appendSlots l.slots slots height }, numPartitionsAdded)

/-- The live slots that miss replicas, with how many.  A slot with more replicas than it wants
is a subtraction overflow. -/
def getSlotNeeds (l : LedgerCore) : Res ε (List (ℕ × ℕ)) := do
  let needs ← l.slots.zipIdx.mapM fun (slot, i) => do
    let needed ← expect (checkedSub l.numPartitionsPerSlot slot.partitions.length)
    return if 0 < needed && !slot.isExpired then some (i, needed) else none
  return needs.filterMap id

theorem allocateSlots_eq_ok {l l' : LedgerCore} {slots height added : ℕ}
    (h : (l.allocateSlots slots height : Res ε _) = .ok (l', added)) :
    l' = { l with slots := appendSlots l.slots slots height } := by
  obtain ⟨n, -, hret⟩ := bind_eq_ok.mp h
  cases hret
  rfl

end LedgerCore

end Irys
