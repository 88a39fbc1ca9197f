import Irys.Ledger.Slots
import Irys.Lib.Finmap

/-!
# One ledger over one epoch

What an epoch block does to the slots of a single ledger, as a function of the slots alone:
append, touch the write window, expire.  The epoch code runs it on every active ledger with
everything else going on around it; here it stands by itself.
-/

namespace Irys

open List

theorem eq_of_sorted_of_mem {α : Type} (key : α → ℕ) {l l' : List α}
    (hl : l.Pairwise (fun a b => key a < key b)) (hl' : l'.Pairwise (fun a b => key a < key b))
    (h : ∀ x, x ∈ l ↔ x ∈ l') : l = l' :=
  eq_of_pairwise_of_mem (fun _ _ hab => Nat.lt_asymm hab) hl hl' h

/-- What drives a ledger through an epoch block: slot size, the chunk totals at the previous and
at the new epoch block, the new block's height and Cascade status, the slots to append, and the
ledger's lifetime in blocks (`none`: its slots never expire). -/
structure Turn where
  chunksPerSlot : ℕ
  prevTotal : ℕ
  newTotal : ℕ
  height : ℕ
  cascade : Bool
  added : ℕ
  lifetime : Option ℕ
  deriving DecidableEq

/-- The slots that expire at a height, for a ledger that may have no lifetime. -/
def dueSlots (lifetime : Option ℕ) (slots : List LedgerSlot) (height : ℕ) (cascade : Bool)
    (total C : ℕ) : List (LedgerSlot × ℕ) :=
  match lifetime with
  | none => []
  | some minBlocks => expiringSlots slots minBlocks height cascade total C

variable {C i : ℕ}

theorem mem_dueSlots {lifetime : Option ℕ} {slots : List LedgerSlot} {height : ℕ} {cascade : Bool}
    {total : ℕ} {slot : LedgerSlot} :
    (slot, i) ∈ dueSlots lifetime slots height cascade total C ↔
      ∃ minBlocks ∈ lifetime, Expires slots minBlocks height cascade total C slot i := by
  cases lifetime with
  | none => simp [dueSlots]
  | some m => simp [dueSlots, mem_expiringSlots]

theorem dueSlots_sorted (lifetime : Option ℕ) (slots : List LedgerSlot) (height : ℕ)
    (cascade : Bool) (total C : ℕ) :
    (dueSlots lifetime slots height cascade total C).Pairwise (fun a b => a.2 < b.2) := by
  cases lifetime with
  | none => exact List.Pairwise.nil
  | some m => exact expiringSlots_sorted _ _ _ _ _ _

/-- `written_this_epoch`: the slots that settlement leaves out, because the touch rescues them. -/
def writtenThisEpoch (cascade : Bool) (newTotalChunks prevTotalChunks chunksPerSlot i : ℕ) : Bool :=
  if !cascade || decide (newTotalChunks ≤ prevTotalChunks) || chunksPerSlot == 0 then false
  else
    decide (prevTotalChunks / chunksPerSlot ≤ i)
      && decide (i ≤ (newTotalChunks - 1) / chunksPerSlot)

theorem writtenThisEpoch_iff {cascade : Bool} {new prev : ℕ} :
    writtenThisEpoch cascade new prev C i = true ↔
      cascade = true ∧ InWriteWindow prev new C i := by
  cases cascade with
  | false => simp [writtenThisEpoch]
  | true =>
    simp only [writtenThisEpoch, InWriteWindow, Bool.not_true, Bool.false_or, Bool.or_eq_true,
      decide_eq_true_eq, beq_iff_eq, true_and]
    split
    · rename_i h
      simp only [Bool.false_eq_true, false_iff]
      omega
    · rename_i h
      rw [Bool.and_eq_true, decide_eq_true_eq, decide_eq_true_eq]
      omega

/-- **The frontier is inside the allocated slots** (or there are neither slots nor data). -/
def Covered (total C count : ℕ) : Prop := total < count * C ∨ (count = 0 ∧ total = 0)

theorem covered_zero (hC : 0 < C) (count : ℕ) : Covered 0 C count := by
  rcases Nat.eq_zero_or_pos count with h | h
  · exact .inr ⟨h, rfl⟩
  · exact .inl (Nat.mul_pos h hC)

/-- The slots whose flag differs between two states of a ledger. -/
def flippedSlots (before after : List LedgerSlot) : List ℕ :=
  (after.zipIdx.filter fun (slot, i) =>
    slot.isExpired && !(before[i]?.any (·.isExpired))).map (·.2)

theorem mem_flippedSlots {before after : List LedgerSlot} :
    i ∈ flippedSlots before after ↔
      (∃ slot, after[i]? = some slot ∧ slot.isExpired = true) ∧
        ∀ slot, before[i]? = some slot → slot.isExpired = false := by
  simp only [flippedSlots, List.mem_map, mem_filter, Prod.exists, exists_eq_right,
    mem_zipIdx_iff_getElem?, Bool.and_eq_true, Bool.not_eq_eq_eq_not, Bool.not_true,
    Option.any_eq_false]
  constructor
  · rintro ⟨slot, hat, hexp, hbefore⟩
    exact ⟨⟨slot, hat, hexp⟩, fun s hs => by simpa using hbefore s hs⟩
  · rintro ⟨⟨slot, hat, hexp⟩, hbefore⟩
    exact ⟨slot, hat, hexp, fun s hs => by simpa using hbefore s hs⟩

theorem flippedSlots_sorted (before after : List LedgerSlot) :
    (flippedSlots before after).Pairwise (· < ·) := by
  rw [flippedSlots, pairwise_map]
  exact (zipIdx_sorted after 0).filter _

namespace Turn

variable (t : Turn) (slots : List LedgerSlot)

/-- The slots after allocation and touch. -/
def touched : List LedgerSlot :=
  touchFilledSlots (appendSlots slots t.added t.height) t.prevTotal t.newTotal t.chunksPerSlot
    t.height t.cascade

/-- The slots that expire in this turn. -/
def recycled : List (LedgerSlot × ℕ) :=
  dueSlots t.lifetime (t.touched slots) t.height t.cascade t.newTotal t.chunksPerSlot

/-- The slots after the turn. -/
def after : List LedgerSlot := markExpired (t.touched slots) ((t.recycled slots).map (·.2))

/-- What settlement computes before the turn: the slots due now, less those written in this
epoch. -/
def settled : List (LedgerSlot × ℕ) :=
  (dueSlots t.lifetime slots t.height t.cascade t.newTotal t.chunksPerSlot).filter fun p =>
    !writtenThisEpoch t.cascade t.newTotal t.prevTotal t.chunksPerSlot p.2

@[simp] theorem touched_length : (t.touched slots).length = slots.length + t.added := by
  simp [touched]

@[simp] theorem after_length : (t.after slots).length = slots.length + t.added := by
  simp [after]

variable {t slots}

variable {i m : ℕ} {slot : LedgerSlot}

theorem getElem?_touched_of_lt (h : i < slots.length) :
    (t.touched slots)[i]? = slots[i]?.map fun slot =>
      if InWriteWindow t.prevTotal t.newTotal t.chunksPerSlot i
      then slot.touch t.height t.cascade else slot := by
  rw [touched, getElem?_touchFilledSlots, getElem?_appendSlots_of_lt _ _ h]

theorem getElem?_touched_of_ge (h : slots.length ≤ i) (hget : (t.touched slots)[i]? = some slot) :
    slot = if InWriteWindow t.prevTotal t.newTotal t.chunksPerSlot i
      then (LedgerSlot.fresh t.height).touch t.height t.cascade
      else LedgerSlot.fresh t.height := by
  rw [touched, getElem?_touchFilledSlots] at hget
  obtain ⟨old, hold, rfl⟩ := Option.map_eq_some_iff.mp hget
  rw [getElem?_appendSlots_of_ge h hold]

/-- A slot that a live one was touched into does not expire in the same turn: its clock stands
at the turn's height. -/
theorem not_expires_of_touched (hc : t.cascade = true) (hm : 0 < m) {rest : List LedgerSlot} :
    ¬ Expires rest m t.height t.cascade t.newTotal t.chunksPerSlot
      (slot.touch t.height t.cascade) i := by
  intro h
  have hlive : slot.isExpired = false := h.live
  have haged := h.aged
  have hold := h.old_enough
  rw [hc, LedgerSlot.touch_lastHeight t.height slot hlive] at haged
  omega

theorem not_expires_fresh (hc : t.cascade = true) {rest : List LedgerSlot} :
    ¬ Expires rest m t.height t.cascade t.newTotal t.chunksPerSlot
      (LedgerSlot.fresh t.height) i := by
  intro h
  have := (h.gate hc).1
  cases this

/-- The one slot the two scans treat differently: the last slot before the turn.  If the frontier
has passed it, it was passed in this epoch, so it is in the write window. -/
theorem last_in_window {total C count : ℕ} {new : ℕ} (hC : 0 < C) (hcov : Covered total C count)
    (hlast : i + 1 = count) (hfull : i < new / C) : InWriteWindow total new C i := by
  subst hlast
  have hnew : (i + 1) * C ≤ new := (Nat.le_div_iff_mul_le hC).mp hfull
  have htotal : total < (i + 1) * C := by
    rcases hcov with h | ⟨h, -⟩
    · exact h
    · omega
  have hmul : (i + 1) * C = i * C + C := by ring
  refine ⟨by omega, hC, ?_, ?_⟩
  · exact Nat.le_of_lt_succ ((Nat.div_lt_iff_lt_mul hC).mpr htotal)
  · rw [Nat.le_div_iff_mul_le hC]
    omega

/-- **Recycled and settled agree slot by slot.**  Outside the write window an old slot is the same
before and after the touch; inside it settlement leaves the slot out and the touch rescues it;
new slots are unwritten or just written. -/
theorem expires_touched_iff {ps : List PartitionHash} (hC : 0 < t.chunksPerSlot) (hm : 0 < m)
    (hc : t.cascade = true) (hcov : Covered t.prevTotal t.chunksPerSlot slots.length) :
    (∃ slot, Expires (t.touched slots) m t.height t.cascade t.newTotal t.chunksPerSlot slot i ∧
        slot.partitions = ps) ↔
      (∃ slot, Expires slots m t.height t.cascade t.newTotal t.chunksPerSlot slot i ∧
        slot.partitions = ps) ∧ ¬ InWriteWindow t.prevTotal t.newTotal t.chunksPerSlot i := by
  constructor
  · rintro ⟨slot, h, hps⟩
    rcases Nat.lt_or_ge i slots.length with hi | hi
    · have hat := h.at_index
      rw [getElem?_touched_of_lt hi] at hat
      obtain ⟨old, hold, heq⟩ := Option.map_eq_some_iff.mp hat
      by_cases hwin : InWriteWindow t.prevTotal t.newTotal t.chunksPerSlot i
      · rw [if_pos hwin] at heq
        exact absurd (heq ▸ h) (not_expires_of_touched hc hm)
      · rw [if_neg hwin] at heq
        subst heq
        refine ⟨⟨old, ⟨hold, ?_, h.old_enough, h.gate, h.aged, h.live⟩, hps⟩, hwin⟩
        intro hlast
        exact hwin (last_in_window hC hcov hlast (h.gate hc).2)
    · have hslot := getElem?_touched_of_ge hi h.at_index
      split at hslot
      · exact absurd (hslot ▸ h) (not_expires_of_touched hc hm)
      · exact absurd (hslot ▸ h) (not_expires_fresh hc)
  · rintro ⟨⟨slot, h, hps⟩, hwin⟩
    have hi : i < slots.length := (List.getElem?_eq_some_iff.mp h.at_index).1
    refine ⟨slot, ⟨?_, ?_, h.old_enough, h.gate, h.aged, h.live⟩, hps⟩
    · rw [getElem?_touched_of_lt hi, h.at_index, Option.map_some, if_neg hwin]
    · have := h.not_last
      rw [touched_length]
      omega

/-- A slot set as the epoch code passes it on: index and partition list. -/
def keyed (due : List (LedgerSlot × ℕ)) : List (ℕ × List PartitionHash) :=
  due.map fun p => (p.2, p.1.partitions)

theorem mem_keyed {due : List (LedgerSlot × ℕ)} {ps : List PartitionHash} :
    (i, ps) ∈ keyed due ↔ ∃ slot, (slot, i) ∈ due ∧ slot.partitions = ps := by
  simp only [keyed, List.mem_map, Prod.mk.injEq, Prod.exists]
  constructor
  · rintro ⟨slot, j, hmem, rfl, hps⟩
    exact ⟨slot, hmem, hps⟩
  · rintro ⟨slot, hmem, hps⟩
    exact ⟨slot, i, hmem, rfl, hps⟩

/-- **Settlement and recycling agree**: from covered slots, with Cascade active, the slots
settled before the turn are the slots recycled in it, with the same partition lists. -/
theorem settled_eq_recycled (hC : 0 < t.chunksPerSlot) (hlife : ∀ m ∈ t.lifetime, 0 < m)
    (hc : t.cascade = true) (hcov : Covered t.prevTotal t.chunksPerSlot slots.length) :
    keyed (t.settled slots) = keyed (t.recycled slots) := by
  apply eq_of_sorted_of_mem Prod.fst
  · rw [keyed, pairwise_map]
    exact (dueSlots_sorted _ _ _ _ _ _).filter _
  · rw [keyed, pairwise_map]
    exact dueSlots_sorted _ _ _ _ _ _
  · rintro ⟨i, ps⟩
    rw [mem_keyed, mem_keyed]
    simp only [settled, recycled, mem_filter, mem_dueSlots, Bool.not_eq_true',
      ← Bool.not_eq_true, writtenThisEpoch_iff, hc, true_and]
    constructor
    · rintro ⟨slot, ⟨⟨m, hm, h⟩, hwin⟩, hps⟩
      rw [← hc] at h
      obtain ⟨slot', h', hps'⟩ :=
        (expires_touched_iff hC (hlife m hm) hc hcov).mpr ⟨⟨slot, h, hps⟩, hwin⟩
      rw [hc] at h'
      exact ⟨slot', ⟨m, hm, h'⟩, hps'⟩
    · rintro ⟨slot, ⟨m, hm, h⟩, hps⟩
      rw [← hc] at h
      obtain ⟨⟨slot', h', hps'⟩, hwin⟩ :=
        (expires_touched_iff hC (hlife m hm) hc hcov).mp ⟨slot, h, hps⟩
      rw [hc] at h'
      exact ⟨slot', ⟨⟨m, hm, h'⟩, hwin⟩, hps'⟩

theorem touched_isExpired (hget : (t.touched slots)[i]? = some slot) :
    slot.isExpired = (slots[i]?.any (·.isExpired)) := by
  rcases Nat.lt_or_ge i slots.length with hi | hi
  · rw [getElem?_touched_of_lt hi] at hget
    obtain ⟨old, hold, rfl⟩ := Option.map_eq_some_iff.mp hget
    rw [hold]
    split <;> rfl
  · rw [getElem?_touched_of_ge hi hget, getElem?_eq_none hi]
    split <;> rfl

theorem after_isExpired (hslot : slots[i]? = some slot) (hexp : slot.isExpired = true) :
    ∃ slot', (t.after slots)[i]? = some slot' ∧ slot'.isExpired = true := by
  have hi := lt_length_of_some hslot
  have hlen : i < (t.touched slots).length := by
    rw [touched_length]
    omega
  have hmid := getElem?_eq_getElem hlen
  have hflag := touched_isExpired hmid
  rw [hslot, Option.any_some, hexp] at hflag
  rw [after, getElem?_markExpired, hmid, Option.map_some]
  refine ⟨_, rfl, ?_⟩
  split
  · rfl
  · exact hflag

/-- **The flags the turn sets** are those of the recycled slots. -/
theorem flippedSlots_after : flippedSlots slots (t.after slots) = (t.recycled slots).map (·.2) := by
  have hsorted : ((t.recycled slots).map (·.2)).Pairwise (· < ·) := by
    rw [pairwise_map]
    exact dueSlots_sorted _ _ _ _ _ _
  refine eq_of_sorted_of_mem id (flippedSlots_sorted _ _) hsorted ?_
  intro i
  rw [mem_flippedSlots]
  constructor
  · rintro ⟨⟨slot, hat, hexp⟩, hbefore⟩
    rw [after, getElem?_markExpired] at hat
    obtain ⟨mid, hmid, rfl⟩ := Option.map_eq_some_iff.mp hat
    by_contra hnot
    rw [if_neg hnot, touched_isExpired hmid] at hexp
    cases hold : slots[i]? with
    | none => simp [hold] at hexp
    | some old => simp [hold, hbefore old hold] at hexp
  · intro hmem
    obtain ⟨⟨slot, j⟩, hdue, rfl⟩ := List.mem_map.mp hmem
    obtain ⟨m, -, h⟩ := mem_dueSlots.mp hdue
    refine ⟨⟨slot.expire, ?_, rfl⟩, ?_⟩
    · rw [after, getElem?_markExpired, h.at_index, Option.map_some, if_pos hmem]
    · intro old hold
      have := touched_isExpired h.at_index
      rw [h.live, hold] at this
      simpa using this.symm

end Turn

end Irys
