import Irys.Ledger.Turn

/-!
# The order of the expiry clocks

Before Cascade a slot's clock is its allocation height, so clocks do not decrease along the
ledger.  From Cascade on a write restarts the clock of a live slot, so clocks do not decrease
along the written slots; what expired earlier keeps its frozen clock.  Either way the slots
expire from the front.
-/

namespace Irys

open List

/-- **The clocks of a ledger's slots.**  `total` is the ledger's chunk total, `height` a bound on
the clocks, and `cascade` tells whether the last turn was a Cascade one. -/
structure SlotOrder (slots : List LedgerSlot) (total C height : ℕ) (cascade : Bool) : Prop where
  written_iff : ∀ {i : ℕ} {slot : LedgerSlot}, slots[i]? = some slot →
    (slot.hasBeenWritten = true ↔ i * C < total)
  clock_le : ∀ {i : ℕ} {slot : LedgerSlot}, slots[i]? = some slot → slot.lastHeight ≤ height
  ordered : ∀ {i j : ℕ} {a b : LedgerSlot}, i < j → slots[i]? = some a → slots[j]? = some b →
    (cascade = true → b.hasBeenWritten = true ∨ b.isExpired = true) →
      a.lastHeight ≤ b.lastHeight
  expired_prefix : ∀ {i j : ℕ} {a b : LedgerSlot}, i < j → slots[i]? = some a →
    slots[j]? = some b → b.isExpired = true → a.isExpired = true

theorem SlotOrder.fresh (n C height : ℕ) (cascade : Bool) :
    SlotOrder (List.replicate n (LedgerSlot.fresh height)) 0 C height cascade := by
  have hfresh : ∀ {i : ℕ} {slot : LedgerSlot},
      (List.replicate n (LedgerSlot.fresh height))[i]? = some slot →
        slot = LedgerSlot.fresh height :=
    fun h => eq_of_mem_replicate (mem_of_getElem? h)
  constructor
  · intro i slot h
    simp [hfresh h, LedgerSlot.fresh]
  · intro i slot h
    simp [hfresh h, LedgerSlot.fresh]
  · intro i j a b _ ha hb _
    rw [hfresh ha, hfresh hb]
  · intro i j a b _ ha hb hexp
    rw [hfresh hb] at hexp
    cases hexp

variable {total C prev new i : ℕ} {slot : LedgerSlot} {gate : Bool}

theorem SlotOrder.congr {slots slots' : List LedgerSlot} {height : ℕ} {cascade : Bool}
    (h : SlotOrder slots total C height cascade)
    (heq : ∀ (i : ℕ) (slot' : LedgerSlot), slots'[i]? = some slot' →
      ∃ slot : LedgerSlot, slots[i]? = some slot ∧
      slot'.hasBeenWritten = slot.hasBeenWritten ∧ slot'.lastHeight = slot.lastHeight ∧
      slot'.isExpired = slot.isExpired) :
    SlotOrder slots' total C height cascade := by
  constructor
  · intro i slot' hs
    obtain ⟨slot, hslot, hw, -, -⟩ := heq i slot' hs
    rw [hw]
    exact h.written_iff hslot
  · intro i slot' hs
    obtain ⟨slot, hslot, -, hl, -⟩ := heq i slot' hs
    rw [hl]
    exact h.clock_le hslot
  · intro i j a' b' hij ha hb hcond
    obtain ⟨a, ha, -, hla, -⟩ := heq i a' ha
    obtain ⟨b, hb, hwb, hlb, heb⟩ := heq j b' hb
    rw [hwb, heb] at hcond
    rw [hla, hlb]
    exact h.ordered hij ha hb hcond
  · intro i j a' b' hij ha hb hexp
    obtain ⟨a, ha, -, -, hea⟩ := heq i a' ha
    obtain ⟨b, hb, -, -, heb⟩ := heq j b' hb
    rw [hea]
    exact h.expired_prefix hij ha hb (heb ▸ hexp)

/-! ### The write window and the frontier -/

theorem inWriteWindow_of_reached (hC : 0 < C) (hprev : prev ≤ i * C) (hnew : i * C < new) :
    InWriteWindow prev new C i := by
  refine ⟨by omega, hC, ?_, ?_⟩
  · rw [Nat.mul_comm] at hprev
    exact Nat.div_le_of_le_mul hprev
  · rw [Nat.le_div_iff_mul_le hC]
    omega

theorem InWriteWindow.reached (h : InWriteWindow prev new C i) : i * C < new := by
  obtain ⟨hlt, hC, -, hle⟩ := h
  rw [Nat.le_div_iff_mul_le hC] at hle
  omega

theorem InWriteWindow.not_full (h : InWriteWindow prev new C i) : prev < (i + 1) * C := by
  obtain ⟨-, hC, hle, -⟩ := h
  exact (Nat.div_lt_iff_lt_mul hC).mp (Nat.lt_succ_of_le hle)

/-- A slot that is full now and outside the write window was full at the previous epoch block. -/
theorem full_before_of_not_window (hC : 0 < C) (hfull : i < new / C)
    (hwin : ¬ InWriteWindow prev new C i) : (i + 1) * C ≤ prev := by
  have hnew : (i + 1) * C ≤ new := (Nat.le_div_iff_mul_le hC).mp hfull
  have hmul : (i + 1) * C = i * C + C := Nat.succ_mul i C
  by_contra hlt
  refine hwin ⟨by omega, hC, ?_, ?_⟩
  · have hdiv : prev / C < i + 1 := (Nat.div_lt_iff_lt_mul hC).mpr (by omega)
    exact Nat.le_of_lt_succ hdiv
  · rw [Nat.le_div_iff_mul_le hC]
    omega

theorem Covered.le_of_ge {count : ℕ} (h : Covered total C count) (hi : count ≤ i) :
    total ≤ i * C := by
  rcases h with h | ⟨-, h⟩
  · have := Nat.mul_le_mul_right C hi
    omega
  · omega

/-! ### A turn keeps the order -/

variable {t : Turn} {slots : List LedgerSlot} {height : ℕ} {cascade : Bool}

/-- **An old slot after the touch.**  In the write window it is written, and its clock restarts
if Cascade is active and it is live. -/
theorem Turn.touched_old (hi : i < slots.length) (hget : (t.touched slots)[i]? = some slot) :
    ∃ old, slots[i]? = some old ∧ slot.isExpired = old.isExpired ∧
      (slot.hasBeenWritten = true ↔ old.hasBeenWritten = true ∨
        InWriteWindow t.prevTotal t.newTotal t.chunksPerSlot i) ∧
      slot.lastHeight =
        if InWriteWindow t.prevTotal t.newTotal t.chunksPerSlot i ∧ t.cascade = true ∧
          old.isExpired = false then t.height else old.lastHeight := by
  rw [Turn.getElem?_touched_of_lt hi] at hget
  obtain ⟨old, hold, rfl⟩ := Option.map_eq_some_iff.mp hget
  refine ⟨old, hold, ?_⟩
  by_cases hwin : InWriteWindow t.prevTotal t.newTotal t.chunksPerSlot i
  · simp [hwin, LedgerSlot.touch]
  · simp [hwin]

/-- A new slot after the touch is live, its clock stands at the turn, and it is written exactly if
it is in the write window. -/
theorem Turn.touched_new (hi : slots.length ≤ i) (hget : (t.touched slots)[i]? = some slot) :
    slot.isExpired = false ∧ slot.lastHeight = t.height ∧
      (slot.hasBeenWritten = true ↔ InWriteWindow t.prevTotal t.newTotal t.chunksPerSlot i) := by
  rw [Turn.getElem?_touched_of_ge hi hget]
  by_cases hwin : InWriteWindow t.prevTotal t.newTotal t.chunksPerSlot i
  · simp [hwin, LedgerSlot.touch, LedgerSlot.fresh]
  · simp [hwin, LedgerSlot.fresh]

/-- **Allocation and touch keep the order**, and move it to the new chunk total.  Cascade may
become active with this turn. -/
theorem SlotOrder.touched (h : SlotOrder slots t.prevTotal t.chunksPerSlot height cascade)
    (hC : 0 < t.chunksPerSlot) (hc : cascade = true → t.cascade = true)
    (hcov : Covered t.prevTotal t.chunksPerSlot slots.length) (hle : t.prevTotal ≤ t.newTotal)
    (hheight : height ≤ t.height) :
    SlotOrder (t.touched slots) t.newTotal t.chunksPerSlot t.height t.cascade := by
  have hclock : ∀ {i : ℕ} {slot : LedgerSlot}, (t.touched slots)[i]? = some slot →
      slot.lastHeight ≤ t.height := by
    intro i slot hslot
    rcases Nat.lt_or_ge i slots.length with hi | hi
    · obtain ⟨old, hold, -, -, hlast⟩ := Turn.touched_old hi hslot
      have hold_le := (h.clock_le hold).trans hheight
      rw [hlast]
      split
      · exact le_rfl
      · exact hold_le
    · exact (Turn.touched_new hi hslot).2.1.le
  have hreach : ∀ {i : ℕ}, t.prevTotal ≤ i * t.chunksPerSlot →
      (InWriteWindow t.prevTotal t.newTotal t.chunksPerSlot i ↔
        i * t.chunksPerSlot < t.newTotal) :=
    fun hprev => ⟨InWriteWindow.reached, inWriteWindow_of_reached hC hprev⟩
  refine ⟨?_, hclock, ?_, ?_⟩
  · intro i slot hslot
    rcases Nat.lt_or_ge i slots.length with hi | hi
    · obtain ⟨old, hold, -, hw, -⟩ := Turn.touched_old hi hslot
      rw [hw, h.written_iff hold]
      rcases Nat.lt_or_ge (i * t.chunksPerSlot) t.prevTotal with hlt | hge
      · exact ⟨fun _ => hlt.trans_le hle, fun _ => .inl hlt⟩
      · rw [hreach hge]
        omega
    · rw [(Turn.touched_new hi hslot).2.2]
      exact hreach (hcov.le_of_ge hi)
  · intro i j a b hij ha hb hcond
    rcases Nat.lt_or_ge j slots.length with hj | hj
    · have hi : i < slots.length := hij.trans hj
      obtain ⟨olda, holda, hexpa, -, hlasta⟩ := Turn.touched_old hi ha
      obtain ⟨oldb, holdb, hexpb, hwb, hlastb⟩ := Turn.touched_old hj hb
      by_cases hmoved : InWriteWindow t.prevTotal t.newTotal t.chunksPerSlot j ∧
          t.cascade = true ∧ oldb.isExpired = false
      · -- a slot whose clock restarts carries the latest clock
        rw [hlastb, if_pos hmoved]
        exact hclock ha
      · rw [hlastb, if_neg hmoved, hlasta]
        -- the lower slot did not move either
        have hstill : ¬ (InWriteWindow t.prevTotal t.newTotal t.chunksPerSlot i ∧
            t.cascade = true ∧ olda.isExpired = false) := by
          intro hmove
          obtain ⟨hwin, hcas, hlive⟩ := hmove
          cases hb' : oldb.isExpired with
          | true =>
            have := h.expired_prefix hij holda holdb hb'
            rw [hlive] at this
            cases this
          | false =>
            have hwritten : oldb.hasBeenWritten = true := by
              rcases hcond hcas with hw | hexp
              · rcases hwb.mp hw with hw | hwin'
                · exact hw
                · exact absurd ⟨hwin', hcas, hb'⟩ hmoved
              · rw [hexpb, hb'] at hexp
                cases hexp
            -- the window starts above slot `i`, since slot `j` was reached before
            have hbefore := (h.written_iff holdb).mp hwritten
            have hnot := hwin.not_full
            have hmul : (i + 1) * t.chunksPerSlot ≤ j * t.chunksPerSlot :=
              Nat.mul_le_mul_right _ hij
            omega
        rw [if_neg hstill]
        apply h.ordered hij holda holdb
        intro hcas
        rcases hcond (hc hcas) with hw | hexp
        · rcases hwb.mp hw with hw | hwin
          · exact .inl hw
          · cases hb' : oldb.isExpired with
            | true => exact .inr rfl
            | false => exact absurd ⟨hwin, hc hcas, hb'⟩ hmoved
        · exact .inr (hexpb ▸ hexp)
    · rw [(Turn.touched_new hj hb).2.1]
      exact hclock ha
  · intro i j a b hij ha hb hexp
    rcases Nat.lt_or_ge j slots.length with hj | hj
    · obtain ⟨olda, holda, hexpa, -, -⟩ := Turn.touched_old (hij.trans hj) ha
      obtain ⟨oldb, holdb, hexpb, -, -⟩ := Turn.touched_old hj hb
      rw [hexpa]
      exact h.expired_prefix hij holda holdb (hexpb ▸ hexp)
    · rw [(Turn.touched_new hj hb).1] at hexp
      cases hexp

/-- **The slots below a due slot are due or expired**, if the scan's gate is at least as strict as
the last turn's. -/
theorem SlotOrder.below_expires {m height' : ℕ} (h : SlotOrder slots total C height cascade)
    (hgate : cascade = true → gate = true) {T j : ℕ} {a b : LedgerSlot} (hij : i < j)
    (ha : slots[i]? = some a) (hb : Expires slots m height' gate T C b j) :
    a.isExpired = true ∨ Expires slots m height' gate T C a i := by
  cases hexp : a.isExpired with
  | true => exact .inl rfl
  | false =>
    right
    have hj := (List.getElem?_eq_some_iff.mp hb.at_index).1
    refine ⟨ha, by omega, hb.old_enough, ?_, ?_, hexp⟩
    · intro hg
      obtain ⟨hwritten, hfull⟩ := hb.gate hg
      have hreached := (h.written_iff hb.at_index).mp hwritten
      have hmul := Nat.mul_le_mul_right C hij.le
      exact ⟨(h.written_iff ha).mpr (by omega), by omega⟩
    · exact (h.ordered hij ha hb.at_index
        (fun hcas => .inl (hb.gate (hgate hcas)).1)).trans hb.aged

theorem getElem?_markExpired_due {lifetime : Option ℕ} {height' : ℕ}
    (hget : (markExpired slots
      ((dueSlots lifetime slots height' gate total C).map (·.2)))[i]? = some slot) :
    ∃ old : LedgerSlot, slots[i]? = some old ∧ slot.hasBeenWritten = old.hasBeenWritten ∧
      slot.lastHeight = old.lastHeight ∧
      (slot.isExpired = true ↔ old.isExpired = true ∨
        ∃ m ∈ lifetime, Expires slots m height' gate total C old i) := by
  rw [getElem?_markExpired] at hget
  obtain ⟨old, hold, rfl⟩ := Option.map_eq_some_iff.mp hget
  have hmem : i ∈ (dueSlots lifetime slots height' gate total C).map (·.2) ↔
      ∃ m ∈ lifetime, Expires slots m height' gate total C old i := by
    rw [List.mem_map]
    constructor
    · intro hdue
      obtain ⟨⟨slot', j⟩, hdue, rfl⟩ := hdue
      obtain ⟨m, hm, hexp⟩ := mem_dueSlots.mp hdue
      have hat := hexp.at_index
      rw [hold] at hat
      cases hat
      exact ⟨m, hm, hexp⟩
    · intro hdue
      exact ⟨(old, i), mem_dueSlots.mpr hdue, rfl⟩
  refine ⟨old, hold, ?_⟩
  rw [← hmem]
  by_cases hi : i ∈ (dueSlots lifetime slots height' gate total C).map (·.2)
  · simp [hi, LedgerSlot.expire]
  · simp [hi]

/-- **Expiry keeps the order.** -/
theorem SlotOrder.marked (h : SlotOrder slots total C height cascade) (lifetime : Option ℕ)
    (height' : ℕ) :
    SlotOrder
      (markExpired slots ((dueSlots lifetime slots height' cascade total C).map (·.2)))
      total C height cascade := by
  constructor
  · intro i slot hslot
    obtain ⟨old, hslot, hw, -, -⟩ := getElem?_markExpired_due hslot
    rw [hw]
    exact h.written_iff hslot
  · intro i slot hslot
    obtain ⟨old, hslot, -, hl, -⟩ := getElem?_markExpired_due hslot
    rw [hl]
    exact h.clock_le hslot
  · intro i j a b hij ha hb hcond
    obtain ⟨olda, ha, -, hla, -⟩ := getElem?_markExpired_due ha
    obtain ⟨oldb, hb, hwb, hlb, heb⟩ := getElem?_markExpired_due hb
    rw [hla, hlb]
    apply h.ordered hij ha hb
    intro hcas
    rcases hcond hcas with hw | hexp
    · exact .inl (hwb ▸ hw)
    · rcases heb.mp hexp with hexp | ⟨m, -, hdue⟩
      · exact .inr hexp
      · exact .inl (hdue.gate hcas).1
  · intro i j a b hij ha hb hexp
    obtain ⟨olda, ha, -, -, hea⟩ := getElem?_markExpired_due ha
    obtain ⟨oldb, hb, -, -, heb⟩ := getElem?_markExpired_due hb
    rw [hea]
    rcases heb.mp hexp with hexp | ⟨m, hm, hdue⟩
    · exact .inl (h.expired_prefix hij ha hb hexp)
    · rcases h.below_expires id hij ha hdue with hexp | hdue'
      · exact .inl hexp
      · exact .inr ⟨m, hm, hdue'⟩

/-- **A turn keeps the order.** -/
theorem SlotOrder.after (h : SlotOrder slots t.prevTotal t.chunksPerSlot height cascade)
    (hC : 0 < t.chunksPerSlot) (hc : cascade = true → t.cascade = true)
    (hcov : Covered t.prevTotal t.chunksPerSlot slots.length) (hle : t.prevTotal ≤ t.newTotal)
    (hheight : height ≤ t.height) :
    SlotOrder (t.after slots) t.newTotal t.chunksPerSlot t.height t.cascade :=
  (h.touched hC hc hcov hle hheight).marked t.lifetime t.height

/-! ### Which slots can be expired -/

/-- **A slot that a turn leaves expired** was expired before it, or is due. -/
theorem Turn.expired_after (hslot : (t.after slots)[i]? = some slot)
    (hexp : slot.isExpired = true) :
    (∃ old : LedgerSlot, slots[i]? = some old ∧ old.isExpired = true) ∨
      ∃ m ∈ t.lifetime, ∃ mid,
        Expires (t.touched slots) m t.height t.cascade t.newTotal t.chunksPerSlot mid i := by
  obtain ⟨mid, hmid, -, -, he⟩ := getElem?_markExpired_due hslot
  rcases he.mp hexp with hexp | ⟨m, hm, hdue⟩
  · rcases Nat.lt_or_ge i slots.length with hi | hi
    · obtain ⟨old, hold, hflag, -, -⟩ := Turn.touched_old hi hmid
      exact .inl ⟨old, hold, hflag ▸ hexp⟩
    · rw [(Turn.touched_new hi hmid).1] at hexp
      cases hexp
  · exact .inr ⟨m, hm, mid, hdue⟩

/-- Expired slots lie below the last one, and there are none before the ledger's lifetime is
over. -/
def ExpiredWithin (slots : List LedgerSlot) (lifetime : Option ℕ) (height : ℕ) : Prop :=
  ∀ (i : ℕ) (slot : LedgerSlot), slots[i]? = some slot → slot.isExpired = true →
    i + 1 < slots.length ∧ ∃ m ∈ lifetime, m ≤ height

theorem ExpiredWithin.fresh (n : ℕ) (lifetime : Option ℕ) (height : ℕ) :
    ExpiredWithin (List.replicate n (LedgerSlot.fresh height)) lifetime height := by
  intro i slot hslot hexp
  rw [eq_of_mem_replicate (mem_of_getElem? hslot)] at hexp
  cases hexp

theorem ExpiredWithin.congr {slots slots' : List LedgerSlot} {lifetime : Option ℕ}
    (h : ExpiredWithin slots lifetime height) (hlen : slots'.length = slots.length)
    (heq : ∀ (i : ℕ) (slot' : LedgerSlot), slots'[i]? = some slot' →
      ∃ slot : LedgerSlot, slots[i]? = some slot ∧ slot'.isExpired = slot.isExpired) :
    ExpiredWithin slots' lifetime height := by
  intro i slot' hslot' hexp
  obtain ⟨slot, hslot, he⟩ := heq i slot' hslot'
  rw [hlen]
  exact h i slot hslot (he ▸ hexp)

theorem ExpiredWithin.after (h : ExpiredWithin slots t.lifetime height)
    (hheight : height ≤ t.height) : ExpiredWithin (t.after slots) t.lifetime t.height := by
  intro i slot hslot hexp
  rw [Turn.after_length]
  rcases Turn.expired_after hslot hexp with ⟨old, hold, hexp⟩ | ⟨m, hm, mid, hdue⟩
  · obtain ⟨hlast, m, hm, hle⟩ := h i old hold hexp
    exact ⟨by omega, m, hm, hle.trans hheight⟩
  · have hlt := (List.getElem?_eq_some_iff.mp hdue.at_index).1
    have hlast := hdue.not_last
    rw [Turn.touched_length] at hlt hlast
    exact ⟨by omega, m, hm, hdue.old_enough⟩

/-- Expired slots are full. -/
def ExpiredFull (slots : List LedgerSlot) (total C : ℕ) : Prop :=
  ∀ (i : ℕ) (slot : LedgerSlot), slots[i]? = some slot → slot.isExpired = true →
    (i + 1) * C ≤ total

theorem ExpiredFull.fresh (n C height : ℕ) :
    ExpiredFull (List.replicate n (LedgerSlot.fresh height)) 0 C := by
  intro i slot hslot hexp
  rw [eq_of_mem_replicate (mem_of_getElem? hslot)] at hexp
  cases hexp

/-- **Under Cascade only full slots expire.** -/
theorem ExpiredFull.after (h : ExpiredFull slots t.prevTotal t.chunksPerSlot)
    (hC : 0 < t.chunksPerSlot) (hc : t.cascade = true) (hle : t.prevTotal ≤ t.newTotal) :
    ExpiredFull (t.after slots) t.newTotal t.chunksPerSlot := by
  intro i slot hslot hexp
  rcases Turn.expired_after hslot hexp with ⟨old, hold, hexp⟩ | ⟨m, -, mid, hdue⟩
  · exact (h i old hold hexp).trans hle
  · exact (Nat.le_div_iff_mul_le hC).mp (hdue.gate hc).2

/-! ### The promotion filter's set is a prefix -/

/-- A sorted list of numbers with no gaps below its members is `0, 1, …, k - 1`. -/
theorem exists_eq_range_of_closed {l : List ℕ} (hsorted : l.Pairwise (· < ·))
    (hclosed : ∀ j ∈ l, ∀ i < j, i ∈ l) : ∃ k, l = List.range k := by
  have hex : ∃ k, k ∉ l := by
    refine ⟨l.sum + 1, fun hmem => ?_⟩
    have := le_sum_of_mem hmem
    omega
  refine ⟨Nat.find hex, eq_of_sorted_of_mem id hsorted pairwise_lt_range ?_⟩
  intro x
  rw [mem_range]
  constructor
  · intro hx
    by_contra hge
    rcases Nat.lt_or_ge (Nat.find hex) x with hlt | hle
    · exact Nat.find_spec hex (hclosed x hx _ hlt)
    · have : x = Nat.find hex := by omega
      rw [this] at hx
      exact Nat.find_spec hex hx
  · intro hx
    by_contra hnot
    exact Nat.find_min hex hx hnot

theorem allExpiredSlotIndexes_sorted (slots : List LedgerSlot) (m height : ℕ) (cascade : Bool)
    (total C : ℕ) : (allExpiredSlotIndexes slots m height cascade total C).Pairwise (· < ·) := by
  rw [allExpiredSlotIndexes]
  split
  · exact List.Pairwise.nil
  · rw [pairwise_map]
    exact (zipIdx_sorted slots 0).filter _

/-- **The inclusive expired set is a prefix**, at any height and for any frontier. -/
theorem SlotOrder.allExpired_eq_range (h : SlotOrder slots total C height cascade)
    (hgate : cascade = true → gate = true) (m height' T : ℕ) :
    ∃ k, allExpiredSlotIndexes slots m height' gate T C = List.range k := by
  apply exists_eq_range_of_closed (allExpiredSlotIndexes_sorted _ _ _ _ _ _)
  intro j hj i hij
  rw [mem_allExpiredSlotIndexes] at hj ⊢
  obtain ⟨hage, b, hb, hcase⟩ := hj
  have hi : i < slots.length := by
    have := lt_length_of_some hb
    omega
  have ha := getElem?_eq_getElem hi
  refine ⟨hage, slots[i], ha, ?_⟩
  rcases hcase with hexp | hexp
  · exact .inl (h.expired_prefix hij ha hb hexp)
  · exact h.below_expires hgate hij ha hexp

end Irys
