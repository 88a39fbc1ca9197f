import Mathlib.Tactic

/-!
# Additive maps on bit vectors

Shift registers compute with shifts and exclusive or, so their step is additive for `^^^`.  An
additive map is determined by its values on single bits, which makes a linear relation between
its iterates a finite check; and a relation with an odd number of terms stops the top bits of
the iterates from being all ones.
-/

namespace Irys

variable {w : ℕ}

/-- A map that respects exclusive or. -/
def XorAdditive (f : BitVec w → BitVec w) : Prop := ∀ x y, f (x ^^^ y) = f x ^^^ f y

theorem XorAdditive.map_zero {f : BitVec w → BitVec w} (h : XorAdditive f) : f 0#w = 0#w := by
  have := h 0#w 0#w
  rwa [BitVec.xor_self, BitVec.xor_self] at this

theorem XorAdditive.comp {f g : BitVec w → BitVec w} (hf : XorAdditive f) (hg : XorAdditive g) :
    XorAdditive (f ∘ g) := by
  intro x y
  show f (g (x ^^^ y)) = f (g x) ^^^ f (g y)
  rw [hg, hf]

theorem xorAdditive_xor_shiftLeft (k : ℕ) : XorAdditive fun x : BitVec w => x ^^^ x <<< k := by
  intro x y
  dsimp only
  rw [BitVec.shiftLeft_xor_distrib]
  ac_rfl

theorem xorAdditive_xor_ushiftRight (k : ℕ) : XorAdditive fun x : BitVec w => x ^^^ x >>> k := by
  intro x y
  dsimp only
  rw [BitVec.ushiftRight_xor_distrib]
  ac_rfl

theorem XorAdditive.iterate {f : BitVec w → BitVec w} (h : XorAdditive f) (n : ℕ) :
    XorAdditive f^[n] := by
  induction n with
  | zero => exact fun _ _ => rfl
  | succ n ih =>
    intro x y
    rw [Function.iterate_succ_apply', Function.iterate_succ_apply', Function.iterate_succ_apply',
      ih, h]

/-- The exclusive or of a list of words. -/
def xorSum (l : List (BitVec w)) : BitVec w := l.foldr (· ^^^ ·) 0#w

theorem xorAdditive_xorSum {ι : Type} (f : ι → BitVec w → BitVec w) (l : List ι)
    (h : ∀ i, XorAdditive (f i)) : XorAdditive fun x => xorSum (l.map fun i => f i x) := by
  intro x y
  induction l with
  | nil => simp [xorSum]
  | cons i l ih =>
    have hrest : xorSum (l.map fun i => f i (x ^^^ y)) =
        xorSum (l.map fun i => f i x) ^^^ xorSum (l.map fun i => f i y) := ih
    show f i (x ^^^ y) ^^^ xorSum (l.map fun i => f i (x ^^^ y)) =
      (f i x ^^^ xorSum (l.map fun i => f i x)) ^^^ (f i y ^^^ xorSum (l.map fun i => f i y))
    rw [h i, hrest]
    ac_rfl

/-- A word with bit `n` on top is that bit and the rest. -/
theorem eq_twoPow_xor {n : ℕ} {x : BitVec w} (hn : x.getLsbD n = true) :
    x = BitVec.twoPow w n ^^^ (x &&& ~~~ BitVec.twoPow w n) := by
  have hlt : n < w := BitVec.lt_of_getLsbD hn
  apply BitVec.eq_of_getLsbD_eq
  intro i hi
  by_cases hin : n = i
  · subst hin
    simp [hn, hlt]
  · have hni : ¬ i = n := fun h => hin h.symm
    simp [hni, hi]

/-- **Zero on the single bits, zero everywhere.** -/
theorem XorAdditive.eq_zero {f : BitVec w → BitVec w} (h : XorAdditive f)
    (hbits : ∀ n < w, f (BitVec.twoPow w n) = 0#w) (x : BitVec w) : f x = 0#w := by
  -- by induction on a bound for the bits that are set
  have hbound : ∀ n ≤ w, ∀ x : BitVec w, (∀ i, n ≤ i → x.getLsbD i = false) → f x = 0#w := by
    intro n
    induction n with
    | zero =>
      intro _ x hx
      have hzero : x = 0#w := by
        apply BitVec.eq_of_getLsbD_eq
        intro i _
        rw [hx i (Nat.zero_le i)]
        simp
      rw [hzero, h.map_zero]
    | succ n ih =>
      intro hn x hx
      cases hbit : x.getLsbD n with
      | false =>
        refine ih (Nat.le_of_succ_le hn) x ?_
        intro i hi
        rcases Nat.eq_or_lt_of_le hi with rfl | hlt
        · exact hbit
        · exact hx i hlt
      | true =>
        rw [eq_twoPow_xor hbit, h, hbits n hn, BitVec.zero_xor]
        refine ih (Nat.le_of_succ_le hn) _ ?_
        intro i hi
        rcases Nat.eq_or_lt_of_le hi with rfl | hlt
        · simp [BitVec.lt_of_getLsbD hbit]
        · simp [hx i hlt]
  exact hbound w le_rfl x (fun i hi => BitVec.getLsbD_of_ge x i hi)

theorem msb_xorSum_of_forall {l : List (BitVec w)} (h : ∀ x ∈ l, x.msb = true) :
    (xorSum l).msb = decide (l.length % 2 = 1) := by
  induction l with
  | nil => simp [xorSum]
  | cons x l ih =>
    rw [List.forall_mem_cons] at h
    show (x ^^^ xorSum l).msb = _
    rw [BitVec.msb_xor, h.1, ih h.2, List.length_cons]
    rcases Nat.mod_two_eq_zero_or_one l.length with hm | hm
    · simp [hm, Nat.add_mod]
    · simp [hm, Nat.add_mod]

/-- **An odd number of words that add up to zero do not all have their top bit set.** -/
theorem exists_msb_eq_false {l : List (BitVec w)} (hsum : xorSum l = 0#w)
    (hodd : l.length % 2 = 1) : ∃ x ∈ l, x.msb = false := by
  by_contra hall
  push Not at hall
  have hmsb := msb_xorSum_of_forall (fun x hx => by simpa using hall x hx)
  rw [hsum, hodd] at hmsb
  simp at hmsb

end Irys
