import Irys.Merkle.Stream
import Irys.Merkle.Opening

/-!
# Perfect trees and aligned blocks

In a tree of `2 ^ e` leaves no node is carried: every path has `e` steps, the sides are the
bits of the index, and each node is the root of an aligned block of leaves.

* `levelSteps_perfect_succ`, `levelSteps_length_perfect` — its sides, bit by bit.
-/

namespace Irys.Merkle

open List

variable {D : Type} (node : D → D → D)

/-! ### Aligned blocks -/

section Block

variable [Inhabited D]

/-- The root of the `2 ^ ℓ` leaves from `start` on. -/
def blockRoot (xs : List D) (start ℓ : ℕ) : D := rootOf node ((xs.drop start).take (2 ^ ℓ))

theorem blockRoot_zero {xs : List D} {i : ℕ} {a : D} (h : xs[i]? = some a) :
    blockRoot node xs i 0 = a := by
  obtain ⟨hi, rfl⟩ := List.getElem?_eq_some_iff.mp h
  rw [blockRoot, drop_eq_getElem_cons hi]
  exact rootOf_singleton node _

theorem blockRoot_levelUp (xs : List D) (start ℓ : ℕ) :
    blockRoot node (levelUp node xs) start ℓ = blockRoot node xs (2 * start) (ℓ + 1) := by
  rw [blockRoot, levelUp_drop, levelUp_take, rootOf_levelUp, ← pow_succ', blockRoot]

theorem blockRoot_split {xs : List D} {start ℓ : ℕ} (h : start + 2 ^ (ℓ + 1) ≤ xs.length) :
    blockRoot node xs start (ℓ + 1)
      = node (blockRoot node xs start ℓ) (blockRoot node xs (start + 2 ^ ℓ) ℓ) := by
  have hpos := Nat.two_pow_pos ℓ
  have hpow : 2 ^ (ℓ + 1) = 2 ^ ℓ + 2 ^ ℓ := by ring
  have hlen : ((xs.drop start).take (2 ^ (ℓ + 1))).length = 2 ^ (ℓ + 1) := by
    rw [length_take, length_drop]
    omega
  rw [blockRoot, rootOf_split node ℓ _ (by omega) (by omega), take_take, min_eq_left (by omega),
    drop_take, drop_drop, blockRoot, blockRoot, show 2 ^ (ℓ + 1) - 2 ^ ℓ = 2 ^ ℓ by omega]

theorem blockRoot_full {xs : List D} {e : ℕ} (h : xs.length = 2 ^ e) :
    blockRoot node xs 0 e = rootOf node xs := by
  rw [blockRoot, drop_zero, ← h, take_length]

/-- **Audit paths of a perfect tree.**  The sibling at level `ℓ` is the block next to the one
that holds the leaf. -/
theorem siblingsOf_perfect (e c : ℕ) (xs : List D) (hlen : xs.length = 2 ^ e) (hc : c < 2 ^ e) :
    (siblingsOf node c xs).map Prod.snd
      = (List.range e).map fun ℓ => blockRoot node xs (((c / 2 ^ ℓ) ^^^ 1) * 2 ^ ℓ) ℓ := by
  induction e generalizing c xs with
  | zero => rw [siblingsOf_of_le node _ (by omega)]; rfl
  | succ e ih =>
    have hpos := Nat.two_pow_pos e
    rw [pow_succ'] at hlen hc
    have hsib : c ^^^ 1 < xs.length := by
      rw [xor_one_eq]
      split <;> omega
    rw [siblingsOf_of_gt node c (by omega), map_append, stepAt_map_snd,
      ih (c / 2) (levelUp node xs) (by rw [levelUp_length]; omega) (by omega),
      range_succ_eq_map, map_cons, List.map_map, getElem?_eq_getElem hsib]
    simp only [Option.toList_some, singleton_append, List.cons.injEq]
    refine ⟨(blockRoot_zero node (by simp [hsib])).symm, map_congr_left fun ℓ _ => ?_⟩
    rw [Function.comp, blockRoot_levelUp, Nat.div_div_eq_div_mul, ← pow_succ', Nat.succ_eq_add_one]
    congr 1
    rw [pow_succ']
    ring

end Block

/-! ### Sides -/

theorem levelSteps_perfect_succ {e c : ℕ} (hc : c < 2 ^ (e + 1)) :
    levelSteps c (2 ^ (e + 1) - 1)
      = (if c % 2 = 1 then Side.left else Side.right) :: levelSteps (c / 2) (2 ^ e - 1) := by
  have hpos := Nat.two_pow_pos e
  rw [pow_succ'] at hc ⊢
  rw [levelSteps_of_ne_zero c (by omega), show (2 * 2 ^ e - 1) / 2 = 2 ^ e - 1 by omega]
  split
  · rfl
  · rw [if_pos (by omega)]
    rfl

theorem levelSteps_length_perfect (e c : ℕ) (hc : c < 2 ^ e) :
    (levelSteps c (2 ^ e - 1)).length = e := by
  induction e generalizing c with
  | zero => simp
  | succ e ih =>
    rw [levelSteps_perfect_succ hc, length_cons, ih (c / 2) (by rw [pow_succ'] at hc; omega)]

/-- The paths of two leaves of a perfect tree agree from the root down to one step, where the
lower leaf has its sibling on the right and the higher one on the left. -/
theorem levelSteps_diverge {e c c' : ℕ} (h : c < c') (hc' : c' < 2 ^ e) :
    ∃ (A A' B : List Side), levelSteps c (2 ^ e - 1) = A ++ Side.right :: B ∧
      levelSteps c' (2 ^ e - 1) = A' ++ Side.left :: B ∧ A.length = A'.length ∧ A.length < e ∧
      c / 2 ^ A.length % 2 = 0 ∧ c' / 2 ^ A.length = c / 2 ^ A.length + 1 := by
  induction e generalizing c c' with
  | zero => simp at hc'; omega
  | succ e ih =>
    have hsucc := hc'
    rw [pow_succ'] at hsucc
    rw [levelSteps_perfect_succ hc', levelSteps_perfect_succ (h.trans hc')]
    rcases Nat.lt_or_ge (c / 2) (c' / 2) with hlt | hge
    · obtain ⟨A, A', B, hA, hA', hlen, hle, heven, hnext⟩ := ih hlt (by omega)
      refine ⟨_ :: A, _ :: A', B, by rw [hA]; rfl, by rw [hA']; rfl, by simp [hlen],
        by simpa using hle, ?_, ?_⟩
      · rwa [length_cons, pow_succ', ← Nat.div_div_eq_div_mul]
      · rwa [length_cons, pow_succ', ← Nat.div_div_eq_div_mul, ← Nat.div_div_eq_div_mul]
    · -- the two leaves are neighbours
      refine ⟨[], [], levelSteps (c / 2) (2 ^ e - 1), ?_, ?_, rfl, by simp, ?_, ?_⟩
      · rw [if_neg (by omega)]
        rfl
      · rw [if_pos (by omega), show c' / 2 = c / 2 by omega]
        rfl
      · simp; omega
      · simp; omega

end Irys.Merkle
