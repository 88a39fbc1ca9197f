import Mathlib.Analysis.Complex.Exponential
import Mathlib.Tactic

/-!
# The alternating exponential series in fixed point

`exp (-y)` is often computed in integers: with a scale `S` and `x = y * S`, each term of the
series is the previous one times `x`, divided by `S` and by its index, rounded down; the terms are
added with alternating signs.  This file bounds what the roundings cost, for `x ≤ S`.

* `seriesTerm_le_sum`, `seriesSum_le` — no subtraction goes below zero, no sum above the scale;
* `exp_neg_sub_exp_neg_ge` — how far two values of `exp` are apart.
-/

namespace Irys

/-- The terms: `S`, then each the previous one times `x / S`, over its index. -/
def seriesTerm (S x : ℕ) : ℕ → ℕ
  | 0 => S
  | i + 1 => seriesTerm S x i * x / S / (i + 1)

/-- The running sum: odd terms are subtracted, even ones are added. -/
def seriesSum (S x : ℕ) : ℕ → ℕ
  | 0 => S
  | i + 1 =>
    if (i + 1) % 2 = 1 then seriesSum S x i - seriesTerm S x (i + 1)
    else seriesSum S x i + seriesTerm S x (i + 1)

theorem seriesTerm_succ (S x i : ℕ) :
    seriesTerm S x (i + 1) = seriesTerm S x i * x / S / (i + 1) := rfl

section Integers

variable {S x : ℕ}

theorem seriesTerm_succ_le (hx : x ≤ S) (i : ℕ) : seriesTerm S x (i + 1) ≤ seriesTerm S x i := by
  have hmul : seriesTerm S x i * x / S ≤ seriesTerm S x i :=
    Nat.div_le_of_le_mul (by rw [Nat.mul_comm S]; exact Nat.mul_le_mul_left _ hx)
  exact (Nat.div_le_self _ _).trans hmul

theorem seriesTerm_le (hx : x ≤ S) (i : ℕ) : seriesTerm S x i ≤ S := by
  induction i with
  | zero => exact le_refl S
  | succ i ih => exact (seriesTerm_succ_le hx i).trans ih

/-- The invariant of the running sum: after an even term it covers that term and is at most the
scale, after an odd one the term could be added back. -/
theorem seriesSum_bounds (hx : x ≤ S) (i : ℕ) :
    (i % 2 = 0 → seriesTerm S x i ≤ seriesSum S x i ∧ seriesSum S x i ≤ S) ∧
    (i % 2 = 1 → seriesSum S x i + seriesTerm S x i ≤ S) := by
  induction i with
  | zero => exact ⟨fun _ => ⟨le_refl S, le_refl S⟩, fun h => by cases h⟩
  | succ i ih =>
    have hstep := seriesTerm_succ_le hx i
    constructor
    · intro heven
      have hodd := ih.2 (by omega)
      rw [seriesSum, if_neg (by omega)]
      omega
    · intro hodd
      have heven := ih.1 (by omega)
      rw [seriesSum, if_pos hodd]
      omega

theorem seriesTerm_le_sum (hx : x ≤ S) {i : ℕ} (hi : (i + 1) % 2 = 1) :
    seriesTerm S x (i + 1) ≤ seriesSum S x i :=
  (seriesTerm_succ_le hx i).trans ((seriesSum_bounds hx i).1 (by omega)).1

theorem seriesSum_le (hx : x ≤ S) (i : ℕ) : seriesSum S x i ≤ S := by
  rcases Nat.mod_two_eq_zero_or_one i with heven | hodd
  · exact ((seriesSum_bounds hx i).1 heven).2
  · have := (seriesSum_bounds hx i).2 hodd
    omega

theorem seriesSum_zero_right (S i : ℕ) : seriesSum S 0 i = S := by
  induction i with
  | zero => rfl
  | succ i ih =>
    have hterm : seriesTerm S 0 (i + 1) = 0 := by simp [seriesTerm]
    rw [seriesSum, hterm, ih]
    split <;> omega

end Integers

/-! ### The roundings against the real series -/

section Reals

variable {S x : ℕ}

theorem sub_one_lt_cast_div (m : ℕ) {n : ℕ} (hn : 0 < n) :
    (m : ℝ) / n - 1 < ((m / n : ℕ) : ℝ) := by
  have hn' : (0 : ℝ) < n := Nat.cast_pos.mpr hn
  have hlt : m < n * (m / n) + n := by
    have := Nat.div_add_mod m n
    have := Nat.mod_lt m hn
    omega
  have hlt' : (m : ℝ) < n * ((m / n : ℕ) : ℝ) + n := by exact_mod_cast hlt
  rw [sub_lt_iff_lt_add, div_lt_iff₀ hn']
  linarith

/-- The real term of index `i`. -/
noncomputable def realTerm (S x i : ℕ) : ℝ := S * ((x : ℝ) / S) ^ i / i.factorial

theorem realTerm_succ (hS : 0 < S) (i : ℕ) :
    realTerm S x (i + 1) = realTerm S x i * x / (S * (i + 1)) := by
  have hS' : (S : ℝ) ≠ 0 := by positivity
  rw [realTerm, realTerm, Nat.factorial_succ, pow_succ]
  push_cast
  field_simp

theorem seriesTerm_bounds (hS : 0 < S) (hx : x ≤ S) (i : ℕ) :
    (seriesTerm S x i : ℝ) ≤ realTerm S x i ∧ realTerm S x i ≤ seriesTerm S x i + 2 := by
  have hS' : (0 : ℝ) < S := by exact_mod_cast hS
  have hx' : (x : ℝ) ≤ S := by exact_mod_cast hx
  have hx0 : (0 : ℝ) ≤ x := Nat.cast_nonneg x
  induction i with
  | zero => simp [seriesTerm, realTerm]
  | succ i ih =>
    have hden : (0 : ℝ) < S * (i + 1) := by positivity
    have hdiv : seriesTerm S x (i + 1) = seriesTerm S x i * x / (S * (i + 1)) := by
      rw [seriesTerm, Nat.div_div_eq_div_mul]
    have hcast : ((S * (i + 1) : ℕ) : ℝ) = S * (i + 1) := by push_cast; ring
    have hle : (seriesTerm S x (i + 1) : ℝ) ≤ seriesTerm S x i * x / (S * (i + 1)) := by
      rw [hdiv, ← hcast]
      exact_mod_cast Nat.cast_div_le
    have hlt : (seriesTerm S x i : ℝ) * x / (S * (i + 1)) - 1 < seriesTerm S x (i + 1) := by
      rw [hdiv, ← hcast, ← Nat.cast_mul]
      exact sub_one_lt_cast_div _ (by positivity)
    rw [realTerm_succ hS]
    constructor
    · refine hle.trans ?_
      gcongr
      exact ih.1
    · -- the error so far shrinks by `x / S / (i + 1)`, and the new rounding adds one
      have hshrink : (realTerm S x i - seriesTerm S x i) * x / (S * (i + 1)) ≤ 1 := by
        cases i with
        | zero => simp [seriesTerm, realTerm]
        | succ i =>
          rw [div_le_one hden]
          have hi : (0 : ℝ) ≤ i := Nat.cast_nonneg i
          have h0 : (0 : ℝ) ≤ realTerm S x (i + 1) - seriesTerm S x (i + 1) := by
            linarith [ih.1]
          have h2 : realTerm S x (i + 1) - seriesTerm S x (i + 1) ≤ 2 := by
            linarith [ih.2]
          push_cast
          nlinarith [mul_le_mul h2 hx' hx0 (by norm_num : (0 : ℝ) ≤ 2)]
      have hsplit : realTerm S x i * x / (S * (i + 1)) =
          (realTerm S x i - seriesTerm S x i) * x / (S * (i + 1)) +
            seriesTerm S x i * x / (S * (i + 1)) := by ring
      rw [hsplit]
      linarith

/-- The real partial sum up to index `i`. -/
noncomputable def realSum (S x i : ℕ) : ℝ :=
  ∑ m ∈ Finset.range (i + 1), (-1) ^ m * realTerm S x m

/-- **The roundings cost at most two units a term.** -/
theorem abs_seriesSum_sub_realSum_le (hS : 0 < S) (hx : x ≤ S) (i : ℕ) :
    |(seriesSum S x i : ℝ) - realSum S x i| ≤ 2 * i := by
  induction i with
  | zero => simp [seriesSum, realSum, realTerm]
  | succ i ih =>
    obtain ⟨hle, hge⟩ := seriesTerm_bounds hS hx (i + 1)
    have hreal : realSum S x (i + 1) =
        realSum S x i + (-1) ^ (i + 1) * realTerm S x (i + 1) := by
      rw [realSum, Finset.sum_range_succ, ← realSum]
    obtain ⟨hlo, hhi⟩ := abs_le.mp ih
    rw [hreal, abs_le]
    push_cast
    by_cases hodd : (i + 1) % 2 = 1
    · have hsum : (seriesSum S x (i + 1) : ℝ) = seriesSum S x i - seriesTerm S x (i + 1) := by
        rw [seriesSum, if_pos hodd, Nat.cast_sub (seriesTerm_le_sum hx hodd)]
      rw [hsum, Odd.neg_one_pow (Nat.odd_iff.mpr hodd)]
      constructor <;> linarith
    · have hsum : (seriesSum S x (i + 1) : ℝ) = seriesSum S x i + seriesTerm S x (i + 1) := by
        rw [seriesSum, if_neg hodd, Nat.cast_add]
      rw [hsum, Even.neg_one_pow (Nat.even_iff.mpr (by omega))]
      constructor <;> linarith

theorem realSum_eq (i : ℕ) :
    realSum S x i = S * ∑ m ∈ Finset.range (i + 1), (-((x : ℝ) / S)) ^ m / m.factorial := by
  rw [realSum, Finset.mul_sum]
  refine Finset.sum_congr rfl fun m _ => ?_
  rw [realTerm, neg_pow]
  ring

/-- **The running sum against the exponential.** -/
theorem abs_seriesSum_sub_exp_le (hS : 0 < S) (hx : x ≤ S) (i : ℕ) :
    |(seriesSum S x i : ℝ) - S * Real.exp (-((x : ℝ) / S))| ≤
      2 * i + S * (((i + 2 : ℕ) : ℝ) / ((i + 1).factorial * (i + 1 : ℕ))) := by
  have hS' : (0 : ℝ) < S := by exact_mod_cast hS
  have hy1 : (x : ℝ) / S ≤ 1 := by
    rw [div_le_one hS']
    exact_mod_cast hx
  have hy0 : (0 : ℝ) ≤ (x : ℝ) / S := by positivity
  have habs : |-((x : ℝ) / S)| ≤ 1 := by
    rw [abs_neg, abs_of_nonneg hy0]
    exact hy1
  have htail := Real.exp_bound habs (Nat.succ_pos i)
  have hpow : |-((x : ℝ) / S)| ^ (i + 1) ≤ 1 := pow_le_one₀ (abs_nonneg _) habs
  have hslack : (0 : ℝ) ≤ ((i + 1).succ : ℝ) / ((i + 1).factorial * (i + 1 : ℕ)) := by positivity
  have htail' : |Real.exp (-((x : ℝ) / S)) -
      ∑ m ∈ Finset.range (i + 1), (-((x : ℝ) / S)) ^ m / m.factorial| ≤
      ((i + 1).succ : ℝ) / ((i + 1).factorial * (i + 1 : ℕ)) :=
    htail.trans (mul_le_of_le_one_left hslack hpow)
  have hround := abs_seriesSum_sub_realSum_le hS hx i
  rw [realSum_eq] at hround
  have hscaled : |(S : ℝ) * (∑ m ∈ Finset.range (i + 1), (-((x : ℝ) / S)) ^ m / m.factorial) -
      S * Real.exp (-((x : ℝ) / S))| ≤
      S * (((i + 1).succ : ℝ) / ((i + 1).factorial * (i + 1 : ℕ))) := by
    rw [← mul_sub, abs_mul, abs_of_pos hS', abs_sub_comm]
    exact mul_le_mul_of_nonneg_left htail' hS'.le
  exact (abs_sub_le _ _ _).trans (add_le_add hround hscaled)

theorem exp_neg_sub_exp_neg_ge (y y' : ℝ) :
    (y' - y) * Real.exp (-y') ≤ Real.exp (-y) - Real.exp (-y') := by
  have hadd := Real.add_one_le_exp (y' - y)
  have hprod : Real.exp (-y) = Real.exp (y' - y) * Real.exp (-y') := by
    rw [← Real.exp_add]
    congr 1
    ring
  have hpos := Real.exp_pos (-y')
  rw [hprod]
  nlinarith

end Reals

end Irys
