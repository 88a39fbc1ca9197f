import Irys.Lib.ExpSeries
import Irys.Pricing.FixedPoint

/-!
# The emission curve

Block rewards follow a curve that halves the remaining emission every half life: by time `t` a
share `1 - 2 ^ (-t / halfLife)` of the inflation cap has been emitted, in 18-decimal fixed point.

* `decayFactor`, `HalvingCurve.emittedUntil`, `HalvingCurve.rewardBetween` — the code;
* `decayAt` — the decay in closed form: a halving shift times the truncated series;
* `decayAt_antitone` — the decay never rises, neither inside a half life, where the series'
  roundings are smaller than one second's change, nor across the halvings;
* `emission_capped_and_telescopes` — the emission is monotone and capped, and rewards add up.
-/

namespace Irys

open List

/-- The curve: what is emitted in total, and the time in which what is left halves. -/
structure HalvingCurve where
  inflationCap : ℕ
  halfLifeSecs : ℕ
  deriving DecidableEq

/-- `2 ^ -q` in fixed point; it underflows to zero from 60 halvings on. -/
def halvings (q : ℕ) : Res PricingError ℕ :=
  if q = 0 then .ok tokenScale
  else if 60 ≤ q then .ok 0
  else safeDiv tokenScale (1 <<< q)

/-- `2 ^ -(t / halfLife)` in fixed point. -/
def decayFactor (tSecs halfLife : ℕ) : Res PricingError ℕ :=
  if halfLife = 0 then fail .halfLifeZero
  else do
    let decayQFp18 ← halvings (tSecs / halfLife)
    if tSecs % halfLife = 0 ∨ decayQFp18 = 0 then .ok decayQFp18
    else do
      let xFp18 ← mulDiv ln2Fp18 (tSecs % halfLife) halfLife
      let decayFFp18 ← expNegFp18 xFp18
      mulDiv decayQFp18 decayFFp18 tokenScale

namespace HalvingCurve

/-- The tokens emitted from genesis up to time `t`. -/
def emittedUntil (curve : HalvingCurve) (t : ℕ) : Res PricingError ℕ := do
  let decayFp18 ← decayFactor t curve.halfLifeSecs
  let oneMinus ← safeSub tokenScale decayFp18
  mulDiv curve.inflationCap oneMinus tokenScale

/-- The reward for the time between two timestamps. -/
def rewardBetween (curve : HalvingCurve) (prevTs newTs : ℕ) : Res PricingError ℕ :=
  if newTs < prevTs then fail (.newBeforePrev newTs prevTs)
  else if prevTs = newTs ∨ curve.inflationCap = 0 then .ok 0
  else do
    let emittedPrev ← curve.emittedUntil prevTs
    let emittedNew ← curve.emittedUntil newTs
    safeSub emittedNew emittedPrev

/-- The rewards of the blocks of a chain, from their timestamps. -/
def rewardsAlong (curve : HalvingCurve) (timestamps : List ℕ) : Res PricingError (List ℕ) :=
  (timestamps.zip timestamps.tail).mapM fun (prevTs, newTs) => curve.rewardBetween prevTs newTs

end HalvingCurve

/-! ### The series as the code sums it -/

section

variable {x : ℕ} (hx : x ≤ tokenScale)
include hx

theorem expNegStep_eq (i : ℕ) :
    expNegStep x (seriesTerm tokenScale x i, seriesSum tokenScale x i) (i + 1) =
      .ok (seriesTerm tokenScale x (i + 1), seriesSum tokenScale x (i + 1)) := by
  have hterm := seriesTerm_le hx i
  have hterm' := seriesTerm_le hx (i + 1)
  have hsum := seriesSum_le hx i
  have hprod : seriesTerm tokenScale x i * x < 2 ^ 256 :=
    lt_of_le_of_lt (Nat.mul_le_mul hterm hx) (by decide)
  rw [expNegStep, mulDiv_of_lt hprod (by decide), ok_bind, safeDiv_of_pos (Nat.succ_pos i),
    ok_bind, Nat.and_one_is_mod, Nat.succ_eq_add_one, ← seriesTerm_succ]
  by_cases hodd : (i + 1) % 2 = 1
  · rw [if_pos hodd, safeSub_of_le (seriesTerm_le_sum hx hodd), ok_bind, seriesSum, if_pos hodd]
  · have hscale : tokenScale + tokenScale < 2 ^ 256 := by decide
    rw [if_neg hodd, safeAdd_of_lt (by omega), ok_bind, seriesSum, if_neg hodd]

theorem foldlM_expNegStep (i n : ℕ) :
    (List.range' (i + 1) n).foldlM (expNegStep x)
        (seriesTerm tokenScale x i, seriesSum tokenScale x i) =
      .ok (seriesTerm tokenScale x (i + n), seriesSum tokenScale x (i + n)) := by
  induction n generalizing i with
  | zero => rfl
  | succ n ih =>
    rw [range'_succ, foldlM_cons, expNegStep_eq hx, ok_bind, ih (i + 1),
      show i + 1 + n = i + (n + 1) by omega]

/-- **Up to one, the code computes the series**, with no overflow and no underflow. -/
theorem expNegFp18_eq : expNegFp18 x = .ok (seriesSum tokenScale x taylorTerms) := by
  have h := foldlM_expNegStep hx 0 taylorTerms
  rw [Nat.zero_add taylorTerms] at h
  rw [expNegFp18, show (tokenScale, tokenScale) =
    (seriesTerm tokenScale x 0, seriesSum tokenScale x 0) from rfl, h, ok_bind]

/-! ### How exact the series is on a half life -/

theorem abs_seriesSum_sub_le :
    |(seriesSum tokenScale x taylorTerms : ℝ) -
      tokenScale * Real.exp (-((x : ℝ) / tokenScale))| ≤ 61 := by
  refine (abs_seriesSum_sub_exp_le (by decide) hx taylorTerms).trans ?_
  norm_num [tokenScale, taylorTerms, Nat.factorial]

end

/-- The constant is below `ln 2`. -/
theorem half_le_exp_neg_ln2 :
    (1 : ℝ) / 2 ≤ Real.exp (-((ln2Fp18 : ℝ) / tokenScale)) := by
  have habs : |(ln2Fp18 : ℝ) / tokenScale| ≤ 1 := by
    rw [abs_of_nonneg (by positivity)]
    norm_num [ln2Fp18, tokenScale]
  have hbound := (abs_le.mp (Real.exp_bound habs (show 0 < 22 by norm_num))).2
  have htwo : Real.exp ((ln2Fp18 : ℝ) / tokenScale) ≤ 2 := by
    rw [abs_of_nonneg (by positivity)] at hbound
    norm_num [ln2Fp18, tokenScale, Finset.sum_range_succ, Nat.factorial] at hbound ⊢
    linarith
  rw [Real.exp_neg, one_div]
  exact inv_anti₀ (Real.exp_pos _) htwo

/-- Two arguments 693 units apart, the larger one at most `ln 2`: the exponentials are at least 346
units apart. -/
theorem exp_gap {x x' : ℕ} (hstep : x + 693 ≤ x') (hx' : x' ≤ ln2Fp18) :
    (tokenScale : ℝ) * Real.exp (-((x' : ℝ) / tokenScale)) + 346 ≤
      tokenScale * Real.exp (-((x : ℝ) / tokenScale)) := by
  have hscale : (0 : ℝ) < tokenScale := by norm_num [tokenScale]
  have hgap := exp_neg_sub_exp_neg_ge ((x : ℝ) / tokenScale) ((x' : ℝ) / tokenScale)
  have hhalf : (1 : ℝ) / 2 ≤ Real.exp (-((x' : ℝ) / tokenScale)) := by
    refine half_le_exp_neg_ln2.trans (Real.exp_le_exp.mpr ?_)
    have : (x' : ℝ) ≤ ln2Fp18 := by exact_mod_cast hx'
    gcongr
  have hdist : (693 : ℝ) ≤ x' - x := by
    have : ((x + 693 : ℕ) : ℝ) ≤ x' := by exact_mod_cast hstep
    push_cast at this
    linarith
  have hscaled : ((x' : ℝ) - x) * Real.exp (-((x' : ℝ) / tokenScale)) ≤
      tokenScale * (Real.exp (-((x : ℝ) / tokenScale)) - Real.exp (-((x' : ℝ) / tokenScale))) := by
    have := mul_le_mul_of_nonneg_left hgap hscale.le
    calc ((x' : ℝ) - x) * Real.exp (-((x' : ℝ) / tokenScale))
        = tokenScale * ((x' / tokenScale - x / tokenScale) *
            Real.exp (-((x' : ℝ) / tokenScale))) := by field_simp
      _ ≤ _ := this
  nlinarith

theorem ln2_le_scale : ln2Fp18 ≤ tokenScale := by decide

theorem seriesSum_antitone_step {x x' : ℕ} (hstep : x + 693 ≤ x') (hx' : x' ≤ ln2Fp18) :
    seriesSum tokenScale x' taylorTerms ≤ seriesSum tokenScale x taylorTerms := by
  have hle := ln2_le_scale
  have hgap := exp_gap hstep hx'
  have h := (abs_le.mp (abs_seriesSum_sub_le (show x ≤ tokenScale by omega))).1
  have h' := (abs_le.mp (abs_seriesSum_sub_le (show x' ≤ tokenScale by omega))).2
  have hreal : (seriesSum tokenScale x' taylorTerms : ℝ) ≤
      seriesSum tokenScale x taylorTerms := by linarith
  exact_mod_cast hreal

/-- At 693 units below `ln 2` the series is still at least one half. -/
theorem half_le_seriesSum {x : ℕ} (hstep : x + 693 ≤ ln2Fp18) :
    tokenScale ≤ 2 * seriesSum tokenScale x taylorTerms := by
  have hle := ln2_le_scale
  have hgap := exp_gap hstep (le_refl _)
  have h := (abs_le.mp (abs_seriesSum_sub_le (show x ≤ tokenScale by omega))).1
  have hhalf : (tokenScale : ℝ) * (1 / 2) ≤
      tokenScale * Real.exp (-((ln2Fp18 : ℝ) / tokenScale)) :=
    mul_le_mul_of_nonneg_left half_le_exp_neg_ln2 (Nat.cast_nonneg _)
  have hreal : (tokenScale : ℝ) ≤ 2 * seriesSum tokenScale x taylorTerms := by linarith
  exact_mod_cast hreal

/-! ### The decay in closed form -/

section Decay

variable {H : ℕ}

/-- The exponent of a fraction of a half life. -/
def fractionFp18 (H f : ℕ) : ℕ := ln2Fp18 * f / H

/-- The decay: the halvings so far, times the series at the rest. -/
def decayAt (H t : ℕ) : ℕ :=
  tokenScale / 2 ^ (t / H) * seriesSum tokenScale (fractionFp18 H (t % H)) taylorTerms / tokenScale

theorem fractionFp18_step (hpos : 0 < H) (hH : H ≤ 10 ^ 15) (f : ℕ) :
    fractionFp18 H f + 693 ≤ fractionFp18 H (f + 1) := by
  have hln : 693 * H ≤ ln2Fp18 := (Nat.mul_le_mul_left 693 hH).trans (by norm_num [ln2Fp18])
  rw [fractionFp18, fractionFp18, ← Nat.add_mul_div_right _ _ hpos]
  exact Nat.div_le_div_right (by rw [Nat.mul_succ]; omega)

theorem fractionFp18_le {f : ℕ} (hf : f ≤ H) : fractionFp18 H f ≤ ln2Fp18 :=
  Nat.div_le_of_le_mul (by rw [Nat.mul_comm H]; exact Nat.mul_le_mul_left _ hf)

theorem halvings_eq (q : ℕ) : halvings q = .ok (tokenScale / 2 ^ q) := by
  rw [halvings]
  by_cases hzero : q = 0
  · rw [if_pos hzero, hzero, pow_zero, Nat.div_one]
  · rw [if_neg hzero]
    by_cases hlarge : 60 ≤ q
    · have hlt : tokenScale < 2 ^ q :=
        lt_of_lt_of_le (show tokenScale < 2 ^ 60 by decide) (Nat.pow_le_pow_right (by decide) hlarge)
      rw [if_pos hlarge, Nat.div_eq_of_lt hlt]
    · rw [if_neg hlarge, Nat.one_shiftLeft, safeDiv_of_pos (by positivity)]

/-- **The code computes the closed form.** -/
theorem decayFactor_eq (hpos : 0 < H) (hH : H ≤ 10 ^ 15) (t : ℕ) :
    decayFactor t H = .ok (decayAt H t) := by
  have hmod : t % H < H := Nat.mod_lt t hpos
  have hfraction : fractionFp18 H (t % H) ≤ tokenScale :=
    (fractionFp18_le hmod.le).trans ln2_le_scale
  rw [decayFactor, if_neg (by omega), halvings_eq, ok_bind, decayAt]
  by_cases hdone : t % H = 0 ∨ tokenScale / 2 ^ (t / H) = 0
  · rw [if_pos hdone]
    rcases hdone with hf | hq
    · rw [hf, show fractionFp18 H 0 = 0 by simp [fractionFp18], seriesSum_zero_right,
        Nat.mul_div_cancel _ (by decide)]
    · rw [hq, Nat.zero_mul, Nat.zero_div]
  · have hprod : ln2Fp18 * (t % H) < 2 ^ 256 :=
      lt_of_le_of_lt (Nat.mul_le_mul_left _ (hmod.le.trans hH)) (by decide)
    have hprod' : tokenScale / 2 ^ (t / H) *
        seriesSum tokenScale (fractionFp18 H (t % H)) taylorTerms < 2 ^ 256 :=
      lt_of_le_of_lt (Nat.mul_le_mul (Nat.div_le_self _ _) (seriesSum_le hfraction _)) (by decide)
    rw [if_neg hdone, mulDiv_of_lt hprod hpos, ok_bind, ← fractionFp18, expNegFp18_eq hfraction,
      ok_bind, mulDiv_of_lt hprod' (by decide)]

theorem decayAt_le (hpos : 0 < H) (t : ℕ) : decayAt H t ≤ tokenScale := by
  have hfraction : fractionFp18 H (t % H) ≤ tokenScale :=
    (fractionFp18_le (Nat.mod_lt t hpos).le).trans ln2_le_scale
  exact Nat.div_le_of_le_mul (Nat.mul_le_mul (Nat.div_le_self _ _) (seriesSum_le hfraction _))

/-- One second later the decay is not larger.  Inside a half life the series falls by more than
its roundings; at a halving it is still at least one half, which the next shift takes off. -/
theorem decayAt_succ_le (hpos : 0 < H) (hH : H ≤ 10 ^ 15) (t : ℕ) :
    decayAt H (t + 1) ≤ decayAt H t := by
  have hmod : t % H < H := Nat.mod_lt t hpos
  by_cases hd : H ∣ t + 1
  · have hq : (t + 1) / H = t / H + 1 := by rw [Nat.succ_div, if_pos hd]
    have hhalf := half_le_seriesSum
      ((fractionFp18_step hpos hH (t % H)).trans (fractionFp18_le (Nat.succ_le_of_lt hmod)))
    rw [decayAt, decayAt, hq, Nat.mod_eq_zero_of_dvd hd, show fractionFp18 H 0 = 0 by
      simp [fractionFp18], seriesSum_zero_right, Nat.mul_div_cancel _ (by decide), pow_succ,
      ← Nat.div_div_eq_div_mul, Nat.le_div_iff_mul_le (by decide)]
    have htwice : tokenScale / 2 ^ (t / H) / 2 * 2 ≤ tokenScale / 2 ^ (t / H) :=
      Nat.div_mul_le_self _ _
    calc tokenScale / 2 ^ (t / H) / 2 * tokenScale
        ≤ tokenScale / 2 ^ (t / H) / 2 *
            (2 * seriesSum tokenScale (fractionFp18 H (t % H)) taylorTerms) :=
          Nat.mul_le_mul_left _ hhalf
      _ = tokenScale / 2 ^ (t / H) / 2 * 2 *
            seriesSum tokenScale (fractionFp18 H (t % H)) taylorTerms := by
          rw [Nat.mul_assoc]
      _ ≤ _ := Nat.mul_le_mul_right _ htwice
  · have hq : (t + 1) / H = t / H := by rw [Nat.succ_div, if_neg hd, Nat.add_zero]
    have hf : (t + 1) % H = t % H + 1 := by
      have h1 := Nat.div_add_mod t H
      have h2 := Nat.div_add_mod (t + 1) H
      rw [hq] at h2
      omega
    have hlt : t % H + 1 < H := by
      rw [← hf]
      exact Nat.mod_lt _ hpos
    have hfall := seriesSum_antitone_step (fractionFp18_step hpos hH (t % H))
      (fractionFp18_le hlt.le)
    rw [decayAt, decayAt, hq, hf]
    exact Nat.div_le_div_right (Nat.mul_le_mul_left _ hfall)

theorem decayAt_antitone (hpos : 0 < H) (hH : H ≤ 10 ^ 15) : Antitone (decayAt H) :=
  antitone_nat_of_succ_le (decayAt_succ_le hpos hH)

end Decay

/-! ### Emission and rewards -/

namespace HalvingCurve

variable {curve : HalvingCurve}

/-- What is emitted by time `t`. -/
def emittedAt (curve : HalvingCurve) (t : ℕ) : ℕ :=
  curve.inflationCap * (tokenScale - decayAt curve.halfLifeSecs t) / tokenScale

section

variable (hcap : curve.inflationCap * tokenScale < 2 ^ 256) (hpos : 1 ≤ curve.halfLifeSecs)
  (hlife : curve.halfLifeSecs ≤ 10 ^ 15)
include hcap hpos hlife

theorem emittedUntil_eq (t : ℕ) : curve.emittedUntil t = .ok (curve.emittedAt t) := by
  have hprod : curve.inflationCap * (tokenScale - decayAt curve.halfLifeSecs t) < 2 ^ 256 :=
    lt_of_le_of_lt (Nat.mul_le_mul_left _ (Nat.sub_le _ _)) hcap
  rw [emittedUntil, decayFactor_eq hpos hlife, ok_bind, safeSub_of_le (decayAt_le hpos t),
    ok_bind, mulDiv_of_lt hprod (by decide), emittedAt]

omit hcap in
theorem emittedAt_mono : Monotone curve.emittedAt := by
  intro t t' h
  have := decayAt_antitone hpos hlife h
  exact Nat.div_le_div_right (Nat.mul_le_mul_left _ (by omega))

theorem rewardBetween_eq {t t' : ℕ} (h : t ≤ t') :
    curve.rewardBetween t t' = .ok (curve.emittedAt t' - curve.emittedAt t) := by
  rw [rewardBetween, if_neg (by omega)]
  by_cases htrivial : t = t' ∨ curve.inflationCap = 0
  · rw [if_pos htrivial]
    rcases htrivial with rfl | hzero
    · rw [Nat.sub_self]
    · simp [emittedAt, hzero]
  · rw [if_neg htrivial, emittedUntil_eq hcap hpos hlife, ok_bind,
      emittedUntil_eq hcap hpos hlife, ok_bind, safeSub_of_le (emittedAt_mono hpos hlife h)]

theorem rewardsAlong_eq (t : ℕ) (timestamps : List ℕ) (hsorted : (t :: timestamps).Pairwise (· ≤ ·)) :
    ∃ rewards, curve.rewardsAlong (t :: timestamps) = .ok rewards ∧
      curve.emittedAt t + rewards.sum = curve.emittedAt ((t :: timestamps).getLast (by simp)) := by
  induction timestamps generalizing t with
  | nil => exact ⟨[], rfl, by simp⟩
  | cons t' timestamps ih =>
    obtain ⟨hhead, htail⟩ := pairwise_cons.mp hsorted
    have hle : t ≤ t' := hhead t' mem_cons_self
    obtain ⟨rewards, hrewards, hsum⟩ := ih t' htail
    have hmono := emittedAt_mono hpos hlife hle
    refine ⟨(curve.emittedAt t' - curve.emittedAt t) :: rewards, ?_, ?_⟩
    · have hstep := rewardBetween_eq hcap hpos hlife hle
      rw [rewardsAlong] at hrewards ⊢
      simp only [tail_cons, zip_cons_cons, mapM_cons] at hrewards ⊢
      rw [hstep, ok_bind, hrewards, ok_bind]
      rfl
    · rw [sum_cons, getLast_cons (by simp), ← hsum]
      omega

omit hpos hlife hcap in
theorem emittedAt_le (t : ℕ) : curve.emittedAt t ≤ curve.inflationCap :=
  Nat.div_le_of_le_mul (by
    rw [Nat.mul_comm tokenScale]
    exact Nat.mul_le_mul_left _ (Nat.sub_le _ _))

end

/-- **Emission never exceeds the cap and telescopes.**  For every cap whose product with the scale
fits the word and every half life from 1 to `10 ^ 15` seconds: what is emitted is monotone in time
and at most the cap, the reward between two times is never an error, rewards of adjacent spans add
up to the reward of the whole, and so the rewards of any chain of timestamps stay within the
cap. -/
theorem emission_capped_and_telescopes (curve : HalvingCurve)
    (hcap : curve.inflationCap * tokenScale < 2 ^ 256) (hpos : 1 ≤ curve.halfLifeSecs)
    (hlife : curve.halfLifeSecs ≤ 10 ^ 15) :
    (∀ t₀ t₁, t₀ ≤ t₁ → ∃ e₀ e₁, curve.emittedUntil t₀ = .ok e₀ ∧ curve.emittedUntil t₁ = .ok e₁ ∧
      e₀ ≤ e₁ ∧ e₁ ≤ curve.inflationCap) ∧
    (∀ t₀ t₁, t₀ ≤ t₁ → ∃ r, curve.rewardBetween t₀ t₁ = .ok r) ∧
    (∀ t₀ t₁ t₂, t₀ ≤ t₁ → t₁ ≤ t₂ → ∃ r r', curve.rewardBetween t₀ t₁ = .ok r ∧
      curve.rewardBetween t₁ t₂ = .ok r' ∧ curve.rewardBetween t₀ t₂ = .ok (r + r')) ∧
    (∀ timestamps : List ℕ, timestamps.Pairwise (· ≤ ·) →
      ∃ rewards, curve.rewardsAlong timestamps = .ok rewards ∧
        rewards.sum ≤ curve.inflationCap) := by
  have hmono : Monotone curve.emittedAt := emittedAt_mono hpos hlife
  refine ⟨?_, ?_, ?_, ?_⟩
  · intro t₀ t₁ h
    exact ⟨_, _, emittedUntil_eq hcap hpos hlife t₀, emittedUntil_eq hcap hpos hlife t₁, hmono h,
      emittedAt_le t₁⟩
  · intro t₀ t₁ h
    exact ⟨_, rewardBetween_eq hcap hpos hlife h⟩
  · intro t₀ t₁ t₂ h h'
    refine ⟨_, _, rewardBetween_eq hcap hpos hlife h, rewardBetween_eq hcap hpos hlife h', ?_⟩
    have h01 := hmono h
    have h12 := hmono h'
    rw [rewardBetween_eq hcap hpos hlife (h.trans h')]
    congr 1
    omega
  · intro timestamps hsorted
    cases timestamps with
    | nil => exact ⟨[], rfl, Nat.zero_le _⟩
    | cons t timestamps =>
      obtain ⟨rewards, hrewards, hsum⟩ := rewardsAlong_eq hcap hpos hlife t timestamps hsorted
      refine ⟨rewards, hrewards, ?_⟩
      have hle : curve.emittedAt ((t :: timestamps).getLast (by simp)) ≤ curve.inflationCap :=
        emittedAt_le _
      omega

/-- A cap of `10 ^ 26` units with a half life of four years. -/
theorem emission_capped_and_telescopes_four_years :
    ∃ rewards, rewardsAlong ⟨10 ^ 26, 126144000⟩ [0, 1, 63072000, 126144000] = .ok rewards ∧
      rewards.sum ≤ 10 ^ 26 :=
  (emission_capped_and_telescopes ⟨10 ^ 26, 126144000⟩ (by decide) (by decide) (by decide)).2.2.2
    [0, 1, 63072000, 126144000] (by decide)

end HalvingCurve

end Irys
