import Irys.Epoch.Snapshot
import Irys.Lib.XorAdditive

/-!
# The generator always returns

`next_range` draws until a number lies below a threshold.  The threshold is at least `2 ^ 31`, and
among any 33 numbers that the xorshift generator draws in a row one has its top bit clear: the
step is additive for exclusive or, and satisfies a relation with an odd number of terms.

* `nextRange_terminates` — from a new generator, and from every state that calls leave behind.
-/

namespace Irys

namespace SimpleRng

/-- The step of the generator, on bit vectors. -/
def xorshift (x : BitVec 32) : BitVec 32 :=
  let x := x ^^^ (x <<< 13)
  let x := x ^^^ (x >>> 17)
  x ^^^ (x <<< 5)

theorem next_toBitVec (rng : SimpleRng) :
    rng.next.1.toBitVec = xorshift rng.seed.toBitVec ∧ rng.next.2.seed = rng.next.1 := ⟨rfl, rfl⟩

theorem xorAdditive_xorshift : XorAdditive xorshift :=
  (xorAdditive_xor_shiftLeft 5).comp
    ((xorAdditive_xor_ushiftRight 17).comp (xorAdditive_xor_shiftLeft 13))

/-- The exponents of the step's minimal polynomial; there are eleven. -/
def relationExponents : List ℕ := [0, 6, 9, 14, 15, 17, 18, 19, 20, 21, 32]

/-- **The relation between the iterates of the step.** -/
theorem xorSum_iterates (x : BitVec 32) :
    xorSum (relationExponents.map fun n => xorshift^[n] x) = 0#32 := by
  refine XorAdditive.eq_zero
    (xorAdditive_xorSum (fun n => xorshift^[n]) relationExponents xorAdditive_xorshift.iterate) ?_ x
  decide +kernel

theorem exists_iterate_msb (x : BitVec 32) : ∃ n ≤ 32, (xorshift^[n] x).msb = false := by
  obtain ⟨y, hy, hmsb⟩ := exists_msb_eq_false (xorSum_iterates x) (by
    rw [List.length_map]
    decide)
  obtain ⟨n, hn, rfl⟩ := List.mem_map.mp hy
  refine ⟨n, ?_, hmsb⟩
  have hall : ∀ n ∈ relationExponents, n ≤ 32 := by decide
  exact hall n hn

theorem nextBelow_succ (threshold : UInt32) (fuel : ℕ) (rng : SimpleRng) :
    nextBelow threshold (fuel + 1) rng =
      if threshold ≤ rng.next.1 then nextBelow threshold fuel rng.next.2 else some rng.next := rfl

theorem nextBelow_of_iterate {threshold : UInt32} {n : ℕ} (rng : SimpleRng)
    (h : xorshift^[n + 1] rng.seed.toBitVec < threshold.toBitVec) :
    ∃ r, ∀ fuel > n, nextBelow threshold fuel rng = some r := by
  induction n generalizing rng with
  | zero =>
    have hlt : ¬ threshold ≤ rng.next.1 := by
      rw [UInt32.le_iff_toBitVec_le, (next_toBitVec rng).1]
      exact BitVec.not_le.mpr h
    refine ⟨rng.next, fun fuel hfuel => ?_⟩
    obtain ⟨k, rfl⟩ := Nat.exists_eq_add_of_lt hfuel
    rw [nextBelow_succ, if_neg hlt]
  | succ n ih =>
    by_cases hstop : threshold ≤ rng.next.1
    · have hseed : rng.next.2.seed.toBitVec = xorshift rng.seed.toBitVec := (next_toBitVec rng).1
      obtain ⟨r, hr⟩ := ih rng.next.2 (by
        rw [hseed, ← Function.iterate_succ_apply]
        exact h)
      refine ⟨r, fun fuel hfuel => ?_⟩
      obtain ⟨k, rfl⟩ := Nat.exists_eq_add_of_lt hfuel
      rw [nextBelow_succ, if_pos hstop]
      exact hr _ (by omega)
    · refine ⟨rng.next, fun fuel hfuel => ?_⟩
      obtain ⟨k, rfl⟩ := Nat.exists_eq_add_of_lt hfuel
      rw [nextBelow_succ, if_neg hstop]

/-- The threshold is the greatest multiple of `max` that a word can hold, so at least half of
all words lie below it. -/
theorem threshold_ge {max : UInt32} (hmax : max ≠ 0) :
    2 ^ 31 ≤ (UInt32.ofNat (2 ^ 32 - 1) - UInt32.ofNat (2 ^ 32 - 1) % max).toNat := by
  have hpos : 0 < max.toNat := Nat.pos_of_ne_zero (fun h => hmax (UInt32.toNat_inj.mp h))
  have hlt : max.toNat < 2 ^ 32 := max.toNat_lt
  have htop : (UInt32.ofNat (2 ^ 32 - 1)).toNat = 2 ^ 32 - 1 := by decide
  have hmod : (UInt32.ofNat (2 ^ 32 - 1) % max).toNat = (2 ^ 32 - 1) % max.toNat := by
    rw [UInt32.toNat_mod, htop]
  have hle : (2 ^ 32 - 1) % max.toNat ≤ 2 ^ 32 - 1 := Nat.mod_le _ _
  rw [UInt32.toNat_sub_of_le _ _ (by rw [UInt32.le_iff_toNat_le, hmod, htop]; exact hle), hmod, htop]
  -- either `max` is large and goes into the top word once, or the remainder is small
  rcases Nat.lt_or_ge max.toNat (2 ^ 31) with hsmall | hlarge
  · have := Nat.mod_lt (2 ^ 32 - 1) hpos
    omega
  · have hdiv : (2 ^ 32 - 1) / max.toNat = 1 := by
      apply Nat.div_eq_of_lt_le <;> omega
    have hmul := Nat.div_add_mod (2 ^ 32 - 1) max.toNat
    rw [hdiv] at hmul
    omega

/-- **The generator returns.**  The loop stops within 33 draws, however many it may take. -/
theorem nextRange_ok {ε : Type} (rng : SimpleRng) {max : UInt32} (hmax : max ≠ 0) :
    ∃ x rng', (∀ fuel ≥ 33, nextBelow
        (UInt32.ofNat (2 ^ 32 - 1) - UInt32.ofNat (2 ^ 32 - 1) % max) fuel rng = some (x, rng')) ∧
      (rng.nextRange max : Res ε _) = .ok ((x % max).toNat, rng') ∧
      (x % max).toNat < max.toNat := by
  obtain ⟨n, hn, hmsb⟩ := exists_iterate_msb (xorshift rng.seed.toBitVec)
  rw [← Function.iterate_succ_apply] at hmsb
  have hbelow : xorshift^[n + 1] rng.seed.toBitVec <
      (UInt32.ofNat (2 ^ 32 - 1) - UInt32.ofNat (2 ^ 32 - 1) % max).toBitVec := by
    rw [BitVec.lt_def]
    refine lt_of_lt_of_le ?_ (threshold_ge hmax)
    rw [BitVec.msb_eq_decide, decide_eq_false_iff_not, not_le] at hmsb
    exact hmsb
  obtain ⟨⟨x, rng'⟩, hr⟩ := nextBelow_of_iterate rng hbelow
  refine ⟨x, rng', fun fuel hfuel => hr fuel (by omega), ?_, ?_⟩
  · rw [nextRange, if_neg hmax]
    dsimp only
    rw [hr (2 ^ 32) (by omega)]
    rfl
  · rw [UInt32.toNat_mod]
    exact Nat.mod_lt _ (Nat.pos_of_ne_zero (fun h => hmax (UInt32.toNat_inj.mp h)))

/-- Calls of `next_range` one after the other, each with its own bound. -/
def nextRanges {ε : Type} : SimpleRng → List UInt32 → Res ε (List ℕ × SimpleRng)
  | rng, [] => .ok ([], rng)
  | rng, max :: rest => do
    let (x, rng) ← rng.nextRange max
    let (xs, rng) ← nextRanges rng rest
    return (x :: xs, rng)

/-- **`next_range` terminates.**  From every seed and after any calls with bounds of at least one,
each of which returned a number below its bound, a further call stops within 33 draws, whatever
the fuel of the loop, and returns a number below its bound. -/
theorem nextRange_terminates {ε : Type} (seed : UInt32) {maxes : List UInt32}
    (hmaxes : ∀ max ∈ maxes, 1 ≤ max) :
    ∃ draws rng, (nextRanges ⟨seed⟩ maxes : Res ε _) = .ok (draws, rng) ∧
      List.Forall₂ (fun x max => x < max.toNat) draws maxes ∧
      ∀ max : UInt32, 1 ≤ max → ∃ x rng', (∀ fuel ≥ 33, nextBelow
          (UInt32.ofNat (2 ^ 32 - 1) - UInt32.ofNat (2 ^ 32 - 1) % max) fuel rng = some (x, rng')) ∧
        (rng.nextRange max : Res ε _) = .ok ((x % max).toNat, rng') ∧
        (x % max).toNat < max.toNat := by
  have hne : ∀ {max : UInt32}, 1 ≤ max → max ≠ 0 := by
    rintro max hmax rfl
    exact absurd hmax (by decide)
  suffices hrun : ∀ start : SimpleRng, ∃ draws rng,
      (nextRanges start maxes : Res ε _) = .ok (draws, rng) ∧
        List.Forall₂ (fun x max => x < max.toNat) draws maxes by
    obtain ⟨draws, rng, hdraws, hbelow⟩ := hrun ⟨seed⟩
    exact ⟨draws, rng, hdraws, hbelow, fun max hmax => nextRange_ok rng (hne hmax)⟩
  -- by induction on the calls; every state will do
  induction maxes with
  | nil => exact fun start => ⟨[], start, rfl, .nil⟩
  | cons max rest ih =>
    intro start
    rw [List.forall_mem_cons] at hmaxes
    obtain ⟨x, mid, -, hx, hlt⟩ := nextRange_ok (ε := ε) start (hne hmaxes.1)
    obtain ⟨draws, rng, hdraws, hbelow⟩ := ih hmaxes.2 mid
    refine ⟨_ :: draws, rng, ?_, .cons hlt hbelow⟩
    rw [nextRanges, hx, ok_bind]
    dsimp only
    rw [hdraws]
    rfl

theorem nextRange_terminates_after_two :
    ∃ draws rng, (nextRanges ⟨1⟩ [6, 4294967295] : Res Unit _) = .ok (draws, rng) ∧
      List.Forall₂ (fun x max => x < max.toNat) draws ([6, 4294967295] : List UInt32) := by
  obtain ⟨draws, rng, hdraws, hbelow, -⟩ := nextRange_terminates (ε := Unit) 1
    (List.forall_mem_cons.mpr ⟨by decide, List.forall_mem_singleton.mpr (by decide)⟩ :
      ∀ max ∈ [6, 4294967295], (1 : UInt32) ≤ max)
  exact ⟨draws, rng, hdraws, hbelow⟩

end SimpleRng

end Irys
