import Irys.Mining.Ranges

/-!
# Mining and validation pick the same range

The sampler's table after a step depends only on the seeds of the step's rotation: `picksFrom`
says which table, and `recallRangeOf` which range the step picks.  The validator computes
`recallRangeOf` from a fresh table; the miner's state keeps to `picksFrom` at its last step and to
`recallRangeOf` at every cached step, whatever it is asked.

* `mining_matches_validation` — every answer of the miner, after any queries.
-/

namespace Irys

open Mut

/-! ### The rotation -/

/-- The part of the sampler that a pick depends on. -/
structure Table where
  ranges : List ℕ
  lastRangePos : ℕ

/-- The table of a sampler. -/
def Ranges.table (r : Ranges) : Table := ⟨r.ranges, r.lastRangePos⟩

/-- The table at the start of a rotation. -/
def freshTable (n : ℕ) : Table := ⟨List.range n, n - 1⟩

section Rotation

variable (sha256 : List UInt8 → List UInt8) (n : ℕ) (partitionHash : H256)

/-- A pick: the range, and the table it leaves. -/
def pick (t : Table) (seed : H256) : Res SamplingError (ℕ × Table) :=
  if t.lastRangePos = 0 then do
    let range ← expect t.ranges[0]?
    return (range, freshTable n)
  else if 2 ^ 32 ≤ t.lastRangePos then fail (.positionExceedsU32 t.lastRangePos)
  else do
    let nextRangePos := (rngDraw sha256 seed partitionHash).toNat % t.lastRangePos
    let range ← expect t.ranges[nextRangePos]?
    let last ← expect t.ranges[t.lastRangePos]?
    return (range, ⟨t.ranges.set nextRangePos last, t.lastRangePos - 1⟩)

variable (seedAt : ℕ → H256)

/-- The table after the first `k` steps of the rotation that starts after step `start`. -/
def picksFrom (start : ℕ) : ℕ → Res SamplingError Table
  | 0 => .ok (freshTable n)
  | k + 1 => do
    let t ← picksFrom start k
    let p ← pick sha256 n partitionHash t (seedAt (start + k + 1))
    return p.2

/-- **The range of a step**: what its seed picks from the table of the steps before it. -/
def recallRangeOf (step : ℕ) : Res SamplingError ℕ := do
  let t ← picksFrom sha256 n partitionHash seedAt ((step - 1) / n * n) ((step - 1) % n)
  let p ← pick sha256 n partitionHash t (seedAt step)
  return p.1

/-- The seeds of `k` consecutive steps. -/
def seedWindow (first k : ℕ) : List H256 := (List.range' first k).map seedAt

end Rotation

variable {sha256 : List UInt8 → List UInt8} {n : ℕ} {partitionHash : H256} {seedAt : ℕ → H256}

theorem seedWindow_succ (first k : ℕ) :
    seedWindow seedAt first (k + 1) = seedAt first :: seedWindow seedAt (first + 1) k := rfl

theorem pick_pos {t t' : Table} {seed : H256} {v : ℕ}
    (h : pick sha256 n partitionHash t seed = .ok (v, t')) :
    (t.lastRangePos = 0 → t' = freshTable n) ∧
      (t.lastRangePos ≠ 0 → t'.lastRangePos = t.lastRangePos - 1) := by
  rw [pick] at h
  by_cases hpos : t.lastRangePos = 0
  · rw [if_pos hpos] at h
    obtain ⟨range, -, hret⟩ := bind_eq_ok.mp h
    cases hret
    exact ⟨fun _ => rfl, fun hne => absurd hpos hne⟩
  · rw [if_neg hpos] at h
    by_cases hbig : 2 ^ 32 ≤ t.lastRangePos
    · rw [if_pos hbig] at h
      cases h
    · rw [if_neg hbig] at h
      obtain ⟨range, -, h⟩ := bind_eq_ok.mp h
      obtain ⟨last, -, hret⟩ := bind_eq_ok.mp h
      cases hret
      exact ⟨fun heq => absurd heq hpos, fun _ => rfl⟩

variable {start step : ℕ} {r : Ranges}

theorem picksFrom_pos :
    ∀ {k : ℕ} {t : Table}, k < n →
      picksFrom sha256 n partitionHash seedAt start k = .ok t → t.lastRangePos + k = n - 1 := by
  intro k
  induction k with
  | zero =>
    intro t _ h
    cases h
    rfl
  | succ k ih =>
    intro t hk h
    obtain ⟨t₀, hprev, h⟩ := bind_eq_ok.mp h
    obtain ⟨⟨v, t₁⟩, hpick, hret⟩ := bind_eq_ok.mp h
    cases hret
    have hpos := ih (by omega) hprev
    have hstep := (pick_pos hpick).2 (by omega)
    dsimp only
    omega

/-- **A rotation ends where the next begins**: after `n` steps the table is fresh. -/
theorem picksFrom_full (hn : 0 < n) {t : Table}
    (h : picksFrom sha256 n partitionHash seedAt start n = .ok t) : t = freshTable n := by
  obtain ⟨k, rfl⟩ : ∃ k, n = k + 1 := ⟨n - 1, by omega⟩
  obtain ⟨t₀, hprev, h⟩ := bind_eq_ok.mp h
  obtain ⟨⟨v, t₁⟩, hpick, hret⟩ := bind_eq_ok.mp h
  cases hret
  have hpos := picksFrom_pos (by omega) hprev
  exact (pick_pos hpick).1 (by omega)

theorem picksFrom_error {k : ℕ} {e : Fault SamplingError}
    (h : picksFrom sha256 n partitionHash seedAt start k = .error e) (m : ℕ) :
    picksFrom sha256 n partitionHash seedAt start (k + m) = .error e := by
  induction m with
  | zero => exact h
  | succ m ih =>
    rw [Nat.add_succ, picksFrom, ih]
    rfl

/-- Steps that stay inside the rotation. -/
theorem rotation_add {m : ℕ} (h : step % n + m < n) :
    (step + m) / n = step / n ∧ (step + m) % n = step % n + m := by
  have hsum : step + m = n * (step / n) + (step % n + m) := by
    rw [← Nat.add_assoc, Nat.div_add_mod]
  rw [hsum, Nat.mul_add_div (Nat.zero_lt_of_lt h), Nat.div_eq_of_lt h, Nat.mul_add_mod,
    Nat.mod_eq_of_lt h]
  exact ⟨rfl, rfl⟩

/-- The first step of a rotation, less one, is a multiple of `n`. -/
theorem resetStep_eq (hstep : 1 ≤ step) : resetStep step n = (step - 1) / n * n + 1 := by
  rw [resetStep, if_neg (by omega)]

/-! ### The validator -/

/-- **A stateful pick is a pick of the table.**  A failed one changes nothing; a successful one
leaves the last step alone and adds nothing to the cache. -/
theorem pickNext_spec (sha256 : List UInt8 → List UInt8) (partitionHash : H256) (r : Ranges)
    (seed : H256) :
    (∃ v t r', pick sha256 r.numRecallRangesInPartition partitionHash r.table seed = .ok (v, t) ∧
      (Ranges.pickNext sha256 seed partitionHash).run r = (.ok v, r') ∧ r'.table = t ∧
      r'.numRecallRangesInPartition = r.numRecallRangesInPartition ∧
      r'.lastStepNum = r.lastStepNum ∧
      ∀ k w : ℕ, r'.lastRecallRanges[k]? = some w → r.lastRecallRanges[k]? = some w) ∨
    ∃ e, pick sha256 r.numRecallRangesInPartition partitionHash r.table seed = .error e ∧
      (Ranges.pickNext sha256 seed partitionHash).run r = (.error e, r) := by
  rw [Ranges.pickNext, pick, run_read_bind]
  have hpos : r.table.lastRangePos = r.lastRangePos := rfl
  have hranges : r.table.ranges = r.ranges := rfl
  rw [hpos, hranges]
  by_cases h0 : r.lastRangePos = 0
  · rw [if_pos h0, if_pos h0]
    cases hget : r.ranges[0]? with
    | none => exact .inr ⟨.panic, rfl, rfl⟩
    | some range =>
      refine .inl ⟨range, _, r.reinitialize, rfl, rfl, rfl, rfl, rfl, ?_⟩
      intro k w hk
      rw [Ranges.reinitialize, Std.TreeMap.getElem?_filter', Option.filter_eq_some_iff] at hk
      exact hk.1
  · rw [if_neg h0, if_neg h0]
    by_cases hbig : 2 ^ 32 ≤ r.lastRangePos
    · rw [if_pos hbig, if_pos hbig]
      exact .inr ⟨_, rfl, rfl⟩
    · rw [if_neg hbig, if_neg hbig]
      dsimp only
      cases hget : r.ranges[(rngDraw sha256 seed partitionHash).toNat %
          r.lastRangePos]? with
      | none => exact .inr ⟨.panic, rfl, rfl⟩
      | some range =>
        cases hlast : r.ranges[r.lastRangePos]? with
        | none => exact .inr ⟨.panic, rfl, rfl⟩
        | some last => exact .inl ⟨range, _, _, rfl, rfl, rfl, rfl, rfl, fun _ _ hk => hk⟩

/-- The validator's loop over the next `m + 1` steps of a rotation. -/
theorem lastPick_eq :
    ∀ (m : ℕ) {k first : ℕ} {r : Ranges} {last : Option ℕ}, first = start + k + 1 →
      r.numRecallRangesInPartition = n →
      picksFrom sha256 n partitionHash seedAt start k = .ok r.table →
      ((lastPick sha256 partitionHash (seedWindow seedAt first (m + 1)) last).run r).1 = (do
        let t ← picksFrom sha256 n partitionHash seedAt start (k + m)
        let p ← pick sha256 n partitionHash t (seedAt (first + m))
        return some p.1) := by
  intro m
  induction m with
  | zero =>
    intro k first r last hfirst hnum htable
    rw [seedWindow_succ, lastPick]
    simp only [Nat.add_zero]
    rw [htable, ok_bind]
    rcases pickNext_spec sha256 partitionHash r (seedAt first) with
      ⟨v, t, r', hpick, hrun, -⟩ | ⟨e, hpick, hrun⟩
    · rw [run_bind_of_ok hrun, ← hnum, hpick]
      rfl
    · rw [run_bind_of_error hrun, ← hnum, hpick]
      rfl
  | succ m ih =>
    intro k first r last hfirst hnum htable
    have hk : k + (m + 1) = k + 1 + m := by omega
    rw [seedWindow_succ, lastPick, hk]
    rcases pickNext_spec sha256 partitionHash r (seedAt first) with
      ⟨v, t, r', hpick, hrun, rfl, hnum', -, -⟩ | ⟨e, hpick, hrun⟩
    · rw [hnum] at hpick
      have htable' : picksFrom sha256 n partitionHash seedAt start (k + 1) = .ok r'.table := by
        rw [picksFrom, htable, ok_bind, ← hfirst, hpick]
        rfl
      have hm : first + (m + 1) = first + 1 + m := by omega
      rw [run_bind_of_ok hrun, ih (by omega) (hnum'.trans hnum) htable', hm]
    · rw [hnum] at hpick
      have herror : picksFrom sha256 n partitionHash seedAt start (k + 1) = .error e := by
        rw [picksFrom, htable, ok_bind, ← hfirst, hpick]
        rfl
      rw [run_bind_of_error hrun, picksFrom_error herror m]
      rfl

/-- **The validator's answer** over the seeds of a step's rotation up to the step. -/
theorem validatorRecallRange_eq (hn : 0 < n) (hstep : 1 ≤ step) :
    validatorRecallRange sha256 n
        (seedWindow seedAt (resetStep step n) (step + 1 - resetStep step n)) partitionHash =
      recallRangeOf sha256 n partitionHash seedAt step := by
  have hdiv := Nat.div_add_mod' (step - 1) n
  have hreset := resetStep_eq (n := n) hstep
  have hlen : step + 1 - resetStep step n = (step - 1) % n + 1 := by omega
  have hlast : resetStep step n + (step - 1) % n = step := by omega
  rw [hlen, validatorRecallRange, Ranges.new, if_neg hn.ne', ok_bind, recallRangeOf]
  have hfresh : picksFrom sha256 n partitionHash seedAt ((step - 1) / n * n) 0 =
      .ok (freshTable n) := rfl
  rw [lastPick_eq (n := n) ((step - 1) % n) hreset rfl hfresh, Nat.zero_add, hlast]
  cases picksFrom sha256 n partitionHash seedAt ((step - 1) / n * n) ((step - 1) % n) with
  | error e => rfl
  | ok t =>
    rw [ok_bind, ok_bind]
    cases pick sha256 n partitionHash t (seedAt step) with
    | error e => rfl
    | ok p => rfl

/-! ### The miner -/

/-- **What the miner keeps**: its table is that of its last step's rotation, and every cached
range is the range of its step. -/
structure Tracks (sha256 : List UInt8 → List UInt8) (n : ℕ) (partitionHash : H256)
    (seedAt : ℕ → H256) (r : Ranges) : Prop where
  num : r.numRecallRangesInPartition = n
  table : picksFrom sha256 n partitionHash seedAt (r.lastStepNum / n * n) (r.lastStepNum % n) =
    .ok r.table
  cached : ∀ step v : ℕ, r.lastRecallRanges[step]? = some v →
    recallRangeOf sha256 n partitionHash seedAt step = .ok v

section

variable (h : Tracks sha256 n partitionHash seedAt r)
include h

/-- A rotation started anew at a multiple of `n`. -/
theorem Tracks.restart (q : ℕ) :
    Tracks sha256 n partitionHash seedAt { r.reinitialize with lastStepNum := q * n } where
  num := h.num
  table := by
    show picksFrom sha256 n partitionHash seedAt (q * n / n * n) (q * n % n) = _
    rw [Nat.mul_mod_left, picksFrom]
    show _ = Except.ok (freshTable r.numRecallRangesInPartition)
    rw [h.num]
  cached := by
    intro step v hv
    have hv : (r.reinitialize).lastRecallRanges[step]? = some v := hv
    rw [Ranges.reinitialize, Std.TreeMap.getElem?_filter', Option.filter_eq_some_iff] at hv
    exact h.cached step v hv.1

/-- **The next pick** is the range of the next step; it moves the miner there, or changes
nothing. -/
theorem nextRecallRange_tracks (hn : 0 < n) :
    (∃ v r', (Ranges.nextRecallRange sha256 (r.lastStepNum + 1) (seedAt (r.lastStepNum + 1))
        partitionHash).run r = (.ok v, r') ∧
      recallRangeOf sha256 n partitionHash seedAt (r.lastStepNum + 1) = .ok v ∧
      Tracks sha256 n partitionHash seedAt r' ∧ r'.lastStepNum = r.lastStepNum + 1) ∨
    ∃ e, (Ranges.nextRecallRange sha256 (r.lastStepNum + 1) (seedAt (r.lastStepNum + 1))
        partitionHash).run r = (.error e, r) ∧
      picksFrom sha256 n partitionHash seedAt (r.lastStepNum / n * n) (r.lastStepNum % n + 1) =
        .error e ∧
      recallRangeOf sha256 n partitionHash seedAt (r.lastStepNum + 1) = .error e := by
  have hdiv := Nat.div_add_mod' r.lastStepNum n
  have hconsecutive : checkedSub (r.lastStepNum + 1) 1 = some r.lastStepNum :=
    checkedSub_of_le (by omega)
  have hof : recallRangeOf sha256 n partitionHash seedAt (r.lastStepNum + 1) = (do
      let p ← pick sha256 n partitionHash r.table (seedAt (r.lastStepNum + 1))
      return p.1) := by
    rw [recallRangeOf, Nat.add_sub_cancel, h.table, ok_bind]
  have hsucc : picksFrom sha256 n partitionHash seedAt (r.lastStepNum / n * n)
      (r.lastStepNum % n + 1) = (do
        let p ← pick sha256 n partitionHash r.table (seedAt (r.lastStepNum + 1))
        return p.2) := by
    rw [picksFrom, h.table, ok_bind, hdiv]
  rw [Ranges.nextRecallRange, run_read_bind, if_neg (not_not_intro hconsecutive)]
  rcases pickNext_spec sha256 partitionHash r (seedAt (r.lastStepNum + 1)) with
    ⟨v, t, r', hpick, hrun, rfl, hnum, hlast, hcache⟩ | ⟨e, hpick, hrun⟩
  · left
    rw [h.num] at hpick
    rw [hpick] at hof hsucc
    refine ⟨v, _, run_bind_of_ok hrun, hof, ⟨hnum.trans h.num, ?_, ?_⟩, rfl⟩
    · -- the last pick of a rotation leaves a fresh table, any other the next one
      show picksFrom sha256 n partitionHash seedAt ((r.lastStepNum + 1) / n * n)
        ((r.lastStepNum + 1) % n) = .ok r'.table
      by_cases hfull : r.lastStepNum % n + 1 < n
      · rw [(rotation_add hfull).2, (rotation_add hfull).1, hsucc]
        rfl
      · have hfull : r.lastStepNum % n + 1 = n := by
          have := Nat.mod_lt r.lastStepNum hn
          omega
        rw [← Nat.mod_add_mod, hfull, Nat.mod_self]
        exact congrArg Except.ok (picksFrom_full hn (hfull ▸ hsucc)).symm
    · intro step w hw
      have hw : (r'.lastRecallRanges.insert (r.lastStepNum + 1) v)[step]? = some w := hw
      rw [Std.TreeMap.getElem?_insert] at hw
      by_cases heq : compare (r.lastStepNum + 1) step = .eq
      · rw [if_pos heq] at hw
        cases hw
        rw [← Nat.compare_eq_eq.mp heq]
        exact hof
      · rw [if_neg heq] at hw
        exact h.cached step w (hcache step w hw)
  · right
    rw [h.num] at hpick
    rw [hpick] at hof hsucc
    exact ⟨e, run_bind_of_error hrun, hsucc, hof⟩

/-- **A query for the next step**: from the cache or picked, the answer is the step's range. -/
theorem getRecallRange_tracks (hn : 0 < n)
    (hstep : step = r.lastStepNum + 1) :
    ∃ r', (Ranges.getRecallRange sha256 step (seedAt step) partitionHash).run r =
        (recallRangeOf sha256 n partitionHash seedAt step, r') ∧
      Tracks sha256 n partitionHash seedAt r' ∧ r'.lastStepNum ≤ step := by
  rw [Ranges.getRecallRange, run_read_bind]
  cases hcached : r.lastRecallRanges[step]? with
  | some v => exact ⟨r, by rw [h.cached step v hcached]; rfl, h, by omega⟩
  | none =>
    subst hstep
    rcases nextRecallRange_tracks h hn with ⟨v, r', hrun, hof, htracks, hlast⟩ |
      ⟨e, hrun, -, hof⟩
    · exact ⟨r', hrun.trans (by rw [hof]), htracks, hlast.le⟩
    · exact ⟨r, hrun.trans (by rw [hof]), h, by omega⟩

end

/-- **Reading back the steps before a step of the same rotation** moves the miner to the step, or
fails as the step's own range does. -/
theorem reconstructFrom_tracks (hn : 0 < n) {base : ℕ} :
    ∀ (m : ℕ) {i : ℕ} {r : Ranges}, Tracks sha256 n partitionHash seedAt r →
      r.lastStepNum = base + i → r.lastStepNum % n + m < n → base + i + m < 2 ^ 64 →
      ∃ r', Tracks sha256 n partitionHash seedAt r' ∧ r'.lastStepNum ≤ base + i + m ∧
        ((Ranges.reconstructFrom sha256 partitionHash base
            (seedWindow seedAt (base + i + 1) m) i).run r = (.ok (), r') ∧
          r'.lastStepNum = base + i + m ∨
        ∃ e, (Ranges.reconstructFrom sha256 partitionHash base
            (seedWindow seedAt (base + i + 1) m) i).run r = (.error e, r') ∧
          recallRangeOf sha256 n partitionHash seedAt (base + i + m + 1) = .error e) := by
  intro m
  induction m with
  | zero =>
    intro i r h hlast _ _
    exact ⟨r, h, by omega, .inl ⟨rfl, by omega⟩⟩
  | succ m ih =>
    intro i r h hlast hmod hfits
    have hstep : (checkedAdd 64 base 1).bind (checkedAdd 64 · i) = some (base + i + 1) := by
      rw [checkedAdd_of_lt (by omega), Option.bind_some, checkedAdd_of_lt (by omega)]
      congr 1
      omega
    rw [seedWindow_succ, Ranges.reconstructFrom]
    simp only [hstep]
    have hnext := nextRecallRange_tracks h hn
    rw [hlast] at hnext hmod
    rcases hnext with ⟨v, r', hrun, -, htracks, hlast'⟩ | ⟨e, hrun, herror, -⟩
    · rw [run_bind_of_ok hrun]
      have hrest := ih htracks (hlast'.trans (Nat.add_assoc base i 1))
        (by rw [hlast', (rotation_add (by omega)).2]; omega) (by omega)
      rw [← Nat.add_assoc base i 1, Nat.add_assoc (base + i) 1 m, Nat.add_comm 1 m] at hrest
      exact hrest
    · refine ⟨r, h, by omega, .inr ⟨e, run_bind_of_error hrun, ?_⟩⟩
      -- the failed step is in the rotation of the step asked for
      obtain ⟨hrot, hpos⟩ := rotation_add hmod
      rw [recallRangeOf, Nat.add_sub_cancel, hrot, hpos, Nat.add_comm m 1, ← Nat.add_assoc,
        picksFrom_error herror m]
      rfl

/-- **Where a rebuild starts**: the miner is then just before the first step to read, in the
rotation of the step asked for. -/
theorem rebuildFrom_tracks (h : Tracks sha256 n partitionHash seedAt r) (hn : 0 < n)
    (hstep : 1 ≤ step) :
    ∃ r' start, (rebuildFrom step (r.lastStepNum + 1)).run r = (.ok start, r') ∧
      Tracks sha256 n partitionHash seedAt r' ∧ start = r'.lastStepNum + 1 ∧ start ≤ step ∧
      r'.lastStepNum % n + (step - start) < n := by
  have hdiv := Nat.div_add_mod' (step - 1) n
  have hlt := Nat.mod_lt (step - 1) hn
  have hreset := resetStep_eq (n := n) hstep
  rw [rebuildFrom, run_read_bind, h.num]
  dsimp only
  by_cases hanew : r.lastStepNum + 1 < resetStep step n ∨ step < r.lastStepNum + 1
  · rw [if_pos hanew, run_update_bind, run_update_bind, run_pure]
    refine ⟨_, _, rfl, ?_, ?_, ?_, ?_⟩
    · rw [hreset, Nat.add_sub_cancel]
      exact h.restart ((step - 1) / n)
    · rw [hreset]
      rfl
    · omega
    · show (resetStep step n - 1) % n + (step - resetStep step n) < n
      rw [hreset, Nat.add_sub_cancel, Nat.mul_mod_left]
      omega
  · rw [if_neg hanew]
    refine ⟨r, _, rfl, h, rfl, by omega, ?_⟩
    -- the miner is already in the rotation of the step
    have hq : r.lastStepNum / n = (step - 1) / n := by
      apply Nat.div_eq_of_lt_le
      · omega
      · rw [Nat.add_mul]
        omega
    have hdiv' := Nat.div_add_mod' r.lastStepNum n
    rw [hq] at hdiv'
    omega

variable {getSteps : ℕ → ℕ → Res SamplingError (List H256)}

/-- Past the last step number the miner panics before it changes anything. -/
theorem minerRecallRange_over (hlast : ¬ r.lastStepNum + 1 < 2 ^ 64) :
    (minerRecallRange sha256 getSteps step (seedAt step) partitionHash).run r =
      (.error .panic, r) := by
  have hover : checkedAdd 64 r.lastStepNum 1 = none := if_neg hlast
  rw [minerRecallRange, run_read_bind, hover]
  rfl

/-- **One query**, short of the end of the step numbers. -/
theorem minerRecallRange_tracks (h : Tracks sha256 n partitionHash seedAt r) (hn : 0 < n)
    (hsteps : ∀ first last, first ≤ last →
      getSteps first last = .ok (seedWindow seedAt first (last + 1 - first)))
    (hstep : 1 ≤ step) (hfits : step < 2 ^ 64) (hlast : r.lastStepNum + 1 < 2 ^ 64) :
    ∃ r', (minerRecallRange sha256 getSteps step (seedAt step) partitionHash).run r =
        (recallRangeOf sha256 n partitionHash seedAt step, r') ∧
      Tracks sha256 n partitionHash seedAt r' ∧ r'.lastStepNum ≤ step := by
  rw [minerRecallRange, run_read_bind, checkedAdd_of_lt hlast, expect_some,
    run_lift_ok_bind]
  by_cases hnext : r.lastStepNum + 1 = step
  · rw [if_pos hnext]
    exact getRecallRange_tracks h hn hnext.symm
  · rw [if_neg hnext]
    obtain ⟨r₁, start, hrun, h₁, hstart, hle, hmod⟩ := rebuildFrom_tracks h hn hstep
    rw [run_bind_of_ok hrun]
    by_cases hread : start < step
    · have hlen : step - 1 + 1 - start = step - start := by omega
      rw [if_pos hread, hsteps start (step - 1) (by omega), run_lift_ok_bind, hlen]
      have hwindow : r₁.lastStepNum + 0 + (step - start) + 1 = step := by omega
      obtain ⟨r₂, h₂, hle₂, hcases⟩ := reconstructFrom_tracks hn (step - start) h₁
        (Nat.add_zero r₁.lastStepNum).symm hmod (by omega)
      rw [hwindow, Nat.add_zero, ← hstart] at hcases
      rcases hcases with ⟨hok, hreached⟩ | ⟨e, herr, hof⟩
      · obtain ⟨r', hrun', h', hle'⟩ := getRecallRange_tracks h₂ hn
          (show step = r₂.lastStepNum + 1 by omega)
        exact ⟨r', (run_bind_of_ok hok).trans hrun', h', hle'⟩
      · exact ⟨r₂, (run_bind_of_error herr).trans (by rw [hof]), h₂, by omega⟩
    · rw [if_neg hread]
      exact getRecallRange_tracks h₁ hn (by omega)

/-- The miner after a sequence of queries. -/
def afterQueries (sha256 : List UInt8 → List UInt8)
    (getSteps : ℕ → ℕ → Res SamplingError (List H256)) (seedAt : ℕ → H256) (partitionHash : H256)
    (r : Ranges) (queries : List ℕ) : Ranges :=
  queries.foldl
    (fun r step => ((minerRecallRange sha256 getSteps step (seedAt step) partitionHash).run r).2) r

/-- **Every sequence of queries** keeps the miner's invariant, and takes its last step to the end
of the step numbers only by asking for that step. -/
theorem afterQueries_tracks (hn : 0 < n)
    (hsteps : ∀ first last, first ≤ last →
      getSteps first last = .ok (seedWindow seedAt first (last + 1 - first))) :
    ∀ (queries : List ℕ) {r : Ranges}, Tracks sha256 n partitionHash seedAt r →
      (∀ step ∈ queries, 1 ≤ step ∧ step < 2 ^ 64) →
      Tracks sha256 n partitionHash seedAt
          (afterQueries sha256 getSteps seedAt partitionHash r queries) ∧
        (r.lastStepNum + 1 < 2 ^ 64 →
          (afterQueries sha256 getSteps seedAt partitionHash r queries).lastStepNum + 1 < 2 ^ 64 ∨
            2 ^ 64 - 1 ∈ queries) := by
  intro queries
  induction queries with
  | nil =>
    intro r h _
    exact ⟨h, .inl⟩
  | cons step rest ih =>
    intro r h hqueries
    obtain ⟨⟨hstep, hfits⟩, hrest⟩ := List.forall_mem_cons.mp hqueries
    rw [afterQueries, List.foldl_cons, ← afterQueries]
    by_cases hlast : r.lastStepNum + 1 < 2 ^ 64
    · obtain ⟨r', hrun, h', hle⟩ := minerRecallRange_tracks h hn hsteps hstep hfits hlast
      rw [hrun]
      obtain ⟨htracks, hend⟩ := ih h' hrest
      refine ⟨htracks, fun _ => ?_⟩
      by_cases hmax : step = 2 ^ 64 - 1
      · exact .inr (hmax ▸ List.mem_cons_self ..)
      · exact (hend (by omega)).imp_right (List.mem_cons_of_mem _)
    · rw [minerRecallRange_over hlast]
      exact ⟨(ih h hrest).1, fun hlt => absurd hlt hlast⟩

/-- **Mining and validation pick the same recall range.**  After any queries on one sampler, with
a step buffer that returns the fixed seeds, the answer for a step is the validator's over the
seeds of its rotation, unless the last 64-bit number was asked for; after such a query it may also
be the panic of a step number that overflows. -/
theorem mining_matches_validation (sha256 : List UInt8 → List UInt8) {n : ℕ} (hn : 1 ≤ n)
    (partitionHash : H256) (seedAt : ℕ → H256)
    {getSteps : ℕ → ℕ → Res SamplingError (List H256)}
    (hsteps : ∀ first last, first ≤ last →
      getSteps first last = .ok (seedWindow seedAt first (last + 1 - first)))
    {ranges : Ranges} (hranges : Ranges.new n = .ok ranges) (queries : List ℕ)
    (hqueries : ∀ step ∈ queries, 1 ≤ step ∧ step < 2 ^ 64) {step : ℕ} (hstep : 1 ≤ step)
    (hfits : step < 2 ^ 64) {answer : Res SamplingError ℕ}
    (hanswer : ((minerRecallRange sha256 getSteps step (seedAt step) partitionHash).run
      (afterQueries sha256 getSteps seedAt partitionHash ranges queries)).1 = answer) :
    (2 ^ 64 - 1 ∉ queries → answer = validatorRecallRange sha256 n
      (seedWindow seedAt (resetStep step n) (step + 1 - resetStep step n)) partitionHash) ∧
    (answer = validatorRecallRange sha256 n
        (seedWindow seedAt (resetStep step n) (step + 1 - resetStep step n)) partitionHash ∨
      answer = .error .panic) := by
  subst hanswer
  have hnew : Tracks sha256 n partitionHash seedAt ranges ∧ ranges.lastStepNum = 0 := by
    rw [Ranges.new, if_neg (by omega)] at hranges
    cases hranges
    refine ⟨⟨rfl, ?_, ?_⟩, rfl⟩
    · rw [Nat.zero_mod]
      rfl
    · intro k v hk
      simp at hk
  obtain ⟨htracks, hend⟩ := afterQueries_tracks hn hsteps queries hnew.1 hqueries
  by_cases hlast : (afterQueries sha256 getSteps seedAt partitionHash ranges
      queries).lastStepNum + 1 < 2 ^ 64
  · obtain ⟨r', hrun, -, -⟩ := minerRecallRange_tracks htracks hn hsteps hstep hfits hlast
    rw [hrun, validatorRecallRange_eq hn hstep]
    exact ⟨fun _ => rfl, .inl rfl⟩
  · rw [minerRecallRange_over hlast]
    have hasked := (hend (by rw [hnew.2]; decide)).resolve_left hlast
    exact ⟨fun hnot => absurd hasked hnot, .inr rfl⟩

/-- The seed of a step is its number. -/
def countingSeed (step : ℕ) : H256 := step

/-- A step buffer of these seeds. -/
def countingSteps (first last : ℕ) : Res SamplingError (List H256) :=
  .ok (seedWindow countingSeed first (last + 1 - first))

theorem mining_matches_validation_three_ranges :
    ((minerRecallRange Sha256.digest countingSteps 4 (countingSeed 4) 9).run
      (afterQueries Sha256.digest countingSteps countingSeed 9 ⟨List.range 3, 2, 0, ∅, 3⟩
        [5, 3])).1 =
      validatorRecallRange Sha256.digest 3 [countingSeed 4] 9 := by
  have hsteps : ∀ first last, first ≤ last → countingSteps first last =
      .ok (seedWindow countingSeed first (last + 1 - first)) := fun _ _ _ => rfl
  have hranges : Ranges.new 3 = .ok ⟨List.range 3, 2, 0, ∅, 3⟩ := rfl
  exact (mining_matches_validation Sha256.digest (by decide) 9 countingSeed hsteps hranges [5, 3]
    (by decide) (show 1 ≤ 4 by decide) (by decide) rfl).1 (by decide)

/-- **The last step number stops the miner**: after a query for it the next step overflows, and
every answer is a panic. -/
theorem miner_panics_after_last_step :
    ((minerRecallRange Sha256.digest countingSteps 5 (countingSeed 5) 9).run
      (afterQueries Sha256.digest countingSteps countingSeed 9 ⟨List.range 1, 0, 0, ∅, 1⟩
        [2 ^ 64 - 1])).1 = .error .panic ∧
      validatorRecallRange Sha256.digest 1
        (seedWindow countingSeed (resetStep 5 1) (5 + 1 - resetStep 5 1)) 9 = .ok 0 := by
  decide +kernel

end Irys
