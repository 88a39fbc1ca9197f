import Irys.Mining.Rotation
import Mathlib.Data.List.Perm.Basic

/-!
# Sampling without replacement

A rotation of the sampler picks every recall range once.  The first `lastRangePos + 1` entries of
the table are the ranges that have not been picked; what stands behind them is stale.

* `Unpicked` — the invariant of a rotation: the picks so far and the live part of the table are
  together all ranges, each once;
* `pick_unpicked`, `pick_last` — **a pick keeps it**, and the last one starts the next rotation;
* `sampling_without_replacement` — every block of `N` picks that starts with a rotation.
-/

namespace Irys

open List Mut

theorem getElem_cons_take_set_perm {α : Type} {l : List α} {p last : ℕ} {a z : α} (hp : p < last)
    (ha : l[p]? = some a) (hz : l[last]? = some z) :
    (a :: (l.set p z).take last).Perm (l.take (last + 1)) := by
  have hlt : p < (l.take last).length := by
    have := lt_length_of_some hz
    rw [length_take]
    omega
  have hget : (l.take last)[p] = a := by
    rw [getElem_take]
    exact (List.getElem?_eq_some_iff.mp ha).2
  rw [take_set, take_add_one, hz]
  calc (a :: (l.take last).set p z).Perm (a :: z :: (l.take last).eraseIdx p) :=
        (set_perm_cons_eraseIdx hlt z).cons a
    _ |>.Perm (z :: a :: (l.take last).eraseIdx p) := List.Perm.swap ..
    _ |>.Perm (z :: l.take last) := by
        rw [← hget]
        exact (getElem_cons_eraseIdx_perm hlt).cons z
    _ |>.Perm (l.take last ++ [z]) := (perm_append_singleton z _).symm

/-- **The state inside a rotation** of `n` ranges after the picks `outs`. -/
structure Unpicked (n : ℕ) (outs : List ℕ) (t : Table) : Prop where
  length : t.ranges.length = n
  position : outs.length + t.lastRangePos + 1 = n
  perm : (outs ++ t.ranges.take (t.lastRangePos + 1)).Perm (List.range n)

theorem unpicked_freshTable {n : ℕ} (hn : 0 < n) : Unpicked n [] (freshTable n) where
  length := length_range
  position := by
    show 0 + (n - 1) + 1 = n
    omega
  perm := by
    show ((List.range n).take (n - 1 + 1)).Perm _
    rw [take_of_length_le (by rw [length_range]; omega)]

variable {sha256 : List UInt8 → List UInt8} {n : ℕ} {partitionHash : H256} {outs : List ℕ}
  {t : Table}

section

variable (sha256) (partitionHash)

/-- **A pick inside a rotation** is in the table, and takes a range that was not picked before. -/
theorem pick_unpicked
    (h : Unpicked n outs t) (hn : n < 2 ^ 32) (hpos : t.lastRangePos ≠ 0) (seed : H256) :
    ∃ v t', pick sha256 n partitionHash t seed = .ok (v, t') ∧ Unpicked n (outs ++ [v]) t' := by
  have hposition := h.position
  have hdraw : (rngDraw sha256 seed partitionHash).toNat % t.lastRangePos <
      t.lastRangePos := Nat.mod_lt _ (Nat.pos_of_ne_zero hpos)
  rw [pick, if_neg hpos, if_neg (by omega)]
  generalize (rngDraw sha256 seed partitionHash).toNat % t.lastRangePos = p
    at hdraw
  have hlen := h.length
  obtain ⟨a, ha⟩ := exists_at (show p < t.ranges.length by omega)
  obtain ⟨z, hz⟩ := exists_at (show t.lastRangePos < t.ranges.length by omega)
  refine ⟨a, ⟨t.ranges.set p z, t.lastRangePos - 1⟩, by simp only [ha, hz]; rfl, ?_, ?_, ?_⟩
  · show (t.ranges.set p z).length = n
    rw [length_set, hlen]
  · show (outs ++ [a]).length + (t.lastRangePos - 1) + 1 = n
    rw [length_append, length_singleton]
    omega
  · show (outs ++ [a] ++ (t.ranges.set p z).take (t.lastRangePos - 1 + 1)).Perm _
    rw [Nat.sub_add_cancel (Nat.pos_of_ne_zero hpos), append_assoc, singleton_append]
    exact ((getElem_cons_take_set_perm hdraw ha hz).append_left outs).trans h.perm

/-- **The last pick of a rotation** takes the range that is left; the table is fresh again. -/
theorem pick_last
    (h : Unpicked n outs t) (hpos : t.lastRangePos = 0) (seed : H256) :
    ∃ v, pick sha256 n partitionHash t seed = .ok (v, freshTable n) ∧
      (outs ++ [v]).Perm (List.range n) := by
  have hposition := h.position
  have hlen := h.length
  obtain ⟨a, ha⟩ := exists_at (show 0 < t.ranges.length by omega)
  refine ⟨a, by rw [pick, if_pos hpos, ha]; rfl, ?_⟩
  have hperm := h.perm
  rw [hpos, take_add_one, ha] at hperm
  exact hperm

end

/-! ### Picks in a row -/

/-- Picks in a row, for the steps from `step` on. -/
def consecutive (draw : ℕ → H256 → Mut Ranges SamplingError ℕ) :
    ℕ → List H256 → Mut Ranges SamplingError (List ℕ)
  | _, [] => return []
  | step, seed :: rest => do
    let range ← draw step seed
    let ranges ← consecutive draw (step + 1) rest
    return range :: ranges

/-- **A method that picks**: from a state that is ready for its step it does what `pick` does to
the table, and is ready for the next step. -/
def Draws (sha256 : List UInt8 → List UInt8) (n : ℕ) (partitionHash : H256)
    (ready : ℕ → Ranges → Prop) (draw : ℕ → H256 → Mut Ranges SamplingError ℕ) : Prop :=
  ∀ (r : Ranges) (step : ℕ) (seed : H256) (v : ℕ) (t : Table), ready step r →
    r.numRecallRangesInPartition = n → pick sha256 n partitionHash r.table seed = .ok (v, t) →
    ∃ r', (draw step seed).run r = (.ok v, r') ∧ r'.table = t ∧
      r'.numRecallRangesInPartition = n ∧ ready (step + 1) r'

theorem draws_pickNext : Draws sha256 n partitionHash (fun _ _ => True)
    (fun _ seed => Ranges.pickNext sha256 seed partitionHash) := by
  intro r step seed v t _ hnum hpick
  rcases pickNext_spec sha256 partitionHash r seed with ⟨v', t', r', hpick', hrun, ht, hnum', -⟩ |
    ⟨e, herror, -⟩
  · rw [hnum, hpick] at hpick'
    cases hpick'
    exact ⟨r', hrun, ht, hnum'.trans hnum, trivial⟩
  · rw [hnum, hpick] at herror
    cases herror

theorem draws_nextRecallRange : Draws sha256 n partitionHash (fun step r => r.lastStepNum + 1 = step)
    (fun step seed => Ranges.nextRecallRange sha256 step seed partitionHash) := by
  intro r step seed v t hready hnum hpick
  obtain ⟨r', hrun, ht, hnum', -⟩ := draws_pickNext r step seed v t trivial hnum hpick
  have hconsecutive : checkedSub step 1 = some r.lastStepNum := by
    rw [← hready]
    exact checkedSub_of_le (by omega)
  refine ⟨{ r' with lastRecallRanges := r'.lastRecallRanges.insert step v, lastStepNum := step },
    ?_, ht, hnum', rfl⟩
  show (Ranges.nextRecallRange sha256 step seed partitionHash).run r = _
  rw [Ranges.nextRecallRange, run_read_bind, if_neg (not_not_intro hconsecutive)]
  exact run_bind_of_ok hrun

section Runs

variable {ready : ℕ → Ranges → Prop} {draw : ℕ → H256 → Mut Ranges SamplingError ℕ} {r : Ranges}
  {step : ℕ}

theorem consecutive_append {l l' : List H256} {r₁ r₂ : Ranges} {v w : List ℕ}
    (h : (consecutive draw step l).run r = (.ok v, r₁))
    (h' : (consecutive draw (step + l.length) l').run r₁ = (.ok w, r₂)) :
    (consecutive draw step (l ++ l')).run r = (.ok (v ++ w), r₂) := by
  induction l generalizing step r v with
  | nil =>
    cases h
    exact h'
  | cons seed rest ih =>
    obtain ⟨range, mid, hdraw, h⟩ := run_bind_eq_ok h
    obtain ⟨ranges, last, hrest, h⟩ := run_bind_eq_ok h
    cases h
    rw [length_cons, Nat.add_comm rest.length, ← Nat.add_assoc] at h'
    rw [cons_append, consecutive, run_bind_of_ok hdraw, run_bind_of_ok (ih hrest h')]
    rfl

variable (hdraws : Draws sha256 n partitionHash ready draw) (hn : n < 2 ^ 32)
include hdraws hn

/-- **The rest of a rotation** picks what is left of the ranges. -/
theorem consecutive_unpicked {seeds : List H256} (h : Unpicked n outs r.table)
    (hnum : r.numRecallRangesInPartition = n) (hready : ready step r)
    (hlen : seeds.length = r.lastRangePos + 1) :
    ∃ picks r', (consecutive draw step seeds).run r = (.ok picks, r') ∧
      (outs ++ picks).Perm (List.range n) ∧ r'.table = freshTable n ∧
      r'.numRecallRangesInPartition = n ∧ ready (step + seeds.length) r' := by
  induction seeds generalizing r step outs with
  | nil => cases hlen
  | cons seed rest ih =>
    rw [length_cons, Nat.add_right_cancel_iff] at hlen
    rw [consecutive]
    by_cases hpos : r.lastRangePos = 0
    · obtain rfl : rest = [] := length_eq_zero_iff.mp (hlen.trans hpos)
      obtain ⟨v, hpick, hperm⟩ := pick_last sha256 partitionHash h hpos seed
      obtain ⟨r', hrun, ht, hnum', hready'⟩ := hdraws _ _ _ _ _ hready hnum hpick
      refine ⟨[v], r', ?_, hperm, ht, hnum', hready'⟩
      rw [run_bind_of_ok hrun]
      rfl
    · obtain ⟨v, t, hpick, hnext⟩ := pick_unpicked sha256 partitionHash h hn hpos seed
      obtain ⟨r', hrun, rfl, hnum', hready'⟩ := hdraws _ _ _ _ _ hready hnum hpick
      have hlen' : rest.length = r'.lastRangePos + 1 := by
        have hposition := hnext.position
        have hposition₀ : outs.length + r.lastRangePos + 1 = n := h.position
        rw [length_append, length_singleton] at hposition
        have hpos' : r'.table.lastRangePos = r'.lastRangePos := rfl
        omega
      obtain ⟨picks, r'', hrest, hperm, ht, hnum'', hready''⟩ := ih hnext hnum' hready' hlen'
      refine ⟨v :: picks, r'', ?_, ?_, ht, hnum'', ?_⟩
      · rw [run_bind_of_ok hrun, run_bind_of_ok hrest]
        rfl
      · rw [append_assoc] at hperm
        exact hperm
      · rw [length_cons, Nat.add_comm rest.length, ← Nat.add_assoc]
        exact hready''

/-- **Whole rotations**: each is a permutation of the ranges and ends where it began. -/
theorem consecutive_rotations (hpos : 0 < n) (q : ℕ) {before block : List H256}
    (ht : r.table = freshTable n) (hnum : r.numRecallRangesInPartition = n) (hready : ready step r)
    (hbefore : before.length = q * n) (hblock : block.length = n) :
    ∃ earlier picks r', (consecutive draw step (before ++ block)).run r =
        (.ok (earlier ++ picks), r') ∧ earlier.length = q * n ∧ picks.Perm (List.range n) ∧
      r'.table = freshTable n := by
  have hrotation : ∀ {seeds : List H256} {r : Ranges} {step : ℕ}, seeds.length = n →
      r.table = freshTable n → r.numRecallRangesInPartition = n → ready step r →
      ∃ picks r', (consecutive draw step seeds).run r = (.ok picks, r') ∧
        picks.Perm (List.range n) ∧ r'.table = freshTable n ∧
        r'.numRecallRangesInPartition = n ∧ ready (step + seeds.length) r' := by
    intro seeds r step hlen ht hnum hready
    have hlast : r.lastRangePos = n - 1 := congrArg Table.lastRangePos ht
    have hfresh : Unpicked n [] r.table := ht ▸ unpicked_freshTable hpos
    have hleft : seeds.length = r.lastRangePos + 1 := by omega
    exact consecutive_unpicked hdraws hn hfresh hnum hready hleft
  induction q generalizing r step before with
  | zero =>
    rw [Nat.zero_mul, length_eq_zero_iff] at hbefore
    subst hbefore
    obtain ⟨picks, r', hrun, hperm, ht', -⟩ := hrotation hblock ht hnum hready
    exact ⟨[], picks, r', hrun, (Nat.zero_mul n).symm, hperm, ht'⟩
  | succ q ih =>
    rw [Nat.add_mul, Nat.one_mul] at hbefore
    have hhead : (before.take n).length = n := by
      rw [length_take]
      omega
    have htail : (before.drop n).length = q * n := by
      rw [length_drop]
      omega
    obtain ⟨first, r₁, hrun₁, hperm₁, ht₁, hnum₁, hready₁⟩ := hrotation hhead ht hnum hready
    obtain ⟨earlier, picks, r', hrun, hearlier, hperm, ht'⟩ := ih ht₁ hnum₁ hready₁ htail
    refine ⟨first ++ earlier, picks, r', ?_, ?_, hperm, ht'⟩
    · have happend := consecutive_append hrun₁ hrun
      rw [← append_assoc, take_append_drop] at happend
      rw [happend, append_assoc]
    · have hfirst := hperm₁.length_eq
      rw [length_range] at hfirst
      rw [length_append, Nat.add_mul, Nat.one_mul]
      omega

end Runs

/-- **Sampling without replacement.**  From a new sampler every pick is in the table, and the `N`
picks of a rotation are the ranges `0 … N - 1` in some order, after which the table is the initial
one; so for the plain picks of the validator as for those of the miner, which carry step
numbers. -/
theorem sampling_without_replacement (sha256 : List UInt8 → List UInt8) {N : ℕ} (hN : 1 ≤ N)
    (hlt : N < 2 ^ 32) (partitionHash : H256) {ranges : Ranges} (hnew : Ranges.new N = .ok ranges)
    {q : ℕ} {before block : List H256} (hbefore : before.length = q * N)
    (hblock : block.length = N) :
    (∃ earlier picks r, (consecutive (fun _ seed => Ranges.pickNext sha256 seed partitionHash) 1
        (before ++ block)).run ranges = (.ok (earlier ++ picks), r) ∧
      earlier.length = q * N ∧ picks.Perm (List.range N) ∧ r.table = ranges.table) ∧
    ∃ earlier picks r, (consecutive (Ranges.nextRecallRange sha256 · · partitionHash) 1
        (before ++ block)).run ranges = (.ok (earlier ++ picks), r) ∧
      earlier.length = q * N ∧ picks.Perm (List.range N) ∧ r.table = ranges.table := by
  rw [Ranges.new, if_neg (by omega)] at hnew
  cases hnew
  constructor
  · exact consecutive_rotations draws_pickNext hlt hN q rfl rfl trivial hbefore hblock
  · exact consecutive_rotations draws_nextRecallRange hlt hN q rfl rfl rfl hbefore hblock

theorem sampling_without_replacement_two_ranges :
    ∃ earlier picks r, (consecutive (fun _ seed => Ranges.pickNext Sha256.digest seed 9) 1
        ([3, 1] ++ [4, 1])).run ⟨List.range 2, 1, 0, ∅, 2⟩ = (.ok (earlier ++ picks), r) ∧
      earlier.length = 1 * 2 ∧ picks.Perm (List.range 2) ∧ r.table = freshTable 2 := by
  have hnew : Ranges.new 2 = .ok ⟨List.range 2, 1, 0, ∅, 2⟩ := rfl
  have hbefore : ([3, 1] : List H256).length = 1 * 2 := rfl
  have hblock : ([4, 1] : List H256).length = 2 := rfl
  exact (sampling_without_replacement Sha256.digest (by decide) (by decide) 9 hnew hbefore
    hblock).1

end Irys
