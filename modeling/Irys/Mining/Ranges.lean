import Irys.Chain.Types
import Irys.Lib.Mutable
import Irys.Lib.Sha256

/-!
# Recall ranges by efficient sampling

A partition has `N` recall ranges.  Every step of the delay function picks one of them; over `N`
steps each range is picked once, and then the rotation starts anew.  A pick draws a position from
the step's seed and the partition's hash, returns the range there and puts the last range of the
table in its place.
-/

namespace Irys

/-! ### The pseudorandom position -/

def u32FromBeBytes (bytes : List UInt8) : UInt32 :=
  bytes.foldl (fun acc b => acc <<< 8 ||| b.toUInt32) 0

/-- The generator's seed: the last four bytes of the hash of the step's seed and the partition. -/
def rngSeed (sha256 : List UInt8 → List UInt8) (seed partitionHash : H256) : UInt32 :=
  u32FromBeBytes (((sha256 (be 32 seed ++ be 32 partitionHash)).drop 28).take 4)

/-- The first number of the generator. -/
def rngDraw (sha256 : List UInt8 → List UInt8) (seed partitionHash : H256) : UInt32 :=
  (SimpleRng.next ⟨rngSeed sha256 seed partitionHash⟩).1

/-! ### The sampler -/

/-- How many steps before the last one stay in the cache when a rotation starts anew. -/
def numberOfKeptLastSteps : ℕ := 20

/-- Why the sampler gave no range. -/
inductive SamplingError where
  | nonConsecutiveStep (lastStep step : ℕ)
  | positionExceedsU32 (lastRangePos : ℕ)
  | noRanges
  | noRangeFound
  | reconstructedStepOverflow (base offset : ℕ)
  | unavailableSteps (start stop : ℕ)
  deriving DecidableEq

/-- **The sampler's state.** -/
structure Ranges where
  ranges : List ℕ
  lastRangePos : ℕ
  lastStepNum : ℕ
  lastRecallRanges : Std.TreeMap ℕ ℕ
  numRecallRangesInPartition : ℕ

/-- `reset_step`: the first step of the rotation that a step belongs to. -/
def resetStep (stepNum numRecallRangesInPartition : ℕ) : ℕ :=
  if stepNum = 0 then 0
  else (stepNum - 1) / numRecallRangesInPartition * numRecallRangesInPartition + 1

namespace Ranges

def new (numRecallRangesInPartition : ℕ) : Res SamplingError Ranges :=
  if numRecallRangesInPartition = 0 then fail .noRanges
  else .ok
    { ranges := List.range numRecallRangesInPartition
      lastRangePos := numRecallRangesInPartition - 1
      lastStepNum := 0
      lastRecallRanges := ∅
      numRecallRangesInPartition }

/-- `reinitialize`: a fresh table; of the cache only the last steps are kept. -/
def reinitialize (r : Ranges) : Ranges :=
  { r with
    ranges := List.range r.numRecallRangesInPartition
    lastRangePos := r.numRecallRangesInPartition - 1
    lastRecallRanges := r.lastRecallRanges.filter fun k _ =>
      decide (r.lastStepNum - numberOfKeptLastSteps < k) }

section Sampling

variable (sha256 : List UInt8 → List UInt8)

/-- **`pick_next`**: the last range of a rotation is what is left, every other is drawn. -/
def pickNext (seed partitionHash : H256) : Mut Ranges SamplingError ℕ := do
  let r ← Mut.read
  if r.lastRangePos = 0 then do
    let range ← Mut.lift (expect r.ranges[0]?)
    Mut.update reinitialize
    return range
  else if 2 ^ 32 ≤ r.lastRangePos then Mut.lift (fail (.positionExceedsU32 r.lastRangePos))
  else do
    let nextRangePos := (rngDraw sha256 seed partitionHash).toNat % r.lastRangePos
    let range ← Mut.lift (expect r.ranges[nextRangePos]?)
    let last ← Mut.lift (expect r.ranges[r.lastRangePos]?)
    Mut.update fun r =>
      { r with ranges := r.ranges.set nextRangePos last, lastRangePos := r.lastRangePos - 1 }
    return range

/-- `next_recall_range`: the pick of the step after the last one. -/
def nextRecallRange (step : ℕ) (seed partitionHash : H256) : Mut Ranges SamplingError ℕ := do
  let r ← Mut.read
  if checkedSub step 1 ≠ some r.lastStepNum then
    Mut.lift (fail (.nonConsecutiveStep r.lastStepNum step))
  else do
    let range ← pickNext sha256 seed partitionHash
    Mut.update fun r =>
      { r with lastRecallRanges := r.lastRecallRanges.insert step range, lastStepNum := step }
    return range

/-- `get_recall_range`: a cached pick, which leaves the table alone, or the next one. -/
def getRecallRange (step : ℕ) (seed partitionHash : H256) : Mut Ranges SamplingError ℕ := do
  let r ← Mut.read
  match r.lastRecallRanges[step]? with
  | some range => return range
  | none => nextRecallRange sha256 step seed partitionHash

/-- The loop of `reconstruct`, from the `i`-th seed; `base` is the last step before the loop. -/
def reconstructFrom (partitionHash : H256) (base : ℕ) :
    List H256 → ℕ → Mut Ranges SamplingError Unit
  | [], _ => return ()
  | seed :: rest, i => do
    match (checkedAdd 64 base 1).bind (checkedAdd 64 · i) with
    | none => Mut.lift (fail (.reconstructedStepOverflow base i))
    | some reconstructedStep => do
      let _ ← nextRecallRange sha256 reconstructedStep seed partitionHash
      reconstructFrom partitionHash base rest (i + 1)

/-- **`reconstruct`**: one pick for each seed, for the steps after the last one. -/
def reconstruct (nextSteps : List H256) (partitionHash : H256) : Mut Ranges SamplingError Unit := do
  let r ← Mut.read
  reconstructFrom sha256 partitionHash r.lastStepNum nextSteps 0

end Sampling

end Ranges

/-! ### The validator -/

/-- The loop of the validator's `get_recall_range`: the last pick, if there was one. -/
def lastPick (sha256 : List UInt8 → List UInt8) (partitionHash : H256) :
    List H256 → Option ℕ → Mut Ranges SamplingError (Option ℕ)
  | [], last => return last
  | seed :: rest, _ => do
    let range ← Ranges.pickNext sha256 seed partitionHash
    lastPick sha256 partitionHash rest (some range)

/-- **The validator's `get_recall_range`**: the last pick of a fresh sampler over the seeds. -/
def validatorRecallRange (sha256 : List UInt8 → List UInt8) (numRecallRangesInPartition : ℕ)
    (steps : List H256) (partitionHash : H256) : Res SamplingError ℕ := do
  let ranges ← Ranges.new numRecallRangesInPartition
  match ← ((lastPick sha256 partitionHash steps none).run ranges).1 with
  | some range => return range
  | none => fail .noRangeFound

/-! ### The miner -/

/-- The steps that the miner reads back before it answers for `step`: it starts a rotation anew
when it cannot reach the step from where it is, and returns the first step to read. -/
def rebuildFrom (step nextRangesStep : ℕ) : Mut Ranges SamplingError ℕ := do
  let r ← Mut.read
  let resetStep := resetStep step r.numRecallRangesInPartition
  if nextRangesStep < resetStep ∨ step < nextRangesStep then do
    Mut.update Ranges.reinitialize
    Mut.update fun r => { r with lastStepNum := resetStep - 1 }
    return resetStep
  else return nextRangesStep

/-- **The miner's `get_recall_range`**, with `getSteps` for the reads of the step buffer. -/
def minerRecallRange (sha256 : List UInt8 → List UInt8)
    (getSteps : ℕ → ℕ → Res SamplingError (List H256)) (step : ℕ) (seed partitionHash : H256) :
    Mut Ranges SamplingError ℕ := do
  let r ← Mut.read
  let nextRangesStep ← Mut.lift (expect (checkedAdd 64 r.lastStepNum 1))
  if nextRangesStep = step then Ranges.getRecallRange sha256 step seed partitionHash
  else do
    let start ← rebuildFrom step nextRangesStep
    if start < step then do
      let steps ← Mut.lift (getSteps start (step - 1))
      Ranges.reconstruct sha256 steps partitionHash
      Ranges.getRecallRange sha256 step seed partitionHash
    else Ranges.getRecallRange sha256 step seed partitionHash

end Irys
