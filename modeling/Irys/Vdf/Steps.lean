import Mathlib.Data.List.TakeWhile
import Irys.Lib.Sha256
import Irys.Lib.Trace
import Irys.Vdf.Seeds

/-!
# Step values: validation, the stepping loop and the re-anchor

A step hashes the value of the step before it; at a boundary the reset seed is folded in first.
Three pieces of code compute steps.  Validation replays a block's steps and folds the block's
`seed`.  The stepping loop free-runs and folds the seed that the canonical chain pins for the step,
once the confirmation gate lets it cross.  A re-anchor recomputes the steps above a new canonical
tip and folds the tip's `nextSeed`.

* `vdfStepBatchIsValid`, `lastStepCheckpointsIsValid` — validation;
* `canonicalVdfSnapshot`, `isResetBoundaryBlocked`, `VdfLoop.iterate` — the loop;
* `applyReanchor`, `firstDivergentBoundary` — the re-anchor;
* `StepChain.trace_above` — the steps of a paced chain above one of its blocks depend on that
  block alone, up to the first boundary at which two forks can differ;
* `one_reset_seed_per_boundary` — the three agree on every boundary.
-/

namespace Irys.Vdf

open List

/-! ### Configuration and hashing -/

/-- The part of `VdfConfig` that step values depend on, as `Config::validate` admits it. -/
structure VdfConfig where
  resetFrequency : ℕ
  numCheckpointsInVdfStep : ℕ
  sha1sDifficulty : ℕ
  resetFrequency_pos : 0 < resetFrequency
  numCheckpointsInVdfStep_pos : 0 < numCheckpointsInVdfStep

def VdfConfig.numIterationsPerCheckpoint (cfg : VdfConfig) : ℕ :=
  cfg.sha1sDifficulty / cfg.numCheckpointsInVdfStep

/-- Why steps were refused. -/
inductive VdfError where
  | emptyBatch
  | batchExceedsSteps (start stop available : ℕ)
  | invalidStep (step : ℕ) (expected got : H256)
  | invalidLastStepCheckpoints
  | zeroGlobalStep
  | noSteps
  | noLastCheckpoints
  | lastStepNotOutput
  | lastStepNotLastCheckpoint
  | checkpointCount (expected got : ℕ)
  | prevOutputMismatch (got expected : H256)
  deriving DecidableEq

section Hashing

variable (sha256 : List UInt8 → H256)

def applyResetSeed (seed resetSeed : H256) : H256 := sha256 (be 32 seed ++ be 32 resetSeed)

/-- `compress_n_rounds`: the salt, least significant byte first, and the seed fill one block, so a
round is one hash of the two. -/
def compressNRounds (salt iterations : ℕ) (seed : H256) : H256 :=
  (fun s => sha256 ((be 32 salt).reverse ++ be 32 s))^[iterations] seed

/-- `vdf_sha`: the checkpoints of a step; the last one is the step's value. -/
def vdfSha (iterations : ℕ) : (salt : ℕ) → H256 → (numCheckpoints : ℕ) → List H256
  | _, _, 0 => []
  | salt, seed, n + 1 =>
    let checkpoint := compressNRounds sha256 salt iterations seed
    checkpoint :: vdfSha iterations (salt + 1) checkpoint n

def stepNumberToSaltNumber (cfg : VdfConfig) : ℕ → Res VdfError ℕ
  | 0 => .ok 0
  | n + 1 => do
    let product ← expect (checkedMul 64 n cfg.numCheckpointsInVdfStep)
    expect (checkedAdd 64 product 1)

/-- The checkpoints of the step after step `n`, from the hash it starts with. -/
def stepCheckpoints (cfg : VdfConfig) (n : ℕ) (seed : H256) : Res VdfError (List H256) := do
  let salt ← stepNumberToSaltNumber cfg n
  return vdfSha sha256 cfg.numIterationsPerCheckpoint salt seed cfg.numCheckpointsInVdfStep

/-- `process_reset`: what the loop carries on from a step. -/
def processReset (step : ℕ) (hash : H256) (resetFrequency : ℕ) (resetSeed : H256) : H256 :=
  if step % resetFrequency = 0 then applyResetSeed sha256 hash resetSeed else hash

/-- What validation hashes for the step after step `n`.  Nothing is folded at step 0. -/
def resetBefore (n : ℕ) (prev : H256) (resetFrequency : ℕ) (resetSeed : H256) : H256 :=
  if 0 < n ∧ n % resetFrequency = 0 then applyResetSeed sha256 prev resetSeed else prev

/-! ### Validation -/

/-- The per-step checks of a batch: `prev` is the value of step `n`.  Returns the checkpoints of
the last step. -/
def checkSteps (cfg : VdfConfig) (resetSeed : H256) :
    (n : ℕ) → (prev : H256) → List H256 → Res VdfError (List H256)
  | _, _, [] => .ok []
  | n, prev, step :: rest => do
    let seed := resetBefore sha256 n prev cfg.resetFrequency resetSeed
    let checkpoints ← stepCheckpoints sha256 cfg n seed
    if checkpoints.getLastD seed ≠ step then
      fail (.invalidStep n step (checkpoints.getLastD seed))
    else if rest = [] then return checkpoints
    else checkSteps cfg resetSeed (n + 1) step rest

section

variable (cfg : VdfConfig) (getSteps : ℕ → ℕ → Option (List H256)) (v : VDFLimiterInfo)

/-- `vdf_step_batch_is_valid` on the steps `start..stop` of the block.  `getSteps` is the local
buffer: a batch it holds with the same values is not computed again. -/
def vdfStepBatchIsValid (start stop : ℕ) (verifyLastStepCheckpoints : Bool) :
    Res VdfError Unit :=
  if stop ≤ start then fail .emptyBatch
  else if v.steps.length < stop then fail (.batchExceedsSteps start stop v.steps.length)
  else
    let batchSteps := (v.steps.drop start).take (stop - start)
    let batchStart := v.firstStepNumber + start
    if getSteps batchStart (batchStart + batchSteps.length - 1) = some batchSteps then .ok ()
    else do
      let previousSeed := (v.steps.take start).getLastD v.prevOutput
      let previousStep ← expect (checkedSub batchStart 1)
      let checkpoints ← checkSteps sha256 cfg v.seed previousStep previousSeed batchSteps
      if verifyLastStepCheckpoints ∧ checkpoints ≠ v.lastStepCheckpoints then
        fail .invalidLastStepCheckpoints
      else .ok ()

/-- `vdf_steps_are_valid`: all steps of the block as one batch. -/
def vdfStepsAreValid : Res VdfError Unit :=
  vdfStepBatchIsValid sha256 cfg getSteps v 0 v.steps.length true

end

def lastStepCheckpointsIsValid (cfg : VdfConfig) (v : VDFLimiterInfo) : Res VdfError Unit :=
  if v.globalStepNumber = 0 then fail .zeroGlobalStep
  else
    match v.steps.getLast? with
    | none => fail .noSteps
    | some lastStep =>
    match v.lastStepCheckpoints.getLast? with
    | none => fail .noLastCheckpoints
    | some lastCheckpoint =>
      if lastStep ≠ v.output then fail .lastStepNotOutput
      else if lastStep ≠ lastCheckpoint then fail .lastStepNotLastCheckpoint
      else if v.lastStepCheckpoints.length ≠ cfg.numCheckpointsInVdfStep then
        fail (.checkpointCount cfg.numCheckpointsInVdfStep v.lastStepCheckpoints.length)
      else do
        let prev := v.steps.dropLast.getLastD v.prevOutput
        let seed := resetBefore sha256 (v.globalStepNumber - 1) prev cfg.resetFrequency v.seed
        let salt ← stepNumberToSaltNumber cfg (v.globalStepNumber - 1)
        -- each checkpoint is hashed from the one claimed before it, the first from the seed
        let computed := (seed :: v.lastStepCheckpoints).zipIdx.dropLast.map fun p =>
          compressNRounds sha256 (salt + p.2) cfg.numIterationsPerCheckpoint p.1
        if computed ≠ v.lastStepCheckpoints then fail .invalidLastStepCheckpoints else .ok ()

end Hashing

def prevOutputIsValid (block parent : VdfHeader) : Res VdfError Unit :=
  if block.vdfLimiterInfo.prevOutput = parent.vdfLimiterInfo.output then .ok ()
  else fail (.prevOutputMismatch block.vdfLimiterInfo.prevOutput parent.vdfLimiterInfo.output)

/-! ### The stepping loop -/

/-- `canonical_entry_at_or_below_step`.  The chain ascends, so the binary search finds the end of
the entries at or below the step. -/
def canonicalEntryAtOrBelowStep (chain : List VdfHeader) (step : ℕ) : Option VdfHeader :=
  (chain.takeWhile fun b => b.lastStep ≤ step).getLast?

def confirmedCanonicalStep (chain : List VdfHeader) (notOnchainCount depth : ℕ) : ℕ :=
  let skip := max notOnchainCount depth
  (chain[chain.length - saturatingAdd 64 skip 1]?.map (·.lastStep)).getD 0

structure CanonicalVdfSnapshot where
  vdfInfo : VDFLimiterInfo
  confirmedGlobalStepNumber : ℕ
  resetSeedForStep : H256

/-- `canonical_vdf_snapshot`.  The tree's canonical chain always has a tip. -/
def canonicalVdfSnapshot (chain : List VdfHeader) (notOnchainCount blockMigrationDepth : ℕ)
    (step : ℕ) : Option CanonicalVdfSnapshot := do
  let tip ← chain.getLast?
  return {
    vdfInfo := tip.vdfLimiterInfo
    confirmedGlobalStepNumber :=
      confirmedCanonicalStep chain notOnchainCount blockMigrationDepth
    resetSeedForStep :=
      ((canonicalEntryAtOrBelowStep chain step).map (·.nextSeed)).getD tip.nextSeed }

/-- `is_reset_boundary_blocked`: the confirmation gate. -/
def isResetBoundaryBlocked (nextGlobalStep resetFrequency confirmedGlobalStepNumber : ℕ) : Bool :=
  nextGlobalStep % resetFrequency == 0
    && decide (saturatingAdd 64 confirmedGlobalStepNumber resetFrequency < nextGlobalStep)

/-- What the loop carries from one iteration to the next. -/
structure VdfLoop where
  globalStepNumber : ℕ
  hash : H256
  nextResetSeed : H256
  confirmedGlobalStepNumber : ℕ
  deriving DecidableEq

/-- The loop reads the canonical snapshot for its current step. -/
def VdfLoop.observe (l : VdfLoop) : Option CanonicalVdfSnapshot → VdfLoop
  | none => l
  | some snapshot =>
    { l with
      nextResetSeed := snapshot.resetSeedForStep
      confirmedGlobalStepNumber := snapshot.confirmedGlobalStepNumber }

/-- **One free-running iteration of `run_vdf`**, with mining on and a trusted buffer: the new state,
and the step it stored unless the gate held it. -/
def VdfLoop.iterate (sha256 : List UInt8 → H256) (cfg : VdfConfig)
    (snapshot : ℕ → Option CanonicalVdfSnapshot) (loop : VdfLoop) :
    Res VdfError (VdfLoop × Option H256) := do
  let l := loop.observe (snapshot loop.globalStepNumber)
  let next ← expect (checkedAdd 64 l.globalStepNumber 1)
  if isResetBoundaryBlocked next cfg.resetFrequency l.confirmedGlobalStepNumber then
    return (l, none)
  else
    let checkpoints ← stepCheckpoints sha256 cfg l.globalStepNumber l.hash
    let step := checkpoints.getLastD l.hash
    return ({ l with
      globalStepNumber := next
      hash := processReset sha256 next step cfg.resetFrequency l.nextResetSeed }, some step)

/-! ### The re-anchor -/

def firstDivergentBoundary (lcaStep resetFrequency : ℕ) : ℕ :=
  saturatingMul 64 (saturatingAdd 64 (lcaStep / resetFrequency) 2) resetFrequency

structure ReanchorRequest where
  canonicalSeeds : List H256
  cStep : ℕ
  seed : H256
  nextSeed : H256

/-- `ReanchorOutcome` of a request that was not interrupted. -/
inductive ReanchorOutcome where
  | healed (seeds : List H256) (newHash newNextSeed : H256)
  | skipped
  deriving DecidableEq

/-- The recomputed tail: `count` steps above step `n`, and the hash the next one starts with. -/
def reanchorTail (sha256 : List UInt8 → H256) (cfg : VdfConfig) (nextSeed : H256) :
    (n : ℕ) → (running : H256) → (count : ℕ) → Res VdfError (List H256 × H256)
  | _, running, 0 => .ok ([], running)
  | n, running, count + 1 => do
    let checkpoints ← stepCheckpoints sha256 cfg n running
    let step := checkpoints.getLastD running
    let (rest, last) ← reanchorTail sha256 cfg nextSeed (n + 1)
      (processReset sha256 (n + 1) step cfg.resetFrequency nextSeed) count
    return (step :: rest, last)

def applyReanchor (sha256 : List UInt8 → H256) (cfg : VdfConfig) (request : ReanchorRequest)
    (liveStep : ℕ) : Res VdfError ReanchorOutcome :=
  match request.canonicalSeeds.getLast? with
  | none => .ok .skipped
  | some tipSeed =>
    if liveStep < request.cStep then .ok .skipped
    -- the seed of a second boundary above the tip is not pinned yet
    else if firstDivergentBoundary request.cStep cfg.resetFrequency ≤ liveStep then .ok .skipped
    else do
      let (tail, last) ← reanchorTail sha256 cfg request.nextSeed request.cStep
        (processReset sha256 request.cStep tipSeed cfg.resetFrequency request.seed)
        (liveStep - request.cStep)
      return .healed (request.canonicalSeeds ++ tail) last request.nextSeed

/-! ### Validated steps form a trace -/

section Traces

variable {sha256 : List UInt8 → H256} {cfg : VdfConfig}

/-- One step of the delay function, with the reset seed of each boundary given by `seedAt`. -/
def NextStep (sha256 : List UInt8 → H256) (cfg : VdfConfig) (seedAt : ℕ → H256) (n : ℕ)
    (prev step : H256) : Prop :=
  ∃ checkpoints,
    stepCheckpoints sha256 cfg n (resetBefore sha256 n prev cfg.resetFrequency (seedAt n))
      = .ok checkpoints ∧
    checkpoints.getLastD (resetBefore sha256 n prev cfg.resetFrequency (seedAt n)) = step

theorem NextStep.functional (seedAt : ℕ → H256) (n : ℕ) (prev step step' : H256)
    (h : NextStep sha256 cfg seedAt n prev step) (h' : NextStep sha256 cfg seedAt n prev step') :
    step = step' := by
  obtain ⟨checkpoints, hrun, hlast⟩ := h
  obtain ⟨checkpoints', hrun', hlast'⟩ := h'
  cases hrun.symm.trans hrun'
  rw [← hlast, ← hlast']

variable {n F : ℕ} {prev value : H256} {c l : List VdfHeader} {p b s : VdfHeader}

theorem NextStep.congr {seedAt seedAt' : ℕ → H256} {step : H256}
    (heq : 0 < n → cfg.resetFrequency ∣ n → seedAt n = seedAt' n)
    (h : NextStep sha256 cfg seedAt n prev step) : NextStep sha256 cfg seedAt' n prev step := by
  have hreset : resetBefore sha256 n prev cfg.resetFrequency (seedAt n) =
      resetBefore sha256 n prev cfg.resetFrequency (seedAt' n) := by
    rw [resetBefore, resetBefore]
    split
    · next hn => rw [heq hn.1 (Nat.dvd_of_mod_eq_zero hn.2)]
    · rfl
  rwa [NextStep, ← hreset]

theorem checkSteps_trace {resetSeed : H256} {steps checkpoints : List H256}
    (h : checkSteps sha256 cfg resetSeed n prev steps = .ok checkpoints) :
    Trace (NextStep sha256 cfg fun _ => resetSeed) n prev steps := by
  induction steps generalizing n prev with
  | nil => exact trivial
  | cons step rest ih =>
    rw [checkSteps, bind_eq_ok] at h
    obtain ⟨computed, hrun, h⟩ := h
    obtain ⟨hstep, h⟩ := fail_ite_eq_ok.mp h
    refine ⟨⟨computed, hrun, not_not.mp hstep⟩, ?_⟩
    split at h
    · next hrest =>
      rw [hrest]
      exact trivial
    · exact ih h

theorem vdfStepsAreValid_trace {v : VDFLimiterInfo}
    (h : vdfStepsAreValid sha256 cfg (fun _ _ => none) v = .ok ()) :
    0 < v.firstStepNumber ∧
      Trace (NextStep sha256 cfg fun _ => v.seed) (v.firstStepNumber - 1) v.prevOutput v.steps := by
  rw [vdfStepsAreValid, vdfStepBatchIsValid] at h
  simp only [fail_ite_eq_ok, reduceCtorEq, if_false, bind_eq_ok, expect_eq_ok, Nat.sub_zero,
    drop_zero, take_length, Nat.add_zero, take_zero, getLastD_nil] at h
  obtain ⟨-, -, previousStep, hprev, checkpoints, hcheck, -⟩ := h
  rw [checkedSub, Option.ite_none_right_eq_some, Option.some.injEq] at hprev
  obtain ⟨hpos, rfl⟩ := hprev
  exact ⟨hpos, checkSteps_trace hcheck⟩

theorem length_vdfSha (iterations salt : ℕ) (seed : H256) (n : ℕ) :
    (vdfSha sha256 iterations salt seed n).length = n := by
  induction n generalizing salt seed with
  | zero => rfl
  | succ n ih => rw [vdfSha, length_cons, ih]

/-- **Checked all at once.**  Every checkpoint is the hash of the one claimed before it exactly if
they are the checkpoints computed one after the other. -/
theorem map_zipIdx_eq_iff (iterations salt k : ℕ) (seed : H256) (l : List H256) :
    (((seed :: l).zipIdx k).dropLast.map fun p =>
      compressNRounds sha256 (salt + p.2) iterations p.1) = l ↔
        vdfSha sha256 iterations (salt + k) seed l.length = l := by
  induction l generalizing k seed with
  | nil => exact Iff.rfl
  | cons c l ih =>
    rw [zipIdx_cons, zipIdx_cons, dropLast_cons_cons, ← zipIdx_cons,
      map_cons, length_cons, vdfSha, List.cons.injEq, List.cons.injEq, ih (k + 1) c]
    exact and_congr_right fun hhead => by rw [hhead, Nat.add_assoc]

theorem stepCheckpoints_eq_ok {seed : H256} {l : List H256} :
    stepCheckpoints sha256 cfg n seed = .ok l ↔ l.length = cfg.numCheckpointsInVdfStep ∧
      ∃ salt, stepNumberToSaltNumber cfg n = .ok salt ∧
        ((seed :: l).zipIdx.dropLast.map fun p =>
          compressNRounds sha256 (salt + p.2) cfg.numIterationsPerCheckpoint p.1) = l := by
  rw [stepCheckpoints, bind_eq_ok]
  constructor
  · intro h
    obtain ⟨salt, hsalt, hret⟩ := h
    cases hret
    refine ⟨length_vdfSha _ _ _ _, salt, hsalt, ?_⟩
    rw [map_zipIdx_eq_iff, length_vdfSha]
    rfl
  · intro h
    obtain ⟨hlen, salt, hsalt, hcomputed⟩ := h
    rw [map_zipIdx_eq_iff, hlen] at hcomputed
    exact ⟨salt, hsalt, congrArg _ hcomputed⟩

/-- The last step starts from the value before it. -/
def VDFLimiterInfo.lastStepInput (v : VDFLimiterInfo) : H256 :=
  v.steps.dropLast.getLastD v.prevOutput

/-- What `last_step_checkpoints_is_valid` has checked when it accepts. -/
theorem lastStepCheckpointsIsValid_eq_ok {v : VDFLimiterInfo} :
    lastStepCheckpointsIsValid sha256 cfg v = .ok () ↔
      0 < v.globalStepNumber ∧ ∃ last, v.steps.getLast? = some last ∧ v.output = last ∧
        v.lastStepCheckpoints.getLast? = some last ∧
        stepCheckpoints sha256 cfg (v.globalStepNumber - 1) (resetBefore sha256
          (v.globalStepNumber - 1) v.lastStepInput cfg.resetFrequency v.seed) =
            .ok v.lastStepCheckpoints := by
  rw [lastStepCheckpointsIsValid, fail_ite_eq_ok, Nat.pos_iff_ne_zero]
  refine and_congr_right fun _ => ?_
  cases v.steps.getLast? with
  | none => simp
  | some last =>
    cases v.lastStepCheckpoints.getLast? with
    | none => simp
    | some checkpoint =>
      simp only [fail_ite_eq_ok, not_not, bind_eq_ok, stepCheckpoints_eq_ok, Option.some.injEq,
        exists_eq_left', and_true, eq_comm (b := last)]
      rfl

/-! ### Chains with valid steps -/

section

variable (sha256) (cfg)

/-- **A block with valid steps after its parent.** -/
@[mk_iff]
structure StepsFollow (parent block : VdfHeader) : Prop where
  link : block.previousBlockHash = parent.blockHash
  prevOutput : prevOutputIsValid block parent = .ok ()
  checkpoints : lastStepCheckpointsIsValid sha256 cfg block.vdfLimiterInfo = .ok ()
  steps : vdfStepsAreValid sha256 cfg (fun _ _ => none) block.vdfLimiterInfo = .ok ()

/-- **A chain with valid steps**, oldest block first. -/
@[mk_iff]
structure StepChain (c : List VdfHeader) : Prop where
  headers : HeaderChain cfg.resetFrequency c
  steps : c.IsChain (StepsFollow sha256 cfg)

end

/-- The value of step `n` on the chain. -/
def StepAt (c : List VdfHeader) (n : ℕ) (value : H256) : Prop :=
  ∃ b ∈ c, b.firstStep ≤ n ∧ n ≤ b.lastStep ∧
    b.vdfLimiterInfo.steps[n - b.firstStep]? = some value

/-- The steps of a list of blocks. -/
def stepsOf (c : List VdfHeader) : List H256 := c.flatMap fun b => b.vdfLimiterInfo.steps

theorem StepsFollow.prevOutput_eq {parent block : VdfHeader}
    (h : StepsFollow sha256 cfg parent block) :
    block.vdfLimiterInfo.prevOutput = parent.vdfLimiterInfo.output :=
  (ite_fail_eq_ok.mp h.prevOutput).1

theorem StepChain.of_infix {d : List VdfHeader} (h : StepChain sha256 cfg c) (hd : d <:+: c) :
    StepChain sha256 cfg d :=
  ⟨h.headers.of_infix hd, h.steps.infix hd⟩

theorem Follows.length_eq {x : VdfHeader} (h : Follows F p b) (hx : Follows F b x) :
    b.vdfLimiterInfo.steps.length = b.lastStep - p.lastStep := by
  have hfirst := h.contiguous
  have hlt := hx.lastStep_lt
  have hmax : x.lastStep < 2 ^ 64 := x.vdfLimiterInfo.globalStepNumber_lt
  have hlen : b.firstStep + b.vdfLimiterInfo.steps.length = b.lastStep + 1 :=
    b.vdfLimiterInfo.firstStepNumber_add_length
      (show 0 < b.firstStep by omega) (show b.lastStep + 1 < 2 ^ 64 by omega)
  omega

theorem Follows.length_le (h : Follows F p b) :
    p.lastStep + b.vdfLimiterInfo.steps.length ≤ b.lastStep := by
  have hfirst := h.contiguous
  have hdef : b.firstStep = saturatingAdd 64 b.lastStep 1 - b.vdfLimiterInfo.steps.length := rfl
  rw [saturatingAdd] at hdef
  omega

/-- **A chain's steps above a block, as one trace.**  `seedAt` gives the seed that each block above
`p` carries at the boundaries below `N` that its steps cross. -/
theorem StepChain.trace_stepsOf {N : ℕ} (h : StepChain sha256 cfg (p :: c)) (seedAt : ℕ → H256)
    (hseed : ∀ b ∈ c, ∀ n, b.firstStep ≤ n + 1 → n + 1 ≤ b.lastStep → n < N → 0 < n →
      cfg.resetFrequency ∣ n → b.seed = seedAt n) :
    Trace (NextStep sha256 cfg seedAt) p.lastStep p.vdfLimiterInfo.output
      ((stepsOf c).take (N - p.lastStep)) := by
  induction c generalizing p with
  | nil => simp [stepsOf]
  | cons b c ih =>
    have hfollows := (isChain_cons_cons.mp h.headers.follows).1
    have hsteps := (isChain_cons_cons.mp h.steps).1
    obtain ⟨-, htrace⟩ := vdfStepsAreValid_trace hsteps.steps
    rw [hsteps.prevOutput_eq, show b.vdfLimiterInfo.firstStepNumber = p.lastStep + 1 from
      hfollows.contiguous, Nat.add_sub_cancel] at htrace
    rw [stepsOf, flatMap_cons, ← stepsOf, take_append, Trace.append_iff]
    constructor
    · -- within the block the seeds are its own
      rw [← take_append_drop (N - p.lastStep) b.vdfLimiterInfo.steps, Trace.append_iff] at htrace
      refine htrace.1.imp fun m hlow hhigh prev step hnext => hnext.congr fun hpos hdvd => ?_
      have hlen := hfollows.length_le
      have hfirst := hfollows.contiguous
      rw [length_take] at hhigh
      exact hseed b mem_cons_self m (by omega) (by omega) (by omega) hpos hdvd
    · cases c with
      | nil => simp [stepsOf]
      | cons x c =>
        have hx := (isChain_cons_cons.mp h.headers.follows).2
        have hlen := hfollows.length_eq (isChain_cons_cons.mp hx).1
        have hlt := hfollows.lastStep_lt
        rcases Nat.lt_or_ge (N - p.lastStep) b.vdfLimiterInfo.steps.length with hN | hN
        · rw [show N - p.lastStep - b.vdfLimiterInfo.steps.length = 0 from by omega, take_zero]
          exact trivial
        · have htail := ih (h.of_infix (infix_cons (infix_refl _)))
            fun b hb => hseed b (mem_cons_of_mem _ hb)
          obtain ⟨-, last, hlast, hout, -⟩ := lastStepCheckpointsIsValid_eq_ok.mp hsteps.checkpoints
          rw [take_of_length_le hN, getLastD_eq_getLast?, hlast, Option.getD_some, ← hout,
            show p.lastStep + b.vdfLimiterInfo.steps.length = b.lastStep from by omega,
            show N - p.lastStep - b.vdfLimiterInfo.steps.length = N - b.lastStep from by omega]
          exact htail

theorem HeaderChain.getElem?_stepsOf (h : HeaderChain F (p :: c)) (hb : b ∈ c)
    (hlow : b.firstStep ≤ n) (hvalue : b.vdfLimiterInfo.steps[n - b.firstStep]? = some value) :
    (stepsOf c)[n - p.lastStep - 1]? = some value := by
  induction c generalizing p with
  | nil => exact absurd hb not_mem_nil
  | cons y c ih =>
    have hfollows := (isChain_cons_cons.mp h.follows).1
    have hfirst := hfollows.contiguous
    rw [stepsOf, flatMap_cons, ← stepsOf]
    rcases mem_cons.mp hb with rfl | hbc
    · have hlt := lt_length_of_some hvalue
      rw [show n - p.lastStep - 1 = n - b.firstStep from by omega, getElem?_append_left hlt, hvalue]
    · have hyc := h.of_infix (infix_cons (infix_refl (y :: c)))
      have hyb := (hyc.precedes_of_mem hbc).2
      cases c with
      | nil => exact absurd hbc not_mem_nil
      | cons x c =>
        have hlen := hfollows.length_eq (isChain_cons_cons.mp hyc.follows).1
        have hlt := hfollows.lastStep_lt
        rw [getElem?_append_right (by omega),
          show n - p.lastStep - 1 - y.vdfLimiterInfo.steps.length = n - y.lastStep - 1
            from by omega]
        exact ih hyc hbc

/-! ### What a block determines above itself -/

/-- The boundary `firstDivergentBoundary` computes, without saturation. -/
theorem firstDivergentBoundary_le (L F : ℕ) : firstDivergentBoundary L F ≤ (L / F + 2) * F :=
  (min_le_left _ _).trans (Nat.mul_le_mul_right F (min_le_left _ _))

/-- The reset seeds that a block pins: its own for a boundary it ends on, the next for the boundary
above. -/
def VdfHeader.seedAbove (b : VdfHeader) (n : ℕ) : H256 :=
  if n = b.lastStep then b.seed else b.nextSeed

/-- **The seeds above a block.**  Up to the first boundary where forks can differ, a paced chain
folds the seeds that the block pins. -/
theorem HeaderChain.seed_eq_seedAbove (h : HeaderChain F (s :: c))
    (hpaced : Paced F s.lastStep (s :: c)) (hb : b ∈ c) (hlow : b.firstStep ≤ n + 1)
    (hhigh : n + 1 ≤ b.lastStep) (hn : n < (s.lastStep / F + 2) * F) (hpos : 0 < n)
    (hdvd : F ∣ n) : b.seed = s.seedAbove n := by
  have habove := (h.precedes_of_mem hb).2
  rw [VdfHeader.seedAbove]
  split
  · next heq =>
      -- the block is the one right above s, and does not reach the next boundary
      cases c with
      | nil => exact absurd hb not_mem_nil
      | cons y c =>
        have hsy := (isChain_cons_cons.mp h.follows).1
        have hby : b = y := by
          rcases mem_cons.mp hb with rfl | hbc
          · rfl
          · have hyc := h.of_infix (infix_cons (infix_refl (y :: c)))
            have := (hyc.precedes_of_mem hbc).2
            have := hsy.lastStep_lt
            omega
        rw [hby]
        refine (hsy.copies fun B hB hlow => ?_).2
        by_contra hle
        have hout : ¬ Outpaces F s y := (isChain_cons_cons.mp hpaced).1 le_rfl
        have hshort : y.lastStep < s.lastStep + F := by
          by_contra hlong
          exact hout ⟨by omega, by rwa [← heq], by omega⟩
        have := boundary_eq (by rwa [← heq]) hB hlow.le (by omega)
        omega
  · next hne =>
      have hwin : n - F ≤ s.lastStep := by
        obtain ⟨m, rfl⟩ := hdvd
        have hm : m < s.lastStep / F + 2 := by
          rw [Nat.mul_comm] at hn
          exact Nat.lt_of_mul_lt_mul_right hn
        calc F * m - F = F * (m - 1) := by rw [Nat.mul_sub_one]
          _ ≤ F * (s.lastStep / F) := 
              Nat.mul_le_mul_left F (Nat.sub_le_of_le_add (Nat.le_of_lt_succ hm))
          _ ≤ s.lastStep := Nat.mul_div_le _ _
      exact seed_at_boundary h (hpaced.pinned h) hpos hdvd hwin (by omega) hb hlow hhigh

/-- **The steps above a block depend on the block alone**, up to the first boundary where forks can
differ. -/
theorem StepChain.trace_above (h : StepChain sha256 cfg (s :: c))
    (hpaced : Paced cfg.resetFrequency s.lastStep (s :: c)) :
    Trace (NextStep sha256 cfg s.seedAbove) s.lastStep s.vdfLimiterInfo.output
      ((stepsOf c).take
        ((s.lastStep / cfg.resetFrequency + 2) * cfg.resetFrequency - s.lastStep)) :=
  h.trace_stepsOf s.seedAbove fun _ hb _ hlow hhigh hn hpos hdvd =>
    h.headers.seed_eq_seedAbove hpaced hb hlow hhigh hn hpos hdvd

theorem StepAt.getElem?_above (h : HeaderChain F (l ++ s :: c)) (hn : s.lastStep < n)
    (hat : StepAt (l ++ s :: c) n value) : (stepsOf c)[n - s.lastStep - 1]? = some value := by
  obtain ⟨b, hb, hlow, hhigh, hvalue⟩ := hat
  have hbc : b ∈ c := by
    rcases mem_append.mp hb with hbl | hbs
    · have := ((pairwise_append.mp h.pairwise).2.2 b hbl s mem_cons_self).1
      omega
    · rcases mem_cons.mp hbs with rfl | hbc
      · omega
      · exact hbc
  exact (h.of_infix (suffix_append l (s :: c)).isInfix).getElem?_stepsOf hbc hlow hvalue

/-- **A trace from a block gives the chain's steps above it.** -/
theorem StepChain.value_eq_of_trace (h : StepChain sha256 cfg (l ++ s :: c))
    (hpaced : Paced cfg.resetFrequency s.lastStep (l ++ s :: c)) {steps : List H256}
    (htrace : Trace (NextStep sha256 cfg s.seedAbove) s.lastStep s.vdfLimiterInfo.output steps)
    {value' : H256} (hn : s.lastStep < n)
    (hle : n ≤ (s.lastStep / cfg.resetFrequency + 2) * cfg.resetFrequency)
    (hat : StepAt (l ++ s :: c) n value) (hvalue : steps[n - s.lastStep - 1]? = some value') :
    value = value' := by
  have hsuffix : s :: c <:+: l ++ s :: c := (suffix_append l (s :: c)).isInfix
  have habove := (h.of_infix hsuffix).trace_above (hpaced.of_infix hsuffix)
  have hget := hat.getElem?_above h.headers hn
  refine Trace.agree (NextStep.functional s.seedAbove) habove htrace (?_ : _ = some value) hvalue
  rw [getElem?_take_of_lt (by omega), hget]

/-! ### Shared ancestors -/

/-- A block hash names one header in the two chains. -/
def HashesIdentify (c c' : List VdfHeader) : Prop :=
  ∀ b ∈ c, ∀ b' ∈ c', b.blockHash = b'.blockHash → b = b'

/-- Of two chains to one block, one ends with the other. -/
theorem StepChain.suffix_or_suffix {l' : List VdfHeader} (h : StepChain sha256 cfg (l ++ [s]))
    (h' : StepChain sha256 cfg (l' ++ [s])) (hid : HashesIdentify (l ++ [s]) (l' ++ [s])) :
    l ++ [s] <:+ l' ++ [s] ∨ l' ++ [s] <:+ l ++ [s] := by
  induction l using List.reverseRecOn generalizing l' s with
  | nil => exact .inl (suffix_append l' [s])
  | append_singleton l p ih =>
    rcases eq_nil_or_concat' l' with rfl | ⟨l', p', rfl⟩
    · exact .inr (suffix_append _ [s])
    · -- the parents are named by the same hash
      have hlink := (isChain_append.mp h.steps).2.2 p (by simp) s rfl
      have hlink' := (isChain_append.mp h'.steps).2.2 p' (by simp) s rfl
      obtain rfl := hid p (by simp) p' (by simp) (hlink.link.symm.trans hlink'.link)
      refine (ih (h.of_infix (prefix_append _ _).isInfix) (h'.of_infix (prefix_append _ _).isInfix)
        fun x hx y hy => hid x (mem_append_left _ hx) y (mem_append_left _ hy)).imp ?_ ?_
      · rintro ⟨k, hk⟩
        exact ⟨k, by rw [← append_assoc, hk]⟩
      · rintro ⟨k, hk⟩
        exact ⟨k, by rw [← append_assoc, hk]⟩

theorem StepAt.below (h : HeaderChain F (l ++ s :: c)) (hn : n ≤ s.lastStep)
    (hat : StepAt (l ++ s :: c) n value) : StepAt (l ++ [s]) n value := by
  obtain ⟨b, hb, hlow, hrest⟩ := hat
  refine ⟨b, ?_, hlow, hrest⟩
  rcases mem_append.mp hb with hbl | hbs
  · exact mem_append_left _ hbl
  · rcases mem_cons.mp hbs with rfl | hbc
    · simp
    · have hsc := h.of_infix (suffix_append l (s :: c)).isInfix
      have := (hsc.precedes_of_mem hbc).2
      omega

/-- **Two chains agree up to the first boundary where forks can differ.** -/
theorem StepChain.agree {c' : List VdfHeader} (h : StepChain sha256 cfg c)
    (h' : StepChain sha256 cfg c') (hpaced : Paced cfg.resetFrequency s.lastStep c)
    (hpaced' : Paced cfg.resetFrequency s.lastStep c') (hid : HashesIdentify c c') (hs : s ∈ c)
    (hs' : s ∈ c') (hn : n ≤ firstDivergentBoundary s.lastStep cfg.resetFrequency) {value' : H256}
    (hat : StepAt c n value) (hat' : StepAt c' n value') : value = value' := by
  obtain ⟨l, r, rfl⟩ := append_of_mem hs
  obtain ⟨l', r', rfl⟩ := append_of_mem hs'
  rcases Nat.lt_or_ge s.lastStep n with hlt | hge
  · have hbound := hn.trans (firstDivergentBoundary_le _ _)
    have hsuffix : s :: r' <:+: l' ++ s :: r' := (suffix_append l' (s :: r')).isInfix
    have htrace := (h'.of_infix hsuffix).trace_above (hpaced'.of_infix hsuffix)
    refine h.value_eq_of_trace hpaced htrace hlt hbound hat ?_
    rw [getElem?_take_of_lt (by omega), hat'.getElem?_above h'.headers hlt]
  · have hpre : l ++ [s] <:+: l ++ s :: r := ⟨[], r, by simp⟩
    have hpre' : l' ++ [s] <:+: l' ++ s :: r' := ⟨[], r', by simp⟩
    obtain ⟨b, hb, hlow, hhigh, hvalue⟩ := hat.below h.headers hge
    obtain ⟨b', hb', hlow', hhigh', hvalue'⟩ := hat'.below h'.headers hge
    have heq : b = b' := by
      rcases (h.of_infix hpre).suffix_or_suffix (h'.of_infix hpre')
        fun x hx y hy => hid x (hpre.subset hx) y (hpre'.subset hy) with hsuf | hsuf
      · exact h'.headers.eq_of_step (hpre'.subset (hsuf.subset hb)) (hpre'.subset hb')
          hlow hhigh hlow' hhigh'
      · exact h.headers.eq_of_step (hpre.subset hb) (hpre.subset (hsuf.subset hb'))
          hlow hhigh hlow' hhigh'
    subst heq
    exact Option.some.inj (hvalue.symm.trans hvalue')

/-! ### The loop and the re-anchor -/

theorem HeaderChain.canonicalEntry_of_mem (h : HeaderChain F c) (hb : b ∈ c) (hn : b.lastStep ≤ n) :
    ∃ e ∈ c, canonicalEntryAtOrBelowStep c n = some e ∧ b.lastStep ≤ e.lastStep ∧
      e.lastStep ≤ n := by
  obtain ⟨l, r, rfl⟩ := append_of_mem hb
  have hl : ∀ x ∈ l, decide (x.lastStep ≤ n) = true := by
    intro x hx
    have := ((pairwise_append.mp h.pairwise).2.2 x hx b mem_cons_self).1
    exact decide_eq_true (by omega)
  have hwhile : (l ++ b :: r).takeWhile (fun x => decide (x.lastStep ≤ n)) =
      l ++ b :: r.takeWhile fun x => decide (x.lastStep ≤ n) := by
    rw [takeWhile_append_of_pos hl, takeWhile_cons, if_pos (decide_eq_true hn)]
  obtain ⟨e, he⟩ : ∃ e, (b :: r.takeWhile fun x => decide (x.lastStep ≤ n)).getLast? = some e :=
    ⟨_, getLast?_eq_some_getLast (cons_ne_nil _ _)⟩
  have hlast : canonicalEntryAtOrBelowStep (l ++ b :: r) n = some e := by
    rw [canonicalEntryAtOrBelowStep, hwhile, getLast?_append, he]
    rfl
  have hmem := mem_of_getLast? he
  have hbr := h.of_infix (suffix_append l (b :: r)).isInfix
  rcases mem_cons.mp hmem with rfl | her
  · exact ⟨e, hb, hlast, le_rfl, hn⟩
  · have her' : e ∈ r := takeWhile_subset _ her
    have hen := mem_takeWhile_imp her
    exact ⟨e, by simp [her'], hlast, (hbr.precedes_of_mem her').1.le, of_decide_eq_true hen⟩

/-- **What the loop folds.**  A step stored on a boundary is folded with the seed that any canonical
block of the period before it pins. -/
theorem VdfLoop.iterate_hash (h : HeaderChain cfg.resetFrequency c) {notOnchainCount depth : ℕ}
    {l l' : VdfLoop} {step : H256}
    (hrun : l.iterate sha256 cfg (canonicalVdfSnapshot c notOnchainCount depth)
      = .ok (l', some step))
    (hdvd : cfg.resetFrequency ∣ l'.globalStepNumber) (hb : b ∈ c)
    (hlow : l'.globalStepNumber - cfg.resetFrequency ≤ b.lastStep)
    (hhigh : b.lastStep < l'.globalStepNumber) :
    l'.hash = applyResetSeed sha256 step b.nextSeed := by
  rw [VdfLoop.iterate, bind_eq_ok] at hrun
  obtain ⟨next, hnext, hrun⟩ := hrun
  rw [expect_eq_ok, checkedAdd_eq_some] at hnext
  split at hrun
  · have hnone := congrArg Prod.snd (Except.ok.inj hrun)
    cases hnone
  · rw [bind_eq_ok] at hrun
    obtain ⟨checkpoints, -, hrun⟩ := hrun
    obtain ⟨rfl, hstep⟩ := Prod.mk.inj (Except.ok.inj hrun)
    rw [← Option.some.inj hstep]
    simp only at hdvd hlow hhigh ⊢
    have hcur : ∀ o, (l.observe o).globalStepNumber = l.globalStepNumber := by
      intro o
      cases o <;> rfl
    rw [hcur] at hnext
    obtain ⟨e, hec, hentry, hbe, hen⟩ :=
      h.canonicalEntry_of_mem hb (n := l.globalStepNumber) (by omega)
    obtain ⟨tip, htip⟩ : ∃ tip, c.getLast? = some tip :=
      ⟨_, getLast?_eq_some_getLast (ne_nil_of_mem hb)⟩
    have hsnap : (l.observe (canonicalVdfSnapshot c notOnchainCount depth
        l.globalStepNumber)).nextResetSeed = e.nextSeed := by
      rw [canonicalVdfSnapshot, htip]
      simp [VdfLoop.observe, hentry]
    rw [processReset, if_pos (Nat.mod_eq_zero_of_dvd hdvd), hsnap,
      h.nextSeed_eq_of_period hdvd hb hec hlow hbe (by omega)]

theorem reanchorTail_trace {seedAt : ℕ → H256} {nextSeed : H256} {count : ℕ} {last : H256}
    {tail : List H256}
    (hrun : reanchorTail sha256 cfg nextSeed n
      (resetBefore sha256 n prev cfg.resetFrequency (seedAt n)) count = .ok (tail, last))
    (hseed : ∀ m, n < m → seedAt m = nextSeed) :
    Trace (NextStep sha256 cfg seedAt) n prev tail ∧ tail.length = count := by
  induction count generalizing n prev last tail with
  | zero =>
    cases hrun
    exact ⟨trivial, rfl⟩
  | succ count ih =>
    rw [reanchorTail, bind_eq_ok] at hrun
    obtain ⟨checkpoints, hcheck, hrun⟩ := hrun
    rw [bind_eq_ok] at hrun
    obtain ⟨⟨rest, last'⟩, hrest, hrun⟩ := hrun
    have hrun := Prod.mk.inj (Except.ok.inj hrun)
    have hfold : ∀ step, processReset sha256 (n + 1) step cfg.resetFrequency nextSeed =
        resetBefore sha256 (n + 1) step cfg.resetFrequency (seedAt (n + 1)) := by
      intro step
      simp [processReset, resetBefore, hseed (n + 1) (Nat.lt_succ_self n)]
    rw [hfold] at hrest
    obtain ⟨htrace, hlen⟩ := ih hrest fun m hm => hseed m (by omega)
    rw [← hrun.1]
    exact ⟨⟨⟨checkpoints, hcheck, rfl⟩, htrace⟩, by rw [length_cons, hlen]⟩

/-- A request built from a canonical tip, whose window ends with the tip's last step. -/
structure ReanchorRequest.FromTip (r : ReanchorRequest) (tip : VdfHeader) : Prop where
  cStep : r.cStep = tip.lastStep
  seed : r.seed = tip.seed
  nextSeed : r.nextSeed = tip.nextSeed
  window : r.canonicalSeeds.getLast? = some tip.vdfLimiterInfo.output

/-- **What a re-anchor writes.**  Above the tip the rewritten buffer holds the steps of any chain
through the tip that is paced from there. -/
theorem applyReanchor_agrees (h : StepChain sha256 cfg c) {tip : VdfHeader}
    (hpaced : Paced cfg.resetFrequency tip.lastStep c) (htip : tip ∈ c) (hpos : 0 < tip.lastStep)
    {request : ReanchorRequest} (hreq : request.FromTip tip) {liveStep : ℕ} {seeds : List H256}
    {newHash newNextSeed : H256}
    (hrun : applyReanchor sha256 cfg request liveStep = .ok (.healed seeds newHash newNextSeed))
    (hlow : tip.lastStep < n) (hhigh : n ≤ liveStep) (hat : StepAt c n value) :
    seeds[request.canonicalSeeds.length + (n - tip.lastStep - 1)]? = some value := by
  obtain ⟨l, r, rfl⟩ := append_of_mem htip
  rw [applyReanchor, hreq.window, hreq.cStep, hreq.seed, hreq.nextSeed] at hrun
  simp only at hrun
  split at hrun
  · cases hrun
  · split at hrun
    · cases hrun
    · next hbound =>
        rw [bind_eq_ok] at hrun
        obtain ⟨⟨tail, last⟩, htail, hrun⟩ := hrun
        have hrun := ReanchorOutcome.healed.inj (Except.ok.inj hrun)
        have hstart : processReset sha256 tip.lastStep tip.vdfLimiterInfo.output cfg.resetFrequency
            tip.seed = resetBefore sha256 tip.lastStep tip.vdfLimiterInfo.output
              cfg.resetFrequency (tip.seedAbove tip.lastStep) := by
          simp [processReset, resetBefore, VdfHeader.seedAbove, hpos]
        rw [hstart] at htail
        obtain ⟨htrace, hlen⟩ := reanchorTail_trace htail fun m hm => by
          rw [VdfHeader.seedAbove, if_neg (by omega)]
        have hle := firstDivergentBoundary_le tip.lastStep cfg.resetFrequency
        obtain ⟨value', hvalue'⟩ := exists_at (show n - tip.lastStep - 1 < tail.length by omega)
        rw [← hrun.1, getElem?_append_right (by omega), Nat.add_sub_cancel_left, hvalue',
          h.value_eq_of_trace hpaced htrace hlow (by omega) hat hvalue']

end Traces

/-- **One reset seed per boundary.**  On a chain of headers the validated seeds are the pinned ones
exactly when the chain is pinned.  The loop folds, at a boundary, the seed that every canonical
block of the period before it pins.  A re-anchor writes the steps of a chain that is paced from its
tip on, and two chains paced from one block on agree on every step up to the first boundary at which
forks can differ. -/
theorem one_reset_seed_per_boundary (sha256 : List UInt8 → H256) (cfg : VdfConfig) :
    (∀ c, HeaderChain cfg.resetFrequency c →
      (OneSeedPerBoundary cfg.resetFrequency c ↔ Pinned cfg.resetFrequency c)) ∧
    (∀ c, HeaderChain cfg.resetFrequency c → ∀ (notOnchainCount depth : ℕ) (l l' : VdfLoop) step,
      l.iterate sha256 cfg (canonicalVdfSnapshot c notOnchainCount depth) = .ok (l', some step) →
      cfg.resetFrequency ∣ l'.globalStepNumber → ∀ b ∈ c,
      l'.globalStepNumber - cfg.resetFrequency ≤ b.lastStep → b.lastStep < l'.globalStepNumber →
      l'.hash = applyResetSeed sha256 step b.nextSeed) ∧
    (∀ c, StepChain sha256 cfg c → ∀ tip ∈ c, Paced cfg.resetFrequency tip.lastStep c →
      0 < tip.lastStep → ∀ (request : ReanchorRequest) liveStep seeds newHash newNextSeed,
      request.FromTip tip →
      applyReanchor sha256 cfg request liveStep = .ok (.healed seeds newHash newNextSeed) →
      ∀ n value, tip.lastStep < n → n ≤ liveStep → StepAt c n value →
      seeds[request.canonicalSeeds.length + (n - tip.lastStep - 1)]? = some value) ∧
    (∀ c c', StepChain sha256 cfg c → StepChain sha256 cfg c' → HashesIdentify c c' →
      ∀ s ∈ c, s ∈ c' → Paced cfg.resetFrequency s.lastStep c →
      Paced cfg.resetFrequency s.lastStep c' →
      ∀ n ≤ firstDivergentBoundary s.lastStep cfg.resetFrequency, ∀ value value',
      StepAt c n value → StepAt c' n value' → value = value') :=
  ⟨fun _ h => h.oneSeedPerBoundary_iff,
    fun _ h _ _ _ _ _ hrun hdvd _ hb hlow hhigh => VdfLoop.iterate_hash h hrun hdvd hb hlow hhigh,
    fun _ h _ htip hpaced hpos _ _ _ _ _ hreq hrun _ _ hlow hhigh hat =>
      applyReanchor_agrees h hpaced htip hpos hreq hrun hlow hhigh hat,
    fun _ _ h h' hid _ hs hs' hpaced hpaced' _ hn _ _ hat hat' =>
      h.agree h' hpaced hpaced' hid hs hs' hn hat hat'⟩

/-! ### A chain of three blocks -/

/-- SHA-256 as the step code uses it. -/
def sha256Number (bytes : List UInt8) : H256 := fromBe (Sha256.digest bytes)

/-- A boundary at every second step, one hash a step. -/
def shortPeriods : VdfConfig := ⟨2, 1, 1, Nat.two_pos, Nat.one_pos⟩

/-- A header of which only the delay-function fields and the hashes matter. -/
def vdfHeader (blockHash previousBlockHash : H256) (v : VDFLimiterInfo) : VdfHeader :=
  ⟨.bare blockHash previousBlockHash 0, v⟩

/-- Step 1. -/
def firstBlock : VdfHeader := vdfHeader 10 0 ⟨1, 1, 5, 7, 0, [], [1], by decide⟩

/-- The value of step 2. -/
def stepTwo : H256 :=
  35575299877614154046003069121039603851697057715011957702758658298344725550274

/-- The value of step 3 after a reset with the seed 7. -/
def stepThree : H256 :=
  80694603488719147958476216873057719114333248603708766898871118838300039537609

/-- Step 2, a boundary. -/
def boundaryBlock : VdfHeader :=
  vdfHeader 11 10 ⟨stepTwo, 2, 7, 10, 1, [stepTwo], [stepTwo], by decide⟩

/-- Step 3 alone: it takes its parent's seeds over, under the block hash `h`. -/
def pacedBlock (h : H256) : VdfHeader :=
  vdfHeader h 11 ⟨stepThree, 3, 7, 10, stepTwo, [stepThree], [stepThree], by decide⟩

/-- Steps 3 and 4: it holds the boundary 4 and takes its parent's next seed for the boundary 2. -/
def outpacingBlock : VdfHeader :=
  let third := 112980744881124652736163993707666815078857753559862026119649390003633260503
  let fourth := 9897486500360616391592952840464811163155756462304514802600745822054697158963
  vdfHeader 12 11 ⟨fourth, 4, 10, 11, stepTwo, [fourth], [third, fourth], by decide⟩

instance (sha256 : List UInt8 → H256) (cfg : VdfConfig) (parent block : VdfHeader) :
    Decidable (StepsFollow sha256 cfg parent block) :=
  decidable_of_iff' _ (stepsFollow_iff ..)

instance (sha256 : List UInt8 → H256) (cfg : VdfConfig) (c : List VdfHeader) :
    Decidable (StepChain sha256 cfg c) :=
  decidable_of_iff' _ (stepChain_iff ..)

instance (c c' : List VdfHeader) : Decidable (HashesIdentify c c') :=
  inferInstanceAs (Decidable (∀ b ∈ c, ∀ b' ∈ c', _ → _))

/-- **A block that outpaces its parent breaks the rule.**  It passes every check, folds another seed
at the boundary than the period before has pinned, and its first step differs from that of a fork
with the same parent long before the first boundary at which forks should differ. -/
theorem outpacing_block_folds_other_seed :
    StepChain sha256Number shortPeriods [firstBlock, boundaryBlock, outpacingBlock] ∧
    StepChain sha256Number shortPeriods [firstBlock, boundaryBlock, pacedBlock 13] ∧
    HashesIdentify [firstBlock, boundaryBlock, outpacingBlock]
      [firstBlock, boundaryBlock, pacedBlock 13] ∧
    ¬ OneSeedPerBoundary shortPeriods.resetFrequency
      [firstBlock, boundaryBlock, outpacingBlock] ∧
    3 ≤ firstDivergentBoundary boundaryBlock.lastStep shortPeriods.resetFrequency ∧
    ∃ value value', StepAt [firstBlock, boundaryBlock, outpacingBlock] 3 value ∧
      StepAt [firstBlock, boundaryBlock, pacedBlock 13] 3 value' ∧ value ≠ value' := by
  refine ⟨by decide +kernel, by decide +kernel, by decide +kernel, ?_, by decide +kernel, ?_⟩
  · intro hone
    have hseed := hone 2 (by decide) (by decide) outpacingBlock (by simp) (by decide +kernel)
      (by decide +kernel) firstBlock (by simp) (by decide +kernel) (by decide +kernel)
    exact absurd hseed (by decide +kernel)
  · exact ⟨outpacingBlock.vdfLimiterInfo.steps.headD 0, stepThree,
      ⟨outpacingBlock, by simp, by decide +kernel, by decide +kernel, by decide +kernel⟩,
      ⟨pacedBlock 13, by simp, by decide +kernel, by decide +kernel, by decide +kernel⟩,
      by decide +kernel⟩

theorem one_reset_seed_per_boundary_three_blocks :
    (∀ x ∈ [firstBlock, boundaryBlock, pacedBlock 13], x.firstStep ≤ 3 → 3 ≤ x.lastStep →
      x.seed = firstBlock.nextSeed) ∧
    (∃ l' step, VdfLoop.iterate sha256Number shortPeriods (canonicalVdfSnapshot [firstBlock] 0 0)
        ⟨1, 1, 0, 0⟩ = .ok (l', some step) ∧ l'.hash = applyResetSeed sha256Number step 7) ∧
    (∃ seeds newHash newNextSeed,
      applyReanchor sha256Number shortPeriods ⟨[1, stepTwo], 2, 7, 10⟩ 3
        = .ok (.healed seeds newHash newNextSeed) ∧ seeds[2]? = some stepThree) ∧
    ∀ value, StepAt [firstBlock, boundaryBlock, pacedBlock 13] 3 value → value = stepThree := by
  obtain ⟨hiff, hloop, hreanchor, hagree⟩ := one_reset_seed_per_boundary sha256Number shortPeriods
  have hchain : StepChain sha256Number shortPeriods
      [firstBlock, boundaryBlock, pacedBlock 13] := by decide +kernel
  have hchain' : StepChain sha256Number shortPeriods
      [firstBlock, boundaryBlock, pacedBlock 14] := by decide +kernel
  have hpaced : ∀ L h, Paced shortPeriods.resetFrequency L
      [firstBlock, boundaryBlock, pacedBlock h] :=
    fun L h => by simp [Paced, Outpaces, firstBlock, boundaryBlock, pacedBlock, vdfHeader,
      shortPeriods]
  have hat : ∀ h, StepAt [firstBlock, boundaryBlock, pacedBlock h] 3 stepThree := fun h =>
    ⟨pacedBlock h, by simp, (by decide : (pacedBlock 0).firstStep ≤ 3),
      (by decide : 3 ≤ (pacedBlock 0).lastStep), rfl⟩
  refine ⟨?_, ?_, ?_, ?_⟩
  · have hone := (hiff _ hchain.headers).mpr ((hpaced _ 13).pinned hchain.headers)
    exact fun x hx hlow hhigh => hone 2 (by decide) (by decide) x hx hlow hhigh firstBlock (by simp)
      (by decide) (by decide)
  · have hrun : VdfLoop.iterate sha256Number shortPeriods (canonicalVdfSnapshot [firstBlock] 0 0)
        ⟨1, 1, 0, 0⟩ = .ok (⟨2, applyResetSeed sha256Number stepTwo 7, 7, 1⟩, some stepTwo) := by
      decide +kernel
    exact ⟨_, _, hrun, hloop [firstBlock] (by decide) 0 0 _ _ _ hrun (by decide) firstBlock (by simp)
      (by decide) (by decide)⟩
  · obtain ⟨seeds, newHash, newNextSeed, hrun⟩ : ∃ seeds newHash newNextSeed,
        applyReanchor sha256Number shortPeriods ⟨[1, stepTwo], 2, 7, 10⟩ 3
          = .ok (.healed seeds newHash newNextSeed) :=
      ⟨[1, stepTwo, stepThree], stepThree, 10, by decide +kernel⟩
    exact ⟨seeds, newHash, newNextSeed, hrun,
      hreanchor _ hchain boundaryBlock (by simp) (hpaced _ 13) (by decide) _ 3 seeds newHash
        newNextSeed ⟨rfl, rfl, rfl, rfl⟩ hrun 3 stepThree (by decide) le_rfl (hat 13)⟩
  · intro value hvalue
    exact hagree _ _ hchain hchain' (by decide +kernel) boundaryBlock (by simp) (by simp)
      (hpaced _ 13) (hpaced _ 14) 3 (by decide) value stepThree hvalue (hat 14)

end Irys.Vdf
