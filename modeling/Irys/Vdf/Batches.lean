import Irys.Vdf.Hashing

/-!
# Verification against the sequential computation

A step can only be computed after the one before it; the steps of a block can be checked all at
once, since the block claims the value each of them starts from.  The checks come in batches, and a
batch whose values stand in the local step buffer is not hashed again.

* `computeStepCheckpoints`, `sequentialSteps` — the computation of one step, and of a run of them;
* `Batch`, `Split` — the calls of `vdf_step_batch_is_valid` for one block;
* `Split.eq_chain` — accepted batches, one after the other, leave only the sequential steps;
* `verification_agrees_with_sequence` — the checks accept exactly what the computation gives.
-/

namespace Irys.Vdf

open List

/-! ### The sequential computation -/

def computeStepCheckpoints (cfg : VdfConfig) (step : ℕ) (inputSeed resetSeed : H256) :
    Res VdfError (H256 × List H256) := do
  let salt ← stepNumberToSaltNumber cfg (step - 1)
  let seed :=
    if 1 < step ∧ (step - 1) % cfg.resetFrequency = 0 then
      applyResetSeed sha256Number inputSeed resetSeed
    else inputSeed
  Blocks.vdfSha salt seed cfg.numCheckpointsInVdfStep cfg.numIterationsPerCheckpoint
    (List.replicate cfg.numCheckpointsInVdfStep 0)

/-- The values of `count` steps after step `n`, each computed from the one before. -/
def sequentialSteps (cfg : VdfConfig) (resetSeed : H256) :
    (n : ℕ) → (prev : H256) → (count : ℕ) → Res VdfError (List H256)
  | _, _, 0 => .ok []
  | n, prev, count + 1 => do
    let computed ← computeStepCheckpoints cfg (n + 1) prev resetSeed
    let rest ← sequentialSteps cfg resetSeed (n + 1) computed.1 count
    return computed.1 :: rest

/-- The steps that the loop of a producer stores in `count` iterations. -/
def VdfLoop.produce (cfg : VdfConfig) (snapshot : ℕ → Option CanonicalVdfSnapshot) :
    (count : ℕ) → VdfLoop → Res VdfError (List H256)
  | 0, _ => .ok []
  | count + 1, l => do
    let next ← l.iterate sha256Number cfg snapshot
    let rest ← produce cfg snapshot count next.1
    return next.2.toList ++ rest

/-- The salts of the steps up to `last` fit their 64 bits. -/
def NoSaltOverflow (cfg : VdfConfig) (last : ℕ) : Prop :=
  (last - 2) * cfg.numCheckpointsInVdfStep + 1 < 2 ^ 64

section Sequence

variable {cfg : VdfConfig} {resetSeed : H256}

variable {n : ℕ} {snapshot : ℕ → Option CanonicalVdfSnapshot} {l : VdfLoop}

theorem exists_stepNumberToSaltNumber {last : ℕ} (h : NoSaltOverflow cfg last) (hn : n < last) :
    ∃ salt, stepNumberToSaltNumber cfg n = .ok salt := by
  cases n with
  | zero => exact ⟨0, rfl⟩
  | succ n =>
    have hle : n * cfg.numCheckpointsInVdfStep ≤ (last - 2) * cfg.numCheckpointsInVdfStep :=
      Nat.mul_le_mul_right _ (by omega)
    rw [NoSaltOverflow] at h
    refine ⟨n * cfg.numCheckpointsInVdfStep + 1, ?_⟩
    rw [stepNumberToSaltNumber, checkedMul, if_pos (by omega), expect_some, ok_bind,
      checkedAdd_of_lt (by omega), expect_some]

section

variable (hiter : 0 < cfg.numIterationsPerCheckpoint)
include hiter

/-- The step after step `n` is hashed from what validation hashes for it. -/
theorem computeStepCheckpoints_succ (n : ℕ) (prev : H256) :
    computeStepCheckpoints cfg (n + 1) prev resetSeed =
      (stepCheckpoints sha256Number cfg n
        (resetBefore sha256Number n prev cfg.resetFrequency resetSeed) >>= fun checkpoints =>
          .ok (checkpoints.getLastD (resetBefore sha256Number n prev cfg.resetFrequency resetSeed),
            checkpoints)) := by
  have hseed : (if 1 < n + 1 ∧ n % cfg.resetFrequency = 0 then
      applyResetSeed sha256Number prev resetSeed else prev) =
        resetBefore sha256Number n prev cfg.resetFrequency resetSeed := by
    simp only [resetBefore, Nat.lt_add_left_iff_pos]
  rw [computeStepCheckpoints, stepCheckpoints, Nat.add_sub_cancel, hseed, bind_assoc]
  congr 1
  funext salt
  rw [Blocks.vdfSha_eq hiter _ _ _ _ (by rw [length_replicate]),
    drop_of_length_le (by rw [length_replicate]), append_nil]
  rfl

/-- **One step**: what it computes is what validation asks of it. -/
theorem nextStep_iff (n : ℕ) (prev step : H256) :
    NextStep sha256Number cfg (fun _ => resetSeed) n prev step ↔
      ∃ checkpoints,
        computeStepCheckpoints cfg (n + 1) prev resetSeed = .ok (step, checkpoints) := by
  simp only [computeStepCheckpoints_succ hiter, NextStep, bind_eq_ok, Except.ok.injEq,
    Prod.mk.injEq, ← and_assoc, exists_eq_right]

variable {n count : ℕ}

/-- **The run of steps is the trace** of its length. -/
theorem sequentialSteps_eq_ok {prev : H256} {steps : List H256} :
    sequentialSteps cfg resetSeed n prev count = .ok steps ↔
      steps.length = count ∧
        Trace (NextStep sha256Number cfg fun _ => resetSeed) n prev steps := by
  induction count generalizing n prev steps with
  | zero =>
    rw [sequentialSteps, length_eq_zero_iff, Except.ok.injEq, eq_comm]
    exact ⟨fun h => ⟨h, h ▸ trivial⟩, And.left⟩
  | succ count ih =>
    simp only [sequentialSteps, bind_eq_ok, ih, Prod.exists, pure, Except.pure, Except.ok.injEq]
    cases steps with
    | nil => simp
    | cons step rest =>
      simp only [List.cons.injEq, length_cons, Nat.succ_inj, Trace.cons_iff, nextStep_iff hiter]
      constructor
      · intro h
        obtain ⟨_, checkpoints, hcompute, _, ⟨hlen, htrace⟩, rfl, rfl⟩ := h
        exact ⟨hlen, ⟨checkpoints, hcompute⟩, htrace⟩
      · intro h
        obtain ⟨hlen, ⟨checkpoints, hcompute⟩, htrace⟩ := h
        exact ⟨step, checkpoints, hcompute, rest, ⟨hlen, htrace⟩, rfl, rfl⟩

theorem exists_sequentialSteps (hsalt : NoSaltOverflow cfg (n + count))
    (prev : H256) : ∃ chain, sequentialSteps cfg resetSeed n prev count = .ok chain := by
  induction count generalizing n prev with
  | zero => exact ⟨[], rfl⟩
  | succ count ih =>
    obtain ⟨salt, hrun⟩ := exists_stepNumberToSaltNumber hsalt (show n < n + (count + 1) by omega)
    rw [show n + (count + 1) = n + 1 + count by omega] at hsalt
    simp only [sequentialSteps, computeStepCheckpoints_succ hiter, stepCheckpoints, hrun, ok_bind,
      pure_bind]
    exact (ih hsalt _).imp' (_ :: ·) fun chain hchain => bind_eq_ok.mpr ⟨chain, hchain, rfl⟩

end

/-! ### The producer -/

/-- Through `count` steps after step `n` the gate of a producer is open, and it knows `resetSeed`
at the boundaries. -/
def Uninterrupted (cfg : VdfConfig) (snapshot : ℕ → Option CanonicalVdfSnapshot)
    (resetSeed : H256) (n count : ℕ) : Prop :=
  ∀ m, n ≤ m → m < n + count → ∃ s, snapshot m = some s ∧
    isResetBoundaryBlocked (m + 1) cfg.resetFrequency s.confirmedGlobalStepNumber = false ∧
    (cfg.resetFrequency ∣ m + 1 → s.resetSeedForStep = resetSeed)

theorem processReset_succ {seed : H256} (hash : H256)
    (hseed : cfg.resetFrequency ∣ n + 1 → seed = resetSeed) :
    processReset sha256Number (n + 1) hash cfg.resetFrequency seed =
      resetBefore sha256Number (n + 1) hash cfg.resetFrequency resetSeed := by
  rw [processReset, resetBefore]
  by_cases hdvd : (n + 1) % cfg.resetFrequency = 0
  · rw [if_pos hdvd, if_pos ⟨Nat.succ_pos n, hdvd⟩, hseed (Nat.dvd_of_mod_eq_zero hdvd)]
  · rw [if_neg hdvd, if_neg (fun h => hdvd h.2)]

theorem VdfLoop.iterate_of_open
    {s : CanonicalVdfSnapshot} (hs : snapshot l.globalStepNumber = some s)
    (hmax : l.globalStepNumber + 1 < 2 ^ 64)
    (hgate : isResetBoundaryBlocked (l.globalStepNumber + 1) cfg.resetFrequency
      s.confirmedGlobalStepNumber = false) :
    l.iterate sha256Number cfg snapshot =
      (stepCheckpoints sha256Number cfg l.globalStepNumber l.hash >>= fun checkpoints =>
        .ok (⟨l.globalStepNumber + 1, processReset sha256Number (l.globalStepNumber + 1)
            (checkpoints.getLastD l.hash) cfg.resetFrequency s.resetSeedForStep,
            s.resetSeedForStep, s.confirmedGlobalStepNumber⟩,
          some (checkpoints.getLastD l.hash))) := by
  rw [VdfLoop.iterate, hs]
  show (expect (checkedAdd 64 l.globalStepNumber 1) >>= fun next => _) = _
  rw [checkedAdd_of_lt hmax, expect_some, ok_bind]
  exact if_neg (Bool.eq_false_iff.mp hgate)

/-- **A producer stores the sequential steps.**  It folds the reset seed into the hash right after
a boundary, the others right before they use the hash. -/
theorem VdfLoop.produce_eq (hiter : 0 < cfg.numIterationsPerCheckpoint) {count : ℕ}
    (hopen : Uninterrupted cfg snapshot resetSeed n count) (hmax : n + count < 2 ^ 64)
    {prev : H256} (hstep : l.globalStepNumber = n)
    (hhash : l.hash = resetBefore sha256Number n prev cfg.resetFrequency resetSeed) :
    l.produce cfg snapshot count = sequentialSteps cfg resetSeed n prev count := by
  induction count generalizing n prev l with
  | zero => rfl
  | succ count ih =>
    obtain ⟨s, hs, hgate, hboundary⟩ := hopen n le_rfl (by omega)
    subst hstep
    rw [VdfLoop.produce, sequentialSteps, computeStepCheckpoints_succ hiter,
      VdfLoop.iterate_of_open hs (by omega) hgate, hhash]
    generalize l.globalStepNumber = n at *
    cases stepCheckpoints sha256Number cfg n
        (resetBefore sha256Number n prev cfg.resetFrequency resetSeed) with
    | error e => rfl
    | ok checkpoints =>
      have hopen' : Uninterrupted cfg snapshot resetSeed (n + 1) count :=
        fun m hlow hhigh => hopen m (by omega) (by omega)
      simp only [ok_bind]
      generalize checkpoints.getLastD
        (resetBefore sha256Number n prev cfg.resetFrequency resetSeed) = step
      rw [← ih hopen' (by omega) (l := ⟨n + 1, _, s.resetSeedForStep,
        s.confirmedGlobalStepNumber⟩) rfl (processReset_succ step hboundary)]
      rfl

end Sequence

/-! ### The checkpoints of the last step -/

section Checkpoints

variable {sha256 : List UInt8 → H256} {cfg : VdfConfig} {v : VDFLimiterInfo}

/-- **The last step**: its checkpoints pass exactly if they and the output are computed from its
input. -/
theorem lastStepCheckpointsIsValid_iff (hiter : 0 < cfg.numIterationsPerCheckpoint)
    (hlen : v.steps.length ≤ v.globalStepNumber) :
    lastStepCheckpointsIsValid sha256Number cfg v = .ok () ↔
      ∃ last, v.steps.getLast? = some last ∧ v.output = last ∧
        computeStepCheckpoints cfg v.globalStepNumber v.lastStepInput v.seed =
          .ok (last, v.lastStepCheckpoints) := by
  rw [lastStepCheckpointsIsValid_eq_ok, ← exists_and_left]
  refine exists_congr fun last => ?_
  rw [and_left_comm]
  refine and_congr_right fun hlast => ?_
  have hpos : 0 < v.globalStepNumber := (length_pos_of_mem (mem_of_getLast? hlast)).trans_le hlen
  rw [and_iff_right hpos]
  refine and_congr_right fun _ => ?_
  rw [← Nat.sub_add_cancel hpos, computeStepCheckpoints_succ hiter, Nat.add_sub_cancel]
  rw [and_comm, bind_eq_ok]
  constructor
  · intro h
    exact ⟨_, h.1, by rw [getLastD_eq_getLast?, h.2, Option.getD_some]⟩
  · intro h
    obtain ⟨checkpoints, hrun, hret⟩ := h
    obtain ⟨hvalue, rfl⟩ := Prod.mk.inj (Except.ok.inj hret)
    have hsome : v.lastStepCheckpoints ≠ [] :=
      ne_nil_of_length_pos ((stepCheckpoints_eq_ok.mp hrun).1 ▸ cfg.numCheckpointsInVdfStep_pos)
    rw [getLastD_eq_getLast?, getLast?_eq_some_getLast hsome, Option.getD_some] at hvalue
    exact ⟨hrun, by rw [getLast?_eq_some_getLast hsome, hvalue]⟩

end Checkpoints

/-! ### Batches -/

/-- **A call of `vdf_step_batch_is_valid`**: the range of steps, whether it checks the checkpoints
of the last step too, and the step buffer at that time. -/
structure Batch where
  start : ℕ
  stop : ℕ
  verifyLastStepCheckpoints : Bool
  getSteps : ℕ → ℕ → Option (List H256)

namespace Batch

/-- The steps of the block in the range. -/
def steps (b : Batch) (v : VDFLimiterInfo) : List H256 :=
  (v.steps.drop b.start).take (b.stop - b.start)

/-- What the buffer returns for the step numbers of the range. -/
def read (b : Batch) (v : VDFLimiterInfo) : Option (List H256) :=
  b.getSteps (v.firstStepNumber + b.start)
    (v.firstStepNumber + b.start + (b.steps v).length - 1)

/-- The call accepts. -/
def Accepted (b : Batch) (cfg : VdfConfig) (v : VDFLimiterInfo) : Prop :=
  vdfStepBatchIsValid sha256Number cfg b.getSteps v b.start b.stop b.verifyLastStepCheckpoints =
    .ok ()

end Batch

/-- The batches cover the steps from `start` on, one after the other, and only the last of them
checks the checkpoints. -/
def Split (len : ℕ) : (start : ℕ) → List Batch → Prop
  | start, [] => start = len
  | start, b :: batches =>
    b.start = start ∧ start < b.stop ∧ b.stop ≤ len ∧
      (b.verifyLastStepCheckpoints = true → b.stop = len) ∧ Split len b.stop batches

/-- The number of the step before the block's first. -/
def VDFLimiterInfo.stepBefore (v : VDFLimiterInfo) : ℕ := v.globalStepNumber - v.steps.length

/-- **The sequential chain** of as many steps as the block has, up to its last. -/
def VDFLimiterInfo.sequential (v : VDFLimiterInfo) (cfg : VdfConfig) : Res VdfError (List H256) :=
  sequentialSteps cfg v.seed v.stepBefore v.prevOutput v.steps.length

/-- **The buffer is no source of error**: a read fails, disagrees with the block, or returns the
values of the sequential chain. -/
def Batch.ReadsFairly (b : Batch) (cfg : VdfConfig) (v : VDFLimiterInfo) : Prop :=
  b.read v = none ∨ (∃ read, b.read v = some read ∧ read ≠ b.steps v) ∨
    ∃ chain, v.sequential cfg = .ok chain ∧
      b.read v = some ((chain.drop b.start).take (b.stop - b.start))

section Batches

variable {cfg : VdfConfig} {v : VDFLimiterInfo} {b : Batch}

/-- **What a recomputed batch has checked**: its steps are a trace, and the checkpoints returned
are those of its last step. -/
theorem checkSteps_concat {sha256 : List UInt8 → H256} {resetSeed : H256} {n : ℕ} {prev : H256}
    {init checkpoints : List H256} {last : H256} :
    checkSteps sha256 cfg resetSeed n prev (init ++ [last]) = .ok checkpoints ↔
      Trace (NextStep sha256 cfg fun _ => resetSeed) n prev (init ++ [last]) ∧
      stepCheckpoints sha256 cfg (n + init.length) (resetBefore sha256 (n + init.length)
        (init.getLastD prev) cfg.resetFrequency resetSeed) = .ok checkpoints := by
  induction init generalizing n prev with
  | nil =>
    rw [nil_append, checkSteps, bind_eq_ok]
    simp only [fail_ite_eq_ok, not_not, if_true]
    constructor
    · intro h
      obtain ⟨computed, hrun, hlast, hret⟩ := h
      cases hret
      exact ⟨⟨⟨_, hrun, hlast⟩, trivial⟩, hrun⟩
    · intro h
      obtain ⟨⟨⟨computed, hrun, hlast⟩, -⟩, hrun'⟩ := h
      exact ⟨computed, hrun, hlast, hrun.symm.trans hrun'⟩
  | cons step init ih =>
    rw [cons_append, checkSteps, bind_eq_ok]
    have hmore : init ++ [last] ≠ [] := append_ne_nil_of_right_ne_nil _ (by simp)
    simp only [fail_ite_eq_ok, not_not, if_neg hmore, ih, Trace.cons_iff, length_cons, getLastD_cons,
      NextStep, ← and_assoc, exists_and_right, ← Nat.add_assoc, Nat.add_right_comm]

theorem firstStepNumber_eq (hlen : v.steps.length ≤ v.globalStepNumber)
    (hmax : v.globalStepNumber + 1 < 2 ^ 64) : v.firstStepNumber = v.stepBefore + 1 := by
  rw [VDFLimiterInfo.firstStepNumber, saturatingAdd, VDFLimiterInfo.stepBefore]
  omega

/-- **One call.**  It accepts what stands in the buffer, and otherwise a trace, with the checkpoints
of its last step if it is asked for them. -/
theorem Batch.accepted_iff (hfirst : v.firstStepNumber = v.stepBefore + 1)
    (hrange : b.start < b.stop) (hstop : b.stop ≤ v.steps.length) :
    b.Accepted cfg v ↔ b.read v = some (b.steps v) ∨
      ∃ checkpoints, checkSteps sha256Number cfg v.seed (v.stepBefore + b.start)
        ((v.steps.take b.start).getLastD v.prevOutput) (b.steps v) = .ok checkpoints ∧
        (b.verifyLastStepCheckpoints = true → checkpoints = v.lastStepCheckpoints) := by
  have hbefore : checkedSub (v.firstStepNumber + b.start) 1 = some (v.stepBefore + b.start) := by
    rw [hfirst, Nat.add_right_comm]
    exact checkedSub_of_le (by omega)
  rw [Batch.Accepted, vdfStepBatchIsValid, if_neg (Nat.not_le.mpr hrange),
    if_neg (Nat.not_lt.mpr hstop)]
  show (if b.read v = some (b.steps v) then _ else _) = Except.ok () ↔ _
  by_cases hread : b.read v = some (b.steps v)
  · exact iff_of_true (if_pos hread) (.inl hread)
  · rw [if_neg hread, or_iff_right hread, Batch.steps]
    simp only [hbefore, expect_some, ok_bind, bind_eq_ok, fail_ite_eq_ok, and_true, not_and,
      not_not]

variable {chain : List H256} {start : ℕ} {batches : List Batch}

section

variable (hiter : 0 < cfg.numIterationsPerCheckpoint)
    (hfirst : v.firstStepNumber = v.stepBefore + 1)
include hiter hfirst

/-- **A batch extends the agreement with the sequential chain**, from its first step to its last. -/
theorem Batch.Accepted.extend (hrange : b.start < b.stop)
    (hstop : b.stop ≤ v.steps.length) (haccepted : b.Accepted cfg v)
    (hread : b.ReadsFairly cfg v) (hchain : v.sequential cfg = .ok chain)
    (hagree : v.steps.take b.start = chain.take b.start) :
    v.steps.take b.stop = chain.take b.stop := by
  obtain ⟨hlen, htrace⟩ := (sequentialSteps_eq_ok hiter).mp hchain
  have hsteps : b.steps v = (chain.drop b.start).take (b.stop - b.start) := by
    rcases (Batch.accepted_iff hfirst hrange hstop).mp haccepted with hbuffer | hcomputed
    · -- the batch was taken from the buffer
      rcases hread with hnone | hother | hcorrect
      · rw [hnone] at hbuffer
        cases hbuffer
      · obtain ⟨read, hsome, hne⟩ := hother
        exact absurd (Option.some.inj (hsome.symm.trans hbuffer)) hne
      · obtain ⟨chain', hchain', hsome⟩ := hcorrect
        cases hchain.symm.trans hchain'
        exact Option.some.inj (hbuffer.symm.trans hsome)
    · -- it was computed from the step before it, which is the chain's
      obtain ⟨checkpoints, hcheck, -⟩ := hcomputed
      have htrace' := checkSteps_trace hcheck
      rw [hagree] at htrace'
      apply htrace'.eq_of_length (NextStep.functional _) (htrace.segment hrange.le (by omega))
      rw [Batch.steps, length_take, length_take, length_drop, length_drop, hlen]
  rw [show b.stop = b.start + (b.stop - b.start) by omega, take_add, take_add, hagree]
  exact congrArg _ hsteps

/-- **The run of calls**: accepted from `start` on, they leave only the chain. -/
theorem Split.eq_chain (hchain : v.sequential cfg = .ok chain)
    (hsplit : Split v.steps.length start batches)
    (haccepted : ∀ b ∈ batches, b.Accepted cfg v) (hread : ∀ b ∈ batches, b.ReadsFairly cfg v)
    (hagree : v.steps.take start = chain.take start) : v.steps = chain := by
  induction batches generalizing start with
  | nil =>
    have hend : start = v.steps.length := hsplit
    have hlen : chain.length = v.steps.length := ((sequentialSteps_eq_ok hiter).mp hchain).1
    rw [hend, take_length, ← hlen, take_length] at hagree
    exact hagree
  | cons b batches ih =>
    obtain ⟨rfl, hrange, hstop, -, hrest⟩ := hsplit
    have hagree' := (haccepted b mem_cons_self).extend hiter hfirst hrange hstop
      (hread b mem_cons_self) hchain hagree
    exact ih hrest (fun b hb => haccepted b (mem_cons_of_mem _ hb))
      (fun b hb => hread b (mem_cons_of_mem _ hb)) hagree'

end

theorem Split.range {len : ℕ} (h : Split len start batches)
    (hb : b ∈ batches) :
    b.start < b.stop ∧ b.stop ≤ len ∧ (b.verifyLastStepCheckpoints = true → b.stop = len) := by
  induction batches generalizing start with
  | nil => exact absurd hb not_mem_nil
  | cons b' batches ih =>
    obtain ⟨rfl, hrange, hstop, hverify, hrest⟩ := h
    rcases mem_cons.mp hb with rfl | hb
    · exact ⟨hrange, hstop, hverify⟩
    · exact ih hrest hb

section

variable (hiter : 0 < cfg.numIterationsPerCheckpoint) (hlen : v.steps.length ≤ v.globalStepNumber)
include hiter hlen

/-- A batch of valid steps is computed again without an error, and the checkpoints it ends with are
those of the block's last step if it is the last batch. -/
theorem exists_checkSteps (hrange : b.start < b.stop)
    (hstop : b.stop ≤ v.steps.length) (hchain : v.sequential cfg = .ok v.steps) :
    ∃ checkpoints, checkSteps sha256Number cfg v.seed (v.stepBefore + b.start)
        ((v.steps.take b.start).getLastD v.prevOutput) (b.steps v) = .ok checkpoints ∧
      (b.stop = v.steps.length → ∃ value,
        computeStepCheckpoints cfg v.globalStepNumber v.lastStepInput v.seed =
          .ok (value, checkpoints)) := by
  have htrace := ((sequentialSteps_eq_ok hiter).mp hchain).2.segment hrange.le hstop
  have hsteps : (b.steps v).length = b.stop - b.start := by
    rw [Batch.steps, length_take, length_drop]
    omega
  change Trace _ _ _ (b.steps v) at htrace
  rcases eq_nil_or_concat (b.steps v) with hnil | hconcat
  · rw [hnil, length_nil] at hsteps
    omega
  · obtain ⟨init, last, hconcat⟩ := hconcat
    rw [concat_eq_append] at hconcat
    rw [hconcat] at htrace hsteps ⊢
    rw [length_append, length_singleton] at hsteps
    have hfinal := (Trace.append_iff.mp htrace).2.1
    obtain ⟨checkpoints, hrun, -⟩ := hfinal
    refine ⟨checkpoints, checkSteps_concat.mpr ⟨htrace, hrun⟩, ?_⟩
    intro hend
    have hsplit : v.steps = v.steps.take b.start ++ (init ++ [last]) := by
      have hall : (v.steps.drop b.start).take (b.stop - b.start) = v.steps.drop b.start :=
        take_of_length_le (by rw [length_drop, hend])
      rw [← hconcat, Batch.steps, hall, take_append_drop]
    have hinput : v.lastStepInput =
        init.getLastD ((v.steps.take b.start).getLastD v.prevOutput) := by
      rw [VDFLimiterInfo.lastStepInput, ← getLastD_append]
      conv_lhs => rw [hsplit, ← append_assoc, dropLast_concat]
    have hnumber : v.globalStepNumber = v.stepBefore + b.start + init.length + 1 := by
      rw [VDFLimiterInfo.stepBefore]
      omega
    rw [hnumber, computeStepCheckpoints_succ hiter, hinput, hrun]
    exact ⟨_, rfl⟩

/-- **All calls of a split.** -/
theorem Split.accepted_iff (hsalt : NoSaltOverflow cfg v.globalStepNumber)
    (hmax : v.globalStepNumber + 1 < 2 ^ 64)
    (hsplit : Split v.steps.length 0 batches) (hread : ∀ b ∈ batches, b.ReadsFairly cfg v) :
    (∀ b ∈ batches, b.Accepted cfg v) ↔ v.sequential cfg = .ok v.steps ∧
      ∀ b ∈ batches, b.verifyLastStepCheckpoints = true → b.read v ≠ some (b.steps v) → ∃ value,
        computeStepCheckpoints cfg v.globalStepNumber v.lastStepInput v.seed =
          .ok (value, v.lastStepCheckpoints) := by
  have hfirst := firstStepNumber_eq hlen hmax
  -- once the steps are the chain's, a call asks only for the checkpoints
  have hcall : v.sequential cfg = .ok v.steps → ∀ b ∈ batches, (b.Accepted cfg v ↔
      (b.verifyLastStepCheckpoints = true → b.read v ≠ some (b.steps v) → ∃ value,
        computeStepCheckpoints cfg v.globalStepNumber v.lastStepInput v.seed =
          .ok (value, v.lastStepCheckpoints))) := by
    intro hchain b hb
    obtain ⟨hrange, hstop, hlast⟩ := hsplit.range hb
    obtain ⟨checkpoints, hcheck, hvalue⟩ := exists_checkSteps hiter hlen hrange hstop hchain
    rw [Batch.accepted_iff hfirst hrange hstop, hcheck]
    by_cases hbuffer : b.read v = some (b.steps v)
    · simp [hbuffer]
    · simp only [hbuffer, false_or, Except.ok.injEq, exists_eq_left', ne_eq, not_false_eq_true,
        true_imp_iff]
      refine forall_congr' fun hverify => ?_
      obtain ⟨value, hcompute⟩ := hvalue (hlast hverify)
      simp [hcompute]
  constructor
  · intro haccepted
    obtain ⟨chain, hchain⟩ : ∃ chain, v.sequential cfg = .ok chain := by
      apply exists_sequentialSteps hiter
      rwa [VDFLimiterInfo.stepBefore, Nat.sub_add_cancel hlen]
    rw [← hsplit.eq_chain hiter hfirst hchain haccepted hread rfl] at hchain
    exact ⟨hchain, fun b hb => (hcall hchain b hb).mp (haccepted b hb)⟩
  · exact fun h b hb => (hcall h.1 b hb).mpr (h.2 b hb)

end

end Batches

/-! ### Verification and computation -/

/-- **Verification agrees with the sequential computation.**  Both hash loops give the same
checkpoints and seed.  The check of the last step accepts what the step computes from its input.
For every split of a block's steps into batches, with a buffer that does not lie, the calls accept
exactly the sequential chain from the previous output; the batch that is asked for the checkpoints
of the last step and is not read from the buffer also needs them to be the computed ones.  And the
chain is what the loop of a producer stores from the same hash. -/
theorem verification_agrees_with_sequence (cfg : VdfConfig)
    (hiter : 0 < cfg.numIterationsPerCheckpoint) :
    (∀ iterations salt seed numCheckpoints slots, 0 < iterations →
      salt + numCheckpoints < 2 ^ 256 → numCheckpoints ≤ slots.length →
      ∃ checkpoints, checkpoints.length = numCheckpoints ∧
        Blocks.vdfShaVerification iterations salt seed numCheckpoints = .ok checkpoints ∧
        Blocks.vdfSha salt seed numCheckpoints iterations slots =
          .ok (checkpoints.getLastD seed, checkpoints ++ slots.drop numCheckpoints)) ∧
    ∀ v : VDFLimiterInfo, v.steps.length ≤ v.globalStepNumber →
      NoSaltOverflow cfg v.globalStepNumber →
      (lastStepCheckpointsIsValid sha256Number cfg v = .ok () ↔
        ∃ last, v.steps.getLast? = some last ∧ v.output = last ∧
          computeStepCheckpoints cfg v.globalStepNumber v.lastStepInput v.seed =
            .ok (last, v.lastStepCheckpoints)) ∧
      (v.globalStepNumber + 1 < 2 ^ 64 → ∀ batches, Split v.steps.length 0 batches →
        (∀ b ∈ batches, b.ReadsFairly cfg v) →
        ((∀ b ∈ batches, b.Accepted cfg v) ↔ v.sequential cfg = .ok v.steps ∧
          ∀ b ∈ batches, b.verifyLastStepCheckpoints = true → b.read v ≠ some (b.steps v) →
            ∃ value, computeStepCheckpoints cfg v.globalStepNumber v.lastStepInput v.seed =
              .ok (value, v.lastStepCheckpoints))) ∧
      ∀ (snapshot : ℕ → Option CanonicalVdfSnapshot) (l : VdfLoop),
        Uninterrupted cfg snapshot v.seed v.stepBefore v.steps.length →
        l.globalStepNumber = v.stepBefore →
        l.hash = resetBefore sha256Number v.stepBefore v.prevOutput cfg.resetFrequency v.seed →
        l.produce cfg snapshot v.steps.length = v.sequential cfg := by
  constructor
  · intro iterations salt seed numCheckpoints slots hpos hsalt hslots
    exact ⟨_, length_vdfSha _ _ _ _, Blocks.vdfShaVerification_eq iterations salt seed _ hsalt,
      Blocks.vdfSha_eq hpos salt seed _ slots hslots⟩
  · intro v hlen hsalt
    refine ⟨lastStepCheckpointsIsValid_iff hiter hlen, ?_, ?_⟩
    · intro hmax batches hsplit hread
      exact hsplit.accepted_iff hiter hlen hsalt hmax hread
    · intro snapshot l hopen hstep hhash
      have hlast : v.stepBefore + v.steps.length < 2 ^ 64 := by
        have := v.globalStepNumber_lt
        rw [VDFLimiterInfo.stepBefore]
        omega
      exact VdfLoop.produce_eq hiter hopen hlast hstep hhash

instance (cfg : VdfConfig) (last : ℕ) : Decidable (NoSaltOverflow cfg last) :=
  inferInstanceAs (Decidable (_ < _))

instance (b : Batch) (cfg : VdfConfig) (v : VDFLimiterInfo) : Decidable (b.Accepted cfg v) :=
  inferInstanceAs (Decidable (_ = _))

theorem three_lt_word : 3 < 2 ^ 64 := by decide

/-- Steps 2 and 3, with a boundary between them. -/
def twoSteps : VDFLimiterInfo :=
  ⟨stepThree, 3, 7, 10, 1, [stepThree], [stepTwo, stepThree], three_lt_word⟩

/-- One batch without a buffer, and one with a buffer that disagrees. -/
def twoBatches : List Batch :=
  [⟨0, 1, false, fun _ _ => none⟩, ⟨1, 2, true, fun _ _ => some [0]⟩]

theorem verification_agrees_on_two_steps :
    (∃ checkpoints, Blocks.vdfShaVerification 1 255 1 2 = .ok checkpoints ∧
      Blocks.vdfSha 255 1 2 1 [0, 0] = .ok (checkpoints.getLastD 1, checkpoints)) ∧
    lastStepCheckpointsIsValid sha256Number shortPeriods twoSteps = .ok () ∧
    (∀ b ∈ twoBatches, b.Accepted shortPeriods twoSteps) ∧
    VdfLoop.produce shortPeriods (fun _ => some ⟨twoSteps, 3, 7⟩) 2 ⟨1, 1, 7, 3⟩ =
      .ok [stepTwo, stepThree] := by
  obtain ⟨hsha, hblock⟩ := verification_agrees_with_sequence shortPeriods (by decide)
  obtain ⟨hcheckpoints, hbatches, hproduce⟩ := hblock twoSteps (by decide) (by decide)
  have hchain : twoSteps.sequential shortPeriods = .ok [stepTwo, stepThree] := by decide +kernel
  have hlast : computeStepCheckpoints shortPeriods 3 stepTwo 7 = .ok (stepThree, [stepThree]) := by
    decide +kernel
  refine ⟨?_, hcheckpoints.mpr ⟨stepThree, rfl, rfl, hlast⟩, ?_, ?_⟩
  · obtain ⟨checkpoints, -, hverification, hvdf⟩ :=
      hsha 1 255 1 2 [0, 0] (by decide) (by norm_num) (by decide)
    exact ⟨checkpoints, hverification, hvdf.trans (by rw [drop_of_length_le (by decide),
      append_nil])⟩
  · have hsplit : Split twoSteps.steps.length 0 twoBatches :=
      ⟨rfl, by decide, by decide, by decide, rfl, by decide, by decide, by decide, rfl⟩
    have hread : ∀ b ∈ twoBatches, b.ReadsFairly shortPeriods twoSteps := by
      intro b hb
      rcases mem_pair.mp hb with rfl | rfl
      · exact .inl rfl
      · exact .inr (.inl ⟨[0], rfl, by decide⟩)
    exact (hbatches (by decide) twoBatches hsplit hread).mpr
      ⟨hchain, fun _ _ _ _ => ⟨stepThree, hlast⟩⟩
  · rw [← hchain]
    refine hproduce _ _ ?_ rfl rfl
    intro m hlow hhigh
    refine ⟨_, rfl, ?_, fun _ => rfl⟩
    have hm : m < 1 + 2 := hhigh
    interval_cases m <;> rfl

/-- One hash a step, and a boundary at every fourth step. -/
def oneHash : VdfConfig := ⟨4, 1, 1, by decide, Nat.one_pos⟩

/-- A block with one step, of the last number there is. -/
def lastNumber : VDFLimiterInfo :=
  let value := 78753224502185574558735876839287428630588235449707079582613320127690797309066
  ⟨value, 2 ^ 64 - 1, 0, 0, 0, [value], [value], by decide⟩

/-- The sequential steps 2 and 3, with other checkpoints for the last. -/
def wrongCheckpoints : VDFLimiterInfo := { twoSteps with lastStepCheckpoints := [0] }

/-- **Sequential steps that are refused.**  At the last number there is no salt overflows; but the
number of the block's first step saturates one too low, so the batch hashes it with the salt of the
step before.  Below it, a batch that is asked for the last step's checkpoints needs them too. -/
theorem sequential_steps_refused :
    (NoSaltOverflow oneHash lastNumber.globalStepNumber ∧
      lastNumber.steps.length ≤ lastNumber.globalStepNumber ∧
      lastNumber.sequential oneHash = .ok lastNumber.steps ∧
      lastStepCheckpointsIsValid sha256Number oneHash lastNumber = .ok () ∧
      Split lastNumber.steps.length 0 [⟨0, 1, false, fun _ _ => none⟩] ∧
      ¬ Batch.Accepted ⟨0, 1, false, fun _ _ => none⟩ oneHash lastNumber) ∧
    NoSaltOverflow shortPeriods wrongCheckpoints.globalStepNumber ∧
    wrongCheckpoints.steps.length ≤ wrongCheckpoints.globalStepNumber ∧
    wrongCheckpoints.sequential shortPeriods = .ok wrongCheckpoints.steps ∧
    Split wrongCheckpoints.steps.length 0 [⟨0, 2, true, fun _ _ => none⟩] ∧
    ¬ Batch.Accepted ⟨0, 2, true, fun _ _ => none⟩ shortPeriods wrongCheckpoints :=
  ⟨⟨by decide, by decide, by decide +kernel, by decide +kernel,
    ⟨rfl, by decide, by decide, by decide, rfl⟩, by decide +kernel⟩, by decide, by decide,
    by decide +kernel, ⟨rfl, by decide, by decide, by decide, rfl⟩, by decide +kernel⟩

end Irys.Vdf
