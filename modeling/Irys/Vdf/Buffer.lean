import Irys.Chain.Types

/-!
# The seed buffer

`VdfState` keeps the last seeds in a deque and no index: the place of a step follows from the
current step and the length of the deque.  Local steps, steps of blocks, moves of the canonical tip
and re-anchored windows all change one of the two.

* `storeStep`, `getSteps`, `setCanonicalStep`, `reanchorSeeds`, `createState` — the functions;
* `Tracked` — a state with the seed installed last for each step, and the greatest depth a store
  has seen;
* `Tracked.Aligned` — the deque holds the seeds installed last, up to the current step;
* `seed_buffer_serves_installed` — what every run keeps.
-/

namespace Irys.Vdf

open List

/-! ### The state -/

/-- Why `get_steps` returns no steps. -/
inductive StepsError where
  | noStepsStored
  | unavailableRange (start stop first last : ℕ)
  deriving DecidableEq

/-- `VdfState`, without the mining flag. -/
structure VdfState where
  globalStep : ℕ
  capacity : ℕ
  seeds : List H256
  globalStepFromTheLatestCanonicalBlock : ℕ
  minimumStepToKeep : ℕ
  deriving DecidableEq

namespace VdfState

def setCanonicalStep (s : VdfState) (globalCanonicalStep : ℕ) : VdfState :=
  { s with
    globalStepFromTheLatestCanonicalBlock := globalCanonicalStep
    minimumStepToKeep := globalCanonicalStep - s.capacity }

/-- The seeds that stay when `globalStep` is stored: all, or all but the oldest. -/
def keptSeeds (s : VdfState) (globalStep : ℕ) : List H256 :=
  let vdfDepth := globalStep - s.minimumStepToKeep
  if vdfDepth ≤ s.seeds.length then s.seeds.tail else s.seeds

def storeStep (s : VdfState) (seed : H256) (globalStep : ℕ) : Res StepsError (VdfState × ℕ) := do
  let current := s.globalStep
  if globalStep ≤ current then return (s, current)
  else
    let next ← expect (checkedAdd 64 current 1)
    -- a gap is ignored
    if next ≠ globalStep then return (s, current)
    else
      return ({ s with seeds := s.keptSeeds globalStep ++ [seed], globalStep := next }, globalStep)

/-- `get_steps` of the interval `start..=stop`. -/
def getSteps (s : VdfState) (start stop : ℕ) : Res StepsError (List H256) := do
  let last := s.globalStep
  let first ← expect (checkedAdd 64 (last - s.seeds.length) 1)
  if last < first then fail .noStepsStored
  else if ¬ (first ≤ start ∧ stop ≤ last) then fail (.unavailableRange start stop first last)
  else
    let i ← expect (checkedSub start first)
    let j ← expect (checkedSub stop first)
    -- `VecDeque::range` panics past the end
    if s.seeds.length ≤ j then .error .panic
    else return (s.seeds.drop i).take (j + 1 - i)

/-- `pop_front` as long as there are more than `capacity` seeds. -/
def trimFront (capacity : ℕ) : List H256 → List H256
  | [] => []
  | seed :: seeds => if capacity < (seed :: seeds).length then trimFront capacity seeds
    else seed :: seeds

def reanchorSeeds (s : VdfState) (corrected : List H256) : Res StepsError VdfState :=
  if corrected.isEmpty then .error .panic
  else .ok { s with
    minimumStepToKeep := s.globalStep - s.capacity
    seeds := trimFront s.capacity corrected }

end VdfState

structure VdfBootstrap where
  globalStep : ℕ
  firstStep : ℕ
  orderedSeeds : List H256
  globalStep_lt : globalStep < 2 ^ 64

/-- `create_state`, for the capacity of the configuration. -/
def createState (capacity : ℕ) (b : VdfBootstrap) : Res StepsError VdfState := do
  if b.orderedSeeds.isEmpty then .error .panic
  else if saturatingAdd 64 capacity 1 < b.orderedSeeds.length then .error .panic
  else
    let expectedFirstStep ← expect (checkedSub b.globalStep (b.orderedSeeds.length - 1))
    if expectedFirstStep < 1 then .error .panic
    else if b.firstStep ≠ expectedFirstStep then .error .panic
    else return ⟨b.globalStep, capacity, b.orderedSeeds, b.globalStep, b.globalStep - capacity⟩

/-! ### Runs -/

/-- What happens to the buffer. -/
inductive BufferEvent where
  | store (seed : H256) (globalStep : ℕ)
  | setCanonical (globalCanonicalStep : ℕ)
  | reanchor (corrected : List H256)

/-- Step numbers are machine words; a re-anchored window is not empty and lies in
`1..=current step`. -/
def BufferEvent.Admissible (s : VdfState) : BufferEvent → Prop
  | .store _ globalStep => globalStep < 2 ^ 64
  | .setCanonical _ => True
  | .reanchor corrected => corrected ≠ [] ∧ corrected.length ≤ s.globalStep

/-- The seeds `seeds` are installed for the steps from `first` on. -/
def install (installed : ℕ → Option H256) (first : ℕ) (seeds : List H256) (step : ℕ) :
    Option H256 :=
  if first ≤ step ∧ step < first + seeds.length then seeds[step - first]? else installed step

/-- A state with the seed installed last for each step, and the greatest
`current_step - minimum_step_to_keep` that a store has reached. -/
structure Tracked where
  state : VdfState
  installed : ℕ → Option H256
  depth : ℕ

/-- One call, with what it installs. -/
def Tracked.apply (t : Tracked) : BufferEvent → Res StepsError Tracked
  | .store seed globalStep => do
    let (s, _) ← t.state.storeStep seed globalStep
    if s.globalStep = t.state.globalStep then return { t with state := s }
    else return ⟨s, install t.installed globalStep [seed],
      max t.depth (s.globalStep - s.minimumStepToKeep)⟩
  | .setCanonical globalCanonicalStep =>
    return { t with state := t.state.setCanonicalStep globalCanonicalStep }
  | .reanchor corrected => do
    let s ← t.state.reanchorSeeds corrected
    return { t with
      state := s
      installed := install t.installed (s.globalStep + 1 - corrected.length) corrected }

/-- **The runs of the buffer** from a state that `create_state` returned. -/
inductive BufferRun (capacity : ℕ) (b : VdfBootstrap) : Tracked → Prop where
  | start {s : VdfState} (h : createState capacity b = .ok s) :
    BufferRun capacity b ⟨s, install (fun _ => none) b.firstStep b.orderedSeeds, 0⟩
  | next {t t' : Tracked} {event : BufferEvent} (h : BufferRun capacity b t)
    (hevent : event.Admissible t.state) (happly : t.apply event = .ok t') : BufferRun capacity b t'

/-! ### Alignment -/

/-- **The deque ends at the current step** and holds the seeds installed last. -/
structure Tracked.Aligned (t : Tracked) : Prop where
  nonempty : 0 < t.state.seeds.length
  fits : t.state.seeds.length ≤ t.state.globalStep
  word : t.state.globalStep < 2 ^ 64
  room : 1 ≤ t.state.capacity
  bounded : t.state.seeds.length ≤ max (t.state.capacity + 1) t.depth
  exact : ∀ {i : ℕ}, i < t.state.seeds.length →
    t.installed (t.state.globalStep + 1 - t.state.seeds.length + i) = t.state.seeds[i]?

variable {t t' : Tracked} {capacity : ℕ} {b : VdfBootstrap}

theorem trimFront_eq (capacity : ℕ) (seeds : List H256) :
    VdfState.trimFront capacity seeds = seeds.drop (seeds.length - capacity) := by
  induction seeds with
  | nil => simp [VdfState.trimFront]
  | cons seed seeds ih =>
    rw [VdfState.trimFront, length_cons]
    split
    · rw [ih, show seeds.length + 1 - capacity = seeds.length - capacity + 1 by omega,
        drop_succ_cons]
    · rw [show seeds.length + 1 - capacity = 0 by omega, drop_zero]

theorem install_of_mem (installed : ℕ → Option H256) (first : ℕ) {i : ℕ} {seeds : List H256}
    (hi : i < seeds.length) : install installed first seeds (first + i) = seeds[i]? := by
  rw [install, if_pos (by omega), Nat.add_sub_cancel_left]

theorem createState_aligned {s : VdfState} (hcap : 1 ≤ capacity)
    (h : createState capacity b = .ok s) :
    Tracked.Aligned ⟨s, install (fun _ => none) b.firstStep b.orderedSeeds, 0⟩ ∧
      s.capacity = capacity := by
  rw [createState] at h
  split_ifs at h with hempty hlong
  obtain ⟨first, hfirst, h⟩ := bind_eq_ok.mp h
  rw [expect_eq_ok, checkedSub, Option.ite_none_right_eq_some, Option.some.injEq] at hfirst
  split_ifs at h with hzero hne
  cases h
  have hpos : 0 < b.orderedSeeds.length := length_pos_iff.mpr (by simpa using hempty)
  have hword := b.globalStep_lt
  rw [saturatingAdd] at hlong
  refine ⟨⟨hpos, ?_, hword, hcap, ?_, ?_⟩, rfl⟩
  · dsimp only
    omega
  · dsimp only
    omega
  · intro i hi
    dsimp only at hi ⊢
    rw [show b.globalStep + 1 - b.orderedSeeds.length = b.firstStep by omega]
    exact install_of_mem _ _ hi

/-! ### One call -/

/-- The deque holds a step. -/
def VdfState.Holds (s : VdfState) (step : ℕ) : Prop :=
  s.globalStep < step + s.seeds.length ∧ step ≤ s.globalStep

/-- **What `get_steps` answers**: the seeds installed last for the steps it was asked for, if the
deque holds them, or else an error. -/
theorem getSteps_cases (ht : t.Aligned) {start stop : ℕ} (h : start ≤ stop) :
    (t.state.Holds start ∧ t.state.Holds stop ∧ ∃ seeds, t.state.getSteps start stop = .ok seeds ∧
      seeds.map some = (List.range' start (stop + 1 - start)).map t.installed) ∨
    ¬ (t.state.Holds start ∧ t.state.Holds stop) ∧ ∃ e, t.state.getSteps start stop = fail e := by
  have hpos := ht.nonempty
  have hfits := ht.fits
  have hword := ht.word
  simp only [VdfState.Holds]
  rw [VdfState.getSteps, checkedAdd_of_lt (by omega), expect_some, ok_bind, if_neg (by omega)]
  split_ifs with hin
  · rw [checkedSub_of_le hin.1, expect_some, ok_bind, checkedSub_of_le (hin.1.trans h), expect_some,
      ok_bind, if_neg (by omega)]
    refine .inl ⟨by omega, by omega, _, rfl, ext_getElem? fun i => ?_⟩
    rw [getElem?_map, getElem?_map, getElem?_take, getElem?_drop]
    split_ifs with hi
    · have hat : start - (t.state.globalStep - t.state.seeds.length + 1) + i <
          t.state.seeds.length := by omega
      have hexact := ht.exact hat
      rw [getElem?_eq_getElem hat] at hexact ⊢
      rw [getElem?_range' (by omega), Option.map_some, Option.map_some, ← hexact]
      congr 2
      omega
    · rw [getElem?_eq_none (by rw [length_range']; omega)]
      rfl
  · exact .inr ⟨by omega, _, rfl⟩

theorem holds_iff_served (ht : t.Aligned) (step : ℕ) :
    t.state.Holds step ↔ ∃ seeds, t.state.getSteps step step = .ok seeds := by
  rcases getSteps_cases ht (le_refl step) with ⟨hin, -, seeds, hseeds, -⟩ | ⟨hout, e, he⟩
  · exact ⟨fun _ => ⟨seeds, hseeds⟩, fun _ => hin⟩
  · exact ⟨fun hin => absurd ⟨hin, hin⟩ hout, fun ⟨_, h⟩ => absurd (he.symm.trans h) (fail_ne_ok _ _)⟩

/-- A store adds the step after the current one, and ignores every other. -/
theorem storeStep_cases (s : VdfState) (seed : H256) {globalStep : ℕ} (h : globalStep < 2 ^ 64) :
    (globalStep ≠ s.globalStep + 1 ∧ s.storeStep seed globalStep = .ok (s, s.globalStep)) ∨
    globalStep = s.globalStep + 1 ∧ s.storeStep seed globalStep =
      .ok ({ s with seeds := s.keptSeeds globalStep ++ [seed], globalStep := globalStep },
        globalStep) := by
  rw [VdfState.storeStep]
  split_ifs with hold
  · exact .inl ⟨by omega, rfl⟩
  · rw [checkedAdd_of_lt (by omega), expect_some, ok_bind]
    by_cases hgap : s.globalStep + 1 = globalStep
    · subst hgap
      exact .inr ⟨rfl, if_neg (not_not.mpr rfl)⟩
    · exact .inl ⟨Ne.symm hgap, if_pos hgap⟩

/-- The oldest seed goes only when its step is at or below the minimum to keep. -/
theorem keptSeeds_eq (s : VdfState) (globalStep : ℕ) :
    ∃ k ≤ 1, s.keptSeeds globalStep = s.seeds.drop k ∧
      (k = 0 → s.seeds.length < globalStep - s.minimumStepToKeep) ∧
      (k = 1 → globalStep - s.minimumStepToKeep ≤ s.seeds.length) := by
  rw [VdfState.keptSeeds]
  split_ifs with h
  · exact ⟨1, le_rfl, drop_one.symm, by omega, fun _ => h⟩
  · exact ⟨0, by omega, rfl, by omega, by omega⟩

/-- **One call.**  It returns, keeps the alignment and the capacity, and never moves the current
step back; a store drops no step above the minimum to keep. -/
theorem apply_spec (ht : t.Aligned) {event : BufferEvent} (hevent : event.Admissible t.state) :
    ∃ t', t.apply event = .ok t' ∧ t'.Aligned ∧ t'.state.capacity = t.state.capacity ∧
      t.state.globalStep ≤ t'.state.globalStep ∧
      ∀ seed globalStep, event = .store seed globalStep → ∀ step, t.state.Holds step →
        ¬ t'.state.Holds step → step ≤ t.state.minimumStepToKeep := by
  have hpos := ht.nonempty
  have hfits := ht.fits
  have hword := ht.word
  have hroom := ht.room
  have hbounded := ht.bounded
  cases event with
  | setCanonical globalCanonicalStep =>
    exact ⟨_, rfl, ⟨hpos, hfits, hword, hroom, hbounded, ht.exact⟩, rfl, le_rfl,
      fun _ _ h => nomatch h⟩
  | reanchor corrected =>
    obtain ⟨hne, hlen⟩ := hevent
    have hcorrected : 0 < corrected.length := length_pos_iff.mpr hne
    have hrun : t.state.reanchorSeeds corrected = .ok _ := if_neg (by simpa using hne)
    refine ⟨_, bind_eq_ok.mpr ⟨_, hrun, rfl⟩, ?_, rfl, le_rfl, fun _ _ h => nomatch h⟩
    rw [trimFront_eq]
    constructor <;> simp only [length_drop]
    · omega
    · omega
    · exact hword
    · exact hroom
    · omega
    · intro i hi
      rw [getElem?_drop, ← install_of_mem t.installed
        (t.state.globalStep + 1 - corrected.length) (by omega)]
      congr 1
      omega
  | store seed globalStep =>
    rcases storeStep_cases t.state seed hevent with ⟨-, hrun⟩ | ⟨rfl, hrun⟩
    · refine ⟨t, bind_eq_ok.mpr ⟨_, hrun, if_pos rfl⟩, ht, rfl, le_rfl, ?_⟩
      exact fun _ _ _ step hheld hgone => absurd hheld hgone
    · obtain ⟨k, hk, hkept, hzero, hone⟩ := keptSeeds_eq t.state (t.state.globalStep + 1)
      refine ⟨_, bind_eq_ok.mpr ⟨_, hrun, if_neg (Nat.succ_ne_self _)⟩, ?_, rfl, Nat.le_succ _, ?_⟩
      · rw [hkept]
        constructor <;> simp only [length_append, length_drop, length_singleton]
        · omega
        · omega
        · exact hevent
        · exact hroom
        · omega
        · intro i hi
          by_cases hlast : i = t.state.seeds.length - k
          · rw [getElem?_append_right (by rw [length_drop]; omega), length_drop,
              hlast, Nat.sub_self, install, if_pos (by simp; omega)]
            congr 1
            omega
          · rw [getElem?_append_left (by rw [length_drop]; omega), getElem?_drop,
              install, if_neg (by simp; omega), ← ht.exact (by omega)]
            congr 1
            omega
      · intro _ _ _ step hheld hgone
        simp only [VdfState.Holds, hkept, length_append, length_drop,
          length_singleton] at hheld hgone
        omega

/-! ### Whole runs -/

theorem BufferRun.aligned (hcap : 1 ≤ capacity) (hrun : BufferRun capacity b t) :
    t.Aligned ∧ t.state.capacity = capacity := by
  induction hrun with
  | start h => exact createState_aligned hcap h
  | next _ hevent happly ih =>
    obtain ⟨t₁, happly₁, haligned, hcapacity, -⟩ := apply_spec ih.1 hevent
    cases happly₁.symm.trans happly
    exact ⟨haligned, hcapacity.trans ih.2⟩

/-- **The buffer never serves a wrong step.**  Wherever a run is, `get_steps` answers with an error
or with the seeds installed last for the steps it was asked for, the buffer is not empty, and it is
no longer than the capacity and the depths of its stores allow.  The next call returns, does not
move the current step back, and a store forgets no step above the minimum to keep. -/
theorem seed_buffer_serves_installed (hcap : 1 ≤ capacity) (hrun : BufferRun capacity b t) :
    (∀ start stop, start ≤ stop →
      (∃ e, t.state.getSteps start stop = fail e) ∨
      ∃ seeds, t.state.getSteps start stop = .ok seeds ∧
        seeds.map some = (List.range' start (stop + 1 - start)).map t.installed) ∧
    t.state.seeds ≠ [] ∧ t.state.seeds.length ≤ max (capacity + 1) t.depth ∧
    ∀ event : BufferEvent, event.Admissible t.state → ∃ t', t.apply event = .ok t' ∧
      t.state.globalStep ≤ t'.state.globalStep ∧
      ∀ seed globalStep, event = .store seed globalStep → ∀ step,
        (∃ seeds, t.state.getSteps step step = .ok seeds) →
        (¬ ∃ seeds, t'.state.getSteps step step = .ok seeds) →
        step ≤ t.state.minimumStepToKeep := by
  obtain ⟨ht, hcapacity⟩ := hrun.aligned hcap
  refine ⟨fun start stop h => ?_, ne_nil_of_length_pos ht.nonempty, hcapacity ▸ ht.bounded,
    fun event hevent => ?_⟩
  · rcases getSteps_cases ht h with ⟨-, -, hok⟩ | ⟨-, hfail⟩
    · exact .inr hok
    · exact .inl hfail
  · obtain ⟨t', happly, ht', -, hle, hdrop⟩ := apply_spec ht hevent
    refine ⟨t', happly, hle, ?_⟩
    simp only [← holds_iff_served ht, ← holds_iff_served ht']
    exact hdrop

/-- Step 6 is stored on a window of one step, and then replaced. -/
theorem seed_buffer_serves_installed_after_reanchor :
    ∃ t, BufferRun 1 ⟨5, 5, [50], by decide⟩ t ∧ t.state.getSteps 6 6 = .ok [61] ∧
      t.state.seeds.length ≤ max 2 t.depth := by
  have hstart : BufferRun 1 _ _ := .start (b := ⟨5, 5, [50], by decide⟩) rfl
  have hstore := hstart.next
    (show BufferEvent.Admissible _ (.store 60 6) from (by decide : 6 < 2 ^ 64)) rfl
  have hrun := hstore.next
    (show BufferEvent.Admissible _ (.reanchor [50, 61]) from ⟨by decide, (by decide : 2 ≤ 6)⟩) rfl
  exact ⟨_, hrun, rfl, (seed_buffer_serves_installed le_rfl hrun).2.2.1⟩

end Irys.Vdf
