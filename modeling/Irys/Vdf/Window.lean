import Irys.Vdf.Seeds

/-!
# The step window of a fork

When the local step buffer does not match a block, the steps it needs are read back from the
headers of its own ancestry.  The walk goes from the block to its parents, copies the part of the
window that each header holds, and stops at the header that holds the window's first step.

* `writeSegment`, `walkWindow`, `buildForkLocalStepWindow` — the function;
* `Link` — a resolved parent whose last step comes right before the first of its child;
* `Filled` — every step of the window above some step is there, from the one header that holds it;
* `fork_local_window_exact` — what is returned is complete and correct, and it is returned.
-/

namespace Irys.Vdf

open List

/-! ### The function -/

/-- The walk ran out of fuel: the source would go on. -/
inductive WindowFault where
  | walkUnfinished
  deriving DecidableEq

/-- The inner loop: copy the header's value of each step to its place in the window. -/
def writeSegment (info : VDFLimiterInfo) (wantStart : ℕ) :
    List ℕ → List H256 → Option (List H256)
  | [], result => some result
  | step :: steps, result => do
    let seed ← info.steps[step - info.firstStepNumber]?
    writeSegment info wantStart steps (result.set (step - wantStart) seed)

/-- The loop of `build_fork_local_step_window`. -/
def walkWindow (resolve : H256 → Option VdfHeader) (wantStart wantEnd : ℕ) :
    ℕ → VdfHeader → List H256 → Res WindowFault (Option (List H256))
  | 0, _, _ => fail .walkUnfinished
  | fuel + 1, header, result =>
    let info := header.vdfLimiterInfo
    let hFirst := info.firstStepNumber
    let hLast := info.globalStepNumber
    let segStart := max wantStart hFirst
    let segEnd := min wantEnd hLast
    match writeSegment info wantStart (List.range' segStart (segEnd + 1 - segStart)) result with
    | none => .ok none
    | some result =>
      if hFirst ≤ wantStart then .ok (some result)
      -- genesis does not reach the start of the window
      else if header.height = 0 then .ok none
      else
        match resolve header.previousBlockHash with
        | none => .ok none
        | some parent =>
          if parent.vdfLimiterInfo.globalStepNumber ≠ hFirst - 1 then .ok none
          else walkWindow resolve wantStart wantEnd fuel parent result

def buildForkLocalStepWindow (fuel : ℕ) (block : VdfHeader) (wantStart wantEnd : ℕ)
    (resolve : H256 → Option VdfHeader) : Res WindowFault (Option (List H256)) :=
  if wantEnd < wantStart then .ok none
  else do
    let len ← expect (checkedAdd 64 (wantEnd - wantStart) 1)
    walkWindow resolve wantStart wantEnd fuel block (List.replicate len 0)

/-! ### One header -/

/-- The step is one of the header's. -/
def Covers (h : VdfHeader) (step : ℕ) : Prop := h.firstStep ≤ step ∧ step ≤ h.lastStep

/-- The value that the header stores for a step. -/
def VdfHeader.storedSeed (h : VdfHeader) (step : ℕ) : Option H256 :=
  h.vdfLimiterInfo.steps[step - h.firstStep]?

section Segment

variable {h : VdfHeader} {wantStart a : ℕ} {result result' : List H256}

/-- **The segment written**: each of its steps has the stored value, and nothing else changed. -/
theorem writeSegment_spec {n : ℕ} (hstart : wantStart ≤ a)
    (hrun : writeSegment h.vdfLimiterInfo wantStart (List.range' a n) result = some result') :
    result'.length = result.length ∧
      (∀ step, a ≤ step → step < a + n → step - wantStart < result.length →
        ∃ seed, h.storedSeed step = some seed ∧ result'[step - wantStart]? = some seed) ∧
      ∀ step, wantStart ≤ step → (step < a ∨ a + n ≤ step) →
        result'[step - wantStart]? = result[step - wantStart]? := by
  induction n generalizing a result with
  | zero =>
    cases hrun
    refine ⟨rfl, ?_, fun _ _ _ => rfl⟩
    intro step hlow hhigh _
    omega
  | succ n ih =>
    rw [range'_succ, writeSegment] at hrun
    obtain ⟨seed, hseed, hrun⟩ := Option.bind_eq_some_iff.mp hrun
    obtain ⟨hlen, hwritten, hkept⟩ := ih (by omega) hrun
    rw [length_set] at hlen hwritten
    refine ⟨hlen, ?_, ?_⟩
    · intro step hlow hhigh hin
      by_cases heq : step = a
      · subst heq
        refine ⟨seed, hseed, ?_⟩
        rw [hkept step hstart (.inl (Nat.lt_succ_self step)), getElem?_set_self hin]
      · exact hwritten step (by omega) (by omega) hin
    · intro step hlow hout
      rw [hkept step hlow (by omega), getElem?_set_ne (by omega)]

theorem exists_writeSegment {n : ℕ}
    (hstored : ∀ step, a ≤ step → step < a + n → (h.storedSeed step).isSome) :
    ∃ result', writeSegment h.vdfLimiterInfo wantStart (List.range' a n) result = some result' := by
  induction n generalizing a result with
  | zero => exact ⟨result, rfl⟩
  | succ n ih =>
    obtain ⟨seed, hseed⟩ := Option.isSome_iff_exists.mp (hstored a le_rfl (by omega))
    rw [range'_succ, writeSegment]
    have hseed : h.vdfLimiterInfo.steps[a - h.vdfLimiterInfo.firstStepNumber]? = some seed :=
      hseed
    rw [hseed]
    exact ih fun step hlow hhigh => hstored step (by omega) (by omega)

/-- **A header stores all its steps**, unless its last step is the last number there is. -/
theorem storedSeed_isSome (hlast : h.lastStep + 1 < 2 ^ 64) {step : ℕ} (hstep : Covers h step) :
    (h.storedSeed step).isSome := by
  obtain ⟨hlow, hhigh⟩ := hstep
  have hfirst : h.firstStep = min (h.lastStep + 1) (2 ^ 64 - 1) - h.vdfLimiterInfo.steps.length :=
    rfl
  have hin : step - h.firstStep < h.vdfLimiterInfo.steps.length := by omega
  rw [VdfHeader.storedSeed, getElem?_eq_getElem hin]
  rfl

theorem firstStep_le_succ (h : VdfHeader) : h.firstStep ≤ h.lastStep + 1 := by
  have hfirst : h.firstStep = min (h.lastStep + 1) (2 ^ 64 - 1) - h.vdfLimiterInfo.steps.length :=
    rfl
  omega

end Segment

/-! ### The ancestry -/

/-- `parent` is what the resolver gives for the parent of `child`, and its last step comes right
before the first of `child`. -/
structure Link (resolve : H256 → Option VdfHeader) (child parent : VdfHeader) : Prop where
  resolved : resolve child.previousBlockHash = some parent
  contiguous : child.firstStep = parent.lastStep + 1

section Walk

variable {resolve : H256 → Option VdfHeader} {wantStart wantEnd : ℕ}
  {header block : VdfHeader} {visited ancestors l : List VdfHeader} {result w : List H256}

theorem pairwise_of_links (hl : l.IsChain (Link resolve)) :
    l.Pairwise fun a b => b.lastStep < a.firstStep := by
  have : IsTrans VdfHeader fun a b => b.lastStep < a.firstStep := by
    constructor
    intro a b c hab hbc
    have := firstStep_le_succ b
    omega
  apply List.IsChain.pairwise
  apply hl.imp
  intro a b hab
  have := hab.contiguous
  omega

/-- **One header of an ancestry holds a step.** -/
theorem eq_of_covers (hl : l.IsChain (Link resolve)) {a b : VdfHeader} {step : ℕ} (ha : a ∈ l)
    (hb : b ∈ l) (hac : Covers a step) (hbc : Covers b step) : a = b := by
  obtain ⟨i, hi, rfl⟩ := getElem_of_mem ha
  obtain ⟨j, hj, rfl⟩ := getElem_of_mem hb
  have hp := pairwise_iff_getElem.mp (pairwise_of_links hl)
  obtain ⟨halow, hahigh⟩ := hac
  obtain ⟨hblow, hbhigh⟩ := hbc
  rcases lt_trichotomy i j with hij | rfl | hij
  · have := hp i j hi hj hij
    omega
  · rfl
  · have := hp j i hj hi hij
    omega

/-- **The window is filled from step `k` on**: every step has the value that a header of the
ancestry which holds it stores for it. -/
structure Filled (headers : List VdfHeader) (wantStart wantEnd k : ℕ) (result : List H256) :
    Prop where
  length : result.length = wantEnd - wantStart + 1
  filled : ∀ step, wantStart ≤ step → k ≤ step → step ≤ wantEnd →
    ∃ h ∈ headers, Covers h step ∧
      ∃ seed, h.storedSeed step = some seed ∧ result[step - wantStart]? = some seed

/-- **One header fills its part.** -/
theorem Filled.segment (hf : Filled visited wantStart wantEnd (header.lastStep + 1) result)
    (hrun : writeSegment header.vdfLimiterInfo wantStart
      (List.range' (max wantStart header.firstStep)
        (min wantEnd header.lastStep + 1 - max wantStart header.firstStep)) result = some w) :
    Filled (visited ++ [header]) wantStart wantEnd header.firstStep w := by
  obtain ⟨hlen, hwritten, hkept⟩ := writeSegment_spec (le_max_left _ _) hrun
  refine ⟨hlen.trans hf.length, ?_⟩
  intro step hstart hfirst hend
  by_cases hlast : step ≤ header.lastStep
  · refine ⟨header, mem_append_right _ (mem_singleton.mpr rfl), ⟨hfirst, hlast⟩, ?_⟩
    apply hwritten step
    · omega
    · omega
    · rw [hf.length]
      omega
  · obtain ⟨h, hmem, hcovers, seed, hseed, hat⟩ := hf.filled step hstart (by omega) hend
    refine ⟨h, mem_append_left _ hmem, hcovers, seed, hseed, ?_⟩
    rw [hkept step hstart (by omega)]
    exact hat

/-- **The walk fills the window** from the headers it visits. -/
theorem walkWindow_filled (fuel : ℕ) : ∀ (header : VdfHeader) (visited : List VdfHeader)
    (result : List H256), walkWindow resolve wantStart wantEnd fuel header result = .ok (some w) →
    Filled visited wantStart wantEnd (header.lastStep + 1) result →
    (visited ++ [header]).IsChain (Link resolve) →
    ∃ rest, (visited ++ header :: rest).IsChain (Link resolve) ∧
      Filled (visited ++ header :: rest) wantStart wantEnd wantStart w := by
  induction fuel with
  | zero =>
    intro header visited result hrun
    cases hrun
  | succ fuel ih =>
    intro header visited result hrun hf hchain
    rw [walkWindow] at hrun
    split at hrun
    · cases hrun
    · next result' hseg =>
        have hf' := hf.segment hseg
        split at hrun
        · next hfirst =>
            cases hrun
            exact ⟨[], hchain, hf'.length, fun step hstart _ hend =>
              hf'.filled step hstart (hfirst.trans hstart) hend⟩
        · next hfirst =>
            split at hrun
            · cases hrun
            · split at hrun
              · cases hrun
              · next parent hresolve =>
                  split at hrun
                  · cases hrun
                  · next hmeets =>
                      -- the parent ends right below, so it takes over where this one stopped
                      have hcontiguous : header.firstStep = parent.lastStep + 1 := by
                        have hne : parent.lastStep = header.firstStep - 1 := not_not.mp hmeets
                        have hlow : ¬ header.firstStep ≤ wantStart := hfirst
                        omega
                      obtain ⟨rest, hchain', hfilled⟩ := ih parent (visited ++ [header]) result'
                        hrun (hcontiguous ▸ hf') (by
                          rw [append_assoc]
                          exact isChain_append_cons_cons.mpr
                            ⟨hchain, ⟨hresolve, hcontiguous⟩, isChain_singleton _⟩)
                      rw [append_assoc] at hchain' hfilled
                      exact ⟨parent :: rest, hchain', hfilled⟩

section

variable (hlast : header.lastStep + 1 < 2 ^ 64)
include hlast

theorem exists_segment (result : List H256) :
    ∃ result', writeSegment header.vdfLimiterInfo wantStart
      (List.range' (max wantStart header.vdfLimiterInfo.firstStepNumber)
        (min wantEnd header.vdfLimiterInfo.globalStepNumber + 1 -
          max wantStart header.vdfLimiterInfo.firstStepNumber)) result = some result' := by
  apply exists_writeSegment
  intro step hlow hhigh
  have hcovers : header.vdfLimiterInfo.firstStepNumber ≤ step ∧
      step ≤ header.vdfLimiterInfo.globalStepNumber := by omega
  exact storedSeed_isSome hlast hcovers

theorem walkWindow_stop
    (hfirst : header.firstStep ≤ wantStart) (fuel : ℕ) (result : List H256) :
    ∃ w, walkWindow resolve wantStart wantEnd (fuel + 1) header result = .ok (some w) := by
  obtain ⟨w, hseg⟩ := exists_segment hlast result
  refine ⟨w, ?_⟩
  rw [walkWindow]
  rw [hseg]
  exact if_pos hfirst

theorem walkWindow_next {parent : VdfHeader}
    (hfirst : ¬ header.firstStep ≤ wantStart) (hheight : header.height ≠ 0)
    (hlink : Link resolve header parent) (fuel : ℕ) (result : List H256) :
    ∃ result', walkWindow resolve wantStart wantEnd (fuel + 1) header result =
      walkWindow resolve wantStart wantEnd fuel parent result' := by
  obtain ⟨result', hseg⟩ := exists_segment hlast result
  refine ⟨result', ?_⟩
  have hmeets : parent.lastStep = header.firstStep - 1 := by
    have := hlink.contiguous
    omega
  rw [walkWindow]
  rw [hseg]
  dsimp only
  rw [if_neg hfirst, if_neg hheight, hlink.resolved]
  exact if_neg (not_not_intro hmeets)

end

/-- **The walk returns** where the ancestry leads to a header that starts at or before the window,
without meeting genesis before. -/
theorem walkWindow_complete (ancestors : List VdfHeader) : ∀ (header : VdfHeader)
    (result : List H256) (fuel : ℕ), header.lastStep + 1 < 2 ^ 64 →
    (header :: ancestors).IsChain (Link resolve) →
    (∃ h ∈ header :: ancestors, h.firstStep ≤ wantStart) →
    (∀ h ∈ header :: ancestors, h.height = 0 → h.firstStep ≤ wantStart) →
    ∃ w, walkWindow resolve wantStart wantEnd (fuel + ancestors.length + 1) header result =
      .ok (some w) := by
  induction ancestors with
  | nil =>
    intro header result fuel hlast _ hcover _
    obtain ⟨h, hmem, hfirst⟩ := hcover
    rw [mem_singleton.mp hmem] at hfirst
    exact walkWindow_stop hlast hfirst _ result
  | cons parent ancestors ih =>
    intro header result fuel hlast hchain hcover hheight
    by_cases hfirst : header.firstStep ≤ wantStart
    · exact walkWindow_stop hlast hfirst _ result
    · obtain ⟨hlink, hchain'⟩ := isChain_cons_cons.mp hchain
      have hpos : header.height ≠ 0 := fun hzero =>
        hfirst (hheight header mem_cons_self hzero)
      obtain ⟨result', hnext⟩ : ∃ result', walkWindow resolve wantStart wantEnd
          (fuel + (parent :: ancestors).length + 1) header result =
            walkWindow resolve wantStart wantEnd (fuel + ancestors.length + 1) parent result' :=
        walkWindow_next hlast hfirst hpos hlink _ result
      rw [hnext]
      have hlast' : parent.lastStep + 1 < 2 ^ 64 := by
        have := hlink.contiguous
        have := firstStep_le_succ header
        omega
      apply ih parent result' fuel hlast' hchain'
      · obtain ⟨h, hmem, hlow⟩ := hcover
        rcases mem_cons.mp hmem with rfl | hmem
        · exact absurd hlow hfirst
        · exact ⟨h, hmem, hlow⟩
      · exact fun h hmem => hheight h (mem_cons_of_mem _ hmem)

end Walk

/-! ### The window -/

/-- **A rebuilt window is complete and correct.**  What is returned for the steps up to the block's
last has one entry for each, and the entry of a step is the value stored for it in the one header
of the walked ancestry that holds the step.  And a window is returned when the ancestry leads, with
step ranges that meet, to a header that starts at or before the window and genesis is not met above
it, for every block whose last step is not the last number there is. -/
theorem fork_local_window_exact (resolve : H256 → Option VdfHeader) (block : VdfHeader)
    (wantStart : ℕ) :
    (∀ fuel w, buildForkLocalStepWindow fuel block wantStart block.lastStep resolve =
        .ok (some w) →
      w.length = block.lastStep - wantStart + 1 ∧
      ∃ ancestors, (block :: ancestors).IsChain (Link resolve) ∧
        ∀ step, wantStart ≤ step → step ≤ block.lastStep →
          ∃ h ∈ block :: ancestors, Covers h step ∧
            (∀ h' ∈ block :: ancestors, Covers h' step → h' = h) ∧
            ∃ seed, h.storedSeed step = some seed ∧ w[step - wantStart]? = some seed) ∧
    (block.lastStep + 1 < 2 ^ 64 → wantStart ≤ block.lastStep →
      ∀ ancestors, (block :: ancestors).IsChain (Link resolve) →
        (∃ h ∈ block :: ancestors, h.firstStep ≤ wantStart) →
        (∀ h ∈ block :: ancestors, h.height = 0 → h.firstStep ≤ wantStart) →
        ∀ fuel, ancestors.length < fuel →
          ∃ w, buildForkLocalStepWindow fuel block wantStart block.lastStep resolve =
            .ok (some w)) := by
  constructor
  · intro fuel w hrun
    rw [buildForkLocalStepWindow] at hrun
    split at hrun
    · cases hrun
    · next hle =>
        obtain ⟨len, hlen, hrun⟩ := bind_eq_ok.mp hrun
        rw [expect_eq_ok, checkedAdd_eq_some] at hlen
        have hstart : Filled [] wantStart block.lastStep (block.lastStep + 1)
            (List.replicate len 0) := by
          refine ⟨by rw [length_replicate, hlen.2], ?_⟩
          intro step _ habove hend
          omega
        obtain ⟨ancestors, hchain, hfilled⟩ :=
          walkWindow_filled fuel block [] _ hrun hstart (isChain_singleton _)
        refine ⟨hfilled.length, ancestors, hchain, ?_⟩
        intro step hlow hhigh
        obtain ⟨h, hmem, hcovers, hseed⟩ := hfilled.filled step hlow hlow hhigh
        exact ⟨h, hmem, hcovers,
          fun h' hmem' hcovers' => eq_of_covers hchain hmem' hmem hcovers' hcovers, hseed⟩
  · intro hlast hle ancestors hchain hcover hheight fuel hfuel
    obtain ⟨more, rfl⟩ := Nat.exists_eq_add_of_lt hfuel
    rw [buildForkLocalStepWindow, if_neg (Nat.not_lt.mpr hle),
      checkedAdd_of_lt (by omega), expect_some, ok_bind, Nat.add_comm ancestors.length more]
    exact walkWindow_complete ancestors block _ more hlast hchain hcover hheight

/-- A header of height 1 with its last step and steps. -/
def windowHeader (blockHash previousBlockHash : H256) (last : Fin (2 ^ 64)) (steps : List H256) :
    VdfHeader :=
  ⟨.bare blockHash previousBlockHash 1, ⟨0, last, 0, 0, 0, [], steps, last.2⟩⟩

/-- Steps 2 and 3, a block without steps on it, and steps 4 and 5 on top. -/
def windowBlocks : List VdfHeader :=
  [windowHeader 12 11 5 [104, 105], windowHeader 11 10 3 [], windowHeader 10 9 3 [102, 103]]

def resolveWindow (hash : H256) : Option VdfHeader :=
  windowBlocks.find? fun h => h.blockHash == hash

theorem fork_local_window_exact_from_three :
    ∃ w, buildForkLocalStepWindow 3 (windowHeader 12 11 5 [104, 105]) 3 5 resolveWindow =
        .ok (some w) ∧ w = [103, 104, 105] ∧ w.length = 3 := by
  obtain ⟨hexact, hreturns⟩ :=
    fork_local_window_exact resolveWindow (windowHeader 12 11 5 [104, 105]) 3
  obtain ⟨w, hw⟩ := hreturns (by decide) (by decide)
    [windowHeader 11 10 3 [], windowHeader 10 9 3 [102, 103]]
    (isChain_cons_cons.mpr ⟨⟨by decide, by decide⟩,
      isChain_cons_cons.mpr ⟨⟨by decide, by decide⟩, isChain_singleton _⟩⟩)
    ⟨windowHeader 10 9 3 [102, 103], by simp, by decide⟩ (by decide) 3 (by decide)
  refine ⟨w, hw, ?_, (hexact 3 w hw).1⟩
  have hrun : buildForkLocalStepWindow 3 (windowHeader 12 11 5 [104, 105]) 3 5 resolveWindow =
      .ok (some [103, 104, 105]) := by decide
  exact Option.some.inj (Except.ok.inj (hw.symm.trans hrun))

/-- **The last number there is.**  The first step of a block with one step and the number `2^64 - 1`
saturates one too low, so that its own step is looked up behind the end of its list: the block
holds the whole window and nothing is returned. -/
theorem window_lost_at_last_number :
    Covers (windowHeader 12 11 (2 ^ 64 - 1) [104]) (2 ^ 64 - 1) ∧
      (windowHeader 12 11 (2 ^ 64 - 1) [104]).lastStep = 2 ^ 64 - 1 ∧
      (windowHeader 12 11 (2 ^ 64 - 1) [104]).vdfLimiterInfo.steps.length = 1 ∧
      (windowHeader 12 11 (2 ^ 64 - 1) [104]).height ≠ 0 ∧
      ∀ fuel, buildForkLocalStepWindow (fuel + 1) (windowHeader 12 11 (2 ^ 64 - 1) [104])
        (2 ^ 64 - 1) (2 ^ 64 - 1) resolveWindow = .ok none :=
  ⟨⟨by decide, by decide⟩, by decide, by decide, by decide, fun _ => rfl⟩

end Irys.Vdf
