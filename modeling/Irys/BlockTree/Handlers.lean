import Irys.BlockTree.Service
import Irys.BlockTree.Walks

/-!
# What an event does to the tree

One inversion per handler: the trees an event can leave, given that the tree before it is sound.
Everything said about runs of the service is read off these.
-/

namespace Irys

open Mut

namespace BlockTreeService

open BlockTree

variable {σ μ ω : Type} {o : Outside σ μ ω} {s s' : BlockTreeService σ}
  {name : H256 → Option IrysBlockHeader}

/-! ### Calls that leave the tree alone -/

/-- The services agree on the tree and the failures. -/
structure SameTree (s s' : BlockTreeService σ) : Prop where
  cache : s'.cache = s.cache
  failures : s'.failures = s.failures

theorem SameTree.refl (s : BlockTreeService σ) : SameTree s s := ⟨rfl, rfl⟩

variable {α : Type} {t t' : BlockTree} {n h : H256} {b : IrysBlockHeader} {st : ChainState}
    {event : Event}

theorem sameTree_onOutside (x : Mut σ ω α) (s : BlockTreeService σ) :
    SameTree s ((onOutside x : Call σ ω α).run s).2 := ⟨rfl, rfl⟩

theorem sameTree_publish (m : TipMove μ) (s : BlockTreeService σ) :
    SameTree s ((publish o m).run s).2 := ⟨rfl, rfl⟩

/-! ### Moving the tip -/

/-- **The tip has moved** to a heavier block `n` that does not tie the heaviest one.  Either the
event then ended early, or the tree was pruned below the new tip. -/
structure Moved (name : H256 → Option IrysBlockHeader) (t : BlockTree) (n : H256)
    (t' : BlockTree) : Prop where
  heavier : ∀ ⦃b c⦄, t.getBlock n = some b → t.getBlock t.tip = some c →
    c.cumulativeDiff < b.cumulativeDiff
  untied : ∀ ⦃b⦄, t.getBlock n = some b → b.cumulativeDiff = t.maxCumulativeDifficulty.1 →
    t.maxCumulativeDifficulty.2 = n
  ready : ∃ st, t.getStatus n = some st ∧ st.isParentReady
  tipAt : ∃ t₁ gone, TipAt t n t₁ ∧ Drops t₁ t' gone ∧ ¬ gone n ∧
    KeepsTop t₁ (t₁.consensusConfig.blockTreeDepth - 1) gone
  sound : t'.Sound name

theorem le_of_validateReorgWithinCacheWindow {forkHeight newTipHeight blockTreeDepth : ℕ} {u : Unit}
    (h : (validateReorgWithinCacheWindow forkHeight newTipHeight blockTreeDepth :
      Res (ServiceError ω) _) = .ok u) : newTipHeight - (blockTreeDepth - 1) ≤ forkHeight := by
  by_contra hlow
  rw [validateReorgWithinCacheWindow, if_pos (not_le.mp hlow)] at h
  cases h

/-- The reading part of `try_move_tip_to` keeps the tip if the block is no heavier or ties the
heaviest, and otherwise moves it across a split inside the cache window. -/
theorem tipMoveDecision_cases {choice : Option (IrysBlockHeader × ReorgSplit)}
    (h : (tipMoveDecision t n : Res (ServiceError ω) _) = .ok choice) :
    ∃ b c, t.getBlock n = some b ∧ t.getBlock t.tip = some c ∧
      ((choice = none ∧ (b.cumulativeDiff ≤ c.cumulativeDiff ∨ t.Ties n b)) ∨
        ∃ split, choice = some (b, split) ∧ c.cumulativeDiff < b.cumulativeDiff ∧ ¬ t.Ties n b ∧
          t.findReorgSplit n c.blockHash = .ok split ∧
          b.height - (t.consensusConfig.blockTreeDepth - 1) ≤ split.lca.height) := by
  unfold tipMoveDecision at h
  cases hn : t.getBlock n with
  | none => rw [hn] at h; cases h
  | some b =>
    cases ht : t.getBlock t.tip with
    | none => rw [hn, ht] at h; cases h
    | some c =>
      simp only [hn, ht] at h
      refine ⟨b, c, rfl, rfl, ?_⟩
      split_ifs at h with hle htie
      · exact .inl ⟨(Except.ok.inj h).symm, .inl hle⟩
      · exact .inl ⟨(Except.ok.inj h).symm, .inr htie⟩
      · obtain ⟨split, hsplit, h⟩ := bind_eq_ok.mp h
        obtain ⟨_, hwindow, h⟩ := bind_eq_ok.mp h
        exact .inr ⟨split, (Except.ok.inj h).symm, not_le.mp hle, htie, mapErr_eq_ok.mp hsplit,
          le_of_validateReorgWithinCacheWindow hwindow⟩

theorem tipMoveDecision_eq_some {newTip : IrysBlockHeader} {split : ReorgSplit}
    (h : (tipMoveDecision t n : Res (ServiceError ω) _) = .ok (some (newTip, split))) :
    t.getBlock n = some newTip ∧ ¬ t.Ties n newTip ∧
      ∃ c, t.getBlock t.tip = some c ∧ c.cumulativeDiff < newTip.cumulativeDiff ∧
        t.findReorgSplit n c.blockHash = .ok split ∧
        newTip.height - (t.consensusConfig.blockTreeDepth - 1) ≤ split.lca.height := by
  obtain ⟨b, c, hb, hc, ⟨hnone, -⟩ | ⟨split', hsome, hlt, htie, hrest⟩⟩ := tipMoveDecision_cases h
  · cases hnone
  · cases hsome
    exact ⟨hb, htie, c, hc, hlt, hrest⟩

theorem run_onCache {err : TreeError → ServiceError ω} {x : Mut BlockTree TreeError α}
    {r : Res TreeError α} (h : x.run s.cache = (r, t)) :
    (onCache err x : Call σ ω _).run s = (mapErr err r, { s with cache := t }) := by
  rw [onCache, run_zoom, h]

theorem run_noted_of_ok {x : Mut BlockTree TreeError α} {a : α} (h : x.run s.cache = (.ok a, t)) :
    (noted x : Call σ ω _).run s = (.ok (.ok a), { s with cache := t }) := by
  rw [noted, run_bind_of_ok (run_onCache (run_attempt_of_ok h))]
  rfl

theorem run_noted_of_fail {x : Mut BlockTree TreeError α} {e : TreeError}
    (h : x.run s.cache = (fail e, t)) :
    (noted x : Call σ ω _).run s =
      (.ok (.error e), { s with cache := t, failures := s.failures ++ [e] }) := by
  rw [noted, run_bind_of_ok (run_onCache (run_attempt_of_fail h))]
  rfl

/-- **The tip moves**: `mark_tip` and the pruning return no error, and then the markers, computed
in between, decide. -/
theorem moveTip_run (o : Outside σ μ ω) (ht : s.cache.Sound name)
    (hb : s.cache.getBlock n = some b) (hcand : s.cache.Candidate n) (huntied : ¬ s.cache.Ties n b)
    (newTip : IrysBlockHeader) (split : ReorgSplit) :
    ∃ t₁ t₂ gone, TipAt s.cache n t₁ ∧ t₁.Sound name ∧ Drops t₁ t₂ gone ∧
      KeepsTop t₁ (t₁.consensusConfig.blockTreeDepth - 1) gone ∧ t₂.Sound name ∧
      (moveTip o n newTip split).run s =
        match mapErr .outside (o.forkChoiceMarkers t₁ s.outside) with
        | .error e => (.error e, { s with cache := t₁ })
        | .ok markers => (do
            rollBack o t₁.consensusConfig.blockMigrationDepth split
            return some ⟨newTip, markers, split⟩ : Call σ ω _).run { s with cache := t₂ } := by
  obtain ⟨t₁, hmark, htip⟩ := markTip_spec ht hb hcand huntied
  have hsound := ht.at_tip hb htip
  obtain ⟨t₂, hprune, hsound₂, gone, hdrops, hkept⟩ :=
    prune_spec hsound (t₁.consensusConfig.blockTreeDepth - 1)
  refine ⟨t₁, t₂, gone, htip, hsound, hdrops, hkept, hsound₂, ?_⟩
  rw [moveTip, run_bind_of_ok (run_noted_of_ok hmark)]
  simp only [run_read_bind]
  cases mapErr ServiceError.outside (o.forkChoiceMarkers t₁ s.outside) with
  | error e => rw [run_bind_of_error (run_lift _ _)]
  | ok markers =>
    rw [run_lift_ok_bind, run_bind_of_ok (run_onCache (s := { s with cache := t₁ }) hprune), note,
      run_update_bind, List.append_nil]

theorem sameTree_rollBack (depth : ℕ) (split : ReorgSplit) (s : BlockTreeService σ) :
    SameTree s ((rollBack o depth split).run s).2 := by
  rw [rollBack]
  split_ifs
  · exact sameTree_onOutside _ s
  · exact SameTree.refl s

section

variable (ht : s.cache.Sound name)
include ht

theorem moveTip_cases (hcand : s.cache.Candidate n) {newTip : IrysBlockHeader} {split : ReorgSplit}
    (hdec : (tipMoveDecision s.cache n : Res (ServiceError ω) _) = .ok (some (newTip, split))) :
    Moved name s.cache n ((moveTip o n newTip split).run s).2.cache ∧
      ((moveTip o n newTip split).run s).2.failures = s.failures ∧
      ((moveTip o n newTip split).run s).1 ≠ .ok none := by
  obtain ⟨hb, huntied, c, hc, hheavier, -⟩ := tipMoveDecision_eq_some hdec
  obtain ⟨t₁, t₂, gone, htip, hsound, hdrops, hkept, hsound₂, hrun⟩ :=
    moveTip_run o ht hb hcand huntied newTip split
  have hmoved : ∀ {t₂ gone}, Drops t₁ t₂ gone →
      KeepsTop t₁ (t₁.consensusConfig.blockTreeDepth - 1) gone → t₂.Sound name →
      Moved name s.cache n t₂ := by
    intro t₂ gone hdrops hkept hsound₂
    have hgone : ¬ gone n := htip.tip ▸ hkept.tip hsound.toCanonical
    refine ⟨?_, ?_, hcand.ready, ⟨t₁, gone, htip, hdrops, hgone, hkept⟩, hsound₂⟩
    · intro b' c' hb' hc'
      cases hb.symm.trans hb'
      cases hc.symm.trans hc'
      exact hheavier
    · intro b' hb' htie
      cases hb.symm.trans hb'
      by_contra hne
      exact huntied ⟨htie, hne⟩
  rw [hrun]
  cases mapErr ServiceError.outside (o.forkChoiceMarkers t₁ s.outside) with
  | error e =>
    refine ⟨hmoved (Drops.refl t₁) (fun _ _ => not_false) hsound, rfl, ?_⟩
    intro h
    cases h
  | ok markers =>
    dsimp only
    have hdone := hmoved hdrops hkept hsound₂
    have hsame := sameTree_rollBack (o := o) t₁.consensusConfig.blockMigrationDepth split
      { s with cache := t₂ }
    cases hback : (rollBack o t₁.consensusConfig.blockMigrationDepth split).run
        { s with cache := t₂ } with
    | mk r s₂ =>
      rw [hback] at hsame
      cases r with
      | error e =>
        rw [run_bind_of_error hback]
        refine ⟨hsame.cache ▸ hdone, hsame.failures, ?_⟩
        intro h
        cases h
      | ok u =>
        rw [run_bind_of_ok hback]
        refine ⟨hsame.cache ▸ hdone, hsame.failures, ?_⟩
        intro h
        cases h

/-- **`try_move_tip_to`**, for a validated block off the chain: the tree stays as it is, or the
tip moves to the block. -/
theorem tryMoveTipTo_cases (hcand : s.cache.Candidate n) :
    ((tryMoveTipTo o n).run s).2.failures = s.failures ∧
      ((((tryMoveTipTo o n).run s).2.cache = s.cache ∧
          (((tryMoveTipTo o n).run s).1 = .ok none →
            (tipMoveDecision s.cache n : Res (ServiceError ω) _) = .ok none) ∧
          ∀ m, ((tryMoveTipTo o n).run s).1 ≠ .ok (some m)) ∨
        (Moved name s.cache n ((tryMoveTipTo o n).run s).2.cache ∧
          (∃ move, (tipMoveDecision s.cache n : Res (ServiceError ω) _) = .ok (some move)) ∧
          ((tryMoveTipTo o n).run s).1 ≠ .ok none)) := by
  rw [tryMoveTipTo, run_read_bind]
  cases hdec : (tipMoveDecision s.cache n : Res (ServiceError ω) _) with
  | error e =>
    rw [run_bind_of_error (run_lift _ _)]
    refine ⟨rfl, .inl ⟨rfl, ?_, ?_⟩⟩
    · intro h
      cases h
    · intro m h
      cases h
  | ok choice =>
    rw [run_lift_ok_bind]
    cases choice with
    | none =>
      refine ⟨rfl, .inl ⟨rfl, fun _ => rfl, ?_⟩⟩
      intro m h
      cases h
    | some p =>
      obtain ⟨hmoved, hfail, hsome⟩ := moveTip_cases (o := o) ht hcand hdec
      exact ⟨hfail, .inr ⟨hmoved, ⟨p, rfl⟩, hsome⟩⟩

theorem tryThenAnnounce_cases (hcand : s.cache.Candidate n) (otherwise : Call σ ω Unit)
    (hquiet : ∀ s, SameTree s (otherwise.run s).2) :
    ((tryMoveTipTo o n >>= announce o otherwise).run s).2.failures = s.failures ∧
      ((((tryMoveTipTo o n >>= announce o otherwise).run s).2.cache = s.cache ∧
          (((tryMoveTipTo o n >>= announce o otherwise).run s).1 = .ok () →
            (tipMoveDecision s.cache n : Res (ServiceError ω) _) = .ok none)) ∨
        (Moved name s.cache n ((tryMoveTipTo o n >>= announce o otherwise).run s).2.cache ∧
          ∃ move, (tipMoveDecision s.cache n : Res (ServiceError ω) _) = .ok (some move))) := by
  obtain ⟨hfail, hcases⟩ := tryMoveTipTo_cases (o := o) ht hcand
  cases hrun : (tryMoveTipTo o n).run s with
  | mk r s₁ =>
    rw [hrun] at hfail hcases
    cases r with
    | error e =>
      rw [run_bind_of_error hrun]
      refine ⟨hfail, hcases.imp ?_ fun h => ⟨h.1, h.2.1⟩⟩
      rintro ⟨hcache, -⟩
      refine ⟨hcache, fun h => ?_⟩
      cases h
    | ok m =>
      rw [run_bind_of_ok hrun]
      have hsame : SameTree s₁ ((announce o otherwise m).run s₁).2 := by
        cases m with
        | none => exact hquiet s₁
        | some m => exact sameTree_publish m s₁
      rw [hsame.failures, hsame.cache]
      refine ⟨hfail, hcases.imp ?_ fun h => ⟨h.1, h.2.1⟩⟩
      rintro ⟨hcache, hnone, hsome⟩
      refine ⟨hcache, fun _ => ?_⟩
      cases m with
      | none => exact hnone rfl
      | some m => exact absurd rfl (hsome m)

/-! ### Events -/

section

variable (name) (t)

/-- **The events that can arrive.**  A pre-validated block is the block its hash names, one above
its parent and heavier; a valid result comes after the parent's. -/
def Arrives : Event → Prop
  | .prevalidated block =>
    name block.blockHash = some block ∧
      ∀ p ∈ t.getBlock block.previousBlockHash,
        block.height = p.height + 1 ∧ p.cumulativeDiff < block.cumulativeDiff
  | .valid hash =>
    ∀ b ∈ t.getBlock hash, ∀ p ∈ t.getStatus b.previousBlockHash, p.isParentReady
  | .invalid _ | .softInternal _ => True

/-- `t'` is `t` with a new block, scheduled for validation. -/
structure Added (b : IrysBlockHeader)
    (t' : BlockTree) : Prop where
  sound : t'.Sound name
  fresh : t.getBlock b.blockHash = none
  block : ∀ y, t'.getBlock y = if b.blockHash = y then some b else t.getBlock y
  status : ∀ y, t'.getStatus y =
    if b.blockHash = y then some (.notOnchain .validationScheduled) else t.getStatus y
  tip : t'.tip = t.tip
  max : t'.maxCumulativeDifficulty =
    if t.maxCumulativeDifficulty.1 < b.cumulativeDiff then (b.cumulativeDiff, b.blockHash)
    else t.maxCumulativeDifficulty
  consensusConfig : t'.consensusConfig = t.consensusConfig

end

/-- **A pre-validated block**: nothing, or a new block. -/
theorem prevalidated_cases
    (harr : Arrives name s.cache (.prevalidated b)) :
    ((onBlockPrevalidated o b).run s).2.failures = s.failures ∧
      (((onBlockPrevalidated o b).run s).2.cache = s.cache ∨
        Added name s.cache b ((onBlockPrevalidated o b).run s).2.cache) := by
  rw [onBlockPrevalidated, run_read_bind]
  by_cases hknown : (s.cache.getBlock b.blockHash).isSome
  · rw [if_pos hknown]
    exact ⟨rfl, .inl rfl⟩
  rw [if_neg hknown]
  rw [Option.not_isSome_iff_eq_none] at hknown
  have hfresh := getBlock_eq_none_iff.mp hknown
  cases hprev : s.cache.blocks[b.previousBlockHash]? with
  | none => exact ⟨rfl, .inl rfl⟩
  | some parentEntry =>
    dsimp only
    cases hsnap : o.createSnapshots b parentEntry with
    | error e =>
      obtain ⟨e', he'⟩ : ∃ e', mapErr ServiceError.outside (.error e : Res ω Unit)
          = .error e' := by
        cases e <;> exact ⟨_, rfl⟩
      rw [he', run_bind_of_error (run_lift _ _)]
      exact ⟨rfl, .inl rfl⟩
    | ok u =>
      obtain ⟨hname, hrise⟩ := harr
      obtain ⟨hheight, hdiff⟩ := hrise _ (getBlock_of_entry hprev)
      let t₁ := (s.cache.place b.blockHash b (.notOnchain .unknown)
        parentEntry).updateLongestChainCache
      have hadd : (addBlock b).run s.cache = (.ok (), t₁) := by
        have hstatus : s.cache.getStatus b.blockHash = none := by
          rw [getStatus, hfresh]
          rfl
        rw [addBlock, run_read_bind, hstatus]
        simp only [reduceCtorEq, if_false]
        rw [addCommon, run_read_bind, hprev]
        rfl
      rw [mapErr_ok, run_lift_ok_bind, run_bind_of_ok (run_onCache hadd), run_update_bind]
      have hst₁ : t₁.getStatus b.blockHash = some (.notOnchain .unknown) := by
        show (s.cache.place _ _ _ _).getStatus _ = _
        rw [getStatus_place hprev hfresh, if_pos rfl]
      have hsched : t₁.markBlockAsValidationScheduled b.blockHash =
          (t₁.setChainState b.blockHash
            (.notOnchain .validationScheduled)).updateLongestChainCache := by
        rw [markBlockAsValidationScheduled, hst₁]
      have hsound₁ : t₁.Sound name := ht.place hprev hfresh hname hheight hdiff
        (by simp) (by simp [ChainState.isParentReady])
      refine ⟨rfl, .inr ?_⟩
      show Added name s.cache b (t₁.markBlockAsValidationScheduled b.blockHash)
      rw [hsched]
      refine ⟨?_, hknown, ?_, ?_, rfl, rfl, rfl⟩
      · apply hsound₁.setChainState hst₁ (by simp) (by simp)
        · intro h
          cases h
        · intro h
          cases h
      · intro y
        rw [getBlock_update, getBlock_setChainState]
        exact getBlock_place hprev hfresh
      · intro y
        rw [getStatus_update, getStatus_setChainState]
        show (if _ then Option.map _ ((s.cache.place _ _ _ _).getStatus y)
          else (s.cache.place _ _ _ _).getStatus y) = _
        rw [getStatus_place hprev hfresh]
        split_ifs <;> rfl

end

theorem prevalidated_outside (o : Outside σ μ ω) (b : IrysBlockHeader) (s : BlockTreeService σ) :
    ((onBlockPrevalidated o b).run s).2.outside = s.outside ∨
      ((onBlockPrevalidated o b).run s).2.outside = ((o.validateBlock b).run s.outside).2 := by
  rw [onBlockPrevalidated, run_read_bind]
  split_ifs
  · exact .inl rfl
  cases s.cache.blocks[b.previousBlockHash]? with
  | none => exact .inl rfl
  | some parentEntry =>
    dsimp only
    cases mapErr ServiceError.outside (o.createSnapshots b parentEntry) with
    | error e =>
      rw [run_bind_of_error (run_lift _ _)]
      exact .inl rfl
    | ok u =>
      rw [run_lift_ok_bind]
      cases hadd : (onCache (.addBlockFailed b.blockHash) (addBlock b) : Call σ ω _).run s with
      | mk r s₁ =>
        have hsame : s₁.outside = s.outside := by
          rw [onCache, run_zoom] at hadd
          rw [← (Prod.mk.inj hadd).2]
        cases r with
        | error e =>
          rw [run_bind_of_error hadd]
          exact .inl hsame
        | ok u =>
          rw [run_bind_of_ok hadd, ← hsame]
          exact .inr rfl

/-- `t'` is `t` with one block, off the chain and waiting for validation, validated. -/
structure Validates (name : H256 → Option IrysBlockHeader) (t : BlockTree) (h : H256)
    (t' : BlockTree) : Prop where
  sound : t'.Sound name
  restated : Restated t t'
  tip : t'.tip = t.tip
  pending : ∃ st, t.getStatus h = some st ∧ st.isParentReady = false
  ready : ∃ st, t'.getStatus h = some st ∧ st ≠ .onchain ∧ st.isParentReady
  same : ∀ ⦃y⦄, y ≠ h → t'.getStatus y = t.getStatus y

/-- `mark_block_as_valid`: an error changes nothing; otherwise the block is validated. -/
theorem markBlockAsValid_cases (ht : t.Sound name) (harr : Arrives name t (.valid h)) :
    (∃ e, (markBlockAsValid h).run t = (fail e, t)) ∨
      ∃ t', (markBlockAsValid h).run t = (.ok (), t') ∧ Validates name t h t' := by
  -- the two arms that write, alike but for the constructor
  have hvalid : ∀ {s s' : ChainState}, t.getStatus h = some s → s ≠ .onchain → s' ≠ .onchain →
      s.isParentReady = false → s'.isParentReady →
      Validates name t h (t.setChainState h s').updateLongestChainCache := by
    intro s s' hs hoff hoff' hpending hready
    refine ⟨?_, (restated_setChainState s').trans (restated_update _), rfl, ⟨s, hs, hpending⟩,
      ⟨s', ?_, hoff', hready⟩, ?_⟩
    · apply ht.setChainState hs hoff hoff'
      · exact fun _ => hready
      · exact fun _ b p hb hp => harr b hb p hp
    · rw [getStatus_update, getStatus_setChainState, if_pos rfl, hs]
      rfl
    · intro y hy
      rw [getStatus_update, getStatus_setChainState, if_neg (Ne.symm hy)]
  rw [markBlockAsValid, run_read_bind]
  match hs : t.getStatus h with
  | none => exact .inl ⟨_, rfl⟩
  | some .onchain => exact .inl ⟨_, rfl⟩
  | some (.validated .unknown) => exact .inl ⟨_, rfl⟩
  | some (.validated .validBlock) => exact .inl ⟨_, rfl⟩
  | some (.notOnchain .unknown) => exact .inl ⟨_, rfl⟩
  | some (.notOnchain .validBlock) => exact .inl ⟨_, rfl⟩
  | some (.validated .validationScheduled) =>
    exact .inr ⟨_, rfl, hvalid hs (by simp) (by simp) rfl rfl⟩
  | some (.notOnchain .validationScheduled) =>
    exact .inr ⟨_, rfl, hvalid hs (by simp) (by simp) rfl rfl⟩

/-! ### All events together -/

/-- The tree before a possible move of the tip. -/
inductive Prepared (name : H256 → Option IrysBlockHeader) (t : BlockTree) :
    Event → BlockTree → Prop
  | added {b : IrysBlockHeader} {t₁ : BlockTree} :
      Added name t b t₁ → Prepared name t (.prevalidated b) t₁
  | validated {h : H256} {t₁ : BlockTree} :
      Validates name t h t₁ → Prepared name t (.valid h) t₁
  | dropped {event : Event} {h : H256} {t₁ : BlockTree} {gone : H256 → Prop} :
      event = .invalid h ∨ event = .softInternal h → t₁.Sound name → Drops t t₁ gone →
      (∀ ⦃y⦄, t.getStatus y = some .onchain → ¬ gone y) → Prepared name t event t₁

/-- When an event does not try to move the tip. -/
def Waits (t₁ : BlockTree) : Event → Prop
  | .prevalidated _ => True
  | .valid _ => t₁.getEarliestNotOnchainInLongestChain = none
  | .invalid _ | .softInternal _ => t₁.getEarliestNotOnchainInLongestChain = none ∨
      t₁.getMaxChainValidatedHead ≠ some t₁.maxCumulativeDifficulty.2

/-- Where an event moves the tip: a valid result to its block, a discard to the heaviest. -/
def Target (t₁ : BlockTree) : Event → H256 → Prop
  | .prevalidated _, _ => False
  | .valid h, n => n = h
  | .invalid _, n | .softInternal _, n => n = t₁.maxCumulativeDifficulty.2

/-- An event that tries to move the tip, to a validated block off the chain. -/
structure Tries (o : Outside σ μ ω) (s₁ : BlockTreeService σ) (event : Event) (n : H256)
    (r : Res (ServiceError ω) Unit × BlockTreeService σ) : Prop where
  target : Target s₁.cache event n
  validated : ∃ st, s₁.cache.getStatus n = some st ∧ st ≠ .onchain ∧ st.isParentReady
  run : ∃ otherwise, (otherwise = onOutside o.persistMetadata ∨ otherwise = pure ()) ∧
    r = (tryMoveTipTo o n >>= announce o otherwise).run s₁

/-- An invalid result for an on-chain block. -/
def Refused (s : BlockTreeService σ) (event : Event)
    (r : Res (ServiceError ω) Unit × BlockTreeService σ) : Prop :=
  ∃ h, event = .invalid h ∧ s.cache.getStatus h = some .onchain ∧
    r = (fail (.discardOfOnchainRefused h),
      { s with failures := s.failures ++ [.cannotRemoveOnchain h] })

/-- **What a validation result does.**  It is refused; or it changes nothing; or it prepares the
tree, and then it waits or tries to move the tip. -/
def ResultRun (o : Outside σ μ ω) (name : H256 → Option IrysBlockHeader)
    (s : BlockTreeService σ) (event : Event)
    (r : Res (ServiceError ω) Unit × BlockTreeService σ) : Prop :=
  Refused s event r ∨ r = (.ok (), s) ∨ ∃ t₁, preparedTree s.cache event = t₁ ∧
    Prepared name s.cache event t₁ ∧
    ((Waits t₁ event ∧ r = (.ok (), { s with cache := t₁ })) ∨
      ∃ n, candidate s.cache event = some n ∧ Tries o { s with cache := t₁ } event n r)

/-- **A valid result.** -/
theorem valid_run (o : Outside σ μ ω) (ht : s.cache.Sound name)
    (harr : Arrives name s.cache (.valid h)) :
    ResultRun o name s (.valid h) ((onValid o h).run s) := by
  rw [onValid, run_read_bind]
  cases hb : s.cache.getBlock h with
  | none => exact .inr (.inl rfl)
  | some b =>
    obtain ⟨c, hc⟩ := ht.exists_tip
    rw [hc]
    dsimp only
    rcases markBlockAsValid_cases ht harr with ⟨e, hrun⟩ | ⟨t₁, hrun, hvalid⟩
    · rw [run_bind_of_ok (run_onCache (run_attempt_of_fail hrun))]
      exact .inr (.inl rfl)
    · rw [run_bind_of_ok (run_onCache (run_attempt_of_ok hrun))]
      simp only [run_read_bind]
      have hprep : preparedTree s.cache (.valid h) = t₁ := by rw [preparedTree, hrun]
      refine .inr (.inr ⟨t₁, hprep, .validated hvalid, ?_⟩)
      by_cases hgate : t₁.getEarliestNotOnchainInLongestChain.isNone
      · rw [if_pos hgate]
        exact .inl ⟨Option.isNone_iff_eq_none.mp hgate, rfl⟩
      · rw [if_neg hgate]
        refine .inr ⟨h, ?_, rfl, hvalid.ready, _, .inl rfl, rfl⟩
        rw [candidate, hprep, if_neg hgate, hrun]
        rfl

theorem removeBlock_onchain (hon : t.getStatus h = some .onchain) :
    (removeBlock h).run t = (fail (.cannotRemoveOnchain h), t) := by
  obtain ⟨e, he, hstate⟩ := exists_entry_of_status hon
  obtain ⟨n, hn⟩ := exists_size_eq_succ he
  rw [removeBlock, run_read_bind, hn, removeSubtree, run_read_bind]
  simp only [he, hstate, if_true]
  rfl

/-- **A discard**: the block and what is below it leave the tree, if it is there and off the
chain.  An invalid result for an on-chain block is refused, and nothing changes. -/
theorem discard_run (ht : s.cache.Sound name) (h : H256) (kind : DiscardKind) :
    (∃ t₁ gone, discarded s.cache h = t₁ ∧
        (kind = .invalid → s.cache.getStatus h ≠ some .onchain) ∧
        (discardAndBroadcast h kind : Call σ ω _).run s =
          (.ok (), { s with cache := t₁ }) ∧ t₁.Sound name ∧ Drops s.cache t₁ gone ∧
        ∀ ⦃y⦄, s.cache.getStatus y = some .onchain → ¬ gone y) ∨
      (kind = .invalid ∧ s.cache.getStatus h = some .onchain ∧
        (discardAndBroadcast h kind : Call σ ω _).run s =
          (fail (.discardOfOnchainRefused h),
            { s with failures := s.failures ++ [.cannotRemoveOnchain h] })) := by
  rw [discardAndBroadcast, run_read_bind, discarded]
  cases hst : s.cache.getStatus h with
  | none =>
    exact .inl ⟨s.cache, _, rfl, fun _ => nofun, rfl, ht, Drops.refl _, fun _ _ => not_false⟩
  | some st =>
    dsimp only
    by_cases hsoft : kind = .softInternal ∧ st = .onchain
    · rw [if_pos hsoft, hsoft.2]
      refine .inl ⟨s.cache, _, rfl, fun hkind => ?_, rfl, ht, Drops.refl _, fun _ _ => not_false⟩
      rw [hsoft.1] at hkind
      cases hkind
    rw [if_neg hsoft]
    by_cases hon : st = .onchain
    · -- the result is invalid
      subst hon
      have hkind : kind = .invalid := by
        cases kind with
        | softInternal => exact absurd ⟨rfl, rfl⟩ hsoft
        | invalid => rfl
      rw [run_bind_of_ok (run_noted_of_fail (removeBlock_onchain hst))]
      exact .inr ⟨hkind, rfl, rfl⟩
    · obtain ⟨t₁, hrun, hsound, hdrops⟩ := ht.removeBlock hst hon
      rw [run_bind_of_ok (run_noted_of_ok hrun)]
      refine .inl ⟨t₁, _, ?_, fun _ heq => hon (Option.some.inj heq), rfl, hsound, hdrops, ?_⟩
      · rw [hrun]
        cases st with
        | onchain => exact absurd rfl hon
        | validated | notOnchain => rfl
      intro y hy hgone
      exact ht.off_of_anc hgone hy hst hon rfl

section

variable (hevent : event = .invalid h ∨ event = .softInternal h)
include hevent

theorem waits_of_discard : Waits t event ↔ t.getEarliestNotOnchainInLongestChain = none ∨
    t.getMaxChainValidatedHead ≠ some t.maxCumulativeDifficulty.2 := by
  rcases hevent with rfl | rfl <;> exact Iff.rfl

theorem target_of_discard : Target t event n ↔ n = t.maxCumulativeDifficulty.2 := by
  rcases hevent with rfl | rfl <;> exact Iff.rfl

end

section

variable (o)

/-- **After a discard** the heaviest block is tried, if it is validated. -/
theorem afterDiscard_run (ht : s.cache.Sound name)
    (hevent : event = .invalid h ∨ event = .softInternal h) :
    (Waits s.cache event ∧ (moveTipAfterDiscard o).run s = (.ok (), s)) ∨
      s.cache.getEarliestNotOnchainInLongestChain.isNone = false ∧
      s.cache.getMaxChainValidatedHead = some s.cache.maxCumulativeDifficulty.2 ∧
      Tries o s event s.cache.maxCumulativeDifficulty.2 ((moveTipAfterDiscard o).run s) := by
  rw [waits_of_discard hevent, moveTipAfterDiscard, run_read_bind]
  by_cases hgate : s.cache.getEarliestNotOnchainInLongestChain.isNone
  · rw [if_pos hgate]
    exact .inl ⟨.inl (Option.isNone_iff_eq_none.mp hgate), rfl⟩
  rw [if_neg hgate]
  by_cases hhead : s.cache.getMaxChainValidatedHead ≠ some s.cache.maxCumulativeDifficulty.2
  · rw [if_pos hhead]
    exact .inl ⟨.inr hhead, rfl⟩
  rw [if_neg hhead]
  obtain ⟨st, hst, hready⟩ := (head_eq_max_iff ht).mp (not_not.mp hhead)
  obtain ⟨c, hc⟩ := ht.exists_tip
  have hlt := heavier_of_gate hc (Option.isSome_iff_ne_none.mpr (by simpa using hgate))
  have hoff := max_off_of_heavier ht hc hlt hst
  exact .inr ⟨eq_false_of_ne_true hgate, not_not.mp hhead, (target_of_discard hevent).mpr rfl,
    ⟨st, hst, hoff, hready⟩, _, .inr rfl, rfl⟩

theorem candidate_of_discard (hprep : preparedTree t event = t')
    (hgate : t'.getEarliestNotOnchainInLongestChain.isNone = false)
    (hhead : t'.getMaxChainValidatedHead = some t'.maxCumulativeDifficulty.2)
    (hevent : event = .invalid h ∧ t.getStatus h ≠ some .onchain ∨ event = .softInternal h) :
    candidate t event = some t'.maxCumulativeDifficulty.2 := by
  unfold candidate
  rw [hprep]
  dsimp only
  rw [hgate, if_neg Bool.false_ne_true, hhead]
  rcases hevent with ⟨rfl, hoff⟩ | rfl
  · exact (if_neg hoff).trans (if_pos (decide_eq_true rfl))
  · exact if_pos (decide_eq_true rfl)

theorem discardThen_run (ht : s.cache.Sound name) (h : H256)
    {kind : DiscardKind}
    (hevent : event = .invalid h ∧ kind = .invalid ∨
      event = .softInternal h ∧ kind = .softInternal) :
    ResultRun o name s event
      ((do discardAndBroadcast h kind; moveTipAfterDiscard o : Call σ ω Unit).run s) := by
  rcases discard_run (ω := ω) ht h kind with
    ⟨t₁, gone, hprep, hinvalid, hrun, hsound, hdrops, hgone⟩ | ⟨hkind, hon, hrun⟩
  · have hdiscard := hevent.imp And.left And.left
    have hprep : preparedTree s.cache event = t₁ := by
      rcases hdiscard with rfl | rfl <;> exact hprep
    rw [run_bind_of_ok hrun]
    refine .inr (.inr ⟨t₁, hprep, .dropped hdiscard hsound hdrops hgone, ?_⟩)
    refine (afterDiscard_run o (s := { s with cache := t₁ }) hsound hdiscard).imp_right ?_
    rintro ⟨hgate, hhead, htries⟩
    exact ⟨_, candidate_of_discard hprep hgate hhead
      (hevent.imp (fun h => ⟨h.1, hinvalid h.2⟩) And.left), htries⟩
  · rcases hevent with ⟨rfl, -⟩ | ⟨-, hsoft⟩
    · refine .inl ⟨h, rfl, hon, ?_⟩
      rw [run_bind_of_error hrun]
      rfl
    · rw [hkind] at hsoft
      cases hsoft

/-- **Every validation result.** -/
theorem result_run (ht : s.cache.Sound name)
    (harr : Arrives name s.cache event) (hresult : ∀ b, event ≠ .prevalidated b) :
    ResultRun o name s event ((handle o event).run s) := by
  cases event with
  | prevalidated b => exact absurd rfl (hresult b)
  | valid h => exact valid_run o ht harr
  | invalid h => exact discardThen_run o ht h (.inl ⟨rfl, rfl⟩)
  | softInternal h => exact discardThen_run o ht h (.inr ⟨rfl, rfl⟩)

end

theorem Added.hash_ne {y : H256} (hadded : Added name t b t') (hy : ∃ c, t.getBlock y = some c) :
    b.blockHash ≠ y := by
  rintro rfl
  obtain ⟨c, hc⟩ := hy
  cases hadded.fresh.symm.trans hc

namespace Prepared

variable {event : Event} {t t₁ : BlockTree}

section

variable (hp : Prepared name t event t₁)
include hp

theorem sound : t₁.Sound name := by
  cases hp with
  | added hadded => exact hadded.sound
  | validated hvalid => exact hvalid.sound
  | dropped _ hsound => exact hsound

theorem tip : t₁.tip = t.tip := by
  cases hp with
  | added hadded => exact hadded.tip
  | validated hvalid => exact hvalid.tip
  | dropped _ _ hdrops => exact hdrops.tip

theorem consensusConfig : t₁.consensusConfig = t.consensusConfig := by
  cases hp with
  | added hadded => exact hadded.consensusConfig
  | validated hvalid => exact hvalid.restated.consensusConfig
  | dropped _ _ hdrops => exact hdrops.consensusConfig

theorem onchain_iff {y : H256} :
    t₁.getStatus y = some .onchain ↔ t.getStatus y = some .onchain := by
  cases hp with
  | added hadded =>
    rw [hadded.status]
    split_ifs with heq
    · exact iff_of_false (by simp) fun hy => hadded.hash_ne (exists_header hy) heq
    · exact Iff.rfl
  | @validated h _ hvalid =>
    by_cases heq : y = h
    · obtain ⟨st, hst, hoff, -⟩ := hvalid.ready
      obtain ⟨st₀, hst₀, hpending⟩ := hvalid.pending
      rw [heq, hst, hst₀]
      refine iff_of_false (fun h => hoff (Option.some.inj h)) fun h => ?_
      rw [Option.some.inj h] at hpending
      cases hpending
    · rw [hvalid.same heq]
  | dropped _ _ hdrops hgone =>
    exact ⟨fun hy => (hdrops.getStatus_of_some hy).1,
      fun hy => (hdrops.keptStatus (hgone hy)).trans hy⟩

theorem onchainBlock {y : H256} (hy : t.getStatus y = some .onchain) :
    t₁.getBlock y = t.getBlock y := by
  cases hp with
  | added hadded => rw [hadded.block, if_neg (hadded.hash_ne (exists_header hy))]
  | validated hvalid => rw [hvalid.restated.getBlock]
  | dropped _ _ hdrops hgone => exact hdrops.kept (hgone hy)

end

theorem tipBlock (ht : t.Sound name) (hp : Prepared name t event t₁) :
    t₁.getBlock t.tip = t.getBlock t.tip :=
  hp.onchainBlock ht.tip_onchain

end Prepared

/-- When a completed event leaves the tip where it is. -/
def Rests (ω : Type) (t₁ : BlockTree) (event : Event) : Prop :=
  Waits t₁ event ∨ ∃ n, Target t₁ event n ∧
    (tipMoveDecision t₁ n : Res (ServiceError ω) _) = .ok none

/-- **Every event**: it is an invalid result for an on-chain block, and refused; or it leaves the
tree alone; or it prepares the tree, and then the tip may move. -/
theorem handle_cases (ht : s.cache.Sound name) (harr : Arrives name s.cache event)
    (r : Res (ServiceError ω) Unit × BlockTreeService σ) (hr : (handle o event).run s = r) :
    Refused s event r ∨ r.2.failures = s.failures ∧
      (r.2.cache = s.cache ∨ ∃ t₁, (event.newBlock = none → preparedTree s.cache event = t₁) ∧
        Prepared name s.cache event t₁ ∧
        ((r.2.cache = t₁ ∧ (r.1 = .ok () → Rests ω t₁ event)) ∨
          ∃ n, Target t₁ event n ∧ Moved name t₁ n r.2.cache ∧
            ∃ move, decidedMove ω s.cache event = some move ∧ t₁.getBlock n = some move.1)) := by
  by_cases hblock : ∃ b, event = .prevalidated b
  · obtain ⟨b, rfl⟩ := hblock
    obtain ⟨hfail, hcases⟩ := prevalidated_cases (o := o) ht harr
    rw [handle] at hr
    rw [hr] at hfail hcases
    refine .inr ⟨hfail, hcases.imp_right fun hadded => ?_⟩
    exact ⟨r.2.cache, nofun, .added hadded, .inl ⟨rfl, fun _ => .inl trivial⟩⟩
  · have hrun := result_run o ht harr fun b hb => hblock ⟨b, hb⟩
    rw [hr] at hrun
    rcases hrun with hrefused | rfl | ⟨t₁, hprep, hp, ⟨hwaits, rfl⟩ | ⟨n, hcand, htries⟩⟩
    · exact .inl hrefused
    · exact .inr ⟨rfl, .inl rfl⟩
    · exact .inr ⟨rfl, .inr ⟨t₁, fun _ => hprep, hp, .inl ⟨rfl, fun _ => .inl hwaits⟩⟩⟩
    · obtain ⟨otherwise, hotherwise, rfl⟩ := htries.run
      have hquiet : ∀ s, SameTree s (otherwise.run s).2 := by
        rcases hotherwise with rfl | rfl
        · exact sameTree_onOutside o.persistMetadata
        · exact SameTree.refl
      obtain ⟨hfail, hcases⟩ := tryThenAnnounce_cases (o := o) (s := { s with cache := t₁ })
        hp.sound htries.validated otherwise hquiet
      refine .inr ⟨hfail, .inr ⟨t₁, fun _ => hprep, hp, hcases.imp ?_ ?_⟩⟩
      · rintro ⟨hcache, hnone⟩
        exact ⟨hcache, fun hok => .inr ⟨n, htries.target, hnone hok⟩⟩
      · rintro ⟨hmoved, move, hdec⟩
        refine ⟨n, htries.target, hmoved, move, ?_, (tipMoveDecision_eq_some hdec).1⟩
        rw [decidedMove, hcand, hprep, Option.bind_some, hdec]
        rfl

end BlockTreeService

end Irys
