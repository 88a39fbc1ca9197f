import Irys.BlockTree.Runs
import Irys.BlockTree.Split

/-!
# The tip and the heaviest block

When the heaviest block has passed validation, the tip should be as heavy.  Every event that could
make the two differ is followed by another look at the tip, except one: a move of the tip prunes
the tree, and the pruning may remove the heaviest block.

* `Settled` — the tip is as heavy as the heaviest block, if that block has passed validation;
* `KeepsUp` — the events that do not, told from the tree they find: a valid result that moves the
  tip moves it near the fork of the heaviest block, and the fork of a validated heaviest block is
  no longer than the depth;
* `settled_of_run` — every run of such events ends settled.
-/

namespace Irys

namespace BlockTreeService

open BlockTree

variable {σ μ ω : Type} {o : Outside σ μ ω} {s s' : BlockTreeService σ} {t t₁ t' : BlockTree}
  {name : H256 → Option IrysBlockHeader} {event : Event} {h n : H256}

/-- The tip is as heavy as the heaviest block, if that block heads its validated chain. -/
def Settled (t : BlockTree) : Prop :=
  t.getMaxChainValidatedHead = some t.maxCumulativeDifficulty.2 →
    ∀ c ∈ t.getBlock t.tip, c.cumulativeDiff = t.maxCumulativeDifficulty.1

instance : Decidable (Settled t) := inferInstanceAs (Decidable (_ → ∀ c ∈ _, _))

/-- The event completes; a pre-validated block may be turned down. -/
def Completes (o : Outside σ μ ω) (s : BlockTreeService σ) : Event → Prop
  | .prevalidated _ => True
  | event => ((handle o event).run s).1.isOk

/-- A validated heaviest block is at most the depth above the chain. -/
def ShortFork (t : BlockTree) : Prop :=
  t.getMaxChainValidatedHead = some t.maxCumulativeDifficulty.2 →
    ∀ e ∈ t.blocks[t.maxCumulativeDifficulty.2]?, ∀ f ∈ t.canonicalForkHeight e,
      e.block.height ≤ f + t.consensusConfig.blockTreeDepth

/-- A valid result that moves the tip moves it at most `block_tree_depth - 1` above the last block
that the new tip shares with the heaviest block. -/
def KeepsHeaviest (ω : Type) (t : BlockTree) : Event → Prop
  | .valid h => ∀ move ∈ decidedMove ω t (.valid h),
      ∀ split ∈ (t.findReorgSplit h t.getMaxCumulativeDifficultyBlock.2).toOption,
        move.1.height ≤ split.lca.height + (t.consensusConfig.blockTreeDepth - 1)
  | _ => True

/-- **An event that keeps up with the heaviest block.** -/
@[mk_iff]
structure KeepsUp (o : Outside σ μ ω) (s : BlockTreeService σ) (event : Event) : Prop where
  completes : Completes o s event
  heaviest : KeepsHeaviest ω s.cache event
  short : event.newBlock = none → ShortFork (preparedTree s.cache event)

/-- Every event of the run keeps up. -/
abbrev KeepsUpAlong (o : Outside σ μ ω) : BlockTreeService σ → List Event → Prop :=
  Along (fun s event => some (after o s event)) (KeepsUp o)

section Decidable

instance : DecidablePred (Completes o s)
  | .prevalidated _ => inferInstanceAs (Decidable True)
  | .valid _ | .invalid _ | .softInternal _ => inferInstanceAs (Decidable (_ = true))

instance : Decidable (ShortFork t) := inferInstanceAs (Decidable (_ → ∀ e ∈ _, ∀ f ∈ _, _))

instance : DecidablePred (KeepsHeaviest ω t)
  | .valid _ => inferInstanceAs (Decidable (∀ move ∈ _, ∀ split ∈ _, _))
  | .prevalidated _ | .invalid _ | .softInternal _ => inferInstanceAs (Decidable True)

instance : DecidablePred (KeepsUp o s) := fun _ =>
  decidable_of_iff' _ (keepsUp_iff ..)

end Decidable

/-! ### A lighter tip -/

/-- Block 3 is the heaviest and never validated.  Block 4 ties it, and is passed over when its
valid result comes.  Then the lighter block 5 becomes the tip, and block 3 is pruned: block 4 is
now the heaviest, and validated, and the tip stays at 5. -/
theorem lighter_tip_after_prune :
    ∃ events, InOrder sampleOutside sampleName sampleStart events ∧
      (run sampleOutside sampleStart events).failures = [] ∧
      (∀ k < events.length, ((handle sampleOutside (events.getD k (.valid 0))).run
        (run sampleOutside sampleStart (events.take k))).1.isOk) ∧
      ¬ Settled (run sampleOutside sampleStart events).cache := by
  refine ⟨[.prevalidated (sampleBlock 2 1 1 2), .valid 2, .prevalidated (sampleBlock 3 1 1 10),
    .prevalidated (sampleBlock 4 2 2 10), .valid 4, .prevalidated (sampleBlock 5 2 2 9),
    .valid 5], ?_, ?_, ?_, ?_⟩
  · decide +kernel
  · decide +kernel
  · decide +kernel
  · decide +kernel

/-! ### One event -/

section

variable (ht : t.Sound name)
include ht

theorem settled_iff {c : IrysBlockHeader} (hc : t.getBlock t.tip = some c) :
    Settled t ↔
      (t.Ready t.maxCumulativeDifficulty.2 → c.cumulativeDiff = t.maxCumulativeDifficulty.1) := by
  rw [Settled, head_eq_max_iff ht, hc]
  constructor
  · intro hset hready
    exact hset hready c rfl
  · intro hset hready d hd
    rw [← Option.some.inj hd]
    exact hset hready

theorem settled_of_gate (hshort : ShortFork t)
    (hgate : t.getEarliestNotOnchainInLongestChain = none) : Settled t := by
  intro hhead c hc
  by_contra hne
  have hlt : c.cumulativeDiff < t.maxCumulativeDifficulty.1 := lt_of_le_of_ne (ht.le hc) hne
  have hopen := gate_of_short_fork ht hc hlt fun e f he hf => hshort hhead e he f hf
  rw [hgate] at hopen
  cases hopen

theorem settled_of_decision
    (hnone : (tipMoveDecision t t.maxCumulativeDifficulty.2 : Res (ServiceError ω) _) = .ok none) :
    Settled t := by
  obtain ⟨b, c, hb, hc, ⟨-, hle | ⟨-, hne⟩⟩ | ⟨_, hsome, -⟩⟩ := tipMoveDecision_cases hnone
  · obtain ⟨m, hm, hdiff⟩ := ht.attained
    cases hb.symm.trans hm
    rw [settled_iff ht hc]
    exact fun _ => (ht.le hc).antisymm (hdiff ▸ hle)
  · exact absurd rfl hne
  · cases hsome

theorem Added.settled {b : IrysBlockHeader} (hadded : Added name t b t')
    (hset : Settled t) : Settled t' := by
  obtain ⟨c, hc⟩ := ht.exists_tip
  have hc' : t'.getBlock t'.tip = some c := by
    rw [hadded.tip, (Prepared.added hadded).tipBlock ht, hc]
  rw [settled_iff hadded.sound hc']
  rw [settled_iff ht hc] at hset
  rw [hadded.max]
  split_ifs with hlt
  · rintro ⟨st, hst, hready⟩
    rw [hadded.status, if_pos rfl] at hst
    rw [← Option.some.inj hst] at hready
    cases hready
  · intro hready
    rcases (Prepared.added hadded).ready hready with hready | hevent
    · exact hset hready
    · cases hevent

theorem Validates.settled (hvalid : Validates name t h t')
    (hset : Settled t) (hnone : (tipMoveDecision t' h : Res (ServiceError ω) _) = .ok none) :
    Settled t' := by
  by_cases hmax : h = t'.maxCumulativeDifficulty.2
  · rw [hmax] at hnone
    exact settled_of_decision hvalid.sound hnone
  · obtain ⟨c, hc⟩ := ht.exists_tip
    have hc' : t'.getBlock t'.tip = some c := by
      rw [hvalid.tip, hvalid.restated.getBlock, hc]
    rw [settled_iff hvalid.sound hc', hvalid.restated.maxCumulativeDifficulty]
    rw [hvalid.restated.maxCumulativeDifficulty] at hmax
    rw [settled_iff ht hc] at hset
    rintro ⟨st, hst, hready⟩
    rw [hvalid.same (Ne.symm hmax)] at hst
    exact hset ⟨st, hst, hready⟩

end

theorem Moved.max (hm : Moved name t n t')
    (hkept : (t'.getBlock t.maxCumulativeDifficulty.2).isSome) :
    t'.maxCumulativeDifficulty = t.maxCumulativeDifficulty := by
  obtain ⟨t₁, gone, htip, hdrops, -⟩ := hm.tipAt
  rw [← htip.restated.maxCumulativeDifficulty] at hkept ⊢
  apply hdrops.max
  intro hgone
  rw [hdrops.dropped hgone] at hkept
  cases hkept

/-- **The heaviest block is kept** if the new tip is near the last block the two share. -/
theorem Moved.keeps_max (ht : t.Sound name) (hvalid : Validates name t h t₁)
    (hm : Moved name t₁ h t') {b : IrysBlockHeader} (hb : t.getBlock h = some b)
    {split : ReorgSplit} (hs : ExactSplit t h t.maxCumulativeDifficulty.2 split)
    (hnear : b.height ≤ split.lca.height + (t.consensusConfig.blockTreeDepth - 1)) :
    (t'.getBlock t.maxCumulativeDifficulty.2).isSome := by
  obtain ⟨t₂, gone, htip, hdrops, -, hkeeps⟩ := hm.tipAt
  have hr := hvalid.restated.trans htip.restated
  have hrank : t.rank h = b.height := Forest.rank_of_look hb
  have hlca : t.rank split.lca.blockHash = split.lca.height := Forest.rank_of_look hs.lca_mem
  have hhangs : t₂.HangsFrom (t₂.rank t₂.tip - (t₂.consensusConfig.blockTreeDepth - 1))
      t.maxCumulativeDifficulty.2 := by
    refine ⟨split.lca.blockHash, ?_, htip.on ?_, ?_⟩
    · rw [hr.anc]
      exact hs.old.anc
    · rw [hvalid.restated.anc]
      exact hs.new.anc
    · rw [htip.tip, hr.rank, hr.consensusConfig, hrank, hlca]
      omega
  obtain ⟨m, hmax, -⟩ := ht.attained
  rw [hdrops.kept (hkeeps hhangs), hr.getBlock, hmax]
  rfl

theorem Moved.settled_of_max (ht : t.Sound name)
    (hm : Moved name t t.maxCumulativeDifficulty.2 t') : Settled t' := by
  obtain ⟨b, hb, hdiff⟩ := ht.attained
  have hblock := hm.tipBlock.trans hb
  have hmax := hm.max (Option.isSome_of_eq_some hblock)
  have hc : t'.getBlock t'.tip = some b := by
    rw [hm.tip]
    exact hblock
  rw [settled_iff hm.sound hc, hmax]
  exact fun _ => hdiff

theorem Moved.settled_of_valid (ht : t.Sound name) (hset : Settled t)
    (hvalid : Validates name t h t₁) (hm : Moved name t₁ h t')
    (hkept : (t'.getBlock t.maxCumulativeDifficulty.2).isSome) : Settled t' := by
  have hmax₁ := hvalid.restated.maxCumulativeDifficulty
  by_cases hmax : h = t₁.maxCumulativeDifficulty.2
  · rw [hmax] at hm
    exact hm.settled_of_max hvalid.sound
  · -- another block was validated: the tree before was settled, so no block was heavier
    obtain ⟨c, hc⟩ := ht.exists_tip
    obtain ⟨st, hst, -⟩ := hm.ready
    obtain ⟨b, hb⟩ := exists_header hst
    have hlt : c.cumulativeDiff < b.cumulativeDiff := by
      apply hm.heavier hb
      rw [hvalid.tip, hvalid.restated.getBlock, hc]
    have hle := hvalid.sound.le hb
    rw [← hmax₁] at hkept
    have hmax' := hm.max hkept
    have hc' : t'.getBlock t'.tip = some b := by rw [hm.tip, hm.tipBlock, hb]
    rw [settled_iff hm.sound hc', hmax']
    intro hready
    obtain ⟨sm, hsm, hsmready⟩ := hm.ready_of_ready hvalid.sound hready
    rw [hvalid.same (Ne.symm hmax), hmax₁] at hsm
    have := (settled_iff ht hc).mp hset ⟨sm, hsm, hsmready⟩
    rw [hmax₁] at hle
    omega

theorem settled_of_discard (ht : t.Sound name) (hshort : ShortFork t)
    (hevent : event = .invalid h ∨ event = .softInternal h) (hrests : Rests ω t event) :
    Settled t := by
  rcases hrests with hwaits | ⟨n, htarget, hnone⟩
  · rcases (waits_of_discard hevent).mp hwaits with hgate | hhead
    · exact settled_of_gate ht hshort hgate
    · exact fun h => absurd h hhead
  · rw [(target_of_discard hevent).mp htarget] at hnone
    exact settled_of_decision ht hnone

theorem Completes.eq_ok (hdone : Completes o s event) (hevent : ∀ b, event ≠ .prevalidated b) :
    ((handle o event).run s).1 = .ok () := by
  have hok : ((handle o event).run s).1.isOk = true := by
    cases event with
    | prevalidated b => exact absurd rfl (hevent b)
    | valid | invalid | softInternal => exact hdone
  cases hr : ((handle o event).run s).1 with
  | ok u => rfl
  | error e =>
    rw [hr] at hok
    cases hok

/-- **An event that keeps up leaves the tree settled.** -/
theorem after_settled (ht : s.cache.Sound name) (harr : Arrives name s.cache event)
    (hset : Settled s.cache) (hkeep : KeepsUp o s event) : Settled (after o s event).cache := by
  obtain ⟨hdone, hkept, hshort⟩ := hkeep
  rcases handle_cases (o := o) ht harr _ rfl with
    ⟨h, -, -, hrun⟩ | ⟨-, hsame | ⟨t₁, hprep, hp, hcases⟩⟩
  · rw [after, hrun]
    exact hset
  · rw [after, hsame]
    exact hset
  · cases hp with
    | added hadded =>
      rcases hcases with ⟨hcache, -⟩ | ⟨n, htarget, -⟩
      · rw [after, hcache]
        exact hadded.settled ht hset
      · exact htarget.elim
    | @validated k _ hvalid =>
      rcases hcases with ⟨hcache, hrests⟩ | ⟨n, rfl, hm, move, hmove, hb⟩
      · rw [after, hcache]
        rcases hrests (hdone.eq_ok (by simp)) with hgate | ⟨n, rfl, hnone⟩
        · exact settled_of_gate hvalid.sound (hprep rfl ▸ hshort rfl) hgate
        · exact hvalid.settled ht hset hnone
      · rw [hvalid.restated.getBlock] at hb
        obtain ⟨m, hmax, -⟩ := ht.attained
        obtain ⟨split, hsplit, hs⟩ := findReorgSplit_spec ht (Option.isSome_of_eq_some hb)
          (Option.isSome_of_eq_some hmax)
        have hnear := hkept move hmove split (by
          show split ∈ (s.cache.findReorgSplit n s.cache.maxCumulativeDifficulty.2).toOption
          rw [hsplit]
          rfl)
        exact hm.settled_of_valid ht hset hvalid (hm.keeps_max ht hvalid hb hs hnear)
    | @dropped _ k _ _ hevent hsound hdrops hgone =>
      rcases hcases with ⟨hcache, hrests⟩ | ⟨n, htarget, hm, -⟩
      · have hnot : ∀ b, event ≠ .prevalidated b := by
          rcases hevent with rfl | rfl <;> simp
        have hnew : event.newBlock = none := by
          rcases hevent with rfl | rfl <;> rfl
        rw [after, hcache]
        exact settled_of_discard hsound (hprep hnew ▸ hshort hnew) hevent
          (hrests (hdone.eq_ok hnot))
      · rw [(target_of_discard hevent).mp htarget] at hm
        exact hm.settled_of_max hsound

/-! ### Runs -/

theorem start_settled {genesis : IrysBlockHeader} {config : ConsensusConfig} {rest : σ} :
    Settled (start genesis config rest).cache := by
  intro _ c hc
  rw [(getBlock_new_eq_some.mp hc).2]
  rfl

theorem run_settled {events : List Event} (ht : s.cache.Sound name) (hset : Settled s.cache)
    (hrun : InOrder o name s events) (hkeep : KeepsUpAlong o s events) :
    Settled (run o s events).cache :=
  (Along.foldl (I := fun s => s.cache.Sound name ∧ Settled s.cache)
    (fun _ _ h hevent => ⟨after_sound h.1 hevent.1, after_settled h.1 hevent.1 h.2 hevent.2⟩)
    ⟨ht, hset⟩ (hrun.and hkeep)).2

/-- **A run that keeps up never stays on a lighter tip.** -/
theorem settled_of_run (o : Outside σ μ ω) (name : H256 → Option IrysBlockHeader)
    (genesis : IrysBlockHeader) (config : ConsensusConfig) (rest : σ) (events : List Event)
    (hname : name genesis.blockHash = some genesis)
    (hbelow : ∀ p ∈ name genesis.previousBlockHash, genesis.height = p.height + 1)
    (hrun : InOrder o name (start genesis config rest) events)
    (hkeep : KeepsUpAlong o (start genesis config rest) events) :
    Settled (run o (start genesis config rest) events).cache :=
  run_settled (start_sound hname hbelow) start_settled hrun hkeep

theorem settled_of_run_reorg :
    Settled (run sampleOutside sampleStart [.prevalidated (sampleBlock 2 1 1 2), .valid 2,
      .prevalidated (sampleBlock 3 1 1 10), .valid 3]).cache :=
  settled_of_run sampleOutside sampleName (sampleBlock 1 0 0 1) sampleTreeConfig () _
    (by decide +kernel) (by decide +kernel) (by decide +kernel) (by decide +kernel)

end BlockTreeService

end Irys
