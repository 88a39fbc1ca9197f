import Irys.BlockTree.Handlers
import Irys.Lib.Loops

/-!
# Runs of the block tree service

A run starts from a tree that holds one block and takes one event after another.  Blocks arrive
after their parents, valid results after the valid results of the parents; nothing else orders the
events, and an event that ends with an error does not end the run.

* `new_sound`, `after_sound`, `run_sound` — the invariant holds at the start, each event keeps it;
* `wellFormed_of_run` — the tree and everything kept beside it, after any run;
* `ready_of_run` — what has passed validation is the first tip or has a valid result;
* `fork_choice_safe` — the tip only gets heavier, and the tree's methods do not fail.
-/

namespace Irys

namespace BlockTree

variable {t : BlockTree} {name : H256 → Option IrysBlockHeader} {genesis : IrysBlockHeader}
  {config : ConsensusConfig}

/-! ### The first tree -/

section New

theorem getElem?_new (x : H256) : (new genesis config).blocks[x]? =
    if genesis.blockHash = x then some ⟨genesis, .onchain, ∅, 0⟩ else none := by
  show ((∅ : Std.TreeMap H256 TreeBlockMetadata).insert _ _)[x]? = _
  rw [Std.TreeMap.getElem?_insert]
  simp only [Nat.compare_eq_eq, Std.TreeMap.getElem?_emptyc]

theorem getBlock_new (x : H256) : (new genesis config).getBlock x =
    if genesis.blockHash = x then some genesis else none := by
  rw [getBlock, getElem?_new]
  split_ifs <;> rfl

theorem getBlock_new_eq_some {x : H256} {b : IrysBlockHeader} :
    (new genesis config).getBlock x = some b ↔ x = genesis.blockHash ∧ b = genesis := by
  rw [getBlock_new]
  split_ifs with h
  · rw [Option.some.injEq, h]
    simp [eq_comm]
  · simp [Ne.symm h]

variable (hname : name genesis.blockHash = some genesis)
  (hbelow : ∀ p, name genesis.previousBlockHash = some p → genesis.height = p.height + 1)

include hname hbelow in
theorem genesis_parent_ne : genesis.previousBlockHash ≠ genesis.blockHash := by
  intro heq
  have := hbelow genesis (heq ▸ hname)
  omega

include hname hbelow in
/-- **The first tree is sound.** -/
theorem new_sound : (new genesis config).Sound name := by
  have hne := genesis_parent_ne hname hbelow
  have hlone : ∀ {h b p}, (new genesis config).getBlock h = some b →
      (new genesis config).getBlock b.previousBlockHash = some p → False := by
    intro h b p hb hp
    obtain ⟨-, rfl⟩ := getBlock_new_eq_some.mp hb
    exact hne (getBlock_new_eq_some.mp hp).1
  have hfiled : ∀ {P : IrysBlockHeader → Prop} (h : H256),
      (∃ b, (new genesis config).getBlock h = some b ∧ P b) ↔
        h = genesis.blockHash ∧ P genesis := by
    intro P h
    simp only [getBlock_new_eq_some]
    constructor
    · rintro ⟨b, ⟨hh, rfl⟩, hP⟩
      exact ⟨hh, hP⟩
    · rintro ⟨hh, hP⟩
      exact ⟨genesis, ⟨hh, rfl⟩, hP⟩
  have hlists : ∀ key : IrysBlockHeader → ℕ, Lists (Buckets.add ∅ (key genesis) genesis.blockHash)
      fun k h => ∃ b, (new genesis config).getBlock h = some b ∧ key b = k := by
    intro key
    apply (Lists.empty.add (key genesis) genesis.blockHash).congr
    intro k i
    rw [hfiled, or_false, and_comm, eq_comm]
    simp [eq_comm]
  have hindexed : (new genesis config).Indexed := by
    constructor
    · intro h e he
      obtain ⟨hh, hb⟩ := getBlock_new_eq_some.mp (getBlock_of_entry he)
      rw [hh, hb]
    · intro h e he c
      rw [getElem?_new] at he
      split_ifs at he with hh
      rw [← Option.some.inj he, hfiled]
      refine iff_of_false Std.TreeSet.not_mem_emptyc ?_
      rintro ⟨-, hprev⟩
      exact hne (hprev.trans hh.symm)
    · exact hlists (·.height)
    · exact hlists (·.solutionHash)
  have hlinked : (new genesis config).Linked :=
    ⟨fun _ _ _ hb hp => (hlone hb hp).elim, fun _ _ _ hb hp => (hlone hb hp).elim⟩
  have hself : (new genesis config).getBlock genesis.blockHash = some genesis :=
    getBlock_new_eq_some.mpr ⟨rfl, rfl⟩
  have hentry : (new genesis config).blocks[genesis.blockHash]? =
      some ⟨genesis, .onchain, ∅, 0⟩ := by
    rw [getElem?_new, if_pos rfl]
  have hcached : (new genesis config).Cached := by
    have hparent : (new genesis config).blocks[genesis.previousBlockHash]? = none := by
      rw [getElem?_new, if_neg (Ne.symm hne)]
    rw [Cached, updateLongestChainCache]
    show ([genesis], 0) = _
    rw [show (new genesis config).tip = genesis.blockHash from rfl,
      lineage_of_some hlinked hentry, lineage_of_none hlinked hparent]
    dsimp only
    rw [collectChain]
    split_ifs <;> rfl
  refine { toTidy := { toIndexed := hindexed, toHeaviest := ?_, toLinked := hlinked,
                       cached := hcached }, toCanonical := ?_, toNamed := ?_ }
  · refine ⟨⟨genesis, hself, rfl⟩, ?_⟩
    intro h b hb
    rw [(getBlock_new_eq_some.mp hb).2]
    rfl
  · refine ⟨Option.isSome_of_eq_some hself, ?_, ?_, ?_⟩
    · intro h st hst
      obtain ⟨b, hb⟩ := exists_header hst
      obtain ⟨rfl, -⟩ := getBlock_new_eq_some.mp hb
      rw [getStatus_of_entry hentry] at hst
      exact iff_of_true (Option.some.inj hst).symm .refl
    · intro h hh
      obtain ⟨b, hb⟩ := Option.isSome_iff_exists.mp hh
      obtain ⟨rfl, -⟩ := getBlock_new_eq_some.mp hb
      exact ⟨_, .refl, .refl⟩
    · intro h b st p hb _ _ hp
      obtain ⟨pb, hpb⟩ := exists_header hp
      exact (hlone hb hpb).elim
  · constructor
    · intro h b hb
      obtain ⟨rfl, rfl⟩ := getBlock_new_eq_some.mp hb
      exact hname
    · intro h b p hb hp
      obtain ⟨-, rfl⟩ := getBlock_new_eq_some.mp hb
      exact hbelow p hp

end New

/-! ### Passed validation -/

/-- The block is in the tree and has passed validation. -/
def Ready (t : BlockTree) (h : H256) : Prop := ∃ s, t.getStatus h = some s ∧ s.isParentReady

theorem ready_new {h : H256} (hh : (new genesis config).Ready h) : h = genesis.blockHash := by
  obtain ⟨s, hs, -⟩ := hh
  obtain ⟨b, hb⟩ := exists_header hs
  exact (getBlock_new_eq_some.mp hb).1

/-- **A well-formed tree.**  On chain are the tip and its ancestors, and every block hangs from
one of them; the children, the heights and the solution hashes are exactly those of the blocks
stored; the chain cache is the ancestry of the tip up to the depth bound, oldest first, and holds
no block that is not on chain. -/
structure WellFormed (t : BlockTree) : Prop extends Indexed t where
  tip_mem : (t.getBlock t.tip).isSome
  onchain_iff : ∀ ⦃h s⦄, t.getStatus h = some s → (s = .onchain ↔ t.Anc t.tip h)
  anchored : ∀ ⦃h⦄, (t.getBlock h).isSome → ∃ a, t.Anc h a ∧ t.getStatus a = some .onchain
  chain : ∃ l : List (H256 × TreeBlockMetadata),
    Forest.Lineage (fun k : H256 => t.blocks[k]?) (fun e => e.block.previousBlockHash) t.tip l ∧
      t.longestChainCache =
        (((l.map (·.2.block)).take (t.consensusConfig.blockTreeDepth + 1)).reverse, 0)

theorem Sound.wellFormed (ht : t.Sound name) : t.WellFormed where
  toIndexed := ht.toIndexed
  tip_mem := ht.tip_mem
  onchain_iff := ht.onchain_iff
  anchored h hh := by
    obtain ⟨a, hha, hta⟩ := ht.anchored hh
    obtain ⟨b, hb⟩ := Option.isSome_iff_exists.mp (Forest.isSome_of_anc hha hh)
    obtain ⟨st, hst⟩ := exists_status hb
    exact ⟨a, hha, by rw [hst, (ht.onchain_iff hst).mpr hta]⟩
  chain := ⟨_, lineage_spec ht.toLinked t.tip, ht.longestChainCache⟩

theorem Drops.ready {t' : BlockTree} {gone : H256 → Prop} {h : H256} (hd : Drops t t' gone)
    (hh : t'.Ready h) : t.Ready h := by
  obtain ⟨s, hs, hready⟩ := hh
  exact ⟨s, (hd.getStatus_of_some hs).1, hready⟩

end BlockTree

namespace BlockTreeService

open BlockTree

variable {σ μ ω : Type} {o : Outside σ μ ω} {s s' : BlockTreeService σ} {t t₁ t' : BlockTree}
  {name : H256 → Option IrysBlockHeader} {event : Event} {h n : H256}

/-! ### One event -/

namespace Prepared

theorem ready (hp : Prepared name t event t₁) (hh : t₁.Ready h) : t.Ready h ∨ event = .valid h := by
  obtain ⟨st, hst, hready⟩ := hh
  cases hp with
  | @added b _ hadded =>
    rw [hadded.status] at hst
    split_ifs at hst with heq
    · rw [← Option.some.inj hst] at hready
      cases hready
    · exact .inl ⟨st, hst, hready⟩
  | @validated k _ hvalid =>
    by_cases heq : h = k
    · exact .inr (by rw [heq])
    · rw [hvalid.same heq] at hst
      exact .inl ⟨st, hst, hready⟩
  | dropped _ _ hdrops => exact .inl (hdrops.ready ⟨st, hst, hready⟩)

end Prepared

namespace Moved

theorem tip (hm : Moved name t n t') : t'.tip = n := by
  obtain ⟨t₁, gone, htip, hdrops, -⟩ := hm.tipAt
  exact hdrops.tip.trans htip.tip

theorem tipBlock (hm : Moved name t n t') : t'.getBlock n = t.getBlock n := by
  obtain ⟨t₁, gone, htip, hdrops, hgone, -⟩ := hm.tipAt
  rw [hdrops.kept hgone, htip.restated.getBlock]

theorem ready_of_ready (ht : t.Sound name) (hm : Moved name t n t') (hh : t'.Ready h) :
    t.Ready h := by
  obtain ⟨t₁, gone, htip, hdrops, -⟩ := hm.tipAt
  obtain ⟨st, hst, hready⟩ := hm.ready
  obtain ⟨sh, hsh, hshready⟩ := hdrops.ready hh
  obtain ⟨b, hb⟩ := exists_header hsh
  rw [htip.restated.getBlock] at hb
  obtain ⟨sh₀, hsh₀⟩ := exists_status hb
  exact ⟨sh₀, hsh₀, (htip.ready_iff ht hst hready hsh₀ hsh).mp hshready⟩

end Moved

section

variable (ht : s.cache.Sound name)
include ht

section

variable (harr : Arrives name s.cache event)
include harr

theorem after_cases :
    (after o s event).cache = s.cache ∨ ∃ t₁, Prepared name s.cache event t₁ ∧
      ((after o s event).cache = t₁ ∨ ∃ n, Moved name t₁ n (after o s event).cache) := by
  rcases handle_cases (o := o) ht harr _ rfl with
    ⟨h, -, -, hrun⟩ | ⟨-, hsame | ⟨t₁, -, hp, hmoved⟩⟩
  · left
    rw [after, hrun]
  · exact .inl hsame
  · refine .inr ⟨t₁, hp, hmoved.imp And.left ?_⟩
    rintro ⟨n, -, hm, -⟩
    exact ⟨n, hm⟩

/-- **Every event keeps the invariant.** -/
theorem after_sound : (after o s event).cache.Sound name := by
  rcases after_cases (o := o) ht harr with hsame | ⟨t₁, hp, heq | ⟨n, hm⟩⟩
  · rw [hsame]
    exact ht
  · rw [heq]
    exact hp.sound
  · exact hm.sound

theorem after_ready (hh : (after o s event).cache.Ready h) :
    s.cache.Ready h ∨ event = .valid h := by
  rcases after_cases (o := o) ht harr with hsame | ⟨t₁, hp, heq | ⟨n, hm⟩⟩
  · rw [hsame] at hh
    exact .inl hh
  · rw [heq] at hh
    exact hp.ready hh
  · exact hp.ready (hm.ready_of_ready hp.sound hh)

/-- **The tip gets heavier or stays.** -/
theorem after_tip {c : IrysBlockHeader} (hc : s.cache.getBlock s.cache.tip = some c) :
    ∃ c', (after o s event).cache.getBlock (after o s event).cache.tip = some c' ∧
      c.cumulativeDiff ≤ c'.cumulativeDiff ∧
      ((after o s event).cache.tip ≠ s.cache.tip → c.cumulativeDiff < c'.cumulativeDiff) := by
  have hstay : ∀ {t : BlockTree}, t.tip = s.cache.tip → t.getBlock s.cache.tip = some c →
      ∃ c', t.getBlock t.tip = some c' ∧ c.cumulativeDiff ≤ c'.cumulativeDiff ∧
        (t.tip ≠ s.cache.tip → c.cumulativeDiff < c'.cumulativeDiff) := by
    intro t htip hblock
    exact ⟨c, by rw [htip, hblock], le_rfl, fun hne => absurd htip hne⟩
  rcases after_cases (o := o) ht harr with hsame | ⟨t₁, hp, heq | ⟨n, hm⟩⟩
  · rw [hsame]
    exact hstay rfl hc
  · rw [heq]
    exact hstay hp.tip (by rw [hp.tipBlock ht, hc])
  · obtain ⟨st, hst, -⟩ := hm.ready
    obtain ⟨b, hb⟩ := exists_header hst
    have hlt : c.cumulativeDiff < b.cumulativeDiff := by
      apply hm.heavier hb
      rw [hp.tip, hp.tipBlock ht, hc]
    exact ⟨b, by rw [hm.tip, hm.tipBlock, hb], hlt.le, fun _ => hlt⟩

end

/-! ### Runs -/

/-- The service with one block in its tree. -/
def start (genesis : IrysBlockHeader) (config : ConsensusConfig) (rest : σ) :
    BlockTreeService σ :=
  ⟨BlockTree.new genesis config, rest, []⟩

/-- The service after a run. -/
def run (o : Outside σ μ ω) (s : BlockTreeService σ) (events : List Event) :
    BlockTreeService σ :=
  events.foldl (after o) s

/-- Every event of the run arrives in order. -/
abbrev InOrder (o : Outside σ μ ω) (name : H256 → Option IrysBlockHeader) :
    BlockTreeService σ → List Event → Prop :=
  Along (fun s event => some (after o s event)) fun s event => Arrives name s.cache event

/-- **The invariant holds after every run.** -/
theorem run_sound {events : List Event} (hrun : InOrder o name s events) :
    (run o s events).cache.Sound name :=
  Along.foldl (I := fun s => s.cache.Sound name) (fun _ _ ht harr => after_sound ht harr) ht hrun

theorem ready_of_run {events : List Event} (hrun : InOrder o name s events)
    (hh : (run o s events).cache.Ready h) : s.cache.Ready h ∨ Event.valid h ∈ events := by
  induction events generalizing s with
  | nil => exact .inl hh
  | cons event events ih =>
    rcases ih (after_sound ht hrun.1) (hrun.2 _ rfl) hh with hready | hmem
    · exact (after_ready ht hrun.1 hready).imp_right fun heq => by simp [heq]
    · exact .inr (List.mem_cons_of_mem _ hmem)

end

theorem start_sound {genesis : IrysBlockHeader} {config : ConsensusConfig} {rest : σ}
    (hname : name genesis.blockHash = some genesis)
    (hbelow : ∀ p ∈ name genesis.previousBlockHash, genesis.height = p.height + 1) :
    (start genesis config rest).cache.Sound name :=
  new_sound hname hbelow

instance : DecidablePred (Arrives name t)
  | .prevalidated _ => inferInstanceAs (Decidable (_ ∧ _))
  | .valid _ => inferInstanceAs (Decidable (∀ b ∈ _, ∀ p ∈ _, _))
  | .invalid _ | .softInternal _ => inferInstanceAs (Decidable True)

/-! ### A sample -/

/-- A header without transactions. -/
def sampleBlock (hash parent height diff : ℕ) : IrysBlockHeader :=
  { IrysBlockHeader.bare hash parent height with cumulativeDiff := diff, timestamp := height }

/-- Two blocks of depth, so that three stay in the tree. -/
def sampleTreeConfig : ConsensusConfig where
  blockMigrationDepth := 1
  blockTreeDepth := 2
  txAnchorExpiryDepth := 2
  chunkSize := 32
  numChunksInPartition := 8
  numPartitionsPerSlot := 1
  epoch := ⟨1, 4, 1, none, none⟩
  hardforks := ⟨none, none⟩

/-- A surrounding in which every call succeeds. -/
def sampleOutside : Outside Unit Unit Unit where
  createSnapshots _ _ := .ok ()
  validateBlock _ := pure ()
  forkChoiceMarkers _ _ := .ok ()
  recoverFromNetworkPartition _ := pure ()
  persistMetadata := pure ()
  publishTipMove _ _ := pure ()

/-- The blocks of the sample runs: 2 on 1, and 3 beside it; 4 and 5 on 2. -/
def sampleBlocks : List IrysBlockHeader :=
  [sampleBlock 1 0 0 1, sampleBlock 2 1 1 2, sampleBlock 3 1 1 10, sampleBlock 4 2 2 10,
    sampleBlock 5 2 2 9]

def sampleName (hash : H256) : Option IrysBlockHeader :=
  sampleBlocks.find? fun b => b.blockHash == hash

def sampleStart : BlockTreeService Unit := start (sampleBlock 1 0 0 1) sampleTreeConfig ()

/-! ### Every run -/

/-- **The tree is well-formed after every run.** -/
theorem wellFormed_of_run (o : Outside σ μ ω) (name : H256 → Option IrysBlockHeader)
    (genesis : IrysBlockHeader) (config : ConsensusConfig) (rest : σ) (events : List Event)
    (hname : name genesis.blockHash = some genesis)
    (hbelow : ∀ p ∈ name genesis.previousBlockHash, genesis.height = p.height + 1)
    (hrun : InOrder o name (start genesis config rest) events) :
    (run o (start genesis config rest) events).cache.WellFormed :=
  (run_sound (start_sound hname hbelow) hrun).wellFormed

theorem wellFormed_of_run_reorg :
    (run sampleOutside sampleStart [.prevalidated (sampleBlock 2 1 1 2), .valid 2,
      .prevalidated (sampleBlock 3 1 1 10), .valid 3, .invalid 2]).cache.WellFormed :=
  wellFormed_of_run sampleOutside sampleName (sampleBlock 1 0 0 1) sampleTreeConfig () _
    (by decide +kernel) (by decide +kernel) (by decide +kernel)

/-- A result that `remove_block` refuses: an invalid one for a block on chain. -/
def Refuses (t : BlockTree) (event : Event) : Prop :=
  ∃ h, event = .invalid h ∧ t.getStatus h = some .onchain

/-- Outside of such a result neither `mark_tip` nor `remove_block` fails. -/
theorem after_failures (ht : s.cache.Sound name) (harr : Arrives name s.cache event)
    (hevent : ¬ Refuses s.cache event) : (after o s event).failures = s.failures := by
  rcases handle_cases (o := o) ht harr _ rfl with ⟨h, hinvalid, hon, -⟩ | ⟨hfail, -⟩
  · exact absurd ⟨h, hinvalid, hon⟩ hevent
  · exact hfail

theorem handle_refused (hon : s.cache.getStatus h = some .onchain) :
    (handle o (.invalid h)).run s = (fail (.discardOfOnchainRefused h),
      { s with failures := s.failures ++ [.cannotRemoveOnchain h] }) := by
  have hdiscard : (discardAndBroadcast h .invalid : Call σ ω _).run s =
      (fail (.discardOfOnchainRefused h),
        { s with failures := s.failures ++ [.cannotRemoveOnchain h] }) := by
    rw [discardAndBroadcast, Mut.run_read_bind, hon]
    dsimp only
    rw [if_neg (by simp), Mut.run_bind_of_ok (run_noted_of_fail (removeBlock_onchain hon))]
    rfl
  rw [handle, Mut.run_bind_of_error hdiscard]
  rfl

/-- `remove_block` does fail: the first event of a run may be an invalid result for the tip. -/
theorem removeBlock_fails_on_invalid_tip :
    InOrder sampleOutside sampleName sampleStart [.invalid sampleStart.cache.tip] ∧
      (run sampleOutside sampleStart [.invalid sampleStart.cache.tip]).failures =
        [.cannotRemoveOnchain 1] := by
  constructor
  · decide +kernel
  · decide +kernel

/-- **Fork choice is safe.**  After any run, a block on chain is the first tip or has had a valid
result; and whatever event comes next, the tip it leaves is in the tree, no lighter than the one
before, and heavier if it is another block.  `mark_tip` and `remove_block` do not fail, except on
an invalid result for a block on chain: that is refused, and nothing else changes. -/
theorem fork_choice_safe (o : Outside σ μ ω) (name : H256 → Option IrysBlockHeader)
    (genesis : IrysBlockHeader) (config : ConsensusConfig) (rest : σ) (events : List Event)
    (hname : name genesis.blockHash = some genesis)
    (hbelow : ∀ p ∈ name genesis.previousBlockHash, genesis.height = p.height + 1)
    (hrun : InOrder o name (start genesis config rest) events)
    (s : BlockTreeService σ) (hs : s = run o (start genesis config rest) events) :
    (∀ h, s.cache.getStatus h = some .onchain →
      h = genesis.blockHash ∨ Event.valid h ∈ events) ∧
    ∀ event, Arrives name s.cache event →
      (∃ c c', s.cache.getBlock s.cache.tip = some c ∧
        (after o s event).cache.getBlock (after o s event).cache.tip = some c' ∧
        c.cumulativeDiff ≤ c'.cumulativeDiff ∧
        ((after o s event).cache.tip ≠ s.cache.tip → c.cumulativeDiff < c'.cumulativeDiff)) ∧
      (¬ Refuses s.cache event → (after o s event).failures = s.failures) ∧
      (∀ h, event = .invalid h → s.cache.getStatus h = some .onchain →
        (handle o event).run s = (fail (.discardOfOnchainRefused h),
          { s with failures := s.failures ++ [.cannotRemoveOnchain h] })) := by
  have hstart : (start genesis config rest).cache.Sound name := start_sound hname hbelow
  have hsound : s.cache.Sound name := hs ▸ run_sound hstart hrun
  constructor
  · intro h hon
    have hready : (run o (start genesis config rest) events).cache.Ready h :=
      ⟨.onchain, hs ▸ hon, rfl⟩
    exact (ready_of_run hstart hrun hready).imp_left ready_new
  · intro event harr
    obtain ⟨c, hc⟩ := hsound.exists_tip
    obtain ⟨c', hnew⟩ := after_tip (o := o) hsound harr hc
    refine ⟨⟨c, c', hc, hnew⟩, after_failures hsound harr, ?_⟩
    rintro h rfl hon
    exact handle_refused hon

/-- A second child of genesis is heavier than the first. -/
def reorgEvents : List Event :=
  [.prevalidated (sampleBlock 2 1 1 2), .valid 2, .prevalidated (sampleBlock 3 1 1 10), .valid 3]

theorem fork_choice_safe_reorg :
    (run sampleOutside sampleStart reorgEvents).cache.getStatus 3 = some .onchain ∧
    ∀ h, (run sampleOutside sampleStart reorgEvents).cache.getStatus h = some .onchain →
      h = 1 ∨ Event.valid h ∈ reorgEvents :=
  ⟨by decide +kernel,
    (fork_choice_safe sampleOutside sampleName (sampleBlock 1 0 0 1) sampleTreeConfig () _
      (by decide +kernel) (by decide +kernel) (by decide +kernel) _ rfl).1⟩

end BlockTreeService

end Irys
