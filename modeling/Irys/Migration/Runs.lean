import Irys.Migration.Restart

/-!
# The index along a run of the node

After every event the index is meant to hold the lower part of the canonical chain.  It does as
long as each move of the tip is safe: a reorg that orphans migrated blocks abandons more than
`block_migration_depth` blocks, since only then is the index rolled back; the new tip is at most
`block_tree_depth` above the index, since pruning comes before the migration; and a first migration
after a start is above the backfilled supply.

* `Holds` — the invariant, with the chain it is about; `Leads` — what a step does to the chain;
* `Holds.move` — a safe move of the tip; `Holds.restart`, `Holds.step` — every step of the node;
* `SafeSplit`, `Safe` — the condition; `Completed` — what a step is to achieve;
* `completed_along_run` — every run of safe moves.
-/

namespace Irys

open Mut Forest

open BlockTree BlockTreeService

namespace Node

variable {name : H256 → Option IrysBlockHeader} {genesis b : IrysBlockHeader}
  {config : ConsensusConfig} {fullBlockReward : ℕ → Res MigrationError ℕ}
  {createSnapshots : IrysBlockHeader → TreeBlockMetadata → Res MigrationError Unit}
  {node node' : Node} {chain : List IrysBlockHeader} {top : ℕ} {n : H256} {split : ReorgSplit}

/-! ### The invariant -/

/-- **The index and the tree hold one chain.** -/
structure Holds (name : H256 → Option IrysBlockHeader) (fullBlockReward : ℕ → Res MigrationError ℕ)
    (genesis : IrysBlockHeader) (config : ConsensusConfig) (node : Node)
    (chain : List IrysBlockHeader) (top : ℕ) : Prop where
  genesisChain : GenesisChain name (blockEmission fullBlockReward) genesis chain
  sound : node.cache.Sound name
  consensusConfig : node.cache.consensusConfig = config
  known : ∀ ⦃y b⦄, node.cache.getBlock y = some b → Known name (blockEmission fullBlockReward) b
  carries : Carries node.cache chain top
  records : Records node.outside chain top

/-- **What a step does to the chain and to the top of the index**: nothing; a fork takes the place
of the blocks above its parent, and migrates; or the chain ends where the index does. -/
inductive Leads (chain : List IrysBlockHeader) (top : ℕ) : List IrysBlockHeader → ℕ → Prop where
  | stays : Leads chain top chain top
  | moves (fork : ℕ) (new : List IrysBlockHeader) {top' : ℕ} (h : min top fork ≤ top') :
      Leads chain top (chain.take (fork + 1) ++ new) top'
  | restarts : Leads chain top (chain.take (top + 1)) top

/-- What a safe move across a split satisfies. -/
@[mk_iff]
structure SafeSplit (config : ConsensusConfig) (s : NodeStores) (fork oldLength newLength : ℕ) :
    Prop where
  /-- The fork is not below the finalized height. -/
  finalized : finalizedHeight s.latestHeight config.blockTreeDepth config.blockMigrationDepth ≤ fork
  /-- Migrated blocks are orphaned only by a reorg that rolls them back. -/
  rollsBack : fork < s.latestHeight → config.blockMigrationDepth < oldLength
  /-- What is not migrated is not pruned. -/
  reaches : fork + newLength ≤ s.latestHeight + config.blockTreeDepth
  backfilled : Backfilled s (min s.latestHeight fork)

namespace Holds

section

variable (createSnapshots) (hh : Holds name fullBlockReward genesis config node chain top)
include hh

theorem rollBack (hsafe : SafeSplit config node.outside split.lca.height
      split.oldDivergent.length split.newDivergent.length) (t : BlockTree) :
    ∃ s', (BlockTreeService.rollBack (nodeOutside config fullBlockReward createSnapshots)
        config.blockMigrationDepth split).run { node with cache := t } =
          (.ok (), { node with cache := t, outside := s' }) ∧
      Records s' chain (min top split.lca.height) ∧
      Backfilled s' (min top split.lca.height) := by
  have hlatest := hh.records.latestHeight
  have hback := hsafe.backfilled
  rw [hlatest] at hback
  rw [BlockTreeService.rollBack]
  split_ifs with hdeep
  · obtain ⟨s', hrun, hrec, hsupply⟩ :=
      recover_spec config hh.genesisChain hh.records (hlatest ▸ hsafe.finalized)
    refine ⟨s', ?_, hrec, ?_⟩
    · rw [onOutside, run_zoom]
      show (mapErr _ ((recoverFromNetworkPartition _ _ _).run node.outside).1, _) = _
      rw [nodeOutside]
      dsimp only
      rw [hrun]
      rfl
    · intro supply' hs' hnone persisted hp
      obtain ⟨supply, hs, hfirst, hpersisted⟩ := hsupply supply' hs'
      exact hback supply hs (hfirst ▸ hnone) persisted (hpersisted ▸ hp)
  · -- nothing migrated is orphaned
    have hle : top ≤ split.lca.height := by
      by_contra hno
      exact hdeep (hsafe.rollsBack (by omega))
    rw [Nat.min_eq_left hle] at hback ⊢
    exact ⟨node.outside, rfl, hh.records, hback⟩

/-- **A safe move of the tip** completes, and the index holds the new chain's blocks. -/
theorem move (hdepth : config.blockMigrationDepth < config.blockTreeDepth)
    (hcand : node.cache.Candidate n) (hs : ExactSplit node.cache n node.cache.tip split)
    (hdec : (tipMoveDecision node.cache n : Res (ServiceError MigrationError) _) =
      .ok (some (b, split)))
    (hwindow : b.height ≤ split.lca.height + (config.blockTreeDepth - 1))
    (hsafe : SafeSplit config node.outside split.lca.height split.oldDivergent.length
      split.newDivergent.length)
    (otherwise : Call NodeStores MigrationError Unit) :
    ∃ node' top', (tryMoveTipTo (nodeOutside config fullBlockReward createSnapshots) n >>=
        announce (nodeOutside config fullBlockReward createSnapshots) otherwise).run node =
          (.ok (), node') ∧
      Holds name fullBlockReward genesis config node' (forked chain split) top' ∧
      Leads chain top (forked chain split) top' := by
  let o := nodeOutside config fullBlockReward createSnapshots
  obtain ⟨hb, huntied, -⟩ := tipMoveDecision_eq_some hdec
  obtain ⟨t₁, t₂, gone, htip, hsound₁, hdrops, hkeep, hsound₂, hrun⟩ :=
    moveTip_run o hh.sound hb hcand huntied b split
  have hlca := (hh.carries.lca_mem hh.sound hs).1
  have hlatest := hh.records.latestHeight
  have hfork := hh.genesisChain.forked hh.carries hh.sound hs hh.known
  have hcar₁ := hh.carries.tipAt hh.genesisChain hh.sound hs htip hh.known
  have hconfig₁ : t₁.consensusConfig = config :=
    htip.restated.consensusConfig.trans hh.consensusConfig
  have hnew : (forked chain split).length = b.height + 1 := by
    rw [← hcar₁.rank_tip hfork, htip.tip, htip.restated.rank]
    exact congrArg (· + 1) (rank_of_look hb)
  have hheight : split.newDivergent.length + split.lca.height = b.height :=
    (hs.new.length hh.sound.toLinked).trans (rank_of_look hb)
  have hreach := hsafe.reaches
  rw [hlatest] at hreach
  -- markers, with the index as it was before
  obtain ⟨markers, hmarkers, hmigMem, hmigLe⟩ := fromBlockTree_spec hfork hsound₁ hcar₁ hh.records
    (Nat.min_le_left ..) (by rw [hnew, hconfig₁]; omega) config.blockMigrationDepth
    config.blockTreeDepth
  -- rollback, after the pruning
  obtain ⟨s', hback, hrec', hbackfilled⟩ := hh.rollBack createSnapshots hsafe t₂
  have hrec'' := hrec'.transfer (take_forked hh.genesisChain hlca (Nat.min_le_right ..))
  rw [hconfig₁] at hkeep
  have hcar₂ := hcar₁.drops hfork hsound₁ hdrops hkeep (by rw [hnew]; omega)
  have hmigrates : min top split.lca.height ≤ markers.migrationBlock.height := by omega
  obtain ⟨s'', hmig, hrec₃⟩ :=
    migrateBlocks_spec hfork hsound₂ hcar₂ hrec'' hbackfilled hmigMem hmigrates
  have hepoch : sendEpochEvents config t₂ split.newDivergent = .ok () := by
    rw [sendEpochEvents]
    cases hfind : split.newDivergent.find? fun b => config.epoch.numBlocksInEpoch ∣ b.height with
    | none => rfl
    | some e =>
      have hmem := List.mem_of_find?_eq_some hfind
      have hlt := (hs.new.above e hmem).2.2
      have hheld := hcar₂.held e ((mem_forked hh.genesisChain).mpr (.inr hmem)) (by omega)
      dsimp only
      rw [hheld.1]
      rfl
  have hpublish : (publish o ⟨b, markers, split⟩).run { node with cache := t₂, outside := s' } =
      (.ok (), { node with cache := t₂, outside := s'' }) := by
    have hcall : (o.publishTipMove t₂ ⟨b, markers, split⟩).run s' = (.ok (), s'') := by
      show (Mut.lift (sendEpochEvents config t₂ split.newDivergent) >>= _).run s' = _
      rw [hepoch, run_lift_ok_bind]
      exact hmig
    rw [publish, run_read_bind, onOutside, run_zoom, hcall]
    rfl
  have htry : (tryMoveTipTo o n).run node =
      (.ok (some ⟨b, markers, split⟩), { node with cache := t₂, outside := s' }) := by
    rw [tryMoveTipTo, run_read_bind, hdec, run_lift_ok_bind]
    dsimp only
    have hcall : o.forkChoiceMarkers t₁ node.outside = .ok markers := hmarkers
    rw [hrun, hconfig₁, hcall, mapErr_ok]
    dsimp only
    rw [run_bind_of_ok hback]
    rfl
  refine ⟨_, markers.migrationBlock.height, (run_bind_of_ok htry).trans hpublish, ?_,
    .moves _ _ hmigrates⟩
  refine ⟨hfork, hsound₂, hdrops.consensusConfig.trans hconfig₁, ?_,
    hcar₂.mono hmigrates, hrec₃⟩
  intro y d hd
  have hd₁ := (hdrops.getBlock_of_some hd).1
  rw [htip.restated.getBlock] at hd₁
  exact hh.known hd₁

theorem of_eq (hcache : node'.cache = node.cache) (houtside : node'.outside = node.outside) :
    Holds name fullBlockReward genesis config node' chain top where
  genesisChain := hh.genesisChain
  sound := hcache ▸ hh.sound
  consensusConfig := hcache ▸ hh.consensusConfig
  known := hcache ▸ hh.known
  carries := hcache ▸ hh.carries
  records := houtside ▸ hh.records

end

end Holds

end Node

theorem BlockTreeService.Prepared.getBlock_of_some {name : H256 → Option IrysBlockHeader}
    {event : Event} {t t₁ : BlockTree} (hp : Prepared name t event t₁) {y : H256}
    {b : IrysBlockHeader} (hb : t₁.getBlock y = some b) :
    t.getBlock y = some b ∨ event = .prevalidated b := by
  cases hp with
  | added hadded =>
    rw [hadded.block] at hb
    split_ifs at hb
    · exact .inr (congrArg _ (Option.some.inj hb))
    · exact .inl hb
  | validated hvalid => exact .inl (hvalid.restated.getBlock ▸ hb)
  | dropped _ _ hdrops => exact .inl (hdrops.getBlock_of_some hb).1

namespace Node

/-- **The tree is prepared** for a move: the same chain. -/
theorem Holds.prepared (hh : Holds name fullBlockReward genesis config node chain top)
    {event : Event} {t₁ : BlockTree} (hp : Prepared name node.cache event t₁)
    (hreward : ∀ b, event = .prevalidated b →
      ∃ amount, blockEmission fullBlockReward b.height = .ok amount) :
    Holds name fullBlockReward genesis config { node with cache := t₁ } chain top where
  genesisChain := hh.genesisChain
  sound := hp.sound
  consensusConfig := hp.consensusConfig.trans hh.consensusConfig
  known y b hb := by
    rcases hp.getBlock_of_some hb with hold | hnew
    · exact hh.known hold
    · obtain ⟨e, he, rfl⟩ := exists_entry hb
      refine ⟨?_, hreward _ hnew⟩
      rw [hp.sound.keyed he]
      exact hp.sound.named hb
  carries := hh.carries.prepared hh.sound hp
  records := hh.records

/-! ### Steps of the node -/

/-- **What can arrive at a node**: events as at the service, where pre-validation has computed the
block's reward; and restarts. -/
def Arrives (name : H256 → Option IrysBlockHeader) (fullBlockReward : ℕ → Res MigrationError ℕ)
    (node : Node) : NodeEvent → Prop
  | .event event => BlockTreeService.Arrives name node.cache event ∧
      ∀ block ∈ event.newBlock, (blockEmission fullBlockReward block.height).isOk
  | .restart _ => True

/-- The tip moves only safely, across the split that the event decides on. -/
def Safe (config : ConsensusConfig) (node : Node) : NodeEvent → Prop
  | .event event => ∀ move ∈ decidedMove MigrationError node.cache event,
      SafeSplit config node.outside move.2.lca.height move.2.oldDivergent.length
        move.2.newDivergent.length
  | .restart _ => True

/-- How an event may end: pre-validation has its own errors, an invalid result for an on-chain
block is refused, and so is a reorg deeper than the cache window.  Nothing else fails. -/
def Ends : NodeEvent → Res (ServiceError MigrationError) Unit → Prop
  | .event (.prevalidated _), _ => True
  | .event _, r => r = .ok () ∨ (∃ h, r = fail (.discardOfOnchainRefused h)) ∨
      ∃ fork minKeep height depth, r = fail (.reorgDeeperThanCacheWindow fork minKeep height depth)
  | .restart _, r => r = .ok ()

section

variable (name : H256 → Option IrysBlockHeader) (genesis : IrysBlockHeader)

/-- **The index holds the canonical chain's blocks** from genesis up to some height not above the
tip. -/
def IndexIsPrefix
    (node : Node) : Prop :=
  ∃ chain : List IrysBlockHeader, chain.head? = some genesis ∧ chain.IsChain Follows ∧
    (∀ b ∈ chain, name b.blockHash = some b) ∧
    chain.getLast? = node.cache.getBlock node.cache.tip ∧
    ∃ m < chain.length, node.outside.index = (chain.map (·.blockHash)).take (m + 1)

/-- **What a step of the node is to achieve.** -/
structure Completed
    (event : NodeEvent) (node : Node) (r : Res (ServiceError MigrationError) Unit × Node) :
    Prop where
  ends : Ends event r.1
  moved : r.2.cache.tip ≠ node.cache.tip → r.1 = .ok ()
  index : IndexIsPrefix name genesis r.2

end

theorem Holds.indexIsPrefix (hh : Holds name fullBlockReward genesis config node chain top) :
    IndexIsPrefix name genesis node :=
  ⟨chain, hh.genesisChain.first, hh.genesisChain.follows,
    fun b hb => (hh.genesisChain.known b hb).named, hh.carries.last, top, hh.records.top_lt,
    hh.records.index⟩

section

variable (hh : Holds name fullBlockReward genesis config node chain top)
include hh

/-- **A validation result.** -/
theorem Holds.result (hdepth : config.blockMigrationDepth < config.blockTreeDepth) {event : Event}
    (harr : BlockTreeService.Arrives name node.cache event)
    (hresult : ∀ b, event ≠ .prevalidated b) (r : Res (ServiceError MigrationError) Unit × Node)
    (hr : (handle (nodeOutside config fullBlockReward createSnapshots) event).run node = r)
    (hsafe : Safe config node (.event event)) :
    Completed name genesis (.event event) node r ∧ ∃ chain' top',
      Holds name fullBlockReward genesis config r.2 chain' top' ∧ Leads chain top chain' top' := by
  have hends : ∀ {r : Res (ServiceError MigrationError) Unit}, (r = .ok () ∨
      (∃ h, r = fail (.discardOfOnchainRefused h)) ∨ ∃ fork minKeep height depth,
        r = fail (.reorgDeeperThanCacheWindow fork minKeep height depth)) →
      Ends (.event event) r := by
    intro r h
    cases event with
    | prevalidated b => exact absurd rfl (hresult b)
    | valid | invalid | softInternal => exact h
  have hdone : ∀ {chain' top'}, Holds name fullBlockReward genesis config r.2 chain' top' →
      Leads chain top chain' top' → Ends (.event event) r.1 →
      (r.2.cache.tip ≠ node.cache.tip → r.1 = .ok ()) →
      Completed name genesis (.event event) node r ∧ ∃ chain' top',
        Holds name fullBlockReward genesis config r.2 chain' top' ∧ Leads chain top chain' top' :=
    fun hholds hleads hend hmoved =>
      ⟨⟨hend, hmoved, hholds.indexIsPrefix⟩, _, _, hholds, hleads⟩
  have hrun := result_run (nodeOutside config fullBlockReward createSnapshots) hh.sound harr hresult
  rw [hr] at hrun
  rcases hrun with ⟨h, rfl, -, rfl⟩ | rfl | ⟨t₁, hprep, hp, ⟨-, rfl⟩ | ⟨n, htried, htries⟩⟩
  · exact hdone (hh.of_eq rfl rfl) .stays (hends (.inr (.inl ⟨h, rfl⟩))) (absurd rfl)
  · exact hdone hh .stays (hends (.inl rfl)) (absurd rfl)
  · exact hdone (hh.prepared hp fun b hb => absurd hb (hresult b)) .stays (hends (.inl rfl))
      (absurd hp.tip)
  · have hh₁ := hh.prepared hp fun b hb => absurd hb (hresult b)
    obtain ⟨otherwise, hotherwise, rfl⟩ := htries.run
    have hcand : t₁.Candidate n := htries.validated
    obtain ⟨b, hb⟩ := exists_header hcand.choose_spec.1
    rcases tipMoveDecision_spec (ω := MigrationError) hh₁.sound hb with hnone |
      ⟨split, hs, ⟨hsome, hwindow⟩ | ⟨fork, minKeep, height, depth, herr⟩⟩
    · -- the tip stays
      have htry : (tryMoveTipTo (nodeOutside config fullBlockReward createSnapshots) n).run
          { node with cache := t₁ } = (.ok none, { node with cache := t₁ }) := by
        rw [tryMoveTipTo, run_read_bind, hnone, run_lift_ok_bind]
        rfl
      have hstay : (announce (nodeOutside config fullBlockReward createSnapshots) otherwise
          none).run { node with cache := t₁ } = (.ok (), { node with cache := t₁ }) := by
        rcases hotherwise with rfl | rfl <;> rfl
      rw [run_bind_of_ok htry, hstay] at hdone ⊢
      exact hdone hh₁ .stays (hends (.inl rfl)) (absurd hp.tip)
    · -- it moves
      have hsplit := hsafe (b, split) (by
        rw [decidedMove, htried, hprep, Option.bind_some, hsome]
        rfl)
      obtain ⟨node', top', hrun, hh', hleads⟩ := hh₁.move createSnapshots hdepth hcand hs hsome
        (hh₁.consensusConfig ▸ hwindow) hsplit otherwise
      rw [hrun] at hdone ⊢
      exact hdone hh' hleads (hends (.inl rfl)) fun _ => rfl
    · -- the fork is too deep, and the tip stays
      have htry : (tryMoveTipTo (nodeOutside config fullBlockReward createSnapshots) n).run
          { node with cache := t₁ } = (fail (.reorgDeeperThanCacheWindow fork minKeep height depth),
            { node with cache := t₁ }) := by
        rw [tryMoveTipTo, run_read_bind, herr]
        rfl
      rw [run_bind_of_error htry] at hdone ⊢
      exact hdone hh₁ .stays (hends (.inr (.inr ⟨_, _, _, _, rfl⟩))) (absurd hp.tip)

variable (createSnapshots) in
/-- **A pre-validated block**: the tip stays. -/
theorem Holds.prevalidated
    (harr : Arrives name fullBlockReward node (.event (.prevalidated b))) :
    Completed name genesis (.event (.prevalidated b)) node
        (step config fullBlockReward createSnapshots node (.event (.prevalidated b))) ∧
      Holds name fullBlockReward genesis config
        (step config fullBlockReward createSnapshots node (.event (.prevalidated b))).2 chain
        top := by
  let o := nodeOutside config fullBlockReward createSnapshots
  have houtside : ((onBlockPrevalidated o b).run node).2.outside = node.outside := by
    rcases prevalidated_outside o b node with h | h
    · exact h
    · exact h
  have hreward : ∃ amount, blockEmission fullBlockReward b.height = .ok amount := by
    cases hemit : blockEmission fullBlockReward b.height with
    | ok amount => exact ⟨amount, rfl⟩
    | error e =>
      have := harr.2 b rfl
      rw [hemit] at this
      cases this
  have hholds : Holds name fullBlockReward genesis config ((onBlockPrevalidated o b).run node).2
      chain top ∧ ((onBlockPrevalidated o b).run node).2.cache.tip = node.cache.tip := by
    rcases (prevalidated_cases (o := o) hh.sound harr.1).2 with hsame | hadded
    · exact ⟨hh.of_eq hsame houtside, by rw [hsame]⟩
    · have hh₁ := hh.prepared (.added hadded) fun d hd => by
        obtain rfl := Event.prevalidated.inj hd
        exact hreward
      exact ⟨hh₁.of_eq rfl houtside, hadded.tip⟩
  exact ⟨⟨trivial, fun hne => absurd hholds.2 hne, hholds.1.indexIsPrefix⟩, hholds.1⟩

section

variable (hdepth : config.blockMigrationDepth < config.blockTreeDepth)
    (hbelow : name genesis.previousBlockHash = none)
include hdepth hbelow

variable (createSnapshots) in
/-- **A restart.** -/
theorem Holds.restart (persisted : Option ℕ) :
    Completed name genesis (.restart persisted) node
        (step config fullBlockReward createSnapshots node (.restart persisted)) ∧
      Holds name fullBlockReward genesis config
        (step config fullBlockReward createSnapshots node (.restart persisted)).2
        (chain.take (top + 1)) top := by
  obtain ⟨t, hrun, hsound, hconfig, hcarries, hmem⟩ :=
    restoreFromDb_spec hh.genesisChain hbelow hh.records hdepth
  rw [step, hrun]
  have hrec : Records node.outside (chain.take (top + 1)) top :=
    hh.records.transfer (by rw [List.take_take, Nat.min_self])
  have hholds : Holds name fullBlockReward genesis config ⟨t, { node.outside with
      supplyState := node.outside.supplyState.map fun _ => .new persisted }, []⟩
      (chain.take (top + 1)) top := by
    refine ⟨hh.genesisChain.take top, hsound, hconfig, ?_, hcarries,
      ⟨hrec.top_lt, hrec.index, hrec.headers, ?_⟩⟩
    · intro y b hb
      exact hh.genesisChain.known b (hmem hb)
    · -- the supply counter has started again
      intro supply hsupply hsome
      obtain ⟨old, -, rfl⟩ := Option.map_eq_some_iff.mp hsupply
      cases hsome
  exact ⟨⟨rfl, fun _ => rfl, hholds.indexIsPrefix⟩, hholds⟩

/-- **Every step of the node.** -/
theorem Holds.step {event : NodeEvent}
    (harr : Arrives name fullBlockReward node event)
    (hsafe : Safe config node event) :
    Completed name genesis event node (step config fullBlockReward createSnapshots node event) ∧
      ∃ chain' top', Holds name fullBlockReward genesis config
          (Node.step config fullBlockReward createSnapshots node event).2 chain' top' ∧
        Leads chain top chain' top' := by
  cases event with
  | restart persisted =>
    obtain ⟨hdone, hh'⟩ := hh.restart hdepth hbelow createSnapshots persisted
    exact ⟨hdone, _, _, hh', .restarts⟩
  | event event =>
    cases event with
    | prevalidated b =>
      obtain ⟨hdone, hh'⟩ := hh.prevalidated createSnapshots harr
      exact ⟨hdone, _, _, hh', .stays⟩
    | valid h => exact hh.result hdepth harr.1 (by simp) _ rfl hsafe
    | invalid h => exact hh.result hdepth harr.1 (by simp) _ rfl hsafe
    | softInternal h => exact hh.result hdepth harr.1 (by simp) _ rfl hsafe

end

end

/-! ### Runs -/

variable (config fullBlockReward createSnapshots) in
/-- A property of every step of a run. -/
abbrev Along (P : Node → NodeEvent → Prop) : Node → List NodeEvent → Prop :=
  Irys.Along (fun node event => some (step config fullBlockReward createSnapshots node event).2) P

theorem start_holds (hzero : genesis.height = 0) (hname : name genesis.blockHash = some genesis)
    (hbelow : name genesis.previousBlockHash = none) (backfill : Option (Option ℕ)) :
    Holds name fullBlockReward genesis config (start genesis config backfill) [genesis] 0 := by
  have hknown : Known name (blockEmission fullBlockReward) genesis := by
    refine ⟨hname, 0, ?_⟩
    rw [hzero]
    rfl
  have hblock : ∀ {y b}, (start genesis config backfill).cache.getBlock y = some b →
      b = genesis := fun hb => (getBlock_new_eq_some.mp hb).2
  refine ⟨⟨hzero, rfl, List.isChain_singleton _, ?_⟩, new_sound hname ?_, rfl, ?_, ⟨?_, ?_, ?_⟩,
    ⟨Nat.zero_lt_one, rfl, ?_, ?_⟩⟩
  · intro b hb
    rw [List.mem_singleton.mp hb]
    exact hknown
  · intro p hp
    rw [hbelow] at hp
    cases hp
  · intro y b hb
    rw [hblock hb]
    exact hknown
  · exact (getBlock_new_eq_some.mpr ⟨rfl, rfl⟩).symm
  · intro y b _ hb
    rw [hblock hb]
    exact List.mem_singleton_self _
  · intro b hb hlt
    rw [List.mem_singleton.mp hb, hzero] at hlt
    cases hlt
  · intro b hb
    rw [List.mem_singleton.mp (List.mem_of_mem_take hb)]
    show ((∅ : Std.TreeMap H256 IrysBlockHeader).insert _ _)[_]? = _
    rw [Std.TreeMap.getElem?_insert_self]
  · intro supply hsupply hsome
    obtain ⟨persisted, -, rfl⟩ := Option.map_eq_some_iff.mp hsupply
    cases hsome

theorem Holds.along {events : List NodeEvent}
    (hh : Holds name fullBlockReward genesis config node chain top)
    (hdepth : config.blockMigrationDepth < config.blockTreeDepth)
    (hbelow : name genesis.previousBlockHash = none)
    (harr : Along config fullBlockReward createSnapshots (Arrives name fullBlockReward) node events)
    (hsafe : Along config fullBlockReward createSnapshots (Safe config) node events) :
    Along config fullBlockReward createSnapshots (fun node event => Completed name genesis event
      node (Node.step config fullBlockReward createSnapshots node event)) node events := by
  induction events generalizing node chain top with
  | nil => trivial
  | cons event events ih =>
    obtain ⟨hdone, chain', top', hh', -⟩ := hh.step hdepth hbelow harr.1 hsafe.1
    refine ⟨hdone, fun node' hnode' => ?_⟩
    cases hnode'
    exact ih hh' (harr.2 _ rfl) (hsafe.2 _ rfl)

section Decidable

instance (s : NodeStores) (height : ℕ) : Decidable (Backfilled s height) :=
  inferInstanceAs (Decidable (∀ supply ∈ _, _ → ∀ persisted ∈ _, _))

instance (s : NodeStores) (fork oldLength newLength : ℕ) :
    Decidable (SafeSplit config s fork oldLength newLength) :=
  decidable_of_iff' _ (safeSplit_iff ..)

instance : DecidablePred (Arrives name fullBlockReward node)
  | .event _ => inferInstanceAs (Decidable (_ ∧ ∀ block ∈ _, _))
  | .restart _ => inferInstanceAs (Decidable True)

instance : DecidablePred (Safe config node)
  | .event _ => inferInstanceAs (Decidable (∀ move ∈ _, SafeSplit _ _ _ _ _))
  | .restart _ => inferInstanceAs (Decidable True)

end Decidable

/-! ### A sample -/

/-- A window of three blocks, the last of them migrated. -/
def sampleConfig : ConsensusConfig := { sampleTreeConfig with blockTreeDepth := 3 }

/-- The blocks of the sample runs: 2 on 1 and 3 on 2; 4 beside 2, and heavier. -/
def sampleChain : List IrysBlockHeader :=
  [sampleBlock 1 0 0 1, sampleBlock 2 1 1 2, sampleBlock 3 2 2 3, sampleBlock 4 1 1 10]

def sampleNames (hash : H256) : Option IrysBlockHeader :=
  sampleChain.find? fun b => b.blockHash == hash

def sampleNode : Node := start (sampleBlock 1 0 0 1) sampleConfig (some none)

/-- Three blocks extend the chain, so that block 2 migrates. -/
def sampleEvents : List NodeEvent :=
  [.event (.prevalidated (sampleBlock 2 1 1 2)), .event (.valid 2),
    .event (.prevalidated (sampleBlock 3 2 2 3)), .event (.valid 3)]

/-- The same, then a restart, then block 4. -/
def sampleRestart : List NodeEvent :=
  sampleEvents ++ [.restart none, .event (.prevalidated (sampleBlock 4 1 1 10))]

/-- The node after a sample run. -/
def sampleAfter (events : List NodeEvent) : Node :=
  run sampleConfig (fun _ => .ok 1) (fun _ _ => .ok ()) sampleNode events

/-- **A reorg without rollback.**  After a restart the tip is the last migrated block, so a reorg
of one block orphans it; one block is not deeper than the migration depth, and nothing is rolled
back.  The migration then walks past the index and fails, and the orphan stays indexed. -/
theorem orphan_stays_indexed :
    Along sampleConfig (fun _ => .ok 1) (fun _ _ => .ok ())
        (Arrives sampleNames fun _ => .ok 1) sampleNode (sampleRestart ++ [.event (.valid 4)]) ∧
      finalizedHeight (sampleAfter sampleRestart).outside.latestHeight 3 1 ≤ 0 ∧
      (step sampleConfig (fun _ => .ok 1) (fun _ _ => .ok ()) (sampleAfter sampleRestart)
        (.event (.valid 4))).1 = fail (.outside (.notFoundWhileCollecting 0)) ∧
      (sampleAfter (sampleRestart ++ [.event (.valid 4)])).cache.tip = 4 ∧
      (sampleAfter (sampleRestart ++ [.event (.valid 4)])).cache.longestChainCache.1 =
        [sampleBlock 1 0 0 1, sampleBlock 4 1 1 10] ∧
      (sampleAfter (sampleRestart ++ [.event (.valid 4)])).outside.index = [1, 2] := by
  decide +kernel

/-- **The index stays a prefix of the canonical chain** along every run of safe moves: no step
fails, other than by refusing an event, and after each the index holds the canonical chain's blocks
up to some height not above the tip. -/
theorem completed_along_run (name : H256 → Option IrysBlockHeader) (genesis : IrysBlockHeader)
    (config : ConsensusConfig) (fullBlockReward : ℕ → Res MigrationError ℕ)
    (createSnapshots : IrysBlockHeader → TreeBlockMetadata → Res MigrationError Unit)
    (backfill : Option (Option ℕ)) (events : List NodeEvent)
    (hdepth : config.blockMigrationDepth < config.blockTreeDepth) (hzero : genesis.height = 0)
    (hname : name genesis.blockHash = some genesis)
    (hbelow : name genesis.previousBlockHash = none)
    (harr : Along config fullBlockReward createSnapshots (Arrives name fullBlockReward)
      (start genesis config backfill) events)
    (hsafe : Along config fullBlockReward createSnapshots (Safe config)
      (start genesis config backfill) events) :
    Along config fullBlockReward createSnapshots
      (fun node event => Completed name genesis event node
        (Node.step config fullBlockReward createSnapshots node event))
      (start genesis config backfill) events :=
  (start_holds hzero hname hbelow backfill).along hdepth hbelow harr hsafe

/-- A reorg puts block 4 in the place of block 2 in the index; then the node restarts. -/
theorem completed_along_run_reorg :
    let reorg := sampleEvents ++
      [.event (.prevalidated (sampleBlock 4 1 1 10)), .event (.valid 4)]
    Along sampleConfig (fun _ => .ok 1) (fun _ _ => .ok ())
      (fun node event => Completed sampleNames (sampleBlock 1 0 0 1) event node
        (Node.step sampleConfig (fun _ => .ok 1) (fun _ _ => .ok ()) node event))
      sampleNode (reorg ++ [.restart none]) ∧
    (sampleAfter sampleEvents).outside.index = [1, 2] ∧ (sampleAfter reorg).cache.tip = 4 ∧
      (sampleAfter reorg).outside.index = [1, 4] :=
  ⟨completed_along_run sampleNames (sampleBlock 1 0 0 1) sampleConfig (fun _ => .ok 1)
    (fun _ _ => .ok ()) (some none) _ (by decide) rfl (by decide +kernel) (by decide +kernel)
    (by decide +kernel) (by decide +kernel), by decide +kernel, by decide +kernel,
    by decide +kernel⟩

end Node

end Irys
