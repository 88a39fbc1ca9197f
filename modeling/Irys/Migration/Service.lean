import Irys.BlockTree.Service

/-!
# Migration into the block index

Blocks leave the tree for the block index, `block_migration_depth` behind the tip, and a deep reorg
takes them out again.  This file models what surrounds the tree in a move of the tip: the index,
the stored headers and the supply counter (`NodeStores`), and the steps of the block tree service
and of the migration service that read and write them.

* `fromBlockTree` — the fork-choice markers, among them the block to migrate up to;
* `recoverFromNetworkPartition` — the rollback of migrated blocks;
* `getBlocksToMigrate`, `validateMigrationContinuity`, `migrateBlocks` — the migration;

The index is the list of migrated block hashes, by height.  What a block's transactions add to the
stores, the storage modules and the messages to other services are left out; they return no error
here.
-/

namespace Irys

/-- The errors of the migration steps. -/
inductive MigrationError where
  | canonicalChainEmpty
  | missingIndexEntry (height : ℕ)
  | headerNotFound (hash : H256)
  | belowFinalized (forkParentHeight finalized : ℕ)
  | indexEmpty
  | notFoundWhileCollecting (hash : H256)
  | heightGap (latestHeight : ℕ) (latestHash : H256) (firstHeight : ℕ) (firstHash : H256)
  | chainBreak (latestHash previousHash : H256)
  | sliceHeightGap (prevHash : H256) (prevHeight : ℕ) (currHash : H256) (currHeight : ℕ)
  | sliceChainBreak (currHash prevHash : H256)
  | prevBlockMismatch (prevHeight : ℕ) (expected actual : H256)
  | migrationOverlapsBackfill (height persistedHeight : ℕ)
  | supplyHeightMismatch (expected height : ℕ)
  /-- The reward curve has no amount for a height. -/
  | rewardCurve (height : ℕ)
  | epochSnapshotMissing (hash : H256)
  | tree (e : TreeError)
  /-- The model's fuel ran out: the source would still be walking. -/
  | walkUnfinished
  deriving DecidableEq

/-- The supply counter.  `persistedBackfillHeight` is read from a file at startup, the rest starts
empty. -/
structure SupplyState where
  height : ℕ
  cumulativeEmitted : ℕ
  firstMigrationHeight : Option ℕ
  persistedBackfillHeight : Option ℕ
  deriving DecidableEq

namespace SupplyState

def new (persistedBackfillHeight : Option ℕ) : SupplyState := ⟨0, 0, none, persistedBackfillHeight⟩

def rollbackReward (s : SupplyState) (targetHeight rewardSum : ℕ) : SupplyState :=
  { s with cumulativeEmitted := s.cumulativeEmitted - rewardSum, height := targetHeight }

/-- `add_block_reward`: after the first migration the heights are consecutive. -/
def addBlockReward (s : SupplyState) (height rewardAmount : ℕ) : Res MigrationError SupplyState :=
  let counted (firstMigrationHeight : Option ℕ) : SupplyState :=
    { s with
      height := height
      cumulativeEmitted := saturatingAdd 256 s.cumulativeEmitted rewardAmount
      firstMigrationHeight := firstMigrationHeight }
  match s.firstMigrationHeight, s.persistedBackfillHeight with
  | none, some persistedHeight =>
    if height ≤ persistedHeight then fail (.migrationOverlapsBackfill height persistedHeight)
    else .ok (counted (some height))
  | none, none => .ok (counted (some height))
  | some first, _ =>
    if height ≠ s.height + 1 then fail (.supplyHeightMismatch (s.height + 1) height)
    else .ok (counted (some first))

end SupplyState

/-- **The stores of a node** that the migration reads and writes. -/
structure NodeStores where
  index : List H256
  headers : Std.TreeMap H256 IrysBlockHeader
  supplyState : Option SupplyState

namespace NodeStores

variable (s : NodeStores)

/-- `latest_height`: 0 for an empty index. -/
def latestHeight : ℕ := s.index.length - 1

/-- `truncate_to_height`. -/
def truncate (height : ℕ) : NodeStores := { s with index := s.index.take (height + 1) }

def insertItem (height : ℕ) (hash : H256) : NodeStores :=
  { s with index := s.index.take height ++ hash :: s.index.drop (height + 1) }

end NodeStores

/-- The stores at the first start: the genesis block. -/
def NodeStores.start (genesis : IrysBlockHeader) (supplyState : Option SupplyState) : NodeStores :=
  ⟨[genesis.blockHash], (∅ : Std.TreeMap H256 IrysBlockHeader).insert genesis.blockHash genesis,
    supplyState⟩

/-! ### Heights -/

/-- `block_emission`, from the reward of the block above a parent height. -/
def blockEmission (fullBlockReward : ℕ → Res MigrationError ℕ) : ℕ → Res MigrationError ℕ
  | 0 => .ok 0
  | parentHeight + 1 => fullBlockReward parentHeight

def finalizedHeight (confirmedHeight blockTreeDepth migrationDepth : ℕ) : ℕ :=
  confirmedHeight - (blockTreeDepth - migrationDepth)

def restoreCacheFloor (confirmedTip blockTreeDepth migrationDepth : ℕ) : ℕ :=
  confirmedTip + migrationDepth - (blockTreeDepth - 1)

def computeMigrationHeight (headHeight treeSafeHeight indexSafeHeight : ℕ) : ℕ :=
  min (max treeSafeHeight indexSafeHeight) headHeight

def computePruneHeight (migrationHeight indexSafeHeight depthDelta : ℕ) : ℕ :=
  min (max (migrationHeight - depthDelta) (indexSafeHeight - depthDelta)) migrationHeight

/-- `tree_safe_height`: the height `migrationDepth` below the head of the canonical chain, or that
of its first block when it is shorter. -/
def treeSafeHeight (canonicalChain : List IrysBlockHeader) (migrationDepth : ℕ) :
    Res MigrationError ℕ :=
  if migrationDepth < canonicalChain.length then do
    let entry ← expect canonicalChain[canonicalChain.length - 1 - migrationDepth]?
    return entry.height
  else
    match canonicalChain.head? with
    | none => fail .canonicalChainEmpty
    | some entry => .ok entry.height

/-! ### Markers -/

structure ForkChoiceMarkers where
  head : IrysBlockHeader
  migrationBlock : IrysBlockHeader
  pruneBlock : IrysBlockHeader
  deriving DecidableEq

def loadHeaderFromDb (s : NodeStores) (hash : H256) : Res MigrationError IrysBlockHeader :=
  match s.headers[hash]? with
  | some header => .ok header
  | none => fail (.headerNotFound hash)

def loadHeader (t : BlockTree) (s : NodeStores) (hash : H256) :
    Res MigrationError IrysBlockHeader :=
  match t.getBlock hash with
  | some header => .ok header
  | none => loadHeaderFromDb s hash

def markerFromIndexHeight (s : NodeStores) (height : ℕ) : Res MigrationError IrysBlockHeader :=
  match s.index[height]? with
  | none => fail (.missingIndexEntry height)
  | some hash => loadHeaderFromDb s hash

def blockAtHeight (height : ℕ) (canonicalChain : List IrysBlockHeader) (t : BlockTree)
    (s : NodeStores) : Res MigrationError IrysBlockHeader :=
  match canonicalChain.find? (·.height == height) with
  | some entry => loadHeader t s entry.blockHash
  | none => markerFromIndexHeight s height

def fromBlockTree (t : BlockTree) (s : NodeStores) (migrationDepth pruneDepth : ℕ) :
    Res MigrationError ForkChoiceMarkers := do
  let canonicalChain := t.longestChainCache.1
  match canonicalChain.getLast? with
  | none => fail .canonicalChainEmpty
  | some headEntry => do
    let treeSafe ← treeSafeHeight canonicalChain migrationDepth
    let migrationHeight := computeMigrationHeight headEntry.height treeSafe s.latestHeight
    let pruneHeight := computePruneHeight migrationHeight s.latestHeight
      (pruneDepth - migrationDepth)
    let head ← blockAtHeight headEntry.height canonicalChain t s
    let migrationBlock ← blockAtHeight migrationHeight canonicalChain t s
    let pruneBlock ← blockAtHeight pruneHeight canonicalChain t s
    return ⟨head, migrationBlock, pruneBlock⟩

/-! ### Rolling back -/

/-- What `recover_from_network_partition` reads for one block before it writes anything: the
entries at its height and below, the header, and the emission. -/
def rollbackInfo (emission : ℕ → Res MigrationError ℕ) (s : NodeStores) (height : ℕ) :
    Res MigrationError ℕ :=
  match s.index[height]?, s.index[height - 1]? with
  | none, _ => fail (.missingIndexEntry height)
  | some _, none => fail (.missingIndexEntry (height - 1))
  | some hash, some _ => do
    let _ ← loadHeaderFromDb s hash
    emission height

def recoverFromNetworkPartition (config : ConsensusConfig) (emission : ℕ → Res MigrationError ℕ)
    (forkParentHeight : ℕ) : Mut NodeStores MigrationError Unit := do
  let s ← Mut.read
  if s.index.isEmpty ∨ s.latestHeight ≤ forkParentHeight then return ()
  else
    let finalized :=
      finalizedHeight s.latestHeight config.blockTreeDepth config.blockMigrationDepth
    if forkParentHeight < finalized then
      Mut.lift (fail (.belowFinalized forkParentHeight finalized))
    else do
      let emissions ← Mut.lift ((List.range' (forkParentHeight + 1)
        (s.latestHeight - forkParentHeight)).mapM (rollbackInfo emission s))
      Mut.update fun s =>
        { s.truncate forkParentHeight with
          supplyState := s.supplyState.map fun supply =>
            supply.rollbackReward forkParentHeight (emissions.foldl (saturatingAdd 256) 0) }

/-! ### Migrating -/

/-- The walk of `get_blocks_to_migrate`, from a cursor back to the last migrated block; what it
has passed comes after. -/
def collectToMigrate (t : BlockTree) (lastMigrated : H256) :
    ℕ → H256 → List IrysBlockHeader → Res MigrationError (List IrysBlockHeader)
  | 0, _, _ => fail .walkUnfinished
  | fuel + 1, current, passed =>
    if current = lastMigrated then .ok passed
    else
      match t.getBlock current with
      | none => fail (.notFoundWhileCollecting current)
      | some block =>
        collectToMigrate t lastMigrated fuel block.previousBlockHash (block :: passed)

def getBlocksToMigrate (t : BlockTree) (s : NodeStores) (migrationBlock : IrysBlockHeader) :
    Res MigrationError (List IrysBlockHeader) :=
  match s.index.getLast? with
  | none => fail .indexEmpty
  | some lastMigrated =>
    collectToMigrate t lastMigrated (t.blocks.size + 1) migrationBlock.blockHash []

/-- Neighbours in the migration slice are linked. -/
def validateLinks : List IrysBlockHeader → Res MigrationError Unit
  | prev :: curr :: rest =>
    if curr.height ≠ prev.height + 1 then
      fail (.sliceHeightGap prev.blockHash prev.height curr.blockHash curr.height)
    else if curr.previousBlockHash ≠ prev.blockHash then
      fail (.sliceChainBreak curr.blockHash prev.blockHash)
    else validateLinks (curr :: rest)
  | _ => .ok ()

def validateMigrationContinuity (s : NodeStores) :
    List IrysBlockHeader → Res MigrationError Unit
  | [] => .ok ()
  | first :: rest =>
    match s.index.getLast? with
    | none => fail .indexEmpty
    | some latestIndexed =>
      if s.latestHeight + 1 ≠ first.height then
        fail (.heightGap s.latestHeight latestIndexed first.height first.blockHash)
      else if latestIndexed ≠ first.previousBlockHash then
        fail (.chainBreak latestIndexed first.previousBlockHash)
      else validateLinks (first :: rest)

/-- `persist_block`: the header, and the entry of the index, which must continue the chain. -/
def persistBlock (block : IrysBlockHeader) : Mut NodeStores MigrationError Unit := do
  let s ← Mut.read
  let stored := { s with headers := s.headers.insert block.blockHash block }
  if s.index.isEmpty ∧ block.height = 0 then
    Mut.update fun _ => stored.insertItem 0 block.blockHash
  else
    match s.index[block.height - 1]? with
    | none => Mut.lift (fail (.missingIndexEntry (block.height - 1)))
    | some prev =>
      if prev ≠ block.previousBlockHash then
        Mut.lift (fail (.prevBlockMismatch (block.height - 1) block.previousBlockHash prev))
      else Mut.update fun _ => stored.insertItem block.height block.blockHash

section

variable (emission : ℕ → Res MigrationError ℕ)

/-- The reward of a migrated block. -/
def countReward (height : ℕ) :
    Mut NodeStores MigrationError Unit := do
  let s ← Mut.read
  match s.supplyState with
  | none => return ()
  | some supply => do
    let amount ← Mut.lift (emission height)
    let counted ← Mut.lift (supply.addBlockReward height amount)
    Mut.update fun s => { s with supplyState := some counted }

/-- One block migrates. -/
def migrateBlock (block : IrysBlockHeader) :
    Mut NodeStores MigrationError Unit := do
  persistBlock block
  countReward emission block.height

def migrateBlocks (t : BlockTree)
    (migrationBlock : IrysBlockHeader) : Mut NodeStores MigrationError Unit := do
  let s ← Mut.read
  let blocks ← Mut.lift (getBlocksToMigrate t s migrationBlock)
  Mut.lift (validateMigrationContinuity s blocks)
  Mut.forEach (migrateBlock emission) blocks

end

/-- `send_epoch_events`, as far as it reads the tree. -/
def sendEpochEvents (config : ConsensusConfig) (t : BlockTree)
    (blocksToConfirm : List IrysBlockHeader) : Res MigrationError Unit :=
  match blocksToConfirm.find? fun b => config.epoch.numBlocksInEpoch ∣ b.height with
  | none => .ok ()
  | some epochBlock =>
    if (t.getBlock epochBlock.blockHash).isSome then .ok ()
    else fail (.epochSnapshotMissing epochBlock.blockHash)

/-- **The surroundings of the block tree service** in a node. -/
def nodeOutside (config : ConsensusConfig) (fullBlockReward : ℕ → Res MigrationError ℕ)
    (createSnapshots : IrysBlockHeader → TreeBlockMetadata → Res MigrationError Unit) :
    Outside NodeStores ForkChoiceMarkers MigrationError where
  createSnapshots := createSnapshots
  validateBlock _ := pure ()
  forkChoiceMarkers t s := fromBlockTree t s config.blockMigrationDepth config.blockTreeDepth
  recoverFromNetworkPartition :=
    recoverFromNetworkPartition config (blockEmission fullBlockReward)
  persistMetadata := pure ()
  publishTipMove t m := do
    Mut.lift (sendEpochEvents config t m.split.newDivergent)
    migrateBlocks (blockEmission fullBlockReward) t m.fcuMarkers.migrationBlock

/-! ### Restarting -/

/-- A block of the index joins the tree that a restart builds. -/
def restoreBlock (s : NodeStores) (height : ℕ) : Mut BlockTree MigrationError Unit := do
  let hash ← Mut.lift (expect s.index[height]?)
  let block ← Mut.lift (expect s.headers[hash]?)
  match ← Mut.zoom id (fun t _ => t) .tree
      (BlockTree.addCommon block.blockHash block (.validated .validBlock)).attempt with
  | .ok () => return ()
  | .error _ => Mut.lift (.error .panic)

/-- An entry with the insertion sequence 0. -/
def TreeBlockMetadata.unsequenced (entry : TreeBlockMetadata) : TreeBlockMetadata :=
  { entry with insertionSequence := 0 }

/-- The blocks of a restored tree share the insertion sequence 0. -/
def BlockTree.resetSequences (t : BlockTree) : BlockTree :=
  { t with
    blocks := t.blocks.map fun _ entry => entry.unsequenced
    nextInsertionSequence := 1 }

/-- The rest of `restore_from_db`, once the first block is in the tree. -/
def loadRest (config : ConsensusConfig) (s : NodeStores) (start : ℕ) :
    Mut BlockTree MigrationError Unit := do
  Mut.forEach (restoreBlock s) (List.range' (start + 1) (s.index.length - (start + 1)))
  Mut.update BlockTree.resetSequences
  let tipHash ← Mut.lift (expect s.index.getLast?)
  let _ ← Mut.zoom id (fun t _ => t) .tree (BlockTree.markTip tipHash)
  let _ ← Mut.zoom id (fun t _ => t) .tree (BlockTree.prune (config.blockTreeDepth - 1))

/-- **`restore_from_db`**: the tree after a restart.  It holds the indexed blocks from
`restore_cache_floor` on, and its tip is the last of them. -/
def restoreFromDb (config : ConsensusConfig) (s : NodeStores) : Res MigrationError BlockTree :=
  if s.index.isEmpty then fail .indexEmpty
  else
    let start := restoreCacheFloor s.latestHeight config.blockTreeDepth config.blockMigrationDepth
    match s.index[start]? with
    | none => fail (.missingIndexEntry start)
    | some startHash => do
      let startBlock ← loadHeaderFromDb s startHash
      let first := { BlockTree.new startBlock config with nextInsertionSequence := 0 }
      match (loadRest config s start).run first with
      | (.ok (), t) => return t
      | (.error e, _) => .error e

/-! ### The node -/

/-- What happens to a node: an event of the block tree service, or a restart.  The supply counter
reads its file at a restart. -/
inductive NodeEvent where
  | event (event : Event)
  | restart (persistedBackfillHeight : Option ℕ)
  deriving DecidableEq

/-- A node: the block tree service with its stores. -/
abbrev Node := BlockTreeService NodeStores

namespace Node

/-- The first start: genesis in the tree and in the index.  `backfill` is what the supply counter
reads from its file, for a node that has one. -/
def start (genesis : IrysBlockHeader) (config : ConsensusConfig)
    (backfill : Option (Option ℕ)) : Node where
  cache := BlockTree.new genesis config
  outside := .start genesis (backfill.map .new)
  failures := []

variable (config : ConsensusConfig) (fullBlockReward : ℕ → Res MigrationError ℕ)
  (createSnapshots : IrysBlockHeader → TreeBlockMetadata → Res MigrationError Unit)

/-- The outcome of an event, and the node it leaves. -/
def step (node : Node) : NodeEvent → Res (ServiceError MigrationError) Unit × Node
  | .event event =>
    (BlockTreeService.handle (nodeOutside config fullBlockReward createSnapshots) event).run node
  | .restart persistedBackfillHeight =>
    match restoreFromDb config node.outside with
    | .error e => (mapErr .outside (.error e), node)
    | .ok t =>
      (.ok (), ⟨t, { node.outside with
        supplyState := node.outside.supplyState.map fun _ =>
          .new persistedBackfillHeight }, []⟩)

/-- The node after a run. -/
def run (node : Node) (events : List NodeEvent) : Node :=
  events.foldl (fun node event => (step config fullBlockReward createSnapshots node event).2) node

end Node

end Irys
