import Irys.Chain.Types
import Irys.Lib.Buckets
import Irys.Lib.Forest
import Irys.Lib.Mutable

/-!
# The block tree

The blocks above the last migrated ones, in one tree by parent hash, with the canonical chain
marked in it.  Blocks are stored under their hashes; three indexes (children, heights, solution
hashes), the heaviest block and the canonical chain are kept beside them and updated by hand.

* `addBlock`, `deleteBlock`, `removeBlock` — blocks come and go;
* `markTip`, `markBlockAsValid` — a block moves along its states, and the tip with it;

A hash map iterates in key order here.  A walk along parent hashes takes at most as many steps as
there are blocks; the recursive functions carry that bound as fuel.
-/

namespace Irys

/-- How far the validation of a block has come. -/
inductive BlockState where
  | unknown
  | validationScheduled
  | validBlock
  deriving DecidableEq

/-- Where a block stands with respect to the canonical chain. -/
inductive ChainState where
  | onchain
  | validated (state : BlockState)
  | notOnchain (state : BlockState)
  deriving DecidableEq

/-- `is_parent_ready`: a block in one of these states has passed validation. -/
def ChainState.isParentReady : ChainState → Bool
  | .onchain | .validated .validBlock | .notOnchain .validBlock => true
  | _ => false

structure TreeBlockMetadata where
  block : IrysBlockHeader
  chainState : ChainState
  children : Std.TreeSet H256
  insertionSequence : ℕ

/-- The block tree.  The maximum cumulative difficulty comes with the block that has it; the
chain cache comes with the number of its blocks that are not on chain. -/
structure BlockTree where
  blocks : Std.TreeMap H256 TreeBlockMetadata
  solutions : Buckets H256 H256
  tip : H256
  maxCumulativeDifficulty : ℕ × H256
  nextInsertionSequence : ℕ
  heightIndex : Buckets ℕ H256
  longestChainCache : List IrysBlockHeader × ℕ
  consensusConfig : ConsensusConfig

/-- The errors of the tree's methods. -/
inductive TreeError where
  | previousBlockNotFound
  | blockNotFound
  | cannotRemoveOnchain (hash : H256)
  | blockNotFoundInCache
  | invalidTip
  | unableToMarkValid (state : ChainState) (hash : H256)
  | unableToMarkValidNotFound
  | newTipNotInCache (newTip : H256)
  | oldTipNotInCache (oldTip : H256)
  | oldWalkExhausted (newTip oldTip : H256)
  | oldChainReachedGenesis (newTip oldTip : H256)
  /-- The model's fuel ran out: the source would still be walking. -/
  | walkUnfinished
  deriving DecidableEq

/-- Where two chains part.  Both sides are oldest first and exclude the common block. -/
structure ReorgSplit where
  lca : IrysBlockHeader
  oldDivergent : List IrysBlockHeader
  newDivergent : List IrysBlockHeader
  deriving DecidableEq

namespace BlockTree

/-- A tree that holds one block, on chain and the tip. -/
def new (genesis : IrysBlockHeader) (config : ConsensusConfig) : BlockTree where
  blocks := (∅ : Std.TreeMap H256 TreeBlockMetadata).insert genesis.blockHash
    { block := genesis, chainState := .onchain, children := ∅, insertionSequence := 0 }
  solutions := (∅ : Buckets H256 H256).add genesis.solutionHash genesis.blockHash
  tip := genesis.blockHash
  maxCumulativeDifficulty := (genesis.cumulativeDiff, genesis.blockHash)
  nextInsertionSequence := 1
  heightIndex := (∅ : Buckets ℕ H256).add genesis.height genesis.blockHash
  longestChainCache := ([genesis], 0)
  consensusConfig := config

variable (t : BlockTree)

def getBlock (hash : H256) : Option IrysBlockHeader := t.blocks[hash]?.map (·.block)

/-- The chain state of a block of the tree. -/
def getStatus (hash : H256) : Option ChainState := t.blocks[hash]?.map (·.chainState)

/-- The walk along parent hashes that every `while let Some(entry) = self.blocks.get(&cursor)`
takes: the blocks it meets, with the cursor at each. -/
def lineage (hash : H256) : List (H256 × TreeBlockMetadata) :=
  Forest.walk (fun k => t.blocks[k]?) (fun e => e.block.previousBlockHash) t.blocks.size hash

/-! ### The canonical chain -/

/-- The blocks that `update_longest_chain_cache` collects along its walk: at most one more than
`blocksToCollect`, and none past genesis. -/
def collectChain : ℕ → List (H256 × TreeBlockMetadata) → List TreeBlockMetadata
  | _, [] => []
  | blocksToCollect, (_, entry) :: rest =>
    entry :: if blocksToCollect = 0 ∨ entry.block.height = 0 then []
      else collectChain (blocksToCollect - 1) rest

def updateLongestChainCache : BlockTree :=
  let pairs := collectChain t.consensusConfig.blockTreeDepth (t.lineage t.tip)
  { t with
    longestChainCache :=
      ((pairs.map (·.block)).reverse, pairs.countP fun entry => entry.chainState != .onchain) }

/-! ### The heaviest block -/

/-- `canonical_fork_height`: the height of the newest on-chain block among a block and its
ancestors. -/
def canonicalForkHeight (entry : TreeBlockMetadata) : Option ℕ :=
  ((entry :: (t.lineage entry.block.previousBlockHash).map Prod.snd).find?
    (·.chainState == .onchain)).map (·.block.height)

/-- The order among blocks of equal difficulty: first added, then highest fork point, then the
hash. -/
def tieBreak (p : H256 × TreeBlockMetadata) : ℕ ×ₗ ((WithBot ℕ)ᵒᵈ ×ₗ H256) :=
  toLex (p.2.insertionSequence,
    toLex (OrderDual.toDual (t.canonicalForkHeight p.2 : WithBot ℕ), p.1))

def findMaxDifficulty : Res TreeError (ℕ × H256) :=
  match (t.blocks.toList.map (·.2.block.cumulativeDiff)).max? with
  | none => .ok (0, 0)
  | some maxDiff => do
    let heaviest := t.blocks.toList.filter (·.2.block.cumulativeDiff == maxDiff)
    let (hash, _) ← expect (heaviest.argmin t.tieBreak)
    return (maxDiff, hash)

/-! ### Adding and removing blocks -/

/-- What `add_common` writes besides the chain cache, once it has found the parent. -/
def place (hash : H256) (block : IrysBlockHeader) (chainState : ChainState)
    (prevEntry : TreeBlockMetadata) : BlockTree :=
  let blocks := t.blocks.insert block.previousBlockHash
    { prevEntry with children := prevEntry.children.insert hash }
  -- a block added again keeps the sequence of its first add
  let sequence := (blocks[hash]?.map (·.insertionSequence)).getD t.nextInsertionSequence
  { t with
    blocks := blocks.insert hash
      { block := block, chainState := chainState, children := ∅, insertionSequence := sequence }
    solutions := t.solutions.add block.solutionHash hash
    heightIndex := t.heightIndex.add block.height hash
    maxCumulativeDifficulty :=
      if t.maxCumulativeDifficulty.1 < block.cumulativeDiff then (block.cumulativeDiff, hash)
      else t.maxCumulativeDifficulty
    nextInsertionSequence :=
      if blocks.contains hash then t.nextInsertionSequence else t.nextInsertionSequence + 1 }

def addCommon (hash : H256) (block : IrysBlockHeader) (chainState : ChainState) :
    Mut BlockTree TreeError Unit := do
  let t ← Mut.read
  match t.blocks[block.previousBlockHash]? with
  | none => Mut.lift (fail .previousBlockNotFound)
  | some prevEntry =>
    Mut.update fun t => (t.place hash block chainState prevEntry).updateLongestChainCache

def addBlock (block : IrysBlockHeader) : Mut BlockTree TreeError Unit := do
  let t ← Mut.read
  if t.getStatus block.blockHash = some .onchain then return ()
  addCommon block.blockHash block (.notOnchain .unknown)

/-- The block leaves its parent's children, the indexes and the store. -/
def unlink (hash : H256) (entry : TreeBlockMetadata) : BlockTree :=
  { t with
    blocks := (t.blocks.modify entry.block.previousBlockHash fun prev =>
      { prev with children := prev.children.erase hash }).erase hash
    heightIndex := t.heightIndex.drop entry.block.height hash
    solutions := t.solutions.drop entry.block.solutionHash hash }

/-- `delete_block`: one block, without its descendants. -/
def deleteBlock (hash : H256) : Mut BlockTree TreeError Unit := do
  let t ← Mut.read
  match t.blocks[hash]? with
  | none => Mut.lift (fail .blockNotFound)
  | some entry =>
    let unlinked := t.unlink hash entry
    let maxBlock ← Mut.lift
      (if t.maxCumulativeDifficulty.2 = hash then unlinked.findMaxDifficulty
      else .ok t.maxCumulativeDifficulty)
    Mut.update fun _ =>
      { unlinked with maxCumulativeDifficulty := maxBlock }.updateLongestChainCache

/-- The recursion of `remove_block`: the children first, then the block. -/
def removeSubtree : ℕ → H256 → Mut BlockTree TreeError Unit
  | 0, _ => Mut.lift (fail .walkUnfinished)
  | fuel + 1, hash => do
    let t ← Mut.read
    match t.blocks[hash]? with
    | none => Mut.lift (fail .blockNotFound)
    | some entry =>
      if entry.chainState = .onchain then Mut.lift (fail (.cannotRemoveOnchain hash))
      else do
        Mut.forEach (removeSubtree fuel) entry.children.toList
        deleteBlock hash

/-- `remove_block`: a block and all its descendants. -/
def removeBlock (hash : H256) : Mut BlockTree TreeError Unit := do
  let t ← Mut.read
  removeSubtree t.blocks.size hash

/-! ### Moving the tip -/

/-- Write a block's chain state. -/
def setChainState (hash : H256) (state : ChainState) : BlockTree :=
  { t with blocks := t.blocks.modify hash fun entry => { entry with chainState := state } }

/-- `mark_off_chain`: the on-chain blocks among the children, and below them, leave the chain. -/
def markOffChain : ℕ → List H256 → H256 → BlockTree → BlockTree
  | 0, _, _, t => t
  | fuel + 1, children, current, t =>
    children.foldl
      (fun t child =>
        if child = current then t
        else
          match t.blocks[child]? with
          | none => t
          | some entry =>
            if entry.chainState = .onchain then
              markOffChain fuel entry.children.toList current
                (t.setChainState child (.validated .validBlock))
            else t)
      t

/-- `mark_on_chain`: the ancestors of a block join the chain, down to the first that is on it;
the branch they replace leaves it. -/
def markOnChain : ℕ → IrysBlockHeader → Mut BlockTree TreeError Unit
  | 0, _ => Mut.lift (fail .walkUnfinished)
  | fuel + 1, header => do
    let t ← Mut.read
    match t.blocks[header.previousBlockHash]? with
    | none => return ()
    | some prevEntry =>
      match prevEntry.chainState with
      | .onchain =>
        Mut.update fun t =>
          t.markOffChain t.blocks.size prevEntry.children.toList header.blockHash
      | .notOnchain .validBlock | .validated _ => do
        Mut.update fun t => t.setChainState header.previousBlockHash .onchain
        markOnChain fuel prevEntry.block
      | .notOnchain _ => Mut.lift (fail .invalidTip)

/-- `mark_tip`: whether the tip changed.  A block that ties the heaviest one is refused. -/
def markTip (hash : H256) : Mut BlockTree TreeError Bool := do
  let t ← Mut.read
  match t.blocks[hash]? with
  | none => Mut.lift (fail .blockNotFoundInCache)
  | some entry =>
    if entry.block.cumulativeDiff = t.maxCumulativeDifficulty.1 ∧
        t.maxCumulativeDifficulty.2 ≠ hash then return false
    else do
      markOnChain t.blocks.size entry.block
      Mut.update fun t =>
        { t.setChainState hash .onchain with tip := hash }.updateLongestChainCache
      return t.tip != hash

/-- `mark_block_as_validation_scheduled`; it never fails. -/
def markBlockAsValidationScheduled (hash : H256) : BlockTree :=
  match t.getStatus hash with
  | some (.notOnchain .unknown) =>
    (t.setChainState hash (.notOnchain .validationScheduled)).updateLongestChainCache
  | some (.validated .unknown) =>
    (t.setChainState hash (.validated .validationScheduled)).updateLongestChainCache
  | _ => t

def markBlockAsValid (hash : H256) : Mut BlockTree TreeError Unit := do
  let t ← Mut.read
  match t.getStatus hash with
  | some (.notOnchain .validationScheduled) =>
    Mut.update fun t => (t.setChainState hash (.notOnchain .validBlock)).updateLongestChainCache
  | some (.validated .validationScheduled) =>
    Mut.update fun t => (t.setChainState hash (.validated .validBlock)).updateLongestChainCache
  | some state => Mut.lift (fail (.unableToMarkValid state hash))
  | none => Mut.lift (fail .unableToMarkValidNotFound)

/-! ### Walks -/

/-- The walk back from the new tip stops at genesis. -/
def untilGenesis : List (H256 × TreeBlockMetadata) → List (H256 × TreeBlockMetadata)
  | [] => []
  | x :: rest => x :: if x.2.block.height = 0 then [] else untilGenesis rest

/-- The walk back from the old tip, to the first block of the new chain.  It returns that block
and the blocks passed, oldest first. -/
def walkToNewChain (newHashes : List H256) (newTip oldTip : H256) :
    List IrysBlockHeader → List (H256 × TreeBlockMetadata) →
      Res TreeError (IrysBlockHeader × List IrysBlockHeader)
  | passed, [] =>
    if passed.isEmpty then fail (.oldTipNotInCache oldTip)
    else fail (.oldWalkExhausted newTip oldTip)
  | passed, (cursor, entry) :: rest =>
    if cursor ∈ newHashes then .ok (entry.block, passed)
    else if entry.block.height = 0 then fail (.oldChainReachedGenesis newTip oldTip)
    else walkToNewChain newHashes newTip oldTip (entry.block :: passed) rest

/-- `find_reorg_split`: the last block two chains share, and what each has above it. -/
def findReorgSplit (newTip oldTip : H256) : Res TreeError ReorgSplit := do
  let newWalk := untilGenesis (t.lineage newTip)
  if newWalk.isEmpty then fail (.newTipNotInCache newTip)
  else do
    let (lca, oldDivergent) ←
      walkToNewChain (newWalk.map Prod.fst) newTip oldTip [] (t.lineage oldTip)
    let newBlocks := newWalk.map (·.2.block)
    let lcaIdx ← expect (newBlocks.findIdx? (·.blockHash == lca.blockHash))
    return { lca := lca, oldDivergent := oldDivergent
             newDivergent := (newBlocks.take lcaIdx).reverse }

abbrev getMaxCumulativeDifficultyBlock : ℕ × H256 := t.maxCumulativeDifficulty

/-- The loop of `get_max_chain_validated_head`. -/
def validatedHead : Option H256 → List (H256 × TreeBlockMetadata) → Option H256
  | _, [] => none
  | head, (current, entry) :: rest =>
    match entry.chainState with
    | .onchain => some (head.getD current)
    | .notOnchain .validBlock | .validated .validBlock =>
      validatedHead (some (head.getD current)) rest
    -- a block that waits for validation ends the prefix below it
    | .notOnchain _ | .validated _ => validatedHead none rest

/-- `get_max_chain_validated_head`: how far the heaviest chain is validated. -/
def getMaxChainValidatedHead : Option H256 :=
  validatedHead none (t.lineage t.maxCumulativeDifficulty.2)

/-- `get_fork_blocks`: a block and its ancestors down to the first on-chain one, oldest first. -/
def getForkBlocks (previousBlockHash : H256) : List IrysBlockHeader :=
  (upToOnchain (t.lineage previousBlockHash)).reverse
where
  upToOnchain : List (H256 × TreeBlockMetadata) → List IrysBlockHeader
    | [] => []
    | (_, entry) :: rest =>
      entry.block :: if entry.chainState = .onchain then [] else upToOnchain rest

/-- `get_earliest_not_onchain`: from a block back to the one whose parent is validated or on
chain, over at most `depth` blocks.  `rest` is the walk from the block's parent. -/
def earliestNotOnchain : ℕ → TreeBlockMetadata → List (H256 × TreeBlockMetadata) →
    Option (TreeBlockMetadata × List IrysBlockHeader)
  | 0, _, _ => none
  | depth + 1, entry, rest =>
    if entry.block.height = 0 then none
    else
      match rest with
      | [] => none
      | (_, prevEntry) :: rest =>
        match prevEntry.chainState with
        | .validated .validBlock | .onchain =>
          some (entry, t.getForkBlocks entry.block.previousBlockHash)
        | .notOnchain _ | .validated _ => earliestNotOnchain depth prevEntry rest

/-- `get_earliest_not_onchain_in_longest_chain`: where the fork of the heaviest block starts, when
that block is heavier than the tip. -/
def getEarliestNotOnchainInLongestChain : Option (TreeBlockMetadata × List IrysBlockHeader) := do
  let tipEntry ← t.blocks[t.tip]?
  if t.maxCumulativeDifficulty.1 ≤ tipEntry.block.cumulativeDiff then none
  else do
    let entry ← t.blocks[t.maxCumulativeDifficulty.2]?
    match entry.chainState with
    | .notOnchain _ | .validated _ =>
      t.earliestNotOnchain t.consensusConfig.blockTreeDepth entry
        (t.lineage entry.block.previousBlockHash)
    | .onchain => none

/-! ### Pruning -/

/-- A child of a pruned block goes, with its subtree, unless it is on chain. -/
def pruneChild (child : H256) : Mut BlockTree TreeError (List TreeError) := do
  let t ← Mut.read
  match t.getStatus child with
  | none | some .onchain => return []
  | some _ => (removeBlock child).logged

/-- A block at a pruned height goes if it is on chain. -/
def pruneBlock (hash : H256) : Mut BlockTree TreeError (List TreeError) := do
  let t ← Mut.read
  match t.blocks[hash]? with
  | none => return []
  | some entry =>
    if entry.chainState = .onchain then do
      let childErrors ← Mut.gather pruneChild entry.children.toList
      let ownError ← (deleteBlock hash).logged
      return childErrors ++ ownError
    else return []

/-- The blocks at one height. -/
def pruneHeight (height : ℕ) : Mut BlockTree TreeError (List TreeError) := do
  let t ← Mut.read
  match t.heightIndex[height]? with
  | none => return []
  | some hashes => Mut.gather pruneBlock hashes.toList

/-- **`prune`**: the on-chain blocks more than `depth` below the tip go, and the forks that hang
from them.  The result is the list of errors it logs. -/
def prune (depth : ℕ) : Mut BlockTree TreeError (List TreeError) := do
  let t ← Mut.read
  let tipEntry ← Mut.lift (expect t.blocks[t.tip]?)
  let minKeepHeight := tipEntry.block.height - depth
  match t.heightIndex.keys.min? with
  | none => return []
  | some minHeight => Mut.gather pruneHeight (List.range' minHeight (minKeepHeight - minHeight))

end BlockTree

end Irys
