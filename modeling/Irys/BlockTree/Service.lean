import Irys.BlockTree.TipMove

/-!
# The block tree service

The service owns the tree and reacts to two kinds of messages: a block that passed
pre-validation, and the result of a block's full validation.  What it drives besides the tree (the
block index and the database, the fork-choice updates, the other services) is a parameter here,
`Outside`; the tree is the same whatever those do, except that their errors end an event early.

* `onBlockPrevalidated`, `onValid`, `discardAndBroadcast`, `handle` — the handlers;
* `tryMoveTipTo`, `moveTipAfterDiscard` — when the tip moves;
* `failures` — the errors that `mark_tip` and `remove_block` have returned to the service.
-/

namespace Irys

/-- A move of the tip, as the other services are told of it. -/
structure TipMove (μ : Type) where
  newTip : IrysBlockHeader
  fcuMarkers : μ
  split : ReorgSplit

/-- What the service reads and drives besides the tree: `σ` is its state, `μ` the fork-choice
markers, `ω` its errors. -/
structure Outside (σ μ ω : Type) where
  /-- The epoch, commitment and EMA snapshots of a block, from its parent. -/
  createSnapshots : IrysBlockHeader → TreeBlockMetadata → Res ω Unit
  /-- The request to validate a block. -/
  validateBlock : IrysBlockHeader → Mut σ ω Unit
  /-- `ForkChoiceMarkers::from_block_tree`. -/
  forkChoiceMarkers : BlockTree → σ → Res ω μ
  recoverFromNetworkPartition : ℕ → Mut σ ω Unit
  /-- `persist_metadata` without blocks. -/
  persistMetadata : Mut σ ω Unit
  publishTipMove : BlockTree → TipMove μ → Mut σ ω Unit

/-- The service: the tree, the rest, and the errors its calls of `mark_tip` and `remove_block`
have returned, latest last. -/
structure BlockTreeService (σ : Type) where
  cache : BlockTree
  outside : σ
  failures : List TreeError

/-- The errors of the handlers. -/
inductive ServiceError (ω : Type) where
  | tree (e : TreeError)
  | oldTipNotFound (hash : H256)
  | tipCandidateNotFound (hash : H256)
  | tipBlockMissing
  | reorgDeeperThanCacheWindow (forkHeight minKeepHeight newTipHeight blockTreeDepth : ℕ)
  | discardOfOnchainRefused (hash : H256)
  | parentNotInCache (parentHash : H256) (expectedHeight : ℕ)
  | addBlockFailed (blockHash : H256) (reason : TreeError)
  | outside (e : ω)
  deriving DecidableEq

/-- The messages of the service.  A node fault is none of them: it ends the process. -/
inductive Event where
  | prevalidated (block : IrysBlockHeader)
  | valid (hash : H256)
  | invalid (hash : H256)
  | softInternal (hash : H256)
  deriving DecidableEq

/-- The block an event brings. -/
def Event.newBlock : Event → Option IrysBlockHeader
  | .prevalidated block => some block
  | .valid _ | .invalid _ | .softInternal _ => none

/-- Why a block is discarded. -/
inductive DiscardKind where
  | softInternal
  | invalid
  deriving DecidableEq

def validateReorgWithinCacheWindow {ω : Type} (forkHeight newTipHeight blockTreeDepth : ℕ) :
    Res (ServiceError ω) Unit :=
  let minKeepHeight := newTipHeight - (blockTreeDepth - 1)
  if forkHeight < minKeepHeight then
    fail (.reorgDeeperThanCacheWindow forkHeight minKeepHeight newTipHeight blockTreeDepth)
  else .ok ()

namespace BlockTreeService

variable {σ μ ω : Type}

/-- A call on the service that may fail. -/
abbrev Call (σ ω α : Type) := Mut (BlockTreeService σ) (ServiceError ω) α

/-- A call on the tree. -/
def onCache {α : Type} (err : TreeError → ServiceError ω) (x : Mut BlockTree TreeError α) :
    Call σ ω α :=
  Mut.zoom cache (fun t s => { s with cache := t }) err x

/-- A call on the rest. -/
def onOutside {α : Type} (x : Mut σ ω α) : Call σ ω α :=
  Mut.zoom outside (fun r s => { s with outside := r }) .outside x

/-- Note an error of `mark_tip` or `remove_block`. -/
def note (errors : List TreeError) : Call σ ω Unit :=
  Mut.update fun s => { s with failures := s.failures ++ errors }

/-- A call of `mark_tip` or `remove_block` on the tree, with its error noted and handed to the
caller. -/
def noted {α : Type} (x : Mut BlockTree TreeError α) : Call σ ω (Except TreeError α) := do
  let result ← onCache .tree x.attempt
  match result with
  | .ok a => return .ok a
  | .error e => do
    note [e]
    return .error e

/-! ### Pre-validated blocks -/

def onBlockPrevalidated (o : Outside σ μ ω) (block : IrysBlockHeader) : Call σ ω Unit := do
  let s ← Mut.read
  if (s.cache.getBlock block.blockHash).isSome then return ()
  else
    match s.cache.blocks[block.previousBlockHash]? with
    | none => Mut.lift (fail (.parentNotInCache block.previousBlockHash (block.height - 1)))
    | some parentEntry => do
      Mut.lift (mapErr .outside (o.createSnapshots block parentEntry))
      onCache (.addBlockFailed block.blockHash) (BlockTree.addBlock block)
      Mut.update fun s =>
        { s with cache := s.cache.markBlockAsValidationScheduled block.blockHash }
      onOutside (o.validateBlock block)

/-! ### Moving the tip -/

/-- The part of `try_move_tip_to` that only reads: whether the tip moves, and where the chains
part if it does. -/
def tipMoveDecision (t : BlockTree) (candidate : H256) :
    Res (ServiceError ω) (Option (IrysBlockHeader × ReorgSplit)) :=
  match t.getBlock candidate, t.getBlock t.tip with
  | none, _ => fail (.tipCandidateNotFound candidate)
  | some _, none => fail .tipBlockMissing
  | some newTip, some oldTip =>
    -- only a block heavier than the tip replaces it
    if newTip.cumulativeDiff ≤ oldTip.cumulativeDiff then .ok none
    -- and not one that ties the heaviest block
    else if newTip.cumulativeDiff = t.getMaxCumulativeDifficultyBlock.1 ∧
        t.getMaxCumulativeDifficultyBlock.2 ≠ candidate then .ok none
    else do
      let split ← mapErr .tree (t.findReorgSplit candidate oldTip.blockHash)
      validateReorgWithinCacheWindow split.lca.height newTip.height
        t.consensusConfig.blockTreeDepth
      return some (newTip, split)

section

variable (o : Outside σ μ ω)

/-- A fork deeper than the migration depth has migrated blocks to roll back. -/
def rollBack (blockMigrationDepth : ℕ) (split : ReorgSplit) : Call σ ω Unit :=
  if blockMigrationDepth < split.oldDivergent.length then
    onOutside (o.recoverFromNetworkPartition split.lca.height)
  else pure ()

/-- The rest of `try_move_tip_to`, once the tip is to move. -/
def moveTip (candidate : H256) (newTip : IrysBlockHeader)
    (split : ReorgSplit) : Call σ ω (Option (TipMove μ)) := do
  match ← noted (BlockTree.markTip candidate) with
  | .error e => Mut.lift (fail (.tree e))
  | .ok false => return none
  | .ok true => do
    let s ← Mut.read
    let fcuMarkers ← Mut.lift (mapErr .outside (o.forkChoiceMarkers s.cache s.outside))
    -- a tip and `depth - 1` blocks below it are kept
    let errors ← onCache .tree
      (BlockTree.prune (s.cache.consensusConfig.blockTreeDepth - 1))
    note errors
    rollBack o s.cache.consensusConfig.blockMigrationDepth split
    return some { newTip := newTip, fcuMarkers := fcuMarkers, split := split }

def tryMoveTipTo (candidate : H256) : Call σ ω (Option (TipMove μ)) := do
  let s ← Mut.read
  match ← Mut.lift (tipMoveDecision s.cache candidate) with
  | none => return none
  | some (newTip, split) => moveTip o candidate newTip split

/-- `publish_tip_move`; the tree is only read. -/
def publish (m : TipMove μ) : Call σ ω Unit := do
  let s ← Mut.read
  onOutside (o.publishTipMove s.cache m)

/-- What follows the decision on the tip. -/
def announce (otherwise : Call σ ω Unit) : Option (TipMove μ) → Call σ ω Unit
  | none => otherwise
  | some m => publish o m

end

/-! ### Validation results -/

/-- `discard_and_broadcast`: the block and its descendants leave the tree.  A soft result for an
on-chain block is ignored; an invalid one stops the service. -/
def discardAndBroadcast (hash : H256) (kind : DiscardKind) : Call σ ω Unit := do
  let s ← Mut.read
  match s.cache.getStatus hash with
  | none => return ()
  | some state =>
    if kind = .softInternal ∧ state = .onchain then return ()
    else
      match ← noted (BlockTree.removeBlock hash) with
      | .ok () => return ()
      | .error _ =>
        if state = .onchain then Mut.lift (fail (.discardOfOnchainRefused hash))
        else return ()

section

variable (o : Outside σ μ ω)

/-- **`move_tip_after_discard`**: a validated block that an earlier event passed over may now be
the heaviest. -/
def moveTipAfterDiscard : Call σ ω Unit := do
  let s ← Mut.read
  if s.cache.getEarliestNotOnchainInLongestChain.isNone then return ()
  else if s.cache.getMaxChainValidatedHead ≠ some s.cache.getMaxCumulativeDifficultyBlock.2 then
    return ()
  else do
    let tipMove ← tryMoveTipTo o s.cache.getMaxCumulativeDifficultyBlock.2
    announce o (pure ()) tipMove

/-- The arm of `on_block_validation_finished` for a valid block. -/
def onValid (hash : H256) : Call σ ω Unit := do
  let s ← Mut.read
  match s.cache.getBlock hash, s.cache.getBlock s.cache.tip with
  | none, _ => return ()
  | some _, none => Mut.lift (fail (.oldTipNotFound s.cache.tip))
  | some _, some _ =>
    match ← onCache .tree (BlockTree.markBlockAsValid hash).attempt with
    | .error _ => return ()
    | .ok () => do
      let s ← Mut.read
      if s.cache.getEarliestNotOnchainInLongestChain.isNone then return ()
      else do
        let tipMove ← tryMoveTipTo o hash
        announce o (onOutside o.persistMetadata) tipMove

/-- **The handlers.** -/
def handle : Event → Call σ ω Unit
  | .prevalidated block => onBlockPrevalidated o block
  | .valid hash => onValid o hash
  | .invalid hash => do
    discardAndBroadcast hash .invalid
    moveTipAfterDiscard o
  | .softInternal hash => do
    discardAndBroadcast hash .softInternal
    moveTipAfterDiscard o

/-- The service after an event. -/
def after (s : BlockTreeService σ) (event : Event) : BlockTreeService σ :=
  ((handle o event).run s).2

end

/-! ### What an event decides

Whether a validation result moves the tip, and where to, is settled by the tree it finds. -/

/-- The tree without a block that is off the chain, and what grew on it. -/
def discarded (t : BlockTree) (hash : H256) : BlockTree :=
  match t.getStatus hash with
  | none | some .onchain => t
  | some _ => ((BlockTree.removeBlock hash).run t).2

/-- The tree on which a validation result decides about the tip. -/
def preparedTree (t : BlockTree) : Event → BlockTree
  | .prevalidated _ => t
  | .valid hash => ((BlockTree.markBlockAsValid hash).run t).2
  | .invalid hash | .softInternal hash => discarded t hash

/-- The block that an event tries to make the tip, if it tries one. -/
def candidate (t : BlockTree) (event : Event) : Option H256 :=
  let t₁ := preparedTree t event
  let heaviest := t₁.getMaxChainValidatedHead.filter (· = t₁.getMaxCumulativeDifficultyBlock.2)
  if t₁.getEarliestNotOnchainInLongestChain.isNone then none
  else
    match event with
    | .prevalidated _ => none
    | .valid hash => if ((BlockTree.markBlockAsValid hash).run t).1.isOk then some hash else none
    | .invalid hash => if t.getStatus hash = some .onchain then none else heaviest
    | .softInternal _ => heaviest

/-- **The move of the tip that an event decides on**: the new tip, and where the chains part. -/
def decidedMove (ω : Type) (t : BlockTree) (event : Event) :
    Option (IrysBlockHeader × ReorgSplit) :=
  (candidate t event).bind fun n =>
    (tipMoveDecision (preparedTree t event) n : Res (ServiceError ω) _).toOption.join

end BlockTreeService

end Irys
