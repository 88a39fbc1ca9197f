import Irys.Chain.Types

/-!
# What a node reads about its chain

Recent blocks stand in the block tree, by hash; blocks that have migrated stand in the block
index, by height, with their headers and transactions in the database.  The readers below are
those of the ledger-expiry code.

Every failure is a `ChainReadError`; the errors name what was read.
-/

namespace Irys

/-- A ledger of a block in the block index. -/
structure LedgerIndexItem where
  totalChunks : ℕ
  txRoot : H256
  ledger : DataLedger
  deriving DecidableEq

structure BlockIndexItem where
  blockHash : H256
  ledgers : List LedgerIndexItem
  deriving DecidableEq

/-- **The stores of a node.**  The index is stored by height without gaps, and its hashes are the
`MigratedBlockHashes` table.  Data transactions are looked up in the mempool first. -/
structure Stores where
  tree : H256 → Option SealedBlock
  index : List BlockIndexItem
  headers : H256 → Option IrysBlockHeader
  mempoolTxs : IrysTransactionId → Option DataTransactionHeader
  databaseTxs : IrysTransactionId → Option DataTransactionHeader
  includedHeight : IrysTransactionId → Option ℕ

/-- Why a read failed. -/
inductive ChainReadError where
  | indexEmpty
  | noBlockAtHeight (height : ℕ)
  | ledgerInactive (ledger : DataLedger) (anchorHeight : ℕ)
  | offsetBeyondFrontier (ledger : DataLedger) (chunkOffset frontier anchorHeight : ℕ)
  | ledgerNotFound (ledger : DataLedger) (height : ℕ)
  | nonCanonicalAncestor (height : ℕ) (hash : H256)
  | predecessorNotIndexed (height : ℕ)
  | canonicalHeaderMissing (height : ℕ) (hash : H256)
  | canonicalHeightMismatch (height : ℕ) (hash : H256) (headerHeight : ℕ)
  | submitHeightNotIndexed (height : ℕ)
  | blockNotFound (hash : H256)
  | ledgerRequired (ledger : DataLedger) (hash : H256)
  | bodyMismatch (ledger : DataLedger) (hash : H256)
  | missingTransactions (ids : List IrysTransactionId)
  /-- The model's fuel ran out: the source would still be walking. -/
  | walkUnfinished
  deriving DecidableEq

section

variable (item : BlockIndexItem) (ledger : DataLedger)

/-- What an index item records for a ledger, if it has the ledger. -/
def BlockIndexItem.ledgerItem? :
    Option LedgerIndexItem :=
  item.ledgers.find? fun l => l.ledger == ledger

/-- The chunk total an index item records for a ledger, if it has the ledger. -/
def BlockIndexItem.total? : Option ℕ :=
  (item.ledgerItem? ledger).map (·.totalChunks)

/-- `ledger_total_of_index_item`: 0 for a ledger the item does not have. -/
def ledgerTotalOfIndexItem : ℕ :=
  (item.total? ledger).getD 0

end

/-- A block with its height and the chunks of a ledger before and through it. -/
structure BlockSpan where
  height : ℕ
  blockHash : H256
  startChunkOffset : ℕ
  endChunkOffset : ℕ
  deriving DecidableEq

/-- A block's span in a ledger, with the root over the transactions it applied there. -/
structure BlockBounds extends BlockSpan where
  ledger : DataLedger
  txRoot : H256
  deriving DecidableEq

namespace Stores

variable (s : Stores)

/-! ### The block index -/

def itemByHeight (height : ℕ) : Res ChainReadError BlockIndexItem :=
  match s.index[height]? with
  | some item => .ok item
  | none => fail (.noBlockAtHeight height)

section

variable (ledger : DataLedger)

/-- The binary search of `block_bounds_at_height_in_tx`: the first height in `[lo, hi]` whose
total exceeds the offset, or `hi`. -/
def searchHeight (chunkOffset lo hi : ℕ) : Res ChainReadError ℕ :=
  if lo < hi then do
    let mid := lo + (hi - lo) / 2
    let item ← s.itemByHeight mid
    if chunkOffset < ledgerTotalOfIndexItem item ledger then
      searchHeight chunkOffset lo mid
    else searchHeight chunkOffset (mid + 1) hi
  else .ok lo
termination_by hi - lo

/-- The chunk total of the index before a height: 0 before genesis. -/
def totalBeforeHeight (height : ℕ) : Res ChainReadError ℕ :=
  if height = 0 then .ok 0
  else do
    let previousItem ← s.itemByHeight (height - 1)
    return ledgerTotalOfIndexItem previousItem ledger

def blockBoundsAtHeight (chunkOffset anchorHeight : ℕ) :
    Res ChainReadError BlockBounds := do
  let anchorItem ← s.itemByHeight anchorHeight
  match anchorItem.total? ledger with
  | none => fail (.ledgerInactive ledger anchorHeight)
  | some anchorMax =>
    if anchorMax ≤ chunkOffset then
      fail (.offsetBeyondFrontier ledger chunkOffset anchorMax anchorHeight)
    else do
      let blockHeight ← s.searchHeight ledger chunkOffset 0 anchorHeight
      let foundItem ← s.itemByHeight blockHeight
      let prevTotal ← s.totalBeforeHeight ledger blockHeight
      match foundItem.ledgerItem? ledger with
      | none => fail (.ledgerNotFound ledger blockHeight)
      | some foundLedger =>
        return { height := blockHeight
                 blockHash := foundItem.blockHash
                 startChunkOffset := prevTotal
                 endChunkOffset := foundLedger.totalChunks
                 ledger := ledger
                 txRoot := foundLedger.txRoot }

/-- `get_block_bounds`: the search anchored at the latest indexed height. -/
def getBlockBounds (chunkOffset : ℕ) : Res ChainReadError BlockBounds :=
  if s.index.isEmpty then fail .indexEmpty
  else s.blockBoundsAtHeight ledger chunkOffset (s.index.length - 1)

end

/-! ### Along the ancestry -/

/-- `is_canonical_at`: whether a hash is the migrated block at a height. -/
def isCanonicalAt (hash : H256) (height : ℕ) : Bool :=
  s.index[height]?.map (·.blockHash) == some hash

/-- The chunk total before a block of the tree: from the tree, or, once the ancestry has left
the tree, from the index, and then only for the canonical block of that height. -/
def predecessorTotal (header : IrysBlockHeader) (ledger : DataLedger) : Res ChainReadError ℕ :=
  if header.height = 0 then .ok 0
  else
    match s.tree header.previousBlockHash with
    | some prev => .ok (prev.header.ledgerTotalChunks ledger)
    | none =>
      let prevHeight := header.height - 1
      if !s.isCanonicalAt header.previousBlockHash prevHeight then
        fail (.nonCanonicalAncestor prevHeight header.previousBlockHash)
      else
        match s.index[prevHeight]? with
        | some item => .ok (ledgerTotalOfIndexItem item ledger)
        | none => fail (.predecessorNotIndexed prevHeight)

/-- The walk of `resolve_ledger_offset_to_block` down the tree, from a cursor; `none` when it
leaves the tree. -/
def walkToOffset (ledger : DataLedger) (offset : ℕ) :
    ℕ → H256 → Res ChainReadError (Option BlockSpan)
  | 0, _ => fail .walkUnfinished
  | fuel + 1, cursor =>
    match s.tree cursor with
    | none => .ok none
    | some block => do
      let total := block.header.ledgerTotalChunks ledger
      let prevTotal ← s.predecessorTotal block.header ledger
      if prevTotal ≤ offset ∧ offset < total then
        return some { height := block.header.height
                      blockHash := cursor
                      startChunkOffset := prevTotal
                      endChunkOffset := total }
      else walkToOffset ledger offset fuel block.header.previousBlockHash

def resolveOffsetViaIndex (ledger : DataLedger) (offset : ℕ) : Res ChainReadError BlockSpan := do
  let bounds ← s.getBlockBounds ledger offset
  return bounds.toBlockSpan

/-- **`resolve_ledger_offset_to_block`**: the block of the parent's ancestry that introduced a
chunk.  Chunks below the index tip are searched in the index. -/
def resolveLedgerOffsetToBlock (fuel offset : ℕ) (parentHash : H256) (ledger : DataLedger) :
    Res ChainReadError BlockSpan := do
  let indexTipTotal := (s.index.getLast?.map (ledgerTotalOfIndexItem · ledger)).getD 0
  if offset < indexTipTotal then s.resolveOffsetViaIndex ledger offset
  else
    match ← s.walkToOffset ledger offset fuel parentHash with
    | some bounds => return bounds
    | none => s.resolveOffsetViaIndex ledger offset

/-! ### Transactions -/

/-- A data transaction by id: the mempool's copy, else the database's. -/
def getDataTx (id : IrysTransactionId) : Option DataTransactionHeader :=
  match s.mempoolTxs id with
  | some tx => some tx
  | none => s.databaseTxs id

/-- `get_data_tx_in_parallel`: the headers of a list of ids, all of them or an error. -/
def getDataTxInParallel (ids : List IrysTransactionId) :
    Res ChainReadError (List DataTransactionHeader) :=
  let missing := ids.filter fun id => (s.getDataTx id).isNone
  if missing.isEmpty then .ok (ids.filterMap s.getDataTx) else fail (.missingTransactions missing)

def ledgerTxHeadersOfSealedBlock (block : SealedBlock) (ledger : DataLedger) :
    Res ChainReadError (List DataTransactionHeader) :=
  match block.header.getDataLedgerTxIdsOrdered ledger with
  | none => fail (.ledgerRequired ledger block.header.blockHash)
  | some txIds =>
    let txs := block.dataTxs ledger
    if txs.map (·.id) == txIds then .ok txs
    else fail (.bodyMismatch ledger block.header.blockHash)

/-- **`ledger_tx_headers_of_block`**: from the tree's sealed block, else from the tables. -/
def ledgerTxHeadersOfBlock (blockHash : H256) (ledger : DataLedger) :
    Res ChainReadError (List DataTransactionHeader) :=
  match s.tree blockHash with
  | some block => ledgerTxHeadersOfSealedBlock block ledger
  | none =>
    match s.headers blockHash with
    | none => fail (.blockNotFound blockHash)
    | some header =>
      match header.getDataLedgerTxIdsOrdered ledger with
      | none => fail (.ledgerRequired ledger blockHash)
      | some txIds => s.getDataTxInParallel txIds

/-! ### Canonical inclusion -/

def blockIncludesLedgerTx (header : IrysBlockHeader) (ledger : DataLedger)
    (txid : IrysTransactionId) : Bool :=
  (header.getDataLedgerTxIdsOrdered ledger).any (·.contains txid)

end Stores

section Canonical

variable (indexed : ℕ → Option H256) (headers : H256 → Option IrysBlockHeader)

def canonicalHeaderAtHeight (height : ℕ) : Res ChainReadError (Option IrysBlockHeader) :=
  match indexed height with
  | none => .ok none
  | some canonicalHash =>
    match headers canonicalHash with
    | none => fail (.canonicalHeaderMissing height canonicalHash)
    | some header =>
      if header.height ≠ height then
        fail (.canonicalHeightMismatch height canonicalHash header.height)
      else .ok (some header)

/-- What the lookups share: the hinted height, if it is not too high and the block that the index
holds there lists the transaction. -/
def verifiedHeight (maxHeight : ℕ) (lists : IrysBlockHeader → Bool) (hint : Option ℕ) :
    Res ChainReadError (Option ℕ) :=
  match hint with
  | none => .ok none
  | some height =>
    if height > maxHeight then .ok none
    else do
      match ← canonicalHeaderAtHeight indexed headers height with
      | none => return none
      | some canonicalHeader =>
        if !lists canonicalHeader then return none else return some height

/-- `canonical_metadata_height`, with the height picked from the row of the transaction. -/
def canonicalMetadataHeight (txid : IrysTransactionId) (maxHeight : ℕ) (picked : Option ℕ)
    (ledger : DataLedger) : Res ChainReadError (Option ℕ) :=
  verifiedHeight indexed headers maxHeight (Stores.blockIncludesLedgerTx · ledger txid) picked

variable {indexed headers}

theorem verifiedHeight_eq {blockAt : ℕ → Option IrysBlockHeader}
    (h : ∀ height, canonicalHeaderAtHeight indexed headers height = .ok (blockAt height))
    (maxHeight : ℕ) (lists : IrysBlockHeader → Bool) (hint : Option ℕ) :
    verifiedHeight indexed headers maxHeight lists hint = .ok (hint.filter fun height =>
      decide (height ≤ maxHeight) && (blockAt height).any lists) := by
  cases hint with
  | none => rfl
  | some height =>
    rw [verifiedHeight]
    by_cases hmax : height ≤ maxHeight
    · rw [if_neg hmax.not_gt, h, ok_bind, Option.filter_some, decide_eq_true hmax, Bool.true_and]
      cases blockAt height with
      | none => rfl
      | some b =>
        show (if (!lists b) = true then _ else _) = Except.ok (if lists b = true then _ else _)
        cases lists b with
        | true => rfl
        | false => rfl
    · rw [if_pos (not_le.mp hmax), Option.filter_some, decide_eq_false hmax, Bool.false_and]
      rfl

end Canonical

/-- **`canonical_submit_height`**: the recorded inclusion height, if it is at most `maxHeight` and
the migrated block there carries the transaction. -/
def Stores.canonicalSubmitHeight (s : Stores) (txid : IrysTransactionId) (maxHeight : ℕ) :
    Res ChainReadError (Option ℕ) :=
  canonicalMetadataHeight (s.index[·]?.map (·.blockHash)) s.headers txid maxHeight
    (s.includedHeight txid) .submit

end Irys
