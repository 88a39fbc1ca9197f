import Irys.Chain.Stores

/-!
# The expired-slot walk

Settlement finds the transactions of a set of expired slots by probing: it resolves the first
chunk of a slot to its block, jumps to the block's last chunk, and so on through the slots; it
then reads the blocks it met, trims the first and the last of them to the expired range, and
attributes each transaction to the miners of the slot that holds its first chunk.

* `filterTransactionsByChunkRange`, `processBoundaryBlock`, `processMiddleBlocks` — reading one
  block and trimming it.
-/

namespace Irys

/-- Why a walk failed: a read, or one of its own checks. -/
inductive LedgerExpiryError where
  | read (e : ChainReadError)
  | nonAdvancingProbe (ledger : DataLedger) (height chunkOffset total : ℕ)
  | zeroChunkSize
  | zeroPartitionSize
  | nonExpiredSlot (txid : IrysTransactionId) (start slot : ℕ)
  | attributedTxHeadersMismatch (ledger : DataLedger)
  deriving DecidableEq

/-- A range of chunk offsets; the code reads the end as exclusive. -/
structure LedgerChunkRange where
  start : ℕ
  stop : ℕ
  deriving DecidableEq

/-- `SlotIndex::compute_chunk_range`: a slot's chunks, clamped to the ledger's total. -/
def computeChunkRange (slot chunksPerPartition maxOffset : ℕ) : LedgerChunkRange :=
  let start := min (saturatingMul 64 slot chunksPerPartition) maxOffset
  { start, stop := min (saturatingAdd 64 start chunksPerPartition) maxOffset }

abbrev SlotMiners := Std.TreeMap ℕ (List IrysAddress)

/-- The miners of each attributed transaction. -/
abbrev TxToMiners := Std.TreeMap IrysTransactionId (List IrysAddress)

/-- The header of each attributed transaction. -/
abbrev TxHeaders := Std.TreeMap IrysTransactionId DataTransactionHeader

/-- A block the walk met, and the chunks before it. -/
structure MetBlock where
  height : ℕ
  blockHash : H256
  base : ℕ
  deriving DecidableEq

/-- **The blocks with data in the expired range**: the first and the last, trimmed to the range,
and those between them. -/
structure BlockRange where
  minBlock : MetBlock
  maxBlock : MetBlock
  chunkRange : LedgerChunkRange
  middleBlocks : Std.TreeMap H256 ℕ
  slotMiners : SlotMiners

/-- The variables of the probing loop. -/
structure RangeScan where
  blockBases : Std.TreeMap H256 ℕ
  slotMiners : SlotMiners
  minBlock : Option MetBlock
  maxBlock : Option MetBlock
  globalStart : Option ℕ
  globalEnd : Option ℕ

namespace RangeScan

/-- Before the first slot. -/
def start : RangeScan where
  blockBases := ∅
  slotMiners := ∅
  minBlock := none
  maxBlock := none
  globalStart := none
  globalEnd := none

/-- A block was resolved. -/
def meet (scan : RangeScan) (bounds : BlockSpan) : RangeScan :=
  let met : MetBlock := ⟨bounds.height, bounds.blockHash, bounds.startChunkOffset⟩
  { scan with
    minBlock := if scan.minBlock.all fun m => bounds.height < m.height then some met
      else scan.minBlock
    maxBlock := if scan.maxBlock.all fun m => m.height < bounds.height then some met
      else scan.maxBlock
    blockBases := scan.blockBases.insertIfNew bounds.blockHash bounds.startChunkOffset }

/-- A slot was entered. -/
def enter (scan : RangeScan) (slot : ℕ) (miners : List IrysAddress) (range : LedgerChunkRange) :
    RangeScan :=
  { scan with
    slotMiners := scan.slotMiners.insert slot miners
    globalStart := some ((scan.globalStart.map (min · range.start)).getD range.start)
    globalEnd := some ((scan.globalEnd.map (max · range.stop)).getD range.stop) }

end RangeScan

section Walk

variable (s : Stores) (fuel : ℕ) (config : ConsensusConfig) (ledger : DataLedger)

/-! ### Probing -/

/-- The inner loop of `find_block_range`: probe from an offset to the end of the slot. -/
def probeSlot (parentBlockHash : H256) (stop : ℕ) (chunkOffset : ℕ) (scan : RangeScan) :
    Res LedgerExpiryError RangeScan :=
  if chunkOffset < stop then do
    let bounds ← mapErr .read
      (s.resolveLedgerOffsetToBlock fuel chunkOffset parentBlockHash ledger)
    if chunkOffset < bounds.endChunkOffset then
      probeSlot parentBlockHash stop (min bounds.endChunkOffset stop) (scan.meet bounds)
    else
      fail (.nonAdvancingProbe ledger bounds.height chunkOffset bounds.endChunkOffset)
  else .ok scan
termination_by stop - chunkOffset

/-- One slot of `find_block_range`. -/
def scanSlot (parentTotalChunks : ℕ) (parentBlockHash : H256) (scan : RangeScan)
    (entry : ℕ × List IrysAddress) : Res LedgerExpiryError RangeScan :=
  let range := computeChunkRange entry.1 config.numChunksInPartition parentTotalChunks
  probeSlot s fuel ledger parentBlockHash range.stop range.start
    (scan.enter entry.1 entry.2 range)

/-- **`find_block_range`**: `none` when no chunk lies in the expired slots. -/
def findBlockRange (expiredSlots : SlotMiners) (parentTotalChunks : ℕ) (parentBlockHash : H256) :
    Res LedgerExpiryError (Option BlockRange) := do
  let scan ← expiredSlots.toList.foldlM
    (scanSlot s fuel config ledger parentTotalChunks parentBlockHash) RangeScan.start
  if scan.minBlock.isNone && scan.maxBlock.isNone then return none
  else do
    let minBlock ← expect scan.minBlock
    let maxBlock ← expect scan.maxBlock
    let globalStart ← expect scan.globalStart
    let globalEnd ← expect scan.globalEnd
    return some
      { minBlock, maxBlock
        chunkRange := ⟨globalStart, globalEnd⟩
        middleBlocks := (scan.blockBases.erase minBlock.blockHash).erase maxBlock.blockHash
        slotMiners := scan.slotMiners }

/-! ### Reading the blocks -/

/-- The loop of `filter_transactions_by_chunk_range`. -/
def filterLoop (partitionRange : LedgerChunkRange) (isEarliest isLatest : Bool)
    (slotMiners : SlotMiners) :
    List DataTransactionHeader → ℕ → TxToMiners → Res LedgerExpiryError TxToMiners
  | [], _, txToMiners => .ok txToMiners
  | tx :: rest, txStart, txToMiners =>
    let txEnd := saturatingAdd 64 txStart (divCeil tx.dataSize config.chunkSize)
    -- start trim: what starts before the range belongs to an earlier slot
    if isEarliest && decide (txStart < partitionRange.start) then
      filterLoop partitionRange isEarliest isLatest slotMiners rest txEnd txToMiners
    -- end trim: what starts at the end belongs to the next slot
    else if isLatest && decide (partitionRange.stop ≤ txStart) then .ok txToMiners
    else
      let slot := txStart / config.numChunksInPartition
      match slotMiners[slot]? with
      | some miners =>
        filterLoop partitionRange isEarliest isLatest slotMiners rest txEnd
          (txToMiners.insert tx.id miners)
      | none => fail (.nonExpiredSlot tx.id txStart slot)

def filterTransactionsByChunkRange (transactions : List DataTransactionHeader)
    (prevMaxOffset : ℕ) (partitionRange : LedgerChunkRange) (isEarliest isLatest : Bool)
    (slotMiners : SlotMiners) : Res LedgerExpiryError TxToMiners :=
  if config.chunkSize = 0 then fail .zeroChunkSize
  else if config.numChunksInPartition = 0 then fail .zeroPartitionSize
  else filterLoop config partitionRange isEarliest isLatest slotMiners transactions prevMaxOffset ∅

/-- A block's attributed transactions and their headers. -/
def processBlock (blockHash : H256) (base : ℕ) (range : LedgerChunkRange)
    (isEarliest isLatest : Bool) (slotMiners : SlotMiners) :
    Res LedgerExpiryError (TxToMiners × List DataTransactionHeader) := do
  let ledgerDataTxs ← mapErr .read (s.ledgerTxHeadersOfBlock blockHash ledger)
  let filteredTxs ← filterTransactionsByChunkRange config ledgerDataTxs base range isEarliest
    isLatest slotMiners
  return (filteredTxs, ledgerDataTxs.filter fun tx => filteredTxs.contains tx.id)

def processBoundaryBlock (boundary : MetBlock) (range : LedgerChunkRange)
    (isEarliest isLatest : Bool) (slotMiners : SlotMiners) :
    Res LedgerExpiryError (TxToMiners × List DataTransactionHeader) :=
  processBlock s config ledger boundary.blockHash boundary.base range isEarliest isLatest slotMiners

/-- One block of `process_middle_blocks`. -/
def middleStep (range : LedgerChunkRange) (slotMiners : SlotMiners)
    (acc : TxToMiners × List DataTransactionHeader) (block : H256 × ℕ) :
    Res LedgerExpiryError (TxToMiners × List DataTransactionHeader) := do
  let (filtered, headers) ←
    processBlock s config ledger block.1 block.2 range false false slotMiners
  return (acc.1.insertMany filtered.toList, acc.2 ++ headers)

/-- `process_middle_blocks`: no trim, one block after the other. -/
def processMiddleBlocks (middleBlocks : Std.TreeMap H256 ℕ) (range : LedgerChunkRange)
    (slotMiners : SlotMiners) :
    Res LedgerExpiryError (TxToMiners × List DataTransactionHeader) :=
  middleBlocks.toList.foldlM (middleStep s config ledger range slotMiners) (∅, [])

/-- The last block, when it is not the first. -/
def processLatestBlock (range : BlockRange) :
    Res LedgerExpiryError (TxToMiners × List DataTransactionHeader) :=
  if range.minBlock.blockHash == range.maxBlock.blockHash then .ok (∅, [])
  else processBoundaryBlock s config ledger range.maxBlock range.chunkRange false true
    range.slotMiners

/-- Headers keyed by id. -/
def keyedHeaders (headers : List DataTransactionHeader) :
    List (IrysTransactionId × DataTransactionHeader) :=
  headers.map fun tx => (tx.id, tx)

/-- **`collect_tx_to_miners_from_range`**: the first block (trimmed at both ends when it is the only
one), the last block and the blocks between. -/
def collectTxToMinersFromRange (range : BlockRange) :
    Res LedgerExpiryError (TxToMiners × TxHeaders) := do
  let sameBlock := range.minBlock.blockHash == range.maxBlock.blockHash
  let earliest ← processBoundaryBlock s config ledger range.minBlock range.chunkRange true
    sameBlock range.slotMiners
  let middle ← processMiddleBlocks s config ledger range.middleBlocks range.chunkRange
    range.slotMiners
  let latest ← processLatestBlock s config ledger range
  let txToMiners : TxToMiners :=
    (((∅ : TxToMiners).insertMany earliest.1.toList).insertMany latest.1.toList).insertMany
      middle.1.toList
  let txHeaders : TxHeaders :=
    (((∅ : TxHeaders).insertMany (keyedHeaders earliest.2)).insertMany
      (keyedHeaders latest.2)).insertMany (keyedHeaders middle.2)
  if txToMiners.keys == txHeaders.keys then return (txToMiners, txHeaders)
  else fail (.attributedTxHeadersMismatch ledger)

/-- **The walk over a set of expired slots**: find the blocks, collect their transactions.  No
data in the slots, no transactions. -/
def walkExpiredSlots (expiredSlots : SlotMiners) (parent : IrysBlockHeader) :
    Res LedgerExpiryError (TxToMiners × TxHeaders) := do
  match ← findBlockRange s fuel config ledger expiredSlots (parent.ledgerTotalChunks ledger)
      parent.blockHash with
  | none => return (∅, ∅)
  | some range => collectTxToMinersFromRange s config ledger range

end Walk

end Irys
