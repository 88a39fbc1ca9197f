import Irys.Lib.Machine

/-!
# Chain types: ledgers, commitments, headers, configuration

The records that the ledger and the epoch code read.  A record keeps the fields some modelled
function reads; hashes, addresses and token amounts are numbers (a hash is the big-endian value
of its bytes, so the byte order of the source is `≤` here).

* `DataLedger`, `SystemLedger` — the ledger ids;
* `CommitmentTransaction` — stakes, pledges and their inverses;
* `ConsensusConfig`, and `Config`: a consensus configuration with the checks of
  `Config::validate` as fields, so that an unchecked one cannot reach the epoch code.
-/

namespace Irys

/-- A 32-byte hash, as the big-endian number of its bytes. -/
abbrev H256 := ℕ

/-- A 20-byte address, as the big-endian number of its bytes. -/
abbrev IrysAddress := ℕ

abbrev IrysTransactionId := H256

/-- The hash that names a partition. -/
abbrev PartitionHash := H256

/-! ### Ledgers -/

/-- The data ledgers: the permanent one, its staging ledger, and the two Cascade term ledgers. -/
inductive DataLedger where
  | publish
  | submit
  | oneYear
  | thirtyDay
  deriving DecidableEq

inductive SystemLedger where
  | commitment
  deriving DecidableEq

/-! ### Commitments -/

/-- `CommitmentTypeV2`: what a commitment transaction asks for. -/
inductive CommitmentType where
  | stake
  | pledge (pledgeCountBeforeExecuting : ℕ)
  | unpledge (pledgeCountBeforeExecuting : ℕ) (partitionHash : H256)
  | unstake
  | updateRewardAddress (newRewardAddress : IrysAddress)
  deriving DecidableEq

structure CommitmentTransaction where
  id : IrysTransactionId
  signer : IrysAddress
  value : ℕ
  fee : ℕ
  commitmentType : CommitmentType
  deriving DecidableEq

/-- Whether a stake or a pledge is in force. -/
inductive CommitmentStatus where
  | pending
  | active
  | inactive
  | slashed
  deriving DecidableEq

/-! ### Headers -/

/-- A data ledger as a block header carries it. -/
structure DataTransactionLedger where
  ledgerId : DataLedger
  txRoot : H256
  txIds : List IrysTransactionId
  totalChunks : ℕ
  deriving DecidableEq

/-- A system ledger as a block header carries it. -/
structure SystemTransactionLedger where
  ledgerId : SystemLedger
  txIds : List IrysTransactionId
  deriving DecidableEq

/-- The header of a block.  The timestamp is in milliseconds. -/
structure IrysBlockHeader where
  blockHash : H256
  previousBlockHash : H256
  solutionHash : H256
  cumulativeDiff : ℕ
  height : ℕ
  timestamp : ℕ
  lastEpochHash : H256
  systemLedgers : List SystemTransactionLedger
  dataLedgers : List DataTransactionLedger
  deriving DecidableEq

namespace IrysBlockHeader

/-- A header without transactions. -/
@[simps]
def bare (hash parent height : ℕ) : IrysBlockHeader :=
  ⟨hash, parent, hash, height, height, 0, 0, [], []⟩

section

variable (b : IrysBlockHeader)

/-- The header's timestamp in seconds. -/
def timestampSecs : ℕ := b.timestamp / 1000

/-- The first block of a chain. -/
def isGenesis : Bool := b.height == 0

/-- Whether the header carries the ledger at all. -/
def hasLedger (ledger : DataLedger) : Bool :=
  b.dataLedgers.any fun dl => dl.ledgerId == ledger

/-- The chunk total the header records for a ledger; 0 for a ledger it does not carry. -/
def ledgerTotalChunks (ledger : DataLedger) : ℕ :=
  ((b.dataLedgers.find? fun dl => dl.ledgerId == ledger).map (·.totalChunks)).getD 0

/-- The transaction ids of a ledger in block order, if the header carries the ledger. -/
def getDataLedgerTxIdsOrdered (ledger : DataLedger) :
    Option (List IrysTransactionId) :=
  (b.dataLedgers.find? fun dl => dl.ledgerId == ledger).map (·.txIds)

end

theorem ledgerTotalChunks_of_not_hasLedger {b : IrysBlockHeader} {ledger : DataLedger}
    (h : b.hasLedger ledger = false) : b.ledgerTotalChunks ledger = 0 := by
  have hnone : b.dataLedgers.find? (fun dl => dl.ledgerId == ledger) = none := by
    rw [List.find?_eq_none]
    intro dl hdl heq
    have : b.hasLedger ledger = true := List.any_eq_true.mpr ⟨dl, hdl, heq⟩
    rw [h] at this
    cases this
  rw [ledgerTotalChunks, hnone]
  rfl

end IrysBlockHeader

/-- A data transaction, as far as the ledgers read it. -/
structure DataTransactionHeader where
  id : IrysTransactionId
  dataSize : ℕ
  deriving DecidableEq

/-- A block with the transactions of its ledgers, in block order. -/
structure SealedBlock where
  header : IrysBlockHeader
  dataTxs : DataLedger → List DataTransactionHeader

/-! ### Configuration -/

/-- The Cascade hardfork: activation time in seconds and the term ledgers' lifetimes. -/
structure Cascade where
  activationTimestamp : ℕ
  oneYearEpochLength : ℕ
  thirtyDayEpochLength : ℕ
  deriving DecidableEq

/-- The Delta hardfork, as far as the epoch code reads it.  The slot count is a `NonZeroU64`. -/
structure Delta where
  activationTimestamp : ℕ
  initialSlotsPerNewLedger : ℕ
  initialSlots_pos : 0 < initialSlotsPerNewLedger
  deriving DecidableEq

/-- The hardforks a chain has configured. -/
structure IrysHardforkConfig where
  cascade : Option Cascade
  delta : Option Delta
  deriving DecidableEq

/-- Cascade's status at a block's own timestamp. -/
def IrysHardforkConfig.cascadeForBlock (h : IrysHardforkConfig) (timestamp : ℕ) : Bool :=
  h.cascade.any fun c => c.activationTimestamp ≤ timestamp

/-- Delta with its parameters, when active at a block's own timestamp. -/
def IrysHardforkConfig.deltaForBlock (h : IrysHardforkConfig) (timestamp : ℕ) : Option Delta :=
  h.delta.filter fun d => d.activationTimestamp ≤ timestamp

/-- The epoch section of the consensus configuration. -/
structure EpochConfig where
  capacityScalar : ℕ
  numBlocksInEpoch : ℕ
  submitLedgerEpochLength : ℕ
  publishLedgerEpochLength : Option ℕ
  numCapacityPartitions : Option ℕ
  deriving DecidableEq

/-- The consensus parameters the ledger and the epoch code read. -/
structure ConsensusConfig where
  blockMigrationDepth : ℕ
  blockTreeDepth : ℕ
  txAnchorExpiryDepth : ℕ
  chunkSize : ℕ
  numChunksInPartition : ℕ
  numPartitionsPerSlot : ℕ
  epoch : EpochConfig
  hardforks : IrysHardforkConfig
  deriving DecidableEq

/-- **A checked configuration.**  The fields are the checks `Config::validate` makes on the
parameters above, in every run mode. -/
structure Config extends ConsensusConfig where
  migrationDepth_lt_treeDepth : blockMigrationDepth < blockTreeDepth
  migrationDepth_pos : 0 < blockMigrationDepth
  migrationDepth_le_anchorDepth : blockMigrationDepth ≤ txAnchorExpiryDepth
  chunkSize_pos : 0 < chunkSize
  chunksInPartition_pos : 0 < numChunksInPartition
  chunksInPartition_le : numChunksInPartition < 2 ^ 32
  partitionsPerSlot_pos : 0 < numPartitionsPerSlot
  blocksInEpoch_pos : 0 < epoch.numBlocksInEpoch
  submitLength_pos : 0 < epoch.submitLedgerEpochLength
  publishLength_pos : ∀ n ∈ epoch.publishLedgerEpochLength, 0 < n
  publishLength_fits : ∀ n ∈ epoch.publishLedgerEpochLength, n * epoch.numBlocksInEpoch < 2 ^ 64

/-- Two chunks per slot. -/
def twoChunkConfig : Config where
  blockMigrationDepth := 1
  blockTreeDepth := 2
  txAnchorExpiryDepth := 2
  chunkSize := 32
  numChunksInPartition := 2
  numPartitionsPerSlot := 1
  epoch := { capacityScalar := 1, numBlocksInEpoch := 1, submitLedgerEpochLength := 1,
             publishLedgerEpochLength := none, numCapacityPartitions := some 4 }
  hardforks := { cascade := none, delta := none }
  migrationDepth_lt_treeDepth := by decide
  migrationDepth_pos := by decide
  migrationDepth_le_anchorDepth := by decide
  chunkSize_pos := by decide
  chunksInPartition_pos := by decide
  chunksInPartition_le := by decide
  partitionsPerSlot_pos := by decide
  blocksInEpoch_pos := by decide
  submitLength_pos := by decide
  publishLength_pos := by simp
  publishLength_fits := by simp

/-! ### The generator -/

/-- The xorshift generator. -/
structure SimpleRng where
  seed : UInt32
  deriving DecidableEq

namespace SimpleRng

/-- The next number. -/
def next (rng : SimpleRng) : UInt32 × SimpleRng :=
  let x := rng.seed
  let x := x ^^^ (x <<< 13)
  let x := x ^^^ (x >>> 17)
  let x := x ^^^ (x <<< 5)
  (x, ⟨x⟩)

/-- Draw until a number lies below the threshold, at most `fuel` times. -/
def nextBelow (threshold : UInt32) : ℕ → SimpleRng → Option (UInt32 × SimpleRng)
  | 0, _ => none
  | fuel + 1, rng =>
    let (x, rng) := rng.next
    if threshold ≤ x then nextBelow threshold fuel rng else some (x, rng)

/-- A number below `max`.  The state is a 32-bit word, so a loop that has not stopped after
`2 ^ 32` draws repeats itself for ever; that and a `max` of zero are the faults. -/
def nextRange {ε : Type} (rng : SimpleRng) (max : UInt32) : Res ε (ℕ × SimpleRng) :=
  if max = 0 then .error .panic
  else do
    let threshold := UInt32.ofNat (2 ^ 32 - 1) - UInt32.ofNat (2 ^ 32 - 1) % max
    let (x, rng) ← expect (nextBelow threshold (2 ^ 32) rng)
    return ((x % max).toNat, rng)

end SimpleRng

end Irys
