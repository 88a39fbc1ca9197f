import Irys.Ledger.Ledgers
import Mathlib.Data.List.Sort

/-!
# The epoch snapshot

`EpochSnapshot` is the state a node keeps between epoch blocks: the data ledgers, who stores
which partition, and which stakes and pledges are in force.  `performEpochTasks` advances it by
one epoch block; it is the source function step for step.

* the phases of `perform_epoch_tasks` in the order in which they run, and `performEpochTasks`.
-/

namespace Irys

open Std (TreeMap)

/-! ### State -/

/-- Where a partition is: a slot of a data ledger, or (with no ledger) the capacity pool. -/
structure PartitionAssignment where
  partitionHash : PartitionHash
  minerAddress : IrysAddress
  ledgerId : Option DataLedger
  slotIndex : Option ℕ
  deriving DecidableEq

/-- The assigned partitions, by hash. -/
structure PartitionAssignments where
  dataPartitions : TreeMap PartitionHash PartitionAssignment
  capacityPartitions : TreeMap PartitionHash PartitionAssignment

/-- The assignment of a partition, of either kind. -/
def PartitionAssignments.getAssignment (pa : PartitionAssignments) (hash : PartitionHash) :
    Option PartitionAssignment :=
  pa.dataPartitions[hash]? <|> pa.capacityPartitions[hash]?

/-- A stake in force. -/
structure StakeEntry where
  id : IrysTransactionId
  commitmentStatus : CommitmentStatus
  signer : IrysAddress
  amount : ℕ
  rewardAddress : IrysAddress
  deriving DecidableEq

/-- A pledge in force, with the partition assigned to it. -/
structure PledgeEntry where
  id : IrysTransactionId
  commitmentStatus : CommitmentStatus
  signer : IrysAddress
  amount : ℕ
  partitionHash : Option PartitionHash
  deriving DecidableEq

/-- All stakes and pledges, by signer. -/
structure CommitmentState where
  stakeCommitments : TreeMap IrysAddress StakeEntry
  pledgeCommitments : TreeMap IrysAddress (List PledgeEntry)

/-- The state computed at an epoch block. -/
structure EpochSnapshot where
  ledgers : Ledgers
  partitionAssignments : PartitionAssignments
  allActivePartitions : List PartitionHash
  unassignedPartitions : List PartitionHash
  config : Config
  commitmentState : CommitmentState
  epochBlock : IrysBlockHeader
  previousEpochBlock : Option IrysBlockHeader
  expiredPartitionInfos : Option (List ExpiringPartitionInfo)
  epochHeight : ℕ

/-- Why the commitments do not fit the epoch block, with what each message names. -/
inductive CommitmentsMismatch where
  | countMismatch (blockHash : H256) (inLedger provided : ℕ)
  | missing (txid : IrysTransactionId) (blockHash : H256)
  | extra (txid : IrysTransactionId) (blockHash : H256)
  | noLedger (blockHash : H256) (provided : ℕ)
  deriving DecidableEq

inductive EpochSnapshotError where
  | notAnEpochBlock
  | incorrectPreviousEpochBlock
  | invalidCommitments (reason : CommitmentsMismatch)
  | unpledgeTargetNotFound (partitionHash : H256) (signer : IrysAddress)
  | unpledgeSignerMismatch (partitionHash : H256) (expected actual : IrysAddress)
  | unpledgeTargetInBothMaps (partitionHash : H256)
  | unstakeSignerNotStaked (signer : IrysAddress)
  | unstakeHasActivePledges (signer : IrysAddress) (remaining : ℕ)
  | updateRewardAddressSignerNotStaked (signer : IrysAddress)
  deriving DecidableEq

/-- The outcome of an epoch phase. -/
abbrev EpochRes (α : Type) := Res EpochSnapshotError α

/-- What the epoch code takes from other libraries: `hash_sha256` on a hash, and
`ceil(trunc₃(trunc₃(log10 base) · scalar))` in `num_bigfloat` arithmetic. -/
structure EpochEnv where
  hashSha256 : H256 → H256
  scaledLog10 : ℕ → ℕ → ℕ

namespace EpochSnapshot

variable (env : EpochEnv)

/-! ### Checks -/

/-- `validate_commitments`: the commitments are those the block's commitment ledger lists. -/
def validateCommitments (blockHeader : IrysBlockHeader) (commitments : List CommitmentTransaction) :
    Res CommitmentsMismatch Unit :=
  match blockHeader.systemLedgers.find? (·.ledgerId == .commitment) with
  | some ledger =>
    if ledger.txIds.length ≠ commitments.length then
      fail (.countMismatch blockHeader.blockHash ledger.txIds.length commitments.length)
    else
      match ledger.txIds.find? fun txid => !(commitments.any (·.id == txid)) with
      | some txid => fail (.missing txid blockHeader.blockHash)
      | none =>
        match commitments.find? fun c => !(ledger.txIds.contains c.id) with
        | some c => fail (.extra c.id blockHeader.blockHash)
        | none => .ok ()
  | none =>
    if commitments.isEmpty then .ok ()
    else fail (.noLedger blockHeader.blockHash commitments.length)

def isEpochBlock (s : EpochSnapshot) (blockHeader : IrysBlockHeader) : EpochRes Unit :=
  if blockHeader.height % s.config.epoch.numBlocksInEpoch = 0 then .ok ()
  else fail .notAnEpochBlock

/-- The previous epoch block must be one epoch back; genesis and the first epoch skip this. -/
def checkPreviousEpochBlock (s : EpochSnapshot) (previousEpochBlock : Option IrysBlockHeader)
    (newEpochBlock : IrysBlockHeader) : EpochRes Unit :=
  if newEpochBlock.height ≤ s.config.epoch.numBlocksInEpoch then .ok ()
  else
    match previousEpochBlock with
    | none => fail .incorrectPreviousEpochBlock
    | some prev => do
      let expected ← expect (checkedAdd 64 prev.height s.config.epoch.numBlocksInEpoch)
      if expected ≠ newEpochBlock.height then fail .incorrectPreviousEpochBlock else .ok ()

/-! ### Commitments -/

/-- Register a stake. -/
def insertStake (cs : CommitmentState) (c : CommitmentTransaction) : CommitmentState :=
  { cs with
    stakeCommitments := cs.stakeCommitments.insert c.signer
      { id := c.id, commitmentStatus := .active, signer := c.signer, amount := c.value,
        rewardAddress := c.signer } }

/-- Register a pledge; panics if its signer has no active stake. -/
def insertPledge (cs : CommitmentState) (c : CommitmentTransaction) : EpochRes CommitmentState :=
  if (cs.stakeCommitments[c.signer]?).any (·.commitmentStatus == .active) then
    .ok { cs with
      pledgeCommitments := cs.pledgeCommitments.insert c.signer
        ((cs.pledgeCommitments[c.signer]?).getD [] ++
          [{ id := c.id, commitmentStatus := .active, signer := c.signer, amount := c.value,
             partitionHash := none }]) }
  else .error .panic

/-- `compute_commitment_state`: all stakes, then all pledges. -/
def computeCommitmentState (s : EpochSnapshot) (commitments : List CommitmentTransaction) :
    EpochRes EpochSnapshot := do
  let stakes := commitments.filter fun c => c.commitmentType matches .stake
  let pledges := commitments.filter fun c => c.commitmentType matches .pledge _
  let state := stakes.foldl insertStake s.commitmentState
  let state ← pledges.foldlM insertPledge state
  return { s with commitmentState := state }

/-! ### Capacity -/

def getNumCapacityPartitions (numDataPartitions : ℕ) (config : ConsensusConfig)
    (numActiveLedgers : ℕ) : EpochRes ℕ := do
  let minCount ← expect (checkedMul 64 numActiveLedgers config.numPartitionsPerSlot)
  return env.scaledLog10 (max numDataPartitions minCount) config.epoch.capacityScalar

/-- The next `n` partition hashes, each the hash of the one before. -/
def hashChain : ℕ → H256 → List H256
  | 0, _ => []
  | n + 1, prev => env.hashSha256 prev :: hashChain n (env.hashSha256 prev)

def addCapacityPartitions (s : EpochSnapshot) (partsToAdd : ℕ) : EpochSnapshot :=
  let prev := s.allActivePartitions.getLast?.getD s.epochBlock.lastEpochHash
  let added := hashChain env partsToAdd prev
  { s with
    allActivePartitions := s.allActivePartitions ++ added
    unassignedPartitions := s.unassignedPartitions ++ added }

/-- Stamp each pledge with the holdings level it would take its signer to, in the given order. -/
def stampLevels (held : TreeMap IrysAddress ℕ) :
    TreeMap IrysAddress ℕ → List PledgeEntry → List (ℕ × PledgeEntry)
  | _, [] => []
  | nextLevel, pledge :: rest =>
    let offset := (nextLevel[pledge.signer]?).getD 0
    ((held[pledge.signer]?).getD 0 + offset, pledge) ::
      stampLevels held (nextLevel.insert pledge.signer (offset + 1)) rest

/-- The order of pledges by id. -/
def idLe (a b : PledgeEntry) : Prop := a.id ≤ b.id

instance : DecidableRel idLe := fun a b => inferInstanceAs (Decidable (a.id ≤ b.id))

/-- The order of stamped pledges: by level, then by id. -/
def levelLe (a b : ℕ × PledgeEntry) : Prop := a.1 < b.1 ∨ (a.1 = b.1 ∧ a.2.id ≤ b.2.id)

instance : DecidableRel levelLe := fun _ _ => inferInstanceAs (Decidable (_ ∨ (_ ∧ _)))

/-- `water_fill_select`: the pledges that get the available partitions, fewest held first. -/
def waterFillSelect (pending : List PledgeEntry) (held : TreeMap IrysAddress ℕ) (available : ℕ) :
    List PledgeEntry :=
  let pending := pending.insertionSort idLe
  let stamped := (stampLevels held ∅ pending).insertionSort levelLe
  ((stamped.take available).map (·.2)).insertionSort idLe

/-- How many capacity partitions each miner holds. -/
def capacityHeld (s : EpochSnapshot) : TreeMap IrysAddress ℕ :=
  s.partitionAssignments.capacityPartitions.values.foldl
    (fun counts a => counts.insert a.minerAddress ((counts[a.minerAddress]?).getD 0 + 1)) ∅

/-- The pairing loop of `assign_partition_hashes_to_pledges`. -/
def assignLoop : List PledgeEntry → List PartitionHash → EpochSnapshot → EpochSnapshot
  | [], _, s => s
  | _ :: _, [], s => s
  | pledge :: rest, hash :: parts, s =>
    match s.commitmentState.pledgeCommitments[pledge.signer]? with
    | none => assignLoop rest parts s
    | some entries =>
      match updateFirst (·.id == pledge.id) (fun e => { e with partitionHash := some hash })
          entries with
      | none => assignLoop rest parts s
      | some entries =>
        assignLoop rest parts { s with
          commitmentState := { s.commitmentState with
            pledgeCommitments :=
              s.commitmentState.pledgeCommitments.insert pledge.signer entries }
          partitionAssignments := { s.partitionAssignments with
            capacityPartitions := s.partitionAssignments.capacityPartitions.insert hash
              { partitionHash := hash, minerAddress := pledge.signer, ledgerId := none,
                slotIndex := none } }
          unassignedPartitions := s.unassignedPartitions.filter (· != hash) }

def assignPartitionHashesToPledges (s : EpochSnapshot) : EpochSnapshot :=
  if s.unassignedPartitions.isEmpty then s
  else
    let parts := s.unassignedPartitions.insertionSort (· ≤ ·)
    let pending := s.commitmentState.pledgeCommitments.values.flatten.filter fun e =>
      e.commitmentStatus == .active && e.partitionHash.isNone
    if pending.isEmpty then s
    else assignLoop (waterFillSelect pending s.capacityHeld parts.length) parts s

/-! ### Slots -/

/-- Append slots to a ledger by id. -/
def allocateIn (L : Ledgers) (ledger : DataLedger) (slots height : ℕ) : EpochRes (Ledgers × ℕ) := do
  let core ← expect (L.get? ledger)
  let (core, added) ← core.allocateSlots slots height
  let L ← expect (L.set? ledger core)
  return (L, added)

/-- `try_genesis_init`: one slot per ledger, the first capacity partitions, and their
assignment to the genesis pledges. -/
def tryGenesisInit (s : EpochSnapshot) (newEpochBlock : IrysBlockHeader) :
    EpochRes EpochSnapshot :=
  if s.allActivePartitions.isEmpty && newEpochBlock.isGenesis then do
    let activeLedgers := s.ledgers.activeLedgers
    let (ledgers, numDataPartitions) ← activeLedgers.foldlM (fun (L, n) ledger => do
      let (L, added) ← allocateIn L ledger 1 newEpochBlock.height
      let n ← expect (checkedAdd 64 n added)
      return (L, n)) (s.ledgers, 0)
    let projected ← getNumCapacityPartitions env numDataPartitions s.config.toConsensusConfig
      activeLedgers.length
    let parts := max (s.config.epoch.numCapacityPartitions.getD projected) projected
    return assignPartitionHashesToPledges (addCapacityPartitions env { s with ledgers } parts)
  else .ok s

/-- `calculate_additional_slots`: by utilisation, and by growth since the previous epoch block. -/
def calculateAdditionalSlots (config : ConsensusConfig) (L : Ledgers)
    (previousEpochBlock : Option IrysBlockHeader) (newEpochBlock : IrysBlockHeader)
    (ledger : DataLedger) : EpochRes ℕ := do
  let dataLedger ← expect (L.get? ledger)
  let maxLedgerCapacity ← expect (checkedMul 64 dataLedger.slots.length config.numChunksInPartition)
  let ledgerSize := newEpochBlock.ledgerTotalChunks ledger
  let addCapacityThreshold := maxLedgerCapacity - config.numChunksInPartition / 2
  let slotsToAdd := if addCapacityThreshold ≤ ledgerSize then 2 else 0
  if config.epoch.numBlocksInEpoch ≤ newEpochBlock.height then
    let previousLedgerSize := (previousEpochBlock.map (·.ledgerTotalChunks ledger)).getD 0
    let dataAdded := ledgerSize - previousLedgerSize
    if config.numChunksInPartition < dataAdded then
      expect (checkedAdd 64 slotsToAdd (divCeil dataAdded config.numChunksInPartition))
    else return slotsToAdd
  else return slotsToAdd

/-- The slots `allocate_additional_ledger_slots` gives a ledger.  A ledger the header does not
carry gets its first slots from Delta, and nothing otherwise. -/
def slotsToAllocate (config : ConsensusConfig) (previousEpochBlock : Option IrysBlockHeader)
    (newEpochBlock : IrysBlockHeader) (delta : Option Delta) (L : Ledgers) (ledger : DataLedger) :
    EpochRes ℕ :=
  if newEpochBlock.hasLedger ledger then
    calculateAdditionalSlots config L previousEpochBlock newEpochBlock ledger
  else
    match delta with
    | none => .ok 0
    | some delta => do
      let core ← expect (L.get? ledger)
      return if core.slots.length = 0 then delta.initialSlotsPerNewLedger else 0

section

variable (s : EpochSnapshot)

def allocateAdditionalLedgerSlots (previousEpochBlock : Option IrysBlockHeader)
    (newEpochBlock : IrysBlockHeader) (delta : Option Delta) : EpochRes EpochSnapshot := do
  let ledgers ← s.ledgers.activeLedgers.foldlM (fun L ledger => do
    let slots ← slotsToAllocate s.config.toConsensusConfig previousEpochBlock newEpochBlock delta
      L ledger
    let (L, _) ← allocateIn L ledger slots newEpochBlock.height
    return L) s.ledgers
  return { s with ledgers }

def touchActiveLedgerSlots (previousEpochBlock : Option IrysBlockHeader)
    (newEpochBlock : IrysBlockHeader) (refreshLastHeight : Bool) : EpochRes EpochSnapshot := do
  let ledgers ← s.ledgers.activeLedgers.foldlM (fun L ledger =>
    L.touch ledger ((previousEpochBlock.map (·.ledgerTotalChunks ledger)).getD 0)
      (newEpochBlock.ledgerTotalChunks ledger) s.config.numChunksInPartition newEpochBlock.height
      refreshLastHeight) s.ledgers
  return { s with ledgers }

def returnExpiredPartitionToCapacity (hash : PartitionHash) :
    EpochRes EpochSnapshot :=
  match s.partitionAssignments.dataPartitions[hash]? with
  | none => .ok s
  | some assignment => do
    let ledger ← expect assignment.ledgerId
    let slotIndex ← expect assignment.slotIndex
    let ledgers ← s.ledgers.removePartitionFromSlot ledger slotIndex assignment.partitionHash
    return { s with
      ledgers
      partitionAssignments :=
        { dataPartitions := s.partitionAssignments.dataPartitions.erase hash
          capacityPartitions := s.partitionAssignments.capacityPartitions.insert
            assignment.partitionHash { assignment with ledgerId := none, slotIndex := none } } }

/-- `expire_ledger_slots`: mark, return the partitions to the pool, and keep the report. -/
def expireLedgerSlots (newEpochBlock : IrysBlockHeader) (cascade : Bool) :
    EpochRes EpochSnapshot := do
  let (ledgers, expired) ← s.ledgers.expirePartitions newEpochBlock.height cascade
    newEpochBlock.ledgerTotalChunks s.config.numChunksInPartition
  let s := { s with ledgers }
  if expired.isEmpty then return { s with expiredPartitionInfos := none }
  let s ← expired.foldlM (fun s info => s.returnExpiredPartitionToCapacity info.partitionHash) s
  return { s with expiredPartitionInfos := some expired }

/-! ### Commitments that end -/

/-- One commitment of `apply_unpledges`; other commitments pass. -/
def applyUnpledge (c : CommitmentTransaction) : EpochRes EpochSnapshot :=
  match c.commitmentType with
  | .unpledge _ hash => do
    let pa := s.partitionAssignments
    let removed : PartitionAssignments :=
      { dataPartitions := pa.dataPartitions.erase hash
        capacityPartitions := pa.capacityPartitions.erase hash }
    let (s, minerAddress) ← (match pa.dataPartitions[hash]?, pa.capacityPartitions[hash]? with
      | none, none => fail (.unpledgeTargetNotFound hash c.signer)
      | none, some capacity =>
        .ok ({ s with partitionAssignments := removed }, capacity.minerAddress)
      | some data, none => do
        let ledger ← expect data.ledgerId
        let slotIndex ← expect data.slotIndex
        let ledgers ← s.ledgers.removePartitionFromSlot ledger slotIndex hash
        return ({ s with ledgers, partitionAssignments := removed }, data.minerAddress)
      | some _, some _ => fail (.unpledgeTargetInBothMaps hash) :
        EpochRes (EpochSnapshot × IrysAddress))
    if minerAddress ≠ c.signer then
      fail (.unpledgeSignerMismatch hash minerAddress c.signer)
    else
      let unassigned :=
        if s.unassignedPartitions.contains hash then s.unassignedPartitions
        else s.unassignedPartitions ++ [hash]
      let pledges :=
        match s.commitmentState.pledgeCommitments[c.signer]? with
        | none => s.commitmentState.pledgeCommitments
        | some entries => s.commitmentState.pledgeCommitments.insert c.signer
            (entries.eraseP (·.partitionHash == some hash))
      return { s with
        unassignedPartitions := unassigned
        commitmentState := { s.commitmentState with pledgeCommitments := pledges } }
  | _ => .ok s

def applyUnpledges (commitments : List CommitmentTransaction) :
    EpochRes EpochSnapshot :=
  commitments.foldlM applyUnpledge s

/-- One commitment of `apply_unstakes`. -/
def applyUnstake (c : CommitmentTransaction) : EpochRes EpochSnapshot :=
  match c.commitmentType with
  | .unstake =>
    let remaining :=
      ((s.commitmentState.pledgeCommitments[c.signer]?).map List.length).getD 0
    if 0 < remaining then fail (.unstakeHasActivePledges c.signer remaining)
    else if (s.commitmentState.stakeCommitments[c.signer]?).isNone then
      fail (.unstakeSignerNotStaked c.signer)
    else .ok { s with
      commitmentState := { s.commitmentState with
        stakeCommitments := s.commitmentState.stakeCommitments.erase c.signer } }
  | _ => .ok s

def applyUnstakes (commitments : List CommitmentTransaction) :
    EpochRes EpochSnapshot :=
  commitments.foldlM applyUnstake s

end

/-- One commitment of `apply_update_reward_addresses`, with the signers seen before; a second
update by one signer panics. -/
def applyUpdateRewardAddress (st : EpochSnapshot × List IrysAddress) (c : CommitmentTransaction) :
    EpochRes (EpochSnapshot × List IrysAddress) :=
  match c.commitmentType with
  | .updateRewardAddress newRewardAddress =>
    let (s, seen) := st
    if seen.contains c.signer then .error .panic
    else
      match s.commitmentState.stakeCommitments[c.signer]? with
      | none => fail (.updateRewardAddressSignerNotStaked c.signer)
      | some entry =>
        .ok ({ s with
          commitmentState := { s.commitmentState with
            stakeCommitments := s.commitmentState.stakeCommitments.insert c.signer
              { entry with rewardAddress := newRewardAddress } } }, c.signer :: seen)
  | _ => .ok st

def applyUpdateRewardAddresses (s : EpochSnapshot) (commitments : List CommitmentTransaction) :
    EpochRes EpochSnapshot := do
  let (s, _) ← commitments.foldlM applyUpdateRewardAddress (s, [])
  return s

/-! ### Backfill -/

/-- The capacity partitions a slot can draw from, by hash. -/
abbrev CapacityPool := List (PartitionHash × PartitionAssignment)

/-- `Vec::swap_remove`: the last element takes the place of the removed one. -/
def swapRemove {α : Type} (l : List α) (i : ℕ) : Option (α × List α) :=
  match l[i]?, l.getLast? with
  | some a, some z => some (a, (l.set i z).dropLast)
  | _, _ => none

/-- `assign_partition_to_slot`: a capacity partition becomes a data partition. -/
def assignPartitionToSlot (s : EpochSnapshot) (hash : PartitionHash) (ledger : DataLedger)
    (slotIndex : ℕ) : EpochSnapshot :=
  match s.partitionAssignments.capacityPartitions[hash]? with
  | none => s
  | some assignment =>
    { s with
      partitionAssignments :=
        { capacityPartitions := s.partitionAssignments.capacityPartitions.erase hash
          dataPartitions := s.partitionAssignments.dataPartitions.insert hash
            { assignment with ledgerId := some ledger, slotIndex := some slotIndex } } }

/-- The inner loop of `process_slot_needs`: fill one slot, no miner twice. -/
def fillSlot (ledger : DataLedger) (slotIndex : ℕ) :
    ℕ → CapacityPool → EpochSnapshot × CapacityPool × SimpleRng →
      EpochRes (EpochSnapshot × CapacityPool × SimpleRng)
  | 0, _, st => .ok st
  | needed + 1, slotPool, (s, pool, rng) =>
    if slotPool.isEmpty then .ok (s, pool, rng)
    else do
      let (partIndex, rng) ← rng.nextRange (UInt32.ofNat slotPool.length)
      let ((hash, pa), slotPool) ← expect (swapRemove slotPool partIndex)
      let s := s.assignPartitionToSlot hash ledger slotIndex
      let slotPool := slotPool.filter (·.2.minerAddress != pa.minerAddress)
      let pool := pool.filter (·.1 != hash)
      let ledgers ← s.ledgers.pushPartitionToSlot ledger slotIndex hash
      fillSlot ledger slotIndex needed slotPool ({ s with ledgers }, pool, rng)

/-- One slot of `process_slot_needs`. -/
def processSlotNeed (ledger : DataLedger) (st : EpochSnapshot × CapacityPool × SimpleRng)
    (need : ℕ × ℕ) : EpochRes (EpochSnapshot × CapacityPool × SimpleRng) := do
  let (s, pool, _) := st
  let core ← expect (s.ledgers.get? ledger)
  let slot ← expect core.slots[need.1]?
  let assigned ← slot.partitions.mapM fun hash => do
    let pa ← expect (s.partitionAssignments.getAssignment hash)
    return pa.minerAddress
  let slotPool := pool.filter fun p => !(assigned.contains p.2.minerAddress)
  fillSlot ledger need.1 need.2 slotPool st

def processSlotNeeds (st : EpochSnapshot × CapacityPool × SimpleRng) (ledger : DataLedger) :
    EpochRes (EpochSnapshot × CapacityPool × SimpleRng) := do
  let core ← expect (st.1.ledgers.get? ledger)
  let needs ← core.getSlotNeeds
  needs.foldlM (processSlotNeed ledger) st

section

variable (s : EpochSnapshot)

/-- `backfill_missing_partitions`.  The pool is the map's own order, by hash. -/
def backfillMissingPartitions : EpochRes EpochSnapshot := do
  let pool := s.partitionAssignments.capacityPartitions.toList
  let rng : SimpleRng := ⟨UInt32.ofNat (s.epochBlock.lastEpochHash / 2 ^ 224)⟩
  let (s, _, _) ← s.ledgers.activeLedgers.foldlM processSlotNeeds (s, pool, rng)
  return s

def allocateAdditionalCapacity : EpochRes EpochSnapshot := do
  let numDataPartitions := s.partitionAssignments.dataPartitions.size
  let numCapacityPartitions ← getNumCapacityPartitions env numDataPartitions
    s.config.toConsensusConfig s.ledgers.activeLedgers.length
  let totalParts ← expect (checkedAdd 64 numCapacityPartitions numDataPartitions)
  return if s.allActivePartitions.length < totalParts then
    addCapacityPartitions env s (totalParts - s.allActivePartitions.length)
  else s

/-! ### The epoch step -/

/-- The first part of `perform_epoch_tasks`: the checks, and the state up to genesis init. -/
def beginEpoch (previousEpochBlock : Option IrysBlockHeader)
    (newEpochBlock : IrysBlockHeader) (commitments : List CommitmentTransaction) :
    EpochRes EpochSnapshot := do
  s.isEpochBlock newEpochBlock
  s.checkPreviousEpochBlock previousEpochBlock newEpochBlock
  mapErr .invalidCommitments (validateCommitments newEpochBlock commitments)
  let cascade := s.config.hardforks.cascadeForBlock newEpochBlock.timestampSecs
  let ledgers :=
    if cascade then s.ledgers.activateCascade s.config.toConsensusConfig else s.ledgers
  let s := { s with
    epochHeight := newEpochBlock.height
    epochBlock := newEpochBlock
    previousEpochBlock
    ledgers }
  let s ← s.computeCommitmentState commitments
  s.tryGenesisInit env newEpochBlock

/-- The second part: allocate, touch, expire. -/
def turnLedgers (previousEpochBlock : Option IrysBlockHeader)
    (newEpochBlock : IrysBlockHeader) : EpochRes EpochSnapshot := do
  let cascade := s.config.hardforks.cascadeForBlock newEpochBlock.timestampSecs
  let delta := s.config.hardforks.deltaForBlock newEpochBlock.timestampSecs
  let s ← s.allocateAdditionalLedgerSlots previousEpochBlock newEpochBlock delta
  let s ← s.touchActiveLedgerSlots previousEpochBlock newEpochBlock cascade
  s.expireLedgerSlots newEpochBlock cascade

/-- The third part: commitments that end, and the partitions that become free. -/
def reassignPartitions (commitments : List CommitmentTransaction) :
    EpochRes EpochSnapshot := do
  let s ← s.applyUnpledges commitments
  let s ← s.applyUnstakes commitments
  let s ← s.applyUpdateRewardAddresses commitments
  let s ← s.backfillMissingPartitions
  let s ← s.allocateAdditionalCapacity env
  return s.assignPartitionHashesToPledges

def performEpochTasks (previousEpochBlock : Option IrysBlockHeader)
    (newEpochBlock : IrysBlockHeader) (newEpochCommitments : List CommitmentTransaction) :
    EpochRes EpochSnapshot := do
  let s ← s.beginEpoch env previousEpochBlock newEpochBlock newEpochCommitments
  let s ← s.turnLedgers previousEpochBlock newEpochBlock
  s.reassignPartitions env newEpochCommitments

end

/-- The snapshot before the genesis block is processed. -/
def empty (genesisBlock : IrysBlockHeader) (config : Config) : EpochSnapshot where
  ledgers := Ledgers.new config.toConsensusConfig
    (config.hardforks.cascadeForBlock genesisBlock.timestampSecs)
  partitionAssignments := ⟨∅, ∅⟩
  allActivePartitions := []
  unassignedPartitions := []
  config := config
  commitmentState := ⟨∅, ∅⟩
  epochBlock := genesisBlock
  previousEpochBlock := none
  expiredPartitionInfos := none
  epochHeight := genesisBlock.height

/-- `EpochSnapshot::new`: an error on the genesis block is a panic. -/
def new (genesisBlock : IrysBlockHeader) (commitments : List CommitmentTransaction)
    (config : Config) : EpochRes EpochSnapshot :=
  expectOk ((empty genesisBlock config).performEpochTasks env none genesisBlock commitments)

/-! ### What settlement and promotion read -/

section

variable (s : EpochSnapshot) (epochHeight : ℕ) (ledger : DataLedger) (newTotalChunks : ℕ)
    (cascade : Bool)

/-- **The slots of a ledger that settlement pays out at an epoch block**, computed on the parent
snapshot: those due, less those written in this epoch. -/
def getExpiringSlotPartitions : EpochRes (List (ℕ × List PartitionHash)) := do
  let chunksPerSlot := s.config.numChunksInPartition
  let prevTotalChunks := s.epochBlock.ledgerTotalChunks ledger
  let slots ← s.ledgers.getExpiringSlots epochHeight cascade
    (fun l => if l = ledger then newTotalChunks else s.epochBlock.ledgerTotalChunks l)
    chunksPerSlot
  return (slots.filter fun (ledgerId, slotIndex, _) =>
    ledgerId == ledger
      && !writtenThisEpoch cascade newTotalChunks prevTotalChunks chunksPerSlot slotIndex).map (·.2)

end

/-- The term slots whose storage has ended as of a height, earlier ones included. -/
def getAllExpiredTermSlotIndexes {ε : Type} (s : EpochSnapshot) (ledger : DataLedger)
    (epochHeight : ℕ) (cascade : Bool) (totalChunks : ℕ) : Res ε (List ℕ) :=
  s.ledgers.getAllExpiredTermSlotIndexes ledger epochHeight cascade totalChunks
    s.config.numChunksInPartition

/-- Where a miner's rewards go: the stake's reward address, or the miner itself. -/
def resolveRewardAddress (s : EpochSnapshot) (minerAddress : IrysAddress) : IrysAddress :=
  (s.commitmentState.stakeCommitments[minerAddress]?.map (·.rewardAddress)).getD minerAddress

end EpochSnapshot

end Irys
