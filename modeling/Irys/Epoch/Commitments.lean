import Irys.Epoch.Snapshot

/-!
# The commitment snapshot

Between two epoch blocks a node collects the commitments that the blocks carry, one record for
each signer.  `addCommitment` decides on the state of the last epoch block and on what was
collected since; the next epoch block carries everything that was kept.

* `addCommitment` — one commitment, kept or refused.
-/

namespace Irys

open Std (TreeMap)

/-! ### The order of commitments -/

/-- The first criterion of the order. -/
def commitmentPriority : CommitmentType → ℕ
  | .stake => 0
  | .pledge _ => 1
  | .updateRewardAddress _ => 2
  | .unpledge _ _ => 3
  | .unstake => 4

/-- `compare_commitment_transactions`.  Equal priorities imply the same type, so the last case is
never the deciding one. -/
def compareCommitmentTransactions (a b : CommitmentTransaction) : Ordering :=
  (compare (commitmentPriority a.commitmentType) (commitmentPriority b.commitmentType)).then <|
    match a.commitmentType, b.commitmentType with
    | .stake, .stake => (compare b.fee a.fee).then (compare a.id b.id)
    | .pledge countA, .pledge countB =>
      (compare countA countB).then ((compare b.fee a.fee).then (compare a.id b.id))
    | .unpledge countA _, .unpledge countB _ =>
      (compare countB countA).then ((compare b.fee a.fee).then (compare a.id b.id))
    | .unstake, .unstake => (compare b.fee a.fee).then (compare a.id b.id)
    | .updateRewardAddress _, .updateRewardAddress _ =>
      (compare a.fee b.fee).then (compare a.id b.id)
    | _, _ => .eq

/-- The order of a sorted list of commitments. -/
def commitmentLe (a b : CommitmentTransaction) : Prop :=
  compareCommitmentTransactions a b ≠ .gt

instance : DecidableRel commitmentLe := fun a b =>
  inferInstanceAs (Decidable (compareCommitmentTransactions a b ≠ .gt))

/-! ### State -/

/-- `CommitmentSnapshotStatus`: the answer to a commitment. -/
inductive CommitmentSnapshotStatus where
  | accepted
  | unknown
  | unstaked
  | invalidPledgeCount
  | unowned
  | unpledgePending
  | unstakePending
  | hasActivePledges
  | alreadyStaked
  deriving DecidableEq

/-- What one signer asked for since the last epoch block. -/
structure MinerCommitments where
  stake : Option CommitmentTransaction
  pledges : List CommitmentTransaction
  unpledges : List CommitmentTransaction
  unstake : Option CommitmentTransaction
  updateRewardAddress : Option CommitmentTransaction
  deriving DecidableEq

def MinerCommitments.empty : MinerCommitments := ⟨none, [], [], none, none⟩

/-- The commitments since the last epoch block, by signer. -/
structure CommitmentSnapshot where
  commitments : TreeMap IrysAddress MinerCommitments

/-- `is_staked`: the signer has an active stake. -/
def EpochSnapshot.isStaked (s : EpochSnapshot) (minerAddress : IrysAddress) : Bool :=
  (s.commitmentState.stakeCommitments[minerAddress]?).any (·.commitmentStatus == .active)

/-- How many pledges the signer has in the epoch snapshot. -/
def EpochSnapshot.pledgesInEpoch (s : EpochSnapshot) (minerAddress : IrysAddress) : ℕ :=
  ((s.commitmentState.pledgeCommitments[minerAddress]?).map List.length).getD 0

namespace MinerCommitments

section

variable (mc : MinerCommitments)

/-- `active_pledge_count`, the subtraction being saturating. -/
def activePledgeCount (pledgesInEpoch : ℕ) : ℕ :=
  pledgesInEpoch + mc.pledges.length - mc.unpledges.length

/-- The branch of a pledge, once a stake was found. -/
def addPledge (tx : CommitmentTransaction)
    (pledgeCountBeforeExecuting pledgesInEpoch : ℕ) : CommitmentSnapshotStatus × MinerCommitments :=
  if mc.unstake.isSome then (.unstakePending, mc)
  else if mc.pledges.any (·.id == tx.id) then (.accepted, mc)
  else if pledgeCountBeforeExecuting ≠ mc.activePledgeCount pledgesInEpoch then
    (.invalidPledgeCount, mc)
  else (.accepted, { mc with pledges := mc.pledges ++ [tx] })

/-- Whether a pending unpledge names the partition. -/
def hasUnpledge (partitionHash : PartitionHash) : Bool :=
  mc.unpledges.any fun tx =>
    match tx.commitmentType with
    | .unpledge _ ph => ph == partitionHash
    | _ => false

/-- The branch of an unpledge; `owned` says whether the signer is assigned the partition. -/
def addUnpledge (tx : CommitmentTransaction)
    (pledgeCountBeforeExecuting : ℕ) (partitionHash : PartitionHash) (owned : Bool)
    (pledgesInEpoch : ℕ) : CommitmentSnapshotStatus × MinerCommitments :=
  if pledgeCountBeforeExecuting ≠ mc.activePledgeCount pledgesInEpoch then
    (.invalidPledgeCount, mc)
  else if !owned then (.unowned, mc)
  else if mc.hasUnpledge partitionHash then (.unpledgePending, mc)
  else (.accepted, { mc with unpledges := mc.unpledges ++ [tx] })

/-- The branch of an unstake.  A pending update of the reward address excludes it, since the
epoch block would apply the unstake first. -/
def addUnstake (tx : CommitmentTransaction) (pledgesInEpoch : ℕ) :
    CommitmentSnapshotStatus × MinerCommitments :=
  if 0 < mc.activePledgeCount pledgesInEpoch then (.hasActivePledges, mc)
  else if mc.unstake.isSome then (.unstakePending, mc)
  else if mc.updateRewardAddress.isSome then (.unstakePending, mc)
  else (.accepted, { mc with unstake := some tx })

/-- The branch of an update of the reward address; the last one wins. -/
def addUpdateRewardAddress (tx : CommitmentTransaction) :
    CommitmentSnapshotStatus × MinerCommitments :=
  if mc.unstake.isSome then (.unstakePending, mc)
  else if mc.updateRewardAddress.any (·.id == tx.id) then (.accepted, mc)
  else (.accepted, { mc with updateRewardAddress := some tx })

/-- All that was kept, in the order in which it is collected. -/
def all : List CommitmentTransaction :=
  mc.stake.toList ++ mc.pledges ++ mc.unpledges ++ mc.unstake.toList ++
    mc.updateRewardAddress.toList

end

end MinerCommitments

namespace CommitmentSnapshot

def empty : CommitmentSnapshot := ⟨∅⟩

section

variable (cs : CommitmentSnapshot)

/-- The record of a signer, an empty one if there is none. -/
def miner (signer : IrysAddress) : MinerCommitments :=
  (cs.commitments[signer]?).getD .empty

/-- Write the record of a signer.  `entry(signer).or_default()` leaves one even where the
commitment is then refused. -/
def put (signer : IrysAddress) (mc : MinerCommitments) :
    CommitmentSnapshot :=
  ⟨cs.commitments.insert signer mc⟩

/-- `has_stake`: an active stake in the epoch snapshot, or a pending one. -/
def hasStake (signer : IrysAddress) (epochSnapshot : EpochSnapshot) :
    Bool :=
  epochSnapshot.isStaked signer || (cs.commitments[signer]?).any (·.stake.isSome)

/-- `existing_stake_status`: what a signer's own stake says about a stake transaction. -/
def existingStakeStatus (stakeTx : CommitmentTransaction)
    (epochSnapshot : EpochSnapshot) : Option CommitmentSnapshotStatus :=
  let existingStakeId :=
    if epochSnapshot.isStaked stakeTx.signer then
      (epochSnapshot.commitmentState.stakeCommitments[stakeTx.signer]?).map (·.id)
    else (cs.commitments[stakeTx.signer]?).bind fun mc => mc.stake.map (·.id)
  existingStakeId.map fun id => if id = stakeTx.id then .accepted else .alreadyStaked

/-- `get_commitment_status`: what the snapshot knows of a commitment. -/
def getCommitmentStatus (commitmentTx : CommitmentTransaction) (epochSnapshot : EpochSnapshot) :
    CommitmentSnapshotStatus :=
  let txid := commitmentTx.id
  let signer := commitmentTx.signer
  match commitmentTx.commitmentType with
  | .stake => (cs.existingStakeStatus commitmentTx epochSnapshot).getD .unknown
  | .pledge _ | .unpledge _ _ =>
    if epochSnapshot.isStaked signer then
      match cs.commitments[signer]? with
      | some commitments =>
        if commitments.unstake.isSome then .unstakePending
        else if commitments.pledges.any (·.id == txid) then .accepted
        else .unknown
      | none => .unknown
    else
      match cs.commitments[signer]? with
      | some commitments =>
        if commitments.pledges.any (·.id == txid) then .accepted
        else if commitments.unstake.isSome then .unstakePending
        else if commitments.stake.isNone then .unstaked
        else .unknown
      | none => .unstaked
  | .unstake =>
    if !cs.hasStake signer epochSnapshot then .unstaked
    else
      match cs.commitments[signer]? with
      | some commitments =>
        if commitments.unstake.any (·.id == txid) then .accepted
        else if commitments.unstake.isSome then .unstakePending
        else if commitments.updateRewardAddress.isSome then .unstakePending
        else .unknown
      | none => .unknown
  | .updateRewardAddress _ =>
    if !cs.hasStake signer epochSnapshot then .unstaked
    else
      match cs.commitments[signer]? with
      | some commitments =>
        if commitments.unstake.isSome then .unstakePending
        else if commitments.updateRewardAddress.any (·.id == txid) then .accepted
        else .unknown
      | none => .unknown

/-- The branches that need a stake: `add` works on the signer's record. -/
def addStaked (signer : IrysAddress) (epochSnapshot : EpochSnapshot)
    (add : MinerCommitments → CommitmentSnapshotStatus × MinerCommitments) :
    CommitmentSnapshotStatus × CommitmentSnapshot :=
  if cs.hasStake signer epochSnapshot then
    let (status, mc) := add (cs.miner signer)
    (status, cs.put signer mc)
  else (.unstaked, cs)

def addCommitment (commitmentTx : CommitmentTransaction)
    (epochSnapshot : EpochSnapshot) : CommitmentSnapshotStatus × CommitmentSnapshot :=
  let signer := commitmentTx.signer
  let pledgesInEpoch := epochSnapshot.pledgesInEpoch signer
  match commitmentTx.commitmentType with
  | .stake =>
    match cs.existingStakeStatus commitmentTx epochSnapshot with
    | some status => (status, cs)
    | none =>
      (.accepted, cs.put signer { cs.miner signer with stake := some commitmentTx })
  | .pledge count =>
    cs.addStaked signer epochSnapshot (·.addPledge commitmentTx count pledgesInEpoch)
  | .unpledge count partitionHash =>
    let owned := (epochSnapshot.partitionAssignments.getAssignment partitionHash).any
      (·.minerAddress == signer)
    cs.addStaked signer epochSnapshot
      (·.addUnpledge commitmentTx count partitionHash owned pledgesInEpoch)
  | .unstake => cs.addStaked signer epochSnapshot (·.addUnstake commitmentTx pledgesInEpoch)
  | .updateRewardAddress _ =>
    cs.addStaked signer epochSnapshot (·.addUpdateRewardAddress commitmentTx)

/-- Commitments in turn, whatever the answers. -/
def addCommitments (commitmentTxs : List CommitmentTransaction)
    (epochSnapshot : EpochSnapshot) : CommitmentSnapshot :=
  commitmentTxs.foldl (fun cs tx => (cs.addCommitment tx epochSnapshot).2) cs

/-- **`get_epoch_commitments`**: all that was kept, sorted. -/
def getEpochCommitments : List CommitmentTransaction :=
  (cs.commitments.values.flatMap MinerCommitments.all).insertionSort commitmentLe

end

end CommitmentSnapshot

/-- `create_commitment_snapshot_for_block`: an epoch block starts an empty snapshot, any other
block adds its commitments to its parent's. -/
def createCommitmentSnapshotForBlock (block : IrysBlockHeader)
    (commitmentTxs : List CommitmentTransaction) (prevCommitmentSnapshot : CommitmentSnapshot)
    (epochSnapshot : EpochSnapshot) (consensusConfig : ConsensusConfig) : CommitmentSnapshot :=
  if consensusConfig.epoch.numBlocksInEpoch ∣ block.height then .empty
  else if commitmentTxs.isEmpty then prevCommitmentSnapshot
  else prevCommitmentSnapshot.addCommitments commitmentTxs epochSnapshot

end Irys
