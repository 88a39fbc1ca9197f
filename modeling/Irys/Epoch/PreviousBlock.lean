import Irys.Epoch.Snapshot
import Irys.Lib.Loops

/-!
# What the epoch code reads of the previous epoch block

An epoch block is handed the previous epoch block, and the snapshot keeps it in a field of its
own.  No phase reads that field, and the phases read the block only for its ledger totals and, from
the second epoch on, for its height.

* `_withPrevious` lemmas — **every phase commutes with it**;
* `performEpochTasks_ignores` — two snapshots that differ in the field only, with previous blocks
  that pass the check and record the same totals, give snapshots that differ in the field only.
-/

namespace Irys

namespace EpochSnapshot

/-- The snapshot with another previous epoch block. -/
def withPrevious (p : Option IrysBlockHeader) (s : EpochSnapshot) : EpochSnapshot :=
  { s with previousEpochBlock := p }

/-- The step carries the previous epoch block along, and does not read it. -/
abbrev CarriesPrevious (p : Option IrysBlockHeader) :
    (EpochSnapshot → EpochRes EpochSnapshot) → Prop :=
  Intertwines (withPrevious p) (withPrevious p)

variable {p : Option IrysBlockHeader} {env : EpochEnv}

/-! ### The first part -/

theorem computeCommitmentState_withPrevious (commitments : List CommitmentTransaction) :
    CarriesPrevious p (computeCommitmentState · commitments) := by
  apply Intertwines.bind_const
  · intro s
    rfl
  · intro state s
    rfl

theorem assignLoop_withPrevious (pledges : List PledgeEntry) (parts : List PartitionHash)
    (s : EpochSnapshot) :
    assignLoop pledges parts (s.withPrevious p) = (assignLoop pledges parts s).withPrevious p := by
  induction pledges generalizing parts s with
  | nil => rfl
  | cons pledge pledges ih =>
    cases parts with
    | nil => rfl
    | cons hash parts =>
      rw [assignLoop, assignLoop]
      dsimp only [withPrevious]
      cases s.commitmentState.pledgeCommitments[pledge.signer]? with
      | none => exact ih parts s
      | some entries =>
        dsimp only
        cases updateFirst (·.id == pledge.id)
            (fun e => { e with partitionHash := some hash }) entries with
        | none => exact ih parts s
        | some entries =>
          symm
          exact (ih parts _).symm

theorem assignPartitionHashesToPledges_withPrevious (s : EpochSnapshot) :
    (s.withPrevious p).assignPartitionHashesToPledges =
      s.assignPartitionHashesToPledges.withPrevious p := by
  simp only [assignPartitionHashesToPledges]
  show (if s.unassignedPartitions.isEmpty then _ else _) = _
  split
  · rfl
  · show (if (s.commitmentState.pledgeCommitments.values.flatten.filter fun e =>
        e.commitmentStatus == .active && e.partitionHash.isNone).isEmpty then _ else _) = _
    split
    · rfl
    · exact assignLoop_withPrevious _ _ s

theorem tryGenesisInit_withPrevious (E : IrysBlockHeader) :
    CarriesPrevious p (tryGenesisInit env · E) := by
  apply Intertwines.ite
  · intro s
    exact Iff.rfl
  · apply Intertwines.bind_const
    · intro s
      rfl
    · intro r
      apply Intertwines.bind_const
      · intro s
        rfl
      · intro projected s
        symm
        exact congrArg Except.ok (assignPartitionHashesToPledges_withPrevious _).symm
  · intro s
    rfl

/-! ### The second part -/

theorem allocateAdditionalLedgerSlots_withPrevious (prev : Option IrysBlockHeader)
    (E : IrysBlockHeader) (delta : Option Delta) :
    CarriesPrevious p
      (allocateAdditionalLedgerSlots · prev E delta) := by
  apply Intertwines.bind_const
  · intro s
    rfl
  · intro ledgers s
    rfl

theorem touchActiveLedgerSlots_withPrevious (prev : Option IrysBlockHeader) (E : IrysBlockHeader)
    (refresh : Bool) :
    CarriesPrevious p (touchActiveLedgerSlots · prev E refresh) := by
  apply Intertwines.bind_const
  · intro s
    rfl
  · intro ledgers s
    rfl

theorem returnExpiredPartitionToCapacity_withPrevious (hash : PartitionHash) :
    CarriesPrevious p (returnExpiredPartitionToCapacity · hash) := by
  intro s
  simp only [returnExpiredPartitionToCapacity, withPrevious]
  cases s.partitionAssignments.dataPartitions[hash]? with
  | none => rfl
  | some assignment =>
    dsimp only
    cases assignment.ledgerId with
    | none => rfl
    | some ledger =>
      cases assignment.slotIndex with
      | none => rfl
      | some slotIndex =>
        show (s.ledgers.removePartitionFromSlot ledger slotIndex _ >>= _) =
          (s.ledgers.removePartitionFromSlot ledger slotIndex _ >>= _ : EpochRes _).map _
        cases (s.ledgers.removePartitionFromSlot ledger slotIndex assignment.partitionHash :
            EpochRes Ledgers) with
        | ok ledgers => rfl
        | error e => rfl

theorem expireLedgerSlots_withPrevious (E : IrysBlockHeader) (cascade : Bool) :
    CarriesPrevious p (expireLedgerSlots · E cascade) := by
  apply Intertwines.bind_const
  · intro s
    rfl
  · intro r
    apply Intertwines.ite
    · intro s
      exact Iff.rfl
    · intro s
      rfl
    · intro s
      exact (Intertwines.foldlM (fun info : ExpiringPartitionInfo =>
        returnExpiredPartitionToCapacity_withPrevious info.partitionHash) r.2).bind
        (l := withPrevious p) (fun _ => rfl) { s with ledgers := r.1 }

/-- Blocks that record the same totals. -/
def SameTotals (prev prev' : Option IrysBlockHeader) : Prop :=
  ∀ ledger, (prev.map (·.ledgerTotalChunks ledger)).getD 0 =
    (prev'.map (·.ledgerTotalChunks ledger)).getD 0

variable {prev prev' : Option IrysBlockHeader} {E : IrysBlockHeader}

theorem allocateAdditionalLedgerSlots_congr (h : SameTotals prev prev') (s : EpochSnapshot)
    (delta : Option Delta) :
    s.allocateAdditionalLedgerSlots prev E delta =
      s.allocateAdditionalLedgerSlots prev' E delta := by
  have hslots : slotsToAllocate s.config.toConsensusConfig prev E delta =
      slotsToAllocate s.config.toConsensusConfig prev' E delta := by
    funext L ledger
    simp only [slotsToAllocate, calculateAdditionalSlots, h ledger]
  simp only [allocateAdditionalLedgerSlots, hslots]

theorem touchActiveLedgerSlots_congr (h : SameTotals prev prev') (s : EpochSnapshot)
    (refresh : Bool) :
    s.touchActiveLedgerSlots prev E refresh = s.touchActiveLedgerSlots prev' E refresh := by
  have htotals : (fun ledger => (prev.map (·.ledgerTotalChunks ledger)).getD 0) =
      fun ledger => (prev'.map (·.ledgerTotalChunks ledger)).getD 0 := funext h
  simp only [touchActiveLedgerSlots, congrFun htotals]

theorem turnLedgers_withPrevious (prev : Option IrysBlockHeader) (E : IrysBlockHeader) :
    CarriesPrevious p (turnLedgers · prev E) := by
  intro s
  exact (((allocateAdditionalLedgerSlots_withPrevious prev E _).bind
    ((touchActiveLedgerSlots_withPrevious prev E _).bind
      (expireLedgerSlots_withPrevious E _)))) s

theorem turnLedgers_congr (h : SameTotals prev prev') (s : EpochSnapshot) :
    s.turnLedgers prev E = s.turnLedgers prev' E := by
  simp only [turnLedgers, allocateAdditionalLedgerSlots_congr h, touchActiveLedgerSlots_congr h]

/-! ### The third part -/

theorem applyUnpledge_withPrevious (c : CommitmentTransaction) :
    CarriesPrevious p (applyUnpledge · c) := by
  intro s
  simp only [applyUnpledge]
  cases c.commitmentType with
  | unpledge count hash =>
    show (_ >>= _) = (_ >>= _ : EpochRes _).map _
    dsimp only [withPrevious]
    cases hdata : s.partitionAssignments.dataPartitions[hash]? with
    | none =>
      cases hcap : s.partitionAssignments.capacityPartitions[hash]? with
      | none => rfl
      | some capacity =>
        simp only [ok_bind]
        split
        · rfl
        · rfl
    | some data =>
      cases hcap : s.partitionAssignments.capacityPartitions[hash]? with
      | some capacity => rfl
      | none =>
        dsimp only
        cases data.ledgerId with
        | none => rfl
        | some ledger =>
          cases data.slotIndex with
          | none => rfl
          | some slotIndex =>
            simp only [expect_some, ok_bind]
            cases (s.ledgers.removePartitionFromSlot ledger slotIndex hash :
                EpochRes Ledgers) with
            | error e => rfl
            | ok ledgers =>
              simp only [ok_bind]
              show (if data.minerAddress ≠ c.signer then _ else _) =
                Except.map _ (if data.minerAddress ≠ c.signer then _ else _)
              split
              · rfl
              · rfl
  | _ => rfl

theorem applyUnstake_withPrevious (c : CommitmentTransaction) :
    CarriesPrevious p (applyUnstake · c) := by
  simp only [applyUnstake]
  cases c.commitmentType with
  | unstake =>
    apply Intertwines.ite
    · intro s
      exact Iff.rfl
    · intro s
      rfl
    · apply Intertwines.ite
      · intro s
        exact Iff.rfl
      · intro s
        rfl
      · intro s
        rfl
  | _ =>
    intro s
    rfl

theorem applyUpdateRewardAddress_withPrevious (c : CommitmentTransaction) :
    Intertwines (Prod.map (withPrevious p) id) (Prod.map (withPrevious p) id)
      (applyUpdateRewardAddress · c) := by
  intro st
  simp only [applyUpdateRewardAddress]
  cases c.commitmentType with
  | updateRewardAddress newRewardAddress =>
    dsimp only [Prod.map, id, withPrevious]
    split
    · rfl
    · cases st.1.commitmentState.stakeCommitments[c.signer]? with
      | none => rfl
      | some entry => rfl
  | _ => rfl

theorem applyUpdateRewardAddresses_withPrevious (commitments : List CommitmentTransaction) :
    CarriesPrevious p
      (applyUpdateRewardAddresses · commitments) := by
  intro s
  exact (Intertwines.foldlM applyUpdateRewardAddress_withPrevious commitments).bind
    (l := withPrevious p) (fun _ => rfl) (s, [])

theorem assignPartitionToSlot_withPrevious (s : EpochSnapshot) (hash : PartitionHash)
    (ledger : DataLedger) (i : ℕ) :
    (s.withPrevious p).assignPartitionToSlot hash ledger i =
      (s.assignPartitionToSlot hash ledger i).withPrevious p := by
  simp only [assignPartitionToSlot, withPrevious]
  cases s.partitionAssignments.capacityPartitions[hash]? with
  | none => rfl
  | some assignment => rfl

theorem fillSlot_withPrevious (ledger : DataLedger) (i needed : ℕ) (slotPool : CapacityPool) :
    Intertwines (Prod.map (withPrevious p) id) (Prod.map (withPrevious p) id)
      (fillSlot ledger i needed slotPool) := by
  induction needed generalizing slotPool with
  | zero =>
    intro st
    rfl
  | succ needed ih =>
    intro st
    obtain ⟨s, pool, rng⟩ := st
    dsimp only [Prod.map, id]
    simp only [fillSlot]
    split
    · rfl
    · cases (rng.nextRange (UInt32.ofNat slotPool.length) : EpochRes (ℕ × SimpleRng)) with
      | error e => rfl
      | ok draw =>
        rw [ok_bind, ok_bind]
        cases swapRemove slotPool draw.1 with
        | none => rfl
        | some picked =>
          simp only [ok_bind, expect_some, assignPartitionToSlot_withPrevious]
          show ((s.assignPartitionToSlot _ ledger i).ledgers.pushPartitionToSlot ledger i _
            >>= _) = (_ >>= _ : EpochRes _).map _
          cases ((s.assignPartitionToSlot picked.1.1 ledger i).ledgers.pushPartitionToSlot
              ledger i picked.1.1 : EpochRes Ledgers) with
          | error e => rfl
          | ok ledgers =>
            symm
            exact (ih _ _).symm

theorem processSlotNeed_withPrevious (ledger : DataLedger) (need : ℕ × ℕ) :
    Intertwines (Prod.map (withPrevious p) id) (Prod.map (withPrevious p) id)
      (processSlotNeed ledger · need) := by
  intro st
  obtain ⟨s, pool, rng⟩ := st
  show (expect (s.ledgers.get? ledger) >>= _) = (expect (s.ledgers.get? ledger) >>= _).map _
  cases s.ledgers.get? ledger with
  | none => rfl
  | some core =>
    show (expect core.slots[need.1]? >>= _) = (expect core.slots[need.1]? >>= _).map _
    cases core.slots[need.1]? with
    | none => rfl
    | some slot =>
      show ((slot.partitions.mapM fun hash => do
          let pa ← expect (s.partitionAssignments.getAssignment hash)
          return pa.minerAddress) >>= _) = Except.map _ (slot.partitions.mapM _ >>= _)
      cases (slot.partitions.mapM fun hash => do
          let pa ← expect (s.partitionAssignments.getAssignment hash)
          return pa.minerAddress : EpochRes (List IrysAddress)) with
      | error e => rfl
      | ok assigned => exact fillSlot_withPrevious ledger need.1 need.2 _ (s, pool, rng)

theorem processSlotNeeds_withPrevious (ledger : DataLedger) :
    Intertwines (Prod.map (withPrevious p) id) (Prod.map (withPrevious p) id)
      (processSlotNeeds · ledger) := by
  apply Intertwines.bind_const
  · intro st
    rfl
  · intro core
    apply Intertwines.bind_const
    · intro st
      rfl
    · intro needs
      exact Intertwines.foldlM (processSlotNeed_withPrevious ledger) needs

theorem backfillMissingPartitions_withPrevious :
    CarriesPrevious p backfillMissingPartitions := by
  intro s
  exact (Intertwines.foldlM processSlotNeeds_withPrevious s.ledgers.activeLedgers).bind
    (l := withPrevious p) (fun _ => rfl) (s, _, _)

theorem allocateAdditionalCapacity_withPrevious :
    CarriesPrevious p (allocateAdditionalCapacity env) := by
  apply Intertwines.bind_const
  · intro s
    rfl
  · intro numCapacityPartitions
    apply Intertwines.bind_const
    · intro s
      rfl
    · intro totalParts s
      show Except.ok (if s.allActivePartitions.length < totalParts then _ else _) =
        Except.ok (withPrevious p (if s.allActivePartitions.length < totalParts then _ else _))
      split
      · rfl
      · rfl

theorem reassignPartitions_withPrevious (commitments : List CommitmentTransaction) :
    CarriesPrevious p (reassignPartitions env · commitments) :=
  (Intertwines.foldlM applyUnpledge_withPrevious commitments).bind
    ((Intertwines.foldlM applyUnstake_withPrevious commitments).bind
      ((applyUpdateRewardAddresses_withPrevious commitments).bind
        (backfillMissingPartitions_withPrevious.bind
          (allocateAdditionalCapacity_withPrevious.bind
            (.pure assignPartitionHashesToPledges_withPrevious)))))

/-! ### The epoch block -/

/-- The checks and the state up to genesis init read the field of the old snapshot not at all, and
the previous block only in the check. -/
theorem beginEpoch_withPrevious (s : EpochSnapshot)
    (hcheck : s.checkPreviousEpochBlock prev E = .ok ())
    (hcheck' : s.checkPreviousEpochBlock prev' E = .ok ())
    (commitments : List CommitmentTransaction) :
    s.beginEpoch env prev' E commitments =
      (s.beginEpoch env prev E commitments).map (withPrevious prev') := by
  rw [beginEpoch, beginEpoch, hcheck, hcheck']
  cases s.isEpochBlock E with
  | error e => rfl
  | ok u =>
    simp only [ok_bind]
    cases mapErr EpochSnapshotError.invalidCommitments (validateCommitments E commitments) with
    | error e => rfl
    | ok u =>
      symm
      exact ((computeCommitmentState_withPrevious commitments).bind
        (tryGenesisInit_withPrevious E) _).symm

/-- **Another previous epoch block.**  If both pass the check and record the same totals, the
outcomes differ in the field only. -/
theorem performEpochTasks_withPrevious (s : EpochSnapshot)
    (hcheck : s.checkPreviousEpochBlock prev E = .ok ())
    (hcheck' : s.checkPreviousEpochBlock prev' E = .ok ()) (htotals : SameTotals prev prev')
    (commitments : List CommitmentTransaction) :
    s.performEpochTasks env prev' E commitments =
      (s.performEpochTasks env prev E commitments).map (withPrevious prev') := by
  rw [performEpochTasks, performEpochTasks, beginEpoch_withPrevious s hcheck hcheck' commitments]
  cases s.beginEpoch env prev E commitments with
  | error e => rfl
  | ok mid =>
    show ((mid.withPrevious prev').turnLedgers prev' E >>= _) = _
    rw [← turnLedgers_congr htotals]
    exact (turnLedgers_withPrevious prev E).bind
      (@reassignPartitions_withPrevious prev' env commitments) mid

theorem performEpochTasks_ignores (s : EpochSnapshot) (p : Option IrysBlockHeader)
    (commitments : List CommitmentTransaction) :
    (s.withPrevious p).performEpochTasks env prev E commitments =
      s.performEpochTasks env prev E commitments := rfl

end EpochSnapshot

end Irys
