import Irys.Epoch.Snapshot
import Irys.Ledger.View

/-!
# `perform_epoch_tasks` refines the ledger turn

What an epoch block does to the slots of one ledger is a `Turn`, whatever else the epoch
processing does.  The proof follows the three parts of `performEpochTasks`.
-/

namespace Irys

/-- The pledges of a signer. -/
def CommitmentState.pledgesOf (cs : CommitmentState) (signer : IrysAddress) : List PledgeEntry :=
  (cs.pledgeCommitments[signer]?).getD []

namespace EpochSnapshot

variable {env : EpochEnv} {s s' : EpochSnapshot} {prev : Option IrysBlockHeader}
  {E : IrysBlockHeader} {commitments : List CommitmentTransaction}

/-! ### What every phase keeps -/

/-- The part of a snapshot that only the start of an epoch writes. -/
def header (s : EpochSnapshot) : Config × IrysBlockHeader × Option IrysBlockHeader :=
  (s.config, s.epochBlock, s.previousEpochBlock)

/-- What moving partitions about keeps: the header, the ledgers but for their partition lists,
and the expiry reports. -/
def settledPart (s : EpochSnapshot) :
    (Config × IrysBlockHeader × Option IrysBlockHeader) × Ledgers ×
      Option (List ExpiringPartitionInfo) :=
  (s.header, s.ledgers.bare, s.expiredPartitionInfos)

/-- What it keeps as long as none is added: these, and the list of all partitions. -/
def steadyPart (s : EpochSnapshot) :
    ((Config × IrysBlockHeader × Option IrysBlockHeader) × Ledgers ×
      Option (List ExpiringPartitionInfo)) × List PartitionHash :=
  (s.settledPart, s.allActivePartitions)

/-- The snapshot with other ledgers. -/
def withLedgers (s : EpochSnapshot) (ledgers : Ledgers) : EpochSnapshot := { s with ledgers }

/-- The snapshot with other commitments. -/
def withCommitments (s : EpochSnapshot) (commitmentState : CommitmentState) : EpochSnapshot :=
  { s with commitmentState }

theorem steadyPart_withLedgers {ledgers : Ledgers} (h : ledgers.bare = s.ledgers.bare) :
    (s.withLedgers ledgers).steadyPart = s.steadyPart := by
  simp [steadyPart, settledPart, header, withLedgers, h]

/-! ### The first part -/

theorem computeCommitmentState_eq_ok (h : s.computeCommitmentState commitments = .ok s') :
    ∃ state, s' = s.withCommitments state := by
  obtain ⟨state, -, hret⟩ := bind_eq_ok.mp h
  cases hret
  exact ⟨state, rfl⟩

theorem assignLoop_keeps (pledges : List PledgeEntry) (parts : List PartitionHash)
    (s : EpochSnapshot) :
    (assignLoop pledges parts s).ledgers = s.ledgers ∧
      (assignLoop pledges parts s).steadyPart = s.steadyPart := by
  induction pledges generalizing parts s with
  | nil => exact ⟨rfl, rfl⟩
  | cons pledge pledges ih =>
    cases parts with
    | nil => exact ⟨rfl, rfl⟩
    | cons hash parts =>
      rw [assignLoop]
      split
      · exact ih parts s
      · split
        · exact ih parts s
        · exact ih parts _

theorem assignPartitionHashesToPledges_keeps (s : EpochSnapshot) :
    s.assignPartitionHashesToPledges.ledgers = s.ledgers ∧
      s.assignPartitionHashesToPledges.steadyPart = s.steadyPart := by
  rw [assignPartitionHashesToPledges]
  split
  · exact ⟨rfl, rfl⟩
  · dsimp only
    split
    · exact ⟨rfl, rfl⟩
    · exact assignLoop_keeps _ _ _

variable {L : Ledgers} {ledger : DataLedger} {c : CommitmentTransaction}
    {st st' : EpochSnapshot × CapacityPool × SimpleRng}

theorem allocateIn_spec {L' : Ledgers} {slots height added : ℕ}
    (h : allocateIn L ledger slots height = .ok (L', added)) :
    Ledgers.RewritesOne ledger (appendSlots · slots height) L L' := by
  obtain ⟨core, hcore, h⟩ := bind_eq_ok.mp h
  obtain ⟨⟨core', n⟩, halloc, h⟩ := bind_eq_ok.mp h
  obtain ⟨M, hset, hret⟩ := bind_eq_ok.mp h
  cases hret
  rw [expect_eq_ok] at hcore hset
  rw [LedgerCore.allocateSlots_eq_ok halloc] at hset
  exact Ledgers.rewritesOne_set? hcore hset

/-- What genesis init does: nothing, or a first slot for each ledger, the first partitions and
their assignment. -/
theorem tryGenesisInit_eq_ok (h : s.tryGenesisInit env E = .ok s') :
    s' = s ∨ E.height = 0 ∧ ∃ ledgers n, (s.ledgers.Shape →
      Ledgers.Rewrites (fun _ slots => appendSlots slots 1 E.height) s.ledgers ledgers) ∧
      s' = (addCapacityPartitions env (s.withLedgers ledgers) n).assignPartitionHashesToPledges := by
  rw [tryGenesisInit] at h
  split at h
  · rename_i hgen
    rw [Bool.and_eq_true, IrysBlockHeader.isGenesis, beq_iff_eq] at hgen
    obtain ⟨⟨ledgers, n⟩, hfold, h⟩ := bind_eq_ok.mp h
    obtain ⟨projected, -, hret⟩ := bind_eq_ok.mp h
    cases hret
    refine .inr ⟨hgen.2, ledgers, _, fun hs => Ledgers.foldlM_rewrites Prod.fst ?_ hs hfold, rfl⟩
    rintro ⟨L, n⟩ ledger st' hst
    obtain ⟨⟨M, added⟩, hal, hst⟩ := bind_eq_ok.mp hst
    obtain ⟨k, -, hret⟩ := bind_eq_ok.mp hst
    cases hret
    exact allocateIn_spec hal
  · cases h
    exact .inl rfl

/-- **Genesis init** gives every ledger the same number of fresh slots (none after genesis); it
keeps the header and which ledgers there are. -/
theorem tryGenesisInit_spec (hs : s.ledgers.Shape) (h : s.tryGenesisInit env E = .ok s') :
    s'.header = s.header ∧ ∃ n, (E.height ≠ 0 → n = 0) ∧
      Ledgers.Rewrites (fun _ slots => appendSlots slots n E.height) s.ledgers s'.ledgers := by
  rcases tryGenesisInit_eq_ok h with rfl | ⟨hgen, ledgers, n, hrewrites, rfl⟩
  · refine ⟨rfl, 0, fun _ => rfl, rfl, ?_⟩
    intro ledger
    simp [appendSlots]
  · obtain ⟨hl, hsteady⟩ := assignPartitionHashesToPledges_keeps
      (addCapacityPartitions env (s.withLedgers ledgers) n)
    refine ⟨congrArg (·.1.1) hsteady, 1, fun hne => absurd hgen hne, ?_⟩
    rw [hl]
    exact hrewrites hs

/-- The ledgers once Cascade is applied. -/
def activated (s : EpochSnapshot) (E : IrysBlockHeader) : Ledgers :=
  if s.config.hardforks.cascadeForBlock E.timestampSecs then
    s.ledgers.activateCascade s.config.toConsensusConfig
  else s.ledgers

theorem activated_shape (hs : s.ledgers.Shape) (E : IrysBlockHeader) :
    (s.activated E).Shape := by
  rw [activated]
  split
  · exact hs.activateCascade _
  · exact hs

/-- The state between the checks and the commitments of an epoch block. -/
def opened (s : EpochSnapshot) (prev : Option IrysBlockHeader) (E : IrysBlockHeader) :
    EpochSnapshot :=
  { s with
    epochHeight := E.height
    epochBlock := E
    previousEpochBlock := prev
    ledgers := s.activated E }

theorem beginEpoch_eq_ok (h : s.beginEpoch env prev E commitments = .ok s') :
    ∃ mid, (s.opened prev E).computeCommitmentState commitments = .ok mid ∧
      mid.tryGenesisInit env E = .ok s' := by
  obtain ⟨_, -, h⟩ := bind_eq_ok.mp h
  obtain ⟨_, -, h⟩ := bind_eq_ok.mp h
  obtain ⟨_, -, h⟩ := bind_eq_ok.mp h
  exact bind_eq_ok.mp h

/-- **The first part.** -/
theorem beginEpoch_spec (hs : s.ledgers.Shape)
    (h : s.beginEpoch env prev E commitments = .ok s') :
    s'.header = (s.config, E, prev) ∧ ∃ n, (E.height ≠ 0 → n = 0) ∧
      Ledgers.Rewrites (fun _ slots => appendSlots slots n E.height) (s.activated E)
        s'.ledgers := by
  obtain ⟨mid, hmid, h⟩ := beginEpoch_eq_ok h
  obtain ⟨state, rfl⟩ := computeCommitmentState_eq_ok hmid
  exact tryGenesisInit_spec (activated_shape hs E) h

/-! ### The second part -/

/-- What `slotsToAllocate` returns when nothing overflows, from the slot count alone. -/
def additionalSlots (config : ConsensusConfig) (prev : Option IrysBlockHeader)
    (E : IrysBlockHeader) (delta : Option Delta) (ledger : DataLedger) (count : ℕ) : ℕ :=
  let C := config.numChunksInPartition
  let size := E.ledgerTotalChunks ledger
  let grown := size - (prev.map (·.ledgerTotalChunks ledger)).getD 0
  if E.hasLedger ledger then
    (if count * C - C / 2 ≤ size then 2 else 0) +
      (if config.epoch.numBlocksInEpoch ≤ E.height ∧ C < grown then divCeil grown C else 0)
  else
    match delta with
    | none => 0
    | some d => if count = 0 then d.initialSlotsPerNewLedger else 0

theorem slotsToAllocate_eq_ok {config : ConsensusConfig} {delta : Option Delta}
    {core : LedgerCore} {n : ℕ} (hget : L.get? ledger = some core)
    (h : slotsToAllocate config prev E delta L ledger = .ok n) :
    n = additionalSlots config prev E delta ledger core.slots.length := by
  unfold slotsToAllocate at h
  unfold additionalSlots
  split at h
  · rename_i hhas
    rw [calculateAdditionalSlots, hget] at h
    simp only [expect_some, ok_bind] at h
    obtain ⟨cap, hcap, h⟩ := bind_eq_ok.mp h
    rw [expect_eq_ok, checkedMul_eq_some] at hcap
    rw [if_pos hhas, ← hcap.2, ite_and]
    split at h
    · rename_i hheight
      rw [if_pos hheight]
      split at h
      · rename_i hgrown
        rw [expect_eq_ok, checkedAdd_eq_some] at h
        rw [h.2, if_pos hgrown]
      · rename_i hgrown
        cases h
        rw [if_neg hgrown]
        rfl
    · rename_i hheight
      cases h
      rw [if_neg hheight]
      rfl
  · rename_i hhas
    rw [if_neg hhas]
    cases delta with
    | none =>
      cases h
      rfl
    | some d =>
      simp only [hget, expect_some, ok_bind] at h
      cases h
      rfl

/-- **The turn an epoch block gives a ledger.** -/
def ledgerTurn (s : EpochSnapshot) (prev : Option IrysBlockHeader) (E : IrysBlockHeader)
    (ledger : DataLedger) (count : ℕ) : Turn where
  chunksPerSlot := s.config.numChunksInPartition
  prevTotal := (prev.map (·.ledgerTotalChunks ledger)).getD 0
  newTotal := E.ledgerTotalChunks ledger
  height := E.height
  cascade := s.config.hardforks.cascadeForBlock E.timestampSecs
  added := additionalSlots s.config.toConsensusConfig prev E
    (s.config.hardforks.deltaForBlock E.timestampSecs) ledger count
  lifetime := s.ledgers.lifetime ledger

theorem allocateAdditionalLedgerSlots_spec {delta : Option Delta} (hs : s.ledgers.Shape)
    (h : s.allocateAdditionalLedgerSlots prev E delta = .ok s') :
    ∃ ledgers, s' = s.withLedgers ledgers ∧ Ledgers.Rewrites (fun ledger slots =>
      appendSlots slots (additionalSlots s.config.toConsensusConfig prev E delta ledger
        slots.length) E.height) s.ledgers ledgers := by
  obtain ⟨ledgers, hfold, hret⟩ := bind_eq_ok.mp h
  cases hret
  refine ⟨ledgers, rfl, Ledgers.foldlM_rewrites id ?_ hs hfold⟩
  intro L l L' hstep
  obtain ⟨n, hn, hstep⟩ := bind_eq_ok.mp hstep
  obtain ⟨⟨M, k⟩, hal, hret⟩ := bind_eq_ok.mp hstep
  cases hret
  obtain ⟨hframe, hself, hother⟩ := allocateIn_spec hal
  refine ⟨hframe, hself.trans ?_, hother⟩
  cases hL : L.get? l with
  | none => rw [id, hL]; rfl
  | some c => rw [id, hL, slotsToAllocate_eq_ok hL hn]; rfl

theorem touch_spec {L' : Ledgers} {p n C height : ℕ} {refresh : Bool}
    (h : (L.touch ledger p n C height refresh : EpochRes Ledgers) = .ok L') :
    Ledgers.RewritesOne ledger (touchFilledSlots · p n C height refresh) L L' := by
  rw [Ledgers.touch] at h
  split at h
  · rename_i hnone
    cases h
    refine ⟨rfl, ?_, fun _ _ => rfl⟩
    cases hL : L.get? ledger with
    | none => rfl
    | some core => rw [Option.map_some, touchFilledSlots, if_pos hnone]
  · obtain ⟨core, hcore, h⟩ := bind_eq_ok.mp h
    rw [expect_eq_ok] at hcore h
    exact Ledgers.rewritesOne_set? hcore h

theorem touchActiveLedgerSlots_spec {refresh : Bool} (hs : s.ledgers.Shape)
    (h : s.touchActiveLedgerSlots prev E refresh = .ok s') :
    ∃ ledgers, s' = s.withLedgers ledgers ∧ Ledgers.Rewrites (fun ledger slots =>
      touchFilledSlots slots ((prev.map (·.ledgerTotalChunks ledger)).getD 0)
        (E.ledgerTotalChunks ledger) s.config.numChunksInPartition E.height refresh)
      s.ledgers ledgers := by
  obtain ⟨ledgers, hfold, hret⟩ := bind_eq_ok.mp h
  cases hret
  exact ⟨ledgers, rfl, Ledgers.foldlM_rewrites id (fun L ledger L' hstep => touch_spec hstep) hs
    hfold⟩

theorem returnExpiredPartitionToCapacity_keeps {hash : PartitionHash}
    (h : s.returnExpiredPartitionToCapacity hash = .ok s') : s'.steadyPart = s.steadyPart := by
  rw [returnExpiredPartitionToCapacity] at h
  split at h
  · cases h
    rfl
  · obtain ⟨ledger, -, h⟩ := bind_eq_ok.mp h
    obtain ⟨slotIndex, -, h⟩ := bind_eq_ok.mp h
    obtain ⟨ledgers, hremove, hret⟩ := bind_eq_ok.mp h
    cases hret
    exact steadyPart_withLedgers (Ledgers.bare_removePartitionFromSlot hremove)

theorem expireLedgerSlots_spec {cascade : Bool} (h : s.expireLedgerSlots E cascade = .ok s') :
    ∃ ledgers infos, s.ledgers.expirePartitions E.height cascade E.ledgerTotalChunks
        s.config.numChunksInPartition = (.ok (ledgers, infos) : EpochRes _) ∧
      s'.header = s.header ∧ s'.ledgers.bare = ledgers.bare ∧
      s'.expiredPartitionInfos.getD [] = infos ∧
      s'.allActivePartitions = s.allActivePartitions := by
  obtain ⟨⟨ledgers, infos⟩, hexp, h⟩ := bind_eq_ok.mp h
  refine ⟨ledgers, infos, hexp, ?_⟩
  dsimp only at h
  split at h
  · rename_i hempty
    cases h
    rw [List.isEmpty_iff] at hempty
    exact ⟨rfl, rfl, hempty.symm, rfl⟩
  · obtain ⟨mid, hfold, hret⟩ := bind_eq_ok.mp h
    cases hret
    have hkeep := foldlM_preserves steadyPart _
      (fun s info s' hstep => returnExpiredPartitionToCapacity_keeps hstep) hfold
    exact ⟨congrArg (·.1.1) hkeep, congrArg (·.1.2.1) hkeep, rfl, congrArg Prod.snd hkeep⟩

/-- **The second part**: each ledger takes its turn, and the reports that name it are those of the
slots the turn recycles. -/
theorem turnLedgers_spec (hs : s.ledgers.Shape) (h : s.turnLedgers prev E = .ok s') :
    s'.header = s.header ∧ s'.ledgers.frame = s.ledgers.frame ∧ s.ledgers.LifetimesFit ∧
      ∀ ledger core, s.ledgers.get? ledger = some core →
        let t := s.ledgerTurn prev E ledger core.slots.length
        (∃ core', s'.ledgers.get? ledger = some core' ∧
          core'.slots.map Ledgers.bareSlot = (t.after core.slots).map Ledgers.bareSlot) ∧
        (s'.expiredPartitionInfos.getD []).filter (·.ledgerId == ledger) =
          Ledgers.infosFor ledger (Turn.keyed (t.recycled core.slots)) := by
  obtain ⟨s₁, h₁, h⟩ := bind_eq_ok.mp h
  obtain ⟨s₂, h₂, h₃⟩ := bind_eq_ok.mp h
  obtain ⟨L₁, rfl, hr₁⟩ := allocateAdditionalLedgerSlots_spec hs h₁
  have hs₁ : L₁.Shape := hs.of_frame hr₁.frame
  obtain ⟨L₂, rfl, hr₂⟩ := touchActiveLedgerSlots_spec hs₁ h₂
  have hs₂ : L₂.Shape := hs₁.of_frame hr₂.frame
  have hf : L₂.frame = s.ledgers.frame := hr₂.frame.trans hr₁.frame
  obtain ⟨ledgers, infos, hexp, hhead, hbare, hinfos, -⟩ := expireLedgerSlots_spec h₃
  replace hexp : (L₂.expirePartitions E.height _ E.ledgerTotalChunks
    s.config.numChunksInPartition : EpochRes _) = _ := hexp
  refine ⟨hhead, ?_, ?_, ?_⟩
  · rw [Ledgers.frame_eq_of_bare hbare, Ledgers.expirePartitions_frame hexp, hf]
  · exact (Ledgers.lifetimesFit_of_expirePartitions hexp).of_frame hf.symm
  · intro ledger core hget
    dsimp only
    generalize ht : s.ledgerTurn prev E ledger core.slots.length = t
    have htouched : L₂.get? ledger = some { core with slots := t.touched core.slots } := by
      rw [← ht]
      exact hr₂.get? _ _ (hr₁.get? _ _ hget)
    obtain ⟨hafter, hreports⟩ := Ledgers.expirePartitions_spec hs₂ hexp htouched
    have hdue : L₂.dueOf ledger { core with slots := t.touched core.slots } E.height
        (s.config.hardforks.cascadeForBlock E.timestampSecs) (E.ledgerTotalChunks ledger)
        s.config.numChunksInPartition = t.recycled core.slots := by
      rw [Ledgers.dueOf, Ledgers.lifetime_eq_of_frame hf, ← ht]
      rfl
    rw [hdue] at hafter hreports
    refine ⟨Ledgers.get?_of_bare hbare hafter, ?_⟩
    rw [hinfos]
    exact hreports

/-! ### The third part -/

/-- The snapshot once a partition is nobody's: in neither map, in the pool, its pledge gone. -/
def released (s : EpochSnapshot) (hash : PartitionHash) (signer : IrysAddress) : EpochSnapshot :=
  { s with
    partitionAssignments :=
      { dataPartitions := s.partitionAssignments.dataPartitions.erase hash
        capacityPartitions := s.partitionAssignments.capacityPartitions.erase hash }
    unassignedPartitions :=
      if s.unassignedPartitions.contains hash then s.unassignedPartitions
      else s.unassignedPartitions ++ [hash]
    commitmentState := { s.commitmentState with
      pledgeCommitments :=
        match s.commitmentState.pledgeCommitments[signer]? with
        | none => s.commitmentState.pledgeCommitments
        | some entries => s.commitmentState.pledgeCommitments.insert signer
            (entries.eraseP (·.partitionHash == some hash)) } }

/-- **What `apply_unpledges` does with a commitment**: nothing, or release a partition that its
signer holds, in the capacity pool or in a slot. -/
theorem applyUnpledge_cases (h : s.applyUnpledge c = .ok s') :
    ((∀ n hash, c.commitmentType ≠ .unpledge n hash) ∧ s' = s) ∨
      ∃ n hash, c.commitmentType = .unpledge n hash ∧
        ((∃ a, s.partitionAssignments.dataPartitions[hash]? = none ∧
            s.partitionAssignments.capacityPartitions[hash]? = some a ∧
            a.minerAddress = c.signer ∧ s' = s.released hash c.signer) ∨
          ∃ a ledger i ledgers, s.partitionAssignments.dataPartitions[hash]? = some a ∧
            s.partitionAssignments.capacityPartitions[hash]? = none ∧
            a.minerAddress = c.signer ∧ a.ledgerId = some ledger ∧ a.slotIndex = some i ∧
            s.ledgers.removePartitionFromSlot ledger i hash = (.ok ledgers : EpochRes _) ∧
            s' = (s.withLedgers ledgers).released hash c.signer) := by
  rw [applyUnpledge] at h
  split at h
  · rename_i n hash htype
    refine .inr ⟨n, hash, htype, ?_⟩
    obtain ⟨⟨mid, miner⟩, hmid, h⟩ := bind_eq_ok.mp h
    dsimp only at h
    split at h
    · cases h
    · rename_i hminer
      rw [not_not] at hminer
      cases h
      split at hmid
      · cases hmid
      · rename_i a hdata hcap
        cases hmid
        exact .inl ⟨a, hdata, hcap, hminer, rfl⟩
      · rename_i a hdata hcap
        obtain ⟨ledger, hl, hmid⟩ := bind_eq_ok.mp hmid
        obtain ⟨i, hi, hmid⟩ := bind_eq_ok.mp hmid
        obtain ⟨ledgers, hremove, hret⟩ := bind_eq_ok.mp hmid
        cases hret
        rw [expect_eq_ok] at hl hi
        exact .inr ⟨a, ledger, i, ledgers, hdata, hcap, hminer, hl, hi, hremove, rfl⟩
      · cases hmid
  · rename_i hother
    cases h
    exact .inl ⟨fun n hash htype => hother n hash htype, rfl⟩

/-- **What `apply_unstakes` does with a commitment**: nothing, or drop the stake of a signer that
has no pledges. -/
theorem applyUnstake_cases (h : s.applyUnstake c = .ok s') :
    s' = s ∨ (s.commitmentState.pledgesOf c.signer = [] ∧
      s' = s.withCommitments { s.commitmentState with
        stakeCommitments := s.commitmentState.stakeCommitments.erase c.signer }) := by
  rw [applyUnstake] at h
  split at h
  · dsimp only at h
    split at h
    · cases h
    · rename_i hremaining
      split at h
      · cases h
      · cases h
        refine .inr ⟨?_, rfl⟩
        rw [CommitmentState.pledgesOf]
        cases hget : s.commitmentState.pledgeCommitments[c.signer]? with
        | none => rfl
        | some entries =>
          rw [hget] at hremaining
          exact List.length_eq_zero_iff.mp (Nat.eq_zero_of_not_pos hremaining)
  · cases h
    exact .inl rfl

/-- **What `apply_update_reward_addresses` does with a commitment**: nothing, or write the reward
address of a stake. -/
theorem applyUpdateRewardAddress_cases {st st' : EpochSnapshot × List IrysAddress}
    (h : applyUpdateRewardAddress st c = .ok st') :
    st' = st ∨ ∃ entry rewardAddress,
      st.1.commitmentState.stakeCommitments[c.signer]? = some entry ∧
      st' = (st.1.withCommitments { st.1.commitmentState with
        stakeCommitments := st.1.commitmentState.stakeCommitments.insert c.signer
          { entry with rewardAddress } }, c.signer :: st.2) := by
  rw [applyUpdateRewardAddress] at h
  split at h
  · rename_i rewardAddress _
    dsimp only at h
    split at h
    · cases h
    · split at h
      · cases h
      · rename_i entry hentry
        cases h
        exact .inr ⟨entry, rewardAddress, hentry, rfl⟩
  · cases h
    exact .inl rfl

theorem applyUnpledge_keeps (h : s.applyUnpledge c = .ok s') : s'.steadyPart = s.steadyPart := by
  rcases applyUnpledge_cases h with ⟨-, rfl⟩ | ⟨n, hash, -, ⟨a, -, -, -, rfl⟩ |
    ⟨a, ledger, i, ledgers, -, -, -, -, -, hremove, rfl⟩⟩
  · rfl
  · rfl
  · exact steadyPart_withLedgers (Ledgers.bare_removePartitionFromSlot hremove)

theorem applyUnstake_keeps (h : s.applyUnstake c = .ok s') : s'.steadyPart = s.steadyPart := by
  rcases applyUnstake_cases h with rfl | ⟨-, rfl⟩ <;> rfl

theorem applyUpdateRewardAddress_keeps {st st' : EpochSnapshot × List IrysAddress}
    (h : applyUpdateRewardAddress st c = .ok st') : st'.1.steadyPart = st.1.steadyPart := by
  rcases applyUpdateRewardAddress_cases h with rfl | ⟨entry, rewardAddress, -, rfl⟩ <;> rfl

theorem assignPartitionToSlot_keeps (s : EpochSnapshot) (hash : PartitionHash)
    (ledger : DataLedger) (slotIndex : ℕ) :
    (s.assignPartitionToSlot hash ledger slotIndex).steadyPart = s.steadyPart := by
  rw [assignPartitionToSlot]
  split <;> rfl

theorem fillSlot_keeps {slotIndex needed : ℕ} {slotPool : CapacityPool}
    (h : fillSlot ledger slotIndex needed slotPool st = .ok st') :
    st'.1.steadyPart = st.1.steadyPart := by
  induction needed generalizing slotPool st with
  | zero =>
    cases h
    rfl
  | succ needed ih =>
    obtain ⟨s, pool, rng⟩ := st
    rw [fillSlot] at h
    split at h
    · cases h
      rfl
    · obtain ⟨⟨i, rng'⟩, -, h⟩ := bind_eq_ok.mp h
      obtain ⟨⟨⟨hash, pa⟩, rest⟩, -, h⟩ := bind_eq_ok.mp h
      obtain ⟨ledgers, hpush, h⟩ := bind_eq_ok.mp h
      rw [ih h, ← assignPartitionToSlot_keeps s hash ledger slotIndex]
      exact steadyPart_withLedgers (Ledgers.bare_pushPartitionToSlot hpush)

theorem processSlotNeed_keeps {need : ℕ × ℕ} (h : processSlotNeed ledger st need = .ok st') :
    st'.1.steadyPart = st.1.steadyPart := by
  obtain ⟨core, -, h⟩ := bind_eq_ok.mp h
  obtain ⟨slot, -, h⟩ := bind_eq_ok.mp h
  obtain ⟨assigned, -, h⟩ := bind_eq_ok.mp h
  exact fillSlot_keeps h

theorem processSlotNeeds_keeps (h : processSlotNeeds st ledger = .ok st') :
    st'.1.steadyPart = st.1.steadyPart := by
  obtain ⟨core, -, h⟩ := bind_eq_ok.mp h
  obtain ⟨needs, -, h⟩ := bind_eq_ok.mp h
  exact foldlM_preserves (fun st => st.1.steadyPart) _
    (fun st need st' hstep => processSlotNeed_keeps hstep) h

theorem allocateAdditionalCapacity_eq_ok (h : s.allocateAdditionalCapacity env = .ok s') :
    s' = s ∨ ∃ n, s' = s.addCapacityPartitions env n := by
  obtain ⟨numCapacityPartitions, -, h⟩ := bind_eq_ok.mp h
  obtain ⟨totalParts, -, hret⟩ := bind_eq_ok.mp h
  cases hret
  split
  · exact .inr ⟨_, rfl⟩
  · exact .inl rfl

/-- **The third part** moves partitions about and adds some at the end, and nothing else. -/
theorem reassignPartitions_spec (h : s.reassignPartitions env commitments = .ok s') :
    s'.settledPart = s.settledPart ∧ s.allActivePartitions <+: s'.allActivePartitions := by
  obtain ⟨s₁, h₁, h⟩ := bind_eq_ok.mp h
  obtain ⟨s₂, h₂, h⟩ := bind_eq_ok.mp h
  obtain ⟨s₃, h₃, h⟩ := bind_eq_ok.mp h
  obtain ⟨s₄, h₄, h⟩ := bind_eq_ok.mp h
  obtain ⟨s₅, h₅, hret⟩ := bind_eq_ok.mp h
  cases hret
  have e₁ : s₁.steadyPart = s.steadyPart :=
    foldlM_preserves steadyPart _ (fun s c s' hstep => applyUnpledge_keeps hstep) h₁
  have e₂ : s₂.steadyPart = s₁.steadyPart :=
    foldlM_preserves steadyPart _ (fun s c s' hstep => applyUnstake_keeps hstep) h₂
  have e₃ : s₃.steadyPart = s₂.steadyPart := by
    obtain ⟨⟨t, seen⟩, hfold, hret⟩ := bind_eq_ok.mp h₃
    cases hret
    exact foldlM_preserves (fun st : EpochSnapshot × List IrysAddress => st.1.steadyPart) _
      (fun st c st' hstep => applyUpdateRewardAddress_keeps hstep) hfold
  have e₄ : s₄.steadyPart = s₃.steadyPart := by
    obtain ⟨⟨t, pool, rng⟩, hfold, hret⟩ := bind_eq_ok.mp h₄
    cases hret
    exact foldlM_preserves
      (fun st : EpochSnapshot × CapacityPool × SimpleRng => st.1.steadyPart) _
      (fun st ledger st' hstep => processSlotNeeds_keeps hstep) hfold
  have e₅ : s₅.settledPart = s₄.settledPart ∧
      s₄.allActivePartitions <+: s₅.allActivePartitions := by
    rcases allocateAdditionalCapacity_eq_ok h₅ with rfl | ⟨n, rfl⟩
    · exact ⟨rfl, List.prefix_rfl⟩
    · exact ⟨rfl, List.prefix_append _ _⟩
  have e : s₄.steadyPart = s.steadyPart := by rw [e₄, e₃, e₂, e₁]
  obtain ⟨hkept, hminted⟩ := Prod.mk.inj e
  obtain ⟨hkept', hminted'⟩ := Prod.mk.inj (assignPartitionHashesToPledges_keeps s₅).2
  rw [hkept', hminted', ← hkept, ← hminted]
  exact e₅

/-! ### The whole step -/

/-- What an epoch block has done to a ledger: the slots `start` took the turn `t`, up to
partitions, and the expiry reports that name the ledger are those of the recycled slots. -/
structure TookTurn (s' : EpochSnapshot) (ledger : DataLedger) (start : List LedgerSlot) (t : Turn) :
    Prop where
  slots : ∃ core', s'.ledgers.get? ledger = some core' ∧
    core'.slots.map Ledgers.bareSlot = (t.after start).map Ledgers.bareSlot
  reports : (s'.expiredPartitionInfos.getD []).filter (·.ledgerId == ledger) =
    Ledgers.infosFor ledger (Turn.keyed (t.recycled start))

/-- **An epoch block gives each ledger its turn**, with Cascade applied first, and at genesis with
the first slots. -/
theorem performEpochTasks_spec (hs : s.ledgers.Shape)
    (h : s.performEpochTasks env prev E commitments = .ok s') :
    s'.header = (s.config, E, prev) ∧ s'.ledgers.frame = (s.activated E).frame ∧
      (s.activated E).LifetimesFit ∧
      ∃ n, (E.height ≠ 0 → n = 0) ∧ ∀ ledger core, (s.activated E).get? ledger = some core →
        s'.TookTurn ledger (appendSlots core.slots n E.height)
          { s.ledgerTurn prev E ledger (core.slots.length + n) with
            lifetime := (s.activated E).lifetime ledger } := by
  obtain ⟨s₁, h₁, h⟩ := bind_eq_ok.mp h
  obtain ⟨s₂, h₂, h₃⟩ := bind_eq_ok.mp h
  obtain ⟨hhead₁, n, hn, hstart⟩ := beginEpoch_spec hs h₁
  obtain ⟨hhead₂, hframe₂, hfit, hturn⟩ :=
    turnLedgers_spec ((activated_shape hs E).of_frame hstart.frame) h₂
  have hkeep := (reassignPartitions_spec h₃).1
  have hhead₃ : s'.header = s₂.header := congrArg Prod.fst hkeep
  have hbare : s'.ledgers.bare = s₂.ledgers.bare := congrArg (fun p => p.2.1) hkeep
  have hinfos : s'.expiredPartitionInfos = s₂.expiredPartitionInfos :=
    congrArg (fun p => p.2.2) hkeep
  refine ⟨by rw [hhead₃, hhead₂, hhead₁], ?_, hfit.of_frame hstart.frame.symm, n, hn, ?_⟩
  · rw [Ledgers.frame_eq_of_bare hbare, hframe₂, hstart.frame]
  · intro ledger core hget
    have hcfg : s₁.config = s.config := congrArg Prod.fst hhead₁
    obtain ⟨⟨core₂, hget₂, hslots₂⟩, hreports⟩ := hturn ledger _ (hstart.get? _ _ hget)
    have ht : s₁.ledgerTurn prev E ledger (appendSlots core.slots n E.height).length =
        { s.ledgerTurn prev E ledger (core.slots.length + n) with
          lifetime := (s.activated E).lifetime ledger } := by
      rw [ledgerTurn, ledgerTurn, hcfg, Ledgers.lifetime_eq_of_frame hstart.frame, appendSlots_length]
    rw [ht] at hslots₂ hreports
    obtain ⟨core', hget', hslots'⟩ := Ledgers.get?_of_bare hbare hget₂
    exact ⟨⟨core', hget', hslots'.trans hslots₂⟩, by rw [hinfos]; exact hreports⟩

end EpochSnapshot

end Irys
