import Irys.Epoch.Lockstep
import Irys.Ledger.Order

/-!
# Blocks and their epoch snapshots

Every block of the block tree keeps an epoch snapshot: an epoch block advances the snapshot of
its parent, any other block shares it.  Along a chain of blocks from genesis the snapshot's own
epoch block is the last one at or below the tip.
-/

namespace Irys

open EpochSnapshot

/-- A block with the epoch snapshot the block tree keeps for it. -/
structure BlockMetadata where
  block : IrysBlockHeader
  epochSnapshot : EpochSnapshot

/-- `create_epoch_snapshot_for_block`: an epoch block advances its parent's snapshot, any other
block shares it.  `epochCommitments` are those of the parent's commitment snapshot. -/
def createEpochSnapshotForBlock (env : EpochEnv) (block : IrysBlockHeader)
    (parentBlockEntry : BlockMetadata) (epochCommitments : List CommitmentTransaction)
    (consensusConfig : ConsensusConfig) : EpochRes EpochSnapshot :=
  if consensusConfig.epoch.numBlocksInEpoch ∣ block.height then
    parentBlockEntry.epochSnapshot.performEpochTasks env
      (some parentBlockEntry.epochSnapshot.epochBlock) block epochCommitments
  else .ok parentBlockEntry.epochSnapshot

/-! ### Chains -/

section

variable (env : EpochEnv) (config : Config)

/-- **One block.**  It carries only ledgers active in the parent snapshot, and its chunk totals do
not fall.  Timestamps increase along a chain, so Cascade stays active once it is. -/
structure ChainStep (parent x : BlockMetadata) : Prop where
  height : x.block.height = parent.block.height + 1
  cascade : config.hardforks.cascadeForBlock parent.block.timestampSecs = true →
    config.hardforks.cascadeForBlock x.block.timestampSecs = true
  carries : ∀ dl ∈ x.block.dataLedgers, dl.ledgerId ∈ parent.epochSnapshot.ledgers.activeLedgers
  grows : ∀ ledger, parent.block.ledgerTotalChunks ledger ≤ x.block.ledgerTotalChunks ledger
  snapshot : ∃ commitments,
    createEpochSnapshotForBlock env x.block parent commitments config.toConsensusConfig =
      .ok x.epochSnapshot

/-- The first block of a chain. -/
structure ChainGenesis (x : BlockMetadata) : Prop where
  genesis : x.block.GenesisBlock
  snapshot : ∃ commitments, EpochSnapshot.new env x.block commitments config = .ok x.epochSnapshot

/-- **The tips of chains from genesis.** -/
def OnChain (x : BlockMetadata) : Prop :=
  ∃ g, ChainGenesis env config g ∧ Relation.ReflTransGen (ChainStep env config) g x

end

/-- The lifetime of a Submit slot in blocks. -/
def Config.submitLifetime (config : Config) : ℕ :=
  config.epoch.submitLedgerEpochLength * config.epoch.numBlocksInEpoch

/-! ### Where a tip stands -/

/-- What holds at a tip: the snapshot's invariant, and where the tip stands in its epoch. -/
structure TipInv (config : Config) (x : BlockMetadata) : Prop where
  base : EpochBase config x.epochSnapshot
  lifetime : x.epochSnapshot.ledgers.lifetime .submit = some config.submitLifetime
  ahead : ∀ ledger,
    x.epochSnapshot.epochBlock.ledgerTotalChunks ledger ≤ x.block.ledgerTotalChunks ledger
  epoch_dvd : config.epoch.numBlocksInEpoch ∣ x.epochSnapshot.epochBlock.height
  epoch_le : x.epochSnapshot.epochBlock.height ≤ x.block.height
  epoch_next :
    x.block.height < x.epochSnapshot.epochBlock.height + config.epoch.numBlocksInEpoch

variable {env : EpochEnv} {config : Config} {x y parent : BlockMetadata}

variable {s : EpochSnapshot} {core : LedgerCore} {slots slots' : List LedgerSlot} {height : ℕ}

theorem EpochBase.submit_active (base : EpochBase config s) :
    DataLedger.submit ∈ s.ledgers.activeLedgers := by
  have hids : DataLedger.submit ∈ s.ledgers.termIds := by
    rcases base.shape with h | h
    · rw [h]
      simp
    · rw [h]
      simp
  exact List.mem_cons_of_mem _ hids

theorem EpochBase.submit_core (base : EpochBase config s) :
    ∃ core, s.ledgers.get? .submit = some core :=
  Ledgers.mem_activeLedgers_iff.mp base.submit_active

/-- The genesis snapshot is the genesis block's own, and its Submit slots are fresh ones after a
turn. -/
theorem ChainGenesis.spec (h : ChainGenesis env config x) :
    x.epochSnapshot.epochBlock = x.block ∧
      x.epochSnapshot.ledgers.lifetime .submit = some config.submitLifetime ∧
      ∃ (n : ℕ) (core : LedgerCore) (t : Turn),
        x.epochSnapshot.ledgers.get? .submit = some core ∧
        core.slots.map Ledgers.bareSlot =
          (t.after (List.replicate n (LedgerSlot.fresh x.block.height))).map Ledgers.bareSlot ∧
        t.chunksPerSlot = config.numChunksInPartition ∧ t.prevTotal = 0 ∧
        t.newTotal = x.block.ledgerTotalChunks .submit ∧ t.height = x.block.height ∧
        t.cascade = config.hardforks.cascadeForBlock x.block.timestampSecs ∧
        t.lifetime = some config.submitLifetime := by
  obtain ⟨hg, commitments, hnew⟩ := h
  have hshape : (EpochSnapshot.empty x.block config).ledgers.Shape := ledgers_new_shape _ _
  obtain ⟨hhead, hframe, -, n, -, hturn⟩ :=
    performEpochTasks_spec hshape (expectOk_eq_ok.mp hnew)
  have hget : ((EpochSnapshot.empty x.block config).activated x.block).get? .submit =
      some ⟨[], config.numPartitionsPerSlot⟩ := activated_get? x.block rfl
  have hlife : ((EpochSnapshot.empty x.block config).activated x.block).lifetime .submit =
      some config.submitLifetime :=
    activated_lifetime x.block (List.mem_cons_of_mem _ (List.mem_cons_self ..))
  obtain ⟨core, hcore, hslots⟩ := (hturn .submit _ hget).slots
  exact ⟨congrArg (fun p => p.2.1) hhead, (Ledgers.lifetime_eq_of_frame hframe _).trans hlife,
    n, core, _, hcore, hslots, rfl, rfl, rfl, rfl, rfl, hlife⟩

theorem TipInv.genesis (h : ChainGenesis env config x) : TipInv config x := by
  obtain ⟨hblock, hlife, -⟩ := h.spec
  obtain ⟨hg, commitments, hnew⟩ := h
  refine ⟨EpochBase.genesis hg hnew, hlife, ?_, ?_, ?_, ?_⟩
  · intro ledger
    rw [hblock]
  · rw [hblock, hg.height]
    exact dvd_zero _
  · rw [hblock]
  · rw [hblock]
    exact Nat.lt_add_of_pos_right config.blocksInEpoch_pos

theorem TipInv.epochStep (inv : TipInv config parent) (h : ChainStep env config parent x)
    (hdvd : config.epoch.numBlocksInEpoch ∣ x.block.height) :
    EpochStep env parent.epochSnapshot x.block x.epochSnapshot := by
  obtain ⟨commitments, hsnap⟩ := h.snapshot
  rw [createEpochSnapshotForBlock, if_pos hdvd] at hsnap
  have hheight : x.block.height =
      parent.epochSnapshot.epochBlock.height + config.epoch.numBlocksInEpoch := by
    have hdiff := Nat.dvd_sub hdvd inv.epoch_dvd
    have hle := inv.epoch_le
    have hnext := inv.epoch_next
    have hb := h.height
    have := Nat.le_of_dvd (by omega) hdiff
    omega
  refine ⟨?_, h.carries, fun ledger => (inv.ahead ledger).trans (h.grows ledger),
    some parent.epochSnapshot.epochBlock, commitments, .inl rfl, hsnap⟩
  rw [inv.base.config_eq]
  exact hheight

theorem ChainStep.snapshot_eq (h : ChainStep env config parent x)
    (hdvd : ¬ config.epoch.numBlocksInEpoch ∣ x.block.height) :
    x.epochSnapshot = parent.epochSnapshot := by
  obtain ⟨commitments, hsnap⟩ := h.snapshot
  rw [createEpochSnapshotForBlock, if_neg hdvd] at hsnap
  exact (Except.ok.inj hsnap).symm

/-- **The snapshot's epoch block** is the block itself at an epoch block, and the parent's
otherwise. -/
theorem TipInv.epochBlock_eq (inv : TipInv config parent) (h : ChainStep env config parent x) :
    x.epochSnapshot.epochBlock =
      if config.epoch.numBlocksInEpoch ∣ x.block.height then x.block
      else parent.epochSnapshot.epochBlock := by
  split
  · rename_i hdvd
    exact (inv.epochStep h hdvd).epochBlock_eq inv.base
  · rename_i hdvd
    rw [h.snapshot_eq hdvd]

/-- **A block keeps the invariant.** -/
theorem TipInv.step (inv : TipInv config parent) (h : ChainStep env config parent x) :
    TipInv config x := by
  have hblock := inv.epochBlock_eq h
  by_cases hdvd : config.epoch.numBlocksInEpoch ∣ x.block.height
  · have hstep := inv.epochStep h hdvd
    rw [if_pos hdvd] at hblock
    obtain ⟨prev, commitments, -, hrun⟩ := hstep.runs
    have hframe := (performEpochTasks_spec inv.base.shape hrun).2.1
    refine ⟨inv.base.step hstep, ?_, ?_, ?_, ?_, ?_⟩
    · rw [Ledgers.lifetime_eq_of_frame hframe, activated_lifetime _ inv.base.submit_active]
      exact inv.lifetime
    · intro ledger
      rw [hblock]
    · rwa [hblock]
    · rw [hblock]
    · rw [hblock]
      exact Nat.lt_add_of_pos_right config.blocksInEpoch_pos
  · have hsame := h.snapshot_eq hdvd
    refine ⟨?_, ?_, ?_, ?_, ?_, ?_⟩
    · rw [hsame]
      exact inv.base
    · rw [hsame]
      exact inv.lifetime
    · intro ledger
      rw [hsame]
      exact (inv.ahead ledger).trans (h.grows ledger)
    · rw [hsame]
      exact inv.epoch_dvd
    · rw [hsame, h.height]
      exact inv.epoch_le.trans (Nat.le_succ _)
    · -- the next multiple of the epoch length is not this block
      have hne : x.block.height ≠
          parent.epochSnapshot.epochBlock.height + config.epoch.numBlocksInEpoch := by
        intro heq
        rw [heq] at hdvd
        exact hdvd (Nat.dvd_add inv.epoch_dvd dvd_rfl)
      have hnext := inv.epoch_next
      have hb := h.height
      rw [hsame]
      omega

theorem TipInv.getAllExpired {ε : Type} (inv : TipInv config x)
    (hcore : x.epochSnapshot.ledgers.get? .submit = some core) (height total : ℕ) (cascade : Bool) :
    (x.epochSnapshot.getAllExpiredTermSlotIndexes .submit height cascade total : Res ε _) =
      .ok (allExpiredSlotIndexes core.slots config.submitLifetime height cascade total
        config.numChunksInPartition) := by
  have hlife := inv.lifetime
  rw [Ledgers.lifetime_term (by decide)] at hlife
  obtain ⟨t, hfind, hlife⟩ := Option.map_eq_some_iff.mp hlife
  rw [Ledgers.get?_term (by decide), hfind] at hcore
  cases hcore
  have hfit := inv.base.fit.term t (List.mem_of_find?_eq_some hfind)
  rw [getAllExpiredTermSlotIndexes, Ledgers.getAllExpiredTermSlotIndexes, hfind, expect_some,
    ok_bind, TermLedger.getAllExpiredSlotIndexes, Ledgers.TermLedger.minBlocks_of_fits hfit,
    ok_bind, hlife, inv.base.config_eq]
  rfl

/-- **The Submit turn of an epoch block**: the slots of the parent's snapshot after it. -/
theorem TipInv.submitTurn (inv : TipInv config parent) (h : ChainStep env config parent x)
    (hdvd : config.epoch.numBlocksInEpoch ∣ x.block.height) {before : LedgerCore}
    (hbefore : parent.epochSnapshot.ledgers.get? .submit = some before)
    (hcore : x.epochSnapshot.ledgers.get? .submit = some core) :
    ∃ t : Turn,
      core.slots.map Ledgers.bareSlot = (t.after before.slots).map Ledgers.bareSlot ∧
      t.chunksPerSlot = config.numChunksInPartition ∧
      t.prevTotal = parent.epochSnapshot.epochBlock.ledgerTotalChunks .submit ∧
      t.newTotal = x.block.ledgerTotalChunks .submit ∧ t.height = x.block.height ∧
      t.cascade = config.hardforks.cascadeForBlock x.block.timestampSecs ∧
      t.lifetime = some config.submitLifetime := by
  obtain ⟨core', hcore', hslots⟩ := ((inv.epochStep h hdvd).tookTurn inv.base hbefore).slots
  rw [hcore] at hcore'
  cases hcore'
  have hcfg := inv.base.config_eq
  refine ⟨_, hslots, ?_, rfl, rfl, rfl, ?_, inv.lifetime⟩
  · rw [← hcfg]
    rfl
  · rw [← hcfg]
    rfl

/-! ### The order of the Submit clocks -/

theorem exists_of_bareSlot
    (heq : slots'.map Ledgers.bareSlot = slots.map Ledgers.bareSlot) (i : ℕ) (slot' : LedgerSlot)
    (hslot' : slots'[i]? = some slot') :
    ∃ slot, slots[i]? = some slot ∧ slot'.hasBeenWritten = slot.hasBeenWritten ∧
      slot'.lastHeight = slot.lastHeight ∧ slot'.isExpired = slot.isExpired := by
  have hmap := congrArg (·[i]?) heq
  simp only [List.getElem?_map, hslot', Option.map_some] at hmap
  obtain ⟨slot, hslot, hbare⟩ := Option.map_eq_some_iff.mp hmap.symm
  exact ⟨slot, hslot, (congrArg LedgerSlot.hasBeenWritten hbare).symm,
    (congrArg LedgerSlot.lastHeight hbare).symm, (congrArg LedgerSlot.isExpired hbare).symm⟩

/-- **The Submit slots of a tip.**  Their clocks are in order, the expired ones lie below the last,
and Cascade is active at the tip if it was at the snapshot's epoch block. -/
structure SubmitOrder (config : Config) (x : BlockMetadata) : Prop where
  order : ∀ core, x.epochSnapshot.ledgers.get? .submit = some core →
    SlotOrder core.slots (x.epochSnapshot.epochBlock.ledgerTotalChunks .submit)
      config.numChunksInPartition x.epochSnapshot.epochBlock.height
      (config.hardforks.cascadeForBlock x.epochSnapshot.epochBlock.timestampSecs)
  within : ∀ core, x.epochSnapshot.ledgers.get? .submit = some core →
    ExpiredWithin core.slots (some config.submitLifetime) x.epochSnapshot.epochBlock.height
  cascade : config.hardforks.cascadeForBlock x.epochSnapshot.epochBlock.timestampSecs = true →
    config.hardforks.cascadeForBlock x.block.timestampSecs = true

theorem SlotOrder.of_bare {total C : ℕ} {cascade : Bool}
    (h : SlotOrder slots total C height cascade)
    (heq : slots'.map Ledgers.bareSlot = slots.map Ledgers.bareSlot) :
    SlotOrder slots' total C height cascade :=
  h.congr (exists_of_bareSlot heq)

theorem ExpiredWithin.of_bare {lifetime : Option ℕ}
    (h : ExpiredWithin slots lifetime height)
    (heq : slots'.map Ledgers.bareSlot = slots.map Ledgers.bareSlot) :
    ExpiredWithin slots' lifetime height := by
  apply h.congr (length_of_bare heq)
  intro i slot' hslot'
  obtain ⟨slot, hslot, -, -, hflag⟩ := exists_of_bareSlot heq i slot' hslot'
  exact ⟨slot, hslot, hflag⟩

theorem SubmitOrder.genesis (h : ChainGenesis env config x) : SubmitOrder config x := by
  obtain ⟨hblock, -, n, core, t, hcore, hslots, hC, hprev, hnew, hheight, hcas, hlife⟩ := h.spec
  have hpos : 0 < t.chunksPerSlot := hC ▸ config.chunksInPartition_pos
  refine ⟨?_, ?_, ?_⟩
  · intro core' hcore'
    rw [hcore] at hcore'
    cases hcore'
    rw [hblock, ← hC, ← hnew, ← hcas, ← hheight]
    rw [← hheight] at hslots
    refine SlotOrder.of_bare ?_ hslots
    refine SlotOrder.after ?_ hpos id (hprev ▸ covered_zero hpos _) (hprev ▸ Nat.zero_le _) le_rfl
    rw [hprev]
    exact SlotOrder.fresh n t.chunksPerSlot t.height t.cascade
  · intro core' hcore'
    rw [hcore] at hcore'
    cases hcore'
    rw [hblock, ← hlife, ← hheight]
    rw [← hheight] at hslots
    exact ((ExpiredWithin.fresh n t.lifetime t.height).after le_rfl).of_bare hslots
  · rw [hblock]
    exact id

/-- **A block keeps the order of the Submit clocks**, also the block that activates Cascade. -/
theorem SubmitOrder.step (inv : TipInv config parent) (hord : SubmitOrder config parent)
    (h : ChainStep env config parent x) : SubmitOrder config x := by
  have hblock := inv.epochBlock_eq h
  by_cases hdvd : config.epoch.numBlocksInEpoch ∣ x.block.height
  · rw [if_pos hdvd] at hblock
    obtain ⟨before, hbefore⟩ := inv.base.submit_core
    have hmono : parent.epochSnapshot.epochBlock.height ≤ x.block.height := by
      have hle := inv.epoch_le
      have hheight := h.height
      omega
    refine ⟨?_, ?_, ?_⟩
    · intro core hcore
      obtain ⟨t, hslots, hC, hprev, hnew, hheight, hcas, -⟩ :=
        inv.submitTurn h hdvd hbefore hcore
      have hold := hord.order before hbefore
      have hcov := inv.base.covered .submit before hbefore
      rw [← hprev, ← hC] at hold hcov
      rw [hblock, ← hC, ← hnew, ← hcas, ← hheight]
      refine SlotOrder.of_bare ?_ hslots
      refine hold.after (hC ▸ config.chunksInPartition_pos) ?_ hcov ?_ (hheight ▸ hmono)
      · intro hactive
        rw [hcas]
        exact h.cascade (hord.cascade hactive)
      · rw [hprev, hnew]
        exact (inv.ahead .submit).trans (h.grows .submit)
    · intro core hcore
      obtain ⟨t, hslots, -, -, -, hheight, -, hlife⟩ := inv.submitTurn h hdvd hbefore hcore
      have hold := hord.within before hbefore
      rw [hblock, ← hlife, ← hheight]
      rw [← hlife] at hold
      exact (hold.after (hheight ▸ hmono)).of_bare hslots
    · rw [hblock]
      exact id
  · rw [if_neg hdvd] at hblock
    have hsame := h.snapshot_eq hdvd
    refine ⟨?_, ?_, ?_⟩
    · rw [hsame]
      exact hord.order
    · rw [hsame]
      exact hord.within
    · rw [hblock]
      exact fun hactive => h.cascade (hord.cascade hactive)

/-- **Every tip satisfies both invariants.** -/
theorem OnChain.inv (h : OnChain env config x) : TipInv config x ∧ SubmitOrder config x := by
  obtain ⟨g, hg, hext⟩ := h
  induction hext with
  | refl => exact ⟨TipInv.genesis hg, SubmitOrder.genesis hg⟩
  | tail _ hstep ih => exact ⟨ih.1.step hstep, SubmitOrder.step ih.1 ih.2 hstep⟩

end Irys
