import Irys.Epoch.Chain
import Irys.Expiry.SubmitRange

/-!
# A settled slot is never promoted from

Settlement refunds the transactions of an expired Submit slot; the promotion filter keeps
transactions of expired slots out of the Publish ledger.  Settlement counts with the epoch
block's own chunk total and leaves the write window out; the filter counts with the parent's
total and leaves nothing out.  Along every branch with Cascade active, the filter's set contains
what was settled, at the settling block and at every block after it.

* `BlockStep`, `Extends`, `Branch` — chains of blocks with Cascade active throughout;
* `BranchInv` — what holds at the tip of a branch: the expired Submit slots are full.
-/

namespace Irys

open EpochSnapshot

/-! ### Branches -/

section

variable (env : EpochEnv) (config : Config)

/-- **One block**, with Cascade active and chunk totals that are `u64`s. -/
structure BlockStep (parent x : BlockMetadata) : Prop
    extends chainStep : ChainStep env config parent x where
  active : config.hardforks.cascadeForBlock x.block.timestampSecs = true
  fits : ∀ ledger, x.block.ledgerTotalChunks ledger < 2 ^ 64

/-- A block and its descendants. -/
def Extends : BlockMetadata → BlockMetadata → Prop :=
  Relation.ReflTransGen (BlockStep env config)

/-- The first block of a branch, with Cascade active. -/
structure GenesisEntry (x : BlockMetadata) : Prop
    extends chainGenesis : ChainGenesis env config x where
  active : config.hardforks.cascadeForBlock x.block.timestampSecs = true

/-- **The tips of branches from genesis.** -/
def Branch (x : BlockMetadata) : Prop :=
  ∃ g, GenesisEntry env config g ∧ Extends env config g x

end

/-! ### What holds at the tip -/

/-- What holds at the tip of a branch: the expired Submit slots are full. -/
structure BranchInv (config : Config) (x : BlockMetadata) : Prop
    extends tip : TipInv config x, submit : SubmitOrder config x where
  lifetimes : x.epochSnapshot.ledgers.LifetimesPositive
  fits : ∀ ledger, x.block.ledgerTotalChunks ledger < 2 ^ 64
  full : ∀ core, x.epochSnapshot.ledgers.get? .submit = some core →
    ExpiredFull core.slots (x.epochSnapshot.epochBlock.ledgerTotalChunks .submit)
      config.numChunksInPartition

variable {env : EpochEnv} {config : Config} {x y parent : BlockMetadata}

variable {total height i : ℕ}

variable {slots : List LedgerSlot} {block E : IrysBlockHeader} {core : LedgerCore}
    {s s' : EpochSnapshot} {total' : ℕ} {txIds : List H256}

theorem ExpiredFull.of_bare {slots' : List LedgerSlot} {C : ℕ} (h : ExpiredFull slots total C)
    (heq : slots'.map Ledgers.bareSlot = slots.map Ledgers.bareSlot) :
    ExpiredFull slots' total C := by
  intro i slot' hslot' hexp
  obtain ⟨slot, hslot, -, -, hflag⟩ := exists_of_bareSlot heq i slot' hslot'
  exact h i slot hslot (hflag ▸ hexp)

theorem BranchInv.epoch (inv : BranchInv config x) : EpochInv config x.epochSnapshot :=
  ⟨inv.base, inv.lifetimes⟩

section

variable (hlen : config.TermLengthsPositive)
include hlen

theorem BranchInv.genesis (h : GenesisEntry env config x) : BranchInv config x := by
  obtain ⟨hblock, -, n, core, t, hcore, hslots, hC, hprev, hnew, -, hcas, -⟩ :=
    h.chainGenesis.spec
  obtain ⟨commitments, hsnap⟩ := h.snapshot
  refine ⟨TipInv.genesis h.chainGenesis, SubmitOrder.genesis h.chainGenesis,
    (EpochInv.genesis (fun _ => hlen) h.genesis hsnap).lifetimes, ?_, ?_⟩
  · intro ledger
    rw [h.genesis.ledgerTotalChunks]
    decide
  · intro core' hcore'
    rw [hcore] at hcore'
    cases hcore'
    rw [hblock, ← hC, ← hnew]
    refine ExpiredFull.of_bare (ExpiredFull.after ?_ (hC ▸ config.chunksInPartition_pos)
      (hcas.trans h.active) (hprev ▸ Nat.zero_le _)) hslots
    rw [hprev]
    exact ExpiredFull.fresh n t.chunksPerSlot _

/-- **A block keeps the invariant.** -/
theorem BranchInv.step (inv : BranchInv config parent) (h : BlockStep env config parent x) :
    BranchInv config x := by
  have tip := inv.tip.step h.chainStep
  have submit := SubmitOrder.step inv.tip inv.submit h.chainStep
  have hblock := inv.epochBlock_eq h.chainStep
  by_cases hdvd : config.epoch.numBlocksInEpoch ∣ x.block.height
  · rw [if_pos hdvd] at hblock
    have hepoch := inv.epoch.step (fun _ => hlen) (inv.epochStep h.chainStep hdvd)
    refine ⟨tip, submit, hepoch.lifetimes, h.fits, ?_⟩
    intro core hcore
    obtain ⟨before, hbefore⟩ := inv.base.submit_core
    obtain ⟨t, hslots, hC, hprev, hnew, -, hcas, -⟩ :=
      inv.submitTurn h.chainStep hdvd hbefore hcore
    have hfull := inv.full before hbefore
    rw [← hprev, ← hC] at hfull
    rw [hblock, ← hC, ← hnew]
    refine (hfull.after (hC ▸ config.chunksInPartition_pos) (hcas.trans h.active) ?_).of_bare hslots
    rw [hprev, hnew]
    exact (inv.ahead .submit).trans (h.grows .submit)
  · have hsame := h.snapshot_eq hdvd
    refine ⟨tip, submit, hsame ▸ inv.lifetimes, h.fits, ?_⟩
    rw [hsame]
    exact inv.full

theorem BranchInv.extends (inv : BranchInv config x) (h : Extends env config x y) :
    BranchInv config y := by
  induction h with
  | refl => exact inv
  | tail _ hstep ih => exact ih.step hlen hstep

/-- **Every tip satisfies the invariant.** -/
theorem Branch.inv (h : Branch env config x) : BranchInv config x := by
  obtain ⟨g, hg, hext⟩ := h
  exact (BranchInv.genesis hlen hg).extends hlen hext

end

/-! ### Recycled slots stay recycled -/

/-- Submit slot `i` carries the expired flag, and the tip is old enough for the filter to look. -/
structure Recycled (config : Config) (x : BlockMetadata) (i : ℕ) : Prop where
  old_enough : config.submitLifetime ≤ x.block.height
  flagged : ∀ core, x.epochSnapshot.ledgers.get? .submit = some core →
    ∃ slot, core.slots[i]? = some slot ∧ slot.isExpired = true

/-- **No block undoes a recycling.** -/
theorem Recycled.step (inv : BranchInv config parent) (h : BlockStep env config parent x)
    (hrec : Recycled config parent i) : Recycled config x i := by
  have hheight := h.height
  have hold := hrec.old_enough
  refine ⟨by omega, ?_⟩
  intro core hcore
  by_cases hdvd : config.epoch.numBlocksInEpoch ∣ x.block.height
  · obtain ⟨before, hbefore⟩ := inv.base.submit_core
    obtain ⟨core', hcore', hslots⟩ :=
      ((inv.epochStep h.chainStep hdvd).tookTurn inv.base hbefore).slots
    rw [hcore] at hcore'
    cases hcore'
    obtain ⟨slot, hslot, hexp⟩ := hrec.flagged before hbefore
    obtain ⟨slot', hslot', hexp'⟩ := Turn.after_isExpired hslot hexp
    exact isExpired_of_bare hslots hslot' hexp'
  · rw [h.snapshot_eq hdvd] at hcore
    exact hrec.flagged core hcore

theorem Recycled.extends (hlen : config.TermLengthsPositive) (inv : BranchInv config x)
    (h : Extends env config x y) (hrec : Recycled config x i) : Recycled config y i := by
  induction h with
  | refl => exact hrec
  | tail hxy hstep ih => exact ih.step (inv.extends hlen hxy) hstep

/-! ### The filter -/

/-- The promotion filter of a block, on its parent, refuses what starts in Submit slot `i`: the
slot is in the inclusive expired set, the filter has a range, and every candidate whose start
offset lies in the slot is judged expired. -/
structure FiltersSlot (config : Config) (parent : BlockMetadata) (block : IrysBlockHeader)
    (i : ℕ) : Prop where
  listed : ∃ slots,
    (parent.epochSnapshot.getAllExpiredTermSlotIndexes .submit block.height
        (config.hardforks.cascadeForBlock block.timestampSecs)
        (parent.block.ledgerTotalChunks .submit) : EpochRes (List ℕ)) = .ok slots ∧ i ∈ slots
  refused : ∃ range,
    expiredSubmitRange block.height parent.epochSnapshot parent.block config.toConsensusConfig
        (config.hardforks.cascadeForBlock block.timestampSecs) = .ok (some range) ∧
      ∀ (txid : IrysTransactionId) (blockSubmitTxs : List (IrysTransactionId × ℕ))
        (base total start : ℕ),
        submitTxStartOffset txid blockSubmitTxs base config.chunkSize = some start →
          start / config.numChunksInPartition = i →
            submitVerdict base total range.rangeEnd
              (submitTxStartOffset txid blockSubmitTxs base config.chunkSize) = true

/-- **A full slot in the filter's set is filtered.**  The set is a prefix `0..k`, so the range
reaches the end of slot `i`. -/
theorem BranchInv.filtersSlot (inv : BranchInv config x)
    (hcascade : config.hardforks.cascadeForBlock block.timestampSecs = true)
    (hcore : x.epochSnapshot.ledgers.get? .submit = some core)
    (hmem : i ∈ allExpiredSlotIndexes core.slots config.submitLifetime block.height true
      (x.block.ledgerTotalChunks .submit) config.numChunksInPartition)
    (hfull : (i + 1) * config.numChunksInPartition ≤ x.block.ledgerTotalChunks .submit) :
    FiltersSlot config x block i := by
  obtain ⟨k, hk⟩ := (inv.order core hcore).allExpired_eq_range (fun _ => rfl)
    config.submitLifetime block.height (x.block.ledgerTotalChunks .submit)
  rw [hk, List.mem_range] at hmem
  obtain ⟨k, rfl⟩ : ∃ k', k = k' + 1 := ⟨k - 1, by omega⟩
  have hlist : ∀ {ε : Type}, (x.epochSnapshot.getAllExpiredTermSlotIndexes .submit block.height
      (config.hardforks.cascadeForBlock block.timestampSecs)
      (x.block.ledgerTotalChunks .submit) : Res ε _) = .ok (List.range (k + 1)) := by
    intro ε
    rw [inv.getAllExpired hcore, hcascade, hk]
  have hpos : 0 < (i + 1) * config.numChunksInPartition :=
    Nat.mul_pos (Nat.succ_pos i) config.chunksInPartition_pos
  refine ⟨⟨_, hlist, List.mem_range.mpr hmem⟩, _, expiredSubmitRange_of_eq_range hlist
    config.chunksInPartition_pos (by omega) (inv.fits .submit), ?_⟩
  intro txid txs base total start hstart hslot
  have hreach : (i + 1) * config.numChunksInPartition ≤ (k + 1) * config.numChunksInPartition :=
    Nat.mul_le_mul_right _ hmem
  have hlt : start < (i + 1) * config.numChunksInPartition := by
    rw [← Nat.div_lt_iff_lt_mul config.chunksInPartition_pos, hslot]
    exact Nat.lt_succ_self i
  have hfits := inv.fits .submit
  have hbase := le_of_startOffsetFrom (submitTxStartOffset_eq_some.mp hstart).2 (by omega)
  rw [hstart]
  exact submitVerdict_of_lt hbase (by dsimp only; omega)

theorem Recycled.filtersSlot (inv : BranchInv config x)
    (hrec : Recycled config x i)
    (hcascade : config.hardforks.cascadeForBlock block.timestampSecs = true)
    (hheight : block.height = x.block.height + 1) : FiltersSlot config x block i := by
  obtain ⟨core, hcore⟩ := inv.base.submit_core
  obtain ⟨slot, hslot, hexp⟩ := hrec.flagged core hcore
  have hold := hrec.old_enough
  apply inv.filtersSlot hcascade hcore
  · rw [mem_allExpiredSlotIndexes]
    exact ⟨by omega, slot, hslot, .inl hexp⟩
  · exact (inv.full core hcore i slot hslot hexp).trans (inv.ahead .submit)

/-- The turn that block `E` gives the Submit slots of the tip `x`. -/
def submitTurn (x : BlockMetadata) (E : IrysBlockHeader) (slots : List LedgerSlot) : Turn :=
  x.epochSnapshot.ledgerTurn (some x.epochSnapshot.epochBlock) E .submit slots.length

theorem BranchInv.of_settled (inv : BranchInv config x)
    (hcascade : config.hardforks.cascadeForBlock E.timestampSecs = true)
    (hi : i ∈ (Turn.keyed ((submitTurn x E slots).settled slots)).map (·.1)) :
    ∃ slot, Expires slots config.submitLifetime E.height true (E.ledgerTotalChunks .submit)
        config.numChunksInPartition slot i ∧
      (i + 1) * config.numChunksInPartition ≤
        x.epochSnapshot.epochBlock.ledgerTotalChunks .submit := by
  have hC : x.epochSnapshot.config = config := inv.base.config_eq
  subst hC
  obtain ⟨⟨i, ps⟩, hmem, rfl⟩ := List.mem_map.mp hi
  obtain ⟨slot, hsettled, -⟩ := Turn.mem_keyed.mp hmem
  obtain ⟨hdue, hwin⟩ := List.mem_filter.mp hsettled
  obtain ⟨m, hm, hexp⟩ := mem_dueSlots.mp hdue
  have hlife : some m = some x.epochSnapshot.config.submitLifetime := hm.symm.trans inv.lifetime
  cases hlife
  have hexp : Expires slots x.epochSnapshot.config.submitLifetime E.height true
      (E.ledgerTotalChunks .submit) x.epochSnapshot.config.numChunksInPartition slot i := by
    rw [← hcascade]
    exact hexp
  refine ⟨slot, hexp, ?_⟩
  apply full_before_of_not_window x.epochSnapshot.config.chunksInPartition_pos (hexp.gate rfl).2
  intro hin
  have hwritten := writtenThisEpoch_iff.mpr ⟨hcascade, hin⟩
  rw [Bool.not_eq_true'] at hwin
  exact absurd (hwin.symm.trans hwritten) (by decide)

/-- **At the settling block itself** a settled slot is filtered. -/
theorem BranchInv.filtersSlot_of_settled (inv : BranchInv config x)
    (hcascade : config.hardforks.cascadeForBlock E.timestampSecs = true)
    (hcore : x.epochSnapshot.ledgers.get? .submit = some core)
    (hi : i ∈ (Turn.keyed ((submitTurn x E core.slots).settled core.slots)).map (·.1)) :
    FiltersSlot config x E i := by
  obtain ⟨slot, hexp, hfull⟩ := inv.of_settled hcascade hi
  have hreach := hfull.trans (inv.ahead .submit)
  apply inv.filtersSlot hcascade hcore _ hreach
  rw [mem_allExpiredSlotIndexes]
  refine ⟨hexp.old_enough, slot, hexp.at_index, .inr ?_⟩
  -- the gate holds at the parent's total too, because the slot was full before this epoch
  exact ⟨hexp.at_index, hexp.not_last, hexp.old_enough,
    fun _ => ⟨(hexp.gate rfl).1, (Nat.le_div_iff_mul_le config.chunksInPartition_pos).mpr hreach⟩,
    hexp.aged, hexp.live⟩

/-- **After the settling block** a settled slot is recycled. -/
theorem BranchInv.recycled_of_settled (inv : BranchInv config parent)
    (h : BlockStep env config parent x) (hepoch : config.epoch.numBlocksInEpoch ∣ x.block.height)
    {before : LedgerCore} (hbefore : parent.epochSnapshot.ledgers.get? .submit = some before)
    (hi : i ∈ (Turn.keyed ((submitTurn parent x.block before.slots).settled before.slots)).map
      (·.1)) :
    Recycled config x i := by
  obtain ⟨slot, hexp, -⟩ := inv.of_settled h.active hi
  refine ⟨hexp.old_enough, ?_⟩
  intro core hcore
  obtain ⟨core', hcore', hslots⟩ :=
    ((inv.epochStep h.chainStep hepoch).tookTurn inv.base hbefore).slots
  rw [hcore] at hcore'
  cases hcore'
  have hlock : Turn.keyed ((submitTurn parent x.block before.slots).settled before.slots) =
      Turn.keyed ((submitTurn parent x.block before.slots).recycled before.slots) :=
    EpochInv.settled_eq_recycled inv.epoch x.block h.active hbefore
  have hflip : i ∈ flippedSlots before.slots
      ((submitTurn parent x.block before.slots).after before.slots) := by
    rw [hlock, Turn.keyed, List.map_map] at hi
    rw [Turn.flippedSlots_after]
    exact hi
  obtain ⟨⟨slot', hslot', hflag⟩, -⟩ := mem_flippedSlots.mp hflip
  exact isExpired_of_bare hslots hslot' hflag

/-- **No refund and promotion of the same data.**  A Submit slot settled at an epoch block is
refused by the promotion filter of that block and of every block after it, on every branch. -/
theorem settled_slot_filtered_for_ever (hlen : config.TermLengthsPositive)
    (hbranch : Branch env config parent) (hstep : BlockStep env config parent x)
    (hepoch : config.epoch.numBlocksInEpoch ∣ x.block.height)
    {settled : List (ℕ × List PartitionHash)}
    (hsettled : parent.epochSnapshot.getExpiringSlotPartitions x.block.height .submit
      (x.block.ledgerTotalChunks .submit)
      (config.hardforks.cascadeForBlock x.block.timestampSecs) = .ok settled)
    {i : ℕ} (hi : i ∈ settled.map (·.1)) :
    FiltersSlot config parent x.block i ∧
      ∀ tip block, Extends env config x tip → block.height = tip.block.height + 1 →
        config.hardforks.cascadeForBlock block.timestampSecs = true →
          FiltersSlot config tip block i := by
  have inv := hbranch.inv hlen
  have invx := inv.step hlen hstep
  obtain ⟨before, hbefore⟩ := inv.base.submit_core
  rw [getExpiringSlotPartitions_spec inv.base hbefore] at hsettled
  cases hsettled
  refine ⟨inv.filtersSlot_of_settled hstep.active hbefore hi, ?_⟩
  have hrec : Recycled config x i := inv.recycled_of_settled hstep hepoch hbefore hi
  intro tip block hext hheight hcascade
  exact (hrec.extends hlen invx hext).filtersSlot (invx.extends hlen hext) hcascade hheight

theorem sampleHeader_blockStep
    (hcascade : config.hardforks.cascadeForBlock
      (sampleHeader (height + 1) total' []).timestampSecs = true)
    (hactive : s.ledgers.activeLedgers = [.publish, .submit, .oneYear, .thirtyDay])
    (hle : total ≤ total') (hfit : total' < 2 ^ 64)
    (h : createEpochSnapshotForBlock env (sampleHeader (height + 1) total' [])
      ⟨sampleHeader height total txIds, s⟩ [] config.toConsensusConfig = .ok s') :
    BlockStep env config ⟨sampleHeader height total txIds, s⟩
      ⟨sampleHeader (height + 1) total' [], s'⟩ := by
  refine ⟨⟨rfl, fun _ => hcascade, ?_, ?_, [], h⟩, hcascade, ?_⟩
  · show ∀ dl ∈ _, _ ∈ s.ledgers.activeLedgers
    rw [hactive]
    simp [sampleHeader]
  · intro ledger
    cases ledger <;> simp [IrysBlockHeader.ledgerTotalChunks, sampleHeader, hle]
  · intro ledger
    cases ledger <;> (simp [IrysBlockHeader.ledgerTotalChunks, sampleHeader]; try omega)

theorem sampleBlockStep
    (hfacts : sampleFacts s height total txIds = true) (hle : total ≤ total')
    (hfit : total' < 2 ^ 64)
    (h : s.performEpochTasks referenceEnv (some s.epochBlock) (sampleHeader (height + 1) total' []) []
      = .ok s') :
    BlockStep referenceEnv sampleConfig ⟨sampleHeader height total txIds, s⟩
      ⟨sampleHeader (height + 1) total' [], s'⟩ := by
  simp only [sampleFacts, Bool.and_eq_true, beq_iff_eq] at hfacts
  refine sampleHeader_blockStep rfl hfacts.2 hle hfit ?_
  rw [createEpochSnapshotForBlock]
  exact (if_pos (one_dvd _)).trans h

theorem settled_slot_filtered_for_ever_sample :
    ∃ parent x settled, Branch referenceEnv sampleConfig parent ∧
      BlockStep referenceEnv sampleConfig parent x ∧
      parent.epochSnapshot.getExpiringSlotPartitions 2 .submit 1 true = .ok settled ∧
      0 ∈ settled.map (·.1) ∧ FiltersSlot sampleConfig parent x.block 0 ∧
      FiltersSlot sampleConfig x (sampleHeader 3 1 []) 0 := by
  obtain ⟨s₀, s₁, s₂, settled, h₀, h₁, h₂, hf₀, hf₁, hsettled, hzero⟩ := sampleRun_spec
  have hgenesis : GenesisEntry referenceEnv sampleConfig ⟨sampleHeader 0 0 [1, 2, 3], s₀⟩ :=
    ⟨⟨⟨rfl, by simp [sampleHeader]⟩, sampleCommitments, h₀⟩, rfl⟩
  have step₁ := sampleBlockStep hf₀ (by decide) (by decide) h₁
  have step₂ := sampleBlockStep hf₁ le_rfl (by decide) h₂
  have hbranch : Branch referenceEnv sampleConfig ⟨sampleHeader 1 1 [], s₁⟩ :=
    ⟨_, hgenesis, .single step₁⟩
  have hmem : 0 ∈ settled.map (·.1) := by
    rw [hzero]
    decide
  obtain ⟨hnow, hlater⟩ := settled_slot_filtered_for_ever sampleConfig_lengths hbranch step₂
    (one_dvd _) hsettled hmem
  exact ⟨_, _, settled, hbranch, step₂, hsettled, hmem, hnow, hlater _ _ .refl rfl rfl⟩

end Irys
