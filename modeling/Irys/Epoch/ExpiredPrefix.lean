import Irys.Epoch.Promotion

/-!
# Expired Submit slots form a prefix

The promotion filter turns the expired Submit slots into one range of chunks `[0, rangeEnd)`, and
fails loudly should they not be a prefix of the ledger.  They always are: along every chain from
genesis, with Cascade active from some block on, from genesis on or never, at every block.

* `ExpiredWithin.allExpired_below_last` — the last slot is never in the filter's set;
* `expiredSubmitRange_ok_of_eq_range` — on a prefix the range is computed without an error;
* `SlotOrder.expiryFrontier` — the first live slot is where the expired prefix ends.
-/

namespace Irys

open List

open EpochSnapshot

variable {slots : List LedgerSlot} {total C height : ℕ} {cascade : Bool}

/-! ### What is in the set -/

variable {lifetime : Option ℕ} {m height' T i : ℕ} {slot : LedgerSlot}

theorem ExpiredWithin.allExpired_below_last
    (h : ExpiredWithin slots lifetime height)
    (hi : i ∈ allExpiredSlotIndexes slots m height' cascade T C) : i + 1 < slots.length := by
  obtain ⟨-, slot, hslot, hexp | hdue⟩ := mem_allExpiredSlotIndexes.mp hi
  · exact (h i slot hslot hexp).1
  · have hlt := lt_length_of_some hslot
    have hlast := hdue.not_last
    omega

theorem ExpiredWithin.mem_allExpired (h : ExpiredWithin slots (some m) height)
    (hle : height ≤ height') (hslot : slots[i]? = some slot) (hexp : slot.isExpired = true) :
    i ∈ allExpiredSlotIndexes slots m height' cascade T C := by
  obtain ⟨-, m', hm, hage⟩ := h i slot hslot hexp
  cases hm
  exact mem_allExpiredSlotIndexes.mpr ⟨hage.trans hle, slot, hslot, .inl hexp⟩

/-! ### The range is computed -/

/-- **On a prefix the range is computed without an error.** -/
theorem expiredSubmitRange_ok_of_eq_range {blockHeight k : ℕ} {s : EpochSnapshot}
    {parent : IrysBlockHeader} {config : ConsensusConfig}
    (hslots : (s.getAllExpiredTermSlotIndexes .submit blockHeight cascade
      (parent.ledgerTotalChunks .submit) : Res SubmitRangeError _) = .ok (List.range k))
    (hC : 0 < config.numChunksInPartition) :
    ∃ range, expiredSubmitRange blockHeight s parent config cascade = .ok range := by
  cases k with
  | zero =>
    refine ⟨none, ?_⟩
    rw [expiredSubmitRange, hslots]
    rfl
  | succ k =>
    rw [expiredSubmitRange, hslots, ok_bind, max?_range]
    simp only [find?_zipIdx_range, if_neg hC.ne']
    split
    · exact ⟨_, rfl⟩
    · exact ⟨_, rfl⟩

/-! ### The frontier -/

/-- **The first live slot is where the expired prefix ends.** -/
theorem SlotOrder.expiryFrontier
    (h : SlotOrder slots total C height cascade) (hwithin : ExpiredWithin slots lifetime height)
    (hslot : slots[i]? = some slot) :
    slot.isExpired = true ↔
      i < (slots.findIdx? fun slot => !slot.isExpired).getD 0 := by
  have hi := lt_length_of_some hslot
  cases hfind : slots.findIdx? fun slot => !slot.isExpired with
  | none =>
    -- all slots expired: not even the last one was spared
    rw [findIdx?_eq_none_iff] at hfind
    have hlt : slots.length - 1 < slots.length := by omega
    have hlast := getElem?_eq_getElem hlt
    have hexp := hfind _ (mem_of_getElem? hlast)
    rw [Bool.not_eq_false'] at hexp
    have := (hwithin _ _ hlast hexp).1
    omega
  | some k =>
    rw [findIdx?_eq_some_iff_getElem] at hfind
    obtain ⟨hk, hlive, hbelow⟩ := hfind
    rw [Option.getD_some]
    constructor
    · intro hexp
      by_contra hge
      have hkexp : slots[k].isExpired = true := by
        rcases Nat.lt_or_ge k i with hki | hki
        · exact h.expired_prefix hki (getElem?_eq_getElem hk) hslot hexp
        · have hik : i = k := by omega
          subst hik
          rw [getElem?_eq_getElem hk] at hslot
          cases hslot
          exact hexp
      simp [hkexp] at hlive
    · intro hlt
      have hexp := hbelow i hlt
      rw [getElem?_eq_getElem hi] at hslot
      cases hslot
      simpa using hexp

/-! ### The result -/

variable {env : EpochEnv} {config : Config} {parent : BlockMetadata}

/-- A block to be produced or validated on a parent: the next height, and Cascade active if it
was. -/
structure NextBlock (config : Config) (parent : BlockMetadata) (block : IrysBlockHeader) :
    Prop where
  height : block.height = parent.block.height + 1
  cascade : config.hardforks.cascadeForBlock parent.block.timestampSecs = true →
    config.hardforks.cascadeForBlock block.timestampSecs = true

/-- **Expired Submit slots form a prefix.**  For a block on any tip of a chain from genesis and
for every frontier: the filter's set is `0, …, m - 1`, it contains every slot with the expired
flag and not the last slot; the range of the filter is computed without an error; and the expiry
frontier is where the expired slots end. -/
theorem expired_submit_slots_form_prefix (hchain : OnChain env config parent)
    {block : IrysBlockHeader} (hnext : NextBlock config parent block) :
    ∃ core, parent.epochSnapshot.ledgers.get? .submit = some core ∧
      (∀ frontier, ∃ m,
        (parent.epochSnapshot.getAllExpiredTermSlotIndexes .submit block.height
            (config.hardforks.cascadeForBlock block.timestampSecs) frontier : EpochRes (List ℕ)) =
          .ok (List.range m) ∧
        (∀ i slot, core.slots[i]? = some slot → slot.isExpired = true → i < m) ∧
        ∀ i < m, i + 1 < core.slots.length) ∧
      (∃ range, expiredSubmitRange block.height parent.epochSnapshot parent.block
        config.toConsensusConfig (config.hardforks.cascadeForBlock block.timestampSecs) =
          .ok range) ∧
      ∃ frontier,
        (parent.epochSnapshot.ledgers.expiryFrontierFor .submit : EpochRes ℕ) = .ok frontier ∧
        ∀ i slot, core.slots[i]? = some slot → (slot.isExpired = true ↔ i < frontier) := by
  obtain ⟨tip, hord⟩ := hchain.inv
  obtain ⟨core, hcore⟩ := tip.base.submit_core
  have horder := hord.order core hcore
  have hwithin := hord.within core hcore
  have hgate : config.hardforks.cascadeForBlock parent.epochSnapshot.epochBlock.timestampSecs =
      true → config.hardforks.cascadeForBlock block.timestampSecs = true :=
    fun hactive => hnext.cascade (hord.cascade hactive)
  have hle : parent.epochSnapshot.epochBlock.height ≤ block.height := by
    have hle := tip.epoch_le
    have hheight := hnext.height
    omega
  refine ⟨core, hcore, ?_, ?_, ?_⟩
  · intro frontier
    obtain ⟨m, hm⟩ := horder.allExpired_eq_range hgate config.submitLifetime block.height frontier
    refine ⟨m, ?_, ?_, ?_⟩
    · rw [tip.getAllExpired hcore, hm]
    · intro i slot hslot hexp
      rw [← mem_range, ← hm]
      exact hwithin.mem_allExpired hle hslot hexp
    · intro i hi
      rw [← mem_range, ← hm] at hi
      exact hwithin.allExpired_below_last hi
  · obtain ⟨m, hm⟩ := horder.allExpired_eq_range hgate config.submitLifetime block.height
      (parent.block.ledgerTotalChunks .submit)
    refine expiredSubmitRange_ok_of_eq_range (k := m) ?_ config.chunksInPartition_pos
    rw [tip.getAllExpired hcore, hm]
  · refine ⟨_, ?_, fun i slot hslot => horder.expiryFrontier hwithin hslot⟩
    rw [Ledgers.expiryFrontierFor, hcore, expect_some, ok_bind]
    rfl

/-- After the sample run slot 0 is expired. -/
theorem sampleRun_expired :
    (sampleRun.toOption.map fun r =>
      (r.2.2.getAllExpiredTermSlotIndexes .submit 3 true 1 : EpochRes (List ℕ)).toOption)
        = some (some [0]) := by
  decide +kernel

theorem expired_submit_slots_form_prefix_sample :
    ∃ parent core m frontier range, OnChain referenceEnv sampleConfig parent ∧
      parent.epochSnapshot.ledgers.get? .submit = some core ∧
      (parent.epochSnapshot.getAllExpiredTermSlotIndexes .submit 3 true 1 : EpochRes (List ℕ)) =
        .ok (List.range m) ∧ List.range m = [0] ∧ (∀ i < m, i + 1 < core.slots.length) ∧
      expiredSubmitRange 3 parent.epochSnapshot parent.block sampleConfig.toConsensusConfig true =
        .ok range ∧
      (parent.epochSnapshot.ledgers.expiryFrontierFor .submit : EpochRes ℕ) = .ok frontier ∧
      ∀ i slot, core.slots[i]? = some slot → (slot.isExpired = true ↔ i < frontier) := by
  obtain ⟨s₀, s₁, s₂, settled, h₀, h₁, h₂, hf₀, hf₁, -, -⟩ := sampleRun_spec
  have hgenesis : ChainGenesis referenceEnv sampleConfig ⟨sampleHeader 0 0 [1, 2, 3], s₀⟩ :=
    ⟨⟨rfl, by simp [sampleHeader]⟩, sampleCommitments, h₀⟩
  have step₁ := sampleBlockStep hf₀ (by decide) (by decide) h₁
  have step₂ := sampleBlockStep hf₁ le_rfl (by decide) h₂
  have hchain : OnChain referenceEnv sampleConfig ⟨sampleHeader 2 1 [], s₂⟩ :=
    ⟨_, hgenesis, (Relation.ReflTransGen.single step₁.chainStep).tail step₂.chainStep⟩
  obtain ⟨core, hcore, hprefix, ⟨range, hrange⟩, frontier, hfrontier, hiff⟩ :=
    expired_submit_slots_form_prefix hchain
      (show NextBlock sampleConfig _ (sampleHeader 3 1 []) from ⟨rfl, fun _ => rfl⟩)
  obtain ⟨m, hm, -, hlast⟩ := hprefix 1
  have hrun : sampleRun = .ok (s₀, s₁, s₂) := by
    rw [sampleRun, h₀, ok_bind, h₁, ok_bind, h₂]
    rfl
  have hzero := sampleRun_expired
  rw [hrun] at hzero
  have hone : Except.toOption (.ok (List.range m) : EpochRes (List ℕ)) = some [0] :=
    (congrArg Except.toOption hm).symm.trans (Option.some.inj hzero)
  exact ⟨_, core, m, frontier, range, hchain, hcore, hm, Option.some.inj hone, hlast, hrange,
    hfrontier, hiff⟩

end Irys
