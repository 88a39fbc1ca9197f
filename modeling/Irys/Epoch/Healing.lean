import Irys.Epoch.ExpiredPrefix
import Irys.Ledger.View

/-!
# Over-blocking heals

Between epoch blocks the promotion filter joins the clocks of the last epoch snapshot with the
live frontier, so it may list a Submit slot that the next epoch block does not expire, because
data arrived in it since.  Such a slot is listed for the rest of one epoch at most: the epoch
block restarts its clock, and the slot is not listed again for a whole lifetime.

* `LiveSince.step`, `LiveSince.not_listed` — a live slot stays live, and unlisted, for a lifetime;
* `exists_parent_of_first_epoch` — up to the next epoch block the snapshot is shared.
-/

namespace Irys

open EpochSnapshot

variable {env : EpochEnv} {config : Config} {x y p b E parent : BlockMetadata} {i h : ℕ}

/-- **Submit slot `i` is live, with a clock not older than height `h`.** -/
def LiveSince (x : BlockMetadata) (i h : ℕ) : Prop :=
  ∀ core, x.epochSnapshot.ledgers.get? .submit = some core →
    ∃ slot, core.slots[i]? = some slot ∧ slot.isExpired = false ∧ h ≤ slot.lastHeight

theorem not_expires_of_young {slots : List LedgerSlot} {m height total C : ℕ} {cascade : Bool}
    {slot : LedgerSlot} (hclock : h ≤ slot.lastHeight) (hyoung : height < h + m) :
    ¬ Expires slots m height cascade total C slot i := by
  intro hdue
  have hage := hdue.old_enough
  have haged := hdue.aged
  omega

/-- **A block keeps a young slot live.** -/
theorem LiveSince.step (hlive : LiveSince parent i h) (inv : TipInv config parent)
    (hstep : ChainStep env config parent x) (hle : h ≤ parent.block.height)
    (hyoung : x.block.height < h + config.submitLifetime) : LiveSince x i h := by
  intro core hcore
  by_cases hdvd : config.epoch.numBlocksInEpoch ∣ x.block.height
  · obtain ⟨before, hbefore⟩ := inv.base.submit_core
    obtain ⟨old, hold, holdlive, hclock⟩ := hlive before hbefore
    obtain ⟨t, hslots, -, -, -, hheight, -, hlife⟩ := inv.submitTurn hstep hdvd hbefore hcore
    have hi := lt_length_of_some hold
    have hlen : i < core.slots.length := by
      rw [length_of_bare hslots, Turn.after_length]
      omega
    have hslot := List.getElem?_eq_getElem hlen
    obtain ⟨slot, hafter, -, hlast, hflag⟩ := exists_of_bareSlot hslots i _ hslot
    obtain ⟨mid, hmid, -, hmidlast, hexp⟩ := getElem?_markExpired_due hafter
    obtain ⟨old', hold', hmidflag, -, hmidclock⟩ := Turn.touched_old hi hmid
    rw [hold] at hold'
    cases hold'
    have hyoungclock : h ≤ mid.lastHeight := by
      rw [hmidclock]
      have hnext := hstep.height
      split
      · omega
      · exact hclock
    refine ⟨_, hslot, ?_, ?_⟩
    · rw [hflag, ← Bool.not_eq_true, hexp]
      intro hcase
      rcases hcase with hexp | ⟨m, hm, hdue⟩
      · rw [hmidflag, holdlive] at hexp
        cases hexp
      · rw [hlife] at hm
        cases hm
        exact not_expires_of_young hyoungclock (hheight ▸ hyoung) hdue
    · rw [hlast, hmidlast]
      exact hyoungclock
  · rw [hstep.snapshot_eq hdvd] at hcore
    exact hlive core hcore

theorem LiveSince.not_listed {height total : ℕ} {cascade : Bool} {slots : List ℕ}
    (hlive : LiveSince x i h) (inv : TipInv config x)
    (hyoung : height < h + config.submitLifetime)
    (hslots : (x.epochSnapshot.getAllExpiredTermSlotIndexes .submit height cascade total :
      EpochRes _) = .ok slots) : i ∉ slots := by
  obtain ⟨core, hcore⟩ := inv.base.submit_core
  obtain ⟨slot, hslot, hflag, hclock⟩ := hlive core hcore
  rw [inv.getAllExpired hcore] at hslots
  cases hslots
  intro hmem
  obtain ⟨-, slot', hslot', hexp | hdue⟩ := mem_allExpiredSlotIndexes.mp hmem
  · rw [hslot] at hslot'
    cases hslot'
    rw [hflag] at hexp
    cases hexp
  · have hat := hdue.at_index
    rw [hslot] at hat
    cases hat
    exact not_expires_of_young hclock hyoung hdue

/-! ### Up to the next epoch block -/

theorem Extends.height_le (hext : Extends env config x y) : x.block.height ≤ y.block.height := by
  induction hext with
  | refl => exact le_rfl
  | tail _ hstep ih =>
    rw [hstep.height]
    omega

theorem Extends.total_le (hext : Extends env config x y) (ledger : DataLedger) :
    x.block.ledgerTotalChunks ledger ≤ y.block.ledgerTotalChunks ledger := by
  induction hext with
  | refl => exact le_rfl
  | tail _ hstep ih => exact ih.trans (hstep.grows ledger)

/-- **The parent of the first epoch block at or after `b` shares the snapshot of `b`'s parent.** -/
theorem exists_parent_of_first_epoch (hb : BlockStep env config p b)
    (hext : Extends env config b E)
    (hfirst : ∀ height, b.block.height ≤ height → height < E.block.height →
      ¬ config.epoch.numBlocksInEpoch ∣ height) :
    ∃ q, Extends env config p q ∧ BlockStep env config q E ∧
      q.epochSnapshot = p.epochSnapshot := by
  induction hext with
  | refl => exact ⟨p, .refl, hb, rfl⟩
  | @tail y E hby hstep ih =>
    have hheight := hstep.height
    obtain ⟨q, hpq, hqy, hsame⟩ := ih fun height hle hlt => hfirst height hle (by omega)
    -- `y` comes before `E`, so it is no epoch block
    have hy := hfirst y.block.height (Extends.height_le hby) (by omega)
    exact ⟨y, hpq.tail hqy, hstep, (hqy.chainStep.snapshot_eq hy).trans hsame⟩

theorem Branch.onChain (hbranch : Branch env config x) : OnChain env config x := by
  obtain ⟨g, hg, hext⟩ := hbranch
  refine ⟨g, hg.chainGenesis, ?_⟩
  exact Relation.ReflTransGen.mono (fun _ _ hstep => hstep.chainStep) _ _ hext

theorem Branch.extends (hbranch : Branch env config x) (hext : Extends env config x y) :
    Branch env config y := by
  obtain ⟨g, hg, hgx⟩ := hbranch
  exact ⟨g, hg, hgx.trans hext⟩

/-- **A young slot stays live along a branch**, for one lifetime. -/
theorem LiveSince.extends (hlive : LiveSince x i h) (hbranch : Branch env config x)
    (hle : h ≤ x.block.height) (hext : Extends env config x y)
    (hyoung : y.block.height < h + config.submitLifetime) : LiveSince y i h := by
  induction hext with
  | refl => exact hlive
  | @tail u v hxu huv ih =>
    have hstep := huv.height
    have hmono := Extends.height_le hxu
    have tipu : TipInv config u := (hbranch.extends hxu).onChain.inv.1
    have hliveu := ih (by omega)
    exact LiveSince.step hliveu tipu huv.chainStep (by omega) hyoung

/-! ### At the epoch block -/

/-- The chunks `[prev, new)` land in slot `i` exactly if one of them does. -/
theorem inWriteWindow_iff_exists {prev new C : ℕ} :
    InWriteWindow prev new C i ↔ 0 < C ∧ ∃ offset, prev ≤ offset ∧ offset < new ∧ offset / C = i := by
  constructor
  · intro hwin
    obtain ⟨hlt, hC, hfirst, hlast⟩ := hwin
    have hreach : i * C ≤ new - 1 := (Nat.le_div_iff_mul_le hC).mp hlast
    have hnot : prev < (i + 1) * C := (Nat.div_lt_iff_lt_mul hC).mp (Nat.lt_succ_of_le hfirst)
    refine ⟨hC, max prev (i * C), le_max_left .., by omega, ?_⟩
    rw [Nat.succ_mul] at hnot
    apply Nat.div_eq_of_lt_le
    · exact le_max_right ..
    · rw [Nat.succ_mul]
      omega
  · intro hex
    obtain ⟨hC, offset, hge, hlt, rfl⟩ := hex
    exact ⟨by omega, hC, Nat.div_le_div_right hge, Nat.div_le_div_right (by omega)⟩

/-- **A listed slot that the next epoch block spares is in its write window**, and its clock
restarts there. -/
theorem spared_in_window (inv : TipInv config parent) (hstep : BlockStep env config parent E)
    (hepoch : config.epoch.numBlocksInEpoch ∣ E.block.height) {before : LedgerCore}
    (hbefore : parent.epochSnapshot.ledgers.get? .submit = some before) {height total : ℕ}
    (hheight : height ≤ E.block.height) (htotal : total ≤ E.block.ledgerTotalChunks .submit)
    (hlisted : i ∈ allExpiredSlotIndexes before.slots config.submitLifetime height true total
      config.numChunksInPartition)
    (hspared : E.epochSnapshot.ledgers.expiredIn (.submit, i) = false) :
    InWriteWindow (parent.epochSnapshot.epochBlock.ledgerTotalChunks .submit)
        (E.block.ledgerTotalChunks .submit) config.numChunksInPartition i ∧
      LiveSince E i E.block.height := by
  obtain ⟨core, hcore⟩ := (inv.step hstep.chainStep).base.submit_core
  obtain ⟨t, hslots, hC, hprev, hnew, hturn, hcas, hlife⟩ :=
    inv.submitTurn hstep.chainStep hepoch hbefore hcore
  obtain ⟨hage, old, hold, hcase⟩ := mem_allExpiredSlotIndexes.mp hlisted
  have hi := lt_length_of_some hold
  have hlen : i < core.slots.length := by
    rw [length_of_bare hslots, Turn.after_length]
    omega
  have hslot := List.getElem?_eq_getElem hlen
  have hlive : core.slots[i].isExpired = false := by
    rw [Ledgers.expiredIn_of_get? hcore, Ledgers.expiredAt, hslot] at hspared
    exact hspared
  obtain ⟨slot, hafter, -, hlast, hflag⟩ := exists_of_bareSlot hslots i _ hslot
  obtain ⟨mid, hmid, -, hmidlast, hexp⟩ := getElem?_markExpired_due hafter
  obtain ⟨old', hold', hmidflag, hmidwritten, hmidclock⟩ := Turn.touched_old hi hmid
  rw [hold] at hold'
  cases hold'
  have hsparedMid : ¬ (mid.isExpired = true ∨ ∃ m ∈ t.lifetime,
      Expires (t.touched before.slots) m t.height t.cascade t.newTotal t.chunksPerSlot mid i) := by
    rw [← hexp, ← hflag, hlive]
    decide
  have hdue : Expires before.slots config.submitLifetime height true total
      config.numChunksInPartition old i := by
    rcases hcase with hflagged | hdue
    · exact absurd (.inl (hmidflag ▸ hflagged)) hsparedMid
    · exact hdue
  have hactive : t.cascade = true := hcas.trans hstep.active
  rw [← hC, ← hprev, ← hnew]
  have hwin : InWriteWindow t.prevTotal t.newTotal t.chunksPerSlot i := by
    -- untouched, the slot would be due at the epoch block too
    by_contra hout
    apply hsparedMid
    right
    refine ⟨config.submitLifetime, hlife, hmid, ?_, ?_, ?_, ?_, ?_⟩
    · have hlast := hdue.not_last
      rw [Turn.touched_length]
      omega
    · rw [hturn]
      omega
    · intro _
      obtain ⟨hwritten, hfull⟩ := hdue.gate rfl
      refine ⟨hmidwritten.mpr (.inl hwritten), hfull.trans_le ?_⟩
      rw [hC, hnew]
      exact Nat.div_le_div_right htotal
    · have haged := hdue.aged
      rw [hmidclock, if_neg (fun hmoved => hout hmoved.1), hturn]
      omega
    · rw [hmidflag]
      exact hdue.live
  refine ⟨hwin, ?_⟩
  intro core' hcore'
  rw [hcore] at hcore'
  cases hcore'
  refine ⟨_, hslot, hlive, ?_⟩
  rw [hlast, hmidlast, hmidclock, if_pos ⟨hwin, hactive, hdue.live⟩, hturn]

/-! ### The result -/

/-- **Over-blocking heals.**  Suppose the filter of block `b` lists Submit slot `i`, and the first
epoch block `E` at or after `b` does not leave the slot expired.  Then data arrived in the slot
in the epoch that ends at `E`, which is less than an epoch after `b`, and no block after `E`
lists the slot until a whole lifetime has passed. -/
theorem over_blocking_heals (hbranch : Branch env config p) (hb : BlockStep env config p b)
    {slots : List ℕ}
    (hslots : (p.epochSnapshot.getAllExpiredTermSlotIndexes .submit b.block.height
      (config.hardforks.cascadeForBlock b.block.timestampSecs)
      (p.block.ledgerTotalChunks .submit) : EpochRes _) = .ok slots) (hi : i ∈ slots)
    (hE : Extends env config b E) (hepoch : config.epoch.numBlocksInEpoch ∣ E.block.height)
    (hfirst : ∀ height, b.block.height ≤ height → height < E.block.height →
      ¬ config.epoch.numBlocksInEpoch ∣ height)
    (hspared : E.epochSnapshot.ledgers.expiredIn (.submit, i) = false) :
    (∃ offset, p.epochSnapshot.epochBlock.ledgerTotalChunks .submit ≤ offset ∧
        offset < E.block.ledgerTotalChunks .submit ∧ offset / config.numChunksInPartition = i) ∧
      E.block.height < b.block.height + config.epoch.numBlocksInEpoch ∧
      ∀ q c, Extends env config E q → BlockStep env config q c →
        c.block.height < E.block.height + config.submitLifetime →
          ∃ slots', (q.epochSnapshot.getAllExpiredTermSlotIndexes .submit c.block.height
              (config.hardforks.cascadeForBlock c.block.timestampSecs)
              (q.block.ledgerTotalChunks .submit) : EpochRes _) = .ok slots' ∧ i ∉ slots' := by
  have tip : TipInv config p := hbranch.onChain.inv.1
  obtain ⟨before, hbefore⟩ := tip.base.submit_core
  rw [tip.getAllExpired hbefore, hb.active] at hslots
  cases hslots
  obtain ⟨r, hpr, hrE, hsame⟩ := exists_parent_of_first_epoch hb hE hfirst
  have tipr : TipInv config r := (hbranch.extends hpr).onChain.inv.1
  have hbranchE : Branch env config E := hbranch.extends (hpr.tail hrE)
  have htotal : p.block.ledgerTotalChunks .submit ≤ E.block.ledgerTotalChunks .submit :=
    Extends.total_le (hpr.tail hrE) .submit
  rw [← hsame] at hbefore
  obtain ⟨hwin, hlive⟩ := spared_in_window tipr hrE hepoch hbefore (Extends.height_le hE) htotal hi
    hspared
  rw [hsame] at hwin
  refine ⟨(inWriteWindow_iff_exists.mp hwin).2, ?_, ?_⟩
  · have hnext := (tipr.epochStep hrE.chainStep hepoch).height
    rw [tipr.base.config_eq, hsame] at hnext
    have hle := tip.epoch_le
    have hheight := hb.height
    omega
  · intro q c hEq hqc hyoung
    have hheight := hqc.height
    have hliveq : LiveSince q i E.block.height := hlive.extends hbranchE le_rfl hEq (by omega)
    have tipq : TipInv config q := (hbranchE.extends hEq).onChain.inv.1
    obtain ⟨core, hcore⟩ := tipq.base.submit_core
    exact ⟨_, tipq.getAllExpired hcore _ _ _,
      hliveq.not_listed tipq hyoung (tipq.getAllExpired hcore _ _ _)⟩

/-! ### A slot that heals -/

/-- Two chunks per slot, two blocks per epoch, lifetimes of one epoch. -/
def healingConfig : Config :=
  { Replay.twoBlockEpochs with
    numChunksInPartition := 2
    chunksInPartition_pos := Nat.two_pos
    chunksInPartition_le := twoChunkConfig.chunksInPartition_le }

/-- Slot 0 is half written when epoch block 2 comes, and filled before epoch block 4. -/
def healingRun : EpochRes (EpochSnapshot × EpochSnapshot × EpochSnapshot) := do
  let s₀ ← EpochSnapshot.new referenceEnv (sampleHeader 0 0 [1, 2, 3]) sampleCommitments
    healingConfig
  let s₂ ← s₀.performEpochTasks referenceEnv (some s₀.epochBlock) (sampleHeader 2 1 []) []
  let s₄ ← s₂.performEpochTasks referenceEnv (some s₂.epochBlock) (sampleHeader 4 2 []) []
  return (s₀, s₂, s₄)

theorem healingRun_facts : (match healingRun with
    | .ok (s₀, s₂, s₄) =>
      s₀.ledgers.activeLedgers == [.publish, .submit, .oneYear, .thirtyDay]
        && s₂.ledgers.activeLedgers == [.publish, .submit, .oneYear, .thirtyDay]
        && s₄.ledgers.activeLedgers == [.publish, .submit, .oneYear, .thirtyDay]
        && !s₄.ledgers.expiredIn (.submit, 0)
        && (match (s₂.getAllExpiredTermSlotIndexes .submit 4 true 2 : EpochRes _) with
          | .ok slots => slots == [0]
          | .error _ => false)
    | .error _ => false) = true := by
  decide +kernel

theorem over_blocking_heals_half_written_slot :
    ∃ p E : BlockMetadata, Branch referenceEnv healingConfig p ∧
      BlockStep referenceEnv healingConfig p E ∧
      (p.epochSnapshot.getAllExpiredTermSlotIndexes .submit 4 true 2 : EpochRes _) = .ok [0] ∧
      E.epochSnapshot.ledgers.expiredIn (.submit, 0) = false ∧
      ∃ slots, (E.epochSnapshot.getAllExpiredTermSlotIndexes .submit 5 true 2 : EpochRes _) =
        .ok slots ∧ 0 ∉ slots := by
  have hfacts := healingRun_facts
  cases hrun : healingRun with
  | error e => simp [hrun] at hfacts
  | ok r =>
    obtain ⟨s₀, s₂, s₄⟩ := r
    simp only [hrun, Bool.and_eq_true, beq_iff_eq, Bool.not_eq_true'] at hfacts
    obtain ⟨⟨⟨⟨hactive₀, hactive₂⟩, hactive₄⟩, hspared⟩, hlist⟩ := hfacts
    have hlisted : (s₂.getAllExpiredTermSlotIndexes .submit 4 true 2 : EpochRes _) =
        .ok [0] := by
      split at hlist
      · rename_i slots hslots
        rw [hslots, beq_iff_eq.mp hlist]
      · cases hlist
    obtain ⟨t₀, h₀, hrun⟩ := bind_eq_ok.mp hrun
    obtain ⟨t₂, h₂, hrun⟩ := bind_eq_ok.mp hrun
    obtain ⟨t₄, h₄, hret⟩ := bind_eq_ok.mp hrun
    cases hret
    have hgenesis : GenesisEntry referenceEnv healingConfig
        ⟨sampleHeader 0 0 [1, 2, 3], s₀⟩ :=
      ⟨⟨⟨rfl, by simp [sampleHeader]⟩, sampleCommitments, h₀⟩, rfl⟩
    have step₁ : BlockStep referenceEnv healingConfig ⟨sampleHeader 0 0 [1, 2, 3], s₀⟩
        ⟨sampleHeader 1 1 [], s₀⟩ :=
      sampleHeader_blockStep rfl hactive₀ (by decide) (by decide) (if_neg (by decide))
    have step₂ : BlockStep referenceEnv healingConfig ⟨sampleHeader 1 1 [], s₀⟩
        ⟨sampleHeader 2 1 [], s₂⟩ :=
      sampleHeader_blockStep rfl hactive₀ le_rfl (by decide) ((if_pos (by decide)).trans h₂)
    have step₃ : BlockStep referenceEnv healingConfig ⟨sampleHeader 2 1 [], s₂⟩
        ⟨sampleHeader 3 2 [], s₂⟩ :=
      sampleHeader_blockStep rfl hactive₂ (by decide) (by decide) (if_neg (by decide))
    have step₄ : BlockStep referenceEnv healingConfig ⟨sampleHeader 3 2 [], s₂⟩
        ⟨sampleHeader 4 2 [], s₄⟩ :=
      sampleHeader_blockStep rfl hactive₂ le_rfl (by decide) ((if_pos (by decide)).trans h₄)
    have step₅ : BlockStep referenceEnv healingConfig ⟨sampleHeader 4 2 [], s₄⟩
        ⟨sampleHeader 5 2 [], s₄⟩ :=
      sampleHeader_blockStep rfl hactive₄ le_rfl (by decide) (if_neg (by decide))
    have hbranch : Branch referenceEnv healingConfig ⟨sampleHeader 3 2 [], s₂⟩ :=
      ⟨_, hgenesis, ((Relation.ReflTransGen.single step₁).tail step₂).tail step₃⟩
    obtain ⟨-, -, hlater⟩ := over_blocking_heals hbranch step₄ hlisted (List.mem_cons_self ..)
      .refl (show 2 ∣ 4 by decide) (by intro height hge hlt; omega) hspared
    exact ⟨_, _, hbranch, step₄, hlisted, hspared,
      hlater _ _ .refl step₅ (show 5 < 4 + 1 * 2 by decide)⟩

end Irys
