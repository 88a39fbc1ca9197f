import Irys.Epoch.Lockstep
import Irys.Ledger.Order

/-!
# Capacity ahead of the data

An epoch block appends slots by two rules: two slots when the data comes within half a slot of the
capacity, and more in proportion when a whole slot or more was written since the last epoch block.
Together they keep more than half a slot free, whatever the amount written.

* `Headroom` — half a slot and more is free, or there are neither slots nor data;
* `EpochRun.ahead` — it holds of every ledger in every run;
* `capacity_ahead_of_data` — so the touch never meets a slot that is not there.
-/

namespace Irys

open EpochSnapshot

/-- **Half a slot and more is free** (or there are neither slots nor data). -/
def Headroom (total C count : ℕ) : Prop := total < count * C - C / 2 ∨ (count = 0 ∧ total = 0)

theorem headroom_zero {C : ℕ} (hC : 0 < C) (count : ℕ) : Headroom 0 C count := by
  cases count with
  | zero => exact .inr ⟨rfl, rfl⟩
  | succ n =>
    left
    rw [Nat.succ_mul]
    omega

/-! ### One ledger over one epoch -/

/-- **Every chunk written lands in a slot that is there, and the slot is marked written.** -/
theorem Turn.written_after {t : Turn} {slots : List LedgerSlot} (hC : 0 < t.chunksPerSlot)
    (hroom : t.newTotal < (slots.length + t.added) * t.chunksPerSlot) {chunk : ℕ}
    (hprev : t.prevTotal ≤ chunk) (hnew : chunk < t.newTotal) :
    ∃ slot, (t.after slots)[chunk / t.chunksPerSlot]? = some slot ∧
      slot.hasBeenWritten = true := by
  have hi : chunk / t.chunksPerSlot < (t.after slots).length := by
    rw [after_length, Nat.div_lt_iff_lt_mul hC]
    omega
  have hwin : InWriteWindow t.prevTotal t.newTotal t.chunksPerSlot (chunk / t.chunksPerSlot) :=
    ⟨by omega, hC, Nat.div_le_div_right hprev, Nat.div_le_div_right (by omega)⟩
  have hat := List.getElem?_eq_getElem hi
  obtain ⟨mid, hmid, hwritten, -, -⟩ := getElem?_markExpired_due hat
  refine ⟨_, hat, ?_⟩
  rw [hwritten]
  rcases Nat.lt_or_ge (chunk / t.chunksPerSlot) slots.length with hlt | hge
  · obtain ⟨old, -, -, hiff, -⟩ := touched_old hlt hmid
    exact hiff.mpr (.inr hwin)
  · exact (touched_new hge hmid).2.2.mpr hwin

/-! ### Every run -/

section Runs

variable {env : EpochEnv} {config : Config} {s s' : EpochSnapshot} {E g : IrysBlockHeader}
  {ledger : DataLedger} {before after : LedgerCore}

theorem EpochRun.base (run : EpochRun env config s) : EpochBase config s := by
  induction run with
  | genesis hg h => exact EpochBase.genesis hg h
  | step run h ih => exact ih.step h

/-- Half a slot is free in every ledger of the snapshot, and it is free strictly where the epoch
block has the ledger. -/
structure Ahead (config : Config) (s : EpochSnapshot) : Prop where
  room : ∀ ledger core, s.ledgers.get? ledger = some core →
    Headroom (s.epochBlock.ledgerTotalChunks ledger) config.numChunksInPartition core.slots.length
  carried : ∀ ledger core, s.epochBlock.hasLedger ledger = true →
    s.ledgers.get? ledger = some core → s.epochBlock.ledgerTotalChunks ledger <
      core.slots.length * config.numChunksInPartition - config.numChunksInPartition / 2

/-- **Room after an epoch**, for a ledger in the header: it is one of the parent snapshot, and its
turn leaves more than half a slot free. -/
theorem EpochStep.room (base : EpochBase config s) (hahead : Ahead config s)
    (h : EpochStep env s E s') (hhas : E.hasLedger ledger = true) :
    ∃ before after, s.ledgers.get? ledger = some before ∧ s'.ledgers.get? ledger = some after ∧
      after.slots.map Ledgers.bareSlot =
        ((s.ledgerTurn (some s.epochBlock) E ledger before.slots.length).after
          before.slots).map Ledgers.bareSlot ∧
      E.ledgerTotalChunks ledger <
        after.slots.length * config.numChunksInPartition - config.numChunksInPartition / 2 := by
  obtain ⟨dl, hdl, heq⟩ := List.any_eq_true.mp hhas
  have hactive : ledger ∈ s.ledgers.activeLedgers := by
    rw [← beq_iff_eq.mp heq]
    exact h.carries dl hdl
  obtain ⟨before, hget⟩ := Ledgers.mem_activeLedgers_iff.mp hactive
  obtain ⟨after, hafter, hslots⟩ := (h.tookTurn base hget).slots
  refine ⟨before, after, hget, hafter, hslots, ?_⟩
  rw [length_of_bare hslots, Turn.after_length]
  exact room_after_turn base.config_eq le_rfl (hahead.room ledger before hget) (h.grows ledger)
    (fun _ => (h.height_pos base).2) hhas

/-- **An epoch keeps the capacity ahead.** -/
theorem Ahead.step (base : EpochBase config s) (hahead : Ahead config s)
    (h : EpochStep env s E s') : Ahead config s' := by
  have hblock := h.epochBlock_eq base
  have hcarried : ∀ ledger core, E.hasLedger ledger = true → s'.ledgers.get? ledger = some core →
      E.ledgerTotalChunks ledger <
        core.slots.length * config.numChunksInPartition - config.numChunksInPartition / 2 := by
    intro ledger core hhas hcore
    obtain ⟨before, after, -, hafter, -, hroom⟩ := h.room base hahead hhas
    cases hcore.symm.trans hafter
    exact hroom
  rw [← hblock] at hcarried
  refine ⟨?_, hcarried⟩
  intro ledger core hcore
  by_cases hhas : s'.epochBlock.hasLedger ledger = true
  · exact .inl (hcarried ledger core hhas hcore)
  · rw [IrysBlockHeader.ledgerTotalChunks_of_not_hasLedger (Bool.eq_false_iff.mpr hhas)]
    exact headroom_zero config.chunksInPartition_pos _

theorem Ahead.genesis (hg : g.GenesisBlock) {commitments : List CommitmentTransaction}
    (h : EpochSnapshot.new env g commitments config = .ok s) : Ahead config s := by
  have hblock := epochBlock_of_new h
  have hzero : ∀ ledger, s.epochBlock.ledgerTotalChunks ledger = 0 := by
    intro ledger
    rw [hblock, hg.ledgerTotalChunks]
  refine ⟨?_, ?_⟩
  · intro ledger core _
    rw [hzero]
    exact headroom_zero config.chunksInPartition_pos _
  · intro ledger core hhas hcore
    rw [hblock] at hhas
    obtain ⟨start, n, -, hslots⟩ := tookTurn_of_new h hcore
    rw [length_of_bare hslots, Turn.after_length, appendSlots_length, hblock]
    refine room_after_turn (s := EpochSnapshot.empty g config) rfl le_rfl
      (headroom_zero config.chunksInPartition_pos _) (Nat.zero_le _) ?_ hhas
    intro hlarge
    rw [hg.ledgerTotalChunks] at hlarge
    exact absurd hlarge (Nat.not_lt_zero _)

theorem EpochRun.ahead (run : EpochRun env config s) : Ahead config s := by
  induction run with
  | genesis hg h => exact Ahead.genesis hg h
  | step run h ih => exact ih.step run.base h

/-- **Capacity stays ahead of the data.**  After every epoch of every run, genesis included, a
ledger in the epoch block's header has more than half a slot free.  So at the next epoch block the
last slot that received data is one of the ledger's slots, and every slot that a chunk of the epoch
went to is there and is marked written. -/
theorem capacity_ahead_of_data (run : EpochRun env config s) :
    (∀ ledger core, s.epochBlock.hasLedger ledger = true → s.ledgers.get? ledger = some core →
      s.epochBlock.ledgerTotalChunks ledger <
        core.slots.length * config.numChunksInPartition - config.numChunksInPartition / 2) ∧
    (∀ E s', EpochStep env s E s' → ∀ ledger, E.hasLedger ledger = true →
      ∃ after, s'.ledgers.get? ledger = some after ∧
        E.ledgerTotalChunks ledger <
          after.slots.length * config.numChunksInPartition - config.numChunksInPartition / 2 ∧
        min ((E.ledgerTotalChunks ledger - 1) / config.numChunksInPartition)
            (after.slots.length - 1) =
          (E.ledgerTotalChunks ledger - 1) / config.numChunksInPartition ∧
        ∀ chunk, s.epochBlock.ledgerTotalChunks ledger ≤ chunk →
          chunk < E.ledgerTotalChunks ledger →
          ∃ slot, after.slots[chunk / config.numChunksInPartition]? = some slot ∧
            slot.hasBeenWritten = true) := by
  have base := run.base
  have hahead := run.ahead
  have hC := config.chunksInPartition_pos
  refine ⟨hahead.carried, ?_⟩
  intro E s' step ledger hhas
  obtain ⟨before, after, hget, hafter, hslots, hroom⟩ := step.room base hahead hhas
  refine ⟨after, hafter, hroom, ?_, ?_⟩
  · apply min_eq_left
    have hlast : (E.ledgerTotalChunks ledger - 1) / config.numChunksInPartition <
        after.slots.length := by
      rw [Nat.div_lt_iff_lt_mul hC]
      omega
    omega
  · intro chunk hprev hnew
    have hcfg : s.config = config := base.config_eq
    subst hcfg
    rw [length_of_bare hslots, Turn.after_length] at hroom
    obtain ⟨slot, hat, hwritten⟩ := @Turn.written_after
      (s.ledgerTurn (some s.epochBlock) E ledger before.slots.length) before.slots hC
      (lt_of_lt_of_le hroom (Nat.sub_le _ _)) chunk hprev hnew
    obtain ⟨slot', hat', hbare⟩ := getElem?_of_bare hslots hat
    exact ⟨slot', hat', (congrArg LedgerSlot.hasBeenWritten hbare).trans hwritten⟩

/-- In the sample run a chunk is written in the first epoch: slot 0 of Submit is there and marked,
and another slot is free. -/
theorem capacity_ahead_of_data_sample :
    ∃ s s' after slot,
      EpochRun referenceEnv sampleConfig s ∧
        EpochStep referenceEnv s (sampleHeader 1 1 []) s' ∧
        s'.ledgers.get? .submit = some after ∧ 1 < after.slots.length ∧
        after.slots[0]? = some slot ∧ slot.hasBeenWritten = true := by
  obtain ⟨s₀, s₁, -, -, h₀, h₁, -, hf₀, -⟩ := sampleRun_spec
  have run : EpochRun referenceEnv sampleConfig s₀ := .genesis ⟨rfl, by simp [sampleHeader]⟩ h₀
  have step := sampleStep hf₀ (Nat.zero_le 1) h₁
  have hblock : s₀.epochBlock = sampleHeader 0 0 [1, 2, 3] := by
    simp only [sampleFacts, Bool.and_eq_true, beq_iff_eq] at hf₀
    exact hf₀.1.1
  obtain ⟨after, hafter, hroom, -, hwritten⟩ :=
    (capacity_ahead_of_data run).2 _ s₁ step .submit (by decide)
  obtain ⟨slot, hat, hmark⟩ := hwritten 0 (by rw [hblock]; decide) (by decide)
  refine ⟨s₀, s₁, after, slot, run, step, hafter, ?_, hat, hmark⟩
  have hroom : 1 < after.slots.length * 1 - 1 / 2 := hroom
  omega

end Runs

end Irys
