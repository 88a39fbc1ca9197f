import Irys.Epoch.Lockstep
import Irys.Ledger.Order

/-!
# Settlement and recycling before Cascade

Before Cascade the two sides of an expiry differ by one rule: the last slot of a ledger never
expires, and which slot is last is asked before the allocation on one side and after it on the
other.  A last slot that is old when new slots are appended after it is recycled and not settled.

* `Turn.settled_eq_recycled_iff` — the two sides of a turn agree exactly when no slot is stranded;
* `pre_cascade_lockstep` — **a run settles every recycled slot exactly once if and only if none of
  its epochs strands a slot**;
* `old_last_slot_stranded` — a run that does.
-/

namespace Irys

open List

open EpochSnapshot

/-! ### One ledger over one epoch -/

namespace Turn

variable {t : Turn} {slots : List LedgerSlot} {i : ℕ}

/-- The slot is live and has reached its lifetime at the turn's height. -/
def IsDue (t : Turn) (slot : LedgerSlot) : Prop :=
  slot.isExpired = false ∧ ∃ m ∈ t.lifetime, m ≤ t.height ∧ slot.lastHeight ≤ t.height - m

/-- **The turn strands a slot**: slots are appended after a last slot that is due. -/
def Strands (t : Turn) (slots : List LedgerSlot) : Prop :=
  0 < t.added ∧ ∃ slot, slots[slots.length - 1]? = some slot ∧ t.IsDue slot

theorem exists_touched (hc : t.cascade = false) {old : LedgerSlot} (hat : slots[i]? = some old) :
    ∃ mid, (t.touched slots)[i]? = some mid ∧ mid.isExpired = old.isExpired ∧
      mid.lastHeight = old.lastHeight := by
  have hi : i < (t.touched slots).length := by
    have := lt_length_of_some hat
    rw [touched_length]
    omega
  have hmid := getElem?_eq_getElem hi
  obtain ⟨old', hold, hflag, -, hclock⟩ :=
    touched_old (lt_length_of_some hat) hmid
  cases hat.symm.trans hold
  refine ⟨_, hmid, hflag, ?_⟩
  rw [hclock, if_neg]
  intro hrefresh
  rw [hc] at hrefresh
  cases hrefresh.2.1

theorem mem_settled_iff (hc : t.cascade = false) :
    i ∈ (t.settled slots).map (·.2) ↔
      ∃ slot, slots[i]? = some slot ∧ t.IsDue slot ∧ i + 1 ≠ slots.length := by
  have hwritten : ∀ j,
      writtenThisEpoch t.cascade t.newTotal t.prevTotal t.chunksPerSlot j = false := by
    intro j
    simp [writtenThisEpoch, hc]
  simp only [settled, List.mem_map, mem_filter, hwritten, Bool.not_false, and_true,
    Prod.exists, exists_eq_right, mem_dueSlots]
  constructor
  · intro h
    obtain ⟨slot, m, hm, hexp⟩ := h
    exact ⟨slot, hexp.at_index, ⟨hexp.live, m, hm, hexp.old_enough, hexp.aged⟩, hexp.not_last⟩
  · intro h
    obtain ⟨slot, hat, ⟨hlive, m, hm, hold, haged⟩, hlast⟩ := h
    refine ⟨slot, m, hm, hat, hlast, hold, ?_, haged, hlive⟩
    intro hcas
    rw [hc] at hcas
    cases hcas

/-- Recycling takes the due slots that are not last after the allocation; the slots just appended
are not due. -/
theorem mem_recycled_iff (hc : t.cascade = false) (hlife : ∀ m ∈ t.lifetime, 0 < m) :
    i ∈ (t.recycled slots).map (·.2) ↔
      ∃ slot, slots[i]? = some slot ∧ t.IsDue slot ∧ (i + 1 = slots.length → 0 < t.added) := by
  simp only [recycled, List.mem_map, Prod.exists, exists_eq_right, mem_dueSlots]
  constructor
  · intro h
    obtain ⟨slot, m, hm, hexp⟩ := h
    rcases Nat.lt_or_ge i slots.length with hi | hi
    · have hold := getElem?_eq_getElem hi
      obtain ⟨mid, hmid, hflag, hclock⟩ := exists_touched hc hold
      cases hexp.at_index.symm.trans hmid
      refine ⟨_, hold, ⟨?_, m, hm, hexp.old_enough, ?_⟩, ?_⟩
      · rw [← hflag]
        exact hexp.live
      · rw [← hclock]
        exact hexp.aged
      · intro hlast
        have := hexp.not_last
        rw [touched_length] at this
        omega
    · have hfresh : slot.lastHeight = t.height := (touched_new hi hexp.at_index).2.1
      have hpos := hlife m hm
      have hold := hexp.old_enough
      have haged := hexp.aged
      omega
  · intro h
    obtain ⟨old, hat, ⟨hlive, m, hm, hold, haged⟩, hlast⟩ := h
    obtain ⟨mid, hmid, hflag, hclock⟩ := exists_touched hc hat
    have hi : i < slots.length := lt_length_of_some hat
    refine ⟨mid, m, hm, hmid, ?_, hold, ?_, ?_, ?_⟩
    · rw [touched_length]
      omega
    · intro hcas
      rw [hc] at hcas
      cases hcas
    · rw [hclock]
      exact haged
    · rw [hflag]
      exact hlive

theorem settled_sorted (t : Turn) (slots : List LedgerSlot) :
    ((t.settled slots).map (·.2)).Pairwise (· < ·) := by
  rw [pairwise_map]
  exact (dueSlots_sorted _ _ _ _ _ _).filter _

section

variable (hc : t.cascade = false) (hlife : ∀ m ∈ t.lifetime, 0 < m)
include hc hlife

theorem settled_subset_recycled : (t.settled slots).map (·.2) ⊆ (t.recycled slots).map (·.2) := by
  intro i hi
  obtain ⟨slot, hat, hdue, hlast⟩ := (mem_settled_iff hc).mp hi
  exact (mem_recycled_iff hc hlife).mpr ⟨slot, hat, hdue, fun heq => absurd heq hlast⟩

/-- **Before Cascade everything recycled is settled exactly when the turn strands no slot.** -/
theorem recycled_subset_settled_iff :
    (t.recycled slots).map (·.2) ⊆ (t.settled slots).map (·.2) ↔ ¬ t.Strands slots := by
  constructor
  · intro hsub hstrands
    obtain ⟨hadded, slot, hat, hdue⟩ := hstrands
    have hlen := lt_length_of_some hat
    obtain ⟨-, -, -, hlast⟩ := (mem_settled_iff hc).mp
      (hsub ((mem_recycled_iff hc hlife).mpr ⟨slot, hat, hdue, fun _ => hadded⟩))
    omega
  · intro hnot i hi
    obtain ⟨slot, hat, hdue, hlast⟩ := (mem_recycled_iff hc hlife).mp hi
    refine (mem_settled_iff hc).mpr
      ⟨slot, hat, hdue, fun heq => hnot ⟨hlast heq, slot, ?_, hdue⟩⟩
    rw [← heq, Nat.add_sub_cancel]
    exact hat

theorem settled_eq_recycled_iff :
    (t.settled slots).map (·.2) = (t.recycled slots).map (·.2) ↔ ¬ t.Strands slots := by
  rw [← recycled_subset_settled_iff hc hlife]
  refine ⟨fun heq => heq ▸ Subset.refl _, fun hsub => ?_⟩
  have hsorted : ((t.recycled slots).map (·.2)).Pairwise (· < ·) := by
    rw [pairwise_map]
    exact dueSlots_sorted _ _ _ _ _ _
  exact eq_of_sorted_of_mem id (settled_sorted t slots) hsorted fun i =>
    ⟨fun hi => settled_subset_recycled hc hlife hi, fun hi => hsub hi⟩

end

end Turn

/-! ### Runs -/

/-- **A run of epochs from genesis with Cascade inactive throughout**: the snapshot it ends in, and
its epoch blocks, each with the snapshot it was applied to. -/
inductive PreCascadeRun (env : EpochEnv) (config : Config) :
    EpochSnapshot → List (EpochSnapshot × IrysBlockHeader) → Prop where
  | genesis {g : IrysBlockHeader} {commitments : List CommitmentTransaction} {s : EpochSnapshot}
      (hg : g.GenesisBlock) (hpre : config.hardforks.cascadeForBlock g.timestampSecs = false)
      (h : EpochSnapshot.new env g commitments config = .ok s) : PreCascadeRun env config s []
  | step {s s' : EpochSnapshot} {E : IrysBlockHeader}
      {epochs : List (EpochSnapshot × IrysBlockHeader)} (run : PreCascadeRun env config s epochs)
      (hpre : config.hardforks.cascadeForBlock E.timestampSecs = false)
      (h : EpochStep env s E s') : PreCascadeRun env config s' (epochs ++ [(s, E)])

/-- The slots of a ledger that settlement computes for an epoch block on the parent snapshot. -/
def settledSlots (s : EpochSnapshot) (E : IrysBlockHeader) (ledger : DataLedger) : List ℕ :=
  match s.getExpiringSlotPartitions E.height ledger (E.ledgerTotalChunks ledger)
      (s.config.hardforks.cascadeForBlock E.timestampSecs) with
  | .ok settled => settled.map (·.1)
  | .error _ => []

/-- What is settled along a run, epoch by epoch. -/
def settledAlong (ledger : DataLedger) (epochs : List (EpochSnapshot × IrysBlockHeader)) : List ℕ :=
  epochs.flatMap fun p => settledSlots p.1 p.2 ledger

/-- Slot `i` of the ledger carries the expired flag. -/
def SlotExpired (s : EpochSnapshot) (ledger : DataLedger) (i : ℕ) : Prop :=
  ∃ core slot, s.ledgers.get? ledger = some core ∧ core.slots[i]? = some slot ∧
    slot.isExpired = true

/-- **The epoch strands a slot of the ledger**: it appends slots after a last slot that is due. -/
def StrandsSlot (s : EpochSnapshot) (E : IrysBlockHeader) (ledger : DataLedger) : Prop :=
  ∃ core, s.ledgers.get? ledger = some core ∧
    (s.ledgerTurn (some s.epochBlock) E ledger core.slots.length).Strands core.slots

section Runs

variable {env : EpochEnv} {config : Config} {s s' : EpochSnapshot} {E : IrysBlockHeader}
  {epochs : List (EpochSnapshot × IrysBlockHeader)} {ledger : DataLedger} {before : LedgerCore}

theorem PreCascadeRun.inv (run : PreCascadeRun env config s epochs) : EpochInv config s := by
  induction run with
  | genesis hg hpre h =>
    exact EpochInv.genesis (fun hactive => absurd hactive (Bool.eq_false_iff.mp hpre)) hg h
  | step run hpre h ih =>
    exact EpochInv.step (fun hactive => absurd hactive (Bool.eq_false_iff.mp hpre)) ih h

theorem activeLedgers_of_step (inv : EpochInv config s)
    (hpre : config.hardforks.cascadeForBlock E.timestampSecs = false) (h : EpochStep env s E s') :
    s'.ledgers.activeLedgers = s.ledgers.activeLedgers := by
  obtain ⟨prev, commitments, -, hrun⟩ := h.runs
  have hframe := (performEpochTasks_spec inv.shape hrun).2.1
  have hsame : s.activated E = s.ledgers := by
    rw [activated, inv.config_eq, hpre]
    rfl
  rw [hsame] at hframe
  exact Ledgers.activeLedgers_eq_of_frame hframe

theorem settledSlots_eq (inv : EpochInv config s) (hget : s.ledgers.get? ledger = some before) :
    settledSlots s E ledger =
      ((s.ledgerTurn (some s.epochBlock) E ledger before.slots.length).settled before.slots).map
        (·.2) := by
  have hspec := getExpiringSlotPartitions_spec inv.base hget E
  rw [← inv.config_eq] at hspec
  rw [settledSlots, hspec]
  show (Turn.keyed _).map (·.1) = _
  rw [Turn.keyed, List.map_map]
  rfl

/-- **One epoch**: the slots it marks are those that the turn of the ledger recycles. -/
theorem flippedSlots_of_step (inv : EpochInv config s) (h : EpochStep env s E s')
    (hget : s.ledgers.get? ledger = some before) :
    ∃ after, s'.ledgers.get? ledger = some after ∧
      flippedSlots before.slots after.slots =
        ((s.ledgerTurn (some s.epochBlock) E ledger before.slots.length).recycled
          before.slots).map (·.2) ∧
      ∀ i, SlotExpired s' ledger i ↔
        SlotExpired s ledger i ∨ i ∈ flippedSlots before.slots after.slots := by
  obtain ⟨after, hafter, hslots⟩ := (h.tookTurn inv.base hget).slots
  refine ⟨after, hafter, ?_, ?_⟩
  · rw [Ledgers.flippedSlots_of_bare hslots, Turn.flippedSlots_after]
  · intro i
    constructor
    · intro hexp
      obtain ⟨core, slot, hcore, hat, hflag⟩ := hexp
      cases hafter.symm.trans hcore
      by_cases hold : SlotExpired s ledger i
      · exact .inl hold
      · refine .inr (mem_flippedSlots.mpr ⟨⟨slot, hat, hflag⟩, ?_⟩)
        intro old hat'
        rw [Bool.eq_false_iff]
        exact fun hflag' => hold ⟨before, old, hget, hat', hflag'⟩
    · intro hexp
      rcases hexp with hold | hflip
      · -- a flag is never cleared
        obtain ⟨core, slot, hcore, hat, hflag⟩ := hold
        cases hget.symm.trans hcore
        obtain ⟨mid, hmid, hflag'⟩ := Turn.after_isExpired hat hflag
        obtain ⟨slot', hslot', hflag''⟩ := isExpired_of_bare hslots hmid hflag'
        exact ⟨after, slot', hafter, hslot', hflag''⟩
      · obtain ⟨⟨slot, hat, hflag⟩, -⟩ := mem_flippedSlots.mp hflip
        exact ⟨after, slot, hafter, hat, hflag⟩

theorem slots_of_new {core : LedgerCore}
    (hget : (Ledgers.new config.toConsensusConfig false).get? ledger = some core) :
    core.slots = [] := by
  cases ledger with
  | publish =>
    cases hget
    rfl
  | submit =>
    cases hget
    rfl
  | oneYear => cases hget
  | thirtyDay => cases hget

theorem not_slotExpired_genesis {g : IrysBlockHeader} {commitments : List CommitmentTransaction}
    (hg : g.GenesisBlock) (hpre : config.hardforks.cascadeForBlock g.timestampSecs = false)
    (h : EpochSnapshot.new env g commitments config = .ok s) (i : ℕ) :
    ¬ SlotExpired s ledger i := by
  have hlen : config.hardforks.cascadeForBlock g.timestampSecs = true →
      config.TermLengthsPositive := fun hactive => absurd hactive (Bool.eq_false_iff.mp hpre)
  have hlife : ((EpochSnapshot.empty g config).activated g).LifetimesPositive :=
    activated_lifetimes rfl hlen (ledgers_new_lifetimes config hlen)
  intro hexp
  obtain ⟨core, slot, hcore, hat, hflag⟩ := hexp
  obtain ⟨start, n, hstart, hslots⟩ := tookTurn_of_new h hcore
  have hempty : start.slots = [] := by
    have hinactive : (EpochSnapshot.empty g config).activated g =
        Ledgers.new config.toConsensusConfig false := by
      rw [activated]
      show (if config.hardforks.cascadeForBlock g.timestampSecs = true then _ else
        Ledgers.new _ (config.hardforks.cascadeForBlock g.timestampSecs)) = _
      rw [hpre]
      rfl
    rw [hinactive] at hstart
    exact slots_of_new hstart
  obtain ⟨after, hafter, hflag'⟩ := isExpired_of_bare hslots.symm hat hflag
  obtain ⟨mid, hmid, -, -, hdue⟩ := getElem?_markExpired_due hafter
  rcases hdue.mp hflag' with hold | ⟨m, hm, hexp⟩
  · -- the slots are fresh ones
    rw [Turn.touched_isExpired hmid, hempty, Option.any_eq_true] at hold
    obtain ⟨fresh, hfresh, hflag⟩ := hold
    rw [getElem?_appendSlots_of_ge (Nat.zero_le i) hfresh] at hflag
    cases hflag
  · have hpos := hlife ledger m hm
    have hold : m ≤ g.height := hexp.old_enough
    rw [hg.height] at hold
    omega

/-! ### Every run -/

/-- What the epochs of a run settle: no slot twice, and only expired slots; and every expired slot
exactly if no epoch strands one. -/
structure Tally (s : EpochSnapshot) (ledger : DataLedger)
    (epochs : List (EpochSnapshot × IrysBlockHeader)) : Prop where
  nodup : (settledAlong ledger epochs).Nodup
  expired : ∀ i ∈ settledAlong ledger epochs, SlotExpired s ledger i
  complete_iff : (∀ i, SlotExpired s ledger i → i ∈ settledAlong ledger epochs) ↔
    ∀ p ∈ epochs, ¬ StrandsSlot p.1 p.2 ledger

theorem strandsSlot_iff (hget : s.ledgers.get? ledger = some before) : StrandsSlot s E ledger ↔
    (s.ledgerTurn (some s.epochBlock) E ledger before.slots.length).Strands before.slots := by
  constructor
  · intro h
    obtain ⟨core, hcore, h⟩ := h
    cases hget.symm.trans hcore
    exact h
  · exact fun h => ⟨before, hget, h⟩

/-- **One epoch keeps the books.** -/
theorem Tally.step (inv : EpochInv config s)
    (hpre : config.hardforks.cascadeForBlock E.timestampSecs = false) (h : EpochStep env s E s')
    (hget : s.ledgers.get? ledger = some before) (ht : Tally s ledger epochs) :
    Tally s' ledger (epochs ++ [(s, E)]) := by
  have hc : s.config.hardforks.cascadeForBlock E.timestampSecs = false := by
    rw [inv.config_eq]
    exact hpre
  obtain ⟨after, -, hflipped, hexpired⟩ := flippedSlots_of_step inv h hget
  have happend : settledAlong ledger (epochs ++ [(s, E)]) =
      settledAlong ledger epochs ++ settledSlots s E ledger := by
    simp [settledAlong]
  have hsettled := settledSlots_eq (E := E) inv hget
  have hsub : settledSlots s E ledger ⊆ flippedSlots before.slots after.slots := by
    rw [hsettled, hflipped]
    exact Turn.settled_subset_recycled hc (inv.lifetimes ledger)
  -- what is marked now was live before
  have hfresh : ∀ i ∈ flippedSlots before.slots after.slots, ¬ SlotExpired s ledger i := by
    intro i hi hexp
    obtain ⟨core, slot, hcore, hat, hflag⟩ := hexp
    cases hget.symm.trans hcore
    exact Bool.eq_false_iff.mp ((mem_flippedSlots.mp hi).2 slot hat) hflag
  refine ⟨?_, ?_, ?_⟩
  · rw [happend, nodup_append]
    refine ⟨ht.nodup, ?_, ?_⟩
    · rw [hsettled]
      exact (Turn.settled_sorted _ _).imp Nat.ne_of_lt
    · rintro i hi _ hj rfl
      exact hfresh i (hsub hj) (ht.expired i hi)
  · intro i hi
    rw [happend, mem_append] at hi
    exact (hexpired i).mpr (hi.imp (ht.expired i) (@hsub i))
  · have hlast : flippedSlots before.slots after.slots ⊆ settledSlots s E ledger ↔
        ¬ StrandsSlot s E ledger := by
      rw [hsettled, hflipped, strandsSlot_iff hget]
      exact Turn.recycled_subset_settled_iff hc (inv.lifetimes ledger)
    rw [happend, forall_mem_append, forall_mem_singleton, ← ht.complete_iff, ← hlast]
    simp only [hexpired, mem_append]
    constructor
    · refine fun hall => ⟨fun i hexp => ?_, fun i hi => ?_⟩
      · exact (hall i (.inl hexp)).resolve_right fun hnew => hfresh i (hsub hnew) hexp
      · exact (hall i (.inr hi)).resolve_left fun hold => hfresh i hi (ht.expired i hold)
    · exact fun hall i hexp => hexp.imp (hall.1 i) (@hall.2 i)

theorem PreCascadeRun.tally (run : PreCascadeRun env config s epochs)
    (hactive : ledger ∈ s.ledgers.activeLedgers) : Tally s ledger epochs := by
  induction run with
  | genesis hg hpre h =>
    refine ⟨nodup_nil, fun i hi => absurd hi not_mem_nil, ?_⟩
    refine iff_of_true ?_ fun p hp => absurd hp not_mem_nil
    intro i hexp
    exact absurd hexp (not_slotExpired_genesis hg hpre h i)
  | step run hpre h ih =>
    rw [activeLedgers_of_step run.inv hpre h] at hactive
    obtain ⟨before, hget⟩ := Ledgers.mem_activeLedgers_iff.mp hactive
    exact (ih hactive).step run.inv hpre h hget

/-- **Lockstep before Cascade.**  At every epoch block of a run with Cascade inactive, for every
ledger: settlement computes a set on the parent, and it is the set of slots that the epoch marks
expired exactly if the epoch does not append slots after a last slot that is due.  Over the run,
every slot that expired was settled, and once, exactly if no epoch does that. -/
theorem pre_cascade_lockstep (run : PreCascadeRun env config s epochs)
    (hpre : config.hardforks.cascadeForBlock E.timestampSecs = false) (step : EpochStep env s E s')
    (hactive : ledger ∈ s.ledgers.activeLedgers) :
    (∃ settled before after,
      s.getExpiringSlotPartitions E.height ledger (E.ledgerTotalChunks ledger)
          (config.hardforks.cascadeForBlock E.timestampSecs) = .ok settled ∧
        s.ledgers.get? ledger = some before ∧ s'.ledgers.get? ledger = some after ∧
        (settled.map (·.1) = flippedSlots before.slots after.slots ↔ ¬ StrandsSlot s E ledger)) ∧
    (((settledAlong ledger (epochs ++ [(s, E)])).Nodup ∧
        ∀ i, i ∈ settledAlong ledger (epochs ++ [(s, E)]) ↔ SlotExpired s' ledger i) ↔
      ∀ p ∈ epochs ++ [(s, E)], ¬ StrandsSlot p.1 p.2 ledger) := by
  have inv := run.inv
  obtain ⟨before, hget⟩ := Ledgers.mem_activeLedgers_iff.mp hactive
  constructor
  · obtain ⟨after, hafter, hflipped, -⟩ := flippedSlots_of_step inv step hget
    refine ⟨_, before, after, getExpiringSlotPartitions_spec inv.base hget E, hget, hafter, ?_⟩
    have hc : s.config.hardforks.cascadeForBlock E.timestampSecs = false := by
      rw [inv.config_eq]
      exact hpre
    rw [hflipped, strandsSlot_iff hget, ← Turn.settled_eq_recycled_iff hc (inv.lifetimes ledger),
      Turn.keyed, List.map_map]
    rfl
  · have ht := (run.tally hactive).step inv hpre step hget
    rw [← ht.complete_iff]
    constructor
    · intro h i hexp
      exact (h.2 i).mpr hexp
    · intro hall
      exact ⟨ht.nodup, fun i => ⟨ht.expired i, hall i⟩⟩

end Runs

/-! ### A run that keeps step and one that does not -/

/-- The sample configuration without Cascade, with Submit slots that live for two epochs. -/
def preCascadeConfig : Config :=
  { sampleConfig with
    hardforks := ⟨none, none⟩
    epoch := { sampleConfig.epoch with submitLedgerEpochLength := 2 }
    submitLength_pos := by decide }

/-- A header with the two ledgers there are before Cascade. -/
def preCascadeHeader (height submitTotal : ℕ) (txIds : List H256) : IrysBlockHeader :=
  { sampleHeader height submitTotal txIds with
    dataLedgers := [⟨.publish, 0, [], 0⟩, ⟨.submit, 0, [], submitTotal⟩] }

/-- Genesis and two epoch blocks with the given Submit totals. -/
def preCascadeEpochs (first second : ℕ) :
    EpochRes (EpochSnapshot × EpochSnapshot × EpochSnapshot) := do
  let s₀ ← EpochSnapshot.new referenceEnv (preCascadeHeader 0 0 [1, 2, 3]) sampleCommitments
    preCascadeConfig
  let s₁ ← s₀.performEpochTasks referenceEnv (some s₀.epochBlock) (preCascadeHeader 1 first []) []
  let s₂ ← s₁.performEpochTasks referenceEnv (some s₁.epochBlock) (preCascadeHeader 2 second []) []
  return (s₀, s₁, s₂)

/-- What is read off about a snapshot by evaluation. -/
def preCascadeFacts (s : EpochSnapshot) (height submitTotal : ℕ) (txIds : List H256) : Bool :=
  s.epochBlock == preCascadeHeader height submitTotal txIds
    && s.config.epoch.numBlocksInEpoch == 1
    && s.ledgers.activeLedgers == [.publish, .submit]

/-- The slots settled at an epoch block and the slots it marks are as given. -/
def marksAndSettles (s s' : EpochSnapshot) (E : IrysBlockHeader) (settled flipped : List ℕ) :
    Bool :=
  settledSlots s E .submit == settled
    && match s.ledgers.get? .submit, s'.ledgers.get? .submit with
      | some before, some after => flippedSlots before.slots after.slots == flipped
      | _, _ => false

def preCascadeCheck (first second : ℕ) (settled flipped : List ℕ) : Bool :=
  match preCascadeEpochs first second with
  | .ok (s₀, s₁, s₂) =>
    preCascadeFacts s₀ 0 0 [1, 2, 3] && preCascadeFacts s₁ 1 first []
      && marksAndSettles s₁ s₂ (preCascadeHeader 2 second []) settled flipped
  | .error _ => false

theorem preCascadeStep {s s' : EpochSnapshot} {height total total' : ℕ} {txIds : List H256}
    (hfacts : preCascadeFacts s height total txIds = true) (hle : total ≤ total')
    (h : s.performEpochTasks referenceEnv (some s.epochBlock)
      (preCascadeHeader (height + 1) total' []) [] = .ok s') :
    EpochStep referenceEnv s (preCascadeHeader (height + 1) total' []) s' := by
  simp only [preCascadeFacts, Bool.and_eq_true, beq_iff_eq] at hfacts
  obtain ⟨⟨hblock, hnum⟩, hactive⟩ := hfacts
  refine ⟨?_, ?_, ?_, some s.epochBlock, [], .inl rfl, h⟩
  · rw [hblock, hnum]
    rfl
  · rw [hactive]
    simp [preCascadeHeader]
  · intro ledger
    rw [hblock]
    cases ledger <;> simp [IrysBlockHeader.ledgerTotalChunks, preCascadeHeader, hle]

/-- **The sample runs exist**, with the slots that were read off. -/
theorem preCascadeCheck_spec {first second : ℕ} {settled flipped : List ℕ}
    (hle : first ≤ second) (hcheck : preCascadeCheck first second settled flipped = true) :
    ∃ s₀ s₁ s₂ before after,
      PreCascadeRun referenceEnv preCascadeConfig s₁ [(s₀, preCascadeHeader 1 first [])] ∧
        EpochStep referenceEnv s₁ (preCascadeHeader 2 second []) s₂ ∧
        s₁.ledgers.activeLedgers = [.publish, .submit] ∧
        s₁.ledgers.get? .submit = some before ∧ s₂.ledgers.get? .submit = some after ∧
        settledSlots s₁ (preCascadeHeader 2 second []) .submit = settled ∧
        flippedSlots before.slots after.slots = flipped := by
  unfold preCascadeCheck at hcheck
  cases hrun : preCascadeEpochs first second with
  | error e =>
    rw [hrun] at hcheck
    cases hcheck
  | ok r =>
    obtain ⟨s₀, s₁, s₂⟩ := r
    simp only [hrun, Bool.and_eq_true, marksAndSettles, beq_iff_eq] at hcheck
    obtain ⟨⟨hf₀, hf₁⟩, hsettled, hflip⟩ := hcheck
    obtain ⟨t₀, h₀, hrun⟩ := bind_eq_ok.mp hrun
    obtain ⟨t₁, h₁, hrun⟩ := bind_eq_ok.mp hrun
    obtain ⟨t₂, h₂, hret⟩ := bind_eq_ok.mp hrun
    cases hret
    have hactive : s₁.ledgers.activeLedgers = [.publish, .submit] := by
      simp only [preCascadeFacts, Bool.and_eq_true, beq_iff_eq] at hf₁
      exact hf₁.2
    have run₀ : PreCascadeRun referenceEnv preCascadeConfig s₀ [] :=
      .genesis ⟨rfl, by simp [preCascadeHeader]⟩ rfl h₀
    have run₁ := PreCascadeRun.step run₀ rfl (preCascadeStep hf₀ (Nat.zero_le first) h₁)
    cases hbefore : s₁.ledgers.get? .submit with
    | none => simp [hbefore] at hflip
    | some before =>
      cases hafter : s₂.ledgers.get? .submit with
      | none => simp [hbefore, hafter] at hflip
      | some after =>
        simp only [hbefore, hafter, beq_iff_eq] at hflip
        exact ⟨s₀, s₁, s₂, before, after, run₁, preCascadeStep hf₁ hle h₂, hactive, hbefore,
          hafter, hsettled, hflip⟩

/-- Data arrives in the first epoch, when slot 0 is young: at the second epoch block it is settled
and marked, and no slot is stranded. -/
theorem pre_cascade_lockstep_early_data :
    ∃ s s' epochs before after,
      PreCascadeRun referenceEnv preCascadeConfig s epochs ∧
        EpochStep referenceEnv s (preCascadeHeader 2 1 []) s' ∧
        s.ledgers.get? .submit = some before ∧ s'.ledgers.get? .submit = some after ∧
        settledSlots s (preCascadeHeader 2 1 []) .submit = [0] ∧
        flippedSlots before.slots after.slots = [0] ∧
        ¬ StrandsSlot s (preCascadeHeader 2 1 []) .submit := by
  obtain ⟨s₀, s₁, s₂, before, after, run, step, hactive, hbefore, hafter, hsettled, hflip⟩ :=
    @preCascadeCheck_spec 1 1 [0] [0] le_rfl (by decide +kernel)
  have hmem : DataLedger.submit ∈ s₁.ledgers.activeLedgers := by
    rw [hactive]
    decide
  obtain ⟨⟨settled, before', after', hok, hbefore', hafter', hiff⟩, -⟩ :=
    pre_cascade_lockstep run rfl step hmem
  cases hbefore.symm.trans hbefore'
  cases hafter.symm.trans hafter'
  refine ⟨s₁, s₂, _, before, after, run, step, hbefore, hafter, hsettled, hflip, hiff.mp ?_⟩
  rw [hflip, ← hsettled, settledSlots, run.inv.config_eq, hok]

/-- **The old last slot.**  No data arrives for the lifetime of slot 0, the only slot of Submit; the
data of the epoch in which it is due then makes the epoch block append slots.  The slot is marked
expired, with the data just written to it, and it is not settled. -/
theorem old_last_slot_stranded :
    ∃ s s' epochs before after,
      PreCascadeRun referenceEnv preCascadeConfig s epochs ∧
        EpochStep referenceEnv s (preCascadeHeader 2 1 []) s' ∧
        s.ledgers.get? .submit = some before ∧ s'.ledgers.get? .submit = some after ∧
        settledSlots s (preCascadeHeader 2 1 []) .submit = [] ∧
        flippedSlots before.slots after.slots = [0] := by
  obtain ⟨s₀, s₁, s₂, before, after, run, step, -, hbefore, hafter, hsettled, hflip⟩ :=
    @preCascadeCheck_spec 0 1 [] [0] (Nat.zero_le 1) (by decide +kernel)
  exact ⟨s₁, s₂, _, before, after, run, step, hbefore, hafter, hsettled, hflip⟩

end Irys
