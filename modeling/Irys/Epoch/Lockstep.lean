import Irys.Epoch.Refine
import Irys.Lib.Sha256

/-!
# Settlement and recycling in lockstep

At an epoch block the fee code settles a set of expired slots that it computes on the *parent*
snapshot, and the epoch code recycles a set of slots that it computes after allocating new slots
and touching the written ones.  The two are one set, with the same partitions, in every run from
genesis, once Cascade is active.

* `EpochStep`, `EpochRun` — an epoch block applied to a snapshot, and the runs from genesis;
* `room_after` — allocation keeps the write frontier inside the allocated slots;
* `EpochBase`, `EpochInv` — what holds of every snapshot of a run, without and with the
  lifetimes, kept by `EpochBase.step` and `EpochInv.step`;
* `EpochStep.tookTurn` — each step is a turn of every ledger of the parent snapshot.
-/

namespace Irys

open EpochSnapshot

/-! ### Runs -/

/-- The lifetimes of the Cascade term ledgers are positive.  (Those of Submit and Publish are by
`Config::validate`.) -/
def ConsensusConfig.TermLengthsPositive (config : ConsensusConfig) : Prop :=
  ∀ c ∈ config.hardforks.cascade, 0 < c.oneYearEpochLength ∧ 0 < c.thirtyDayEpochLength

/-- A genesis header: height 0, no data in any ledger. -/
structure IrysBlockHeader.GenesisBlock (g : IrysBlockHeader) : Prop where
  height : g.height = 0
  empty : ∀ dl ∈ g.dataLedgers, dl.totalChunks = 0

/-- **One epoch.**  `E` is the next epoch block after the snapshot's own: it carries only ledgers
that are active in the parent snapshot, as block validation demands, and no ledger's chunk total
falls.  The previous epoch block handed to the epoch code is the snapshot's own (the replay of a
chain from genesis hands over none for the first epoch). -/
structure EpochStep (env : EpochEnv) (s : EpochSnapshot) (E : IrysBlockHeader)
    (s' : EpochSnapshot) : Prop where
  height : E.height = s.epochBlock.height + s.config.epoch.numBlocksInEpoch
  carries : ∀ dl ∈ E.dataLedgers, dl.ledgerId ∈ s.ledgers.activeLedgers
  grows : ∀ ledger, s.epochBlock.ledgerTotalChunks ledger ≤ E.ledgerTotalChunks ledger
  runs : ∃ prev commitments,
    (prev = some s.epochBlock ∨ (s.epochBlock.height = 0 ∧ prev = none)) ∧
      s.performEpochTasks env prev E commitments = .ok s'

/-- **A run of epochs from genesis.** -/
inductive EpochRun (env : EpochEnv) (config : Config) : EpochSnapshot → Prop where
  | genesis {g : IrysBlockHeader} {commitments : List CommitmentTransaction} {s : EpochSnapshot}
      (hg : g.GenesisBlock) (h : EpochSnapshot.new env g commitments config = .ok s) :
      EpochRun env config s
  | step {s s' : EpochSnapshot} {E : IrysBlockHeader} (run : EpochRun env config s)
      (h : EpochStep env s E s') : EpochRun env config s'

/-! ### The frontier stays inside the allocated slots -/

/-- **Allocation keeps up.**  Growth by at most one slot size is met by the two slots that the
utilisation rule adds; larger growth is met by the growth rule.  So a margin of up to half a slot
stays free. -/
theorem room_after {C margin prev new count : ℕ} {grows : Prop} [Decidable grows] (hC : 0 < C)
    (hmargin : margin ≤ C / 2) (hroom : prev < count * C - margin ∨ (count = 0 ∧ prev = 0))
    (hle : prev ≤ new) (hgrows : C < new - prev → grows) :
    new < (count + ((if count * C - C / 2 ≤ new then 2 else 0) +
      (if grows ∧ C < new - prev then divCeil (new - prev) C else 0))) * C - margin := by
  have hceil : new - prev ≤ divCeil (new - prev) C * C := (divCeil_le_iff hC).mp le_rfl
  have hprev : prev < count * C - margin ∨ (count * C = 0 ∧ prev = 0) := by
    rcases hroom with h | ⟨h, h'⟩
    · exact .inl h
    · rw [h, Nat.zero_mul]
      exact .inr ⟨rfl, h'⟩
  by_cases hlarge : C < new - prev
  · have hboth : grows ∧ C < new - prev := ⟨hgrows hlarge, hlarge⟩
    rw [if_pos hboth]
    split <;> rw [Nat.add_mul, Nat.add_mul] <;> omega
  · have hneither : ¬ (grows ∧ C < new - prev) := fun h => hlarge h.2
    rw [if_neg hneither, Nat.add_zero]
    split
    · rw [Nat.add_mul]
      omega
    · rw [Nat.add_zero]
      omega

/-! ### The invariant -/

/-- What holds of every snapshot of a run, whatever the lifetimes of the term ledgers. -/
structure EpochBase (config : Config) (s : EpochSnapshot) : Prop where
  config_eq : s.config = config
  shape : s.ledgers.Shape
  fit : s.ledgers.LifetimesFit
  genesis_empty : s.epochBlock.height = 0 → ∀ ledger, s.epochBlock.ledgerTotalChunks ledger = 0
  covered : ∀ ledger core, s.ledgers.get? ledger = some core →
    Covered (s.epochBlock.ledgerTotalChunks ledger) config.numChunksInPartition core.slots.length

/-- The same, where term ledgers live for at least one block. -/
structure EpochInv (config : Config) (s : EpochSnapshot) : Prop
    extends base : EpochBase config s where
  lifetimes : s.ledgers.LifetimesPositive

variable {env : EpochEnv} {config : Config} {s s' : EpochSnapshot} {E g : IrysBlockHeader}

theorem IrysBlockHeader.GenesisBlock.ledgerTotalChunks (hg : g.GenesisBlock)
    (ledger : DataLedger) : g.ledgerTotalChunks ledger = 0 := by
  rw [IrysBlockHeader.ledgerTotalChunks]
  cases hfind : g.dataLedgers.find? (fun dl => dl.ledgerId == ledger) with
  | none => rfl
  | some dl => exact hg.empty dl (List.mem_of_find?_eq_some hfind)

variable {ledger : DataLedger} {slots slots' : List LedgerSlot}

theorem EpochStep.total_of_inactive (h : EpochStep env s E s')
    (hnot : ledger ∉ s.ledgers.activeLedgers) : E.ledgerTotalChunks ledger = 0 := by
  apply IrysBlockHeader.ledgerTotalChunks_of_not_hasLedger
  rw [IrysBlockHeader.hasLedger, List.any_eq_false]
  intro dl hdl heq
  rw [beq_iff_eq] at heq
  exact hnot (heq ▸ h.carries dl hdl)

theorem ledgers_new_shape (config : ConsensusConfig) (cascade : Bool) :
    (Ledgers.new config cascade).Shape := by
  cases cascade with
  | false => exact .inl rfl
  | true =>
    cases hc : config.hardforks.cascade with
    | none =>
      left
      simp [Ledgers.new, Ledgers.termIds, hc, TermLedger.new]
    | some c =>
      right
      simp [Ledgers.new, Ledgers.termIds, hc, TermLedger.new, Ledgers.cascadeLedgers]

theorem ledgers_new_lifetimes (config : Config) {cascade : Bool}
    (hlen : cascade = true → config.TermLengthsPositive) :
    (Ledgers.new config.toConsensusConfig cascade).LifetimesPositive := by
  have hn := config.blocksInEpoch_pos
  apply Ledgers.lifetimesPositive_of_forall
  · intro t ht
    simp only [Ledgers.new, List.mem_cons] at ht
    rcases ht with rfl | ht
    · exact Nat.mul_pos config.submitLength_pos hn
    · split at ht
      · rename_i c hc
        have hpos := hlen rfl c hc
        simp only [Ledgers.cascadeLedgers, List.mem_cons, List.not_mem_nil, or_false] at ht
        rcases ht with rfl | rfl
        · exact Nat.mul_pos hpos.1 hn
        · exact Nat.mul_pos hpos.2 hn
      · cases ht
  · intro n hmem
    exact Nat.mul_pos (config.publishLength_pos n hmem) hn

theorem activated_lifetimes (hcfg : s.config = config)
    (hlen : config.hardforks.cascadeForBlock E.timestampSecs = true → config.TermLengthsPositive)
    (hl : s.ledgers.LifetimesPositive) : (s.activated E).LifetimesPositive := by
  rw [activated, hcfg]
  split
  · rename_i hactive
    exact hl.activateCascade config.blocksInEpoch_pos (hlen hactive)
  · exact hl

variable {core before : LedgerCore} {commitments : List CommitmentTransaction}
    {prev : Option IrysBlockHeader} {i : ℕ} {slot : LedgerSlot}

theorem activated_get? (E : IrysBlockHeader)
    (hget : s.ledgers.get? ledger = some core) : (s.activated E).get? ledger = some core := by
  rw [activated]
  split
  · exact Ledgers.get?_activateCascade _ hget
  · exact hget

theorem activated_lifetime (E : IrysBlockHeader) (hactive : ledger ∈ s.ledgers.activeLedgers) :
    (s.activated E).lifetime ledger = s.ledgers.lifetime ledger := by
  rw [activated]
  split
  · exact Ledgers.lifetime_activateCascade _ hactive
  · rfl

theorem room_after_turn (hcfg : s.config = config) {count margin : ℕ}
    (hmargin : margin ≤ config.numChunksInPartition / 2)
    (hroom : (prev.map (·.ledgerTotalChunks ledger)).getD 0 <
      count * config.numChunksInPartition - margin ∨
        (count = 0 ∧ (prev.map (·.ledgerTotalChunks ledger)).getD 0 = 0))
    (hle : (prev.map (·.ledgerTotalChunks ledger)).getD 0 ≤ E.ledgerTotalChunks ledger)
    (hgrows : config.numChunksInPartition <
      E.ledgerTotalChunks ledger - (prev.map (·.ledgerTotalChunks ledger)).getD 0 →
        config.epoch.numBlocksInEpoch ≤ E.height) (hhas : E.hasLedger ledger = true) :
    E.ledgerTotalChunks ledger < (count + (s.ledgerTurn prev E ledger count).added) *
      config.numChunksInPartition - margin := by
  have h := room_after config.chunksInPartition_pos hmargin hroom hle hgrows
  show _ < (_ + additionalSlots _ _ _ _ _ _) * _ - _
  unfold additionalSlots
  rw [hcfg]
  simp only [hhas, if_true]
  exact h

section

variable (h : EpochSnapshot.new env g commitments config = .ok s)
include h

theorem epochBlock_of_new : s.epochBlock = g :=
  congrArg (fun p => p.2.1) (performEpochTasks_spec (ledgers_new_shape _ _) (expectOk_eq_ok.mp h)).1

/-- **Genesis is a turn** of every ledger, with its first slots. -/
theorem tookTurn_of_new (hget : s.ledgers.get? ledger = some core) :
    ∃ start n, ((EpochSnapshot.empty g config).activated g).get? ledger = some start ∧
      core.slots.map Ledgers.bareSlot = (Turn.after
        { (EpochSnapshot.empty g config).ledgerTurn none g ledger (start.slots.length + n) with
          lifetime := ((EpochSnapshot.empty g config).activated g).lifetime ledger }
        (appendSlots start.slots n g.height)).map Ledgers.bareSlot := by
  obtain ⟨-, hframe, -, n, -, hturn⟩ :=
    performEpochTasks_spec (ledgers_new_shape _ _) (expectOk_eq_ok.mp h)
  have hactive := Ledgers.mem_activeLedgers_iff.mpr ⟨_, hget⟩
  rw [Ledgers.activeLedgers_eq_of_frame hframe] at hactive
  obtain ⟨start, hstart⟩ := Ledgers.mem_activeLedgers_iff.mp hactive
  obtain ⟨core', hcore', hslots⟩ := (hturn ledger start hstart).slots
  cases hget.symm.trans hcore'
  exact ⟨start, n, hstart, hslots⟩

end

theorem EpochBase.genesis (hg : g.GenesisBlock)
    (h : EpochSnapshot.new env g commitments config = .ok s) : EpochBase config s := by
  have hshape : (EpochSnapshot.empty g config).ledgers.Shape := ledgers_new_shape _ _
  obtain ⟨hhead, hframe, hfit, -⟩ := performEpochTasks_spec hshape (expectOk_eq_ok.mp h)
  have hzero : ∀ ledger, s.epochBlock.ledgerTotalChunks ledger = 0 := by
    intro ledger
    rw [epochBlock_of_new h, hg.ledgerTotalChunks]
  refine ⟨congrArg Prod.fst hhead, (activated_shape hshape g).of_frame hframe, hfit.of_frame hframe,
    fun _ => hzero, ?_⟩
  intro ledger core _
  rw [hzero]
  exact covered_zero config.chunksInPartition_pos _

theorem EpochInv.genesis
    (hlen : config.hardforks.cascadeForBlock g.timestampSecs = true → config.TermLengthsPositive)
    (hg : g.GenesisBlock)
    (h : EpochSnapshot.new env g commitments config = .ok s) : EpochInv config s := by
  refine ⟨EpochBase.genesis hg h, ?_⟩
  have hframe := (performEpochTasks_spec (ledgers_new_shape _ _) (expectOk_eq_ok.mp h)).2.1
  exact (activated_lifetimes rfl hlen (ledgers_new_lifetimes config hlen)).of_frame hframe

theorem EpochStep.epochBlock_eq (inv : EpochBase config s) (h : EpochStep env s E s') :
    s'.epochBlock = E := by
  obtain ⟨prev, commitments, -, hrun⟩ := h.runs
  exact congrArg (fun p => p.2.1) (performEpochTasks_spec inv.shape hrun).1

theorem EpochBase.prevTotal (inv : EpochBase config s)
    (hprev : prev = some s.epochBlock ∨ (s.epochBlock.height = 0 ∧ prev = none))
    (ledger : DataLedger) :
    (prev.map (·.ledgerTotalChunks ledger)).getD 0 = s.epochBlock.ledgerTotalChunks ledger := by
  rcases hprev with rfl | ⟨h0, rfl⟩
  · rfl
  · exact (inv.genesis_empty h0 ledger).symm

theorem EpochStep.height_pos (inv : EpochBase config s) (h : EpochStep env s E s') :
    E.height ≠ 0 ∧ config.epoch.numBlocksInEpoch ≤ E.height := by
  have hpos := config.blocksInEpoch_pos
  have hheight := h.height
  rw [inv.config_eq] at hheight
  omega

theorem ledgerTurn_congr {prev' : Option IrysBlockHeader}
    (h : (prev.map (·.ledgerTotalChunks ledger)).getD 0 =
      (prev'.map (·.ledgerTotalChunks ledger)).getD 0)
    (count : ℕ) : s.ledgerTurn prev E ledger count = s.ledgerTurn prev' E ledger count := by
  unfold ledgerTurn additionalSlots
  rw [h]

/-- **An epoch is a turn of every ledger of the parent snapshot.** -/
theorem EpochStep.tookTurn (inv : EpochBase config s) (h : EpochStep env s E s')
    (hget : s.ledgers.get? ledger = some before) :
    s'.TookTurn ledger before.slots
      (s.ledgerTurn (some s.epochBlock) E ledger before.slots.length) := by
  obtain ⟨prev, commitments, hprev, hrun⟩ := h.runs
  obtain ⟨-, -, -, n, hn, hturn⟩ := performEpochTasks_spec inv.shape hrun
  have hgetE := activated_get? E hget
  have hlife := activated_lifetime E (Ledgers.mem_activeLedgers_iff.mpr ⟨_, hget⟩)
  have htook := hturn ledger before hgetE
  have hprevTotal : (prev.map (·.ledgerTotalChunks ledger)).getD 0 =
      ((some s.epochBlock).map (·.ledgerTotalChunks ledger)).getD 0 :=
    inv.prevTotal hprev ledger
  have hnone : appendSlots before.slots 0 E.height = before.slots := by simp [appendSlots]
  rw [hn (EpochStep.height_pos inv h).1, hlife, Nat.add_zero, ledgerTurn_congr hprevTotal,
    hnone] at htook
  exact htook

theorem length_of_bare (h : slots'.map Ledgers.bareSlot = slots.map Ledgers.bareSlot) :
    slots'.length = slots.length := by
  simpa using congrArg List.length h

section

variable (heq : slots'.map Ledgers.bareSlot = slots.map Ledgers.bareSlot)
    (hslot : slots[i]? = some slot)
include heq hslot

theorem getElem?_of_bare :
    ∃ slot', slots'[i]? = some slot' ∧ Ledgers.bareSlot slot' = Ledgers.bareSlot slot := by
  have hmap := congrArg (·[i]?) heq
  simp only [List.getElem?_map, hslot, Option.map_some] at hmap
  exact Option.map_eq_some_iff.mp hmap

theorem isExpired_of_bare (hexp : slot.isExpired = true) :
    ∃ slot', slots'[i]? = some slot' ∧ slot'.isExpired = true := by
  obtain ⟨slot', hslot', hbare⟩ := getElem?_of_bare heq hslot
  exact ⟨slot', hslot', (congrArg LedgerSlot.isExpired hbare).trans hexp⟩

end

/-- **An epoch keeps the invariant.** -/
theorem EpochBase.step (inv : EpochBase config s) (h : EpochStep env s E s') :
    EpochBase config s' := by
  obtain ⟨prev, commitments, hprev, hrun⟩ := h.runs
  obtain ⟨hhead, hframe, hfit, -⟩ := performEpochTasks_spec inv.shape hrun
  have hcfg : s'.config = config := (congrArg Prod.fst hhead).trans inv.config_eq
  have hblock := h.epochBlock_eq inv
  obtain ⟨hne, hnum⟩ := EpochStep.height_pos inv h
  refine ⟨hcfg, (activated_shape inv.shape E).of_frame hframe, hfit.of_frame hframe,
    fun h0 => absurd (hblock ▸ h0) hne, ?_⟩
  intro ledger after hafter
  rw [hblock]
  by_cases hactive : ledger ∈ s.ledgers.activeLedgers
  · obtain ⟨before, hbefore⟩ := Ledgers.mem_activeLedgers_iff.mp hactive
    obtain ⟨core', hget', hslots⟩ := (h.tookTurn inv hbefore).slots
    cases hafter.symm.trans hget'
    rw [length_of_bare hslots, Turn.after_length]
    by_cases hhas : E.hasLedger ledger = true
    · exact .inl (room_after_turn inv.config_eq (Nat.zero_le _) (inv.covered ledger before hbefore)
        (h.grows ledger) (fun _ => hnum) hhas)
    · rw [IrysBlockHeader.ledgerTotalChunks_of_not_hasLedger (Bool.eq_false_iff.mpr hhas)]
      exact covered_zero config.chunksInPartition_pos _
  · rw [h.total_of_inactive hactive]
    exact covered_zero config.chunksInPartition_pos _

theorem EpochInv.step
    (hlen : config.hardforks.cascadeForBlock E.timestampSecs = true → config.TermLengthsPositive)
    (inv : EpochInv config s) (h : EpochStep env s E s') : EpochInv config s' := by
  refine ⟨inv.base.step h, ?_⟩
  obtain ⟨prev, commitments, -, hrun⟩ := h.runs
  have hframe := (performEpochTasks_spec inv.shape hrun).2.1
  exact (activated_lifetimes inv.config_eq hlen inv.lifetimes).of_frame hframe

/-- **Every snapshot of a run satisfies the invariant.** -/
theorem EpochRun.inv (hlen : config.TermLengthsPositive) (run : EpochRun env config s) :
    EpochInv config s := by
  induction run with
  | genesis hg h => exact EpochInv.genesis (fun _ => hlen) hg h
  | step run h ih => exact EpochInv.step (fun _ => hlen) ih h

/-! ### Lockstep -/

/-- **What settlement computes on the parent snapshot** is the settled set of the ledger's turn. -/
theorem getExpiringSlotPartitions_spec (inv : EpochBase config s)
    (hget : s.ledgers.get? ledger = some core) (E : IrysBlockHeader) :
    s.getExpiringSlotPartitions E.height ledger (E.ledgerTotalChunks ledger)
        (config.hardforks.cascadeForBlock E.timestampSecs) =
      .ok (Turn.keyed
        ((s.ledgerTurn (some s.epochBlock) E ledger core.slots.length).settled core.slots)) := by
  have hC : s.config = config := inv.config_eq
  subst hC
  obtain ⟨slots, hslots⟩ : ∃ slots, (s.ledgers.getExpiringSlots E.height
      (s.config.hardforks.cascadeForBlock E.timestampSecs)
      (fun l => if l = ledger then E.ledgerTotalChunks ledger
        else s.epochBlock.ledgerTotalChunks l)
      s.config.numChunksInPartition : EpochRes _) = .ok slots :=
    inv.fit.getExpiringSlots _ _ _ _
  have hspec := Ledgers.getExpiringSlots_spec inv.shape hslots hget
  rw [if_pos rfl] at hspec
  rw [getExpiringSlotPartitions, hslots]
  -- the filter by ledger and by write window, one after the other
  have hcomm : ∀ (q : ℕ → Bool),
      (slots.filter fun p => p.1 == ledger && q p.2.1).map (·.2) =
        ((slots.filter (·.1 == ledger)).map (·.2)).filter fun p => q p.1 := by
    intro q
    rw [List.filter_map, List.filter_filter]
    simp only [Function.comp_def, Bool.and_comm]
  refine congrArg Except.ok ?_
  rw [hcomm fun i => !writtenThisEpoch (s.config.hardforks.cascadeForBlock E.timestampSecs)
    (E.ledgerTotalChunks ledger) (s.epochBlock.ledgerTotalChunks ledger)
    s.config.numChunksInPartition i, hspec, Turn.settled, Turn.keyed, Turn.keyed, List.filter_map]
  rfl

theorem EpochInv.settled_eq_recycled (inv : EpochInv config s) (E : IrysBlockHeader)
    (hcascade : config.hardforks.cascadeForBlock E.timestampSecs = true)
    (hget : s.ledgers.get? ledger = some before) :
    let t := s.ledgerTurn (some s.epochBlock) E ledger before.slots.length
    Turn.keyed (t.settled before.slots) = Turn.keyed (t.recycled before.slots) := by
  have hC : s.config = config := inv.config_eq
  subst hC
  exact Turn.settled_eq_recycled s.config.chunksInPartition_pos (inv.lifetimes ledger) hcascade
    (inv.covered ledger before hget)

/-- **Settlement and recycling are in lockstep.**  At every epoch block with Cascade active, for
every ledger of the parent snapshot: the slots settlement computes on the parent are the slots
whose flag the epoch processing sets, each with the partition list it has in the parent, and the
partitions reported as expired are exactly those of these slots. -/
theorem settlement_matches_recycling (hlen : config.TermLengthsPositive)
    (run : EpochRun env config s) (step : EpochStep env s E s')
    (hcascade : config.hardforks.cascadeForBlock E.timestampSecs = true)
    {ledger : DataLedger} (hactive : ledger ∈ s.ledgers.activeLedgers) :
    ∃ settled before after,
      s.getExpiringSlotPartitions E.height ledger (E.ledgerTotalChunks ledger)
          (config.hardforks.cascadeForBlock E.timestampSecs) = .ok settled ∧
        s.ledgers.get? ledger = some before ∧ s'.ledgers.get? ledger = some after ∧
        settled.map (·.1) = flippedSlots before.slots after.slots ∧
        (∀ p ∈ settled, ∃ slot, before.slots[p.1]? = some slot ∧ slot.partitions = p.2) ∧
        (s'.expiredPartitionInfos.getD []).filter (·.ledgerId == ledger) =
          Ledgers.infosFor ledger settled := by
  have inv := run.inv hlen
  obtain ⟨before, hbefore⟩ := Ledgers.mem_activeLedgers_iff.mp hactive
  obtain ⟨⟨after, hafter, hslots⟩, hreports⟩ := step.tookTurn inv.base hbefore
  have hsettled := getExpiringSlotPartitions_spec inv.base hbefore E
  have hlock := EpochInv.settled_eq_recycled inv E hcascade hbefore
  refine ⟨_, before, after, hsettled, hbefore, hafter, ?_, ?_, ?_⟩
  · rw [Ledgers.flippedSlots_of_bare hslots, Turn.flippedSlots_after, hlock, Turn.keyed,
      List.map_map]
    rfl
  · rintro ⟨i, ps⟩ hmem
    obtain ⟨slot, hdue, hps⟩ := Turn.mem_keyed.mp hmem
    obtain ⟨m, -, hexp⟩ := mem_dueSlots.mp (List.mem_filter.mp hdue).1
    exact ⟨slot, hexp.at_index, hps⟩
  · rw [hreports, hlock]

/-! ### A run that recycles a slot -/

/-- SHA-256 itself, and the capacity formula in exact arithmetic: `10 ^ k ≤ base ^ 1000` says
`k ≤ 1000 · log10 base`. -/
def referenceEnv : EpochEnv where
  hashSha256 h := (Sha256.digest (be 32 h)).foldl (fun n b => n * 256 + b.toNat) 0
  scaledLog10 base scalar := divCeil (Nat.log 10 (base ^ 1000) * scalar) 1000

/-- One chunk per slot, one replica, one block per epoch, lifetimes of one epoch. -/
def sampleConfig : Config :=
  { twoChunkConfig with
    numChunksInPartition := 1
    hardforks := { cascade := some ⟨0, 1, 1⟩, delta := none }
    chunksInPartition_pos := Nat.one_pos
    chunksInPartition_le := by decide }

def Replay.twoBlockEpochs : Config :=
  { sampleConfig with
    epoch := { sampleConfig.epoch with numBlocksInEpoch := 2 }
    blocksInEpoch_pos := Nat.two_pos
    submitLength_pos := sampleConfig.submitLength_pos
    publishLength_pos := sampleConfig.publishLength_pos
    publishLength_fits := by simp [sampleConfig, twoChunkConfig] }

theorem sampleConfig_lengths : sampleConfig.TermLengthsPositive := by
  simp [ConsensusConfig.TermLengthsPositive, sampleConfig, twoChunkConfig]

/-- One miner, with a stake and two pledges. -/
def sampleCommitments : List CommitmentTransaction :=
  [⟨1, 7, 0, 0, .stake⟩, ⟨2, 7, 0, 0, .pledge 0⟩, ⟨3, 7, 0, 0, .pledge 1⟩]

/-- A header with the given height, Submit total and commitments. -/
def sampleHeader (height submitTotal : ℕ) (txIds : List H256) : IrysBlockHeader :=
  { IrysBlockHeader.bare height (height - 1) height with
    systemLedgers := if txIds.isEmpty then [] else [⟨.commitment, txIds⟩]
    dataLedgers :=
      [⟨.publish, 0, [], 0⟩, ⟨.submit, 0, [], submitTotal⟩, ⟨.oneYear, 0, [], 0⟩,
        ⟨.thirtyDay, 0, [], 0⟩] }

/-- Genesis and two epochs: a chunk is written in the first, and its slot is due in the second. -/
def sampleRun : EpochRes (EpochSnapshot × EpochSnapshot × EpochSnapshot) := do
  let s₀ ← EpochSnapshot.new referenceEnv (sampleHeader 0 0 [1, 2, 3]) sampleCommitments sampleConfig
  let s₁ ← s₀.performEpochTasks referenceEnv (some s₀.epochBlock) (sampleHeader 1 1 []) []
  let s₂ ← s₁.performEpochTasks referenceEnv (some s₁.epochBlock) (sampleHeader 2 1 []) []
  return (s₀, s₁, s₂)

/-- The facts about the sample run that are read off by evaluation. -/
def sampleFacts (s : EpochSnapshot) (height submitTotal : ℕ) (txIds : List H256) : Bool :=
  s.epochBlock == sampleHeader height submitTotal txIds
    && s.config.epoch.numBlocksInEpoch == 1
    && s.ledgers.activeLedgers == [.publish, .submit, .oneYear, .thirtyDay]

theorem sampleRun_facts : (match sampleRun with
    | .ok (s₀, s₁, _) => sampleFacts s₀ 0 0 [1, 2, 3] && sampleFacts s₁ 1 1 [] &&
        (match s₁.getExpiringSlotPartitions 2 .submit 1 true with
          | .ok settled => settled.map (·.1) == [0]
          | .error _ => false)
    | .error _ => false) = true := by
  decide +kernel

/-- **The sample run exists**, and in its second epoch block slot 0 of the Submit ledger is
settled. -/
theorem sampleRun_spec : ∃ s₀ s₁ s₂ settled,
    EpochSnapshot.new referenceEnv (sampleHeader 0 0 [1, 2, 3]) sampleCommitments sampleConfig
        = .ok s₀ ∧
      s₀.performEpochTasks referenceEnv (some s₀.epochBlock) (sampleHeader 1 1 []) [] = .ok s₁ ∧
      s₁.performEpochTasks referenceEnv (some s₁.epochBlock) (sampleHeader 2 1 []) [] = .ok s₂ ∧
      sampleFacts s₀ 0 0 [1, 2, 3] = true ∧ sampleFacts s₁ 1 1 [] = true ∧
      s₁.getExpiringSlotPartitions 2 .submit 1 true = .ok settled ∧ settled.map (·.1) = [0] := by
  have hfacts := sampleRun_facts
  cases hrun : sampleRun with
  | error e => simp [hrun] at hfacts
  | ok r =>
    obtain ⟨s₀, s₁, s₂⟩ := r
    simp only [hrun, Bool.and_eq_true] at hfacts
    obtain ⟨⟨hf₀, hf₁⟩, hset⟩ := hfacts
    obtain ⟨t₀, h₀, hrun⟩ := bind_eq_ok.mp hrun
    obtain ⟨t₁, h₁, hrun⟩ := bind_eq_ok.mp hrun
    obtain ⟨t₂, h₂, hret⟩ := bind_eq_ok.mp hrun
    cases hret
    cases hsettled : s₁.getExpiringSlotPartitions 2 .submit 1 true with
    | error e => simp [hsettled] at hset
    | ok settled =>
      rw [hsettled] at hset
      exact ⟨s₀, s₁, s₂, settled, h₀, h₁, h₂, hf₀, hf₁, hsettled, by simpa using hset⟩

theorem sampleStep {s s' : EpochSnapshot} {height total total' : ℕ} {txIds : List H256}
    (hfacts : sampleFacts s height total txIds = true) (hle : total ≤ total')
    (h : s.performEpochTasks referenceEnv (some s.epochBlock) (sampleHeader (height + 1) total' []) []
      = .ok s') : EpochStep referenceEnv s (sampleHeader (height + 1) total' []) s' := by
  simp only [sampleFacts, Bool.and_eq_true, beq_iff_eq] at hfacts
  obtain ⟨⟨hblock, hnum⟩, hactive⟩ := hfacts
  refine ⟨?_, ?_, ?_, some s.epochBlock, [], .inl rfl, h⟩
  · rw [hblock, hnum]
    rfl
  · rw [hactive]
    simp [sampleHeader]
  · intro ledger
    rw [hblock]
    cases ledger <;> simp [IrysBlockHeader.ledgerTotalChunks, sampleHeader, hle]

/-- In the sample run slot 0 of the Submit ledger is settled at the second epoch block, and it is
the slot whose flag the epoch processing sets. -/
theorem settlement_matches_recycling_sample :
    ∃ s s' settled before after,
      EpochRun referenceEnv sampleConfig s ∧
        EpochStep referenceEnv s (sampleHeader 2 1 []) s' ∧
        s.getExpiringSlotPartitions 2 .submit 1 true = .ok settled ∧
        s.ledgers.get? .submit = some before ∧ s'.ledgers.get? .submit = some after ∧
        settled.map (·.1) = [0] ∧ flippedSlots before.slots after.slots = [0] := by
  obtain ⟨s₀, s₁, s₂, settled, h₀, h₁, h₂, hf₀, hf₁, hsettled, hzero⟩ := sampleRun_spec
  have run₀ : EpochRun referenceEnv sampleConfig s₀ :=
    .genesis ⟨rfl, by simp [sampleHeader]⟩ h₀
  have run₁ : EpochRun referenceEnv sampleConfig s₁ :=
    .step run₀ (sampleStep hf₀ (by decide) h₁)
  have step₂ := sampleStep hf₁ le_rfl h₂
  have hactive : DataLedger.submit ∈ s₁.ledgers.activeLedgers := by
    simp only [sampleFacts, Bool.and_eq_true, beq_iff_eq] at hf₁
    rw [hf₁.2]
    decide
  obtain ⟨settled', before, after, hsettled', hbefore, hafter, hflip, -, -⟩ :=
    settlement_matches_recycling sampleConfig_lengths run₁ step₂ (by decide) hactive
  have heq : Except.ok settled' = Except.ok settled := hsettled'.symm.trans hsettled
  cases heq
  exact ⟨s₁, s₂, settled, before, after, run₁, step₂, hsettled, hbefore, hafter, hzero,
    by rw [← hflip, hzero]⟩

end Irys
