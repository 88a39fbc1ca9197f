import Irys.Epoch.Backfill
import Irys.Epoch.Lockstep
import Irys.Epoch.Pledges

/-!
# The partition invariant over an epoch block

`perform_epoch_tasks` runs its phases on the registry of partitions: it files claims, closes the
slots that expire once their partitions are withdrawn, releases, places, mints and grants.

* `_minted` lemmas — the list of partitions only grows.
-/

namespace Irys

open List

namespace EpochSnapshot

variable {env : EpochEnv} {s s' : EpochSnapshot} {E : IrysBlockHeader}
  {prev : Option IrysBlockHeader} {commitments : List CommitmentTransaction}

/-! ### What is minted stays -/

theorem assignPartitionHashesToPledges_minted (s : EpochSnapshot) :
    s.assignPartitionHashesToPledges.allActivePartitions = s.allActivePartitions :=
  congrArg Prod.snd (assignPartitionHashesToPledges_keeps s).2

theorem turnLedgers_minted (h : s.turnLedgers prev E = .ok s') :
    s'.allActivePartitions = s.allActivePartitions := by
  obtain ⟨s₁, h₁, h⟩ := bind_eq_ok.mp h
  obtain ⟨s₂, h₂, h₃⟩ := bind_eq_ok.mp h
  obtain ⟨ledgers₁, -, hret₁⟩ := bind_eq_ok.mp h₁
  obtain ⟨ledgers₂, -, hret₂⟩ := bind_eq_ok.mp h₂
  obtain ⟨-, -, -, -, -, -, hminted⟩ := expireLedgerSlots_spec h₃
  rw [hminted]
  cases hret₁
  cases hret₂
  rfl

/-! ### Slots that are added and touched -/

theorem Moves.of_ledgers {ledgers : Ledgers} (hs : s.Filed)
    (huniform : ledgers.Uniform s.config.numPartitionsPerSlot)
    (htable : s.ledgers.SameTable ledgers) : s.Moves (s.withLedgers ledgers) :=
  .of_eq ⟨huniform, hs.assignments, hs.commitments⟩
    (Registry.ext rfl rfl rfl htable.partitions htable.expired rfl) rfl

theorem allocateAdditionalLedgerSlots_moves {delta : Option Delta} (hs : s.Filed)
    (h : s.allocateAdditionalLedgerSlots prev E delta = .ok s') :
    s.Moves s' ∧ s'.allActivePartitions = s.allActivePartitions := by
  obtain ⟨ledgers, rfl, hrewrites⟩ := allocateAdditionalLedgerSlots_spec hs.ledgers.shape h
  refine ⟨.of_ledgers hs (hrewrites.uniform hs.ledgers) (hrewrites.sameTable ?_), rfl⟩
  intro ledger slots i
  exact Ledgers.shownAt_appendSlots _ _ _ _

theorem touchActiveLedgerSlots_moves {refresh : Bool} (hs : s.Filed)
    (h : s.touchActiveLedgerSlots prev E refresh = .ok s') :
    s.Moves s' ∧ s'.allActivePartitions = s.allActivePartitions := by
  obtain ⟨ledgers, rfl, hrewrites⟩ := touchActiveLedgerSlots_spec hs.ledgers.shape h
  refine ⟨.of_ledgers hs (hrewrites.uniform hs.ledgers) (hrewrites.sameTable ?_), rfl⟩
  intro ledger slots i
  exact Ledgers.shownAt_touchFilledSlots _ _ _ _ _ _ _

/-! ### Expiry -/

/-- The registry while expired partitions go back: the flags are set already, so it is that of a
run whose bins are not closed yet. -/
structure Returning (r : PartitionRegistry) (cap : ℕ) (closed : DataLedger × ℕ → Bool)
    (done : List PartitionHash) (s : EpochSnapshot) (r' : PartitionRegistry) : Prop where
  filed : s.Filed
  steps : Registry.Steps cap r r'
  registry : s.registry = { r' with retired := closed }
  retired : r'.retired = r.retired
  bins : ∀ slot, ∀ x ∈ r'.bins slot, x ∈ r.bins slot
  gone : ∀ x ∈ done, ∀ slot, x ∉ r'.bins slot

variable {r r' : PartitionRegistry} {cap : ℕ} {closed : DataLedger × ℕ → Bool}
    {done : List PartitionHash} {cascade : Bool} {st st' : EpochSnapshot × List IrysAddress}

section

variable (hr : r.WellFormed cap) (h : Returning r cap closed done s r')
include hr h

theorem Returning.step {hash : PartitionHash}
    (hstep : s.returnExpiredPartitionToCapacity hash = .ok s') :
    s'.config = s.config ∧ s'.allActivePartitions = s.allActivePartitions ∧
      ∃ r'', Returning r cap closed (hash :: done) s' r'' := by
  obtain ⟨hfiled, hconfig, hcase⟩ := returnExpiredPartitionToCapacity_registry h.filed hstep
  have hwf := h.steps.wellFormed hr
  have hheld : s.registry.held = r'.held := by rw [h.registry]
  refine ⟨hconfig, ?_⟩
  rcases hcase with ⟨rfl, hout⟩ | ⟨m, b, hin, hreg⟩
  · refine ⟨rfl, r', { h with gone := ?_ }⟩
    intro x hx slot
    rcases mem_cons.mp hx with rfl | hx
    · rw [hwf.mem_bin]
      rintro ⟨m, hm⟩
      exact hout m slot (hheld ▸ hm)
    · exact h.gone x hx slot
  · rw [hheld] at hin
    have hstep' : Registry.Step cap r' (r'.withdraw hash m b) := .withdraw hin
    have hsub : ∀ slot, ∀ x ∈ (r'.withdraw hash m b).bins slot, x ∈ r'.bins slot := by
      intro slot x hx
      simp only [Registry.withdraw, Function.update_apply] at hx
      split at hx
      · rename_i hslot
        subst hslot
        exact (mem_filter.mp hx).1
      · exact hx
    refine ⟨?_, r'.withdraw hash m b, hfiled, h.steps.tail hstep', ?_, h.retired, ?_, ?_⟩
    · have := congrArg Registry.minted hreg
      exact this
    · rw [hreg, h.registry]
      rfl
    · intro slot x hx
      exact h.bins slot x (hsub slot x hx)
    · intro x hx slot hmem
      rcases mem_cons.mp hx with rfl | hx
      · obtain ⟨m', hm'⟩ := ((hstep'.wellFormed hwf).mem_bin slot x).mp hmem
        simp [Registry.withdraw] at hm'
      · exact h.gone x hx slot (hsub slot x hmem)

theorem Returning.fold {infos : List ExpiringPartitionInfo}
    (hfold : infos.foldlM (fun s info => s.returnExpiredPartitionToCapacity info.partitionHash) s
      = .ok s') :
    s'.config = s.config ∧ s'.allActivePartitions = s.allActivePartitions ∧
      ∃ done' r'', Returning r cap closed done' s' r'' ∧
        (∀ x ∈ done, x ∈ done') ∧ ∀ info ∈ infos, info.partitionHash ∈ done' := by
  induction infos generalizing s done r' with
  | nil =>
    cases hfold
    exact ⟨rfl, rfl, done, r', h, fun _ hx => hx, by simp⟩
  | cons info infos ih =>
    rw [foldlM_cons] at hfold
    obtain ⟨mid, hmid, hrest⟩ := bind_eq_ok.mp hfold
    obtain ⟨hcfg, hmint, r₁, hnext⟩ := h.step hr hmid
    obtain ⟨hcfg', hmint', done', r'', hret, hkeep, hall⟩ := ih hnext hrest
    refine ⟨hcfg'.trans hcfg, hmint'.trans hmint, done', r'', hret,
      fun x hx => hkeep x (mem_cons_of_mem _ hx), ?_⟩
    rw [forall_mem_cons]
    exact ⟨hkeep _ mem_cons_self, hall⟩

end

/-- **Expiry** withdraws the partitions of the slots that expire, and then closes these slots. -/
theorem expireLedgerSlots_moves (hs : s.Booked)
    (h : s.expireLedgerSlots E cascade = .ok s') :
    s.Moves s' ∧ s'.allActivePartitions = s.allActivePartitions := by
  obtain ⟨⟨ledgers, infos⟩, hexp, h⟩ := bind_eq_ok.mp h
  obtain ⟨hparts, hkeep, hreported, huniform⟩ :=
    Ledgers.expirePartitions_table hs.filed.ledgers.shape hexp
  -- an empty report returns early, with the state a loop over it would leave
  obtain ⟨mid, hfold, hout⟩ : ∃ mid, infos.foldlM (fun s info =>
        s.returnExpiredPartitionToCapacity info.partitionHash) (s.withLedgers ledgers) = .ok mid ∧
      ∃ o, s' = { mid with expiredPartitionInfos := o } := by
    dsimp only at h
    split at h
    · rename_i hempty
      cases h
      rw [List.isEmpty_iff] at hempty
      subst hempty
      exact ⟨_, rfl, none, rfl⟩
    · obtain ⟨mid, hfold, hret⟩ := bind_eq_ok.mp h
      cases hret
      exact ⟨mid, hfold, some infos, rfl⟩
  obtain ⟨o, rfl⟩ := hout
  have hstart : Returning s.registry s.config.numPartitionsPerSlot ledgers.expiredIn []
      (s.withLedgers ledgers) s.registry :=
    ⟨⟨huniform _ hs.filed.ledgers, hs.filed.assignments, hs.filed.commitments⟩, .refl,
      Registry.ext rfl rfl rfl hparts rfl rfl, rfl, fun _ _ hx => hx, by simp⟩
  obtain ⟨hcfg, hmint, done, r, hret, -, hdone⟩ := hstart.fold hs.wellFormed hfold
  refine ⟨⟨⟨hret.filed.ledgers, hret.filed.assignments, hret.filed.commitments⟩, ?_, hcfg⟩, hmint⟩
  have hwf := hret.steps.wellFormed hs.wellFormed
  have hempty : ∀ slot, ledgers.expiredIn slot = true → r.bins slot = [] := by
    intro slot hslot
    rcases hreported slot hslot with hold | hnew
    · exact hwf.retired_empty slot (by rw [hret.retired]; exact hold)
    · rw [eq_nil_iff_forall_not_mem]
      intro x hx
      obtain ⟨info, hinfo, rfl⟩ := hnew x (hret.bins slot x hx)
      exact hret.gone _ (hdone info hinfo) slot hx
  have hreg : mid.registry = r.retire ledgers.expiredIn := by
    rw [hret.registry]
    refine Registry.ext rfl rfl rfl rfl ?_ rfl
    funext slot
    show ledgers.expiredIn slot = (r.retired slot || ledgers.expiredIn slot)
    rw [hret.retired]
    cases hold : s.ledgers.expiredIn slot with
    | true =>
      rw [hkeep slot hold]
      simp
    | false => rw [show s.registry.retired slot = false from hold, Bool.false_or]
  show Registry.Steps _ s.registry mid.registry
  rw [hreg]
  exact hret.steps.tail (.retire hempty)

/-- **The second part.** -/
theorem turnLedgers_moves (hs : s.Booked) (h : s.turnLedgers prev E = .ok s') : s.Moves s' := by
  obtain ⟨s₁, h₁, h⟩ := bind_eq_ok.mp h
  obtain ⟨s₂, h₂, h₃⟩ := bind_eq_ok.mp h
  have m₁ := (allocateAdditionalLedgerSlots_moves hs.filed h₁).1
  have m₂ := (touchActiveLedgerSlots_moves m₁.filed h₂).1
  have m₃ := (expireLedgerSlots_moves ((hs.moves m₁).moves m₂) h₃).1
  exact (m₁.trans m₂).trans m₃

/-! ### Commitments that end -/

variable {c : CommitmentTransaction}

theorem Moves.of_stakes {stakes : Std.TreeMap IrysAddress StakeEntry} (hs : s.Filed)
    (hactive : ∀ (signer : IrysAddress) (e : StakeEntry), stakes[signer]? = some e →
      e.commitmentStatus = .active) :
    s.Moves (s.withCommitments { s.commitmentState with stakeCommitments := stakes }) :=
  .of_eq ⟨hs.ledgers, hs.assignments, hactive, hs.commitments.pledges, hs.commitments.ids⟩
    rfl rfl

theorem applyUnstake_moves (hs : s.Booked) (h : s.applyUnstake c = .ok s') : s.Moves s' := by
  rcases applyUnstake_cases h with rfl | ⟨-, rfl⟩
  · exact .refl hs.filed
  · apply Moves.of_stakes hs.filed
    intro signer e he
    rw [Std.TreeMap.getElem?_erase] at he
    split at he
    · cases he
    · exact hs.filed.commitments.stakes signer e he

theorem applyUpdateRewardAddress_moves
    (hs : st.1.Booked) (h : applyUpdateRewardAddress st c = .ok st') : st.1.Moves st'.1 := by
  rcases applyUpdateRewardAddress_cases h with rfl | ⟨entry, rewardAddress, hentry, rfl⟩
  · exact .refl hs.filed
  · apply Moves.of_stakes hs.filed
    intro signer e he
    rw [Std.TreeMap.getElem?_insert] at he
    split at he
    · cases he
      exact hs.filed.commitments.stakes c.signer entry hentry
    · exact hs.filed.commitments.stakes signer e he

theorem allocateAdditionalCapacity_moves (hs : s.Filed)
    (h : s.allocateAdditionalCapacity env = .ok s') (hnodup : s'.allActivePartitions.Nodup) :
    s.Moves s' := by
  rcases allocateAdditionalCapacity_eq_ok h with rfl | ⟨n, rfl⟩
  · exact .refl hs
  · exact addCapacityPartitions_moves hs n hnodup

/-- **The third part.** -/
theorem reassignPartitions_moves (hs : s.Booked)
    (h : s.reassignPartitions env commitments = .ok s') (hnodup : s'.allActivePartitions.Nodup) :
    s.Moves s' := by
  obtain ⟨s₁, h₁, h⟩ := bind_eq_ok.mp h
  obtain ⟨s₂, h₂, h⟩ := bind_eq_ok.mp h
  obtain ⟨s₃, h₃, h⟩ := bind_eq_ok.mp h
  obtain ⟨s₄, h₄, h⟩ := bind_eq_ok.mp h
  obtain ⟨s₅, h₅, hret⟩ := bind_eq_ok.mp h
  cases hret
  rw [assignPartitionHashesToPledges_minted] at hnodup
  have m₁ : s.Moves s₁ := foldlM_moves id (fun _ _ _ ha => applyUnpledge_moves ha) hs h₁
  have b₁ := hs.moves m₁
  have m₂ : s₁.Moves s₂ := foldlM_moves id (fun _ _ _ ha => applyUnstake_moves ha) b₁ h₂
  have b₂ := b₁.moves m₂
  have m₃ : s₂.Moves s₃ := by
    obtain ⟨st, hfold, hret⟩ := bind_eq_ok.mp h₃
    cases hret
    exact foldlM_moves Prod.fst
      (fun _ _ _ ha hstep => applyUpdateRewardAddress_moves ha hstep) b₂ hfold
  have b₃ := b₂.moves m₃
  have m₄ := backfillMissingPartitions_spec b₃ h₄
  have b₄ := b₃.moves m₄
  have m₅ := allocateAdditionalCapacity_moves b₄.filed h₅ hnodup
  have m₆ := assignPartitionHashesToPledges_moves (b₄.moves m₅)
  exact ((((m₁.trans m₂).trans m₃).trans m₄).trans m₅).trans m₆

/-! ### The first part -/

theorem tryGenesisInit_moves (hs : s.Booked) (h : s.tryGenesisInit env E = .ok s')
    (hnodup : s'.allActivePartitions.Nodup) : s.Moves s' := by
  rcases tryGenesisInit_eq_ok h with rfl | ⟨-, ledgers, k, hrewrites, rfl⟩
  · exact .refl hs.filed
  · rw [assignPartitionHashesToPledges_minted] at hnodup
    replace hrewrites := hrewrites hs.filed.ledgers.shape
    have m₁ : s.Moves (s.withLedgers ledgers) :=
      .of_ledgers hs.filed (hrewrites.uniform hs.filed.ledgers)
        (hrewrites.sameTable fun _ slots => Ledgers.shownAt_appendSlots slots 1 E.height)
    have m₂ := addCapacityPartitions_moves m₁.filed k hnodup
    have m₃ := assignPartitionHashesToPledges_moves ((hs.moves m₁).moves m₂)
    exact (m₁.trans m₂).trans m₃

theorem opened_moves (hs : s.Filed) (prev : Option IrysBlockHeader) (E : IrysBlockHeader) :
    s.Moves (s.opened prev E) := by
  have hledgers : (s.activated E).Uniform s.config.numPartitionsPerSlot ∧
      s.ledgers.SameTable (s.activated E) := by
    rw [activated]
    split
    · exact ⟨hs.ledgers.activateCascade, Ledgers.sameTable_activateCascade _ _⟩
    · exact ⟨hs.ledgers, rfl, rfl⟩
  exact .of_eq ⟨hledgers.1, hs.assignments, hs.commitments⟩
    (Registry.ext rfl rfl rfl hledgers.2.partitions hledgers.2.expired rfl) rfl

/-- **The first part.** -/
theorem beginEpoch_moves (hs : s.Booked) (hfresh : s.commitmentState.PledgesFresh commitments)
    (h : s.beginEpoch env prev E commitments = .ok s') (hnodup : s'.allActivePartitions.Nodup) :
    s.Moves s' := by
  obtain ⟨mid, hmid, hinit⟩ := beginEpoch_eq_ok h
  have m₁ := opened_moves hs.filed prev E
  have m₂ := computeCommitmentState_moves m₁.filed hfresh hmid
  have m₃ := tryGenesisInit_moves ((hs.moves m₁).moves m₂) hinit hnodup
  exact (m₁.trans m₂).trans m₃

theorem beginEpoch_minted (h : s.beginEpoch env prev E commitments = .ok s') :
    s.allActivePartitions <+: s'.allActivePartitions := by
  obtain ⟨mid, hmid, hinit⟩ := beginEpoch_eq_ok h
  obtain ⟨state, rfl⟩ := computeCommitmentState_eq_ok hmid
  rcases tryGenesisInit_eq_ok hinit with rfl | ⟨-, ledgers, n, -, rfl⟩
  · exact prefix_rfl
  · rw [assignPartitionHashesToPledges_minted]
    exact prefix_append _ _

/-! ### The epoch block -/

theorem performEpochTasks_minted (h : s.performEpochTasks env prev E commitments = .ok s') :
    s.allActivePartitions <+: s'.allActivePartitions := by
  obtain ⟨s₁, h₁, h⟩ := bind_eq_ok.mp h
  obtain ⟨s₂, h₂, h₃⟩ := bind_eq_ok.mp h
  have e := turnLedgers_minted h₂
  exact (beginEpoch_minted h₁).trans (e ▸ (reassignPartitions_spec h₃).2)

/-- **An epoch block whose pledges are new takes the registry through steps of its own**, as long
as no partition hash repeats. -/
theorem performEpochTasks_moves (hs : s.Booked)
    (hfresh : s.commitmentState.PledgesFresh commitments)
    (h : s.performEpochTasks env prev E commitments = .ok s')
    (hnodup : s'.allActivePartitions.Nodup) : s.Moves s' := by
  obtain ⟨s₁, h₁, h⟩ := bind_eq_ok.mp h
  obtain ⟨s₂, h₂, h₃⟩ := bind_eq_ok.mp h
  have hnodup₂ : s₂.allActivePartitions.Nodup :=
    hnodup.sublist (reassignPartitions_spec h₃).2.sublist
  have hnodup₁ : s₁.allActivePartitions.Nodup := turnLedgers_minted h₂ ▸ hnodup₂
  have m₁ := beginEpoch_moves hs hfresh h₁ hnodup₁
  have m₂ := turnLedgers_moves (hs.moves m₁) h₂
  have m₃ := reassignPartitions_moves ((hs.moves m₁).moves m₂) h₃ hnodup
  exact (m₁.trans m₂).trans m₃

/-! ### Before genesis -/

theorem ledgers_new_core {config : ConsensusConfig} {ledger : DataLedger}
    {core : LedgerCore} (h : (Ledgers.new config cascade).get? ledger = some core) :
    core = { slots := [], numPartitionsPerSlot := config.numPartitionsPerSlot } := by
  obtain ⟨rfl, rfl⟩ | ⟨hp, t, ht, -, rfl⟩ := Ledgers.get?_cases h
  · rfl
  · have hmem := mem_of_find?_eq_some ht
    simp only [Ledgers.new, mem_cons] at hmem
    rcases hmem with rfl | hmem
    · rfl
    · split at hmem
      · simp only [Ledgers.cascadeLedgers, mem_cons, not_mem_nil, or_false] at hmem
        rcases hmem with rfl | rfl <;> rfl
      · cases hmem

theorem ledgers_new_table (config : ConsensusConfig) (cascade : Bool) (slot : DataLedger × ℕ) :
    (Ledgers.new config cascade).partitionsIn slot = [] ∧
      (Ledgers.new config cascade).expiredIn slot = false := by
  obtain ⟨ledger, i⟩ := slot
  refine Prod.mk.inj (?_ : Ledgers.shownIn _ ledger i = ([], false))
  cases hget : (Ledgers.new config cascade).get? ledger with
  | none => exact Ledgers.shownIn_of_none hget i
  | some core =>
    rw [Ledgers.shownIn_of_get? hget, ledgers_new_core hget]
    rfl

/-- **Before genesis there is nothing to book.** -/
theorem empty_booked (genesisBlock : IrysBlockHeader) (config : Config) :
    (EpochSnapshot.empty genesisBlock config).Booked := by
  have htable := ledgers_new_table config.toConsensusConfig
    (config.hardforks.cascadeForBlock genesisBlock.timestampSecs)
  have hheld : ∀ x, (EpochSnapshot.empty genesisBlock config).registry.held x = none := by
    intro x
    simp [registry, EpochSnapshot.empty, getAssignment_eq]
  have hclaims : ∀ m, (EpochSnapshot.empty genesisBlock config).registry.claims m = [] := by
    intro m
    simp [registry, EpochSnapshot.empty, CommitmentState.pledgesOf]
  have hbins : ∀ b, (EpochSnapshot.empty genesisBlock config).registry.bins b = [] :=
    fun b => (htable b).1
  refine ⟨⟨⟨ledgers_new_shape _ _, ?_⟩, ⟨?_, ?_, ?_⟩, ⟨?_, ?_, ?_⟩⟩, ?_⟩
  · intro ledger core hget
    rw [ledgers_new_core hget]
    rfl
  iterate 6 simp [EpochSnapshot.empty, CommitmentState.pledgesOf]
  refine ⟨nodup_nil, nodup_nil, fun x _ => hheld x, ?_, ?_, ?_, ?_, ?_, fun b _ => hbins b, ?_, ?_⟩
  · simp only [hheld]
    simp [registry, EpochSnapshot.empty]
  all_goals simp [hheld, hbins, hclaims]

end EpochSnapshot

end Irys
