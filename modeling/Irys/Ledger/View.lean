import Irys.Ledger.Expiry

/-!
# The ledgers as a table of slots

What the partition bookkeeping sees of the ledgers: for each slot of each ledger, the partitions
it lists and whether it is expired.

* the changes of an epoch: `allocate`, `touch` and Cascade activation leave the table alone,
  expiry sets flags, and a push or a removal changes one list.
-/

namespace Irys

open List

namespace Ledgers

variable {ε : Type} {L L' : Ledgers} {ledger : DataLedger} {core : LedgerCore} {i : ℕ}

/-! ### The table -/

/-- Whether the slot at an index is expired. -/
def expiredAt (slots : List LedgerSlot) (slotIndex : ℕ) : Bool :=
  (slots[slotIndex]?).any (·.isExpired)

/-- The partitions of a slot; none where there is no such slot. -/
def partitionsIn (L : Ledgers) (slot : DataLedger × ℕ) : List PartitionHash :=
  ((L.get? slot.1).map fun core => partitionsAt core.slots slot.2).getD []

/-- Whether a slot is expired. -/
def expiredIn (L : Ledgers) (slot : DataLedger × ℕ) : Bool :=
  (L.get? slot.1).any fun core => expiredAt core.slots slot.2

/-- What the table shows of the slot at an index. -/
def shownAt (slots : List LedgerSlot) (i : ℕ) : List PartitionHash × Bool :=
  (partitionsAt slots i, expiredAt slots i)

/-- What the table shows of a slot. -/
def shownIn (L : Ledgers) (ledger : DataLedger) (i : ℕ) : List PartitionHash × Bool :=
  (L.partitionsIn (ledger, i), L.expiredIn (ledger, i))

theorem shownAt_eq (slots : List LedgerSlot) (i : ℕ) : shownAt slots i =
    ((slots[i]?).map fun slot => (slot.partitions, slot.isExpired)).getD ([], false) := by
  rw [shownAt, partitionsAt, expiredAt]
  cases slots[i]? <;> rfl

theorem shownIn_of_get? (h : L.get? ledger = some core) (i : ℕ) :
    L.shownIn ledger i = shownAt core.slots i := by
  simp [shownIn, shownAt, partitionsIn, expiredIn, h]

theorem shownIn_of_none (h : L.get? ledger = none) (i : ℕ) : L.shownIn ledger i = ([], false) := by
  simp [shownIn, partitionsIn, expiredIn, h]

theorem partitionsIn_of_get? (h : L.get? ledger = some core) (i : ℕ) :
    L.partitionsIn (ledger, i) = partitionsAt core.slots i :=
  congrArg Prod.fst (shownIn_of_get? h i)

theorem expiredIn_of_get? (h : L.get? ledger = some core) (i : ℕ) :
    L.expiredIn (ledger, i) = expiredAt core.slots i :=
  congrArg Prod.snd (shownIn_of_get? h i)

/-- Every ledger has a known id and wants `n` replicas of each slot. -/
structure Uniform (n : ℕ) (L : Ledgers) : Prop where
  shape : L.Shape
  replicas : ∀ ledger core, L.get? ledger = some core → core.numPartitionsPerSlot = n

/-! ### Changes of slots -/

/-- `L'` is `L` with the slots of each ledger rewritten by `g`. -/
structure Rewrites (g : DataLedger → List LedgerSlot → List LedgerSlot) (L L' : Ledgers) : Prop where
  frame : L'.frame = L.frame
  get? : ∀ ledger core, L.get? ledger = some core →
    L'.get? ledger = some { core with slots := g ledger core.slots }

variable {g : DataLedger → List LedgerSlot → List LedgerSlot}

section

variable (h : Rewrites g L L')
include h

theorem Rewrites.get?_eq (ledger : DataLedger) : L'.get? ledger =
    (L.get? ledger).map fun core => { core with slots := g ledger core.slots } := by
  cases hget : L.get? ledger with
  | some core => exact h.get? ledger core hget
  | none =>
    rw [Option.map_none, ← Option.not_isSome_iff_eq_none, get?_isSome_iff] at *
    rwa [activeLedgers_eq_of_frame h.frame]

theorem Rewrites.uniform {n : ℕ} (hu : L.Uniform n) : L'.Uniform n := by
  refine ⟨hu.shape.of_frame h.frame, ?_⟩
  intro ledger core' hget'
  rw [h.get?_eq, Option.map_eq_some_iff] at hget'
  obtain ⟨core, hget, rfl⟩ := hget'
  exact hu.replicas ledger core hget

theorem Rewrites.partitionsIn_eq (slot : DataLedger × ℕ) : L'.partitionsIn slot =
    ((L.get? slot.1).map fun core => partitionsAt (g slot.1 core.slots) slot.2).getD [] := by
  rw [partitionsIn, h.get?_eq, Option.map_map]
  rfl

theorem Rewrites.expiredIn_eq (slot : DataLedger × ℕ) : L'.expiredIn slot =
    (L.get? slot.1).any fun core => expiredAt (g slot.1 core.slots) slot.2 := by
  rw [expiredIn, h.get?_eq, Option.any_map]

/-- The two ledger states show the same table. -/
structure SameTable (L L' : Ledgers) : Prop where
  partitions : L'.partitionsIn = L.partitionsIn
  expired : L'.expiredIn = L.expiredIn

omit h in
theorem SameTable.of_shown (h : ∀ ledger i, L'.shownIn ledger i = L.shownIn ledger i) :
    SameTable L L' :=
  ⟨funext fun slot => congrArg Prod.fst (h slot.1 slot.2),
    funext fun slot => congrArg Prod.snd (h slot.1 slot.2)⟩

theorem Rewrites.sameTable
    (hshown : ∀ ledger slots i, shownAt (g ledger slots) i = shownAt slots i) :
    SameTable L L' := by
  refine .of_shown fun ledger i => ?_
  have hget' := h.get?_eq ledger
  cases hget : L.get? ledger with
  | none =>
    rw [hget] at hget'
    rw [shownIn_of_none hget, shownIn_of_none hget']
  | some core => rw [shownIn_of_get? hget, shownIn_of_get? (h.get? _ _ hget), hshown]

end

/-- `L'` is `L` with the slots of one ledger rewritten by `g`. -/
structure RewritesOne (ledger : DataLedger) (g : List LedgerSlot → List LedgerSlot)
    (L L' : Ledgers) : Prop where
  frame : L'.frame = L.frame
  self : L'.get? ledger = (L.get? ledger).map fun core => { core with slots := g core.slots }
  other : ∀ other, other ≠ ledger → L'.get? other = L.get? other

theorem rewritesOne_set? {g : List LedgerSlot → List LedgerSlot} (hget : L.get? ledger = some core)
    (h : L.set? ledger { core with slots := g core.slots } = some L') :
    RewritesOne ledger g L L' := by
  refine ⟨frame_set? h, ?_, fun _ hne => get?_set?_of_ne h hne⟩
  rw [get?_set?_self h, hget]
  rfl

theorem RewritesOne.rewrites {g : List LedgerSlot → List LedgerSlot}
    (h : RewritesOne ledger g L L') :
    Rewrites (fun l slots => if l = ledger then g slots else slots) L L' := by
  refine ⟨h.frame, fun other core hget => ?_⟩
  by_cases ho : other = ledger
  · subst ho
    simp only [h.self, hget, Option.map_some, if_true]
  · simp only [h.other other ho, hget, ho, if_false]

/-- **A loop over all ledgers**, each rewritten in its turn. -/
theorem foldlM_rewrites {σ : Type} (view : σ → Ledgers) {f : σ → DataLedger → Res ε σ} {s s' : σ}
    (hstep : ∀ s ledger s', f s ledger = .ok s' →
      RewritesOne ledger (g ledger) (view s) (view s'))
    (hs : (view s).Shape) (h : (view s).activeLedgers.foldlM f s = .ok s') :
    Rewrites g (view s) (view s') := by
  refine ⟨foldlM_preserves (fun s => (view s).frame) _ (fun s l s' h => (hstep s l s' h).frame) h,
    ?_⟩
  intro ledger core hget
  rw [foldlM_view (fun s ledger => (view s).get? ledger)
    (fun ledger core => { core with slots := g ledger core.slots }) _
    (fun s l s' h => (hstep s l s' h).self) (fun s l s' h => (hstep s l s' h).other) hs.nodup h
    ledger, if_pos (mem_activeLedgers_iff.mpr ⟨_, hget⟩), hget]
  rfl

/-! ### The changes of an epoch -/

section

variable (slots : List LedgerSlot)

theorem shownAt_appendSlots (n height i : ℕ) :
    shownAt (appendSlots slots n height) i = shownAt slots i := by
  rw [shownAt_eq, shownAt_eq]
  by_cases hi : i < slots.length
  · rw [getElem?_appendSlots_of_lt n height hi]
  · rw [getElem?_eq_none (Nat.le_of_not_lt hi)]
    cases hget : (appendSlots slots n height)[i]? with
    | none => rfl
    | some slot =>
      rw [getElem?_appendSlots_of_ge (Nat.le_of_not_lt hi) hget]
      rfl

theorem shownAt_touchFilledSlots (prev new C height : ℕ) (refresh : Bool) (i : ℕ) :
    shownAt (touchFilledSlots slots prev new C height refresh) i = shownAt slots i := by
  rw [shownAt_eq, getElem?_touchFilledSlots, shownAt_eq, Option.map_map]
  congr 2
  funext slot
  simp only [Function.comp_apply]
  split <;> rfl

end

theorem activateCascade_new {config : ConsensusConfig} (hnone : L.get? ledger = none)
    (hget : (L.activateCascade config).get? ledger = some core) :
    core = { slots := [], numPartitionsPerSlot := config.numPartitionsPerSlot } := by
  have hp : ledger ≠ .publish := by
    rintro rfl
    cases hnone
  rcases activateCascade_cases L config with heq | ⟨-, c, -, heq⟩
  · rw [heq, hnone] at hget
    cases hget
  · rw [get?_term hp, Option.map_eq_none_iff] at hnone
    rw [heq, get?_term hp, find?_append, hnone, Option.none_or] at hget
    obtain ⟨t, ht, rfl⟩ := Option.map_eq_some_iff.mp hget
    have hmem := mem_of_find?_eq_some ht
    simp only [cascadeLedgers, mem_cons, not_mem_nil, or_false] at hmem
    rcases hmem with rfl | rfl <;> rfl

theorem sameTable_activateCascade (L : Ledgers) (config : ConsensusConfig) :
    SameTable L (L.activateCascade config) := by
  refine .of_shown fun ledger i => ?_
  cases hget : L.get? ledger with
  | some core => rw [shownIn_of_get? hget, shownIn_of_get? (get?_activateCascade config hget)]
  | none =>
    rw [shownIn_of_none hget]
    cases hget' : (L.activateCascade config).get? ledger with
    | none => exact shownIn_of_none hget' i
    | some core =>
      rw [shownIn_of_get? hget', activateCascade_new hget hget']
      rfl

theorem Uniform.activateCascade {config : ConsensusConfig}
    (h : L.Uniform config.numPartitionsPerSlot) :
    (L.activateCascade config).Uniform config.numPartitionsPerSlot := by
  refine ⟨h.shape.activateCascade config, ?_⟩
  intro ledger core' hget'
  cases hget : L.get? ledger with
  | none => rw [activateCascade_new hget hget']
  | some core =>
    have heq : some core' = some core := hget'.symm.trans (get?_activateCascade config hget)
    rw [Option.some.inj heq]
    exact h.replicas ledger core hget

theorem expiredAt_markExpired (slots : List LedgerSlot) (indexes : List ℕ) (i : ℕ) :
    expiredAt (markExpired slots indexes) i =
      (expiredAt slots i || (slots[i]?).any fun _ => decide (i ∈ indexes)) := by
  rw [expiredAt, getElem?_markExpired, expiredAt]
  cases hget : slots[i]? with
  | none => rfl
  | some slot =>
    by_cases hi : i ∈ indexes
    · simp [hi, LedgerSlot.expire]
    · simp [hi]

/-- **Expiry in the table**: lists stay, flags are only set, and the partitions of a slot whose
flag was set are all reported. -/
theorem expirePartitions_table {height : ℕ} {cascade : Bool} {totals : DataLedger → ℕ} {C : ℕ}
    {infos : List ExpiringPartitionInfo} (hs : L.Shape)
    (h : (L.expirePartitions height cascade totals C : Res ε _) = .ok (L', infos)) :
    L'.partitionsIn = L.partitionsIn ∧
      (∀ slot, L.expiredIn slot = true → L'.expiredIn slot = true) ∧
      (∀ slot, L'.expiredIn slot = true → L.expiredIn slot = true ∨
        ∀ hash ∈ L.partitionsIn slot, ∃ info ∈ infos, info.partitionHash = hash) ∧
      ∀ n, L.Uniform n → L'.Uniform n := by
  have hrewrites : Rewrites (fun ledger slots => markExpired slots
      ((dueSlots (L.lifetime ledger) slots height cascade (totals ledger) C).map (·.2))) L L' :=
    ⟨expirePartitions_frame h, fun _ _ hget => (expirePartitions_spec hs h hget).1⟩
  refine ⟨?_, ?_, ?_, fun n hu => hrewrites.uniform hu⟩
  · funext slot
    simp only [hrewrites.partitionsIn_eq, partitionsAt_markExpired]
    rfl
  · intro slot hexp
    rw [hrewrites.expiredIn_eq]
    obtain ⟨core, hget, hexp⟩ := (Option.any_eq_true _ _).mp hexp
    rw [hget, Option.any_some, expiredAt_markExpired, hexp]
    rfl
  · rintro ⟨ledger, i⟩ hexp
    rw [hrewrites.expiredIn_eq] at hexp
    obtain ⟨core, hget, hexp⟩ := (Option.any_eq_true _ _).mp hexp
    rw [expiredAt_markExpired, Bool.or_eq_true] at hexp
    rcases hexp with hexp | hexp
    · exact .inl (by rwa [expiredIn_of_get? hget])
    · right
      intro hash hmem
      obtain ⟨slot, hslot, hdue⟩ := (Option.any_eq_true _ _).mp hexp
      rw [decide_eq_true_eq] at hdue
      obtain ⟨⟨slot', j⟩, hmem', rfl⟩ := List.mem_map.mp hdue
      obtain ⟨m, hm, hexpires⟩ := mem_dueSlots.mp hmem'
      have hsame : slot' = slot := Option.some.inj (hexpires.at_index.symm.trans hslot)
      rw [partitionsIn_of_get? hget, partitionsAt, hslot] at hmem
      -- the report of the slot names each of its partitions
      have hinfo : (⟨hash, ledger, j⟩ : ExpiringPartitionInfo) ∈
          infos.filter (·.ledgerId == ledger) := by
        rw [(expirePartitions_spec hs h hget).2]
        refine mem_flatMap.mpr ⟨(j, slot'.partitions), ?_, ?_⟩
        · exact Turn.mem_keyed.mpr ⟨slot', hmem', rfl⟩
        · exact List.mem_map.mpr ⟨hash, hsame ▸ hmem, rfl⟩
      exact ⟨_, (mem_filter.mp hinfo).1, rfl⟩

theorem expiredIn_of_bare (h : L'.bare = L.bare) : L'.expiredIn = L.expiredIn := by
  have hflag : ∀ (M : Ledgers) slot, M.expiredIn slot = M.bare.expiredIn slot := by
    intro M slot
    rw [expiredIn, expiredIn, get?_bare, Option.any_map]
    congr 1
    funext core
    simp only [expiredAt, bareCore, getElem?_map, Option.any_map]
    rfl
  funext slot
  rw [hflag, h, ← hflag]

theorem exists_slot_of_bare (h : L'.bare = L.bare)
    (hthere : ∃ core, L.get? ledger = some core ∧ i < core.slots.length) :
    ∃ core, L'.get? ledger = some core ∧ i < core.slots.length := by
  obtain ⟨core, hget, hi⟩ := hthere
  obtain ⟨core', hget', hslots⟩ := get?_of_bare h hget
  have hlen := congrArg List.length hslots
  rw [length_map, length_map] at hlen
  exact ⟨core', hget', hlen ▸ hi⟩

/-! ### One slot -/

theorem set?_of_get? (h : L.get? ledger = some core) (core' : LedgerCore) :
    ∃ L', L.set? ledger core' = some L' := by
  obtain ⟨rfl, -⟩ | ⟨hp, t, ht, hid, -⟩ := get?_cases h
  · exact ⟨_, rfl⟩
  · rw [set?_term hp]
    have hsome : (updateFirst (·.ledgerId == ledger) (·.withCore core') L.term).isSome = true :=
      updateFirst_isSome_iff.mpr (List.mem_map.mpr ⟨t, mem_of_find?_eq_some ht, hid⟩)
    obtain ⟨term, hterm⟩ := Option.isSome_iff_exists.mp hsome
    exact ⟨_, by rw [hterm]; rfl⟩

variable {f : LedgerSlot → LedgerSlot}

theorem modifySlot?_isSome_iff :
    (∃ L', L.modifySlot? ledger i f = some L') ↔
      ∃ core, L.get? ledger = some core ∧ i < core.slots.length := by
  simp only [modifySlot?_eq_some]
  constructor
  · rintro ⟨L', core, hget, hi, -⟩
    exact ⟨core, hget, hi⟩
  · rintro ⟨core, hget, hi⟩
    obtain ⟨L', hset⟩ := set?_of_get? hget { core with slots := core.slots.modify i f }
    exact ⟨L', core, hget, hi, hset⟩

theorem rewrites_modifySlot? (h : L.modifySlot? ledger i f = some L') :
    Rewrites (fun l slots => if l = ledger then slots.modify i f else slots) L L' := by
  obtain ⟨core, hget, -, hset⟩ := modifySlot?_eq_some.mp h
  exact (rewritesOne_set? hget hset).rewrites

theorem partitionsAt_modify {slots : List LedgerSlot} {j : ℕ} :
    partitionsAt (slots.modify i f) j =
      if j = i then ((slots[i]?).map fun slot => (f slot).partitions).getD []
      else partitionsAt slots j := by
  rw [partitionsAt, getElem?_modify, Option.map_eq_map, Option.map_map]
  by_cases hj : j = i
  · subst hj
    simp [Function.comp_def]
  · have hij : ¬ i = j := fun h => hj h.symm
    simp [hj, hij, partitionsAt, Function.comp_def]

theorem expiredAt_modify {slots : List LedgerSlot} {j : ℕ}
    (hf : ∀ slot, (f slot).isExpired = slot.isExpired) :
    expiredAt (slots.modify i f) j = expiredAt slots j := by
  rw [expiredAt, getElem?_modify, Option.map_eq_map, Option.any_map, expiredAt]
  congr 1
  funext slot
  split
  · exact hf slot
  · rfl

theorem expiredIn_modifySlot? (h : L.modifySlot? ledger i f = some L')
    (hf : ∀ slot, (f slot).isExpired = slot.isExpired) : L'.expiredIn = L.expiredIn := by
  funext slot
  rw [(rewrites_modifySlot? h).expiredIn_eq, expiredIn]
  congr 1
  funext core
  split
  · exact expiredAt_modify hf
  · rfl

theorem partitionsIn_modifySlot? {F : List PartitionHash → List PartitionHash}
    (h : L.modifySlot? ledger i f = some L')
    (hf : ∀ slot, (f slot).partitions = F slot.partitions) :
    L'.partitionsIn =
      Function.update L.partitionsIn (ledger, i) (F (L.partitionsIn (ledger, i))) := by
  obtain ⟨core₀, hget₀, hi⟩ := modifySlot?_isSome_iff.mp ⟨L', h⟩
  funext ⟨l, j⟩
  rw [(rewrites_modifySlot? h).partitionsIn_eq]
  by_cases hl : l = ledger
  · subst hl
    simp only [hget₀, Option.map_some, Option.getD_some, if_true, partitionsAt_modify,
      Function.update_apply, partitionsIn_of_get? hget₀]
    by_cases hj : j = i
    · subst hj
      rw [if_pos rfl, if_pos rfl, partitionsAt, getElem?_eq_getElem hi]
      exact hf _
    · simp [hj]
  · simp only [hl, if_false]
    rw [Function.update_of_ne (by simp [hl])]
    rfl

end Ledgers

end Irys
