import Irys.Ledger.Ledgers

/-!
# What the ledger operations do, ledger by ledger

The operations on `Ledgers` loop over all ledgers at once.  Here each is described by what one
ledger sees of it.

* `activateCascade_get?` — activation adds ledgers and touches none.
-/

namespace Irys

open List

variable {ε : Type}

namespace TermLedger

/-- The slots of a term ledger that are due. -/
def due (t : TermLedger) (height : ℕ) (cascade : Bool) (total C : ℕ) : List (LedgerSlot × ℕ) :=
  expiringSlots t.slots (t.epochLength * t.numBlocksInEpoch) height cascade total C

variable {t : TermLedger}

theorem minBlocks_eq_ok {m : ℕ} (h : (t.minBlocks : Res ε ℕ) = .ok m) :
    m = t.epochLength * t.numBlocksInEpoch := by
  rw [minBlocks, expect_eq_ok, checkedMul_eq_some] at h
  exact h.2

variable {height total C : ℕ} {cascade : Bool} {indexes : List ℕ}

theorem getExpiredSlotIndexes_eq_ok
    (h : (t.getExpiredSlotIndexes height cascade total C : Res ε _) = .ok indexes) :
    indexes = (t.due height cascade total C).map (·.2) := by
  obtain ⟨m, hm, hret⟩ := bind_eq_ok.mp h
  cases hret
  rw [due, minBlocks_eq_ok hm]

theorem expireOldSlots_eq_ok {t' : TermLedger}
    (h : (t.expireOldSlots height cascade total C : Res ε _) = .ok (t', indexes)) :
    indexes = (t.due height cascade total C).map (·.2) ∧
      t' = { t with slots := markExpired t.slots indexes } := by
  obtain ⟨idx, hidx, hret⟩ := bind_eq_ok.mp h
  cases hret
  exact ⟨getExpiredSlotIndexes_eq_ok hidx, rfl⟩

end TermLedger

namespace Ledgers

/-! ### Reports -/

/-- The reports for a set of slots. -/
def infosFor (ledger : DataLedger) (slots : List (ℕ × List PartitionHash)) :
    List ExpiringPartitionInfo :=
  slots.flatMap fun p => infosOf ledger p.1 p.2

theorem filter_infosFor (ledger other : DataLedger) (slots : List (ℕ × List PartitionHash)) :
    (infosFor ledger slots).filter (·.ledgerId == other) =
      if ledger = other then infosFor ledger slots else [] := by
  have hid : ∀ info ∈ infosFor ledger slots, info.ledgerId = ledger := by
    intro info hinfo
    obtain ⟨p, -, hp⟩ := mem_flatMap.mp hinfo
    obtain ⟨hash, -, rfl⟩ := List.mem_map.mp hp
    rfl
  split
  · rename_i h
    apply filter_eq_self.mpr
    intro info hinfo
    simp [hid info hinfo, h]
  · rename_i h
    apply filter_eq_nil_iff.mpr
    intro info hinfo
    simp [hid info hinfo, h]

theorem partitionsAt_markExpired (slots : List LedgerSlot) (indexes : List ℕ) (i : ℕ) :
    partitionsAt (markExpired slots indexes) i = partitionsAt slots i := by
  rw [partitionsAt, getElem?_markExpired, partitionsAt, Option.map_map]
  congr 2
  funext slot
  simp only [Function.comp_apply]
  split <;> rfl

variable {height C slotIndex total : ℕ} {cascade : Bool} {t : TermLedger}
    {slots : List LedgerSlot} {totals : DataLedger → ℕ} {terms : List TermLedger}
    {L : Ledgers} {hash : PartitionHash}

theorem map_partitionsAt_due {m : ℕ} {β : Type}
    (g : ℕ → List PartitionHash → β) :
    ((expiringSlots slots m height cascade total C).map (·.2)).map
        (fun i => g i (partitionsAt slots i)) =
      (Turn.keyed (expiringSlots slots m height cascade total C)).map fun p => g p.1 p.2 := by
  rw [Turn.keyed, List.map_map, List.map_map]
  apply map_congr_left
  rintro ⟨slot, i⟩ hmem
  have hat := (mem_expiringSlots.mp hmem).at_index
  simp [partitionsAt, hat]

/-! ### The term-ledger loops -/

/-- What expiry makes of one term ledger. -/
def expiredTerm (height : ℕ) (cascade : Bool) (totals : DataLedger → ℕ) (C : ℕ)
    (t : TermLedger) : TermLedger :=
  { t with
    slots := markExpired t.slots ((t.due height cascade (totals t.ledgerId) C).map (·.2)) }

/-- What expiry reports of one term ledger. -/
def termInfos (height : ℕ) (cascade : Bool) (totals : DataLedger → ℕ) (C : ℕ) (t : TermLedger) :
    List ExpiringPartitionInfo :=
  infosFor t.ledgerId (Turn.keyed (t.due height cascade (totals t.ledgerId) C))

/-- **The expiry loop**: every term ledger by itself. -/
theorem expireTerms_eq_ok {terms' : List TermLedger}
    {infos : List ExpiringPartitionInfo}
    (h : (expireTerms height cascade totals C terms : Res ε _) = .ok (terms', infos)) :
    terms' = terms.map (expiredTerm height cascade totals C) ∧
      infos = terms.flatMap (termInfos height cascade totals C) := by
  induction terms generalizing terms' infos with
  | nil =>
    cases h
    exact ⟨rfl, rfl⟩
  | cons t terms ih =>
    obtain ⟨⟨t', indexes⟩, ht, hrest⟩ := bind_eq_ok.mp h
    obtain ⟨⟨ts', rest⟩, hts, hret⟩ := bind_eq_ok.mp hrest
    cases hret
    obtain ⟨hidx, ht'⟩ := TermLedger.expireOldSlots_eq_ok ht
    obtain ⟨hterms, hinfos⟩ := ih hts
    subst hidx ht' hterms hinfos
    refine ⟨rfl, ?_⟩
    rw [flatMap_cons, termInfos, infosFor]
    congr 1
    simp only [partitionsAt_markExpired]
    rw [flatMap_def, TermLedger.due, map_partitionsAt_due (infosOf t.ledgerId), flatMap_def]

theorem expiringTermSlots_eq_ok
    {slots : List (DataLedger × ℕ × List PartitionHash)}
    (h : (expiringTermSlots height cascade totals C terms : Res ε _) = .ok slots) :
    slots = terms.flatMap fun t =>
      (Turn.keyed (t.due height cascade (totals t.ledgerId) C)).map fun p =>
        (t.ledgerId, p.1, p.2) := by
  induction terms generalizing slots with
  | nil =>
    cases h
    rfl
  | cons t terms ih =>
    obtain ⟨indexes, ht, hrest⟩ := bind_eq_ok.mp h
    obtain ⟨rest, hts, hret⟩ := bind_eq_ok.mp hrest
    cases hret
    rw [TermLedger.getExpiredSlotIndexes_eq_ok ht, ih hts, flatMap_cons]
    congr 1
    rw [TermLedger.due, map_partitionsAt_due (fun i ps => (t.ledgerId, i, ps))]

/-! ### The passes over all ledgers -/

theorem getPermExpiringSlots_eq_ok
    {slots : List (ℕ × List PartitionHash × DataLedger)}
    (h : (L.getPermExpiringSlots height cascade total C : Res ε _) = .ok slots) :
    slots = (Turn.keyed (dueSlots (L.lifetime .publish) L.perm.slots height cascade total C)).map
      fun p => (p.1, p.2, .publish) := by
  rw [getPermExpiringSlots] at h
  cases hlen : L.publishLedgerEpochLength with
  | none =>
    rw [hlen] at h
    cases h
    simp [lifetime, hlen, dueSlots, Turn.keyed]
  | some n =>
    rw [hlen] at h
    obtain ⟨m, hm, hret⟩ := bind_eq_ok.mp h
    cases hret
    rw [expect_eq_ok, checkedMul_eq_some] at hm
    simp [lifetime, hlen, dueSlots, Turn.keyed, hm.2]

/-- The due slots of a ledger, behind its id. -/
def dueOf (L : Ledgers) (ledger : DataLedger) (core : LedgerCore) (height : ℕ) (cascade : Bool)
    (total C : ℕ) : List (LedgerSlot × ℕ) :=
  dueSlots (L.lifetime ledger) core.slots height cascade total C

theorem dueOf_term {ledger : DataLedger} (hp : ledger ≠ .publish)
    (ht : L.term.find? (·.ledgerId == ledger) = some t) (height : ℕ) (cascade : Bool)
    (total C : ℕ) :
    L.dueOf ledger t.toLedgerCore height cascade total C = t.due height cascade total C := by
  rw [dueOf, lifetime_term hp, ht]
  rfl

variable {L' : Ledgers} {infos : List ExpiringPartitionInfo} {ledger : DataLedger}
  {core : LedgerCore}

theorem Shape.find?_publish (hs : L.Shape) : L.term.find? (·.ledgerId == .publish) = none := by
  rw [find?_eq_none]
  intro t ht heq
  rw [beq_iff_eq] at heq
  exact (nodup_cons.mp hs.nodup).1 (List.mem_map.mpr ⟨t, ht, heq⟩)

theorem expirePartitions_frame
    (h : (L.expirePartitions height cascade totals C : Res ε _) = .ok (L', infos)) :
    L'.frame = L.frame := by
  obtain ⟨permSlots, -, hrest⟩ := bind_eq_ok.mp h
  obtain ⟨⟨term, rest⟩, hterm, hret⟩ := bind_eq_ok.mp hrest
  cases hret
  rw [frame, frame, (expireTerms_eq_ok hterm).1, List.map_map]
  rfl

/-- **Expiry, ledger by ledger**: the due slots are marked, nothing else changes, and the
reports naming the ledger are those of its due slots. -/
theorem expirePartitions_spec (hs : L.Shape)
    (h : (L.expirePartitions height cascade totals C : Res ε _) = .ok (L', infos))
    (hget : L.get? ledger = some core) :
    L'.get? ledger = some { core with
        slots := markExpired core.slots
          ((L.dueOf ledger core height cascade (totals ledger) C).map (·.2)) } ∧
      infos.filter (·.ledgerId == ledger) =
        infosFor ledger (Turn.keyed (L.dueOf ledger core height cascade (totals ledger) C)) := by
  obtain ⟨permSlots, hperm, hrest⟩ := bind_eq_ok.mp h
  obtain ⟨⟨term, rest⟩, hterm, hret⟩ := bind_eq_ok.mp hrest
  cases hret
  obtain ⟨hterms, hinfos⟩ := expireTerms_eq_ok hterm
  have hpermSlots := getPermExpiringSlots_eq_ok hperm
  have hpermInfos : (permSlots.flatMap fun p => infosOf p.2.2 p.1 p.2.1) = infosFor .publish
        (Turn.keyed (L.dueOf .publish L.perm height cascade (totals .publish) C)) := by
    rw [hpermSlots, infosFor, flatMap_map]
    rfl
  -- the reports of the term ledgers that name `ledger`
  have hterminfos : rest.filter (·.ledgerId == ledger) =
      ((L.term.find? (·.ledgerId == ledger)).map
        (termInfos height cascade totals C)).getD [] := by
    rw [hinfos, filter_flatMap, ← flatMap_at_key _ (nodup_cons.mp hs.nodup).2]
    apply flatMap_congr
    intro t _
    exact filter_infosFor _ _ _
  rw [filter_append, hterminfos, hpermInfos, filter_infosFor]
  obtain ⟨rfl, rfl⟩ | ⟨hp, t, ht, hid, rfl⟩ := get?_cases hget
  · refine ⟨?_, by simp [hs.find?_publish]⟩
    have hidx : permSlots.map (·.1) =
        (L.dueOf .publish L.perm height cascade (totals .publish) C).map (·.2) := by
      rw [hpermSlots, List.map_map, Turn.keyed, List.map_map]
      rfl
    simp only [get?, hidx]
  · rw [if_neg (fun h => hp h.symm), nil_append, ht, Option.map_some, Option.getD_some]
    have hdue := dueOf_term hp ht height cascade (totals ledger) C
    refine ⟨?_, ?_⟩
    · rw [get?_term hp]
      show ((term.find? _).map _) = _
      rw [hterms, find?_map]
      show Option.map _ (Option.map _ (L.term.find? (·.ledgerId == ledger))) = _
      rw [ht, hdue, ← hid]
      rfl
    · rw [termInfos, hdue, hid]

/-- **The read-only view, ledger by ledger**: the due slots with their partitions. -/
theorem getExpiringSlots_spec (hs : L.Shape)
    {slots : List (DataLedger × ℕ × List PartitionHash)}
    (h : (L.getExpiringSlots height cascade totals C : Res ε _) = .ok slots)
    (hget : L.get? ledger = some core) :
    (slots.filter (·.1 == ledger)).map (·.2) =
      Turn.keyed (L.dueOf ledger core height cascade (totals ledger) C) := by
  obtain ⟨permSlots, hperm, hrest⟩ := bind_eq_ok.mp h
  obtain ⟨termSlots, hterm, hret⟩ := bind_eq_ok.mp hrest
  cases hret
  have htermSlots : (termSlots.filter (·.1 == ledger)).map (·.2) =
      ((L.term.find? (·.ledgerId == ledger)).map fun t =>
        Turn.keyed (t.due height cascade (totals t.ledgerId) C)).getD [] := by
    rw [expiringTermSlots_eq_ok hterm, filter_flatMap, map_flatMap,
      ← flatMap_at_key _ (nodup_cons.mp hs.nodup).2]
    apply flatMap_congr
    intro t _
    split <;> rename_i hid <;> simp [List.filter_map, Function.comp_def, hid]
  rw [filter_append, map_append, htermSlots, getPermExpiringSlots_eq_ok hperm]
  obtain ⟨rfl, rfl⟩ | ⟨hp, t, ht, hid, rfl⟩ := get?_cases hget
  · rw [hs.find?_publish, dueOf]
    simp [List.filter_map, Function.comp_def]
  · have hne : ¬ DataLedger.publish = ledger := fun h => hp h.symm
    rw [dueOf_term hp ht, ht, ← hid]
    simp [List.filter_map, Function.comp_def, hid, hne]

/-! ### When the passes return -/

/-- No slot lifetime overflows. -/
structure LifetimesFit (L : Ledgers) : Prop where
  term : ∀ t ∈ L.term, t.epochLength * t.numBlocksInEpoch < 2 ^ 64
  perm : ∀ n ∈ L.publishLedgerEpochLength, n * L.numBlocksInEpoch < 2 ^ 64

theorem LifetimesFit.of_frame (h : L'.frame = L.frame) (hl : L.LifetimesFit) :
    L'.LifetimesFit := by
  obtain ⟨h1, h2, h3⟩ := frame_eq_iff.mp h
  refine ⟨?_, by rw [h2, h3]; exact hl.perm⟩
  intro t' ht'
  have hmem : t'.frame ∈ L.term.map TermLedger.frame := h1 ▸ List.mem_map_of_mem ht'
  obtain ⟨t, ht, heq⟩ := List.mem_map.mp hmem
  have hlen : t.epochLength = t'.epochLength := congrArg (fun f => f.2.1) heq
  have hnum : t.numBlocksInEpoch = t'.numBlocksInEpoch := congrArg (fun f => f.2.2) heq
  rw [← hlen, ← hnum]
  exact hl.term t ht

theorem lifetimesFit_of_expirePartitions
    (h : (L.expirePartitions height cascade totals C : Res ε _) = .ok (L', infos)) :
    L.LifetimesFit := by
  obtain ⟨permSlots, hperm, hrest⟩ := bind_eq_ok.mp h
  obtain ⟨⟨terms', infos'⟩, hterm, -⟩ := bind_eq_ok.mp hrest
  constructor
  · clear hperm hrest h
    generalize L.term = terms at hterm
    induction terms generalizing terms' infos' with
    | nil => simp
    | cons t terms ih =>
      obtain ⟨_, ht, hrest⟩ := bind_eq_ok.mp hterm
      obtain ⟨⟨ts', rest⟩, hts, -⟩ := bind_eq_ok.mp hrest
      obtain ⟨_, hidx, -⟩ := bind_eq_ok.mp ht
      obtain ⟨m, hm, -⟩ := bind_eq_ok.mp hidx
      rw [TermLedger.minBlocks, expect_eq_ok, checkedMul_eq_some] at hm
      rw [forall_mem_cons]
      exact ⟨hm.1, ih ts' rest hts⟩
  · intro n hn
    rw [getPermExpiringSlots, Option.mem_def.mp hn] at hperm
    obtain ⟨m, hm, -⟩ := bind_eq_ok.mp hperm
    rw [expect_eq_ok, checkedMul_eq_some] at hm
    exact hm.1

theorem TermLedger.minBlocks_of_fits (h : t.epochLength * t.numBlocksInEpoch < 2 ^ 64) :
    (t.minBlocks : Res ε ℕ) = .ok (t.epochLength * t.numBlocksInEpoch) := by
  rw [TermLedger.minBlocks, checkedMul_of_lt h]
  rfl

theorem LifetimesFit.getPermExpiringSlots (hl : L.LifetimesFit) (height : ℕ) (cascade : Bool)
    (total C : ℕ) : ∃ p, (L.getPermExpiringSlots height cascade total C : Res ε _) = .ok p := by
  rw [Ledgers.getPermExpiringSlots]
  cases hlen : L.publishLedgerEpochLength with
  | none => exact ⟨[], rfl⟩
  | some n =>
    refine ⟨_, bind_eq_ok.mpr ⟨n * L.numBlocksInEpoch, ?_, rfl⟩⟩
    rw [checkedMul_of_lt (hl.perm n hlen)]
    rfl

theorem LifetimesFit.getExpiringSlots (hl : L.LifetimesFit) (height : ℕ) (cascade : Bool)
    (totals : DataLedger → ℕ) (C : ℕ) :
    ∃ slots, (L.getExpiringSlots height cascade totals C : Res ε _) = .ok slots := by
  have hterm : ∃ p, (expiringTermSlots height cascade totals C L.term : Res ε _) = .ok p := by
    have hfit := hl.term
    generalize L.term = terms at hfit
    induction terms with
    | nil => exact ⟨[], rfl⟩
    | cons t terms ih =>
      rw [forall_mem_cons] at hfit
      obtain ⟨rest, hrest⟩ := ih hfit.2
      exact ⟨_, bind_eq_ok.mpr ⟨_, bind_eq_ok.mpr ⟨_, TermLedger.minBlocks_of_fits hfit.1, rfl⟩,
        bind_eq_ok.mpr ⟨rest, hrest, rfl⟩⟩⟩
  obtain ⟨p, hp⟩ := hl.getPermExpiringSlots height cascade (totals .publish) C
  obtain ⟨q, hq⟩ := hterm
  exact ⟨_, bind_eq_ok.mpr ⟨p, hp, bind_eq_ok.mpr ⟨q, hq, rfl⟩⟩⟩

/-! ### Cascade activation -/

theorem activateCascade_cases (L : Ledgers) (config : ConsensusConfig) :
    L.activateCascade config = L ∨
      (DataLedger.oneYear ∉ L.termIds ∧ ∃ c, config.hardforks.cascade = some c ∧
        L.activateCascade config = { L with term := L.term ++ cascadeLedgers config c }) := by
  rw [activateCascade]
  split
  · exact .inl rfl
  · rename_i h
    cases hc : config.hardforks.cascade with
    | none => exact .inl rfl
    | some c =>
      refine .inr ⟨?_, c, rfl, rfl⟩
      intro hmem
      obtain ⟨t, ht, hid⟩ := List.mem_map.mp hmem
      exact h (List.any_eq_true.mpr ⟨t, ht, by simp [hid]⟩)

theorem Shape.activateCascade (hs : L.Shape) (config : ConsensusConfig) :
    (L.activateCascade config).Shape := by
  rcases activateCascade_cases L config with h | ⟨hnot, c, -, h⟩
  · rwa [h]
  · rcases hs with hs | hs
    · right
      rw [h, termIds, map_append]
      show L.termIds ++ _ = _
      rw [hs]
      rfl
    · rw [hs] at hnot
      exact absurd (by decide) hnot

theorem find?_activateCascade (config : ConsensusConfig)
    (h : L.term.find? (·.ledgerId == ledger) = some t) :
    (L.activateCascade config).term.find? (·.ledgerId == ledger) = some t := by
  rcases activateCascade_cases L config with heq | ⟨-, c, -, heq⟩
  · rwa [heq]
  · rw [heq, find?_append, h]
    rfl

/-- **Activation touches no ledger that is there.** -/
theorem get?_activateCascade (config : ConsensusConfig) (hget : L.get? ledger = some core) :
    (L.activateCascade config).get? ledger = some core := by
  obtain ⟨rfl, rfl⟩ | ⟨hp, t, ht, -, rfl⟩ := get?_cases hget
  · rcases activateCascade_cases L config with heq | ⟨-, c, -, heq⟩ <;> rwa [heq]
  · rw [get?_term hp, find?_activateCascade config ht]
    rfl

theorem lifetime_activateCascade (config : ConsensusConfig) (hmem : ledger ∈ L.activeLedgers) :
    (L.activateCascade config).lifetime ledger = L.lifetime ledger := by
  obtain ⟨core, hcore⟩ := mem_activeLedgers_iff.mp hmem
  obtain ⟨rfl, -⟩ | ⟨hp, t, ht, -, -⟩ := get?_cases hcore
  · rcases activateCascade_cases L config with heq | ⟨-, c, -, heq⟩ <;> rw [heq]
    rfl
  · rw [lifetime_term hp, lifetime_term hp, find?_activateCascade config ht, ht]

/-- Every ledger's slots live for at least one block. -/
def LifetimesPositive (L : Ledgers) : Prop := ∀ ledger, ∀ m ∈ L.lifetime ledger, 0 < m

theorem LifetimesPositive.of_frame (h : L'.frame = L.frame) (hl : L.LifetimesPositive) :
    L'.LifetimesPositive := by
  intro ledger m hm
  rw [lifetime_eq_of_frame h] at hm
  exact hl ledger m hm

theorem lifetimesPositive_of_forall
    (hterm : ∀ t ∈ L.term, 0 < t.epochLength * t.numBlocksInEpoch)
    (hperm : ∀ n ∈ L.publishLedgerEpochLength, 0 < n * L.numBlocksInEpoch) :
    L.LifetimesPositive := by
  intro ledger m hm
  by_cases hp : ledger = .publish
  · subst hp
    obtain ⟨n, hn, rfl⟩ := Option.map_eq_some_iff.mp hm
    exact hperm n hn
  · rw [lifetime_term hp] at hm
    obtain ⟨t, ht, rfl⟩ := Option.map_eq_some_iff.mp hm
    exact hterm t (mem_of_find?_eq_some ht)

theorem LifetimesPositive.activateCascade {config : ConsensusConfig}
    (hn : 0 < config.epoch.numBlocksInEpoch)
    (hc : ∀ c ∈ config.hardforks.cascade, 0 < c.oneYearEpochLength ∧ 0 < c.thirtyDayEpochLength)
    (hl : L.LifetimesPositive) : (L.activateCascade config).LifetimesPositive := by
  rcases activateCascade_cases L config with heq | ⟨-, c, hcas, heq⟩
  · rwa [heq]
  · intro ledger m hm
    by_cases hp : ledger = .publish
    · subst hp
      rw [heq] at hm
      exact hl .publish m hm
    · rw [lifetime_term hp, heq, find?_append] at hm
      cases hfind : L.term.find? (·.ledgerId == ledger) with
      | some t =>
        rw [hfind] at hm
        exact hl ledger m (by rw [lifetime_term hp, hfind]; exact hm)
      | none =>
        rw [hfind, Option.none_or] at hm
        obtain ⟨t, ht, rfl⟩ := Option.map_eq_some_iff.mp hm
        have hmem := mem_of_find?_eq_some ht
        have hlen := hc c hcas
        simp only [cascadeLedgers, mem_cons, not_mem_nil, or_false] at hmem
        rcases hmem with rfl | rfl
        · exact Nat.mul_pos hlen.1 hn
        · exact Nat.mul_pos hlen.2 hn

/-! ### Moving partitions about -/

/-- A slot without its partition list. -/
def bareSlot (slot : LedgerSlot) : LedgerSlot := { slot with partitions := [] }

/-- A ledger without its partition lists. -/
def bareCore (core : LedgerCore) : LedgerCore := { core with slots := core.slots.map bareSlot }

/-- The ledgers without their partition lists. -/
def bare (L : Ledgers) : Ledgers :=
  { L with
    perm := bareCore L.perm
    term := L.term.map fun t => t.withCore (bareCore t.toLedgerCore) }

theorem get?_bare (L : Ledgers) (ledger : DataLedger) :
    L.bare.get? ledger = (L.get? ledger).map bareCore := by
  by_cases hp : ledger = .publish
  · subst hp
    rfl
  · rw [get?_term hp, get?_term hp, bare, find?_map]
    show Option.map _ (Option.map _ (L.term.find? (·.ledgerId == ledger))) = _
    rw [Option.map_map, Option.map_map]
    rfl

theorem frame_bare (L : Ledgers) : L.bare.frame = L.frame := by
  rw [frame, frame, bare, List.map_map]
  rfl

theorem frame_eq_of_bare (h : L'.bare = L.bare) : L'.frame = L.frame := by
  rw [← frame_bare, h, frame_bare]

theorem get?_of_bare (h : L'.bare = L.bare) (hget : L.get? ledger = some core) :
    ∃ core', L'.get? ledger = some core' ∧ core'.slots.map bareSlot = core.slots.map bareSlot := by
  have heq := get?_bare L' ledger
  rw [h, get?_bare, hget, Option.map_some] at heq
  obtain ⟨core', hcore', hbare⟩ := Option.map_eq_some_iff.mp heq.symm
  exact ⟨core', hcore', congrArg LedgerCore.slots hbare⟩

theorem bare_set? (hget : L.get? ledger = some core) {core' : LedgerCore}
    (hcore : bareCore core' = bareCore core) (h : L.set? ledger core' = some L') :
    L'.bare = L.bare := by
  obtain ⟨rfl, rfl⟩ | ⟨hp, term, hterm, rfl⟩ := set?_cases h
  · cases hget
    simp [bare, hcore]
  · rw [get?_term hp] at hget
    obtain ⟨t, ht, rfl⟩ := Option.map_eq_some_iff.mp hget
    have hobs := map_updateFirst (fun t => t.withCore (bareCore t.toLedgerCore)) hterm (by
      intro a ha
      rw [ht] at ha
      cases ha
      exact congrArg t.withCore hcore)
    rw [bare, bare, hobs]

theorem modifySlot?_eq_some {f : LedgerSlot → LedgerSlot} :
    L.modifySlot? ledger slotIndex f = some L' ↔
      ∃ core, L.get? ledger = some core ∧ slotIndex < core.slots.length ∧
        L.set? ledger { core with slots := core.slots.modify slotIndex f } = some L' := by
  rw [modifySlot?]
  cases L.get? ledger <;> simp

theorem bare_modifySlot? {f : LedgerSlot → LedgerSlot}
    (h : L.modifySlot? ledger slotIndex f = some L')
    (hf : ∀ slot, bareSlot (f slot) = bareSlot slot) : L'.bare = L.bare := by
  obtain ⟨core, hget, -, hset⟩ := modifySlot?_eq_some.mp h
  refine bare_set? hget ?_ hset
  have hmap : (core.slots.modify slotIndex f).map bareSlot = core.slots.map bareSlot := by
    apply ext_getElem?
    intro i
    rw [getElem?_map, getElem?_modify, getElem?_map, Option.map_eq_map, Option.map_map]
    congr 1
    funext slot
    simp only [Function.comp_apply]
    split
    · exact hf slot
    · rfl
  simp [bareCore, hmap]

theorem bare_pushPartitionToSlot
    (h : (L.pushPartitionToSlot ledger slotIndex hash : Res ε _) = .ok L') : L'.bare = L.bare := by
  rw [pushPartitionToSlot, expect_eq_ok] at h
  exact bare_modifySlot? h (fun slot => rfl)

theorem bare_removePartitionFromSlot
    (h : (L.removePartitionFromSlot ledger slotIndex hash : Res ε _) = .ok L') :
    L'.bare = L.bare := by
  rw [removePartitionFromSlot, expect_eq_ok] at h
  exact bare_modifySlot? h (fun slot => rfl)

theorem flippedSlots_of_bare {before slots' : List LedgerSlot}
    (h : slots'.map bareSlot = slots.map bareSlot) :
    flippedSlots before slots' = flippedSlots before slots := by
  have hflags : ∀ s : List LedgerSlot, flippedSlots before s = flippedSlots before
      (s.map bareSlot) := by
    intro s
    apply eq_of_sorted_of_mem id (flippedSlots_sorted _ _) (flippedSlots_sorted _ _)
    intro i
    rw [mem_flippedSlots, mem_flippedSlots, getElem?_map]
    cases s[i]? <;> simp [bareSlot]
  rw [hflags slots', hflags slots, h]

end Ledgers

end Irys
