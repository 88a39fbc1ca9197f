import Irys.Expiry.ChainView
import Irys.Expiry.Walk
import Irys.Lib.Finmap

/-!
# Probing sweeps the expired range

The probes of `find_block_range` go slot by slot and block by block, but together they sweep one
range of chunks from left to right.
-/

namespace Irys

open List

variable {s : Stores} {config : ConsensusConfig} {ledger : DataLedger} {chain : List SealedBlock}
  {parentHeight : ℕ}

section

variable (config) (ledger) (chain)

/-- Block `k` of the chain, as the walk meets it. -/
def metBlock (k : ℕ)
    (b : SealedBlock) : MetBlock where
  height := k
  blockHash := b.header.blockHash
  base := chunksBefore config ledger chain k

/-- Block `k` contains chunk `o`. -/
def InBlock
    (k o : ℕ) : Prop :=
  chunksBefore config ledger chain k ≤ o ∧ o < chunksBefore config ledger chain (k + 1)

end

theorem exists_inBlock {n o : ℕ}
    (h : o < chunksBefore config ledger chain n) :
    ∃ k < n, InBlock config ledger chain k o :=
  exists_between_frontiers h

theorem InBlock.index_le {k k' o o' : ℕ} (h : InBlock config ledger chain k o)
    (h' : InBlock config ledger chain k' o') (hle : o ≤ o') : k ≤ k' :=
  index_le_of_frontier (h.1.trans hle) h'.2

section

variable (config) (ledger) (chain)

/-- A block with a chunk in `[lo, pos)`, as an entry of the table of bases. -/
def MetBase
    (lo pos : ℕ) (hash : H256) (base : ℕ) : Prop :=
  ∃ k b o, chain[k]? = some b ∧ hash = b.header.blockHash ∧
    base = chunksBefore config ledger chain k ∧ lo ≤ o ∧ o < pos ∧ InBlock config ledger chain k o

/-- **The loop's variables after sweeping `[lo, pos)`.** -/
structure Swept
    (lo pos : ℕ) (scan : RangeScan) : Prop where
  first : lo < pos → ∃ k b, chain[k]? = some b ∧ InBlock config ledger chain k lo ∧
    scan.minBlock = some (metBlock config ledger chain k b)
  last : lo < pos → ∃ k b, chain[k]? = some b ∧ InBlock config ledger chain k (pos - 1) ∧
    scan.maxBlock = some (metBlock config ledger chain k b)
  nothing : pos ≤ lo → scan.minBlock = none ∧ scan.maxBlock = none
  bases : Holds scan.blockBases (MetBase config ledger chain lo pos)

theorem swept_start
    (lo : ℕ) : Swept config ledger chain lo lo RangeScan.start := by
  refine ⟨fun h => absurd h (lt_irrefl _), fun h => absurd h (lt_irrefl _), fun _ => ⟨rfl, rfl⟩,
    holds_empty ?_⟩
  rintro hash base ⟨k, b, o, -, -, -, hlo, hpos, -⟩
  omega

end

theorem LedgerChain.eq_of_hash (h : LedgerChain config ledger chain)
    {i j : ℕ} {a b : SealedBlock} (ha : chain[i]? = some a) (hb : chain[j]? = some b)
    (hhash : a.header.blockHash = b.header.blockHash) : i = j ∧ a = b := by
  have hi := lt_length_of_some ha
  have hij : i = j := by
    apply (getElem?_inj (by simpa using hi) h.hashes_nodup).mp
    rw [getElem?_map, getElem?_map, ha, hb, Option.map_some, Option.map_some, hhash]
  subst hij
  rw [ha] at hb
  exact ⟨rfl, Option.some.inj hb⟩

theorem LedgerChain.hash_eq_iff (h : LedgerChain config ledger chain)
    {i j : ℕ} {a b : SealedBlock} (ha : chain[i]? = some a) (hb : chain[j]? = some b) :
    a.header.blockHash = b.header.blockHash ↔ i = j := by
  refine ⟨fun hhash => (h.eq_of_hash ha hb hhash).1, ?_⟩
  rintro rfl
  rw [Option.some.inj (ha.symm.trans hb)]

/-- **One probe** sweeps on to the end of its block, or to the end of the slot. -/
theorem Swept.meet {lo pos pos' k : ℕ} {scan : RangeScan} {b : SealedBlock}
    (h : Swept config ledger chain lo pos scan)
    (wf : LedgerChain config ledger chain)
    (hlo : lo ≤ pos) (hb : chain[k]? = some b)
    (hin : InBlock config ledger chain k pos) (hlt : pos < pos')
    (hle : pos' ≤ chunksBefore config ledger chain (k + 1)) :
    Swept config ledger chain lo pos'
      (scan.meet (Serves.boundsOf config ledger chain k b)) := by
  have hin' : InBlock config ledger chain k (pos' - 1) :=
    ⟨hin.1.trans (by omega), by omega⟩
  refine ⟨fun _ => ?_, fun _ => ?_, fun hge => absurd hge (by omega), ?_⟩
  · rcases Nat.eq_or_lt_of_le hlo with rfl | hsome
    · obtain ⟨hnone, -⟩ := h.nothing le_rfl
      exact ⟨k, b, hb, hin, by simp [RangeScan.meet, hnone, Serves.boundsOf, metBlock]⟩
    · obtain ⟨i, a, ha, hini, hmin⟩ := h.first hsome
      have hik : i ≤ k := hini.index_le hin hlo
      refine ⟨i, a, ha, hini, ?_⟩
      have hnot : ¬ k < i := by omega
      simp [RangeScan.meet, hmin, Serves.boundsOf, metBlock, hnot]
  · rcases Nat.eq_or_lt_of_le hlo with rfl | hsome
    · obtain ⟨-, hnone⟩ := h.nothing le_rfl
      exact ⟨k, b, hb, hin', by simp [RangeScan.meet, hnone, Serves.boundsOf, metBlock]⟩
    · obtain ⟨j, a, ha, hinj, hmax⟩ := h.last hsome
      have hjk : j ≤ k := hinj.index_le hin (by omega)
      rcases Nat.eq_or_lt_of_le hjk with rfl | hjk
      · rw [ha] at hb
        cases hb
        exact ⟨j, b, ha, hin', by simp [RangeScan.meet, hmax, Serves.boundsOf, metBlock]⟩
      · exact ⟨k, b, hb, hin', by simp [RangeScan.meet, hmax, Serves.boundsOf, metBlock, hjk]⟩
  · have hagree : ∀ base, MetBase config ledger chain lo pos
        b.header.blockHash base → base = chunksBefore config ledger chain k := by
      rintro base ⟨i, a, o, ha, hhash, rfl, -⟩
      obtain ⟨rfl, -⟩ := wf.eq_of_hash ha hb hhash.symm
      rfl
    refine (h.bases.insertIfNew hagree).congr ?_
    intro hash base
    constructor
    · rintro (⟨rfl, rfl⟩ | ⟨i, a, o, ha, hhash, hbase, hlo', ho, hino⟩)
      · exact ⟨k, b, pos, hb, rfl, rfl, hlo, hlt, hin⟩
      · exact ⟨i, a, o, ha, hhash, hbase, hlo', by omega, hino⟩
    · rintro ⟨i, a, o, ha, hhash, hbase, hlo', ho, hino⟩
      by_cases hnew : o < pos
      · exact .inr ⟨i, a, o, ha, hhash, hbase, hlo', hnew, hino⟩
      · -- the chunk lies in the block just met
        have hko : InBlock config ledger chain k o :=
          ⟨hin.1.trans (by omega), by omega⟩
        obtain rfl : i = k := le_antisymm (hino.index_le hko le_rfl) (hko.index_le hino le_rfl)
        rw [hb] at ha
        cases ha
        exact .inl ⟨hhash, hbase⟩

/-- The variables of the loop that a probe does not touch. -/
def RangeScan.slots (scan : RangeScan) : SlotMiners × Option ℕ × Option ℕ :=
  (scan.slotMiners, scan.globalStart, scan.globalEnd)

/-- **Probing one slot** sweeps it. -/
theorem probeSlot_spec (h : Serves s config ledger chain parentHeight)
    {parent : SealedBlock} (hparent : chain[parentHeight]? = some parent) {fuel stop lo : ℕ}
    (hfuel : parentHeight < fuel)
    (hstop : stop ≤ chunksBefore config ledger chain (parentHeight + 1)) :
    ∀ {pos : ℕ} {scan : RangeScan}, lo ≤ pos → pos ≤ stop →
      Swept config ledger chain lo pos scan →
      ∃ scan', probeSlot s fuel ledger parent.header.blockHash stop pos scan = .ok scan' ∧
        Swept config ledger chain lo stop scan' ∧ scan'.slots = scan.slots := by
  intro pos scan
  -- each probe moves on, so the distance to the end of the slot falls
  induction hgap : stop - pos using Nat.strong_induction_on generalizing pos scan with
  | _ gap ih =>
    intro hlo hpos hswept
    rw [probeSlot]
    by_cases hlt : pos < stop
    · obtain ⟨k, hk, hin⟩ := exists_inBlock (hlt.trans_le hstop)
      obtain ⟨b, hb⟩ := exists_at (show k < chain.length by
        have := h.parent
        omega)
      have hnext : pos < min (chunksBefore config ledger chain (k + 1)) stop :=
        lt_min hin.2 hlt
      have hend : pos < (Serves.boundsOf config ledger chain k b).endChunkOffset :=
        hin.2
      rw [if_pos hlt, h.resolve hparent hb (by omega) hfuel hin.1 hin.2, mapErr_ok, ok_bind,
        if_pos hend]
      exact ih _ (by omega) rfl (hlo.trans hnext.le) (Nat.min_le_right ..)
        (hswept.meet h.wf hlo hb hin hnext (Nat.min_le_left ..))
    · obtain rfl : pos = stop := by omega
      rw [if_neg hlt]
      exact ⟨scan, rfl, hswept, rfl⟩

/-! ### Slots -/

/-- Where slot `i` begins, within the ledger. -/
def slotEdge (config : ConsensusConfig) (total i : ℕ) : ℕ :=
  min (i * config.numChunksInPartition) total

theorem slotEdge_mono (config : ConsensusConfig) (total : ℕ) {i j : ℕ} (h : i ≤ j) :
    slotEdge config total i ≤ slotEdge config total j := by
  have := Nat.mul_le_mul_right config.numChunksInPartition h
  rw [slotEdge, slotEdge]
  omega

/-- **A slot's range ends where the next slot's begins**; nothing saturates below a `u64` total. -/
theorem computeChunkRange_eq {total : ℕ} (htotal : total < 2 ^ 64) (i : ℕ) :
    computeChunkRange i config.numChunksInPartition total =
      ⟨slotEdge config total i, slotEdge config total (i + 1)⟩ := by
  have hstart : min (saturatingMul 64 i config.numChunksInPartition) total =
      slotEdge config total i := by
    rw [saturatingMul, slotEdge]
    omega
  have hstop : min (saturatingAdd 64 (slotEdge config total i) config.numChunksInPartition) total =
      slotEdge config total (i + 1) := by
    rw [saturatingAdd, slotEdge, slotEdge, Nat.succ_mul]
    omega
  rw [computeChunkRange, hstart, hstop]

/-- The loop's variables after the slots `a, …, i - 1`. -/
structure Scanned (config : ConsensusConfig) (ledger : DataLedger) (chain : List SealedBlock)
    (expiredSlots : SlotMiners) (total a i : ℕ) (scan : RangeScan) : Prop where
  swept : Swept config ledger chain (slotEdge config total a) (slotEdge config total i) scan
  miners : Holds scan.slotMiners (fun k v => expiredSlots[k]? = some v ∧ k < i)
  range : a < i → scan.globalStart = some (slotEdge config total a) ∧
    scan.globalEnd = some (slotEdge config total i)
  fresh : i ≤ a → scan.globalStart = none ∧ scan.globalEnd = none

variable {parent : SealedBlock} {fuel total a b : ℕ} {expiredSlots : SlotMiners}

section

variable (h : Serves s config ledger chain parentHeight)
    (hparent : chain[parentHeight]? = some parent) (hfuel : parentHeight < fuel)
    (htotal : total = chunksBefore config ledger chain (parentHeight + 1)) (hfits : total < 2 ^ 64)
include h hparent hfuel htotal hfits

/-- **One slot.** -/
theorem Scanned.step {i : ℕ} {scan : RangeScan} {miners : List IrysAddress}
    (hscan : Scanned config ledger chain expiredSlots total a i scan) (hai : a ≤ i)
    (hentry : expiredSlots[i]? = some miners) :
    ∃ scan', scanSlot s fuel config ledger total parent.header.blockHash scan (i, miners)
        = .ok scan' ∧ Scanned config ledger chain expiredSlots total a (i + 1) scan' := by
  have hedge := slotEdge_mono config total (Nat.le_succ i)
  have hlo := slotEdge_mono config total hai
  have hstop : slotEdge config total (i + 1) ≤ chunksBefore config ledger chain (parentHeight + 1) := by
    rw [← htotal, slotEdge]
    exact Nat.min_le_right ..
  rw [scanSlot, computeChunkRange_eq hfits]
  set entered := scan.enter i miners ⟨slotEdge config total i, slotEdge config total (i + 1)⟩
    with hentered
  have hswept : Swept config ledger chain (slotEdge config total a) (slotEdge config total i)
      entered := ⟨hscan.swept.first, hscan.swept.last, hscan.swept.nothing, hscan.swept.bases⟩
  obtain ⟨scan', hrun, hswept', hslots⟩ := probeSlot_spec h hparent hfuel hstop hlo hedge hswept
  have hminers : scan'.slotMiners = scan.slotMiners.insert i miners := congrArg Prod.fst hslots
  have hstart : scan'.globalStart = entered.globalStart := congrArg (fun p => p.2.1) hslots
  have hend : scan'.globalEnd = entered.globalEnd := congrArg (fun p => p.2.2) hslots
  refine ⟨scan', hrun, hswept', ?_, ?_, fun hle => absurd hle (by omega)⟩
  · rw [hminers]
    refine (hscan.miners.insert ?_).congr ?_
    · rintro v ⟨-, hlt⟩
      exact absurd hlt (lt_irrefl i)
    · intro k v
      constructor
      · rintro (⟨rfl, rfl⟩ | ⟨hk, hlt⟩)
        · exact ⟨hentry, Nat.lt_succ_self k⟩
        · exact ⟨hk, by omega⟩
      · rintro ⟨hk, hlt⟩
        rcases Nat.lt_or_ge k i with hki | hki
        · exact .inr ⟨hk, hki⟩
        · obtain rfl : k = i := by omega
          rw [hentry] at hk
          exact .inl ⟨rfl, (Option.some.inj hk).symm⟩
  · intro _
    rw [hstart, hend, hentered, RangeScan.enter]
    rcases Nat.eq_or_lt_of_le hai with rfl | hlt
    · obtain ⟨hs, he⟩ := hscan.fresh le_rfl
      rw [hs, he]
      exact ⟨rfl, rfl⟩
    · obtain ⟨hs, he⟩ := hscan.range hlt
      rw [hs, he]
      simp only [Option.map_some, Option.getD_some]
      exact ⟨congrArg some (Nat.min_eq_left hlo), congrArg some (Nat.max_eq_right hedge)⟩

/-- **A run of slots.** -/
theorem scanSlots_spec :
    ∀ (slots : List (ℕ × List IrysAddress)) {i : ℕ} {scan : RangeScan}, a ≤ i →
      slots.map Prod.fst = List.range' i slots.length →
      (∀ p ∈ slots, expiredSlots[p.1]? = some p.2) →
      Scanned config ledger chain expiredSlots total a i scan →
      ∃ scan', slots.foldlM (scanSlot s fuel config ledger total parent.header.blockHash) scan
          = .ok scan' ∧
        Scanned config ledger chain expiredSlots total a (i + slots.length) scan' := by
  intro slots
  induction slots with
  | nil =>
    intro i scan _ _ _ hscan
    exact ⟨scan, rfl, hscan⟩
  | cons entry slots ih =>
    intro i scan hai hkeys hentries hscan
    obtain ⟨k, miners⟩ := entry
    rw [map_cons, length_cons, range'_succ, List.cons.injEq] at hkeys
    obtain ⟨rfl, hkeys⟩ := hkeys
    obtain ⟨scan₁, hstep, hscan₁⟩ := hscan.step h hparent hfuel htotal hfits hai
      (hentries _ (mem_cons_self ..))
    obtain ⟨scan₂, hrun, hscan₂⟩ := ih (by omega) hkeys
      (fun p hp => hentries p (mem_cons_of_mem _ hp)) hscan₁
    refine ⟨scan₂, ?_, ?_⟩
    · rw [foldlM_cons, hstep, ok_bind, hrun]
    · rw [length_cons, Nat.add_comm slots.length 1, ← Nat.add_assoc]
      exact hscan₂

end

/-- The slots `a, …, b - 1`, in order. -/
theorem keys_of_contiguous (hslots : ∀ k, expiredSlots.contains k = true ↔ a ≤ k ∧ k < b)
    (hab : a ≤ b) : expiredSlots.keys = List.range' a (b - a) := by
  apply keys_eq
  · refine (pairwise_lt_range' (n := b - a) 1).imp ?_
    intro x y hxy
    exact Nat.compare_eq_lt.mpr hxy
  · intro k
    rw [hslots k, mem_range'_1]
    omega

/-! ### What the probing returns -/

/-- **The block range of the chunks `[lo, hi)`.** -/
structure RangeSpec (config : ConsensusConfig) (ledger : DataLedger) (chain : List SealedBlock)
    (expiredSlots : SlotMiners) (lo hi : ℕ) (range : BlockRange) : Prop where
  first : ∃ k b, chain[k]? = some b ∧ InBlock config ledger chain k lo ∧
    range.minBlock = metBlock config ledger chain k b
  last : ∃ k b, chain[k]? = some b ∧ InBlock config ledger chain k (hi - 1) ∧
    range.maxBlock = metBlock config ledger chain k b
  chunks : range.chunkRange = ⟨lo, hi⟩
  middle : Holds range.middleBlocks fun hash base =>
    (MetBase config ledger chain lo hi hash base ∧ hash ≠ range.minBlock.blockHash) ∧
      hash ≠ range.maxBlock.blockHash
  miners : Holds range.slotMiners fun k v => expiredSlots[k]? = some v

/-- **`find_block_range` on contiguous slots**: nothing when they hold no chunk, else their block
range. -/
theorem findBlockRange_spec (h : Serves s config ledger chain parentHeight)
    (hparent : chain[parentHeight]? = some parent) (hfuel : parentHeight < fuel)
    (hslots : ∀ k, expiredSlots.contains k = true ↔ a ≤ k ∧ k < b) (hab : a ≤ b)
    (htotal : total = chunksBefore config ledger chain (parentHeight + 1))
    (hfits : total < 2 ^ 64) :
    ∃ result, findBlockRange s fuel config ledger expiredSlots total parent.header.blockHash
        = .ok result ∧
      (slotEdge config total b ≤ slotEdge config total a → result = none) ∧
      (slotEdge config total a < slotEdge config total b → ∃ range, result = some range ∧
        RangeSpec config ledger chain expiredSlots (slotEdge config total a)
          (slotEdge config total b) range) := by
  have hfst : expiredSlots.toList.map Prod.fst = List.range' a (b - a) := by
    rw [Std.TreeMap.map_fst_toList_eq_keys, keys_of_contiguous hslots hab]
  have hlen : expiredSlots.toList.length = b - a := by
    simpa using congrArg List.length hfst
  have hentries : ∀ p ∈ expiredSlots.toList, expiredSlots[p.1]? = some p.2 := by
    rintro ⟨k, v⟩ hmem
    exact Std.TreeMap.mem_toList_iff_getElem?_eq_some.mp hmem
  have hstart : Scanned config ledger chain expiredSlots total a a RangeScan.start := by
    refine ⟨swept_start _ _ _ _, holds_empty ?_, fun hlt => absurd hlt (lt_irrefl a),
      fun _ => ⟨rfl, rfl⟩⟩
    rintro k v ⟨hk, hlt⟩
    have := (hslots k).mp (contains_iff_exists.mpr ⟨v, hk⟩)
    omega
  obtain ⟨scan, hrun, hscan⟩ := scanSlots_spec h hparent hfuel htotal hfits
    expiredSlots.toList le_rfl (by rw [hfst, hlen]) hentries hstart
  rw [hlen, Nat.add_sub_cancel' hab] at hscan
  rw [findBlockRange, hrun, ok_bind]
  by_cases hlt : slotEdge config total a < slotEdge config total b
  · have hablt : a < b := by
      by_contra hge
      have := slotEdge_mono config total (show b ≤ a by omega)
      omega
    obtain ⟨i, c, hc, hin, hmin⟩ := hscan.swept.first hlt
    obtain ⟨j, d, hd, hin', hmax⟩ := hscan.swept.last hlt
    obtain ⟨hgs, hge⟩ := hscan.range hablt
    rw [hmin, hmax, hgs, hge]
    refine ⟨_, rfl, fun hle => absurd hle (by omega), fun _ => ⟨_, rfl, ?_⟩⟩
    refine ⟨⟨i, c, hc, hin, rfl⟩, ⟨j, d, hd, hin', rfl⟩, rfl, ?_, ?_⟩
    · exact (hscan.swept.bases.erase _).erase _
    · refine hscan.miners.congr ?_
      intro k v
      exact and_iff_left_of_imp fun hk => ((hslots k).mp (contains_iff_exists.mpr ⟨v, hk⟩)).2
  · obtain ⟨hmin, hmax⟩ := hscan.swept.nothing (by omega)
    rw [hmin, hmax]
    exact ⟨none, rfl, fun _ => rfl, fun hlt' => absurd hlt' hlt⟩

end Irys
