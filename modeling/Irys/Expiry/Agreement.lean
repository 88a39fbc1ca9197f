import Irys.Expiry.Collect
import Irys.Expiry.Inclusion

/-!
# The walk and the promotion filter agree

Settlement collects the transactions of the expired slots by walking their blocks; promotion
asks of one candidate at a time where it was included.  Both read the same chain, and both come
down to one comparison: the candidate's start offset against the edge of the range.

* `IncludedAt` — a block carries a transaction; the readers of the filter find exactly that block;
* `submitTxExpired_of_placed`, `submitTxExpired_of_absent` — the filter's answer;
* `walkExpiredSlots_spec` — the walk's answer, on contiguous slots of any ledger;
* `walk_agrees_with_filter` — the two are one set, and neither fails.
-/

namespace Irys

open List Option

variable {s : Stores} {config : ConsensusConfig} {ledger : DataLedger} {chain : List SealedBlock}
  {parentHeight : ℕ} {txid : IrysTransactionId}

/-! ### Inclusion -/

/-- Block `k` of the chain carries a transaction of this id in the ledger. -/
def IncludedAt (ledger : DataLedger) (chain : List SealedBlock) (txid : IrysTransactionId)
    (k : ℕ) : Prop :=
  ∃ b, chain[k]? = some b ∧ ∃ tx ∈ b.dataTxs ledger, tx.id = txid

variable {k a : ℕ} {b parent : SealedBlock}

theorem IncludedAt.exists_placed (h : IncludedAt ledger chain txid k) (config : ConsensusConfig) :
    ∃ tx start, PlacedIn config ledger chain k tx start ∧ tx.id = txid := by
  obtain ⟨b, hb, tx, htx, hid⟩ := h
  obtain ⟨start, hmem⟩ := (mem_iff_laidOut (chunksOf config) _).mp htx
  exact ⟨tx, start, ⟨b, hb, hmem⟩, hid⟩

theorem PlacedIn.includedAt {start : ℕ} {tx : DataTransactionHeader}
    (h : PlacedIn config ledger chain k tx start) : IncludedAt ledger chain tx.id k := by
  obtain ⟨b, hb, hmem⟩ := h
  exact ⟨b, hb, tx, (mem_iff_laidOut _ _).mpr ⟨_, hmem⟩, rfl⟩

theorem includedAt_iff (hb : chain[k]? = some b) :
    IncludedAt ledger chain txid k ↔ ∃ tx ∈ b.dataTxs ledger, tx.id = txid := by
  simp [IncludedAt, hb]

/-- **One block carries an id.** -/
theorem includedAt_unique (wf : LedgerChain config ledger chain) (hsize : 0 < config.chunkSize)
    {j : ℕ} (hj : IncludedAt ledger chain txid j) (hk : IncludedAt ledger chain txid k) :
    j = k := by
  obtain ⟨tx, start, hp, hid⟩ := hj.exists_placed config
  obtain ⟨tx', start', hp', hid'⟩ := hk.exists_placed config
  obtain ⟨rfl, rfl⟩ := placed_unique wf hp hp' (hid.trans hid'.symm)
  have hin := hp.inBlock wf hsize
  have hin' := hp'.inBlock wf hsize
  exact Nat.le_antisymm (hin.index_le hin' le_rfl) (hin'.index_le hin le_rfl)

theorem blockIncludesLedgerTx_iff (wf : LedgerChain config ledger chain) (hb : chain[k]? = some b) :
    Stores.blockIncludesLedgerTx b.header ledger txid = true ↔ IncludedAt ledger chain txid k := by
  have hids := wf.ids b (mem_of_getElem? hb)
  have hcontains : Stores.blockIncludesLedgerTx b.header ledger txid =
      ((b.header.getDataLedgerTxIdsOrdered ledger).getD []).contains txid := by
    rw [Stores.blockIncludesLedgerTx]
    cases b.header.getDataLedgerTxIdsOrdered ledger <;> rfl
  rw [hcontains, hids, contains_iff_mem, List.mem_map, includedAt_iff hb]

section

variable (h : Serves s config .submit chain parentHeight)
include h

/-- **The migrated inclusion of a candidate**: the database's height, checked against the block
there, is the migrated block that carries it. -/
theorem canonicalSubmitHeight_spec (txid : IrysTransactionId) :
    ∃ r, s.canonicalSubmitHeight txid parentHeight = .ok r ∧
      ∀ k, r = some k ↔ k < s.index.length ∧ k ≤ parentHeight ∧ IncludedAt .submit chain txid k := by
  rw [Stores.canonicalSubmitHeight, canonicalMetadataHeight,
    verifiedHeight_eq h.canonicalHeaderAtHeight]
  refine ⟨_, rfl, fun k => ?_⟩
  rw [Option.filter_eq_some_iff, Bool.and_eq_true, decide_eq_true_iff, Option.any_eq_true]
  constructor
  · rintro ⟨-, hmax, header, hat, hlists⟩
    obtain ⟨hk, hat⟩ := Option.ite_none_right_eq_some.mp hat
    obtain ⟨b, hb, rfl⟩ := Option.map_eq_some_iff.mp hat
    exact ⟨hk, hmax, (blockIncludesLedgerTx_iff h.wf hb).mp hlists⟩
  · -- a migrated block that carries the id is at the recorded height
    rintro ⟨hk, hmax, hinc⟩
    obtain ⟨b, hb, tx, htx, rfl⟩ := id hinc
    refine ⟨h.included hb hk tx htx, hmax, b.header, ?_,
      (blockIncludesLedgerTx_iff h.wf hb).mpr hinc⟩
    rw [if_pos hk, hb]
    rfl

/-- **A migrated inclusion block**, from the index. -/
theorem indexedInclusion_spec (hb : chain[k]? = some b) (hk : k < s.index.length) :
    indexedInclusion s k = .ok ⟨b.header.blockHash, chunksBefore config .submit chain k,
      chunksBefore config .submit chain (k + 1), none⟩ := by
  rw [indexedInclusion, h.getElem?_index hb hk]
  dsimp only
  rw [ledgerTotalOfIndexItem_indexItemOf, h.wf.total hb]
  cases k with
  | zero => rfl
  | succ i =>
    obtain ⟨a, ha, -⟩ := h.predecessor hb
    rw [if_neg (Nat.succ_ne_zero i), Nat.add_sub_cancel, h.getElem?_index ha (by omega)]
    dsimp only
    rw [ledgerTotalOfIndexItem_indexItemOf, h.wf.total ha]
    rfl

/-- **The ancestry walk finds the inclusion block** of a candidate above the index. -/
theorem walkSubmitInclusion_of_included (hsize : 0 < config.chunkSize) (hb : chain[k]? = some b)
    (hin : IncludedAt .submit chain txid k) (hk : s.index.length ≤ k) :
    ∀ (left : ℕ) {i : ℕ} {c : SealedBlock}, chain[i]? = some c → k ≤ i → i ≤ parentHeight →
      i < k + left →
      walkSubmitInclusion s txid left c.header.blockHash =
        .ok (some (b.header.blockHash, chunksBefore config .submit chain k,
          chunksBefore config .submit chain (k + 1))) := by
  intro left
  induction left with
  | zero =>
    intro i c _ hki _ hlt
    omega
  | succ left ih =>
    intro i c hc hki hip hlt
    rw [walkSubmitInclusion, h.in_tree hc (by omega) hip]
    dsimp only
    by_cases hi : IncludedAt .submit chain txid i
    · obtain rfl := includedAt_unique h.wf hsize hin hi
      rw [hb] at hc
      cases hc
      rw [if_pos ((blockIncludesLedgerTx_iff h.wf hb).mpr hi), h.predecessorTotal hb hip, ok_bind,
        h.wf.total hb]
      rfl
    · rw [if_neg (fun hinc => hi ((blockIncludesLedgerTx_iff h.wf hc).mp hinc))]
      have hne : k ≠ i := by
        rintro rfl
        exact hi hin
      obtain ⟨i, rfl⟩ : ∃ j, i = j + 1 := ⟨i - 1, by omega⟩
      obtain ⟨a, ha, hprev⟩ := h.predecessor hc
      rw [hprev]
      exact ih ha (by omega) (by omega) (by omega)

theorem walkSubmitInclusion_of_absent :
    ∀ (left : ℕ) {i : ℕ} {c : SealedBlock}, chain[i]? = some c →
      (∀ k ≤ i, ¬ IncludedAt .submit chain txid k) →
      walkSubmitInclusion s txid left c.header.blockHash = .ok none := by
  intro left
  induction left with
  | zero =>
    intro i c _ _
    rfl
  | succ left ih =>
    intro i c hc habsent
    rw [walkSubmitInclusion]
    cases htree : s.tree c.header.blockHash with
    | none => rfl
    | some t =>
      rw [h.tree_eq c (mem_of_getElem? hc) t htree]
      dsimp only
      rw [if_neg (fun hinc => habsent i le_rfl ((blockIncludesLedgerTx_iff h.wf hc).mp hinc))]
      cases i with
      | zero =>
        -- past the first block the walk has left the tree
        cases left with
        | zero => rfl
        | succ left =>
          rw [walkSubmitInclusion, h.root hc]
      | succ i =>
        obtain ⟨a, ha, hprev⟩ := h.predecessor hc
        rw [hprev]
        exact ih ha (fun k hk => habsent k (hk.trans (Nat.le_succ i)))

/-- The range the filter compares with: a block on top of the parent, chunks below `rangeEnd`. -/
def rangeAbove (parent : SealedBlock) (rangeEnd : ℕ) : ExpiredSubmitRange where
  blockHeight := parent.header.height + 1
  rangeEnd := rangeEnd
  parentBlockHash := parent.header.blockHash

/-- **The inclusion block of a candidate is resolved**, migrated or not, with its transactions. -/
theorem resolveSubmitInclusion_of_included (hsize : 0 < config.chunkSize)
    (hparent : chain[parentHeight]? = some parent) (hb : chain[k]? = some b)
    (hin : IncludedAt .submit chain txid k) (hk : k ≤ parentHeight) (rangeEnd : ℕ) :
    ∃ inc, resolveSubmitInclusion s config txid (rangeAbove parent rangeEnd) = .ok (some inc) ∧
      inc.base = chunksBefore config .submit chain k ∧
      inc.total = chunksBefore config .submit chain (k + 1) ∧
      inc.headers s = .ok (b.dataTxs .submit) := by
  have hne : b.dataTxs .submit ≠ [] := by
    obtain ⟨tx, htx, -⟩ := (includedAt_iff hb).mp hin
    exact ne_nil_of_mem htx
  obtain ⟨r, hr, hspec⟩ := canonicalSubmitHeight_spec h txid
  have hmax : (rangeAbove parent rangeEnd).blockHeight - 1 = parentHeight := h.wf.height hparent
  rw [resolveSubmitInclusion, hmax, hr, ok_bind]
  by_cases hmigrated : k < s.index.length
  · rw [(hspec k).mpr ⟨hmigrated, hk, hin⟩]
    dsimp only
    rw [indexedInclusion_spec h hb hmigrated, ok_bind]
    exact ⟨_, rfl, rfl, rfl, h.txHeaders hb hk hne⟩
  · have hnone : r = none := by
      rw [eq_none_iff_forall_ne_some]
      intro j hj
      obtain ⟨hlen, -, hin'⟩ := (hspec j).mp hj
      exact hmigrated (includedAt_unique h.wf hsize hin hin' ▸ hlen)
    have hwindow := h.window
    have hwalk := walkSubmitInclusion_of_included h hsize hb hin (by omega)
      (config.txAnchorExpiryDepth + 1) hparent hk le_rfl (by omega)
    rw [hnone]
    dsimp only
    have hcursor : (rangeAbove parent rangeEnd).parentBlockHash = parent.header.blockHash := rfl
    rw [hcursor, hwalk, ok_bind, map_some, h.in_tree hb (by omega) hk]
    exact ⟨_, rfl, rfl, rfl, h.sealedTxHeaders (mem_of_getElem? hb) hne⟩

theorem resolveSubmitInclusion_of_absent (hparent : chain[parentHeight]? = some parent)
    (habsent : ∀ k ≤ parentHeight, ¬ IncludedAt .submit chain txid k) (rangeEnd : ℕ) :
    resolveSubmitInclusion s config txid (rangeAbove parent rangeEnd) = .ok none := by
  obtain ⟨r, hr, hspec⟩ := canonicalSubmitHeight_spec h txid
  have hmax : (rangeAbove parent rangeEnd).blockHeight - 1 = parentHeight := h.wf.height hparent
  have hnone : r = none := by
    rw [eq_none_iff_forall_ne_some]
    intro j hj
    obtain ⟨-, hjp, hin⟩ := (hspec j).mp hj
    exact habsent j hjp hin
  have hcursor : (rangeAbove parent rangeEnd).parentBlockHash = parent.header.blockHash := rfl
  rw [resolveSubmitInclusion, hmax, hr, ok_bind, hnone]
  dsimp only
  rw [hcursor, walkSubmitInclusion_of_absent h _ hparent habsent]
  rfl

end

/-! ### The filter's answer -/

/-- **The recomputed start offset is the transaction's place** in the ledger. -/
theorem startOffsetFrom_of_laidOut :
    ∀ {txs : List DataTransactionHeader} {base start : ℕ} {tx : DataTransactionHeader},
      (tx, start) ∈ laidOut (chunksOf config) base txs → (txs.map (·.id)).Nodup →
      base + extent (chunksOf config) txs < 2 ^ 64 →
      startOffsetFrom tx.id config.chunkSize (sizesById txs) base = some start := by
  intro txs
  induction txs with
  | nil =>
    intro base start tx hmem
    cases hmem
  | cons head rest ih =>
    intro base start tx hmem hnodup hfits
    rw [map_cons, nodup_cons] at hnodup
    rw [extent_cons] at hfits
    have hnext : saturatingAdd 64 base (divCeil head.dataSize config.chunkSize) =
        base + chunksOf config head := saturatingAdd_of_lt (by rw [chunksOf] at hfits; omega)
    rcases mem_cons.mp hmem with heq | hmem
    · cases heq
      exact if_pos rfl
    · have htx : tx ∈ rest := (mem_iff_laidOut _ _).mpr ⟨_, hmem⟩
      have hne : head.id ≠ tx.id := by
        intro heq
        exact hnodup.1 (heq ▸ List.mem_map_of_mem htx)
      refine (if_neg hne).trans ?_
      rw [hnext]
      exact ih hmem hnodup.2 (by omega)

theorem LedgerChain.block_nodup (wf : LedgerChain config ledger chain) (hb : b ∈ chain) :
    ((b.dataTxs ledger).map (·.id)).Nodup := by
  have hall := wf.ids_nodup
  rw [map_flatMap, nodup_flatMap] at hall
  exact hall.1 b hb

/-- **The filter on an included candidate**: its start offset against the end of the range. -/
theorem submitTxExpired_of_placed (h : Serves s config .submit chain parentHeight)
    (hsize : 0 < config.chunkSize) (hparent : chain[parentHeight]? = some parent) {start : ℕ}
    {tx : DataTransactionHeader} (hp : PlacedIn config .submit chain k tx start)
    (hk : k ≤ parentHeight) (rangeEnd : ℕ) :
    submitTxExpired s config tx.id (rangeAbove parent rangeEnd) =
      .ok (decide (start < rangeEnd)) := by
  obtain ⟨b, hb, hmem⟩ := id hp
  obtain ⟨inc, hinc, hbase, htotal, hheaders⟩ :=
    resolveSubmitInclusion_of_included h hsize hparent hb hp.includedAt hk rangeEnd
  have hstart : submitTxStartOffset tx.id (sizesById (b.dataTxs .submit))
      (chunksBefore config .submit chain k) config.chunkSize = some start := by
    rw [submitTxStartOffset, if_neg hsize.ne']
    exact startOffsetFrom_of_laidOut hmem (h.wf.block_nodup (mem_of_getElem? hb)) (h.wf.block_fits hb)
  have hin := hp.inBlock h.wf hsize
  rw [submitTxExpired_of_inclusion hinc hheaders, hbase, htotal, hstart,
    submitVerdict_of_start hin.1 hin.2]
  rfl

theorem submitTxExpired_of_absent (h : Serves s config .submit chain parentHeight)
    (hparent : chain[parentHeight]? = some parent)
    (habsent : ∀ k ≤ parentHeight, ¬ IncludedAt .submit chain txid k) (rangeEnd : ℕ) :
    submitTxExpired s config txid (rangeAbove parent rangeEnd) = .ok false := by
  rw [submitTxExpired, resolveSubmitInclusion_of_absent h hparent habsent rangeEnd]
  rfl

/-! ### The walk's answer -/

/-- The transactions of the first `n` blocks, each with the chunk of the ledger it starts at. -/
def ledgerLayout (config : ConsensusConfig) (ledger : DataLedger) (chain : List SealedBlock)
    (n : ℕ) : List (DataTransactionHeader × ℕ) :=
  laidOut (chunksOf config) 0 ((chain.take n).flatMap (·.dataTxs ledger))

theorem slotEdge_le_iff {total b o : ℕ} :
    (slotEdge config total a ≤ o ∧ o < slotEdge config total b) ↔
      a * config.numChunksInPartition ≤ o ∧
        o < min (b * config.numChunksInPartition) total := by
  rw [slotEdge, slotEdge]
  omega

/-- A chunk between the edges of slots `a` and `b` lies in one of the slots `[a, b)`. -/
theorem slot_of_chunk {total b o : ℕ} (hC : 0 < config.numChunksInPartition)
    (h : slotEdge config total a ≤ o ∧ o < slotEdge config total b) :
    a ≤ o / config.numChunksInPartition ∧ o / config.numChunksInPartition < b := by
  obtain ⟨hlo, hhi⟩ := slotEdge_le_iff.mp h
  rw [Nat.le_div_iff_mul_le hC, Nat.div_lt_iff_lt_mul hC]
  omega

/-- **The walk over contiguous slots** collects the transactions of the parent's ancestry that
start in them, each with the miners of its slot and its header. -/
theorem walkExpiredSlots_spec (h : Serves s config ledger chain parentHeight)
    (hsize : 0 < config.chunkSize) (hC : 0 < config.numChunksInPartition)
    (hparent : chain[parentHeight]? = some parent) {fuel : ℕ} (hfuel : parentHeight < fuel)
    {expiredSlots : SlotMiners} {b : ℕ} (hab : a ≤ b)
    (hslots : ∀ k, expiredSlots.contains k = true ↔ a ≤ k ∧ k < b) :
    ∃ m headers, walkExpiredSlots s fuel config ledger expiredSlots parent.header =
        .ok (m, headers) ∧
      (Holds m fun id miners => ∃ tx start,
        ((tx, start) ∈ ledgerLayout config ledger chain (parentHeight + 1) ∧
          a * config.numChunksInPartition ≤ start ∧
          start < min (b * config.numChunksInPartition) (parent.header.ledgerTotalChunks ledger)) ∧
        tx.id = id ∧ expiredSlots[start / config.numChunksInPartition]? = some miners) ∧
      Holds headers fun id tx =>
        (∃ start, (tx, start) ∈ ledgerLayout config ledger chain (parentHeight + 1) ∧
          a * config.numChunksInPartition ≤ start ∧
          start < min (b * config.numChunksInPartition) (parent.header.ledgerTotalChunks ledger)) ∧
        tx.id = id := by
  have htotal := h.wf.total hparent
  have hfits := h.wf.fits parent (mem_of_getElem? hparent)
  -- the transactions between the edges, read off the chain or off the layout
  have hplaced : ∀ tx start, ((tx, start) ∈ ledgerLayout config ledger chain (parentHeight + 1) ∧
      a * config.numChunksInPartition ≤ start ∧
        start < min (b * config.numChunksInPartition) (parent.header.ledgerTotalChunks ledger)) ↔
      ((∃ k, PlacedIn config ledger chain k tx start) ∧
        slotEdge config (parent.header.ledgerTotalChunks ledger) a ≤ start ∧
          start < slotEdge config (parent.header.ledgerTotalChunks ledger) b) := by
    intro tx start
    rw [slotEdge_le_iff, ledgerLayout, mem_layout_iff]
    refine and_congr_left ?_
    rintro ⟨-, hlt⟩
    have hbelow : start < chunksBefore config ledger chain (parentHeight + 1) := by omega
    constructor
    · rintro ⟨k, -, hp⟩
      exact ⟨k, hp⟩
    · rintro ⟨k, hp⟩
      have hk : k ≤ parentHeight := index_le_of_frontier (hp.inBlock h.wf hsize).1 hbelow
      exact ⟨k, by omega, hp⟩
  obtain ⟨result, hfind, hnone, hsome⟩ :=
    findBlockRange_spec h hparent hfuel hslots hab htotal hfits
  simp only [hplaced]
  rw [walkExpiredSlots, hfind, ok_bind]
  by_cases hlt : slotEdge config (parent.header.ledgerTotalChunks ledger) a <
      slotEdge config (parent.header.ledgerTotalChunks ledger) b
  · obtain ⟨range, rfl, hrange⟩ := hsome hlt
    have hhi : slotEdge config (parent.header.ledgerTotalChunks ledger) b ≤
        chunksBefore config ledger chain (parentHeight + 1) := by
      rw [slotEdge, htotal]
      exact Nat.min_le_right _ _
    refine collect_spec h hsize hC hrange hlt hhi ?_
    intro o hlo hhi
    exact contains_iff_exists.mp ((hslots _).mpr (slot_of_chunk hC ⟨hlo, hhi⟩))
  · rw [hnone (Nat.le_of_not_lt hlt)]
    refine ⟨∅, ∅, rfl, holds_empty ?_, holds_empty ?_⟩
    · rintro id v ⟨tx, start, ⟨-, hlo, hhi⟩, -⟩
      omega
    · rintro id tx ⟨⟨start, -, hlo, hhi⟩, -⟩
      omega

/-! ### Agreement -/

/-- **The walk and the filter agree.**  On contiguous expired slots `[a, b)` the walk returns,
without an error, exactly the Submit transactions of the parent's ancestry that start in
`[a * C, min (b * C) total)`, each with the miners of the slot of its first chunk, and their
headers; and when the slots are a prefix, the filter answers, without an error, yes for these
transactions and no for every other id. -/
theorem walk_agrees_with_filter {config : Config} {chain : List SealedBlock} {parentHeight : ℕ}
    {parent : SealedBlock} {fuel : ℕ} {expiredSlots : SlotMiners} {a b : ℕ}
    (h : Serves s config.toConsensusConfig .submit chain parentHeight)
    (hparent : chain[parentHeight]? = some parent) (hfuel : parentHeight < fuel) (hab : a ≤ b)
    (hslots : ∀ k, expiredSlots.contains k = true ↔ a ≤ k ∧ k < b) :
    ∃ txToMiners txHeaders,
      walkExpiredSlots s fuel config.toConsensusConfig .submit expiredSlots parent.header =
        .ok (txToMiners, txHeaders) ∧
      (∀ id miners, txToMiners[id]? = some miners ↔ ∃ tx start,
        ((tx, start) ∈ ledgerLayout config.toConsensusConfig .submit chain (parentHeight + 1) ∧
          a * config.numChunksInPartition ≤ start ∧
          start < min (b * config.numChunksInPartition)
            (parent.header.ledgerTotalChunks .submit)) ∧
        tx.id = id ∧ expiredSlots[start / config.numChunksInPartition]? = some miners) ∧
      (∀ id tx, txHeaders[id]? = some tx ↔
        (∃ start, (tx, start) ∈
            ledgerLayout config.toConsensusConfig .submit chain (parentHeight + 1) ∧
          a * config.numChunksInPartition ≤ start ∧
          start < min (b * config.numChunksInPartition)
            (parent.header.ledgerTotalChunks .submit)) ∧
        tx.id = id) ∧
      (a = 0 → ∀ id, submitTxExpired s config.toConsensusConfig id
          (rangeAbove parent (min (b * config.numChunksInPartition)
            (parent.header.ledgerTotalChunks .submit))) =
        .ok (txToMiners.contains id)) := by
  have hsize := config.chunkSize_pos
  have hC := config.chunksInPartition_pos
  obtain ⟨m, headers, hwalk, hm, hheaders⟩ :=
    walkExpiredSlots_spec h hsize hC hparent hfuel hab hslots
  refine ⟨m, headers, hwalk, hm, hheaders, ?_⟩
  rintro rfl id
  by_cases hin : ∃ k ≤ parentHeight, IncludedAt .submit chain id k
  · obtain ⟨k, hk, hin⟩ := hin
    obtain ⟨tx, start, hp, rfl⟩ := hin.exists_placed config.toConsensusConfig
    rw [submitTxExpired_of_placed h hsize hparent hp hk]
    congr 1
    rw [Bool.eq_iff_iff, decide_eq_true_eq, hm.contains_iff]
    have hlayout : (tx, start) ∈
        ledgerLayout config.toConsensusConfig .submit chain (parentHeight + 1) :=
      mem_layout_iff.mpr ⟨k, by omega, hp⟩
    constructor
    · intro hlt
      have hslot : 0 ≤ start / config.numChunksInPartition ∧
          start / config.numChunksInPartition < b :=
        slot_of_chunk hC (slotEdge_le_iff.mpr ⟨by omega, hlt⟩)
      obtain ⟨miners, hminers⟩ := contains_iff_exists.mp ((hslots _).mpr hslot)
      exact ⟨miners, tx, start, ⟨hlayout, by omega, hlt⟩, rfl, hminers⟩
    · rintro ⟨miners, tx', start', ⟨hlayout', -, hlt⟩, hid, -⟩
      obtain ⟨k', -, hp'⟩ := mem_layout_iff.mp hlayout'
      obtain ⟨-, rfl⟩ := placed_unique h.wf hp' hp hid
      exact hlt
  · have habsent : ∀ k ≤ parentHeight, ¬ IncludedAt .submit chain id k := by
      intro k hk hinc
      exact hin ⟨k, hk, hinc⟩
    rw [submitTxExpired_of_absent h hparent habsent]
    congr 1
    rw [eq_comm, Bool.eq_false_iff, Ne, hm.contains_iff]
    rintro ⟨miners, tx, start, ⟨hlayout, -⟩, rfl, -⟩
    obtain ⟨k, hk, hp⟩ := mem_layout_iff.mp hlayout
    exact habsent k (by omega) hp.includedAt

/-- A block that only writes to the Submit ledger; its hash is its height plus 100. -/
def submitBlock (height submitTotal : ℕ) (txs : List DataTransactionHeader) : SealedBlock where
  header :=
    { IrysBlockHeader.bare (height + 100) (height + 99) height with
      dataLedgers := [⟨.publish, 0, [], 0⟩, ⟨.submit, 0, txs.map (·.id), submitTotal⟩] }
  dataTxs := fun ledger => if ledger = .submit then txs else []

/-- Genesis, a block of two chunks and one chunk, a block of two chunks. -/
def threeBlocks : List SealedBlock :=
  [submitBlock 0 0 [], submitBlock 1 3 [⟨11, 33⟩, ⟨12, 32⟩], submitBlock 2 5 [⟨13, 64⟩]]

/-- The last block has not migrated. -/
def threeBlocksStores : Stores where
  tree hash := if hash = 102 then some (submitBlock 2 5 [⟨13, 64⟩]) else none
  index := (threeBlocks.take 2).map indexItemOf
  headers hash := (threeBlocks.find? fun b => b.header.blockHash == hash).map (·.header)
  mempoolTxs := fun _ => none
  databaseTxs id := [⟨11, 33⟩, ⟨12, 32⟩].find? fun tx => tx.id == id
  includedHeight id := if id = 11 ∨ id = 12 then some 1 else none

theorem threeBlocks_cases {i : ℕ} (h : threeBlocks[i]? = some b) :
    (i = 0 ∧ b = submitBlock 0 0 []) ∨ (i = 1 ∧ b = submitBlock 1 3 [⟨11, 33⟩, ⟨12, 32⟩]) ∨
      (i = 2 ∧ b = submitBlock 2 5 [⟨13, 64⟩]) := by
  match i with
  | 0 => exact .inl ⟨rfl, (Option.some.inj h).symm⟩
  | 1 => exact .inr (.inl ⟨rfl, (Option.some.inj h).symm⟩)
  | 2 => exact .inr (.inr ⟨rfl, (Option.some.inj h).symm⟩)
  | i + 3 => cases h

theorem threeBlocks_chain : LedgerChain twoChunkConfig.toConsensusConfig .submit threeBlocks where
  height := by
    intro i b h
    rcases threeBlocks_cases h with ⟨rfl, rfl⟩ | ⟨rfl, rfl⟩ | ⟨rfl, rfl⟩ <;> rfl
  linked := by
    intro i a b ha hb
    rcases threeBlocks_cases ha with ⟨rfl, rfl⟩ | ⟨rfl, rfl⟩ | ⟨rfl, rfl⟩ <;>
      rcases threeBlocks_cases hb with ⟨hi, rfl⟩ | ⟨hi, rfl⟩ | ⟨hi, rfl⟩ <;>
        first | rfl | omega
  hashes_nodup := by decide
  ids := by simp [threeBlocks, submitBlock, IrysBlockHeader.getDataLedgerTxIdsOrdered]
  total := by
    intro i b h
    rcases threeBlocks_cases h with ⟨rfl, rfl⟩ | ⟨rfl, rfl⟩ | ⟨rfl, rfl⟩ <;> decide
  fits := by simp [threeBlocks, submitBlock, IrysBlockHeader.ledgerTotalChunks]
  size_pos := by simp [threeBlocks, submitBlock]
  ids_nodup := by decide

theorem threeBlocks_served :
    Serves threeBlocksStores twoChunkConfig.toConsensusConfig .submit threeBlocks 2 where
  wf := threeBlocks_chain
  parent := by decide
  index := rfl
  tree_eq := by
    simp [threeBlocks, threeBlocksStores, submitBlock]
  in_tree := by
    intro i b h hi hp
    rcases threeBlocks_cases h with ⟨rfl, rfl⟩ | ⟨rfl, rfl⟩ | ⟨rfl, rfl⟩
    · exact absurd hi (by decide)
    · exact absurd hi (by decide)
    · rfl
  root := by
    intro b h
    cases h
    rfl
  header := by
    intro i b h hi
    rcases threeBlocks_cases h with ⟨rfl, rfl⟩ | ⟨rfl, rfl⟩ | ⟨rfl, rfl⟩ <;> rfl
  tx := by
    intro i b h hi
    rcases threeBlocks_cases h with ⟨rfl, rfl⟩ | ⟨rfl, rfl⟩ | ⟨rfl, rfl⟩
    · simp [submitBlock]
    · simp [submitBlock, Stores.getDataTx, threeBlocksStores]
    · exact absurd hi (by decide)
  included := by
    intro i b h hi
    rcases threeBlocks_cases h with ⟨rfl, rfl⟩ | ⟨rfl, rfl⟩ | ⟨rfl, rfl⟩
    · simp [submitBlock]
    · simp [submitBlock, threeBlocksStores]
    · exact absurd hi (by decide)
  window := by decide

/-- With slot 0 expired, the transaction of two chunks is settled and filtered, and the one behind
it in the same block is neither. -/
theorem walk_agrees_with_filter_three_blocks :
    ∃ txToMiners txHeaders,
      walkExpiredSlots threeBlocksStores 3 twoChunkConfig.toConsensusConfig .submit
        ((∅ : SlotMiners).insert 0 [7]) (submitBlock 2 5 [⟨13, 64⟩]).header =
          .ok (txToMiners, txHeaders) ∧
      txToMiners[11]? = some [7] ∧
      submitTxExpired threeBlocksStores twoChunkConfig.toConsensusConfig 11
        (rangeAbove (submitBlock 2 5 [⟨13, 64⟩]) 2) = .ok (txToMiners.contains 11) ∧
      submitTxExpired threeBlocksStores twoChunkConfig.toConsensusConfig 12
        (rangeAbove (submitBlock 2 5 [⟨13, 64⟩]) 2) = .ok (txToMiners.contains 12) := by
  have hslots : ∀ k : ℕ, ((∅ : SlotMiners).insert 0 [7]).contains k = true ↔ 0 ≤ k ∧ k < 1 := by
    intro k
    rw [Std.TreeMap.contains_insert]
    simp
    omega
  have hparent : threeBlocks[2]? = some (submitBlock 2 5 [⟨13, 64⟩]) := rfl
  obtain ⟨m, headers, hwalk, hm, -, hfilter⟩ := walk_agrees_with_filter threeBlocks_served hparent
    (show 2 < 3 by decide) (show 0 ≤ 1 by decide) hslots
  refine ⟨m, headers, hwalk, ?_, hfilter rfl 11, hfilter rfl 12⟩
  refine (hm 11 [7]).mpr ⟨⟨11, 33⟩, 0, ⟨by decide, by decide, by decide⟩, rfl, ?_⟩
  simp

end Irys
