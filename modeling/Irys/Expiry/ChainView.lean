import Irys.Chain.IndexView
import Irys.Lib.Layout

/-!
# A chain and the stores that hold it

The readers of a node see a chain in two parts: a migrated prefix in the index and the tables,
and the rest in the block tree.  Here is what it means that a node holds a chain, and what the
readers then return: the chain.
-/

namespace Irys

open List

section

variable (config : ConsensusConfig)

/-- The chunks a transaction takes. -/
def chunksOf (tx : DataTransactionHeader) : ℕ :=
  divCeil tx.dataSize config.chunkSize

/-- The chunks a block adds to a ledger. -/
def blockChunks (ledger : DataLedger) (b : SealedBlock) : ℕ :=
  extent (chunksOf config) (b.dataTxs ledger)

/-- The chunks of a ledger before block `j` of a chain. -/
abbrev chunksBefore (ledger : DataLedger) (chain : List SealedBlock)
    (j : ℕ) : ℕ :=
  frontier (blockChunks config ledger) chain j

theorem chunksBefore_mono (ledger : DataLedger)
    (chain : List SealedBlock) {i j : ℕ} (h : i ≤ j) :
    chunksBefore config ledger chain i ≤ chunksBefore config ledger chain j :=
  frontier_mono _ _ h

/-- **A chain of blocks, as one ledger sees it.**  Block `i` has height `i`; each header's chunk
total is the running sum of the chunks of the transactions, whose ids it lists in order; no
transaction is empty and none is included twice. -/
structure LedgerChain (ledger : DataLedger) (chain : List SealedBlock) :
    Prop extends Ancestry chain where
  hashes_nodup : (chain.map (·.header.blockHash)).Nodup
  ids : ∀ b ∈ chain,
    (b.header.getDataLedgerTxIdsOrdered ledger).getD [] = (b.dataTxs ledger).map (·.id)
  total : ∀ {i : ℕ} {b : SealedBlock}, chain[i]? = some b →
    b.header.ledgerTotalChunks ledger = chunksBefore config ledger chain (i + 1)
  fits : ∀ b ∈ chain, b.header.ledgerTotalChunks ledger < 2 ^ 64
  size_pos : ∀ b ∈ chain, ∀ tx ∈ b.dataTxs ledger, 0 < tx.dataSize
  ids_nodup : ((chain.flatMap (·.dataTxs ledger)).map (·.id)).Nodup

end

/-- **A node holds a chain**, up to the parent at height `parentHeight`: the index is a prefix of
the chain with headers, transactions and inclusion heights in the tables; the blocks above it are
in the tree, with nothing before the first block; and what the index lacks is no more than the
anchor depth, which a checked configuration keeps no smaller than the migration depth. -/
structure Serves (s : Stores) (config : ConsensusConfig) (ledger : DataLedger)
    (chain : List SealedBlock) (parentHeight : ℕ) : Prop where
  wf : LedgerChain config ledger chain
  parent : parentHeight < chain.length
  index : s.index = (chain.take s.index.length).map indexItemOf
  tree_eq : ∀ b ∈ chain, ∀ t, s.tree b.header.blockHash = some t → t = b
  in_tree : ∀ {i : ℕ} {b : SealedBlock}, chain[i]? = some b → s.index.length ≤ i →
    i ≤ parentHeight → s.tree b.header.blockHash = some b
  root : ∀ {b : SealedBlock}, chain[0]? = some b → s.tree b.header.previousBlockHash = none
  header : ∀ {i : ℕ} {b : SealedBlock}, chain[i]? = some b → i < s.index.length →
    s.headers b.header.blockHash = some b.header
  tx : ∀ {i : ℕ} {b : SealedBlock}, chain[i]? = some b → i < s.index.length →
    ∀ tx ∈ b.dataTxs ledger, s.getDataTx tx.id = some tx
  included : ∀ {i : ℕ} {b : SealedBlock}, chain[i]? = some b → i < s.index.length →
    ∀ tx ∈ b.dataTxs ledger, s.includedHeight tx.id = some i
  window : parentHeight ≤ s.index.length + config.txAnchorExpiryDepth

variable {s : Stores} {config : ConsensusConfig} {ledger : DataLedger} {chain : List SealedBlock}
  {parentHeight : ℕ}

theorem chunksBefore_succ {i : ℕ} {b : SealedBlock} (hb : chain[i]? = some b) :
    chunksBefore config ledger chain (i + 1) =
      chunksBefore config ledger chain i + extent (chunksOf config) (b.dataTxs ledger) :=
  frontier_succ hb

theorem LedgerChain.block_fits (wf : LedgerChain config ledger chain) {i : ℕ} {b : SealedBlock}
    (hb : chain[i]? = some b) :
    chunksBefore config ledger chain i + extent (chunksOf config) (b.dataTxs ledger) < 2 ^ 64 := by
  rw [← chunksBefore_succ hb, ← wf.total hb]
  exact wf.fits b (mem_of_getElem? hb)

/-! ### The index -/

namespace Serves

section

variable (h : Serves s config ledger chain parentHeight)
include h

theorem index_length_le : s.index.length ≤ chain.length := by
  have := congrArg List.length h.index
  rw [length_map, length_take] at this
  omega

variable {i offset j : ℕ} {b : SealedBlock}

theorem getElem?_index (hb : chain[i]? = some b) (hi : i < s.index.length) :
    s.index[i]? = some (indexItemOf b) := by
  rw [h.index, getElem?_map, getElem?_take, if_pos (by simpa using hi), hb]
  rfl

theorem indexTotals :
    IndexTotals s ledger (chunksBefore config ledger chain) s.index.length where
  item := by
    intro i hi
    obtain ⟨b, hb⟩ := exists_at (hi.trans_le h.index_length_le)
    refine ⟨indexItemOf b, h.getElem?_index hb hi, ?_⟩
    rw [ledgerTotalOfIndexItem_indexItemOf, h.wf.total hb]
  zero := rfl
  mono := fun i _ => chunksBefore_mono config ledger chain (Nat.le_succ i)

/-- The span of block `j`. -/
def boundsOf (config : ConsensusConfig) (ledger : DataLedger) (chain : List SealedBlock) (j : ℕ)
    (b : SealedBlock) : BlockSpan where
  height := j
  blockHash := b.header.blockHash
  startChunkOffset := chunksBefore config ledger chain j
  endChunkOffset := chunksBefore config ledger chain (j + 1)

/-- **A migrated chunk is resolved by the index.** -/
theorem resolveOffsetViaIndex (hb : chain[j]? = some b) (hj : j < s.index.length)
    (hle : chunksBefore config ledger chain j ≤ offset)
    (hlt : offset < chunksBefore config ledger chain (j + 1)) :
    s.resolveOffsetViaIndex ledger offset = .ok (boundsOf config ledger chain j b) := by
  have hitem := h.getElem?_index hb hj
  have hne : s.index.isEmpty = false := by
    rw [isEmpty_eq_false_iff_exists_mem]
    exact ⟨_, mem_of_getElem? hitem⟩
  obtain ⟨item, entry, hindex, -, -, hbounds⟩ := h.indexTotals.blockBoundsAtHeight hle hlt
    (show j ≤ s.index.length - 1 by omega) (by omega)
  rw [hitem] at hindex
  cases hindex
  rw [Stores.resolveOffsetViaIndex, Stores.getBlockBounds, hne, if_neg Bool.false_ne_true, hbounds]
  rfl

/-! ### The tree -/

theorem predecessor (hb : chain[i + 1]? = some b) :
    ∃ a, chain[i]? = some a ∧ b.header.previousBlockHash = a.header.blockHash := by
  obtain ⟨a, ha⟩ := exists_before hb
  exact ⟨a, ha, h.wf.linked ha hb⟩

/-- What is not in the tree has migrated. -/
theorem migrated (hb : chain[i]? = some b) (hi : i ≤ parentHeight)
    (htree : s.tree b.header.blockHash = none) : i < s.index.length := by
  by_contra hge
  rw [h.in_tree hb (by omega) hi] at htree
  cases htree

/-- **The chunks before a block**, wherever its predecessor is held. -/
theorem predecessorTotal (hb : chain[i]? = some b) (hi : i ≤ parentHeight) :
    s.predecessorTotal b.header ledger = .ok (chunksBefore config ledger chain i) := by
  rw [Stores.predecessorTotal, h.wf.height hb]
  cases i with
  | zero => rfl
  | succ i =>
    obtain ⟨a, ha, hprev⟩ := h.predecessor hb
    rw [if_neg (Nat.succ_ne_zero i), hprev, Nat.add_sub_cancel]
    cases htree : s.tree a.header.blockHash with
    | some t =>
      rw [h.tree_eq a (mem_of_getElem? ha) t htree]
      exact congrArg Except.ok (h.wf.total ha)
    | none =>
      have hitem := h.getElem?_index ha (h.migrated ha (by omega) htree)
      have hcanonical : s.isCanonicalAt a.header.blockHash i = true := by
        rw [Stores.isCanonicalAt, hitem]
        simp [indexItemOf]
      dsimp only
      rw [hcanonical, hitem]
      simp only [Bool.not_true, Bool.false_eq_true, if_false, ledgerTotalOfIndexItem_indexItemOf,
        h.wf.total ha]

/-- **The walk down the tree finds the block of a chunk** above the index. -/
theorem walkToOffset (hb : chain[j]? = some b) (hj : s.index.length ≤ j)
    (hle : chunksBefore config ledger chain j ≤ offset)
    (hlt : offset < chunksBefore config ledger chain (j + 1)) :
    ∀ {i fuel : ℕ} {c : SealedBlock}, chain[i]? = some c → j ≤ i → i ≤ parentHeight → i < fuel →
      s.walkToOffset ledger offset fuel c.header.blockHash =
        .ok (some (boundsOf config ledger chain j b)) := by
  intro i fuel
  induction fuel generalizing i with
  | zero =>
    intro c _ _ _ hfuel
    exact absurd hfuel (Nat.not_lt_zero i)
  | succ fuel ih =>
    intro c hc hji hip hfuel
    rw [Stores.walkToOffset, h.in_tree hc (by omega) hip]
    dsimp only
    rw [h.predecessorTotal hc hip, ok_bind, h.wf.total hc]
    rcases Nat.eq_or_lt_of_le hji with heq | hlt'
    · subst heq
      rw [hb] at hc
      cases hc
      rw [if_pos ⟨hle, hlt⟩, h.wf.height hb]
      rfl
    · -- the chunk lies below this block
      have hbelow := chunksBefore_mono config ledger chain (show j + 1 ≤ i from hlt')
      obtain ⟨i, rfl⟩ : ∃ n, i = n + 1 := ⟨i - 1, by omega⟩
      obtain ⟨a, ha, hprev⟩ := h.predecessor hc
      rw [if_neg (by omega), hprev]
      exact ih ha (by omega) (by omega) (by omega)

theorem indexTipTotal :
    (s.index.getLast?.map (ledgerTotalOfIndexItem · ledger)).getD 0 =
      chunksBefore config ledger chain s.index.length := by
  rw [getLast?_eq_getElem?]
  rcases Nat.eq_zero_or_pos s.index.length with h0 | hpos
  · rw [h0, getElem?_eq_none (by omega)]
    rfl
  · obtain ⟨b, hb⟩ := exists_at (show s.index.length - 1 < chain.length by
      have := h.index_length_le
      omega)
    rw [h.getElem?_index hb (by omega), Option.map_some, Option.getD_some,
      ledgerTotalOfIndexItem_indexItemOf, h.wf.total hb, Nat.sub_add_cancel hpos]

/-- **Every chunk below the parent's total is resolved to its block.** -/
theorem resolve {parent : SealedBlock} (hparent : chain[parentHeight]? = some parent) {fuel : ℕ}
    (hb : chain[j]? = some b) (hj : j ≤ parentHeight) (hfuel : parentHeight < fuel)
    (hle : chunksBefore config ledger chain j ≤ offset)
    (hlt : offset < chunksBefore config ledger chain (j + 1)) :
    s.resolveLedgerOffsetToBlock fuel offset parent.header.blockHash ledger =
      .ok (boundsOf config ledger chain j b) := by
  rw [Stores.resolveLedgerOffsetToBlock, h.indexTipTotal]
  by_cases hmig : offset < chunksBefore config ledger chain s.index.length
  · rw [if_pos hmig]
    have hjm : j < s.index.length := by
      by_contra hge
      have := chunksBefore_mono config ledger chain (show s.index.length ≤ j by omega)
      omega
    exact h.resolveOffsetViaIndex hb hjm hle hlt
  · rw [if_neg hmig]
    have hjm : s.index.length ≤ j := index_le_of_frontier (Nat.le_of_not_lt hmig) hlt
    rw [h.walkToOffset hb hjm hle hlt hparent hj le_rfl hfuel]
    rfl

/-! ### Transactions -/

theorem getDataTxInParallel (hb : chain[i]? = some b) (hi : i < s.index.length) :
    s.getDataTxInParallel ((b.dataTxs ledger).map (·.id)) = .ok (b.dataTxs ledger) := by
  have hlookup := h.tx hb hi
  have hnone : ((b.dataTxs ledger).map (·.id)).filter (fun id => (s.getDataTx id).isNone) = [] := by
    rw [filter_eq_nil_iff]
    intro id hid
    obtain ⟨tx, htx, rfl⟩ := List.mem_map.mp hid
    simp [hlookup tx htx]
  have hall : ((b.dataTxs ledger).map (·.id)).filterMap s.getDataTx = b.dataTxs ledger := by
    rw [filterMap_map]
    have hsome : ∀ tx ∈ b.dataTxs ledger, (s.getDataTx ∘ (·.id)) tx = some tx := hlookup
    rw [filterMap_congr hsome, filterMap_some]
  rw [Stores.getDataTxInParallel, hnone, hall]
  rfl

theorem txIds (hb : b ∈ chain) (hne : b.dataTxs ledger ≠ []) :
    b.header.getDataLedgerTxIdsOrdered ledger = some ((b.dataTxs ledger).map (·.id)) := by
  have hids := h.wf.ids b hb
  cases hopt : b.header.getDataLedgerTxIdsOrdered ledger with
  | none =>
    rw [hopt, Option.getD_none] at hids
    exact absurd (map_eq_nil_iff.mp hids.symm) hne
  | some ids =>
    rw [hopt, Option.getD_some] at hids
    rw [hids]

theorem sealedTxHeaders (hb : b ∈ chain) (hne : b.dataTxs ledger ≠ []) :
    Stores.ledgerTxHeadersOfSealedBlock b ledger = .ok (b.dataTxs ledger) := by
  rw [Stores.ledgerTxHeadersOfSealedBlock, h.txIds hb hne]
  simp

/-- **A block's transactions are read in block order**, wherever the block is held. -/
theorem txHeaders (hb : chain[i]? = some b) (hi : i ≤ parentHeight) (hne : b.dataTxs ledger ≠ []) :
    s.ledgerTxHeadersOfBlock b.header.blockHash ledger = .ok (b.dataTxs ledger) := by
  have hmem := mem_of_getElem? hb
  rw [Stores.ledgerTxHeadersOfBlock]
  cases htree : s.tree b.header.blockHash with
  | some t =>
    rw [h.tree_eq b hmem t htree]
    exact h.sealedTxHeaders hmem hne
  | none =>
    have hmigrated := h.migrated hb hi htree
    dsimp only
    rw [h.header hb hmigrated]
    dsimp only
    rw [h.txIds hmem hne]
    exact h.getDataTxInParallel hb hmigrated

theorem canonicalHeaderAtHeight (i : ℕ) :
    Irys.canonicalHeaderAtHeight (s.index[·]?.map (·.blockHash)) s.headers i =
      .ok (if i < s.index.length then chain[i]?.map (·.header) else none) := by
  rw [Irys.canonicalHeaderAtHeight]
  by_cases hi : i < s.index.length
  · obtain ⟨b, hb⟩ := exists_at (hi.trans_le h.index_length_le)
    have hheader : s.headers (indexItemOf b).blockHash = some b.header := h.header hb hi
    rw [if_pos hi, h.getElem?_index hb hi, hb, Option.map_some]
    dsimp only
    rw [hheader]
    exact if_neg (not_not_intro (h.wf.height hb))
  · rw [if_neg hi, getElem?_eq_none (by omega)]
    rfl

end

end Serves

end Irys
