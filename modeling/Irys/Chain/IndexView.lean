import Irys.Chain.Stores

/-!
# Searching the block index

The index answers "which block introduced this chunk" by a binary search over the heights.  The
search is right on every stretch of heights over which a ledger's totals do not fall: what the
items above the anchor say does not matter.

* `index_search_finds_block` — the searches over an index whose totals do not fall.
-/

namespace Irys

/-- Blocks linked by hash, block `i` at height `i`. -/
structure Ancestry (chain : List SealedBlock) : Prop where
  height : ∀ {i : ℕ} {b : SealedBlock}, chain[i]? = some b → b.header.height = i
  linked : ∀ {i : ℕ} {a b : SealedBlock}, chain[i]? = some a → chain[i + 1]? = some b →
    b.header.previousBlockHash = a.header.blockHash

/-- The entry of the block index that a block migrates to. -/
def indexItemOf (b : SealedBlock) : BlockIndexItem where
  blockHash := b.header.blockHash
  ledgers := b.header.dataLedgers.map fun dl => ⟨dl.totalChunks, dl.txRoot, dl.ledgerId⟩

theorem indexItemOf_ledgerItem? (b : SealedBlock) (ledger : DataLedger) :
    (indexItemOf b).ledgerItem? ledger =
      (b.header.dataLedgers.find? fun dl => dl.ledgerId == ledger).map
        fun dl => ⟨dl.totalChunks, dl.txRoot, dl.ledgerId⟩ := by
  rw [BlockIndexItem.ledgerItem?, indexItemOf, List.find?_map]
  rfl

@[simp] theorem ledgerTotalOfIndexItem_indexItemOf (b : SealedBlock) (ledger : DataLedger) :
    ledgerTotalOfIndexItem (indexItemOf b) ledger = b.header.ledgerTotalChunks ledger := by
  rw [ledgerTotalOfIndexItem, BlockIndexItem.total?, indexItemOf_ledgerItem?, Option.map_map,
    IrysBlockHeader.ledgerTotalChunks]
  rfl

theorem ledgerItem?_of_pos (item : BlockIndexItem) (ledger : DataLedger)
    (h : 0 < ledgerTotalOfIndexItem item ledger) :
    ∃ entry, item.ledgerItem? ledger = some entry ∧
      entry.totalChunks = ledgerTotalOfIndexItem item ledger := by
  rw [ledgerTotalOfIndexItem, BlockIndexItem.total?] at h ⊢
  cases hentry : item.ledgerItem? ledger with
  | none => simp [hentry] at h
  | some entry => exact ⟨entry, rfl, rfl⟩

variable {s : Stores} {ledger : DataLedger} {before : ℕ → ℕ} {n : ℕ}

/-- **The totals of the first `n` items**: `before i` is the ledger's total before height `i`. -/
structure IndexTotals (s : Stores) (ledger : DataLedger) (before : ℕ → ℕ) (n : ℕ) : Prop where
  item : ∀ i < n, ∃ item, s.index[i]? = some item ∧
    ledgerTotalOfIndexItem item ledger = before (i + 1)
  zero : before 0 = 0
  mono : ∀ i < n, before i ≤ before (i + 1)

namespace IndexTotals

section

variable (h : IndexTotals s ledger before n)
include h

theorem itemByHeight {i : ℕ} (hi : i < n) :
    ∃ item, s.itemByHeight i = .ok item ∧ s.index[i]? = some item ∧
      ledgerTotalOfIndexItem item ledger = before (i + 1) := by
  obtain ⟨item, hitem, htotal⟩ := h.item i hi
  exact ⟨item, by rw [Stores.itemByHeight, hitem], hitem, htotal⟩

theorem before_mono {i j : ℕ} (hij : i ≤ j) (hj : j ≤ n) : before i ≤ before j := by
  induction hij with
  | refl => exact le_rfl
  | step hij ih => exact (ih (by omega)).trans (h.mono _ (by omega))

/-- **The binary search finds the block of a chunk.** -/
theorem searchHeight {offset j : ℕ} (hle : before j ≤ offset) (hlt : offset < before (j + 1)) :
    ∀ {lo hi : ℕ}, lo ≤ j → j ≤ hi → hi < n → s.searchHeight ledger offset lo hi = .ok j := by
  intro lo hi
  -- the interval shrinks around `j`
  induction hgap : hi - lo using Nat.strong_induction_on generalizing lo hi with
  | _ gap ih =>
    intro hlo hhi hlen
    rw [Stores.searchHeight]
    by_cases hcmp : lo < hi
    · obtain ⟨item, hitem, -, htotal⟩ :=
        h.itemByHeight (show lo + (hi - lo) / 2 < n by omega)
      rw [if_pos hcmp]
      dsimp only
      rw [hitem, ok_bind, htotal]
      by_cases hoff : offset < before (lo + (hi - lo) / 2 + 1)
      · rw [if_pos hoff]
        have hmid : j ≤ lo + (hi - lo) / 2 := by
          by_contra hgt
          have := h.before_mono (show lo + (hi - lo) / 2 + 1 ≤ j by omega) (by omega)
          omega
        exact ih _ (by omega) rfl hlo hmid (by omega)
      · rw [if_neg hoff]
        have hmid : lo + (hi - lo) / 2 + 1 ≤ j := by
          by_contra hgt
          have := h.before_mono (show j + 1 ≤ lo + (hi - lo) / 2 + 1 by omega) (by omega)
          omega
        exact ih _ (by omega) rfl hmid hhi hlen
    · rw [if_neg hcmp]
      congr 1
      omega

theorem totalBeforeHeight {j : ℕ} (hj : j < n) : s.totalBeforeHeight ledger j = .ok (before j) := by
  rw [Stores.totalBeforeHeight]
  cases j with
  | zero => rw [if_pos rfl, h.zero]
  | succ i =>
    obtain ⟨item, hitem, -, htotal⟩ := h.itemByHeight (show i < n by omega)
    rw [if_neg (Nat.succ_ne_zero i), Nat.add_sub_cancel, hitem, ok_bind, htotal]
    rfl

/-- **The bounds of a chunk below the anchor's total** are those of the block that introduced it. -/
theorem blockBoundsAtHeight {offset j anchor : ℕ} (hle : before j ≤ offset)
    (hlt : offset < before (j + 1)) (hj : j ≤ anchor) (hanchor : anchor < n) :
    ∃ item entry, s.index[j]? = some item ∧ item.ledgerItem? ledger = some entry ∧
      entry.totalChunks = before (j + 1) ∧
      s.blockBoundsAtHeight ledger offset anchor =
        .ok ⟨⟨j, item.blockHash, before j, before (j + 1)⟩, ledger, entry.txRoot⟩ := by
  have hmono := h.before_mono (show j + 1 ≤ anchor + 1 by omega) (by omega)
  obtain ⟨top, htop, -, htoptotal⟩ := h.itemByHeight hanchor
  obtain ⟨topEntry, htopEntry, htopchunks⟩ := ledgerItem?_of_pos top ledger (by omega)
  obtain ⟨item, hitem, hindex, htotal⟩ := h.itemByHeight (show j < n by omega)
  obtain ⟨entry, hentry, hchunks⟩ := ledgerItem?_of_pos item ledger (by omega)
  have hmax : top.total? ledger = some (before (anchor + 1)) := by
    rw [BlockIndexItem.total?, htopEntry, Option.map_some, htopchunks, htoptotal]
  refine ⟨item, entry, hindex, hentry, hchunks.trans htotal, ?_⟩
  rw [Stores.blockBoundsAtHeight, htop, ok_bind, hmax]
  dsimp only
  rw [if_neg (by omega), h.searchHeight hle hlt (Nat.zero_le _) hj hanchor, ok_bind, hitem, ok_bind,
    h.totalBeforeHeight (by omega), ok_bind, hentry]
  dsimp only
  rw [hchunks, htotal]
  rfl

/-- **What the search answers**, by the anchor's entry. -/
theorem outcome (offset : ℕ) {anchor : ℕ} {top : BlockIndexItem} (hanchor : anchor < n)
    (htop : s.index[anchor]? = some top) :
    (top.total? ledger = none ∧
        s.blockBoundsAtHeight ledger offset anchor = fail (.ledgerInactive ledger anchor)) ∨
      (∃ m, top.total? ledger = some m ∧ m ≤ offset ∧ s.blockBoundsAtHeight ledger offset anchor =
        fail (.offsetBeyondFrontier ledger offset m anchor)) ∨
      ∃ m j item entry, top.total? ledger = some m ∧ offset < m ∧ j ≤ anchor ∧
        before j ≤ offset ∧ offset < before (j + 1) ∧ s.index[j]? = some item ∧
        item.ledgerItem? ledger = some entry ∧ s.blockBoundsAtHeight ledger offset anchor =
          .ok ⟨⟨j, item.blockHash, before j, before (j + 1)⟩, ledger, entry.txRoot⟩ := by
  have hread : s.itemByHeight anchor = .ok top := by rw [Stores.itemByHeight, htop]
  cases hmax : top.total? ledger with
  | none =>
    refine .inl ⟨rfl, ?_⟩
    rw [Stores.blockBoundsAtHeight, hread, ok_bind, hmax]
  | some m =>
    by_cases hle : m ≤ offset
    · refine .inr (.inl ⟨m, rfl, hle, ?_⟩)
      rw [Stores.blockBoundsAtHeight, hread, ok_bind, hmax]
      exact if_pos hle
    · obtain ⟨top', htop', htotal⟩ := h.item anchor hanchor
      rw [htop] at htop'
      cases htop'
      rw [ledgerTotalOfIndexItem, hmax, Option.getD_some] at htotal
      obtain ⟨j, hj, hbefore, hlt⟩ :=
        exists_crossing (f := before) (x := offset) (n := anchor + 1) (by rw [h.zero]; omega) (by omega)
      obtain ⟨item, entry, hitem, hentry, -, hbounds⟩ :=
        h.blockBoundsAtHeight hbefore hlt (Nat.le_of_lt_succ hj) hanchor
      exact .inr (.inr ⟨m, j, item, entry, rfl, by omega, by omega, hbefore, hlt, hitem, hentry,
        hbounds⟩)

theorem crossing_unique {offset i j : ℕ} (hi : i < n) (hj : j < n) (hi' : before i ≤ offset)
    (hi'' : offset < before (i + 1)) (hj' : before j ≤ offset) (hj'' : offset < before (j + 1)) :
    i = j := by
  rcases Nat.lt_trichotomy i j with hlt | heq | hgt
  · have := h.before_mono (show i + 1 ≤ j from hlt) hj.le
    omega
  · exact heq
  · have := h.before_mono (show j + 1 ≤ i from hgt) hi.le
    omega

end

end IndexTotals

/-! ### An index whose totals do not fall -/

namespace Stores

/-- The loop of `get_block_index_item`, to which a missing entry is an error. -/
def searchItemHeight (s : Stores) (ledger : DataLedger) (chunkOffset lo hi : ℕ) :
    Res ChainReadError ℕ :=
  if lo < hi then do
    let mid := lo + (hi - lo) / 2
    let item ← s.itemByHeight mid
    match item.total? ledger with
    | none => fail (.ledgerNotFound ledger mid)
    | some total =>
      if chunkOffset < total then searchItemHeight s ledger chunkOffset lo mid
      else searchItemHeight s ledger chunkOffset (mid + 1) hi
  else .ok lo
termination_by hi - lo

/-- **`get_block_index_item`**: the search at the latest height, over entries that must exist. -/
def getBlockIndexItem (s : Stores) (ledger : DataLedger) (chunkOffset : ℕ) :
    Res ChainReadError (ℕ × BlockIndexItem) :=
  if s.index.isEmpty then fail .indexEmpty
  else do
    let latestHeight := s.index.length - 1
    let lastItem ← s.itemByHeight latestHeight
    match lastItem.total? ledger with
    | none => fail (.ledgerNotFound ledger latestHeight)
    | some lastMax =>
      if chunkOffset < lastMax then do
        let lo ← s.searchItemHeight ledger chunkOffset 0 latestHeight
        let item ← s.itemByHeight lo
        return (lo, item)
      else fail (.offsetBeyondFrontier ledger chunkOffset lastMax (latestHeight + 1))

/-- A ledger's total before a height. -/
def totalBefore (s : Stores) (ledger : DataLedger) : ℕ → ℕ
  | 0 => 0
  | height + 1 => (s.index[height]?.map (ledgerTotalOfIndexItem · ledger)).getD 0

/-- The index with nothing above a height. -/
def upTo (s : Stores) (height : ℕ) : Stores := { s with index := s.index.take (height + 1) }

/-- A ledger's totals do not fall with the height. -/
def Rising (s : Stores) (ledger : DataLedger) : Prop :=
  ∀ height < s.index.length, s.totalBefore ledger height ≤ s.totalBefore ledger (height + 1)

theorem Rising.indexTotals (h : s.Rising ledger) :
    IndexTotals s ledger (s.totalBefore ledger) s.index.length where
  item := by
    intro i hi
    refine ⟨s.index[i], List.getElem?_eq_getElem hi, ?_⟩
    rw [totalBefore, List.getElem?_eq_getElem hi]
    rfl
  zero := rfl
  mono := h

theorem searchItemHeight_eq (hall : ∀ item ∈ s.index, (item.ledgerItem? ledger).isSome)
    (offset lo hi : ℕ) :
    s.searchItemHeight ledger offset lo hi = s.searchHeight ledger offset lo hi := by
  fun_induction searchHeight s ledger offset lo hi with
  | case1 lo hi hlt mid ihl ihr =>
    rw [searchItemHeight, if_pos hlt, ← ihl, ← ihr]
    show (s.itemByHeight mid >>= _) = _
    cases hindex : s.index[mid]? with
    | none => simp only [itemByHeight, hindex, fail_bind]
    | some item =>
      obtain ⟨entry, hentry⟩ :=
        Option.isSome_iff_exists.mp (hall item (List.mem_of_getElem? hindex))
      simp only [itemByHeight, hindex, ok_bind, ledgerTotalOfIndexItem, BlockIndexItem.total?, hentry,
        Option.map_some, Option.getD_some]
      rfl
  | case2 lo hi hlt => rw [searchItemHeight, if_neg hlt]

/-- **The search never reads above its anchor.** -/
theorem blockBoundsAtHeight_upTo {anchor : ℕ} (h : IndexTotals s ledger before n) (hn : anchor < n)
    (offset : ℕ) : (s.upTo anchor).blockBoundsAtHeight ledger offset anchor =
      s.blockBoundsAtHeight ledger offset anchor := by
  have hsame : ∀ i ≤ anchor, (s.upTo anchor).index[i]? = s.index[i]? := fun i hi =>
    List.getElem?_take_of_lt (Nat.lt_succ_of_le hi)
  have hup : IndexTotals (s.upTo anchor) ledger before (anchor + 1) :=
    ⟨fun i hi => by
      rw [hsame i (by omega)]
      exact h.item i (by omega), h.zero, fun i hi => h.mono i (by omega)⟩
  obtain ⟨top, htop, -⟩ := h.item anchor hn
  have htop' := (hsame anchor le_rfl).trans htop
  rcases h.outcome offset hn htop with ⟨hmax, hout⟩ | ⟨m, hmax, hle, hout⟩ |
    ⟨m, j, item, entry, -, -, hj, hbefore, hafter, hitem, hentry, hout⟩
  · rw [hout, blockBoundsAtHeight, itemByHeight, htop', ok_bind, hmax]
  · rw [hout, blockBoundsAtHeight, itemByHeight, htop', ok_bind, hmax]
    exact if_pos hle
  · obtain ⟨item', entry', hitem', hentry', -, hout'⟩ :=
      hup.blockBoundsAtHeight hbefore hafter hj (Nat.lt_succ_self _)
    rw [hsame j hj, hitem] at hitem'
    cases hitem'
    rw [hentry] at hentry'
    cases hentry'
    rw [hout, hout']

/-- **The two searches agree** on a ledger that every item has. -/
theorem getBlockIndexItem_iff (h : IndexTotals s ledger before s.index.length)
    (hall : ∀ item ∈ s.index, (item.ledgerItem? ledger).isSome) (offset j : ℕ)
    (item : BlockIndexItem) : s.getBlockIndexItem ledger offset = .ok (j, item) ↔
      s.index[j]? = some item ∧
        ∃ b, s.getBlockBounds ledger offset = .ok b ∧ b.height = j := by
  rw [getBlockIndexItem, getBlockBounds]
  cases hempty : s.index.isEmpty with
  | true => simp
  | false =>
    have hpos : s.index.length - 1 < s.index.length := by
      have := List.length_pos_iff.mpr (by simpa using hempty)
      omega
    have htop := List.getElem?_eq_getElem hpos
    have hread : s.itemByHeight (s.index.length - 1) = .ok s.index[s.index.length - 1] := by
      rw [itemByHeight, htop]
    simp only [Bool.false_eq_true, if_false, hread, ok_bind, searchItemHeight_eq hall]
    rcases h.outcome offset hpos htop with ⟨hmax, hout⟩ | ⟨m, hmax, hle, hout⟩ |
      ⟨m, k, found, entry, hmax, hlt, hk, hbefore, hafter, hfound, -, hout⟩
    · simp [hmax, hout]
    · simp [hmax, hout, Nat.not_lt.mpr hle]
    · have hsearch := h.searchHeight hbefore hafter (Nat.zero_le k) hk hpos
      simp only [hmax, hout, if_pos hlt, hsearch, ok_bind, itemByHeight, hfound]
      constructor
      · intro hret
        cases hret
        exact ⟨hfound, _, rfl, rfl⟩
      · intro hret
        obtain ⟨hitem, b, hb, rfl⟩ := hret
        cases hb
        rw [hfound] at hitem
        cases hitem
        rfl

/-- **The binary search finds the introducing block.**  Over an index whose totals do not fall, with
an absent entry counted as 0: a chunk below the anchor's total gets the bounds of the one block at
or below the anchor that introduced it; a ledger the anchor does not have and an offset at or above
its total are refused, and nothing else is; nothing above the anchor is read; and for a ledger that
every item has, `get_block_index_item` finds the same block. -/
theorem index_search_finds_block (hrise : s.Rising ledger) (offset : ℕ) {anchor : ℕ}
    {top : BlockIndexItem} (htop : s.index[anchor]? = some top) :
    (∀ m, top.total? ledger = some m → offset < m →
      ∃ j item entry, (∀ k ≤ anchor, (s.totalBefore ledger k ≤ offset ∧
          offset < s.totalBefore ledger (k + 1)) ↔ k = j) ∧
        s.index[j]? = some item ∧ item.ledgerItem? ledger = some entry ∧
        s.blockBoundsAtHeight ledger offset anchor = .ok ⟨⟨j, item.blockHash,
          s.totalBefore ledger j, s.totalBefore ledger (j + 1)⟩, ledger, entry.txRoot⟩) ∧
    (s.blockBoundsAtHeight ledger offset anchor = fail (.ledgerInactive ledger anchor) ↔
      top.total? ledger = none) ∧
    (∀ m, s.blockBoundsAtHeight ledger offset anchor =
        fail (.offsetBeyondFrontier ledger offset m anchor) ↔
      top.total? ledger = some m ∧ m ≤ offset) ∧
    (∀ j, s.blockBoundsAtHeight ledger offset anchor ≠ fail (.ledgerNotFound ledger j)) ∧
    (s.upTo anchor).blockBoundsAtHeight ledger offset anchor =
      s.blockBoundsAtHeight ledger offset anchor ∧
    ((∀ item ∈ s.index, (item.ledgerItem? ledger).isSome) → ∀ j item,
      s.getBlockIndexItem ledger offset = .ok (j, item) ↔ s.index[j]? = some item ∧
        ∃ b, s.getBlockBounds ledger offset = .ok b ∧ b.height = j) := by
  have h := hrise.indexTotals
  have hn : anchor < s.index.length := lt_length_of_some htop
  have hagree := fun hall => getBlockIndexItem_iff h hall offset
  rw [blockBoundsAtHeight_upTo h hn]
  rcases h.outcome offset hn htop with ⟨hmax, hout⟩ | ⟨m, hmax, hle, hout⟩ |
    ⟨m, j, item, entry, hmax, hlt, hj, hbefore, hafter, hitem, hentry, hout⟩
  · simpa [hmax, hout, fail] using hagree
  · simpa [hmax, hout, fail, hle] using hagree
  · refine ⟨fun _ _ _ => ⟨j, item, entry, ?_, hitem, hentry, hout⟩, ?_, ?_, ?_, rfl, hagree⟩
    · intro k hk
      constructor
      · intro hcross
        exact h.crossing_unique (by omega) (by omega) hcross.1 hcross.2 hbefore hafter
      · intro heq
        subst heq
        exact ⟨hbefore, hafter⟩
    · simp [hmax, hout, fail]
    · simp [hmax, hout, fail, hlt]
    · simp [hout, fail]

/-- An index of three blocks in which Submit first appears at height 1. -/
def risingStores : Stores where
  tree _ := none
  index := [⟨1, []⟩, ⟨2, [⟨0, 0, .submit⟩]⟩, ⟨3, [⟨4, 9, .submit⟩]⟩]
  headers _ := none
  mempoolTxs _ := none
  databaseTxs _ := none
  includedHeight _ := none

theorem index_search_finds_block_three_blocks :
    risingStores.blockBoundsAtHeight .submit 3 2 = .ok ⟨⟨2, 3, 0, 4⟩, .submit, 9⟩ := by
  have hrise : risingStores.Rising .submit := by
    unfold Rising
    decide
  have htop : risingStores.index[2]? = some _ := rfl
  obtain ⟨j, item, entry, hcross, hitem, hentry, hbounds⟩ :=
    (index_search_finds_block hrise 3 htop).1 4 rfl (by decide)
  obtain rfl := (hcross 2 le_rfl).mp (by decide)
  cases hitem
  cases hentry
  exact hbounds

end Stores

end Irys
