import Irys.Chain.IndexView

/-!
# The bounds of a data proof-of-access

A proof of access names a chunk of a ledger.  Its block is looked up in the index when the parent
has migrated, and otherwise by walking the parent's ancestry in the block tree, with the index for
what lies below the tree.  How much has migrated differs from node to node; what the lookup
returns does not.

* `poa_bounds_independent_of_migration` — every node that knows the ancestry returns just that.
-/

namespace Irys

open List Option

/-- Why pre-validation refused a proof of access.  A `blockBoundsLookupError` is a fault of the
node; everything else speaks against the block. -/
inductive PreValidationError where
  | parentNotInCache (parentHash : H256) (expectedHeight : ℕ)
  | poaLedgerInactive (ledger : DataLedger)
  | poaChunkOffsetOutOfBlockBounds
  | poaOffCanonicalAncestor (ancestorHash : H256) (height : ℕ)
  | blockBoundsLookupError (cause : ChainReadError)
  deriving DecidableEq

/-- `ledger_entry_in`: a header's total and root for a ledger. -/
def ledgerEntryIn (header : IrysBlockHeader) (ledger : DataLedger) : Option (ℕ × H256) :=
  (header.dataLedgers.find? fun l => l.ledgerId == ledger).map fun l => (l.totalChunks, l.txRoot)

/-- The errors of an index lookup anchored at a migrated parent. -/
def anchoredBoundsError (ledger : DataLedger) : ChainReadError → PreValidationError
  | .offsetBeyondFrontier .. => .poaChunkOffsetOutOfBlockBounds
  | .ledgerInactive .. => .poaLedgerInactive ledger
  | other => .blockBoundsLookupError other

section Lookup

variable (s : Stores) (ledger : DataLedger) (ledgerChunkOffset : ℕ)

def assertCanonicalViaMigratedHashes (prevHash : H256) (prevHeight : ℕ) :
    Res PreValidationError Unit :=
  if s.isCanonicalAt prevHash prevHeight then .ok ()
  else fail (.poaOffCanonicalAncestor prevHash prevHeight)

/-- The ledger's total before a block of the walk. -/
def poaPrevTotal (curr : IrysBlockHeader) : Res PreValidationError ℕ :=
  if curr.height = 0 then .ok 0
  else
    match s.tree curr.previousBlockHash with
    | some prev => .ok (((ledgerEntryIn prev.header ledger).map Prod.fst).getD 0)
    | none => do
      assertCanonicalViaMigratedHashes s curr.previousBlockHash (curr.height - 1)
      match s.index[curr.height - 1]? with
      | none => fail (.blockBoundsLookupError (.predecessorNotIndexed (curr.height - 1)))
      | some item => return ledgerTotalOfIndexItem item ledger

/-- The loop of `get_data_poa_bounds_with_block_tree_fallback`: at a candidate block, with its
total and root. -/
def poaWalk : ℕ → IrysBlockHeader → ℕ → H256 → Res PreValidationError (BlockBounds × H256)
  | 0, _, _, _ => fail (.blockBoundsLookupError .walkUnfinished)
  | fuel + 1, curr, currTotal, currTxRoot => do
    let prevTotal ← poaPrevTotal s ledger curr
    if prevTotal ≤ ledgerChunkOffset then
      return (⟨⟨curr.height, curr.blockHash, prevTotal, currTotal⟩, ledger, currTxRoot⟩,
        curr.blockHash)
    else if curr.height = 0 then
      fail (.blockBoundsLookupError
        (.offsetBeyondFrontier ledger ledgerChunkOffset currTotal curr.height))
    else
      match s.tree curr.previousBlockHash with
      | some prev => do
        let (total, txRoot) ← expect (ledgerEntryIn prev.header ledger)
        poaWalk fuel prev.header total txRoot
      | none => do
        assertCanonicalViaMigratedHashes s curr.previousBlockHash (curr.height - 1)
        let bounds ← mapErr .blockBoundsLookupError
          (s.blockBoundsAtHeight ledger ledgerChunkOffset (curr.height - 1))
        return (bounds, bounds.blockHash)

/-- The walk from the parent. -/
def poaBoundsFromTree (fuel : ℕ) (parentBlockHash : H256) (parentHeight : ℕ) :
    Res PreValidationError (BlockBounds × H256) :=
  match s.tree parentBlockHash with
  | none => fail (.parentNotInCache parentBlockHash parentHeight)
  | some parent =>
    match ledgerEntryIn parent.header ledger with
    | none => fail (.poaLedgerInactive ledger)
    | some (parentTotal, parentTxRoot) =>
      if parentTotal ≤ ledgerChunkOffset then fail .poaChunkOffsetOutOfBlockBounds
      else poaWalk s ledger ledgerChunkOffset fuel parent.header parentTotal parentTxRoot

/-- **`get_data_poa_bounds_with_block_tree_fallback`**: the bounds of the block that introduced
the chunk, and its hash. -/
def getDataPoaBounds (fuel : ℕ) (parentBlockHash : H256) (parentHeight : ℕ) :
    Res PreValidationError (BlockBounds × H256) :=
  -- the indexed block at the parent's height may be another one
  if s.isCanonicalAt parentBlockHash parentHeight then do
    let bounds ← mapErr (anchoredBoundsError ledger)
      (s.blockBoundsAtHeight ledger ledgerChunkOffset parentHeight)
    return (bounds, bounds.blockHash)
  else poaBoundsFromTree s ledger ledgerChunkOffset fuel parentBlockHash parentHeight

end Lookup

/-! ### What the ancestry says -/

/-- A ledger's total before block `i`. -/
def totalBefore (ledger : DataLedger) (chain : List SealedBlock) : ℕ → ℕ
  | 0 => 0
  | i + 1 => (chain[i]?.map fun b => b.header.ledgerTotalChunks ledger).getD 0

/-- A ledger's totals do not fall along the chain. -/
def TotalsRise (ledger : DataLedger) (chain : List SealedBlock) : Prop :=
  ∀ i < chain.length, totalBefore ledger chain i ≤ totalBefore ledger chain (i + 1)

/-- **A node knows an ancestry.**  Its index and its migrated hashes hold a canonical chain, its
tree the ancestry from height `low` on, and below `low` the ancestry is the canonical chain.  A
hash names one block. -/
structure Knows (s : Stores) (chain canonical : List SealedBlock) (low : ℕ) : Prop where
  index : s.index = canonical.map indexItemOf
  wf : Ancestry canonical
  identified : ∀ a ∈ canonical, ∀ b ∈ chain, a.header.blockHash = b.header.blockHash → a = b
  in_tree : ∀ {i : ℕ} {b : SealedBlock}, chain[i]? = some b → low ≤ i →
    s.tree b.header.blockHash = some b
  migrated : ∀ {i : ℕ} {b : SealedBlock}, chain[i]? = some b → i < low →
    s.tree b.header.blockHash = none ∧ canonical[i]? = some b

/-- **What the ancestry says about a chunk**, at the parent: the ledger is inactive, the chunk is
past the ledger's end, or it is in the one block whose span contains it. -/
inductive PoaOutcome (ledger : DataLedger) (offset : ℕ) (chain : List SealedBlock)
    (parent : SealedBlock) : Res PreValidationError (BlockBounds × H256) → Prop
  | inactive : parent.header.hasLedger ledger = false →
      PoaOutcome ledger offset chain parent (fail (.poaLedgerInactive ledger))
  | beyond : parent.header.hasLedger ledger = true →
      parent.header.ledgerTotalChunks ledger ≤ offset →
      PoaOutcome ledger offset chain parent (fail .poaChunkOffsetOutOfBlockBounds)
  | found {h : ℕ} {b : SealedBlock} {txRoot : H256} : chain[h]? = some b →
      totalBefore ledger chain h ≤ offset → offset < totalBefore ledger chain (h + 1) →
      ledgerEntryIn b.header ledger = some (totalBefore ledger chain (h + 1), txRoot) →
      PoaOutcome ledger offset chain parent
        (.ok (⟨⟨h, b.header.blockHash, totalBefore ledger chain h,
          totalBefore ledger chain (h + 1)⟩, ledger, txRoot⟩, b.header.blockHash))

variable {s : Stores} {ledger : DataLedger} {offset : ℕ} {chain canonical : List SealedBlock}
  {low : ℕ}

variable {i : ℕ} {b : SealedBlock}

theorem totalBefore_succ (ledger : DataLedger) (hb : chain[i]? = some b) :
    totalBefore ledger chain (i + 1) = b.header.ledgerTotalChunks ledger := by
  rw [totalBefore, hb]
  rfl

theorem TotalsRise.mono (h : TotalsRise ledger chain) {j : ℕ} (hij : i ≤ j)
    (hj : j ≤ chain.length) : totalBefore ledger chain i ≤ totalBefore ledger chain j := by
  induction hij with
  | refl => exact le_rfl
  | step hij ih => exact (ih (by omega)).trans (h _ (by omega))

theorem ledgerEntryIn_cases (header : IrysBlockHeader) (ledger : DataLedger) :
    (ledgerEntryIn header ledger = none ∧ header.hasLedger ledger = false ∧
      header.ledgerTotalChunks ledger = 0) ∨
    ∃ entry : DataTransactionLedger, (header.dataLedgers.find? fun l => l.ledgerId == ledger) =
        some entry ∧ header.hasLedger ledger = true ∧
      entry.totalChunks = header.ledgerTotalChunks ledger ∧
      ledgerEntryIn header ledger = some (header.ledgerTotalChunks ledger, entry.txRoot) := by
  rw [ledgerEntryIn, IrysBlockHeader.ledgerTotalChunks, IrysBlockHeader.hasLedger]
  cases hfind : header.dataLedgers.find? fun l => l.ledgerId == ledger with
  | none =>
    refine .inl ⟨rfl, ?_, rfl⟩
    rw [List.any_eq_false]
    exact find?_eq_none.mp hfind
  | some entry =>
    refine .inr ⟨entry, rfl, ?_, rfl, rfl⟩
    rw [List.any_eq_true]
    have hfound : (entry.ledgerId == ledger) = true :=
      find?_some (p := fun l : DataTransactionLedger => l.ledgerId == ledger) hfind
    exact ⟨entry, mem_of_find?_eq_some hfind, hfound⟩

theorem ledgerEntryIn_of_pos (header : IrysBlockHeader) (ledger : DataLedger)
    (h : 0 < header.ledgerTotalChunks ledger) : ∃ entry : DataTransactionLedger,
      (header.dataLedgers.find? fun l => l.ledgerId == ledger) = some entry ∧
      ledgerEntryIn header ledger = some (header.ledgerTotalChunks ledger, entry.txRoot) := by
  rcases ledgerEntryIn_cases header ledger with ⟨-, -, hzero⟩ | ⟨entry, hfind, -, -, hentry⟩
  · omega
  · exact ⟨entry, hfind, hentry⟩

/-! ### The canonical part of the ancestry -/

namespace Knows

variable {b : SealedBlock}

section

variable (h : Knows s chain canonical low)
include h

theorem getElem?_index {i : ℕ} (hb : canonical[i]? = some b) :
    s.index[i]? = some (indexItemOf b) := by
  rw [h.index, getElem?_map, hb]
  rfl

theorem isCanonicalAt_iff {i : ℕ} (hb : chain[i]? = some b) :
    s.isCanonicalAt b.header.blockHash i = true ↔ canonical[i]? = some b := by
  rw [Stores.isCanonicalAt, h.index, getElem?_map, Option.map_map]
  cases hc : canonical[i]? with
  | none => simp
  | some c =>
    simp only [map_some, Function.comp_apply, beq_iff_eq, Option.some.injEq]
    constructor
    · intro hhash
      exact h.identified c (mem_of_getElem? hc) b (mem_of_getElem? hb) hhash
    · rintro rfl
      rfl

/-- **A canonical ancestor has canonical ancestors.** -/
theorem agree (hchain : Ancestry chain) {m : ℕ} :
    ∀ {b : SealedBlock}, chain[m]? = some b → canonical[m]? = some b →
      ∀ i ≤ m, ∃ c, chain[i]? = some c ∧ canonical[i]? = some c := by
  induction m with
  | zero =>
    intro b hb hc i hi
    obtain rfl : i = 0 := by omega
    exact ⟨b, hb, hc⟩
  | succ m ih =>
    intro b hb hc i hi
    rcases Nat.eq_or_lt_of_le hi with rfl | hlt
    · exact ⟨b, hb, hc⟩
    · obtain ⟨a, ha⟩ := exists_before hb
      obtain ⟨a', ha'⟩ := exists_before hc
      have hhash := (h.wf.linked ha' hc).symm.trans (hchain.linked ha hb)
      obtain rfl := h.identified _ (mem_of_getElem? ha') _ (mem_of_getElem? ha) hhash
      exact ih ha ha' i (by omega)

theorem indexTotals (hchain : Ancestry chain) {ledger : DataLedger}
    (hrise : TotalsRise ledger chain) {m : ℕ} (hb : chain[m]? = some b)
    (hc : canonical[m]? = some b) :
    IndexTotals s ledger (totalBefore ledger chain) (m + 1) where
  item := by
    intro i hi
    obtain ⟨c, hic, hcc⟩ := h.agree hchain hb hc i (by omega)
    refine ⟨indexItemOf c, h.getElem?_index hcc, ?_⟩
    rw [ledgerTotalOfIndexItem_indexItemOf, totalBefore_succ ledger hic]
  zero := rfl
  mono := by
    intro i hi
    have := lt_length_of_some hb
    exact hrise i (by omega)

end

end Knows

section

variable (h : Knows s chain canonical low) (hchain : Ancestry chain)
include h hchain

/-- **The index at a canonical ancestor** finds the block of a chunk below its total. -/
theorem Knows.boundsAt (hrise : TotalsRise ledger chain) {m : ℕ} (hb : chain[m]? = some b)
    (hc : canonical[m]? = some b) (hlt : offset < totalBefore ledger chain (m + 1))
    (parent : SealedBlock) :
    ∃ bounds, s.blockBoundsAtHeight ledger offset m = .ok bounds ∧
      PoaOutcome ledger offset chain parent (.ok (bounds, bounds.blockHash)) := by
  obtain ⟨j, hj, hle, hlt'⟩ := exists_crossing (Nat.zero_le offset) hlt
  obtain ⟨item, entry, hitem, hentry, hchunks, hbounds⟩ :=
    (h.indexTotals hchain hrise hb hc).blockBoundsAtHeight hle hlt' (Nat.le_of_lt_succ hj)
      (Nat.lt_succ_self m)
  obtain ⟨c, hjc, hcc⟩ := h.agree hchain hb hc j (Nat.le_of_lt_succ hj)
  cases (h.getElem?_index hcc).symm.trans hitem
  refine ⟨_, hbounds, ?_⟩
  have htotal := totalBefore_succ ledger hjc
  obtain ⟨dl, hfind, hin⟩ := ledgerEntryIn_of_pos c.header ledger (by omega)
  rw [indexItemOf_ledgerItem?, hfind] at hentry
  cases hentry
  rw [← htotal] at hin
  exact .found hjc hle hlt' hin

/-! ### The walk -/

theorem poaPrevTotal_eq (hb : chain[i]? = some b) :
    poaPrevTotal s ledger b.header = .ok (totalBefore ledger chain i) := by
  rw [poaPrevTotal, hchain.height hb]
  cases i with
  | zero => rfl
  | succ i =>
    obtain ⟨a, ha⟩ := exists_before hb
    rw [if_neg (Nat.succ_ne_zero i), hchain.linked ha hb, Nat.add_sub_cancel,
      totalBefore_succ ledger ha]
    by_cases hlow : low ≤ i
    · rw [h.in_tree ha hlow]
      rcases ledgerEntryIn_cases a.header ledger with ⟨hnone, -, hzero⟩ |
        ⟨entry, -, -, -, hentry⟩
      · simp only [hnone, hzero, map_none, getD_none]
      · simp only [hentry, map_some, getD_some]
    · obtain ⟨hnone, hcanon⟩ := h.migrated ha (by omega)
      rw [hnone]
      dsimp only
      rw [assertCanonicalViaMigratedHashes, if_pos ((h.isCanonicalAt_iff ha).mpr hcanon), ok_bind,
        h.getElem?_index hcanon]
      dsimp only
      rw [ledgerTotalOfIndexItem_indexItemOf]
      rfl

/-- **The walk from a block of the tree** ends at the block of the chunk. -/
theorem poaWalk_outcome (hrise : TotalsRise ledger chain) (parent : SealedBlock) :
    ∀ {i fuel : ℕ} {b : SealedBlock} {txRoot : H256}, chain[i]? = some b → i < fuel →
      ledgerEntryIn b.header ledger = some (totalBefore ledger chain (i + 1), txRoot) →
      offset < totalBefore ledger chain (i + 1) →
      PoaOutcome ledger offset chain parent
        (poaWalk s ledger offset fuel b.header (totalBefore ledger chain (i + 1)) txRoot) := by
  intro i
  induction i with
  | zero =>
    intro fuel b txRoot hb hfuel hentry hlt
    obtain ⟨fuel, rfl⟩ : ∃ f, fuel = f + 1 := ⟨fuel - 1, by omega⟩
    have hzero : totalBefore ledger chain 0 ≤ offset := Nat.zero_le _
    rw [poaWalk, poaPrevTotal_eq h hchain hb, ok_bind, if_pos hzero, hchain.height hb]
    exact .found hb hzero hlt hentry
  | succ i ih =>
    intro fuel b txRoot hb hfuel hentry hlt
    obtain ⟨fuel, rfl⟩ : ∃ f, fuel = f + 1 := ⟨fuel - 1, by omega⟩
    rw [poaWalk, poaPrevTotal_eq h hchain hb, ok_bind]
    by_cases hle : totalBefore ledger chain (i + 1) ≤ offset
    · rw [if_pos hle, hchain.height hb]
      exact .found hb hle hlt hentry
    · obtain ⟨a, ha⟩ := exists_before hb
      have hlt' : offset < totalBefore ledger chain (i + 1) := by omega
      rw [if_neg hle, hchain.height hb, if_neg (Nat.succ_ne_zero i), hchain.linked ha hb,
        Nat.add_sub_cancel]
      by_cases hlow : low ≤ i
      · -- the predecessor is in the tree
        have htotal := totalBefore_succ ledger ha
        obtain ⟨entry, -, hprev⟩ := ledgerEntryIn_of_pos a.header ledger (by omega)
        rw [h.in_tree ha hlow]
        dsimp only
        rw [hprev, expect_some, ok_bind, ← htotal]
        rw [← htotal] at hprev
        exact ih ha (by omega) hprev hlt'
      · -- below the tree the ancestry is canonical, and the index takes over
        obtain ⟨hnone, hcanon⟩ := h.migrated ha (by omega)
        rw [hnone]
        dsimp only
        obtain ⟨bounds, hbounds, hout⟩ := h.boundsAt hchain hrise ha hcanon hlt' parent
        rw [assertCanonicalViaMigratedHashes, if_pos ((h.isCanonicalAt_iff ha).mpr hcanon),
          ok_bind, hbounds, mapErr_ok, ok_bind]
        exact hout

/-- **Every node that knows the ancestry** returns what the ancestry says. -/
theorem Knows.outcome (hrise : TotalsRise ledger chain) (offset : ℕ) {parentHeight fuel : ℕ}
    {parent : SealedBlock} (hparent : chain[parentHeight]? = some parent)
    (hfuel : parentHeight < fuel) :
    PoaOutcome ledger offset chain parent
      (getDataPoaBounds s ledger offset fuel parent.header.blockHash parentHeight) := by
  have htotal := totalBefore_succ ledger hparent
  rw [getDataPoaBounds]
  by_cases hcanon : s.isCanonicalAt parent.header.blockHash parentHeight = true
  · rw [if_pos hcanon]
    have hc := (h.isCanonicalAt_iff hparent).mp hcanon
    have hitem : s.itemByHeight parentHeight = .ok (indexItemOf parent) := by
      rw [Stores.itemByHeight, h.getElem?_index hc]
    rcases ledgerEntryIn_cases parent.header ledger with ⟨-, hno, -⟩ |
      ⟨entry, hfind, hhas, hchunks, -⟩
    · have hnone : (indexItemOf parent).total? ledger = none := by
        rw [BlockIndexItem.total?, indexItemOf_ledgerItem?, Option.map_map, map_eq_none_iff,
          find?_eq_none]
        rw [IrysBlockHeader.hasLedger, List.any_eq_false] at hno
        exact hno
      rw [Stores.blockBoundsAtHeight, hitem, ok_bind, hnone]
      exact .inactive hno
    · have hmax : (indexItemOf parent).total? ledger =
          some (parent.header.ledgerTotalChunks ledger) := by
        rw [BlockIndexItem.total?, indexItemOf_ledgerItem?, hfind]
        exact congrArg some hchunks
      by_cases hbeyond : parent.header.ledgerTotalChunks ledger ≤ offset
      · rw [Stores.blockBoundsAtHeight, hitem, ok_bind, hmax]
        dsimp only
        rw [if_pos hbeyond]
        exact .beyond hhas hbeyond
      · have hlt : offset < totalBefore ledger chain (parentHeight + 1) := by omega
        obtain ⟨bounds, hbounds, hout⟩ := h.boundsAt hchain hrise hparent hc hlt parent
        rw [hbounds, mapErr_ok, ok_bind]
        exact hout
  · -- the parent is not the indexed block of its height, so it is in the tree
    rw [if_neg hcanon, poaBoundsFromTree]
    have hlow : low ≤ parentHeight := by
      by_contra hlt
      exact hcanon ((h.isCanonicalAt_iff hparent).mpr (h.migrated hparent (by omega)).2)
    rw [h.in_tree hparent hlow]
    dsimp only
    rcases ledgerEntryIn_cases parent.header ledger with ⟨hnone, hno, -⟩ |
      ⟨entry, -, hhas, -, hentry⟩
    · rw [hnone]
      exact .inactive hno
    · rw [hentry]
      dsimp only
      by_cases hbeyond : parent.header.ledgerTotalChunks ledger ≤ offset
      · rw [if_pos hbeyond]
        exact .beyond hhas hbeyond
      · rw [if_neg hbeyond, ← htotal]
        rw [← htotal] at hentry
        exact poaWalk_outcome h hchain hrise parent hparent hfuel hentry (by omega)

end

/-! ### One outcome -/

/-- **The ancestry says one thing**: the outcomes exclude each other, and one block's span contains
the chunk. -/
theorem PoaOutcome.unique (hrise : TotalsRise ledger chain) {parentHeight : ℕ}
    {parent : SealedBlock} (hparent : chain[parentHeight]? = some parent)
    (hlast : chain.length = parentHeight + 1) {r r' : Res PreValidationError (BlockBounds × H256)}
    (h : PoaOutcome ledger offset chain parent r) (h' : PoaOutcome ledger offset chain parent r') :
    r = r' := by
  have htotal := totalBefore_succ ledger hparent
  -- a chunk in a block of the ancestry is below the parent's total
  have hbelow : ∀ {i : ℕ} {b : SealedBlock}, chain[i]? = some b →
      offset < totalBefore ledger chain (i + 1) →
        offset < parent.header.ledgerTotalChunks ledger := by
    intro i b hb hlt
    have hi := lt_length_of_some hb
    have := hrise.mono (show i + 1 ≤ parentHeight + 1 by omega) (by omega)
    omega
  have hfirst : ∀ {i j : ℕ} {b : SealedBlock}, chain[i]? = some b →
      totalBefore ledger chain i ≤ offset → offset < totalBefore ledger chain (j + 1) → i ≤ j := by
    intro i j b hb hle hlt
    by_contra hgt
    have hi := lt_length_of_some hb
    have := hrise.mono (show j + 1 ≤ i by omega) (by omega)
    omega
  have hpos : parent.header.hasLedger ledger = false →
      parent.header.ledgerTotalChunks ledger = 0 :=
    IrysBlockHeader.ledgerTotalChunks_of_not_hasLedger
  cases h with
  | inactive hno =>
    cases h' with
    | inactive => rfl
    | beyond hhas => rw [hno] at hhas; cases hhas
    | found hb _ hlt => have := hbelow hb hlt; have := hpos hno; omega
  | beyond hhas hge =>
    cases h' with
    | inactive hno => rw [hno] at hhas; cases hhas
    | beyond => rfl
    | found hb _ hlt => have := hbelow hb hlt; omega
  | @found i b root hb hle hlt hentry =>
    cases h' with
    | inactive hno => have := hbelow hb hlt; have := hpos hno; omega
    | beyond _ hge => have := hbelow hb hlt; omega
    | @found i' b' root' hb' hle' hlt' hentry' =>
      obtain rfl := Nat.le_antisymm (hfirst hb hle hlt') (hfirst hb' hle' hlt)
      cases hb.symm.trans hb'
      cases hentry.symm.trans hentry'
      rfl

/-- **The bounds of a proof of access do not depend on migration.**  Two nodes that know the
parent's ancestry, whatever has migrated in each and whatever forks they hold, return the same
result: that of the one block of the ancestry whose span contains the chunk, or the consensus
error for an inactive ledger or a chunk past its end.  Neither reports a fault of its own. -/
theorem poa_bounds_independent_of_migration {s₁ s₂ : Stores}
    {chain canonical₁ canonical₂ : List SealedBlock} {low₁ low₂ parentHeight fuel₁ fuel₂ : ℕ}
    {parent : SealedBlock} {ledger : DataLedger} (offset : ℕ) (hchain : Ancestry chain)
    (hrise : TotalsRise ledger chain) (hparent : chain[parentHeight]? = some parent)
    (hlast : chain.length = parentHeight + 1) (h₁ : Knows s₁ chain canonical₁ low₁)
    (h₂ : Knows s₂ chain canonical₂ low₂) (hfuel₁ : parentHeight < fuel₁)
    (hfuel₂ : parentHeight < fuel₂) :
    getDataPoaBounds s₁ ledger offset fuel₁ parent.header.blockHash parentHeight =
      getDataPoaBounds s₂ ledger offset fuel₂ parent.header.blockHash parentHeight ∧
    PoaOutcome ledger offset chain parent
      (getDataPoaBounds s₁ ledger offset fuel₁ parent.header.blockHash parentHeight) ∧
    ∀ cause, getDataPoaBounds s₁ ledger offset fuel₁ parent.header.blockHash parentHeight ≠
      fail (.blockBoundsLookupError cause) := by
  have hout₁ := h₁.outcome hchain hrise offset hparent hfuel₁
  have hout₂ := h₂.outcome hchain hrise offset hparent hfuel₂
  refine ⟨hout₁.unique hrise hparent hlast hout₂, hout₁, ?_⟩
  intro cause hfault
  rw [hfault] at hout₁
  cases hout₁

/-- A block with the given Submit total, rooted at its height; its hash is its height plus 100. -/
def rootedBlock (height submitTotal : ℕ) : SealedBlock where
  header :=
    { IrysBlockHeader.bare (height + 100) (height + 99) height with
      dataLedgers := [⟨.submit, height, [], submitTotal⟩] }
  dataTxs := fun _ => []

/-- Genesis and one block of three chunks. -/
def rootedPair : List SealedBlock := [rootedBlock 0 0, rootedBlock 1 3]

/-- A node in which both blocks have migrated and left the tree. -/
def migratedStores : Stores where
  tree := fun _ => none
  index := rootedPair.map indexItemOf
  headers := fun _ => none
  mempoolTxs := fun _ => none
  databaseTxs := fun _ => none
  includedHeight := fun _ => none

/-- A node in which nothing has migrated. -/
def treeStores : Stores where
  tree hash := rootedPair.find? fun b => b.header.blockHash == hash
  index := []
  headers := fun _ => none
  mempoolTxs := fun _ => none
  databaseTxs := fun _ => none
  includedHeight := fun _ => none

theorem rootedPair_cases (h : rootedPair[i]? = some b) :
    (i = 0 ∧ b = rootedBlock 0 0) ∨ (i = 1 ∧ b = rootedBlock 1 3) := by
  match i with
  | 0 => exact .inl ⟨rfl, (Option.some.inj h).symm⟩
  | 1 => exact .inr ⟨rfl, (Option.some.inj h).symm⟩
  | i + 2 => cases h

theorem rootedPair_ancestry : Ancestry rootedPair where
  height := by
    intro i b h
    rcases rootedPair_cases h with ⟨rfl, rfl⟩ | ⟨rfl, rfl⟩ <;> rfl
  linked := by
    intro i a b ha hb
    rcases rootedPair_cases ha with ⟨rfl, rfl⟩ | ⟨rfl, rfl⟩ <;>
      rcases rootedPair_cases hb with ⟨hi, rfl⟩ | ⟨hi, rfl⟩ <;> first | rfl | omega

theorem migratedStores_knows : Knows migratedStores rootedPair rootedPair 2 where
  index := rfl
  wf := rootedPair_ancestry
  identified := by simp [rootedPair, rootedBlock]
  in_tree := by
    intro i b h hi
    rcases rootedPair_cases h with ⟨rfl, -⟩ | ⟨rfl, -⟩ <;> omega
  migrated := by
    intro i b h _
    exact ⟨rfl, h⟩

theorem treeStores_knows : Knows treeStores rootedPair [] 0 where
  index := rfl
  wf := ⟨fun h => by simp at h, fun h => by simp at h⟩
  identified := by simp
  in_tree := by
    intro i b h _
    rcases rootedPair_cases h with ⟨rfl, rfl⟩ | ⟨rfl, rfl⟩ <;> rfl
  migrated := by
    intro i b _ hi
    omega

theorem poa_bounds_independent_of_migration_two_blocks :
    getDataPoaBounds migratedStores .submit 2 2 101 1 =
        getDataPoaBounds treeStores .submit 2 2 101 1 ∧
      getDataPoaBounds treeStores .submit 2 2 101 1 =
        .ok (⟨⟨1, 101, 0, 3⟩, .submit, 1⟩, 101) := by
  have hparent : rootedPair[1]? = some (rootedBlock 1 3) := rfl
  have hrise : TotalsRise .submit rootedPair := by
    unfold TotalsRise
    decide
  refine ⟨(poa_bounds_independent_of_migration 2 rootedPair_ancestry hrise hparent rfl
    migratedStores_knows treeStores_knows (show 1 < 2 by decide) (show 1 < 2 by decide)).1, ?_⟩
  decide +kernel

end Irys
