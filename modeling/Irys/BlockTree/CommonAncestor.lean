import Irys.BlockTree.Canonical

/-!
# The last common block of two chains

`find_reorg_split` walks back from two tips along parent hashes.  It looks at nothing but the
stored blocks: not at chain states, and not at what has been pruned below.

* `exists_parting`, `findReorgSplit_of_parting` — where the walks meet the function returns;
* `reorg_split_exact` — in any tree whose parent links lower the height by one.
-/

namespace Irys

open List Forest

namespace BlockTree

variable {t : BlockTree} {n h m : H256} {e : TreeBlockMetadata}

/-- Blocks are stored under their hashes. -/
def Keyed (t : BlockTree) : Prop :=
  ∀ ⦃h : H256⦄ ⦃e : TreeBlockMetadata⦄, t.blocks[h]? = some e → e.block.blockHash = h

/-- `b` is a block of the tree, and its parent `p` is one, too. -/
structure LinkedTo (t : BlockTree) (p b : IrysBlockHeader) : Prop where
  parent : b.previousBlockHash = p.blockHash
  lower : t.getBlock p.blockHash = some p
  upper : t.getBlock b.blockHash = some b

/-! ### Walks -/

theorem untilGenesis_lineage (ht : t.Leveled) (h : H256) :
    untilGenesis (t.lineage h) = t.lineage h := by
  have hspec := lineage_of_leveled ht h
  generalize t.lineage h = l at hspec
  induction hspec with
  | leave _ => rfl
  | @step h e l he hrest ih =>
    rw [untilGenesis, ih]
    split_ifs with hzero
    · -- nothing is below height 0
      cases hrest with
      | leave _ => rfl
      | step hp _ =>
        have hzero : e.block.height = 0 := hzero
        have := ht (getBlock_of_entry he) (getBlock_of_entry hp)
        omega
    · rfl

theorem walkToNewChain_append {newHashes : List H256} {newTip oldTip cursor : H256}
    {entry : TreeBlockMetadata} {pre rest : List (H256 × TreeBlockMetadata)}
    (hpre : ∀ x ∈ pre, x.1 ∉ newHashes ∧ x.2.block.height ≠ 0) (hcursor : cursor ∈ newHashes)
    (passed : List IrysBlockHeader) :
    walkToNewChain newHashes newTip oldTip passed (pre ++ (cursor, entry) :: rest) =
      .ok (entry.block, (pre.map (·.2.block)).reverse ++ passed) := by
  induction pre generalizing passed with
  | nil =>
    rw [nil_append, walkToNewChain, if_pos hcursor]
    rfl
  | cons x pre ih =>
    obtain ⟨hx, hne⟩ := hpre x (mem_cons_self ..)
    rw [cons_append, walkToNewChain, if_neg hx, if_neg hne,
      ih (fun y hy => hpre y (mem_cons_of_mem _ hy))]
    simp

/-- The walk back from the old tip returns at a block of the new chain, or it fails with an
error. -/
theorem walkToNewChain_cases (newHashes : List H256) (newTip oldTip : H256)
    (passed : List IrysBlockHeader) (l : List (H256 × TreeBlockMetadata)) :
    (∃ x ∈ l, x.1 ∈ newHashes) ∨
      ∃ err, walkToNewChain newHashes newTip oldTip passed l = fail err := by
  induction l generalizing passed with
  | nil =>
    right
    rw [walkToNewChain]
    split_ifs
    · exact ⟨_, rfl⟩
    · exact ⟨_, rfl⟩
  | cons x l ih =>
    rw [walkToNewChain]
    by_cases hx : x.1 ∈ newHashes
    · exact .inl ⟨x, mem_cons_self, hx⟩
    · rw [if_neg hx]
      split_ifs
      · exact .inr ⟨_, rfl⟩
      · rcases ih (x.2.block :: passed) with ⟨y, hy, hmem⟩ | herr
        · exact .inl ⟨y, mem_cons_of_mem _ hy, hmem⟩
        · exact .inr herr

theorem linkedTo_reverse_lineage (hk : t.Keyed) (ht : t.Leveled) (h : H256) :
    ((t.lineage h).map (·.2.block)).reverse.IsChain t.LinkedTo := by
  rw [isChain_reverse, isChain_map]
  refine (lineage_of_leveled ht h).isChain.imp ?_
  intro x y hxy
  obtain ⟨hprev, hx, hy⟩ := hxy
  refine ⟨?_, ?_, ?_⟩
  · rw [hk hy]
    exact hprev
  · rw [hk hy]
    exact getBlock_of_entry hy
  · rw [hk hx]
    exact getBlock_of_entry hx

/-! ### Where the walks meet -/

/-- **The walk from a tip down to an ancestor**: the blocks above it. -/
structure Descent (t : BlockTree) (tip m : H256) (e : TreeBlockMetadata)
    (pre : List (H256 × TreeBlockMetadata)) : Prop where
  anc : t.Anc tip m
  walk : ∃ rest, t.lineage tip = pre ++ (m, e) :: rest
  length : pre.length + t.rank m = t.rank tip
  above : ∀ x ∈ pre, t.Anc tip x.1 ∧ t.blocks[x.1]? = some x.2 ∧ t.rank m < x.2.block.height

/-- **Two walks that meet** at their last common block. -/
structure Parting (t : BlockTree) (newTip oldTip m : H256) (e : TreeBlockMetadata)
    (newPre oldPre : List (H256 × TreeBlockMetadata)) : Prop where
  entry : t.blocks[m]? = some e
  new : Descent t newTip m e newPre
  old : Descent t oldTip m e oldPre
  meet : ∀ ⦃y⦄, t.Anc newTip y → t.Anc oldTip y → t.Anc m y

theorem exists_descent (ht : t.Leveled) {tip : H256} (hanc : t.Anc tip m)
    (htip : (t.getBlock tip).isSome) (he : t.blocks[m]? = some e) : ∃ pre, Descent t tip m e pre := by
  rw [getBlock, Option.isSome_map] at htip
  obtain ⟨pre, rest, heq, hrest, hlen, hpre⟩ :=
    (lineage_of_leveled ht tip).split_at (leveled_entries ht) (anc_entry (t := t) ▸ hanc) htip
  rw [anc_entry] at hpre
  simp only [rank_entry] at hlen hpre
  refine ⟨pre, hanc, ⟨t.lineage e.block.previousBlockHash, ?_⟩, hlen, hpre⟩
  rw [heq, hrest.unique (.step he (lineage_of_leveled ht _))]

theorem exists_parting (ht : t.Leveled) {a : H256} (hn : (t.getBlock n).isSome)
    (hh : (t.getBlock h).isSome) (hna : t.Anc n a) (hha : t.Anc h a) :
    ∃ m e newPre oldPre, Parting t n h m e newPre oldPre := by
  obtain ⟨m, hnm, hhm, hmeet⟩ := exists_meet hna hha
  obtain ⟨b, hb⟩ := Option.isSome_iff_exists.mp (isSome_of_anc hnm hn)
  obtain ⟨e, he, -⟩ := exists_entry hb
  obtain ⟨newPre, hnew⟩ := exists_descent ht hnm hn he
  obtain ⟨oldPre, hold⟩ := exists_descent ht hhm hh he
  exact ⟨m, e, newPre, oldPre, he, hnew, hold, hmeet⟩

variable {newPre oldPre pre : List (H256 × TreeBlockMetadata)}

theorem Descent.rank_above (hd : Descent t n m e pre) {x : H256 × TreeBlockMetadata}
    (hx : x ∈ pre) : t.rank m < t.rank x.1 := by
  obtain ⟨-, hlook, hlt⟩ := hd.above x hx
  have hrank : t.rank x.1 = x.2.block.height := rank_of_look (getBlock_of_entry hlook)
  omega

theorem Parting.not_anc (hp : Parting t n h m e newPre oldPre) (ht : t.Leveled) {y : H256}
    (hny : t.Anc n y) (hlt : t.rank m < t.rank y) : ¬ t.Anc h y := by
  intro hhy
  have hle : t.rank y ≤ t.rank m := Forest.rank_le_of_anc ht (hp.meet hny hhy)
  omega

/-- **Where the walks meet, `find_reorg_split` returns.** -/
theorem findReorgSplit_of_parting (hk : t.Keyed) (ht : t.Leveled)
    (hp : Parting t n h m e newPre oldPre) :
    t.findReorgSplit n h = .ok ⟨e.block, (oldPre.map (·.2.block)).reverse,
      (newPre.map (·.2.block)).reverse⟩ := by
  obtain ⟨newRest, hnew⟩ := hp.new.walk
  obtain ⟨oldRest, hold⟩ := hp.old.walk
  have hnonempty : (t.lineage n).isEmpty = false := by
    rw [hnew]
    cases newPre <;> rfl
  have hwalk : walkToNewChain ((t.lineage n).map Prod.fst) n h [] (t.lineage h) =
      .ok (e.block, (oldPre.map (·.2.block)).reverse ++ []) := by
    rw [hold]
    apply walkToNewChain_append
    · intro x hx
      obtain ⟨hhx, hlook, hlt⟩ := hp.old.above x hx
      refine ⟨?_, by omega⟩
      intro hxn
      obtain ⟨y, hy, hyx⟩ := List.mem_map.mp hxn
      have hny := ((lineage_of_leveled ht n).mem_iff.mp hy).1
      rw [anc_entry, hyx] at hny
      exact hp.not_anc ht hny (hp.old.rank_above hx) hhx
    · rw [hnew]
      simp
  have hidx : ((t.lineage n).map (·.2.block)).findIdx? (·.blockHash == e.block.blockHash) =
      some newPre.length := by
    have hnone : (newPre.map (·.2.block)).findIdx? (·.blockHash == e.block.blockHash) = none := by
      rw [findIdx?_eq_none_iff]
      intro c hc
      obtain ⟨x, hx, rfl⟩ := List.mem_map.mp hc
      obtain ⟨-, hlook, -⟩ := hp.new.above x hx
      have hlt := hp.new.rank_above hx
      simp only [beq_eq_false_iff_ne, ne_eq]
      intro heq
      rw [hk hlook, hk hp.entry] at heq
      rw [heq] at hlt
      exact lt_irrefl _ hlt
    rw [hnew, map_append, findIdx?_append, hnone, map_cons, findIdx?_cons]
    simp
  have htake : ((t.lineage n).map (·.2.block)).take newPre.length = newPre.map (·.2.block) := by
    rw [hnew, map_append, take_left' (by simp)]
  rw [findReorgSplit, untilGenesis_lineage ht]
  simp only [hnonempty, Bool.false_eq_true, if_false, hwalk, hidx, ok_bind, expect_some,
    append_nil, htake]
  rfl

/-- **Where they do not, it fails with an error.** -/
theorem findReorgSplit_cases (ht : t.Leveled) (n h : H256) :
    ((t.getBlock n).isSome ∧ (t.getBlock h).isSome ∧ ∃ a, t.Anc n a ∧ t.Anc h a) ∨
      ∃ err, t.findReorgSplit n h = fail err := by
  have hlineage : ∀ {k : H256} {x : H256 × TreeBlockMetadata}, x ∈ t.lineage k →
      (t.getBlock k).isSome ∧ t.Anc k x.1 := by
    intro k x hx
    obtain ⟨hanc, hlook⟩ := (lineage_of_leveled ht k).mem_iff.mp hx
    rw [anc_entry] at hanc
    refine ⟨?_, hanc⟩
    rcases Relation.ReflTransGen.cases_head hanc with heq | ⟨p, hlink, -⟩
    · rw [heq, getBlock_of_entry hlook]
      rfl
    · exact hlink.isSome_left
  rw [findReorgSplit, untilGenesis_lineage ht]
  by_cases hempty : (t.lineage n).isEmpty
  · right
    simp only [hempty, if_true]
    exact ⟨_, rfl⟩
  · rcases walkToNewChain_cases ((t.lineage n).map Prod.fst) n h [] (t.lineage h) with
      ⟨x, hx, hnew⟩ | ⟨err, herr⟩
    · left
      obtain ⟨y, hy, hyx⟩ := List.mem_map.mp hnew
      exact ⟨(hlineage hy).1, (hlineage hx).1, x.1, hyx ▸ (hlineage hy).2, (hlineage hx).2⟩
    · right
      simp only [hempty, herr, Bool.false_eq_true, if_false]
      exact ⟨err, rfl⟩

/-! ### What is returned -/

/-- **What a chain has above a block**, oldest first: it starts at a child of the block and ends at
the tip. -/
structure Branch (t : BlockTree) (lca : IrysBlockHeader) (tip : H256)
    (blocks : List IrysBlockHeader) : Prop where
  anc : t.Anc tip lca.blockHash
  chain : (lca :: blocks).IsChain t.LinkedTo
  last : (lca :: blocks).getLast? = t.getBlock tip
  above : ∀ b ∈ blocks, t.Anc tip b.blockHash ∧ t.getBlock b.blockHash = some b ∧
    lca.height < b.height
  empty : blocks = [] ↔ tip = lca.blockHash

/-- **The split of two chains** at their highest common block. -/
structure ExactSplit (t : BlockTree) (newTip oldTip : H256) (split : ReorgSplit) : Prop where
  lca_mem : t.getBlock split.lca.blockHash = some split.lca
  highest : ∀ ⦃a b⦄, t.Anc newTip a → t.Anc oldTip a → t.getBlock a = some b →
    b.height ≤ split.lca.height ∧ (b.height = split.lca.height → b = split.lca)
  new : Branch t split.lca newTip split.newDivergent
  old : Branch t split.lca oldTip split.oldDivergent
  disjoint : ∀ b ∈ split.newDivergent, ∀ c ∈ split.oldDivergent, b.blockHash ≠ c.blockHash

theorem Descent.branch (hk : t.Keyed) (ht : t.Leveled) (hd : Descent t n m e pre)
    (he : t.blocks[m]? = some e) : Branch t e.block n (pre.map (·.2.block)).reverse := by
  obtain ⟨rest, hwalk⟩ := hd.walk
  have hrank : t.rank m = e.block.height := rank_of_look (getBlock_of_entry he)
  -- the walk from the tip down to the block, read backwards
  have hback : e.block :: (pre.map (·.2.block)).reverse =
      ((pre ++ [(m, e)]).map (·.2.block)).reverse := by
    simp
  refine ⟨?_, ?_, ?_, ?_, ?_⟩
  · rw [hk he]
    exact hd.anc
  · have hall := linkedTo_reverse_lineage hk ht n
    rw [hwalk, append_cons, map_append, reverse_append] at hall
    rw [hback]
    exact hall.right_of_append
  · rw [hback, getLast?_reverse]
    have hhead := lineage_of_leveled ht n
    rw [hwalk] at hhead
    cases pre with
    | nil =>
      cases hhead with
      | step hn _ => exact (getBlock_of_entry hn).symm
    | cons x pre =>
      cases hhead with
      | step hn _ => exact (getBlock_of_entry hn).symm
  · intro b hb
    rw [mem_reverse] at hb
    obtain ⟨x, hx, rfl⟩ := List.mem_map.mp hb
    obtain ⟨hanc, hlook, hlt⟩ := hd.above x hx
    rw [hk hlook]
    exact ⟨hanc, getBlock_of_entry hlook, hrank ▸ hlt⟩
  · rw [reverse_eq_nil_iff, map_eq_nil_iff, hk he]
    have hlen := hd.length
    constructor
    · intro hnil
      rw [hnil, length_nil, Nat.zero_add] at hlen
      exact (eq_of_anc_of_rank_le ht hd.anc hlen.ge).symm
    · intro heq
      rw [heq] at hlen
      exact length_eq_zero_iff.mp (by omega)

theorem Parting.exactSplit (hk : t.Keyed) (ht : t.Leveled)
    (hp : Parting t n h m e newPre oldPre) :
    ExactSplit t n h ⟨e.block, (oldPre.map (·.2.block)).reverse,
      (newPre.map (·.2.block)).reverse⟩ := by
  have hrank : t.rank m = e.block.height := rank_of_look (getBlock_of_entry hp.entry)
  refine ⟨?_, ?_, hp.new.branch hk ht hp.entry, hp.old.branch hk ht hp.entry, ?_⟩
  · show t.getBlock e.block.blockHash = some e.block
    rw [hk hp.entry]
    exact getBlock_of_entry hp.entry
  · intro a b hna hha hb
    have hma := hp.meet hna hha
    have hb' : t.rank a = b.height := rank_of_look hb
    have hle : t.rank a ≤ t.rank m := Forest.rank_le_of_anc ht hma
    refine ⟨by show b.height ≤ e.block.height; omega, fun heq => ?_⟩
    have heq : b.height = e.block.height := heq
    obtain rfl : a = m := eq_of_anc_of_rank_le ht hma (by
      show t.rank m ≤ t.rank a
      omega)
    cases (getBlock_of_entry hp.entry).symm.trans hb
    rfl
  · intro b hb c hc heq
    obtain ⟨x, hx, rfl⟩ := List.mem_map.mp (mem_reverse.mp hb)
    obtain ⟨y, hy, rfl⟩ := List.mem_map.mp (mem_reverse.mp hc)
    obtain ⟨hnx, hxlook, -⟩ := hp.new.above x hx
    obtain ⟨hhy, hylook, -⟩ := hp.old.above y hy
    rw [hk hxlook, hk hylook] at heq
    exact hp.not_anc ht hnx (hp.new.rank_above hx) (heq ▸ hhy)

theorem findReorgSplit_exactSplit (hk : t.Keyed) (ht : t.Leveled) {split : ReorgSplit}
    (hsplit : t.findReorgSplit n h = .ok split) : ExactSplit t n h split := by
  rcases findReorgSplit_cases ht n h with ⟨hn, hh, a, hna, hha⟩ | ⟨err, herr⟩
  · obtain ⟨m, e, newPre, oldPre, hp⟩ := exists_parting ht hn hh hna hha
    rw [findReorgSplit_of_parting hk ht hp] at hsplit
    cases hsplit
    exact hp.exactSplit hk ht
  · rw [herr] at hsplit
    cases hsplit

/-- **`find_reorg_split` is exact.**  In any tree whose parent links lower the height by one,
whatever its chain states and however much of it was pruned, it returns if and only if both tips
are stored and have a common stored ancestor; it then returns the highest one and the two chains
above it.  Otherwise it fails with an error. -/
theorem reorg_split_exact (hk : t.Keyed) (ht : t.Leveled) (newTip oldTip : H256) :
    ((∃ split, t.findReorgSplit newTip oldTip = .ok split) ↔
      (t.getBlock newTip).isSome ∧ (t.getBlock oldTip).isSome ∧
        ∃ a, t.Anc newTip a ∧ t.Anc oldTip a) ∧
    (∀ split, t.findReorgSplit newTip oldTip = .ok split → ExactSplit t newTip oldTip split) ∧
    t.findReorgSplit newTip oldTip ≠ .error .panic := by
  rcases findReorgSplit_cases ht newTip oldTip with ⟨hn, hh, a, hna, hha⟩ | ⟨err, herr⟩
  · obtain ⟨m, e, newPre, oldPre, hp⟩ := exists_parting ht hn hh hna hha
    have hok := findReorgSplit_of_parting hk ht hp
    refine ⟨⟨fun _ => ⟨hn, hh, a, hna, hha⟩, fun _ => ⟨_, hok⟩⟩,
      fun split hsplit => findReorgSplit_exactSplit hk ht hsplit, ?_⟩
    rw [hok]
    intro h
    cases h
  · have hnot : ∀ split, t.findReorgSplit newTip oldTip ≠ .ok split := by
      intro split hsplit
      rw [herr] at hsplit
      cases hsplit
    refine ⟨⟨fun hok => absurd hok.choose_spec (hnot _), fun hcommon => ?_⟩,
      fun split hsplit => absurd hsplit (hnot split), ?_⟩
    · obtain ⟨hn, hh, a, hna, hha⟩ := hcommon
      obtain ⟨m, e, newPre, oldPre, hp⟩ := exists_parting ht hn hh hna hha
      exact ⟨_, findReorgSplit_of_parting hk ht hp⟩
    · rw [herr]
      intro h
      cases h

/-- The blocks of a tree that was pruned below height 6, with a fork at height 7. -/
def forkHeaders : List IrysBlockHeader :=
  [.bare 2 1 6, .bare 3 2 7, .bare 4 2 7, .bare 5 4 8]

/-- The pruned tree. -/
def forkedTree : BlockTree :=
  { new (.bare 2 1 6) ⟨1, 2, 2, 32, 8, 1, ⟨1, 4, 1, none, none⟩, ⟨none, none⟩⟩ with
    blocks := Std.TreeMap.ofList
      (forkHeaders.map fun b => (b.blockHash, TreeBlockMetadata.mk b .onchain ∅ 0)) }

theorem forkedTree_getBlock {h : H256} {b : IrysBlockHeader} (hb : forkedTree.getBlock h = some b) :
    b ∈ forkHeaders ∧ b.blockHash = h := by
  obtain ⟨e, he, rfl⟩ := exists_entry hb
  have hmem := List.mem_map_of_mem (f := fun p : H256 × TreeBlockMetadata => (p.1, p.2.block))
    (Std.TreeMap.mem_toList_iff_getElem?_eq_some.mpr he)
  have hlist : forkedTree.blocks.toList.map (fun p => (p.1, p.2.block)) =
      forkHeaders.map fun b => (b.blockHash, b) := by decide +kernel
  rw [hlist, List.mem_map] at hmem
  obtain ⟨c, hc, heq⟩ := hmem
  obtain ⟨hkey, hblock⟩ := Prod.mk.inj heq
  rw [← hblock]
  exact ⟨hc, hkey⟩

theorem reorg_split_exact_forkedTree :
    ExactSplit forkedTree 5 3 ⟨.bare 2 1 6, [.bare 3 2 7],
      [.bare 4 2 7, .bare 5 4 8]⟩ := by
  have hk : forkedTree.Keyed := fun h e he => (forkedTree_getBlock (getBlock_of_entry he)).2
  have ht : forkedTree.Leveled := by
    have hlinks : ∀ v ∈ forkHeaders, ∀ w ∈ forkHeaders, w.blockHash = v.previousBlockHash →
        v.height = w.height + 1 := by decide
    intro c v w hv hw
    exact hlinks v (forkedTree_getBlock hv).1 w (forkedTree_getBlock hw).1 (forkedTree_getBlock hw).2
  have hok : forkedTree.findReorgSplit 5 3 = .ok ⟨.bare 2 1 6, [.bare 3 2 7],
      [.bare 4 2 7, .bare 5 4 8]⟩ := by decide +kernel
  exact (reorg_split_exact hk ht 5 3).2.1 _ hok

end BlockTree

end Irys
