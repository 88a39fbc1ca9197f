import Irys.BlockTree.Tree

/-!
# The tree's indexes agree with its blocks

What the tree stores besides its blocks is a function of them.  `Indexed` says so for the
children, the heights and the solution hashes, `Heaviest` for the maximum, `Cached` for the
canonical chain.  Every method that writes a block or a state keeps them, and this file says what
each of them does to the two views everything else is read from: the header and the chain state
under a hash.

* `place_…`, `deleteBlock_spec` — a block comes, a block goes;
* `lineage_of_some`, `mem_lineage` — a walk along parent hashes visits the ancestors.
-/

namespace Irys

open Option

namespace BlockTree

open Std

variable {t t' : BlockTree} {h x : H256} {b : IrysBlockHeader} {e : TreeBlockMetadata}

/-! ### Views -/

/-- `a` is `h` or an ancestor of it in the tree. -/
abbrev Anc (t : BlockTree) : H256 → H256 → Prop :=
  Forest.Anc t.getBlock IrysBlockHeader.previousBlockHash

/-- `p` is the parent of `c`, both in the tree. -/
abbrev Link (t : BlockTree) : H256 → H256 → Prop :=
  Forest.Link t.getBlock IrysBlockHeader.previousBlockHash

theorem getBlock_of_entry (he : t.blocks[h]? = some e) : t.getBlock h = some e.block := by
  rw [getBlock, he]
  rfl

theorem getStatus_of_entry (he : t.blocks[h]? = some e) : t.getStatus h = some e.chainState := by
  rw [getStatus, he]
  rfl

theorem exists_entry (hb : t.getBlock h = some b) : ∃ e, t.blocks[h]? = some e ∧ e.block = b :=
  map_eq_some_iff.mp hb

theorem exists_entry_of_status {s : ChainState} (hs : t.getStatus h = some s) :
    ∃ e, t.blocks[h]? = some e ∧ e.chainState = s :=
  map_eq_some_iff.mp hs

theorem exists_status (hb : t.getBlock h = some b) : ∃ s, t.getStatus h = some s := by
  obtain ⟨e, he, -⟩ := exists_entry hb
  exact ⟨e.chainState, getStatus_of_entry he⟩

theorem exists_status_of_isSome (hh : (t.getBlock h).isSome) : ∃ s, t.getStatus h = some s := by
  obtain ⟨b, hb⟩ := isSome_iff_exists.mp hh
  exact exists_status hb

theorem exists_header {s : ChainState} (hs : t.getStatus h = some s) :
    ∃ b, t.getBlock h = some b := by
  obtain ⟨e, he, -⟩ := exists_entry_of_status hs
  exact ⟨e.block, getBlock_of_entry he⟩

theorem getBlock_eq_none_iff : t.getBlock h = none ↔ t.blocks[h]? = none :=
  map_eq_none_iff

/-- A view of an entry that does not see its children. -/
def Childless {α : Type} (f : TreeBlockMetadata → α) : Prop :=
  ∀ e children, f { e with children } = f e

/-! ### Invariants -/

section

variable (t)

/-- Blocks are stored under their hashes, and the indexes list them. -/
structure Indexed : Prop where
  keyed : ∀ ⦃h : H256⦄ ⦃e : TreeBlockMetadata⦄, t.blocks[h]? = some e → e.block.blockHash = h
  children : ∀ ⦃h : H256⦄ ⦃e : TreeBlockMetadata⦄, t.blocks[h]? = some e → ∀ c, c ∈ e.children ↔
    ∃ b, t.getBlock c = some b ∧ b.previousBlockHash = h
  heights : Lists t.heightIndex fun height h => ∃ b, t.getBlock h = some b ∧ b.height = height
  solutions : Lists t.solutions fun solution h =>
    ∃ b, t.getBlock h = some b ∧ b.solutionHash = solution

/-- The recorded maximum is the cumulative difficulty of a block of the tree, and no block has
more. -/
structure Heaviest : Prop where
  attained : ∃ b, t.getBlock t.maxCumulativeDifficulty.2 = some b ∧
    b.cumulativeDiff = t.maxCumulativeDifficulty.1
  le : ∀ ⦃h b⦄, t.getBlock h = some b → b.cumulativeDiff ≤ t.maxCumulativeDifficulty.1

/-- The chain cache is what a fresh update would write. -/
def Cached : Prop :=
  t.longestChainCache = t.updateLongestChainCache.longestChainCache

theorem cached_update : t.updateLongestChainCache.Cached := rfl

/-- A child is one higher than its parent and has more cumulative difficulty. -/
structure Linked : Prop where
  height : Forest.Graded t.getBlock IrysBlockHeader.previousBlockHash IrysBlockHeader.height
  rising : ∀ ⦃h b p⦄, t.getBlock h = some b → t.getBlock b.previousBlockHash = some p →
    p.cumulativeDiff < b.cumulativeDiff

end

theorem Linked.diff_le_of_anc (ht : t.Linked) {a : H256} {c : IrysBlockHeader}
    (hanc : t.Anc h a) (hb : t.getBlock h = some b) (hc : t.getBlock a = some c) :
    c.cumulativeDiff ≤ b.cumulativeDiff := by
  induction hanc generalizing c with
  | refl =>
    cases hb.symm.trans hc
    exact le_rfl
  | tail _ hlink ih =>
    obtain ⟨d, hd, rfl, -⟩ := hlink
    exact (ht.rising hd hc).le.trans (ih hd)

/-! ### Walks -/

theorem exists_size_eq_succ {h : H256} {e : TreeBlockMetadata} (he : t.blocks[h]? = some e) :
    ∃ n, t.blocks.size = n + 1 := by
  have hmem := Std.TreeMap.mem_iff_isSome_getElem?.mpr (Option.isSome_of_eq_some he)
  have hpos := List.length_pos_of_mem (Std.TreeMap.mem_keys.mpr hmem)
  rw [Std.TreeMap.length_keys] at hpos
  exact Nat.exists_eq_succ_of_ne_zero hpos.ne'

/-- Parent links lower the height by one. -/
abbrev Leveled (t : BlockTree) : Prop :=
  Forest.Graded t.getBlock IrysBlockHeader.previousBlockHash IrysBlockHeader.height

theorem leveled_entries (ht : t.Leveled) :
    Forest.Graded (fun k : H256 => t.blocks[k]?)
      (fun e : TreeBlockMetadata => e.block.previousBlockHash) (fun e => e.block.height) :=
  fun _ _ _ hv hw => ht (getBlock_of_entry hv) (getBlock_of_entry hw)

theorem lineage_of_leveled (ht : t.Leveled) (h : H256) :
    Forest.Lineage (fun k : H256 => t.blocks[k]?)
      (fun e : TreeBlockMetadata => e.block.previousBlockHash) h (t.lineage h) := by
  obtain ⟨l, hl⟩ := Forest.exists_lineage (leveled_entries ht) h
  have hlen : l.length ≤ t.blocks.size := by
    rw [← Std.TreeMap.length_keys]
    apply hl.length_le (leveled_entries ht)
    intro k hk
    rw [Std.TreeMap.mem_keys, Std.TreeMap.mem_iff_isSome_getElem?]
    exact hk
  rw [lineage, Forest.walk_eq_of_lineage hl hlen]
  exact hl

theorem Linked.entry_height (ht : t.Linked) :
    Forest.Graded (fun k : H256 => t.blocks[k]?)
      (fun e : TreeBlockMetadata => e.block.previousBlockHash) (fun e => e.block.height) :=
  leveled_entries ht.height

theorem lineage_spec (ht : t.Linked) (h : H256) :
    Forest.Lineage (fun k : H256 => t.blocks[k]?)
      (fun e : TreeBlockMetadata => e.block.previousBlockHash) h (t.lineage h) :=
  lineage_of_leveled ht.height h

theorem lineage_of_none (ht : t.Linked) (hh : t.blocks[h]? = none) : t.lineage h = [] :=
  (lineage_spec ht h).unique (.leave hh)

theorem lineage_of_some (ht : t.Linked) (he : t.blocks[h]? = some e) :
    t.lineage h = (h, e) :: t.lineage e.block.previousBlockHash :=
  (lineage_spec ht h).unique (.step he (lineage_spec ht _))

theorem link_entry_iff {c p : H256} :
    Forest.Link (fun k : H256 => t.blocks[k]?)
      (fun e : TreeBlockMetadata => e.block.previousBlockHash) c p ↔ t.Link c p := by
  constructor
  · rintro ⟨e, he, hp, hmem⟩
    refine ⟨e.block, getBlock_of_entry he, hp, ?_⟩
    rw [getBlock, isSome_map]
    exact hmem
  · rintro ⟨b, hb, hp, hmem⟩
    obtain ⟨e, he, rfl⟩ := exists_entry hb
    rw [getBlock, isSome_map] at hmem
    exact ⟨e, he, hp, hmem⟩

theorem anc_entry : Forest.Anc (fun k : H256 => t.blocks[k]?)
    (fun e : TreeBlockMetadata => e.block.previousBlockHash) = t.Anc := by
  have hlink : Forest.Link (fun k : H256 => t.blocks[k]?)
      (fun e : TreeBlockMetadata => e.block.previousBlockHash) = t.Link := by
    funext c p
    exact propext link_entry_iff
  rw [Forest.Anc, hlink]

/-- **A walk visits the ancestors.** -/
theorem mem_lineage (ht : t.Linked) : (x, e) ∈ t.lineage h ↔ t.Anc h x ∧ t.blocks[x]? = some e := by
  rw [(lineage_spec ht h).mem_iff, anc_entry]

/-! ### Changing chain states -/

/-- A block without its chain state and insertion sequence. -/
def frame (e : TreeBlockMetadata) : IrysBlockHeader × TreeSet H256 := (e.block, e.children)

/-- The trees differ in chain states, insertion sequences, the tip and the chain cache only. -/
structure Restated (t t' : BlockTree) : Prop where
  blocks : ∀ h : H256, t'.blocks[h]?.map frame = t.blocks[h]?.map frame
  solutions : t'.solutions = t.solutions
  heightIndex : t'.heightIndex = t.heightIndex
  maxCumulativeDifficulty : t'.maxCumulativeDifficulty = t.maxCumulativeDifficulty
  consensusConfig : t'.consensusConfig = t.consensusConfig

namespace Restated

theorem refl (t : BlockTree) : Restated t t := ⟨fun _ => rfl, rfl, rfl, rfl, rfl⟩

theorem trans {t'' : BlockTree} (h : Restated t t') (h' : Restated t' t'') : Restated t t'' :=
  ⟨fun k => (h'.blocks k).trans (h.blocks k), h'.solutions.trans h.solutions,
    h'.heightIndex.trans h.heightIndex,
    h'.maxCumulativeDifficulty.trans h.maxCumulativeDifficulty,
    h'.consensusConfig.trans h.consensusConfig⟩

section

variable (hr : Restated t t')
include hr

theorem getBlock : t'.getBlock = t.getBlock := by
  funext h
  have := congrArg (Option.map Prod.fst) (hr.blocks h)
  rw [Option.map_map, Option.map_map] at this
  exact this

theorem entry {e' : TreeBlockMetadata} (he : t'.blocks[h]? = some e') :
    ∃ e, t.blocks[h]? = some e ∧ e.block = e'.block ∧ e.children = e'.children := by
  have hframe := hr.blocks h
  rw [he, map_some] at hframe
  obtain ⟨e, hent, heq⟩ := map_eq_some_iff.mp hframe.symm
  exact ⟨e, hent, congrArg Prod.fst heq, congrArg Prod.snd heq⟩

theorem indexed (ht : t.Indexed) : t'.Indexed where
  keyed h e' he' := by
    obtain ⟨e, he, hblock, -⟩ := hr.entry he'
    rw [← hblock]
    exact ht.keyed he
  children h e' he' := by
    obtain ⟨e, he, -, hchildren⟩ := hr.entry he'
    rw [← hchildren, hr.getBlock]
    exact ht.children he
  heights := by
    rw [hr.heightIndex, hr.getBlock]
    exact ht.heights
  solutions := by
    rw [hr.solutions, hr.getBlock]
    exact ht.solutions

theorem heaviest (ht : t.Heaviest) : t'.Heaviest where
  attained := by
    rw [hr.maxCumulativeDifficulty, hr.getBlock]
    exact ht.attained
  le := by
    rw [hr.maxCumulativeDifficulty, hr.getBlock]
    exact ht.le

theorem linked (ht : t.Linked) : t'.Linked where
  height := by
    rw [hr.getBlock]
    exact ht.height
  rising := by
    rw [hr.getBlock]
    exact ht.rising

end

end Restated

theorem restated_update (t : BlockTree) : Restated t t.updateLongestChainCache :=
  ⟨fun _ => rfl, rfl, rfl, rfl, rfl⟩

theorem getElem?_setChainState (s : ChainState) : (t.setChainState h s).blocks[x]? =
    if h = x then t.blocks[x]?.map fun e => { e with chainState := s } else t.blocks[x]? := by
  rw [setChainState]
  show (t.blocks.modify h _)[x]? = _
  rw [TreeMap.getElem?_modify]
  simp only [Nat.compare_eq_eq]
  split_ifs with hx
  · rw [hx]
  · rfl

theorem restated_setChainState (s : ChainState) : Restated t (t.setChainState h s) where
  blocks x := by
    rw [getElem?_setChainState]
    split_ifs with hx
    · rw [Option.map_map]
      rfl
    · rfl
  solutions := rfl
  heightIndex := rfl
  maxCumulativeDifficulty := rfl
  consensusConfig := rfl

@[simp] theorem getStatus_setChainState (s : ChainState) : (t.setChainState h s).getStatus x =
    if h = x then (t.getStatus x).map fun _ => s else t.getStatus x := by
  rw [getStatus, getElem?_setChainState, getStatus]
  split_ifs with hx
  · rw [Option.map_map, Option.map_map]
    rfl
  · rfl

@[simp] theorem getBlock_setChainState (s : ChainState) :
    (t.setChainState h s).getBlock = t.getBlock :=
  (restated_setChainState s).getBlock

@[simp] theorem getStatus_update : t.updateLongestChainCache.getStatus = t.getStatus := rfl

@[simp] theorem getBlock_update : t.updateLongestChainCache.getBlock = t.getBlock := rfl

/-! ### A new block -/

section Place

variable {s : ChainState} {prevEntry : TreeBlockMetadata}

section

variable (hprev : t.blocks[b.previousBlockHash]? = some prevEntry)
    (hfresh : t.blocks[b.blockHash]? = none)
include hprev hfresh

theorem prev_ne_hash : b.previousBlockHash ≠ b.blockHash := by
  intro heq
  rw [heq, hfresh] at hprev
  cases hprev

theorem getElem?_place :
    (t.place b.blockHash b s prevEntry).blocks[x]? =
      if b.blockHash = x then some ⟨b, s, ∅, t.nextInsertionSequence⟩
      else if b.previousBlockHash = x then
        some { prevEntry with children := prevEntry.children.insert b.blockHash }
      else t.blocks[x]? := by
  unfold place
  simp only [TreeMap.getElem?_insert, Nat.compare_eq_eq, prev_ne_hash hprev hfresh, if_false,
    hfresh, map_none, getD_none]

theorem map_place {α : Type} {f : TreeBlockMetadata → α} (hf : Childless f) :
    (t.place b.blockHash b s prevEntry).blocks[x]?.map f =
      if b.blockHash = x then some (f ⟨b, s, ∅, t.nextInsertionSequence⟩)
      else t.blocks[x]?.map f := by
  rw [getElem?_place hprev hfresh]
  split_ifs with h1 h2
  · rfl
  · rw [← h2, hprev, map_some, map_some, hf]
  · rfl

theorem getBlock_place :
    (t.place b.blockHash b s prevEntry).getBlock x =
      if b.blockHash = x then some b else t.getBlock x :=
  map_place hprev hfresh fun _ _ => rfl

theorem getStatus_place :
    (t.place b.blockHash b s prevEntry).getStatus x =
      if b.blockHash = x then some s else t.getStatus x :=
  map_place hprev hfresh fun _ _ => rfl

end

theorem Indexed.place (ht : t.Indexed) (hprev : t.blocks[b.previousBlockHash]? = some prevEntry)
    (hfresh : t.blocks[b.blockHash]? = none)
    (hleaf : ∀ ⦃c d⦄, t.getBlock c = some d → d.previousBlockHash ≠ b.blockHash) :
    (t.place b.blockHash b s prevEntry).Indexed := by
  have hnone : t.getBlock b.blockHash = none := getBlock_eq_none_iff.mpr hfresh
  -- a property of the stored blocks, before and after
  have hview : ∀ {P : IrysBlockHeader → Prop} (c : H256),
      (∃ d, (t.place b.blockHash b s prevEntry).getBlock c = some d ∧ P d) ↔
        (c = b.blockHash ∧ P b) ∨ ∃ d, t.getBlock c = some d ∧ P d := by
    intro P c
    rw [getBlock_place hprev hfresh]
    by_cases hc : b.blockHash = c
    · subst hc
      simp [hnone]
    · rw [if_neg hc]
      simp [Ne.symm hc]
  constructor
  · intro h e he
    rw [getElem?_place hprev hfresh] at he
    split_ifs at he with h1 h2
    · cases he
      exact h1
    · cases he
      exact (ht.keyed hprev).trans h2
    · exact ht.keyed he
  · intro h e he c
    rw [hview]
    rw [getElem?_place hprev hfresh] at he
    split_ifs at he with h1 h2
    · -- the new block has no children
      cases he
      rw [← h1]
      simp only [TreeSet.not_mem_emptyc, false_iff, not_or, not_and, not_exists]
      exact ⟨fun _ => prev_ne_hash hprev hfresh, fun d hd => hleaf hd⟩
    · -- its parent has one more
      cases he
      rw [← h2]
      show c ∈ prevEntry.children.insert b.blockHash ↔ _
      rw [TreeSet.mem_insert, Nat.compare_eq_eq, ht.children hprev]
      simp only [and_true, eq_comm]
    · rw [ht.children he]
      constructor
      · exact .inr
      · rintro (⟨-, heq⟩ | hd)
        · exact absurd heq h2
        · exact hd
  · refine (ht.heights.add b.height b.blockHash).congr ?_
    intro height c
    rw [hview, and_comm, eq_comm (a := height)]
  · refine (ht.solutions.add b.solutionHash b.blockHash).congr ?_
    intro solution c
    rw [hview, and_comm, eq_comm (a := solution)]

theorem Heaviest.place (ht : t.Heaviest)
    (hprev : t.blocks[b.previousBlockHash]? = some prevEntry)
    (hfresh : t.blocks[b.blockHash]? = none) :
    (t.place b.blockHash b s prevEntry).Heaviest := by
  have hmax : (t.place b.blockHash b s prevEntry).maxCumulativeDifficulty =
      if t.maxCumulativeDifficulty.1 < b.cumulativeDiff then (b.cumulativeDiff, b.blockHash)
      else t.maxCumulativeDifficulty := rfl
  constructor
  · rw [hmax]
    split_ifs with hlt
    · exact ⟨b, by rw [getBlock_place hprev hfresh, if_pos rfl], rfl⟩
    · obtain ⟨c, hc, hdiff⟩ := ht.attained
      refine ⟨c, ?_, hdiff⟩
      rw [getBlock_place hprev hfresh, if_neg, hc]
      intro heq
      rw [← heq, getBlock_eq_none_iff.mpr hfresh] at hc
      cases hc
  · intro h c hc
    rw [hmax]
    rw [getBlock_place hprev hfresh] at hc
    split_ifs at hc with heq
    · cases hc
      split_ifs with hlt
      · exact le_rfl
      · exact Nat.not_lt.mp hlt
    · have := ht.le hc
      split_ifs with hlt
      · exact this.trans hlt.le
      · exact this

end Place

/-! ### A block deleted -/

theorem getElem?_unlink : (t.unlink h e).blocks[x]? =
    if h = x then none
    else if e.block.previousBlockHash = x then
      t.blocks[x]?.map fun prev => { prev with children := prev.children.erase h }
    else t.blocks[x]? := by
  unfold unlink
  simp only [TreeMap.getElem?_erase, TreeMap.getElem?_modify, Nat.compare_eq_eq]
  split_ifs with h1 h2
  · rfl
  · rw [h2]
  · rfl

theorem map_unlink {α : Type} {f : TreeBlockMetadata → α} (hf : Childless f) :
    (t.unlink h e).blocks[x]?.map f = if h = x then none else t.blocks[x]?.map f := by
  rw [getElem?_unlink]
  split_ifs
  · rfl
  · rw [Option.map_map]
    exact congrArg (Option.map · _) (funext fun prev => hf prev _)
  · rfl

@[simp] theorem getBlock_unlink : (t.unlink h e).getBlock x =
    if h = x then none else t.getBlock x :=
  map_unlink fun _ _ => rfl

@[simp] theorem getStatus_unlink : (t.unlink h e).getStatus x =
    if h = x then none else t.getStatus x :=
  map_unlink fun _ _ => rfl

theorem Indexed.unlink (ht : t.Indexed) (he : t.blocks[h]? = some e) : (t.unlink h e).Indexed := by
  have hview : ∀ {P : IrysBlockHeader → Prop} (c : H256),
      (∃ d, (t.unlink h e).getBlock c = some d ∧ P d) ↔
        (∃ d, t.getBlock c = some d ∧ P d) ∧ c ≠ h := by
    intro P c
    rw [getBlock_unlink]
    by_cases hc : h = c
    · simp [hc]
    · simp [hc, Ne.symm hc]
  have hindex : ∀ (key : IrysBlockHeader → ℕ) (k : ℕ) (c : H256),
      (∃ d, t.getBlock c = some d ∧ key d = k) ∧ ¬ (k = key e.block ∧ c = h) ↔
        ∃ d, (t.unlink h e).getBlock c = some d ∧ key d = k := by
    intro key k c
    rw [hview]
    refine and_congr_right ?_
    rintro ⟨d, hd, rfl⟩
    refine not_congr ⟨And.right, ?_⟩
    rintro rfl
    cases (getBlock_of_entry he).symm.trans hd
    exact ⟨rfl, rfl⟩
  constructor
  · intro x e' he'
    rw [getElem?_unlink] at he'
    split_ifs at he' with h1 h2
    · obtain ⟨e₀, he₀, rfl⟩ := map_eq_some_iff.mp he'
      exact (ht.keyed he₀ :)
    · exact ht.keyed he'
  · intro x e' he' c
    rw [hview]
    rw [getElem?_unlink] at he'
    split_ifs at he' with h1 h2
    · obtain ⟨e₀, he₀, rfl⟩ := map_eq_some_iff.mp he'
      show c ∈ e₀.children.erase h ↔ _
      rw [TreeSet.mem_erase, ne_eq, Nat.compare_eq_eq, ht.children he₀, and_comm, eq_comm]
    · rw [ht.children he', iff_self_and]
      rintro ⟨d, hd, hprev⟩ rfl
      cases (getBlock_of_entry he).symm.trans hd
      exact h2 hprev
  · exact (ht.heights.drop e.block.height h).congr (hindex IrysBlockHeader.height)
  · exact (ht.solutions.drop e.block.solutionHash h).congr (hindex IrysBlockHeader.solutionHash)

/-- `find_max_difficulty` finds a block of greatest difficulty in a tree that has blocks, the first
added among equals. -/
theorem findMaxDifficulty_spec (he : t.blocks[h]? = some e) :
    ∃ q : H256 × TreeBlockMetadata, t.findMaxDifficulty = .ok (q.2.block.cumulativeDiff, q.1) ∧
      t.blocks[q.1]? = some q.2 ∧ ∀ ⦃x : H256⦄ ⦃e : TreeBlockMetadata⦄, t.blocks[x]? = some e →
        e.block.cumulativeDiff ≤ q.2.block.cumulativeDiff ∧
        (e.block.cumulativeDiff = q.2.block.cumulativeDiff →
          q.2.insertionSequence ≤ e.insertionSequence) := by
  have hmem : ∀ {x : H256} {e : TreeBlockMetadata}, t.blocks[x]? = some e →
      (x, e) ∈ t.blocks.toList := TreeMap.mem_toList_iff_getElem?_eq_some.mpr
  unfold findMaxDifficulty
  cases hmax : (t.blocks.toList.map (·.2.block.cumulativeDiff)).max? with
  | none =>
    rw [List.max?_eq_none_iff, List.map_eq_nil_iff] at hmax
    have := hmem he
    rw [hmax] at this
    cases this
  | some maxDiff =>
    obtain ⟨hattained, hle⟩ := List.max?_eq_some_iff.mp hmax
    obtain ⟨p, hp, hdiff⟩ := List.mem_map.mp hattained
    have hheaviest : ∀ {r}, r ∈ t.blocks.toList → r.2.block.cumulativeDiff = maxDiff →
        r ∈ t.blocks.toList.filter (·.2.block.cumulativeDiff == maxDiff) :=
      fun hr heq => List.mem_filter.mpr ⟨hr, beq_iff_eq.mpr heq⟩
    cases hmin : (t.blocks.toList.filter (·.2.block.cumulativeDiff == maxDiff)).argmin
        t.tieBreak with
    | none =>
      have := hheaviest hp hdiff
      rw [List.argmin_eq_none.mp hmin] at this
      cases this
    | some q =>
      have hq := List.argmin_mem hmin
      rw [List.mem_filter, beq_iff_eq] at hq
      obtain ⟨hq, rfl⟩ := hq
      refine ⟨q, ?_, TreeMap.mem_toList_iff_getElem?_eq_some.mp hq, fun x e he => ⟨?_, ?_⟩⟩
      · simp only [hmin, expect_some, ok_bind]
        rfl
      · exact hle _ (List.mem_map.mpr ⟨(x, e), hmem he, rfl⟩)
      · -- among blocks of equal difficulty the order starts with the sequence
        intro htie
        have horder := List.le_of_mem_argmin (hheaviest (hmem he) htie) hmin
        rw [tieBreak, tieBreak, Prod.Lex.le_iff] at horder
        exact horder.elim LT.lt.le fun h => h.1.le

/-- `t'` is `t` without some of its blocks.  The heaviest block is looked up again only when it
is one of them. -/
structure Drops (t t' : BlockTree) (gone : H256 → Prop) : Prop where
  kept : ∀ ⦃y⦄, ¬ gone y → t'.getBlock y = t.getBlock y
  keptStatus : ∀ ⦃y⦄, ¬ gone y → t'.getStatus y = t.getStatus y
  dropped : ∀ ⦃y⦄, gone y → t'.getBlock y = none
  tip : t'.tip = t.tip
  consensusConfig : t'.consensusConfig = t.consensusConfig
  max : ¬ gone t.maxCumulativeDifficulty.2 →
    t'.maxCumulativeDifficulty = t.maxCumulativeDifficulty

namespace Drops

variable {gone gone' : H256 → Prop}

theorem refl (t : BlockTree) : Drops t t fun _ => False where
  kept _ _ := rfl
  keptStatus _ _ := rfl
  dropped _ h := h.elim
  tip := rfl
  consensusConfig := rfl
  max _ := rfl

section

variable (hd : Drops t t' gone)
include hd

theorem trans {t'' : BlockTree} (hd' : Drops t' t'' gone') :
    Drops t t'' fun y => gone y ∨ gone' y where
  kept y hy := by
    rw [not_or] at hy
    rw [hd'.kept hy.2, hd.kept hy.1]
  keptStatus y hy := by
    rw [not_or] at hy
    rw [hd'.keptStatus hy.2, hd.keptStatus hy.1]
  dropped y hy := by
    by_cases hy' : gone' y
    · exact hd'.dropped hy'
    · rw [hd'.kept hy']
      exact hd.dropped (hy.resolve_right hy')
  tip := hd'.tip.trans hd.tip
  consensusConfig := hd'.consensusConfig.trans hd.consensusConfig
  max hmax := by
    rw [not_or] at hmax
    have hfirst := hd.max hmax.1
    rw [hd'.max (by rw [hfirst]; exact hmax.2), hfirst]

theorem congr (heq : ∀ y, gone y ↔ gone' y) : Drops t t' gone' := by
  have : gone = gone' := funext fun y => propext (heq y)
  rw [← this]
  exact hd

theorem getBlock_of_some (hb : t'.getBlock x = some b) :
    t.getBlock x = some b ∧ ¬ gone x := by
  have hx : ¬ gone x := by
    intro hx
    rw [hd.dropped hx] at hb
    cases hb
  exact ⟨by rw [← hd.kept hx, hb], hx⟩

theorem getStatus_of_some {s : ChainState}
    (hs : t'.getStatus x = some s) : t.getStatus x = some s ∧ ¬ gone x := by
  obtain ⟨b, hb⟩ := exists_header hs
  have hx := (hd.getBlock_of_some hb).2
  exact ⟨by rw [← hd.keptStatus hx, hs], hx⟩

theorem linked (ht : t.Linked) : t'.Linked where
  height := Forest.graded_restrict ht.height fun _ _ hb => (hd.getBlock_of_some hb).1
  rising _ _ _ hb hp := ht.rising (hd.getBlock_of_some hb).1 (hd.getBlock_of_some hp).1

end

end Drops

/-- Everything kept beside the blocks agrees with them. -/
structure Tidy (t : BlockTree) : Prop extends Indexed t, Heaviest t, Linked t where
  cached : t.Cached

/-- **`delete_block`** takes one block out and leaves the tree tidy, as long as another block
stays. -/
theorem deleteBlock_spec (ht : t.Tidy) (hh : (t.getBlock h).isSome) (hx : (t.getBlock x).isSome)
    (hne : x ≠ h) :
    ∃ t', (deleteBlock h).run t = (.ok (), t') ∧ t'.Tidy ∧ Drops t t' (· = h) := by
  obtain ⟨b, hb⟩ := isSome_iff_exists.mp hh
  obtain ⟨c, hc⟩ := isSome_iff_exists.mp hx
  obtain ⟨e, he, rfl⟩ := exists_entry hb
  -- the maximum, looked up again if the block had it
  obtain ⟨maxBlock, hrun, hattained, hle, hkeep⟩ : ∃ maxBlock : ℕ × H256,
      (if t.maxCumulativeDifficulty.2 = h then (t.unlink h e).findMaxDifficulty
        else .ok t.maxCumulativeDifficulty) = .ok maxBlock ∧
      (∃ d, (t.unlink h e).getBlock maxBlock.2 = some d ∧ d.cumulativeDiff = maxBlock.1) ∧
      (∀ ⦃y d⦄, (t.unlink h e).getBlock y = some d → d.cumulativeDiff ≤ maxBlock.1) ∧
      (t.maxCumulativeDifficulty.2 ≠ h → maxBlock = t.maxCumulativeDifficulty) := by
    by_cases hmax : t.maxCumulativeDifficulty.2 = h
    · have hleft : (t.unlink h e).getBlock x = some c := by
        rw [getBlock_unlink, if_neg (Ne.symm hne), hc]
      obtain ⟨l, hl, -⟩ := exists_entry hleft
      obtain ⟨q, hfind, hq, hle⟩ := findMaxDifficulty_spec hl
      refine ⟨(q.2.block.cumulativeDiff, q.1), ?_, ⟨q.2.block, getBlock_of_entry hq, rfl⟩, ?_,
        fun hne => absurd hmax hne⟩
      · rw [if_pos hmax, hfind]
      · intro y d hd
        obtain ⟨l, hl, rfl⟩ := exists_entry hd
        exact (hle hl).1
    · refine ⟨t.maxCumulativeDifficulty, ?_, ?_, ?_, fun _ => rfl⟩
      · rw [if_neg hmax]
      · obtain ⟨d, hd, hdiff⟩ := ht.attained
        refine ⟨d, ?_, hdiff⟩
        rw [getBlock_unlink, if_neg (Ne.symm hmax), hd]
      · intro y d hd
        rw [getBlock_unlink] at hd
        split_ifs at hd
        exact ht.le hd
  have hdrops : Drops t (t.unlink h e) (· = h) := by
    refine ⟨?_, ?_, ?_, rfl, rfl, fun _ => rfl⟩
    · intro y hy
      rw [getBlock_unlink, if_neg (Ne.symm hy)]
    · intro y hy
      rw [getStatus_unlink, if_neg (Ne.symm hy)]
    · rintro y rfl
      rw [getBlock_unlink, if_pos rfl]
  have hidx := ht.toIndexed.unlink he
  refine ⟨{ t.unlink h e with maxCumulativeDifficulty := maxBlock }.updateLongestChainCache,
    ?_, ?_, ?_⟩
  · unfold deleteBlock
    rw [Mut.run_read_bind]
    simp only [he, hrun]
    rfl
  · exact
      { keyed := hidx.keyed
        children := hidx.children
        heights := hidx.heights
        solutions := hidx.solutions
        attained := hattained
        le := hle
        height := (hdrops.linked ht.toLinked).height
        rising := (hdrops.linked ht.toLinked).rising
        cached := rfl }
  · exact
      { kept := hdrops.kept
        keptStatus := hdrops.keptStatus
        dropped := hdrops.dropped
        tip := rfl
        consensusConfig := rfl
        max := hkeep }

end BlockTree

end Irys
