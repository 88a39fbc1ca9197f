import Irys.BlockTree.Canonical

/-!
# Subtrees and pruned blocks leave the tree

`remove_block` takes a subtree out bottom up, one `delete_block` at a time; `prune` takes out the
root of the tree, again and again, with every fork that hangs from it.

* `pruneBlock_spec`, `pruneHeight_spec` — one block, one height.
-/

namespace Irys

open List Option Mut Forest

namespace BlockTree

open Std

variable {t t' : BlockTree} {h x : H256} {b : IrysBlockHeader} {e : TreeBlockMetadata}
  {name : H256 → Option IrysBlockHeader}

/-! ### Sweeping siblings -/

variable {y a r : H256} {height : ℕ} {s : BlockTree}

/-- **Ancestors stay**, if what is gone lies below what stays. -/
theorem Drops.anc_iff {gone : H256 → Prop} (hd : Drops t t' gone)
    (hup : ∀ c p, t.Link c p → ¬ gone c → t.Anc p a → ¬ gone p) (hy : ¬ gone y) :
    t'.Anc y a ↔ t.Anc y a :=
  anc_restrict_iff (fun y => ¬ gone y) (fun _ hy => hd.kept hy)
    (fun _ hy => hd.dropped (not_not.mp hy)) hy hup

/-- **The canonical chain without some blocks.** -/
theorem Canonical.drop {gone : H256 → Prop} (ht : t.Canonical) (hd : Drops t t' gone)
    (hup : ∀ a, ¬ gone a → ∀ c p, t.Link c p → ¬ gone c → t.Anc p a → ¬ gone p)
    (htip : ¬ gone t.tip) (hanchor : ∀ y, (t.getBlock y).isSome → ¬ gone y →
      ∃ a, ¬ gone a ∧ t.Anc y a ∧ t.Anc t.tip a) : t'.Canonical := by
  constructor
  · rw [hd.tip, hd.kept htip]
    exact ht.tip_mem
  · intro y s hs
    obtain ⟨hs', hy⟩ := hd.getStatus_of_some hs
    rw [hd.tip, hd.anc_iff (hup y hy) htip]
    exact ht.onchain_iff hs'
  · intro y hy
    obtain ⟨c, hc⟩ := isSome_iff_exists.mp hy
    obtain ⟨hc', hstays⟩ := hd.getBlock_of_some hc
    obtain ⟨a, ha, hya, hta⟩ := hanchor y (isSome_of_eq_some hc') hstays
    refine ⟨a, (hd.anc_iff (hup a ha) hstays).mpr hya, ?_⟩
    rw [hd.tip]
    exact (hd.anc_iff (hup a ha) htip).mpr hta
  · intro y c s p hc hs hready hp
    exact ht.ready (hd.getBlock_of_some hc).1 (hd.getStatus_of_some hs).1 hready
      (hd.getStatus_of_some hp).1

/-- The blocks that a loop over children has dropped. -/
def Swept (t : BlockTree) (children : List H256) (chosen : H256 → Prop) (rest : List H256)
    (y : H256) : Prop :=
  ∃ c ∈ children, c ∉ rest ∧ chosen c ∧ t.Anc y c

/-- A loop over children of `p` has dropped the subtrees of the chosen ones, except those still
to come. -/
structure Sweep (t : BlockTree) (p : H256) (children : List H256) (chosen : H256 → Prop)
    (rest : List H256) (s : BlockTree) : Prop where
  tidy : s.Tidy
  drops : Drops t s fun y => ∃ c ∈ children, c ∉ rest ∧ chosen c ∧ t.Anc y c
  subset : rest ⊆ children
  nodup : rest.Nodup

namespace Sweep

variable {p c : H256} {children rest : List H256} {chosen : H256 → Prop} {s s' : BlockTree}

theorem start (ht : t.Tidy) (hnodup : children.Nodup) : Sweep t p children chosen children t where
  tidy := ht
  drops := (Drops.refl t).congr fun y => by
    constructor
    · exact False.elim
    · rintro ⟨c, hc, hc', -⟩
      exact hc' hc
  subset := List.Subset.refl _
  nodup := hnodup

theorem skip (hs : Sweep t p children chosen (c :: rest) s) (hc : ¬ chosen c) :
    Sweep t p children chosen rest s where
  tidy := hs.tidy
  drops := hs.drops.congr fun y => by
    constructor
    · rintro ⟨d, hd, hrest, hchosen, hanc⟩
      exact ⟨d, hd, fun hmem => hrest (mem_cons_of_mem _ hmem), hchosen, hanc⟩
    · rintro ⟨d, hd, hrest, hchosen, hanc⟩
      refine ⟨d, hd, ?_, hchosen, hanc⟩
      intro hmem
      rcases mem_cons.mp hmem with rfl | hmem
      · exact hc hchosen
      · exact hrest hmem
  subset := fun _ hd => hs.subset (mem_cons_of_mem _ hd)
  nodup := (nodup_cons.mp hs.nodup).2

section Siblings

variable (hg : t.Linked) (hlink : ∀ c ∈ children, t.Link c p)
include hg hlink

theorem kept_of_anc (hs : Sweep t p children chosen rest s) (hc : c ∈ rest) {y : H256}
    (hy : t.Anc y c) : ¬ t.Swept children chosen rest y := by
  rintro ⟨d, hd, hrest, -, hyd⟩
  have hne : c ≠ d := by
    rintro rfl
    exact hrest hc
  exact not_anc_sibling hg.height (hlink c (hs.subset hc)) (hlink d hd) hne hy hyd

theorem anc_iff (hs : Sweep t p children chosen rest s) (hc : c ∈ rest) {y : H256} :
    s.Anc y c ↔ t.Anc y c ∧ ¬ t.Swept children chosen rest y := by
  have hiff : ¬ t.Swept children chosen rest y → (s.Anc y c ↔ t.Anc y c) := by
    refine hs.drops.anc_iff ?_
    rintro x q hl hx - ⟨d, hd, hrest, hchosen, hqd⟩
    exact hx ⟨d, hd, hrest, hchosen, hqd.head hl⟩
  constructor
  · intro hyc
    by_cases hy : t.Swept children chosen rest y
    · -- a dropped block has no links left
      have hnone := hs.drops.dropped hy
      have hroot : ∀ q, ¬ s.Link y q := by
        intro q hq
        have := hq.isSome_left
        rw [hnone] at this
        cases this
      obtain rfl := eq_of_anc_of_root hroot hyc
      exact absurd hy (hs.kept_of_anc hg hlink hc .refl)
    · exact ⟨(hiff hy).mp hyc, hy⟩
  · rintro ⟨hyc, hy⟩
    exact (hiff hy).mpr hyc

theorem take (hs : Sweep t p children chosen (c :: rest) s) (hc : chosen c) (hs' : s'.Tidy)
    (hd : Drops s s' fun y => s.Anc y c) : Sweep t p children chosen rest s' where
  tidy := hs'
  drops := (hs.drops.trans hd).congr fun y => by
    have hcmem : c ∈ c :: rest := mem_cons_self ..
    rw [hs.anc_iff hg hlink hcmem]
    constructor
    · rintro (⟨d, hd, hrest, hchosen, hanc⟩ | ⟨hanc, -⟩)
      · exact ⟨d, hd, fun hmem => hrest (mem_cons_of_mem _ hmem), hchosen, hanc⟩
      · exact ⟨c, hs.subset hcmem, (nodup_cons.mp hs.nodup).1, hc, hanc⟩
    · rintro ⟨d, hd, hrest, hchosen, hanc⟩
      by_cases hdc : d = c
      · rw [hdc] at hanc
        exact .inr ⟨hanc, hs.kept_of_anc hg hlink hcmem hanc⟩
      · refine .inl ⟨d, hd, ?_, hchosen, hanc⟩
        rw [mem_cons, not_or]
        exact ⟨hdc, hrest⟩
  subset := fun _ hd => hs.subset (mem_cons_of_mem _ hd)
  nodup := (nodup_cons.mp hs.nodup).2

end Siblings

end Sweep

/-! ### Removing a subtree -/

theorem mem_children_iff (ht : t.Indexed) (he : t.blocks[h]? = some e) {c : H256} :
    c ∈ e.children.toList ↔ t.Link c h := by
  rw [TreeSet.mem_toList, ht.children he]
  constructor
  · rintro ⟨d, hd, hprev⟩
    exact ⟨d, hd, hprev, isSome_of_eq_some (getBlock_of_entry he)⟩
  · rintro ⟨d, hd, hprev, -⟩
    exact ⟨d, hd, hprev⟩

theorem nodup_hashes (hashes : TreeSet H256) : hashes.toList.Nodup := by
  refine TreeSet.distinct_toList.imp ?_
  rintro a _ hab rfl
  exact hab ReflCmp.compare_self

/-- **The recursion of `remove_block`.**  Off the chain, and with fuel for the height of the
subtree, it drops the block with everything below it. -/
theorem removeSubtree_spec (fuel : ℕ) : ∀ (t : BlockTree) (h : H256), t.Tidy →
    (t.getBlock h).isSome → (∀ y s, t.getStatus y = some s → t.Anc y h → s ≠ .onchain) →
    (∀ y, (t.getBlock y).isSome → t.Anc y h → t.rank y < t.rank h + fuel) →
    (∃ z, (t.getBlock z).isSome ∧ ¬ t.Anc z h) →
    ∃ t', (removeSubtree fuel h).run t = (.ok (), t') ∧ t'.Tidy ∧
      Drops t t' fun y => t.Anc y h := by
  induction fuel with
  | zero =>
    intro t h _ hh _ hfuel _
    have := hfuel h hh .refl
    omega
  | succ fuel ih =>
    rintro t h ht hh hoff hfuel ⟨z, hz, hzh⟩
    obtain ⟨b, hb⟩ := isSome_iff_exists.mp hh
    obtain ⟨e, he, rfl⟩ := exists_entry hb
    have hchild : ∀ c ∈ e.children.toList, t.Link c h :=
      fun c hc => (mem_children_iff ht.toIndexed he).mp hc
    -- the children, one subtree after the other
    have hloop : ∀ c rest s, Sweep t h e.children.toList (fun _ => True) (c :: rest) s →
        ∃ s', (removeSubtree fuel c).run s = (.ok (), s') ∧
          Sweep t h e.children.toList (fun _ => True) rest s' := by
      intro c rest s hs
      have hcmem : c ∈ c :: rest := mem_cons_self ..
      have hlink := hchild c (hs.subset hcmem)
      have hbelow : ∀ {y}, s.Anc y c → t.Anc y c :=
        fun hy => ((hs.anc_iff ht.toLinked hchild hcmem).mp hy).1
      have hup : ∀ {y}, t.Anc y c → t.Anc y h := fun hy => hy.tail hlink
      have hkept : ∀ {y}, t.Anc y c → s.getBlock y = t.getBlock y :=
        fun hy => hs.drops.kept (hs.kept_of_anc ht.toLinked hchild hcmem hy)
      obtain ⟨s', hrun, htidy, hdrops⟩ := ih s c hs.tidy
        (by rw [hkept .refl]; exact hlink.isSome_left)
        (fun y st hst hy => hoff y st
          ((hs.drops.keptStatus (hs.kept_of_anc ht.toLinked hchild hcmem (hbelow hy))) ▸ hst)
          (hup (hbelow hy)))
        (by
          intro y hy hyc
          have hyc' := hbelow hyc
          rw [hkept hyc'] at hy
          have hlt := hfuel y hy (hup hyc')
          have hrank : t.rank c = t.rank h + 1 := hlink.rank_eq ht.height
          rw [rank_congr (hkept hyc'), rank_congr (hkept .refl)]
          omega)
        ⟨z, by
          rw [hs.drops.kept]
          · exact hz
          · rintro ⟨d, hd, -, -, hzd⟩
            exact hzh (hzd.tail (hchild d hd)), fun hzc => hzh (hup (hbelow hzc))⟩
      exact ⟨s', hrun, hs.take ht.toLinked hchild trivial htidy hdrops⟩
    obtain ⟨t₁, hrun₁, hs₁⟩ := forEach_ok _ hloop (Sweep.start ht (nodup_hashes _))
    -- then the block itself
    have hstays : ∀ {y}, ¬ (∃ c ∈ e.children.toList, t.Anc y c) →
        t₁.getBlock y = t.getBlock y := by
      intro y hy
      apply hs₁.drops.kept
      rintro ⟨c, hc, -, -, hyc⟩
      exact hy ⟨c, hc, hyc⟩
    have hself : ¬ ∃ c ∈ e.children.toList, t.Anc h c := by
      rintro ⟨c, hc, hhc⟩
      have hle := Forest.rank_le_of_anc ht.height hhc
      have := (hchild c hc).rank_eq ht.height
      omega
    have hzstays : ¬ ∃ c ∈ e.children.toList, t.Anc z c := by
      rintro ⟨c, hc, hzc⟩
      exact hzh (hzc.tail (hchild c hc))
    obtain ⟨t₂, hrun₂, htidy₂, hdrops₂⟩ := deleteBlock_spec hs₁.tidy
      (by rw [hstays hself]; exact hh) (by rw [hstays hzstays]; exact hz)
      (by
        rintro rfl
        exact hzh .refl)
    refine ⟨t₂, ?_, htidy₂, ?_⟩
    · rw [removeSubtree, run_read_bind]
      simp only [he]
      rw [if_neg (hoff h e.chainState (getStatus_of_entry he) .refl), run_bind_of_ok hrun₁]
      exact hrun₂
    · refine (hs₁.drops.trans hdrops₂).congr ?_
      intro y
      rw [anc_iff_eq_or_child]
      constructor
      · rintro (⟨c, hc, -, -, hyc⟩ | rfl)
        · exact .inr ⟨c, hchild c hc, hyc⟩
        · exact .inl rfl
      · rintro (rfl | ⟨c, hc, hyc⟩)
        · exact .inr rfl
        · exact .inl ⟨c, (mem_children_iff ht.toIndexed he).mpr hc, not_mem_nil, trivial,
            hyc⟩

theorem rank_lt_of_anc (ht : t.Linked) (hy : (t.getBlock y).isSome) (hanc : t.Anc y a) :
    t.rank y < t.rank a + t.blocks.size := by
  obtain ⟨l, hl⟩ := exists_lineage ht.height y
  have hlen : l.length ≤ t.blocks.size := by
    rw [← Std.TreeMap.length_keys]
    apply hl.length_le ht.height
    intro k hk
    rw [Std.TreeMap.mem_keys, Std.TreeMap.mem_iff_isSome_getElem?]
    rwa [getBlock, isSome_map] at hk
  exact (hl.rank_lt ht.height hy hanc).trans_le (Nat.add_le_add_left hlen _)

/-- **`remove_block`** never fails off the chain: it drops the subtree. -/
theorem removeBlock_spec (ht : t.Tidy) (hcan : t.Canonical) {s : ChainState}
    (hs : t.getStatus h = some s) (hoff : s ≠ .onchain) :
    ∃ t', (removeBlock h).run t = (.ok (), t') ∧ t'.Tidy ∧ Drops t t' fun y => t.Anc y h := by
  obtain ⟨b, hb⟩ := exists_header hs
  rw [removeBlock, run_read_bind]
  apply removeSubtree_spec _ t h ht (isSome_of_eq_some hb)
  · intro y s' hs' hyh
    exact hcan.off_of_anc hyh hs' hs hoff
  · intro y hy hyh
    exact rank_lt_of_anc ht.toLinked hy hyh
  · exact ⟨t.tip, hcan.tip_mem, fun htip => hoff ((hcan.onchain_iff hs).mpr htip)⟩

theorem Canonical.drop_subtree (ht : t.Canonical) {s : ChainState} (hs : t.getStatus h = some s)
    (hoff : s ≠ .onchain) (hd : Drops t t' fun y => t.Anc y h) : t'.Canonical := by
  have htip : ¬ t.Anc t.tip h := fun htip => hoff ((ht.onchain_iff hs).mpr htip)
  refine ht.drop hd ?_ htip ?_
  · intro a _ c p hl hc _ hp
    exact hc (hp.head hl)
  · intro y hy _
    obtain ⟨a, hya, hta⟩ := ht.anchored hy
    exact ⟨a, fun hah => htip (hta.trans hah), hya, hta⟩

/-- **`remove_block` keeps the invariant.** -/
theorem Sound.removeBlock (ht : t.Sound name) {s : ChainState} (hs : t.getStatus h = some s)
    (hoff : s ≠ .onchain) :
    ∃ t', (removeBlock h).run t = (.ok (), t') ∧ t'.Sound name ∧
      Drops t t' fun y => t.Anc y h := by
  obtain ⟨t', hrun, htidy, hd⟩ := removeBlock_spec ht.toTidy ht.toCanonical hs hoff
  refine ⟨t', hrun, ?_, hd⟩
  exact
    { toTidy := htidy
      toCanonical := ht.toCanonical.drop_subtree hs hoff hd
      toNamed := hd.named ht.toNamed }

/-! ### Pruning -/

/-- What goes with the root: the root and the forks that hang from it. -/
def goesWithRoot (t : BlockTree) (r y : H256) : Prop :=
  y = r ∨ ∃ c s, t.Link c r ∧ t.getStatus c = some s ∧ s ≠ .onchain ∧ t.Anc y c

theorem goesWithRoot_iff : t.goesWithRoot r y ↔
    y = r ∨ ∃ c, t.Link c r ∧ t.getStatus c ≠ some .onchain ∧ t.Anc y c := by
  refine or_congr_right (exists_congr fun c => ?_)
  constructor
  · rintro ⟨s, hc, hs, hoff, hyc⟩
    exact ⟨hc, by simpa [hs] using hoff, hyc⟩
  · rintro ⟨hc, hoff, hyc⟩
    obtain ⟨s, hs⟩ := exists_status_of_isSome hc.isSome_left
    exact ⟨s, hc, hs, by simpa [hs] using hoff, hyc⟩

theorem Canonical.drop_root (ht : t.Canonical) (hroot : ∀ p, ¬ t.Link r p) (htip : t.tip ≠ r)
    (hd : Drops t t' (t.goesWithRoot r)) : ¬ t.goesWithRoot r t.tip ∧ t'.Canonical := by
  -- an on-chain block other than the root stays
  have hon : ∀ {a}, t.Anc t.tip a → a ≠ r → ¬ t.goesWithRoot r a := by
    rintro a hta har (rfl | ⟨c, s, -, hs, hoff, hac⟩)
    · exact har rfl
    · exact hoff ((ht.onchain_iff hs).mpr (hta.trans hac))
  refine ⟨hon .refl htip, ht.drop hd ?_ (hon .refl htip) ?_⟩
  · rintro a ha c p hl hc hpa (rfl | ⟨d, s, hd', hs, hoff, hpd⟩)
    · exact ha (.inl (eq_of_anc_of_root hroot hpa))
    · exact hc (.inr ⟨d, s, hd', hs, hoff, hpd.head hl⟩)
  · intro y hy hstays
    obtain ⟨a, hya, hta⟩ := ht.anchored hy
    by_cases har : a = r
    · -- the block hangs from the root by a child that is on chain
      subst har
      rw [goesWithRoot_iff, not_or, not_exists] at hstays
      obtain heq | ⟨d, hda, hyd⟩ := Forest.anc_iff_eq_or_child.mp hya
      · exact absurd heq hstays.1
      · have hson : t.getStatus d = some .onchain :=
          not_not.mp fun hoff => hstays.2 d ⟨hda, hoff, hyd⟩
        have htd := (ht.onchain_iff hson).mp rfl
        refine ⟨d, hon htd ?_, hyd, htd⟩
        rintro rfl
        exact hroot d hda
    · exact ⟨a, hon hta har, hya, hta⟩

theorem pruneBlock_spec (ht : t.Sound name) (hr : (t.getBlock r).isSome)
    (hroot : ∀ p, ¬ t.Link r p) (htip : t.tip ≠ r) :
    ∃ t', (pruneBlock r).run t = (.ok [], t') ∧ t'.Sound name ∧ Drops t t' (t.goesWithRoot r) ∧
      ¬ t.goesWithRoot r t.tip := by
  obtain ⟨b, hb⟩ := isSome_iff_exists.mp hr
  obtain ⟨e, he, rfl⟩ := exists_entry hb
  have hon : e.chainState = .onchain :=
    (ht.onchain_iff (getStatus_of_entry he)).mpr (ht.anc_root hr hroot ht.tip_mem)
  have hchild : ∀ c ∈ e.children.toList, t.Link c r :=
    fun c hc => (mem_children_iff ht.toIndexed he).mp hc
  let Left : List H256 → BlockTree → Prop := fun rest s =>
    Sweep t r e.children.toList (fun c => t.getStatus c ≠ some .onchain) rest s ∧ s.Sound name
  have hloop : ∀ c rest s, Left (c :: rest) s →
      ∃ s', (pruneChild c).run s = (.ok [], s') ∧ Left rest s' := by
    rintro c rest s ⟨hs, hsound⟩
    have hcmem : c ∈ c :: rest := mem_cons_self ..
    have hlink := hchild c (hs.subset hcmem)
    have hsame : s.getStatus c = t.getStatus c :=
      hs.drops.keptStatus (hs.kept_of_anc ht.toLinked hchild hcmem .refl)
    obtain ⟨sc, hsc⟩ := exists_status_of_isSome hlink.isSome_left
    rw [hsc] at hsame
    by_cases hoff : sc = .onchain
    · refine ⟨s, ?_, hs.skip (by rw [hsc, hoff]; simp), hsound⟩
      rw [pruneChild, run_read_bind, hsame, hoff]
      rfl
    · obtain ⟨s', hrun, hsound', hdrops⟩ := hsound.removeBlock hsame hoff
      refine ⟨s', ?_, hs.take ht.toLinked hchild (by simpa [hsc] using hoff) hsound'.toTidy hdrops,
        hsound'⟩
      have hlogged := run_logged_of_ok hrun
      rw [pruneChild, run_read_bind, hsame]
      cases sc with
      | onchain => exact absurd rfl hoff
      | validated _ => exact hlogged
      | notOnchain _ => exact hlogged
  obtain ⟨t₁, hrun₁, hs₁, -⟩ :=
    gather_ok Left hloop ⟨Sweep.start ht.toTidy (nodup_hashes _), ht⟩
  have hstays : ∀ {y}, ¬ (∃ c ∈ e.children.toList, t.getStatus c ≠ some .onchain ∧ t.Anc y c) →
      t₁.getBlock y = t.getBlock y := by
    intro y hy
    apply hs₁.drops.kept
    rintro ⟨c, hc, -, hoff, hyc⟩
    exact hy ⟨c, hc, hoff, hyc⟩
  obtain ⟨t₂, hrun₂, htidy₂, hdrops₂⟩ := deleteBlock_spec hs₁.tidy
    (by
      rw [hstays]
      · exact hr
      · rintro ⟨c, hc, -, hrc⟩
        have heq := eq_of_anc_of_root hroot hrc
        exact hroot r (heq ▸ hchild c hc))
    (by
      rw [hstays]
      · exact ht.tip_mem
      · rintro ⟨c, hc, hoff, htc⟩
        obtain ⟨sc, hsc⟩ := exists_status_of_isSome (hchild c hc).isSome_left
        exact hoff (by rw [hsc, (ht.onchain_iff hsc).mpr htc]))
    htip
  have hdrops : Drops t t₂ (t.goesWithRoot r) := by
    refine (hs₁.drops.trans hdrops₂).congr ?_
    intro y
    rw [goesWithRoot_iff]
    constructor
    · rintro (⟨c, hc, -, hoff, hyc⟩ | rfl)
      · exact .inr ⟨c, hchild c hc, hoff, hyc⟩
      · exact .inl rfl
    · rintro (rfl | ⟨c, hc, hoff, hyc⟩)
      · exact .inr rfl
      · exact .inl ⟨c, (mem_children_iff ht.toIndexed he).mpr hc, not_mem_nil, hoff, hyc⟩
  obtain ⟨htip', hcan⟩ := ht.toCanonical.drop_root hroot htip hdrops
  refine ⟨t₂, ?_, { toTidy := htidy₂, toCanonical := hcan, toNamed := hdrops.named ht.toNamed },
    hdrops, htip'⟩
  rw [pruneBlock, run_read_bind]
  simp only [he, hon, if_true]
  rw [run_bind_of_ok hrun₁, run_bind_of_ok (run_logged_of_ok hrun₂)]
  rfl

/-- The block is on chain at `height` or above, or hangs from a block that is. -/
def HangsFrom (t : BlockTree) (height : ℕ) (y : H256) : Prop :=
  ∃ a, t.Anc y a ∧ t.getStatus a = some .onchain ∧ height ≤ t.rank a

theorem HangsFrom.of_onchain (hon : t.getStatus y = some .onchain) (hle : height ≤ t.rank y) :
    t.HangsFrom height y := ⟨y, .refl, hon, hle⟩

theorem HangsFrom.of_anc {z : H256} (hyz : t.Anc y z) (hz : t.HangsFrom height z) :
    t.HangsFrom height y := by
  obtain ⟨a, hza, hon, hle⟩ := hz
  exact ⟨a, hyz.trans hza, hon, hle⟩

theorem HangsFrom.imp {low : ℕ} (hy : t.HangsFrom height y)
    (h : ∀ a, t.getStatus a = some .onchain → height ≤ t.rank a → low ≤ t.rank a) :
    t.HangsFrom low y := by
  obtain ⟨a, hya, hon, hle⟩ := hy
  exact ⟨a, hya, hon, h a hon hle⟩

theorem Canonical.hangsFrom (ht : t.Canonical)
    (hfloor : ∀ ⦃y b⦄, t.getBlock y = some b → height ≤ b.height) (hy : (t.getBlock y).isSome) :
    t.HangsFrom height y := by
  obtain ⟨a, hya, hta⟩ := ht.anchored hy
  obtain ⟨b, hb⟩ := isSome_iff_exists.mp (isSome_of_anc hya hy)
  obtain ⟨st, hst⟩ := exists_status hb
  have hrank : t.rank a = b.height := rank_of_look hb
  exact ⟨a, hya, by rw [hst, (ht.onchain_iff hst).mpr hta], hrank ▸ hfloor hb⟩

/-- A tree that pruning has brought from `t` so far: what is left is exactly what hangs from the
chain at `height` or above. -/
structure Pruned (name : H256 → Option IrysBlockHeader) (t : BlockTree) (height : ℕ)
    (s : BlockTree) : Prop where
  sound : s.Sound name
  drops : Drops t s fun y => ¬ t.HangsFrom height y
  floor : ∀ ⦃y b⦄, s.getBlock y = some b → height ≤ b.height

theorem Pruned.kept (hs : Pruned name t height s) (hy : t.HangsFrom height y) :
    s.getBlock y = t.getBlock y ∧ s.getStatus y = t.getStatus y :=
  ⟨hs.drops.kept (not_not_intro hy), hs.drops.keptStatus (not_not_intro hy)⟩

theorem Pruned.anc_iff (hs : Pruned name t height s) (hy : t.HangsFrom height y)
    (ha : t.HangsFrom height a) : s.Anc y a ↔ t.Anc y a :=
  hs.drops.anc_iff (fun _ _ _ _ hpa => not_not_intro (ha.of_anc hpa)) (not_not_intro hy)

/-- **The root and its forks are what is left at the height and no longer above it.** -/
theorem Pruned.gone_succ_iff (ht : t.Sound name) (hs : Pruned name t height s)
    {b : IrysBlockHeader} (hb : s.getBlock r = some b) (hheight : b.height = height)
    (hunique : ∀ ⦃y c⦄, s.getBlock y = some c → c.height = height → y = r) (y : H256) :
    (¬ t.HangsFrom height y ∨ s.goesWithRoot r y) ↔ ¬ t.HangsFrom (height + 1) y := by
  obtain ⟨hbt, hr⟩ := hs.drops.getBlock_of_some hb
  have hrH : t.HangsFrom height r := not_not.mp hr
  have hrank : t.rank r = height := hheight ▸ rank_of_look hbt
  constructor
  · intro hgone hup
    have hstays : t.HangsFrom height y := hup.imp fun _ _ hle => by omega
    obtain ⟨a, hya, hon, hle⟩ := hup
    rcases hgone.resolve_left (not_not_intro hstays) with rfl | ⟨c, st, hlink, hst, hoff, hyc⟩
    · have := ht.rank_le_of_anc hya
      omega
    · obtain ⟨-, hc⟩ := hs.drops.getStatus_of_some hst
      have hcH : t.HangsFrom height c := not_not.mp hc
      rw [(hs.kept hcH).2] at hst
      have hyc' := (hs.anc_iff hstays hcH).mp hyc
      have hcrank : t.rank c = height + 1 := by
        obtain ⟨v, hv, hp, hmem⟩ := hlink
        rw [(hs.kept hcH).1] at hv
        have := ht.rank_of_link ⟨v, hv, hp, isSome_of_eq_some hbt⟩
        omega
      -- the on-chain block is the child or above it: then the child is on chain
      have hac : t.Anc a c := anc_of_rank_le ht.toLinked hya hyc' (by omega)
      exact hoff ((ht.onchain_iff hst).mpr (((ht.onchain_iff hon).mp rfl).trans hac))
  · intro hlow
    by_cases hstays : t.HangsFrom height y
    · right
      obtain ⟨a, hya, hon, hle⟩ := hstays
      have hlt : t.rank a < height + 1 := by
        by_contra hge
        exact hlow ⟨a, hya, hon, by omega⟩
      have haH : t.HangsFrom height a := .of_onchain hon hle
      obtain ⟨ab, hab⟩ := exists_header hon
      have hasome : s.getBlock a = some ab := (hs.kept haH).1.trans hab
      have harank : t.rank a = ab.height := rank_of_look hab
      obtain rfl : a = r := hunique hasome (by omega)
      rcases Forest.anc_iff_eq_or_child.mp hya with heq | ⟨c, hlink, hyc⟩
      · exact .inl heq
      · have hcH : t.HangsFrom height c := haH.of_anc (.single hlink)
        obtain ⟨st, hst⟩ := exists_status_of_isSome hlink.isSome_left
        have hcrank := ht.rank_of_link hlink
        refine .inr ⟨c, st, ?_, (hs.kept hcH).2.trans hst, ?_,
          (hs.anc_iff (hcH.of_anc hyc) hcH).mpr hyc⟩
        · obtain ⟨v, hv, hp, -⟩ := hlink
          exact ⟨v, (hs.kept hcH).1.trans hv, hp, isSome_of_eq_some hasome⟩
        · intro hson
          exact hlow ⟨c, hyc, hson ▸ hst, by omega⟩
    · exact .inl hstays

theorem pruneHeight_spec (ht : t.Sound name) (hs : Pruned name t height s)
    (htip : height < t.rank t.tip) :
    ∃ s', (pruneHeight height).run s = (.ok [], s') ∧ Pruned name t (height + 1) s' := by
  have htipH : t.HangsFrom height t.tip := .of_onchain ht.tip_onchain htip.le
  rw [pruneHeight, run_read_bind]
  cases hidx : s.heightIndex[height]? with
  | none =>
    -- no block has this height
    have hfloor : ∀ ⦃y b⦄, s.getBlock y = some b → height + 1 ≤ b.height := by
      intro y b hb
      have hne : b.height ≠ height := by
        intro heq
        obtain ⟨hashes, hhashes, -⟩ := (hs.sound.heights.mem_iff height y).mpr ⟨b, hb, heq⟩
        rw [hidx] at hhashes
        cases hhashes
      have := hs.floor hb
      omega
    refine ⟨s, rfl, hs.sound, hs.drops.congr fun y => not_congr
      ⟨fun hy => hy.imp fun a hon hle => ?_, fun hy => hy.imp fun _ _ hle => by omega⟩, hfloor⟩
    obtain ⟨ab, hab⟩ := exists_header hon
    have harank : t.rank a = ab.height := rank_of_look hab
    have := hfloor ((hs.kept (.of_onchain hon hle)).1.trans hab)
    omega
  | some hashes =>
    obtain ⟨r, hr⟩ := hs.sound.heights.nonempty height hashes hidx
    obtain ⟨b, hb, hheight⟩ := (hs.sound.heights.mem_iff height r).mp ⟨hashes, hidx, hr⟩
    -- a block at the lowest height is the root, and there is one root
    have hroot : ∀ {y c}, s.getBlock y = some c → c.height = height → ∀ p, ¬ s.Link y p := by
      intro y c hc hch p hp
      obtain ⟨rfl, hmem⟩ := (link_iff_of_look hc).mp hp
      obtain ⟨d, hd⟩ := isSome_iff_exists.mp hmem
      have := hs.sound.height hc hd
      have := hs.floor hd
      omega
    have hunique : ∀ {y c}, s.getBlock y = some c → c.height = height → y = r := by
      intro y c hc hch
      exact (eq_of_anc_of_root (hroot hc hch) (hs.sound.anc_root
        (isSome_of_eq_some hb) (hroot hb hheight) (isSome_of_eq_some hc))).symm
    have hlist : hashes.toList = [r] := by
      refine perm_singleton.mp ((perm_ext_iff_of_nodup (nodup_hashes _)
        (nodup_singleton r)).mpr fun y => ?_)
      rw [TreeSet.mem_toList, mem_singleton]
      constructor
      · intro hy
        obtain ⟨c, hc, hch⟩ := (hs.sound.heights.mem_iff height y).mp ⟨hashes, hidx, hy⟩
        exact hunique hc hch
      · rintro rfl
        exact hr
    have hrank : s.rank s.tip = t.rank t.tip := by
      rw [hs.drops.tip, rank_congr (hs.kept htipH).1]
    have hne : s.tip ≠ r := by
      intro heq
      have hr' : s.rank r = height := by rw [← hheight]; exact rank_of_look hb
      rw [← heq] at hr'
      omega
    obtain ⟨s', hrun, hsound, hdrops', htip'⟩ := pruneBlock_spec hs.sound
      (isSome_of_eq_some hb) (hroot hb hheight) hne
    refine ⟨s', ?_, hsound, (hs.drops.trans hdrops').congr (hs.gone_succ_iff ht hb hheight
      fun y c hc hch => hunique hc hch), ?_⟩
    · show (Mut.gather pruneBlock hashes.toList).run s = _
      rw [hlist, Mut.gather, run_bind_of_ok hrun]
      rfl
    · intro y c hc
      obtain ⟨hc', hstays⟩ := hdrops'.getBlock_of_some hc
      have hne' : c.height ≠ height := fun heq => hstays (.inl (hunique hc' heq))
      have := hs.floor hc'
      omega

/-- What hangs from the tip and the last `depth` blocks of the chain below it is not gone. -/
def KeepsTop (t : BlockTree) (depth : ℕ) (gone : H256 → Prop) : Prop :=
  ∀ ⦃y⦄, t.HangsFrom (t.rank t.tip - depth) y → ¬ gone y

theorem KeepsTop.tip {gone : H256 → Prop} {depth : ℕ} (hk : KeepsTop t depth gone)
    (ht : t.Canonical) : ¬ gone t.tip :=
  hk (.of_onchain ht.tip_onchain (Nat.sub_le _ _))

/-- **`prune` keeps exactly what hangs from the last `depth` blocks of the chain below the tip**,
and the invariant, and it logs no error. -/
theorem prune_exact (ht : t.Sound name) (depth : ℕ) :
    ∃ t', (prune depth).run t = (.ok [], t') ∧ t'.Sound name ∧
      Drops t t' fun y => ¬ t.HangsFrom (t.rank t.tip - depth) y := by
  obtain ⟨b, hb⟩ := ht.exists_tip
  obtain ⟨e, he, rfl⟩ := exists_entry hb
  have hrank : t.rank t.tip = e.block.height := rank_of_look hb
  rw [prune, run_read_bind]
  simp only [he, expect_some, run_lift_ok_bind]
  cases hmin : t.heightIndex.keys.min? with
  | none =>
    -- the tip is listed under its height
    have hmem : t.heightIndex.contains e.block.height = true :=
      (ht.heights.contains_iff e.block.height).mpr ⟨t.tip, e.block, hb, rfl⟩
    rw [← TreeMap.contains_keys, min?_eq_none_iff.mp hmin] at hmem
    cases hmem
  | some minHeight =>
    have hfloor : ∀ ⦃y b⦄, t.getBlock y = some b → minHeight ≤ b.height := by
      intro y b hb
      have hmem : t.heightIndex.contains b.height = true :=
        (ht.heights.contains_iff b.height).mpr ⟨y, b, hb, rfl⟩
      rw [← TreeMap.contains_keys, contains_iff_mem] at hmem
      exact (min?_eq_some_iff.mp hmin).2 _ hmem
    have hstart : Pruned name t minHeight t := by
      refine ⟨ht, ⟨fun _ _ => rfl, fun _ _ => rfl, ?_, rfl, rfl, fun _ => rfl⟩, hfloor⟩
      intro y hy
      by_contra hsome
      exact hy (ht.hangsFrom hfloor (isSome_iff_ne_none.mpr hsome))
    -- the heights still to come are consecutive, up to the lowest height that stays
    let stop := minHeight + (e.block.height - depth - minHeight)
    let Left : List ℕ → BlockTree → Prop := fun rest s =>
      ∃ height, rest = List.range' height rest.length ∧ height + rest.length = stop ∧
        (rest ≠ [] → stop ≤ t.rank t.tip) ∧ Pruned name t height s
    have hloop : ∀ height rest s, Left (height :: rest) s →
        ∃ s', (pruneHeight height).run s = (.ok [], s') ∧ Left rest s' := by
      rintro height rest s ⟨k, hrange, hstop, hle, hs⟩
      rw [length_cons, range'_succ, List.cons.injEq] at hrange
      obtain ⟨rfl, hrange⟩ := hrange
      have hle' := hle (cons_ne_nil _ _)
      rw [length_cons] at hstop
      obtain ⟨s', hrun, hs'⟩ := pruneHeight_spec ht hs (by omega)
      exact ⟨s', hrun, height + 1, hrange, by omega, fun _ => hle', hs'⟩
    obtain ⟨t', hrun, height, -, hstop, -, ht'⟩ := gather_ok Left hloop
      (l := List.range' minHeight (e.block.height - depth - minHeight)) (s := t)
      ⟨minHeight, by rw [length_range'], by rw [length_range'], by
        intro hne
        have : e.block.height - depth - minHeight ≠ 0 := by
          intro hzero
          rw [hzero] at hne
          exact hne rfl
        omega, hstart⟩
    rw [length_nil] at hstop
    refine ⟨t', hrun, ht'.sound, ht'.drops.congr fun y => not_congr
      ⟨fun hy => hy.imp fun _ _ hle => by omega, fun hy => hy.imp fun a hon hle => ?_⟩⟩
    obtain ⟨ab, hab⟩ := exists_header hon
    have harank : t.rank a = ab.height := rank_of_look hab
    have := hfloor hab
    omega

/-- It keeps what hangs from the tip and the last `depth` blocks of the chain below it. -/
theorem prune_spec (ht : t.Sound name) (depth : ℕ) :
    ∃ t', (prune depth).run t = (.ok [], t') ∧ t'.Sound name ∧
      ∃ gone, Drops t t' gone ∧ KeepsTop t depth gone := by
  obtain ⟨t', hrun, hsound, hdrops⟩ := prune_exact ht depth
  exact ⟨t', hrun, hsound, _, hdrops, fun _ hy => not_not_intro hy⟩

end BlockTree

end Irys
