import Irys.BlockTree.Runs
import Irys.BlockTree.Split

/-!
# The window that pruning leaves

`prune` deletes on-chain blocks height by height and takes the forks below them along.  What is
left is told by one block for each: the highest on-chain block among its ancestors.

* `HighestOnchain` — that block, and `hangsFrom_iff_highest` — the pruning bound in its terms;
* `ExactSplit.anc_lca_of_mem` — the blocks of a split hang from its last common block;
* `prune_keeps_window` — pruning is exact, and a tip move inside the cache window loses no block of
  either chain.
-/

namespace Irys

open Forest

namespace BlockTree

open BlockTreeService

variable {t t' : BlockTree} {n h y : H256} {name : H256 → Option IrysBlockHeader}

theorem Tidy.sound (ht : t.Tidy) (hcan : t.Canonical) : t.Sound t.getBlock :=
  { toTidy := ht, toCanonical := hcan,
    toNamed := ⟨fun _ _ hb => hb, fun _ _ _ hb hp => ht.toLinked.height hb hp⟩ }

/-! ### What is kept -/

/-- `a` is the highest on-chain block among `y` and its ancestors. -/
structure HighestOnchain (t : BlockTree) (y a : H256) : Prop where
  anc : t.Anc y a
  onchain : t.getStatus a = some .onchain
  highest : ∀ ⦃x⦄, t.Anc y x → t.getStatus x = some .onchain → t.rank x ≤ t.rank a

theorem exists_highestOnchain (ht : t.Linked) {a : H256} (hya : t.Anc y a)
    (hon : t.getStatus a = some .onchain) : ∃ m, HighestOnchain t y m := by
  classical
  let At : ℕ → Prop := fun k => ∃ x, t.Anc y x ∧ t.getStatus x = some .onchain ∧ t.rank x = k
  have hspec : At (Nat.findGreatest At (t.rank y)) :=
    Nat.findGreatest_spec (ht.rank_le_of_anc hya) ⟨a, hya, hon, rfl⟩
  obtain ⟨m, hym, hmon, hrank⟩ := hspec
  refine ⟨m, hym, hmon, ?_⟩
  intro x hyx hxon
  rw [hrank]
  exact Nat.le_findGreatest (ht.rank_le_of_anc hyx) ⟨x, hyx, hxon, rfl⟩

theorem hangsFrom_iff_highest (ht : t.Linked) {height : ℕ} :
    t.HangsFrom height y ↔ ∃ a, HighestOnchain t y a ∧ height ≤ t.rank a := by
  constructor
  · intro hy
    obtain ⟨a, hya, hon, hle⟩ := hy
    obtain ⟨m, hm⟩ := exists_highestOnchain ht hya hon
    exact ⟨m, hm, hle.trans (hm.highest hya hon)⟩
  · intro hy
    obtain ⟨a, ha, hle⟩ := hy
    exact ⟨a, ha.anc, ha.onchain, hle⟩

theorem HangsFrom.isSome {height : ℕ} (hy : t.HangsFrom height y) : (t.getBlock y).isSome := by
  obtain ⟨a, hya, hon, -⟩ := hy
  rcases Relation.ReflTransGen.cases_head hya with rfl | ⟨p, hlink, -⟩
  · obtain ⟨b, hb⟩ := exists_header hon
    exact Option.isSome_of_eq_some hb
  · exact hlink.isSome_left

/-- **What pruning to a depth keeps**: the blocks whose highest on-chain ancestor is in the
window, as they are; the tip and the forks of kept on-chain blocks are among them. -/
structure KeepsWindow (t : BlockTree) (depth : ℕ) (t' : BlockTree) : Prop where
  kept_iff : ∀ y, (t'.getBlock y).isSome ↔
    ∃ a, HighestOnchain t y a ∧ t.rank t.tip - depth ≤ t.rank a
  same : ∀ ⦃y⦄, (t'.getBlock y).isSome →
    t'.getBlock y = t.getBlock y ∧ t'.getStatus y = t.getStatus y
  tip : t'.tip = t.tip
  tip_kept : (t'.getBlock t.tip).isSome
  forks : ∀ ⦃a y⦄, t'.getStatus a = some .onchain → t.Anc y a → (t'.getBlock y).isSome

theorem Drops.keepsWindow (ht : t.Tidy) (hcan : t.Canonical) {depth : ℕ}
    (hd : Drops t t' fun y => ¬ t.HangsFrom (t.rank t.tip - depth) y) :
    KeepsWindow t depth t' := by
  have hkept : ∀ {y}, (t'.getBlock y).isSome ↔ t.HangsFrom (t.rank t.tip - depth) y := by
    intro y
    constructor
    · intro hsome
      obtain ⟨b, hb⟩ := Option.isSome_iff_exists.mp hsome
      exact not_not.mp (hd.getBlock_of_some hb).2
    · intro hy
      rw [hd.kept (not_not_intro hy)]
      exact hy.isSome
  refine ⟨?_, ?_, hd.tip, ?_, ?_⟩
  · intro y
    rw [hkept, hangsFrom_iff_highest ht.toLinked]
  · intro y hy
    have hhangs := not_not_intro (hkept.mp hy)
    exact ⟨hd.kept hhangs, hd.keptStatus hhangs⟩
  · exact hkept.mpr (.of_onchain hcan.tip_onchain (Nat.sub_le _ _))
  · intro a y hon hya
    exact hkept.mpr ((not_not.mp (hd.getStatus_of_some hon).2).of_anc hya)

/-! ### The two chains of a tip move -/

/-- **The blocks of a branch hang from the block it starts at.** -/
theorem Branch.anc_lca (ht : t.Linked) {lca : IrysBlockHeader} {tip : H256}
    {blocks : List IrysBlockHeader} (hlca : t.getBlock lca.blockHash = some lca)
    (hbranch : Branch t lca tip blocks) {b : IrysBlockHeader} (hb : b ∈ blocks) :
    t.Anc b.blockHash lca.blockHash := by
  obtain ⟨htb, hblock, hlt⟩ := hbranch.above b hb
  have hrank : t.rank b.blockHash = b.height := rank_of_look hblock
  have hrank' : t.rank lca.blockHash = lca.height := rank_of_look hlca
  exact anc_of_rank_le ht htb hbranch.anc (by omega)

/-- The last common block and the blocks of both chains above it are blocks of the tree, at or
below the last common block. -/
theorem ExactSplit.anc_lca_of_mem (ht : t.Linked) {split : ReorgSplit}
    (hs : ExactSplit t n h split) {b : IrysBlockHeader}
    (hb : b ∈ split.lca :: (split.oldDivergent ++ split.newDivergent)) :
    t.getBlock b.blockHash = some b ∧ t.Anc b.blockHash split.lca.blockHash := by
  rcases List.mem_cons.mp hb with rfl | hb
  · exact ⟨hs.lca_mem, .refl⟩
  rcases List.mem_append.mp hb with hold | hnew
  · exact ⟨(hs.old.above b hold).2.1, hs.old.anc_lca ht hs.lca_mem hold⟩
  · exact ⟨(hs.new.above b hnew).2.1, hs.new.anc_lca ht hs.lca_mem hnew⟩

theorem off_of_tipMoveDecision {ω : Type} (ht : t.Sound name) {newTip : IrysBlockHeader}
    {split : ReorgSplit} {s : ChainState}
    (hdec : (tipMoveDecision t n : Res (ServiceError ω) _) = .ok (some (newTip, split)))
    (hs : t.getStatus n = some s) : s ≠ .onchain := by
  intro hon
  obtain ⟨hb, -, c, hc, hheavier, -⟩ := tipMoveDecision_eq_some hdec
  exact hheavier.not_ge (ht.toLinked.diff_le_of_anc ((ht.onchain_iff hs).mp hon) hc hb)

/-- **Pruning removes exactly what is out of the window, and never what a reorg needs.**  In every
tree with the invariant, to every depth, pruning leaves a tree with the invariant that holds
exactly the blocks whose highest on-chain ancestor is within the depth.  So when a tip move is
accepted and `mark_tip` makes it, the pruning that follows keeps the last common block and every
block of both chains above it. -/
theorem prune_keeps_window (ht : t.Tidy) (hcan : t.Canonical) :
    (∀ depth, ∃ t', (prune depth).run t = (.ok [], t') ∧ t'.Tidy ∧ t'.Canonical ∧
      KeepsWindow t depth t') ∧
    (∀ (ω : Type) (n : H256) (newTip : IrysBlockHeader) (split : ReorgSplit) (t₁ : BlockTree),
      (tipMoveDecision t n : Res (ServiceError ω) _) = .ok (some (newTip, split)) →
      (markTip n).run t = (.ok true, t₁) →
      ∃ t₂, (prune (t.consensusConfig.blockTreeDepth - 1)).run t₁ = (.ok [], t₂) ∧
        ∀ b ∈ split.lca :: (split.oldDivergent ++ split.newDivergent),
          t₂.getBlock b.blockHash = some b) := by
  have hsound := ht.sound hcan
  constructor
  · intro depth
    obtain ⟨t', hrun, hsound', hdrops⟩ := prune_exact hsound depth
    exact ⟨t', hrun, hsound'.toTidy, hsound'.toCanonical, hdrops.keepsWindow ht hcan⟩
  · intro ω n newTip split t₁ hdec hmark
    obtain ⟨hb, huntied, c, hc, -, hsplit, hwindow⟩ := tipMoveDecision_eq_some hdec
    obtain ⟨s, hs⟩ := exists_status hb
    have hexact := findReorgSplit_exactSplit ht.keyed ht.toLinked.height hsplit
    -- `mark_tip` has put the new tip and its ancestors on chain
    have htip : TipAt t n t₁ := by
      rcases markTip_cases hsound hb hs (off_of_tipMoveDecision hsound hdec hs) huntied with
        ⟨t', hrun, htip⟩ | ⟨-, err, t', hfail⟩
      · rw [hmark, Prod.mk.injEq] at hrun
        rw [hrun.2]
        exact htip
      · rw [hmark] at hfail
        cases hfail
    have hr := htip.restated
    have hsound₁ := hsound.at_tip hb htip
    obtain ⟨t₂, hrun, -, hdrops⟩ :=
      prune_exact hsound₁ (t.consensusConfig.blockTreeDepth - 1)
    refine ⟨t₂, hrun, ?_⟩
    intro b hmem
    obtain ⟨hblock, hanc⟩ := hexact.anc_lca_of_mem ht.toLinked hmem
    have hkept : t₁.HangsFrom (t₁.rank t₁.tip - (t.consensusConfig.blockTreeDepth - 1))
        b.blockHash := by
      refine ⟨split.lca.blockHash, ?_, htip.on hexact.new.anc, ?_⟩
      · rw [hr.anc]
        exact hanc
      · have hrank : t.rank n = newTip.height := rank_of_look hb
        have hlca : t.rank split.lca.blockHash = split.lca.height :=
          rank_of_look hexact.lca_mem
        rw [htip.tip, hr.rank, hrank, hlca]
        exact hwindow
    rw [hdrops.kept (not_not_intro hkept), hr.getBlock]
    exact hblock

/-- The tree of the sample with the tip at block 2 and block 3 beside it. -/
def besideTip : BlockTree :=
  (run sampleOutside sampleStart [.prevalidated (sampleBlock 2 1 1 2), .valid 2,
    .prevalidated (sampleBlock 3 1 1 10)]).cache

theorem besideTip_sound : besideTip.Sound sampleName :=
  run_sound (start_sound (by decide +kernel) (by decide +kernel)) (by decide +kernel)

theorem prune_keeps_window_besideTip :
    ∃ t₂, (prune 1).run ((markTip 3).run besideTip).2 = (.ok [], t₂) ∧
      ∀ b ∈ [sampleBlock 1 0 0 1, sampleBlock 2 1 1 2, sampleBlock 3 1 1 10],
        t₂.getBlock b.blockHash = some b :=
  (prune_keeps_window besideTip_sound.toTidy besideTip_sound.toCanonical).2 Unit 3
    (sampleBlock 3 1 1 10) ⟨sampleBlock 1 0 0 1, [sampleBlock 2 1 1 2], [sampleBlock 3 1 1 10]⟩ _
    (by decide +kernel)
    (Prod.ext (by decide +kernel : ((markTip 3).run besideTip).1 = .ok true) rfl)

end BlockTree

end Irys
