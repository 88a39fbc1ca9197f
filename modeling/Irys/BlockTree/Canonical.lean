import Irys.BlockTree.Shape

/-!
# The canonical chain in the tree

The blocks on chain are the tip and its ancestors; every other block hangs from one of them.
-/

namespace Irys

open Option Forest

namespace BlockTree

open Std

variable {t t' : BlockTree} {h x : H256} {b : IrysBlockHeader} {e : TreeBlockMetadata}
  {name : H256 → Option IrysBlockHeader}

/-- The height of a block of the tree; 0 off the tree. -/
abbrev rank (t : BlockTree) : H256 → ℕ := Forest.rank t.getBlock IrysBlockHeader.height

theorem rank_congr (hh : t'.getBlock h = t.getBlock h) : t'.rank h = t.rank h := by
  rw [rank, rank, Forest.rank, Forest.rank, hh]

theorem rank_entry (h : H256) : Forest.rank (fun k : H256 => t.blocks[k]?)
    (fun e : TreeBlockMetadata => e.block.height) h = t.rank h := by
  rw [rank, Forest.rank, Forest.rank, getBlock, Option.map_map]
  rfl

theorem Linked.rank_le_of_anc (ht : t.Linked) {a : H256} (ha : t.Anc h a) : t.rank a ≤ t.rank h :=
  Forest.rank_le_of_anc ht.height ha

theorem Linked.rank_of_link (ht : t.Linked) {p : H256} (hp : t.Link h p) :
    t.rank h = t.rank p + 1 :=
  hp.rank_eq ht.height

theorem anc_of_rank_le {a b : H256} (ht : t.Linked) (ha : t.Anc h a) (hb : t.Anc h b)
    (hle : t.rank b ≤ t.rank a) : t.Anc a b :=
  Forest.anc_of_rank_le ht.height ha hb hle

theorem anc_iff_eq_or_child {a : H256} : t.Anc h a ↔ h = a ∨ ∃ c, t.Link c a ∧ t.Anc h c :=
  Forest.anc_iff_eq_or_child

/-- **The canonical chain.**  A block that has passed validation has a parent that has, as long
as the parent is in the tree. -/
structure Canonical (t : BlockTree) : Prop where
  tip_mem : (t.getBlock t.tip).isSome
  onchain_iff : ∀ ⦃h s⦄, t.getStatus h = some s → (s = .onchain ↔ t.Anc t.tip h)
  anchored : ∀ ⦃h⦄, (t.getBlock h).isSome → ∃ a, t.Anc h a ∧ t.Anc t.tip a
  ready : ∀ ⦃h b s p⦄, t.getBlock h = some b → t.getStatus h = some s → s.isParentReady →
    t.getStatus b.previousBlockHash = some p → p.isParentReady

/-- The blocks of the tree are the ones their hashes name, and a block that a hash names as a
parent is one lower. -/
structure Named (name : H256 → Option IrysBlockHeader) (t : BlockTree) : Prop where
  named : ∀ ⦃h b⦄, t.getBlock h = some b → name h = some b
  below : ∀ ⦃h b p⦄, t.getBlock h = some b → name b.previousBlockHash = some p →
    b.height = p.height + 1

/-- **The invariant of the tree.** -/
structure Sound (name : H256 → Option IrysBlockHeader) (t : BlockTree) : Prop
    extends Tidy t, Canonical t, Named name t

theorem Restated.named (hr : Restated t t') (ht : t.Named name) : t'.Named name where
  named := by
    rw [hr.getBlock]
    exact ht.named
  below := by
    rw [hr.getBlock]
    exact ht.below

theorem Drops.named {gone : H256 → Prop} (hd : Drops t t' gone) (ht : t.Named name) :
    t'.Named name where
  named _ _ hb := ht.named (hd.getBlock_of_some hb).1
  below _ _ _ hb hp := ht.below (hd.getBlock_of_some hb).1 hp

theorem Tidy.restated (ht : t.Tidy) (hr : Restated t t') (hcached : t'.Cached) : t'.Tidy where
  toIndexed := hr.indexed ht.toIndexed
  toHeaviest := hr.heaviest ht.toHeaviest
  toLinked := hr.linked ht.toLinked
  cached := hcached

namespace Canonical

section

variable (ht : t.Canonical)
include ht

theorem exists_tip : ∃ c, t.getBlock t.tip = some c := isSome_iff_exists.mp ht.tip_mem

theorem tip_onchain : t.getStatus t.tip = some .onchain := by
  obtain ⟨s, hs⟩ := exists_status_of_isSome ht.tip_mem
  rw [hs, (ht.onchain_iff hs).mpr .refl]

theorem ready_of_anc {a : H256} {s s' : ChainState} (hanc : t.Anc h a)
    (hs : t.getStatus h = some s) (hready : s.isParentReady) (hs' : t.getStatus a = some s') :
    s'.isParentReady := by
  induction hanc generalizing s' with
  | refl =>
    cases hs.symm.trans hs'
    exact hready
  | tail _ hlink ih =>
    obtain ⟨c, hc, rfl, -⟩ := hlink
    obtain ⟨sc, hsc⟩ := exists_status hc
    exact ht.ready hc hsc (ih hsc) hs'

theorem exists_link {s : ChainState} (hs : t.getStatus h = some s)
    (hoff : s ≠ .onchain) : ∃ p, t.Link h p := by
  obtain ⟨b, hb⟩ := exists_header hs
  obtain ⟨a, hha, hta⟩ := ht.anchored (isSome_of_eq_some hb)
  rcases Relation.ReflTransGen.cases_head hha with rfl | ⟨p, hp, -⟩
  · exact absurd ((ht.onchain_iff hs).mpr hta) hoff
  · exact ⟨p, hp⟩

theorem off_of_anc {a : H256} {s s' : ChainState} (hanc : t.Anc h a)
    (hs : t.getStatus h = some s) (hs' : t.getStatus a = some s') (hoff : s' ≠ .onchain) :
    s ≠ .onchain := by
  intro hon
  exact hoff ((ht.onchain_iff hs').mpr (((ht.onchain_iff hs).mp hon).trans hanc))

/-- **Two blocks have a common ancestor**: both hang from the chain. -/
theorem exists_common_anc {n : H256} (hn : (t.getBlock n).isSome) (hh : (t.getBlock h).isSome) :
    ∃ a, t.Anc n a ∧ t.Anc h a := by
  obtain ⟨a, hna, hta⟩ := ht.anchored hn
  obtain ⟨b, hhb, htb⟩ := ht.anchored hh
  rcases anc_total hta htb with hab | hba
  · exact ⟨b, hna.trans hab, hhb⟩
  · exact ⟨a, hna, hhb.trans hba⟩

/-- **The tree has one root**: a block without its parent in the tree is an ancestor of every
block. -/
theorem anc_root {r : H256} (hr : (t.getBlock r).isSome)
    (hroot : ∀ p, ¬ t.Link r p) (hh : (t.getBlock h).isSome) : t.Anc h r := by
  obtain ⟨a, hra, hha⟩ := ht.exists_common_anc hr hh
  rwa [eq_of_anc_of_root hroot hra] at hha

end

end Canonical

namespace Sound

theorem not_parent_of_fresh (ht : t.Sound name) {p : IrysBlockHeader}
    (hfresh : t.getBlock b.blockHash = none) (hname : name b.blockHash = some b)
    (hp : t.getBlock b.previousBlockHash = some p) (hheight : b.height = p.height + 1)
    {c : H256} {d : IrysBlockHeader} (hd : t.getBlock c = some d) :
    d.previousBlockHash ≠ b.blockHash := by
  intro heq
  -- such a block would be the root, one above the new block and at most as high as its parent
  have hroot : ∀ q, ¬ t.Link c q := by
    rintro q hq
    obtain ⟨rfl, hmem⟩ := (link_iff_of_look hd).mp hq
    rw [heq, hfresh] at hmem
    cases hmem
  have hanc := ht.anc_root (isSome_of_eq_some hd) hroot (isSome_of_eq_some hp)
  have hle := Forest.rank_le_of_anc ht.height hanc
  rw [rank_of_look hd, rank_of_look hp] at hle
  have := ht.below hd (heq ▸ hname)
  omega

/-- **A new block off the chain**, with its parent in the tree. -/
theorem place (ht : t.Sound name) {s : ChainState} {prevEntry : TreeBlockMetadata}
    (hprev : t.blocks[b.previousBlockHash]? = some prevEntry)
    (hfresh : t.blocks[b.blockHash]? = none) (hname : name b.blockHash = some b)
    (hheight : b.height = prevEntry.block.height + 1)
    (hdiff : prevEntry.block.cumulativeDiff < b.cumulativeDiff) (hoff : s ≠ .onchain)
    (hready : s.isParentReady → prevEntry.chainState.isParentReady) :
    (t.place b.blockHash b s prevEntry).updateLongestChainCache.Sound name := by
  have hnone : t.getBlock b.blockHash = none := getBlock_eq_none_iff.mpr hfresh
  have hp := getBlock_of_entry hprev
  have hleaf : ∀ ⦃c d⦄, t.getBlock c = some d → d.previousBlockHash ≠ b.blockHash :=
    fun c d hd => ht.not_parent_of_fresh hnone hname hp hheight hd
  have hne := prev_ne_hash hprev hfresh
  set t₁ := t.place b.blockHash b s prevEntry with ht₁
  have hblock : ∀ y, t₁.getBlock y = if b.blockHash = y then some b else t.getBlock y :=
    fun y => getBlock_place hprev hfresh
  have hstatus : ∀ y, t₁.getStatus y = if b.blockHash = y then some s else t.getStatus y :=
    fun y => getStatus_place hprev hfresh
  have hparent : t₁.getBlock b.previousBlockHash = some prevEntry.block := by
    rw [hblock, if_neg (Ne.symm hne), hp]
  -- links among the old blocks are the old ones, and lead to old blocks
  have hanc : ∀ {y a}, y ≠ b.blockHash → (t₁.Anc y a ↔ t.Anc y a) := by
    intro y a hy
    symm
    apply anc_restrict_iff (fun y => y ≠ b.blockHash) _ _ hy
    · rintro c p hl hc -
      obtain ⟨d, hd, rfl, -⟩ := hl
      rw [hblock, if_neg (Ne.symm hc)] at hd
      exact hleaf hd
    · intro y hy
      rw [hblock, if_neg (Ne.symm hy)]
    · intro y hy
      rw [not_not.mp hy, hnone]
  have hlink : t₁.Link b.blockHash b.previousBlockHash :=
    ⟨b, by rw [hblock, if_pos rfl], rfl, isSome_of_eq_some hparent⟩
  have htip : t.tip ≠ b.blockHash := by
    intro heq
    have := ht.tip_mem
    rw [heq, hnone] at this
    cases this
  -- a block with its parent is the new one, or both are old
  have hpair : ∀ {c v w}, t₁.getBlock c = some v → t₁.getBlock v.previousBlockHash = some w →
      v = b ∧ w = prevEntry.block ∨
        t.getBlock c = some v ∧ t.getBlock v.previousBlockHash = some w := by
    intro c v w hv hw
    rw [hblock] at hv
    split_ifs at hv with hc
    · cases hv
      exact .inl ⟨rfl, (Option.some.inj (hparent.symm.trans hw)).symm⟩
    · rw [hblock, if_neg (Ne.symm (hleaf hv))] at hw
      exact .inr ⟨hv, hw⟩
  have hlinked : t₁.Linked := by
    constructor
    · intro c v w hv hw
      obtain ⟨rfl, rfl⟩ | ⟨hv, hw⟩ := hpair hv hw
      · exact hheight
      · exact ht.height hv hw
    · intro c v w hv hw
      obtain ⟨rfl, rfl⟩ | ⟨hv, hw⟩ := hpair hv hw
      · exact hdiff
      · exact ht.rising hv hw
  have htidy : t₁.updateLongestChainCache.Tidy :=
    { toIndexed := (restated_update t₁).indexed (ht.toIndexed.place hprev hfresh hleaf)
      toHeaviest := (restated_update t₁).heaviest (ht.toHeaviest.place hprev hfresh)
      toLinked := (restated_update t₁).linked hlinked
      cached := rfl }
  refine { toTidy := htidy, toCanonical := ?_, toNamed := ?_ }
  · constructor
    · show (t₁.getBlock t.tip).isSome
      rw [hblock, if_neg (Ne.symm htip)]
      exact ht.tip_mem
    · intro y s' hs'
      show s' = .onchain ↔ t₁.Anc t.tip y
      rw [hanc htip]
      rw [getStatus_update, hstatus] at hs'
      split_ifs at hs' with hy
      · -- the new block is no ancestor of the tip
        cases hs'
        rw [← hy]
        refine iff_of_false hoff ?_
        intro htb
        have := isSome_of_anc htb ht.tip_mem
        rw [hnone] at this
        cases this
      · exact ht.onchain_iff hs'
    · intro y hy
      show ∃ a, t₁.Anc y a ∧ t₁.Anc t.tip a
      rw [getBlock_update, hblock] at hy
      by_cases hyb : y = b.blockHash
      · obtain ⟨a, hpa, hta⟩ := ht.anchored (isSome_of_eq_some hp)
        refine ⟨a, ?_, (hanc htip).mpr hta⟩
        rw [hyb]
        exact ((hanc hne).mpr hpa).head hlink
      · rw [if_neg (Ne.symm hyb)] at hy
        obtain ⟨a, hya, hta⟩ := ht.anchored hy
        exact ⟨a, (hanc hyb).mpr hya, (hanc htip).mpr hta⟩
    · intro y d s' p hd hs' hready' hps
      rw [getBlock_update, hblock] at hd
      rw [getStatus_update, hstatus] at hs' hps
      split_ifs at hd hs' with hy
      · cases hd
        cases hs'
        rw [if_neg (Ne.symm hne), getStatus_of_entry hprev] at hps
        cases hps
        exact hready hready'
      · rw [if_neg (Ne.symm (hleaf hd))] at hps
        exact ht.ready hd hs' hready' hps
  · constructor
    · intro y d hd
      rw [getBlock_update, hblock] at hd
      split_ifs at hd with hy
      · rw [← hy, hname, hd]
      · exact ht.named hd
    · intro y d p hd hpn
      rw [getBlock_update, hblock] at hd
      split_ifs at hd with hy
      · cases hd
        cases (ht.named hp).symm.trans hpn
        exact hheight
      · exact ht.below hd hpn

theorem same (ht : t.Sound name) (hr : Restated t t') (hstatus : t'.getStatus = t.getStatus)
    (htip : t'.tip = t.tip) (hcached : t'.Cached) : t'.Sound name := by
  have hanc : t'.Anc = t.Anc := by
    unfold Anc
    rw [hr.getBlock]
  refine { toTidy := ht.toTidy.restated hr hcached, toCanonical := ?_
           toNamed := hr.named ht.toNamed }
  constructor
  · rw [htip, hr.getBlock]
    exact ht.tip_mem
  · rw [hstatus, htip, hanc]
    exact ht.onchain_iff
  · rw [hr.getBlock, htip, hanc]
    exact ht.anchored
  · rw [hr.getBlock, hstatus]
    exact ht.ready

/-- **A new state for a block off the chain.**  Validation is never taken back, and is granted
only where the parent has it. -/
theorem setChainState (ht : t.Sound name) {s s' : ChainState} (hs : t.getStatus h = some s)
    (hoff : s ≠ .onchain) (hoff' : s' ≠ .onchain)
    (hkeep : s.isParentReady → s'.isParentReady)
    (hgrant : s'.isParentReady → ∀ ⦃b p⦄, t.getBlock h = some b →
      t.getStatus b.previousBlockHash = some p → p.isParentReady) :
    (t.setChainState h s').updateLongestChainCache.Sound name := by
  have hr : Restated t (t.setChainState h s').updateLongestChainCache :=
    (restated_setChainState s').trans (restated_update _)
  have hblock : (t.setChainState h s').updateLongestChainCache.getBlock = t.getBlock := hr.getBlock
  have hstate : ∀ {y p}, (t.setChainState h s').updateLongestChainCache.getStatus y = some p →
      y = h ∧ p = s' ∨ t.getStatus y = some p := by
    intro y p hp
    rw [getStatus_update, getStatus_setChainState] at hp
    split_ifs at hp with hy
    · subst hy
      rw [hs] at hp
      cases hp
      exact .inl ⟨rfl, rfl⟩
    · exact .inr hp
  refine { toTidy := ht.toTidy.restated hr rfl, toCanonical := ?_, toNamed := hr.named ht.toNamed }
  constructor
  · rw [hblock]
    exact ht.tip_mem
  · intro y p hp
    show p = .onchain ↔ Forest.Anc _ _ t.tip y
    rw [hblock]
    obtain ⟨rfl, rfl⟩ | hp := hstate hp
    · exact iff_of_false hoff' (fun hta => hoff ((ht.onchain_iff hs).mpr hta))
    · exact ht.onchain_iff hp
  · intro y hy
    rw [hblock] at hy
    show ∃ a, Forest.Anc _ _ y a ∧ Forest.Anc _ _ t.tip a
    rw [hblock]
    exact ht.anchored hy
  · intro y d p q hd hp hpready hq
    rw [hblock] at hd
    have hparent : ∀ {q₀}, t.getStatus d.previousBlockHash = some q₀ → q₀.isParentReady := by
      intro q₀ hq₀
      obtain ⟨rfl, rfl⟩ | hp := hstate hp
      · exact hgrant hpready hd hq₀
      · exact ht.ready hd hp hpready hq₀
    obtain ⟨hy, rfl⟩ | hq := hstate hq
    · exact hkeep (hparent (hy ▸ hs))
    · exact hparent hq

end Sound

end BlockTree

end Irys
