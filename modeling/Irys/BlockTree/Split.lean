import Irys.BlockTree.CommonAncestor
import Irys.BlockTree.Service
import Irys.BlockTree.Walks

/-!
# Where two chains part

`find_reorg_split` walks both chains back to their last common block.  In a sound tree it does not
fail, and what it returns is that block with all that either chain has above it.
-/

namespace Irys

open Forest

/-- `b` comes right above `p`. -/
structure Follows (p b : IrysBlockHeader) : Prop where
  parent : b.previousBlockHash = p.blockHash
  height : b.height = p.height + 1
  heavier : p.cumulativeDiff < b.cumulativeDiff

namespace BlockTree

variable {t : BlockTree} {n h : H256} {name : H256 → Option IrysBlockHeader}

theorem follows_of_linkedTo (ht : t.Linked) {p b : IrysBlockHeader} (hpb : t.LinkedTo p b) :
    Follows p b := by
  have hlower : t.getBlock b.previousBlockHash = some p := by
    rw [hpb.parent]
    exact hpb.lower
  exact ⟨hpb.parent, ht.height hpb.upper hlower, ht.rising hpb.upper hlower⟩

theorem Branch.follows (ht : t.Linked) {lca : IrysBlockHeader} {blocks : List IrysBlockHeader}
    (hb : Branch t lca n blocks) : (lca :: blocks).IsChain Follows :=
  hb.chain.imp fun _ _ hpb => follows_of_linkedTo ht hpb

/-- A chain has one block at each height above the block it starts at. -/
theorem Branch.length (ht : t.Linked) {lca : IrysBlockHeader} {blocks : List IrysBlockHeader}
    (hb : Branch t lca n blocks) : blocks.length + lca.height = t.rank n := by
  have hlast : ∀ {lca b : IrysBlockHeader}, (lca :: blocks).IsChain Follows →
      (lca :: blocks).getLast? = some b → b.height = blocks.length + lca.height := by
    clear hb
    induction blocks with
    | nil =>
      intro lca b _ hb
      cases hb
      exact (Nat.zero_add _).symm
    | cons c blocks ih =>
      intro lca b hchain hb
      obtain ⟨hfirst, hrest⟩ := List.isChain_cons_cons.mp hchain
      rw [ih hrest (List.getLast?_cons_cons ▸ hb), hfirst.height, List.length_cons]
      omega
  obtain ⟨b, hget⟩ : ∃ b, (lca :: blocks).getLast? = some b :=
    ⟨_, List.getLast?_eq_some_getLast (List.cons_ne_nil _ _)⟩
  rw [← hlast (hb.follows ht) hget]
  exact (rank_of_look (hb.last ▸ hget)).symm

/-- **`find_reorg_split`** finds the split of two chains of a sound tree. -/
theorem findReorgSplit_spec (ht : t.Sound name) (hn : (t.getBlock n).isSome)
    (hh : (t.getBlock h).isSome) :
    ∃ split, t.findReorgSplit n h = .ok split ∧ ExactSplit t n h split := by
  obtain ⟨a, hna, hha⟩ := ht.exists_common_anc hn hh
  obtain ⟨m, e, newPre, oldPre, hp⟩ := exists_parting ht.toLinked.height hn hh hna hha
  exact ⟨_, findReorgSplit_of_parting ht.keyed ht.toLinked.height hp,
    hp.exactSplit ht.keyed ht.toLinked.height⟩

/-- **The decision on the tip**, for a block of a sound tree: the tip stays, or it moves across
the split, or the split is below the cache window. -/
theorem tipMoveDecision_spec {ω : Type} (ht : t.Sound name) {b : IrysBlockHeader}
    (hb : t.getBlock n = some b) :
    (BlockTreeService.tipMoveDecision t n : Res (ServiceError ω) _) = .ok none ∨
      ∃ split, ExactSplit t n t.tip split ∧
        ((BlockTreeService.tipMoveDecision t n : Res (ServiceError ω) _) = .ok (some (b, split)) ∧
            b.height ≤ split.lca.height + (t.consensusConfig.blockTreeDepth - 1) ∨
          ∃ fork minKeep height depth,
            (BlockTreeService.tipMoveDecision t n : Res (ServiceError ω) _) =
              fail (.reorgDeeperThanCacheWindow fork minKeep height depth)) := by
  obtain ⟨c, hc⟩ := ht.exists_tip
  obtain ⟨split, hsplit, hs⟩ := findReorgSplit_spec ht (Option.isSome_of_eq_some hb) ht.tip_mem
  have hkey : c.blockHash = t.tip := by
    obtain ⟨e, he, rfl⟩ := exists_entry hc
    exact ht.keyed he
  rw [BlockTreeService.tipMoveDecision, hb, hc]
  dsimp only
  split_ifs
  · exact .inl rfl
  · exact .inl rfl
  · refine .inr ⟨split, hs, ?_⟩
    rw [hkey, hsplit, mapErr_ok, ok_bind, validateReorgWithinCacheWindow]
    split_ifs with hwindow
    · exact .inr ⟨_, _, _, _, rfl⟩
    · exact .inl ⟨rfl, by omega⟩

end BlockTree

end Irys
