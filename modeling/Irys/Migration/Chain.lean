import Irys.BlockTree.Handlers
import Irys.BlockTree.Split
import Irys.Migration.Service

/-!
# The canonical chain, from genesis to the tip

The tree holds the upper part of the canonical chain and the index its lower part.  Here the whole
chain is a list of headers, and both are read as views of it.
-/

namespace Irys

open List

open BlockTree

variable {name : H256 → Option IrysBlockHeader} {emission : ℕ → Res MigrationError ℕ}
  {genesis b c p : IrysBlockHeader} {chain : List IrysBlockHeader} {i j top : ℕ}
  {t t' : BlockTree}

/-! ### Chains of headers -/

section

variable (name) (emission)

/-- What is known of a block on the chain: its hash names it, and there is a reward for it. -/
structure Known (b : IrysBlockHeader) : Prop where
  named : name b.blockHash = some b
  rewarded : ∃ amount, emission b.height = .ok amount

/-- **A chain of blocks from genesis.** -/
structure GenesisChain (genesis : IrysBlockHeader) (chain : List IrysBlockHeader) : Prop where
  zero : genesis.height = 0
  first : chain.head? = some genesis
  follows : chain.IsChain Follows
  known : ∀ b ∈ chain, Known name emission b

end

namespace GenesisChain

section

variable (hc : GenesisChain name emission genesis chain)
include hc

theorem step (hp : chain[i]? = some p) (hb : chain[i + 1]? = some b) : Follows p b := by
  obtain ⟨hi, rfl⟩ := List.getElem?_eq_some_iff.mp hp
  obtain ⟨hi', rfl⟩ := List.getElem?_eq_some_iff.mp hb
  exact isChain_iff_getElem.mp hc.follows i hi'

theorem height (hb : chain[i]? = some b) : b.height = i := by
  induction i generalizing b with
  | zero =>
    rw [← head?_eq_getElem?, hc.first] at hb
    cases hb
    exact hc.zero
  | succ i ih =>
    obtain ⟨p, hp⟩ := exists_before hb
    rw [(hc.step hp hb).height, ih hp]

theorem mem_iff : b ∈ chain ↔ chain[b.height]? = some b := by
  constructor
  · intro hb
    obtain ⟨i, hi⟩ := mem_iff_getElem?.mp hb
    rw [hc.height hi]
    exact hi
  · exact mem_of_getElem?

theorem height_lt (hb : b ∈ chain) : b.height < chain.length :=
  lt_length_of_some (hc.mem_iff.mp hb)

theorem diff_lt (hp : chain[i]? = some p) (hb : chain[j]? = some b) (hlt : i < j) :
    p.cumulativeDiff < b.cumulativeDiff := by
  have hrises : (chain.map (·.cumulativeDiff)).IsChain (· < ·) :=
    isChain_map _ |>.mpr (hc.follows.imp fun _ _ h => h.heavier)
  obtain ⟨hi, rfl⟩ := List.getElem?_eq_some_iff.mp hp
  obtain ⟨hj, rfl⟩ := List.getElem?_eq_some_iff.mp hb
  exact pairwise_iff_getElem.mp (pairwise_map.mp hrises.pairwise) i j hi hj hlt

theorem eq_of_height (hb : b ∈ chain) (hc' : c ∈ chain) (heq : b.height = c.height) : b = c := by
  rw [hc.mem_iff] at hb hc'
  exact Option.some.inj (hb.symm.trans (heq ▸ hc'))

theorem eq_of_hash (hb : b ∈ chain) (hname : name c.blockHash = some c)
    (heq : c.blockHash = b.blockHash) : c = b := by
  exact Option.some.inj (hname.symm.trans (heq ▸ (hc.known b hb).named))

theorem length_pos : 0 < chain.length := by
  rw [length_pos_iff]
  rintro rfl
  cases hc.first

theorem take (k : ℕ) :
    GenesisChain name emission genesis (chain.take (k + 1)) where
  zero := hc.zero
  first := by
    rw [head?_take]
    exact hc.first
  follows := hc.follows.take _
  known b hb := hc.known b (mem_of_mem_take hb)

theorem append (hp : chain.getLast? = some p) {rest : List IrysBlockHeader}
    (hrest : (p :: rest).IsChain Follows) (hknown : ∀ b ∈ rest, Known name emission b) :
    GenesisChain name emission genesis (chain ++ rest) where
  zero := hc.zero
  first := by
    rw [head?_append, hc.first]
    rfl
  follows := by
    rw [isChain_append]
    refine ⟨hc.follows, hrest.of_cons, ?_⟩
    intro x hx y hy
    rw [hp, Option.mem_some_iff] at hx
    rw [← hx]
    exact hrest.rel_head? hy
  known b hb := (mem_append.mp hb).elim (hc.known b) (hknown b)

theorem mem_take {k : ℕ} : b ∈ chain.take (k + 1) ↔ b ∈ chain ∧ b.height ≤ k := by
  constructor
  · intro hb
    refine ⟨mem_of_mem_take hb, ?_⟩
    have := (hc.take k).height_lt hb
    rw [length_take] at this
    omega
  · rintro ⟨hb, hle⟩
    rw [(hc.take k).mem_iff, getElem?_take, if_pos (by omega)]
    exact hc.mem_iff.mp hb

theorem mem_drop {k : ℕ} : b ∈ chain.drop k ↔ b ∈ chain ∧ k ≤ b.height := by
  constructor
  · intro hb
    obtain ⟨i, hi⟩ := mem_iff_getElem?.mp hb
    rw [getElem?_drop] at hi
    rw [hc.height hi]
    exact ⟨mem_of_mem_drop hb, Nat.le_add_right ..⟩
  · rintro ⟨hb, hle⟩
    apply mem_of_getElem? (i := b.height - k)
    rw [getElem?_drop, Nat.add_sub_cancel' hle]
    exact hc.mem_iff.mp hb

theorem getLast?_take (hb : b ∈ chain) : (chain.take (b.height + 1)).getLast? = some b := by
  have hlt := hc.height_lt hb
  rw [getLast?_eq_getElem?, length_take, getElem?_take, if_pos (by omega)]
  rw [show min (b.height + 1) chain.length - 1 = b.height by omega]
  exact hc.mem_iff.mp hb

end

end GenesisChain

/-! ### The tree's view -/

/-- **The tree carries the chain** above `top`.  The tip is the last block; the on-chain blocks of
the tree are blocks of the chain, among them all those above `top`. -/
structure Carries (t : BlockTree) (chain : List IrysBlockHeader) (top : ℕ) : Prop where
  last : chain.getLast? = t.getBlock t.tip
  onchain : ∀ ⦃y b⦄, t.getStatus y = some .onchain → t.getBlock y = some b → b ∈ chain
  held : ∀ b ∈ chain, top < b.height →
    t.getBlock b.blockHash = some b ∧ t.getStatus b.blockHash = some .onchain

namespace Carries

theorem mono (hcar : Carries t chain i) (hle : i ≤ j) : Carries t chain j :=
  ⟨hcar.last, hcar.onchain, fun b hb hlt => hcar.held b hb (by omega)⟩

section

variable (hcar : Carries t chain top)
include hcar

theorem rank_tip (hc : GenesisChain name emission genesis chain) :
    t.rank t.tip + 1 = chain.length := by
  have hpos := hc.length_pos
  obtain ⟨b, hb⟩ := exists_at (show chain.length - 1 < chain.length by omega)
  have hlast := hcar.last
  rw [getLast?_eq_getElem?, hb] at hlast
  rw [rank, Forest.rank_of_look hlast.symm, hc.height hb]
  omega

theorem tip_mem (ht : t.Sound name) : ∃ b, t.getBlock t.tip = some b ∧ b ∈ chain := by
  obtain ⟨b, hb⟩ := ht.exists_tip
  exact ⟨b, hb, hcar.onchain ht.tip_onchain hb⟩

/-- **The chain cache is the upper end of the chain**, and reaches down to the migrated blocks
unless the depth bound cuts it. -/
theorem cache (ht : t.Sound name) (hc : GenesisChain name emission genesis chain) :
    ∃ low, low < chain.length ∧ t.longestChainCache.1 = chain.drop low ∧
      (low ≤ top + 1 ∨ low + t.consensusConfig.blockTreeDepth + 1 = chain.length) ∧
      ∀ b ∈ chain, low ≤ b.height → t.getBlock b.blockHash = some b := by
  obtain ⟨walk, hwalk⟩ : ∃ walk, walk = t.lineage t.tip := ⟨_, rfl⟩
  have hlineage := hwalk ▸ lineage_spec ht.toLinked t.tip
  obtain ⟨b, hb, hbmem⟩ := hcar.tip_mem ht
  obtain ⟨e, he, rfl⟩ := exists_entry hb
  have hhead := hwalk.trans (lineage_of_some ht.toLinked he)
  -- both are walks along parent hashes from the tip
  have hlen : walk.length ≤ chain.length := by
    have := hlineage.length_le_rank ht.toLinked.entry_height
    rw [rank_entry, hcar.rank_tip hc] at this
    exact this
  have hprefix : walk.map (·.2.block) <+: chain.reverse := by
    apply Forest.isPrefix_of_isChain
      (R := fun x y => x.previousBlockHash = y.blockHash ∧ name y.blockHash = some y)
    · rintro x y z ⟨hy, hyname⟩ ⟨hz, hzname⟩
      rw [← hy, hz, hzname] at hyname
      exact (Option.some.inj hyname).symm
    · rw [isChain_map]
      refine hlineage.isChain.imp ?_
      rintro ⟨x, ex⟩ ⟨y, ey⟩ ⟨hprev, -, hy⟩
      have hkey : ey.block.blockHash = y := ht.keyed hy
      rw [hkey]
      exact ⟨hprev, ht.named (getBlock_of_entry hy)⟩
    · rw [isChain_reverse, isChain_iff_getElem]
      intro i hi
      have hstep := isChain_iff_getElem.mp hc.follows i hi
      exact ⟨hstep.parent, (hc.known _ (getElem_mem _)).named⟩
    · rw [head?_reverse, hcar.last, hb, hhead]
      rfl
    · rw [length_map, length_reverse]
      exact hlen
  have hpos : 0 < walk.length := by
    rw [hhead]
    exact Nat.succ_pos _
  have htake : walk.map (·.2.block) = (chain.reverse).take walk.length := by
    have := prefix_iff_eq_take.mp hprefix
    rwa [length_map] at this
  refine ⟨chain.length - min (t.consensusConfig.blockTreeDepth + 1) walk.length, by omega,
    ?_, ?_, ?_⟩
  · rw [ht.longestChainCache, ← hwalk, htake, take_take, take_reverse, reverse_reverse]
  · by_cases hcut : t.consensusConfig.blockTreeDepth + 1 ≤ walk.length
    · right
      omega
    · left
      -- the walk passes the lowest block above the migrated ones
      by_cases hnone : chain.length ≤ top + 1
      · omega
      obtain ⟨d, hd⟩ := exists_at (show top + 1 < chain.length by omega)
      have hdheight := hc.height hd
      obtain ⟨hdblock, hdon⟩ := hcar.held d (mem_of_getElem? hd) (by omega)
      have hanc := (ht.onchain_iff hdon).mp rfl
      have hmem : (t.blocks[t.tip]?).isSome := by
        rw [he]
        rfl
      have hlt := hlineage.rank_lt ht.toLinked.entry_height hmem (anc_entry (t := t) ▸ hanc)
      have hdrank : t.rank d.blockHash = d.height := Forest.rank_of_look hdblock
      rw [rank_entry, rank_entry] at hlt
      have := hcar.rank_tip hc
      omega
  · intro d hd hlow
    -- the block is on the walk
    have hdlt := hc.height_lt hd
    have hdmem : d ∈ walk.map (·.2.block) := by
      rw [htake, take_reverse, mem_reverse]
      exact hc.mem_drop.mpr ⟨hd, by omega⟩
    obtain ⟨⟨y, ey⟩, hy, rfl⟩ := List.mem_map.mp hdmem
    obtain ⟨-, hey⟩ := (mem_lineage ht.toLinked).mp (hwalk ▸ hy)
    rw [ht.keyed hey]
    exact getBlock_of_entry hey

/-- **Before a move**: the chain is the same. -/
theorem prepared (ht : t.Sound name) {event : Event}
    (hp : BlockTreeService.Prepared name t event t') : Carries t' chain top := by
  refine ⟨?_, ?_, ?_⟩
  · rw [hp.tip, hp.tipBlock ht]
    exact hcar.last
  · intro y b hy hb
    have hold := hp.onchain_iff.mp hy
    rw [hp.onchainBlock hold] at hb
    exact hcar.onchain hold hb
  · intro b hb hlt
    obtain ⟨hblock, hon⟩ := hcar.held b hb hlt
    exact ⟨by rw [hp.onchainBlock hon, hblock], hp.onchain_iff.mpr hon⟩

/-- **Pruning**: what stays is still the upper end of the chain. -/
theorem drops (hc : GenesisChain name emission genesis chain) (ht : t.Sound name)
    {gone : H256 → Prop} {depth : ℕ} (hd : Drops t t' gone) (hk : KeepsTop t depth gone)
    (hreach : chain.length ≤ top + depth + 2) : Carries t' chain top := by
  have htip : ¬ gone t.tip := hk.tip ht.toCanonical
  refine ⟨?_, ?_, ?_⟩
  · rw [hd.tip, hd.kept htip]
    exact hcar.last
  · intro y b hy hb
    exact hcar.onchain (hd.getStatus_of_some hy).1 (hd.getBlock_of_some hb).1
  · intro b hb hlt
    obtain ⟨hblock, hon⟩ := hcar.held b hb hlt
    have hrank := hcar.rank_tip hc
    have hbrank : t.rank b.blockHash = b.height := Forest.rank_of_look hblock
    have hkept : ¬ gone b.blockHash := hk (.of_onchain hon (by omega))
    exact ⟨by rw [hd.kept hkept, hblock], by rw [hd.keptStatus hkept, hon]⟩

end

end Carries

/-! ### Moving the tip -/

section Fork

variable {n : H256} {split : ReorgSplit}

/-- The chain after the tip has moved across a split. -/
def forked (chain : List IrysBlockHeader) (split : ReorgSplit) : List IrysBlockHeader :=
  chain.take (split.lca.height + 1) ++ split.newDivergent

theorem Carries.lca_mem (hcar : Carries t chain top) (ht : t.Sound name)
    (hs : ExactSplit t n t.tip split) :
    split.lca ∈ chain ∧ t.getStatus split.lca.blockHash = some .onchain := by
  obtain ⟨st, hst⟩ := exists_status hs.lca_mem
  have hon : st = .onchain := (ht.onchain_iff hst).mpr hs.old.anc
  rw [hon] at hst
  exact ⟨hcar.onchain hst hs.lca_mem, hst⟩

section

variable (hc : GenesisChain name emission genesis chain)
include hc

theorem GenesisChain.forked (hcar : Carries t chain top) (ht : t.Sound name)
    (hs : ExactSplit t n t.tip split)
    (hknown : ∀ ⦃y b⦄, t.getBlock y = some b → Known name emission b) :
    GenesisChain name emission genesis (forked chain split) := by
  have hlca := (hcar.lca_mem ht hs).1
  apply (hc.take _).append (hc.getLast?_take hlca) (hs.new.follows ht.toLinked)
  intro b hb
  exact hknown (hs.new.above b hb).2.1

theorem mem_forked :
    b ∈ forked chain split ↔ (b ∈ chain ∧ b.height ≤ split.lca.height) ∨
      b ∈ split.newDivergent := by
  rw [forked, mem_append, hc.mem_take]

theorem take_forked (hlca : split.lca ∈ chain) (hle : i ≤ split.lca.height) :
    (forked chain split).take (i + 1) = chain.take (i + 1) := by
  have hlt := hc.height_lt hlca
  rw [forked, take_append_of_le_length, take_take, Nat.min_eq_left (by omega)]
  rw [length_take]
  omega

theorem getLast?_forked (hlca : split.lca ∈ chain) :
    (forked chain split).getLast? = (split.lca :: split.newDivergent).getLast? := by
  rw [forked, getLast?_append, hc.getLast?_take hlca, getLast?_cons]
  cases split.newDivergent.getLast? <;> rfl

end

/-- **The tip has moved**: the tree carries the new chain above the last block that is both
migrated and common. -/
theorem Carries.tipAt (hcar : Carries t chain top) (hc : GenesisChain name emission genesis chain)
    (ht : t.Sound name) (hs : ExactSplit t n t.tip split) (htip : TipAt t n t')
    (hknown : ∀ ⦃y b⦄, t.getBlock y = some b → Known name emission b) :
    Carries t' (forked chain split) (min top split.lca.height) := by
  obtain ⟨hlca, hlcaOn⟩ := hcar.lca_mem ht hs
  have hlcaRank : t.rank split.lca.blockHash = split.lca.height := Forest.rank_of_look hs.lca_mem
  have hfork := hc.forked hcar ht hs hknown
  have hblock : t'.getBlock = t.getBlock := htip.restated.getBlock
  refine ⟨?_, ?_, ?_⟩
  · rw [getLast?_forked hc hlca, hs.new.last, htip.tip, hblock]
  · intro y b hy hb
    rw [hblock] at hb
    have hrank : t.rank y = b.height := Forest.rank_of_look hb
    have hanc := htip.anc_of_onchain hy
    rw [mem_forked hc]
    by_cases hle : b.height ≤ split.lca.height
    · -- below the common block the chains agree
      have hbelow := anc_of_rank_le ht.toLinked hs.new.anc hanc (by omega)
      obtain ⟨st, hst⟩ := exists_status hb
      have hon : st = .onchain := (ht.onchain_iff hst).mpr (hs.old.anc.trans hbelow)
      exact Or.inl ⟨hcar.onchain (hon ▸ hst) hb, hle⟩
    · -- above it there is one block at each height
      have hlen : (forked chain split).length = t.rank n + 1 := by
        have hlt := hc.height_lt hlca
        have := hs.new.length ht.toLinked
        rw [forked, length_append, length_take]
        omega
      have hup := ht.rank_le_of_anc hanc
      obtain ⟨d, hd⟩ :=
        exists_at (show b.height < (forked chain split).length by omega)
      have hdheight := hfork.height hd
      rcases (mem_forked hc).mp (mem_of_getElem? hd) with ⟨-, hdle⟩ | hdnew
      · omega
      · obtain ⟨hdanc, hdblock, -⟩ := hs.new.above d hdnew
        have hdrank : t.rank d.blockHash = d.height := Forest.rank_of_look hdblock
        have heq : d.blockHash = y :=
          Forest.anc_eq_of_rank_eq ht.height hdanc hanc (hdrank.trans (hdheight.trans hrank.symm))
        rw [heq, hb, Option.some.injEq] at hdblock
        exact Or.inr (hdblock ▸ hdnew)
  · intro b hb hlt
    rw [hblock]
    rcases (mem_forked hc).mp hb with ⟨hmem, hle⟩ | hnew
    · obtain ⟨hbblock, hbon⟩ := hcar.held b hmem (by omega)
      have hrank : t.rank b.blockHash = b.height := Forest.rank_of_look hbblock
      have hbelow :=
        anc_of_rank_le ht.toLinked hs.old.anc ((ht.onchain_iff hbon).mp rfl) (by omega)
      exact ⟨hbblock, htip.on (hs.new.anc.trans hbelow)⟩
    · obtain ⟨hanc, hbblock, -⟩ := hs.new.above b hnew
      exact ⟨hbblock, htip.on hanc⟩

end Fork

end Irys
