import Irys.BlockTree.Runs
import Irys.Migration.Stores

/-!
# The tree after a restart

`restore_from_db` rebuilds the tree from the index: the indexed blocks from `restore_cache_floor`
on, all of them on chain, with the last one as the tip.

* `restoreBlock_spec`, `markTip_restored` — a block more, and the tip at the end.
-/

namespace Irys

open List Option Mut Forest

open BlockTree

variable {name : H256 → Option IrysBlockHeader} {emission : ℕ → Res MigrationError ℕ}
  {genesis b p : IrysBlockHeader} {chain : List IrysBlockHeader} {i start top : ℕ}
  {t t' : BlockTree} {s : NodeStores} {config : ConsensusConfig}

/-! ### Sequences -/

namespace BlockTree

theorem collectChain_map {f : TreeBlockMetadata → TreeBlockMetadata}
    (hf : ∀ e, (f e).block = e.block) (depth : ℕ) (l : List (H256 × TreeBlockMetadata)) :
    collectChain depth (l.map fun x => (x.1, f x.2)) = (collectChain depth l).map f := by
  induction l generalizing depth with
  | nil => rfl
  | cons x l ih =>
    rw [map_cons, collectChain, collectChain, map_cons, hf]
    split_ifs
    · rfl
    · rw [ih]

theorem getElem?_resetSequences (h : H256) : t.resetSequences.blocks[h]? =
    t.blocks[h]?.map TreeBlockMetadata.unsequenced := by
  show (t.blocks.map _)[h]? = _
  rw [Std.TreeMap.getElem?_map]

theorem restated_resetSequences (t : BlockTree) : Restated t t.resetSequences where
  blocks h := by
    rw [getElem?_resetSequences, Option.map_map]
    rfl
  solutions := rfl
  heightIndex := rfl
  maxCumulativeDifficulty := rfl
  consensusConfig := rfl

theorem getStatus_resetSequences (t : BlockTree) : t.resetSequences.getStatus = t.getStatus := by
  funext h
  rw [getStatus, getElem?_resetSequences, Option.map_map]
  rfl

theorem cached_resetSequences (ht : t.Cached) : t.resetSequences.Cached := by
  have hlineage : t.resetSequences.lineage t.tip =
      (t.lineage t.tip).map fun x => (x.1, x.2.unsequenced) := by
    rw [lineage, lineage, ← walk_map (f := TreeBlockMetadata.unsequenced) fun _ => rfl]
    simp only [getElem?_resetSequences]
    show Forest.walk _ _ (t.blocks.map _).size _ = _
    rw [Std.TreeMap.size_map]
  show t.longestChainCache = _
  rw [ht, updateLongestChainCache, updateLongestChainCache]
  dsimp only
  rw [show t.resetSequences.tip = t.tip from rfl, hlineage,
    show t.resetSequences.consensusConfig = t.consensusConfig from rfl,
    collectChain_map (f := TreeBlockMetadata.unsequenced) fun _ => rfl, List.map_map, countP_map]
  rfl

theorem Sound.resetSequences (ht : t.Sound name) : t.resetSequences.Sound name :=
  ht.same (restated_resetSequences t) (getStatus_resetSequences t) rfl
    (cached_resetSequences ht.cached)

end BlockTree

/-! ### Loading -/

/-- **The tree with the chain's blocks from `start` up to `i` loaded**: the first is on chain and
the tip, the others are validated. -/
structure Restored (name : H256 → Option IrysBlockHeader) (config : ConsensusConfig)
    (chain : List IrysBlockHeader) (start i : ℕ) (t : BlockTree) : Prop where
  sound : t.Sound name
  consensusConfig : t.consensusConfig = config
  blocks : ∀ ⦃y b⦄, t.getBlock y = some b ↔
    b ∈ chain ∧ start ≤ b.height ∧ b.height ≤ i ∧ b.blockHash = y
  tip : ∀ ⦃b⦄, chain[start]? = some b → t.tip = b.blockHash
  status : ∀ ⦃y b⦄, t.getBlock y = some b → b.height ≠ start →
    t.getStatus y = some (.validated .validBlock)

namespace Restored

section

variable (hres : Restored name config chain start i t)
  (hc : GenesisChain name emission genesis chain)
include hres hc

theorem holds {k : ℕ} (hb : chain[k]? = some b) (hge : start ≤ k) (hle : k ≤ i) :
    t.getBlock b.blockHash = some b := by
  rw [← hc.height hb] at hge hle
  exact hres.blocks.mpr ⟨mem_of_getElem? hb, hge, hle, rfl⟩

theorem ready {y : H256} {st : ChainState} (hst : t.getStatus y = some st) :
    st.isParentReady := by
  obtain ⟨b, hb⟩ := exists_header hst
  obtain ⟨hmem, hle, -, rfl⟩ := hres.blocks.mp hb
  by_cases heq : b.height = start
  · -- the first block is the tip
    have htip := hres.tip (heq ▸ hc.mem_iff.mp hmem)
    rw [← htip] at hst
    cases hres.sound.tip_onchain.symm.trans hst
    rfl
  · cases (hres.status hb heq).symm.trans hst
    rfl

end

theorem resetSequences (hres : Restored name config chain start i t) :
    Restored name config chain start i t.resetSequences where
  sound := hres.sound.resetSequences
  consensusConfig := hres.consensusConfig
  blocks := by
    rw [(restated_resetSequences t).getBlock]
    exact hres.blocks
  tip := hres.tip
  status := by
    rw [(restated_resetSequences t).getBlock, getStatus_resetSequences]
    exact hres.status

end Restored

/-- **The first block.** -/
theorem restored_first (config : ConsensusConfig) (hc : GenesisChain name emission genesis chain)
    (hbelow : name genesis.previousBlockHash = none) (hb : chain[start]? = some b) :
    Restored name config chain start start
      { BlockTree.new b config with nextInsertionSequence := 0 } := by
  have hmem := mem_of_getElem? hb
  have hheight := hc.height hb
  have hparent : ∀ p, name b.previousBlockHash = some p → b.height = p.height + 1 := by
    intro p hp
    cases start with
    | zero =>
      rw [← head?_eq_getElem?, hc.first, Option.some.injEq] at hb
      rw [← hb, hbelow] at hp
      cases hp
    | succ k =>
      obtain ⟨q, hq⟩ := exists_before hb
      have hstep := hc.step hq hb
      rw [hstep.parent, (hc.known q (mem_of_getElem? hq)).named, Option.some.injEq] at hp
      rw [← hp]
      exact hstep.height
  have hsound : (BlockTree.new b config).Sound name := new_sound (hc.known b hmem).named hparent
  refine ⟨hsound.same ⟨fun _ => rfl, rfl, rfl, rfl, rfl⟩ rfl rfl hsound.cached, rfl, ?_, ?_, ?_⟩
  · intro y d
    show (BlockTree.new b config).getBlock y = some d ↔ _
    rw [getBlock_new_eq_some]
    constructor
    · rintro ⟨rfl, rfl⟩
      exact ⟨hmem, by omega, by omega, rfl⟩
    · rintro ⟨hd, hle, hge, rfl⟩
      have := hc.eq_of_height hd hmem (by omega)
      exact ⟨by rw [this], this⟩
  · intro d hd
    cases hb.symm.trans hd
    rfl
  · intro y d hd hne
    change (BlockTree.new b config).getBlock y = some d at hd
    obtain ⟨-, rfl⟩ := getBlock_new_eq_some.mp hd
    exact absurd hheight hne

/-- **A block more.** -/
theorem restoreBlock_spec (hc : GenesisChain name emission genesis chain) (hr : Records s chain top)
    (hres : Restored name config chain start i t) (hle : start ≤ i) (hlt : i < top) :
    ∃ t', (restoreBlock s (i + 1)).run t = (.ok (), t') ∧
      Restored name config chain start (i + 1) t' := by
  have htop := hr.top_lt
  obtain ⟨b, hb⟩ := exists_at (show i + 1 < chain.length by omega)
  obtain ⟨p, hp⟩ := exists_before hb
  have hmem := mem_of_getElem? hb
  have hheight := hc.height hb
  have hpheight := hc.height hp
  have hstep := hc.step hp hb
  have hheader : s.headers[b.blockHash]? = some b :=
    hr.headers b (hc.mem_take.mpr ⟨hmem, by omega⟩)
  have hparent : t.getBlock b.previousBlockHash = some p :=
    hstep.parent ▸ hres.holds hc hp hle le_rfl
  obtain ⟨e, he, rfl⟩ := exists_entry hparent
  have hfresh : t.blocks[b.blockHash]? = none := by
    rw [← getBlock_eq_none_iff, eq_none_iff_forall_ne_some]
    intro d hd
    obtain ⟨hdmem, -, hdle, hhash⟩ := hres.blocks.mp hd
    have := hc.eq_of_hash hdmem (hc.known b hmem).named hhash.symm
    rw [← this] at hdle
    omega
  let t₁ := (t.place b.blockHash b (.validated .validBlock) e).updateLongestChainCache
  have hadd : (addCommon b.blockHash b (.validated .validBlock)).run t = (.ok (), t₁) := by
    rw [addCommon, run_read_bind, he]
    rfl
  have hblock : ∀ y, t₁.getBlock y = if b.blockHash = y then some b else t.getBlock y := by
    intro y
    exact getBlock_place he hfresh
  refine ⟨t₁, ?_, ?_, ?_, ?_, ?_, ?_⟩
  · rw [restoreBlock, hr.getElem? (by omega) hb, expect_some, run_lift_ok_bind, hheader,
      expect_some, run_lift_ok_bind, run_bind_of_ok (run_zoom_id (run_attempt_of_ok hadd))]
    rfl
  · exact hres.sound.place he hfresh (hc.known b hmem).named hstep.height hstep.heavier (by simp)
      (fun _ => hres.ready hc (getStatus_of_entry he))
  · exact hres.consensusConfig
  · intro y d
    rw [hblock]
    split_ifs with hy
    · rw [Option.some.injEq]
      constructor
      · rintro rfl
        exact ⟨hmem, by omega, by omega, hy⟩
      · rintro ⟨hd, -, -, hhash⟩
        exact hc.eq_of_hash hd (hc.known b hmem).named (hy.trans hhash.symm)
    · rw [hres.blocks]
      constructor
      · rintro ⟨hd, hge, hdle, hhash⟩
        exact ⟨hd, hge, by omega, hhash⟩
      · rintro ⟨hd, hge, hdle, hhash⟩
        refine ⟨hd, hge, ?_, hhash⟩
        by_contra hno
        rw [hc.eq_of_height hmem hd (by omega)] at hy
        exact hy hhash
  · exact hres.tip
  · intro y d hd hne
    have hst : t₁.getStatus y = if b.blockHash = y then some (.validated .validBlock)
        else t.getStatus y := getStatus_place he hfresh
    rw [hblock] at hd
    rw [hst]
    split_ifs at hd ⊢ with hy
    · rfl
    · exact hres.status hd hne

/-! ### The tip -/

namespace Restored

section

variable (hres : Restored name config chain start top t)
    (hc : GenesisChain name emission genesis chain) (hb : chain[top]? = some b) (hle : start ≤ top)
include hres hc hb hle

theorem max_eq : t.maxCumulativeDifficulty.2 = b.blockHash := by
  have hheight := hc.height hb
  have hbmem := mem_of_getElem? hb
  obtain ⟨d, hd, hdiff⟩ := hres.sound.attained
  obtain ⟨hdmem, -, hdle, hdhash⟩ := hres.blocks.mp hd
  have hmax := hres.sound.le (hres.holds hc hb hle le_rfl)
  have heq : d.height = b.height := by
    by_contra hne
    have := hc.diff_lt (hc.mem_iff.mp hdmem) hb (by omega)
    omega
  rw [← hdhash, hc.eq_of_height hdmem hbmem heq]

theorem anc_last {y : H256} (hy : (t.getBlock y).isSome) : t.Anc b.blockHash y := by
  have hheight := hc.height hb
  have hbblock := hres.holds hc hb hle le_rfl
  obtain ⟨d, hd⟩ := isSome_iff_exists.mp hy
  obtain ⟨hdmem, hdge, hdle, rfl⟩ := hres.blocks.mp hd
  -- the last block has ancestors at every height down to the tip, which is the lowest block
  obtain ⟨a, hba, hta⟩ := hres.sound.anchored (isSome_of_eq_some hbblock)
  obtain ⟨ab, hab⟩ := isSome_iff_exists.mp
    (isSome_of_anc hba (isSome_of_eq_some hbblock))
  have hdlt := hc.height_lt hdmem
  obtain ⟨r, hr⟩ := exists_at (show start < chain.length by omega)
  have hrheight := hc.height hr
  have hrblock := hres.holds hc hr le_rfl hle
  have hrank : ∀ {x c}, t.getBlock x = some c → t.rank x = c.height :=
    fun h => rank_of_look h
  have harank : t.rank a ≤ start := by
    have := hres.sound.rank_le_of_anc hta
    rw [hres.tip hr, hrank hrblock] at this
    omega
  obtain ⟨z, hbz, -, hz⟩ := exists_anc_at hres.sound.height hba (k := d.height)
    (harank.trans hdge) (by
      show d.height ≤ t.rank b.blockHash
      rw [hrank hbblock]
      omega)
  obtain ⟨c, hcz⟩ := isSome_iff_exists.mp
    (isSome_of_anc hbz (isSome_of_eq_some hbblock))
  obtain ⟨hcmem, -, -, rfl⟩ := hres.blocks.mp hcz
  have heq : c = d := hc.eq_of_height hcmem hdmem ((hrank hcz).symm.trans hz)
  rw [← heq]
  exact hbz

/-- **The tip at the end**: the whole restored tree is on chain. -/
theorem markTip :
    ∃ changed t', (BlockTree.markTip b.blockHash).run t = (.ok changed, t') ∧ t'.Sound name ∧
      t'.consensusConfig = config ∧ t'.tip = b.blockHash ∧ t'.getBlock = t.getBlock ∧
      ∀ ⦃y⦄, (t.getBlock y).isSome → t'.getStatus y = some .onchain := by
  have hheight := hc.height hb
  have hbblock := hres.holds hc hb hle le_rfl
  have huntied : ¬ t.Ties b.blockHash b := fun h => h.2 (hres.max_eq hc hb hle)
  by_cases heq : start = top
  · -- a single block: it is the tip already
    obtain ⟨e, he, rfl⟩ := exists_entry hbblock
    have htip := hres.tip (heq ▸ hb)
    have hroot : t.blocks[e.block.previousBlockHash]? = none := by
      rw [← getBlock_eq_none_iff, eq_none_iff_forall_ne_some]
      intro d hd
      have := hres.sound.height hbblock hd
      obtain ⟨-, hdge, -⟩ := hres.blocks.mp hd
      omega
    obtain ⟨n, hn⟩ := exists_size_eq_succ he
    have hon : t.getStatus e.block.blockHash = some .onchain := htip ▸ hres.sound.tip_onchain
    have hstatus : (t.setChainState e.block.blockHash .onchain).getStatus = t.getStatus := by
      funext y
      rw [getStatus_setChainState]
      split_ifs with hy
      · rw [← hy, hon]
        rfl
      · rfl
    let t₁ := { t.setChainState e.block.blockHash .onchain with
      tip := e.block.blockHash }.updateLongestChainCache
    have hr : Restated t t₁ :=
      (restated_setChainState _).trans ⟨fun _ => rfl, rfl, rfl, rfl, rfl⟩
    have hclimb : (markOnChain (n + 1) e.block).run t = (.ok (), t) := by
      rw [markOnChain, run_read_bind, hroot]
      rfl
    have hsound := hres.sound.same hr hstatus htip.symm (cached_update _)
    refine ⟨t.tip != e.block.blockHash, t₁, ?_, hsound, hres.consensusConfig, rfl, hr.getBlock, ?_⟩
    · rw [BlockTree.markTip, run_read_bind, he]
      dsimp only
      rw [if_neg huntied, hn, run_bind_of_ok hclimb]
      rfl
    · intro y hy
      obtain ⟨d, hd⟩ := isSome_iff_exists.mp hy
      obtain ⟨hdmem, hdge, hdle, rfl⟩ := hres.blocks.mp hd
      have := hc.eq_of_height hdmem (mem_of_getElem? hb) (by omega)
      show (t.setChainState e.block.blockHash .onchain).getStatus _ = _
      rw [hstatus, this, hon]
  · obtain ⟨t', hrun, htip⟩ := markTip_spec hres.sound hbblock
      ⟨_, hres.status hbblock (by omega), by simp, rfl⟩ huntied
    exact ⟨true, t', hrun, hres.sound.at_tip hbblock htip,
      htip.restated.consensusConfig.trans hres.consensusConfig, htip.tip, htip.restated.getBlock,
      fun y hy => htip.on (hres.anc_last hc hb hle hy)⟩

end

end Restored

section

variable (hc : GenesisChain name emission genesis chain)
    (hbelow : name genesis.previousBlockHash = none) (hr : Records s chain top)
include hc hbelow hr

theorem restoreBlocks_spec (hle : start ≤ top) (hfirst : chain[start]? = some b) :
    ∃ t, (Mut.forEach (restoreBlock s) (List.range' (start + 1) (top - start))).run
        { BlockTree.new b config with nextInsertionSequence := 0 } = (.ok (), t) ∧
      Restored name config chain start top t := by
  obtain ⟨t, hload, hres⟩ := forEach_ok_at (l := List.range' (start + 1) (top - start))
    (fun k => Restored name config chain start (start + k))
    (by
      intro k i t hi hres
      obtain ⟨hk, rfl⟩ := List.getElem?_eq_some_iff.mp hi
      rw [length_range'] at hk
      rw [getElem_range', Nat.one_mul, Nat.add_right_comm]
      exact restoreBlock_spec hc hr hres (Nat.le_add_right ..) (by omega))
    (restored_first config hc hbelow hfirst)
  rw [length_range', Nat.add_sub_cancel' hle] at hres
  exact ⟨t, hload, hres⟩

/-- **The steps of a restart**: the blocks are loaded, their sequences are reset, the last one
becomes the tip and the tree is pruned. -/
theorem restoreFromDb_run (hdepth : config.blockMigrationDepth < config.blockTreeDepth)
    (hb : chain[top]? = some b) :
    ∃ start t, start ≤ top ∧ Restored name config chain start top t ∧
      ∀ ⦃changed t' t''⦄, (BlockTree.markTip b.blockHash).run t.resetSequences = (.ok changed, t') →
        (BlockTree.prune (config.blockTreeDepth - 1)).run t' = (.ok [], t'') →
        restoreFromDb config s = .ok t'' := by
  have htop := hr.top_lt
  obtain ⟨start, hstartEq⟩ : ∃ start, start =
    restoreCacheFloor top config.blockTreeDepth config.blockMigrationDepth := ⟨_, rfl⟩
  have hstart : start ≤ top := by
    rw [hstartEq, restoreCacheFloor]
    omega
  obtain ⟨r, hrAt⟩ := exists_at (show start < chain.length by omega)
  obtain ⟨t, hload, hres⟩ := restoreBlocks_spec hc hbelow hr hstart hrAt
  refine ⟨start, t, hstart, hres, ?_⟩
  intro changed t' t'' hmark hprune
  have hrest : (loadRest config s start).run
      { BlockTree.new r config with nextInsertionSequence := 0 } = (.ok (), t'') := by
    rw [loadRest, hr.length, show top + 1 - (start + 1) = top - start by omega,
      run_bind_of_ok hload, run_update_bind, hr.getLast? hb, expect_some,
      run_lift_ok_bind, run_bind_of_ok (run_zoom_id hmark), run_bind_of_ok (run_zoom_id hprune)]
    rfl
  rw [restoreFromDb, hr.not_isEmpty, hr.latestHeight, ← hstartEq]
  simp only [Bool.false_eq_true, if_false]
  rw [hr.getElem? hstart hrAt]
  dsimp only
  rw [hr.loadHeader hstart hrAt, ok_bind, hrest]
  rfl

/-- **A restart** rebuilds the tree from the index: it carries the chain as far as it is
recorded. -/
theorem restoreFromDb_spec (hdepth : config.blockMigrationDepth < config.blockTreeDepth) :
    ∃ t, restoreFromDb config s = .ok t ∧ t.Sound name ∧ t.consensusConfig = config ∧
      Carries t (chain.take (top + 1)) top ∧ ∀ ⦃y b⦄, t.getBlock y = some b → b ∈ chain := by
  obtain ⟨b, hb⟩ := exists_at hr.top_lt
  have hbheight := hc.height hb
  obtain ⟨start, t₁, hstart, hres, hrun⟩ := restoreFromDb_run hc hbelow hr hdepth hb
  obtain ⟨changed, t₂, hmark, hsound, hconfig, htip, hblocks, hon⟩ :=
    hres.resetSequences.markTip hc hb hstart
  obtain ⟨t₃, hprune, hsound₃, gone, hdrops, hkeep⟩ := prune_spec hsound (config.blockTreeDepth - 1)
  have hbblock₂ : t₂.getBlock b.blockHash = some b := by
    rw [hblocks]
    exact hres.resetSequences.holds hc hb hstart le_rfl
  have hmem : ∀ ⦃y d⦄, t₃.getBlock y = some d → d ∈ chain ∧ d.height ≤ top := by
    intro y d hd
    have hd₂ := (hdrops.getBlock_of_some hd).1
    rw [hblocks] at hd₂
    obtain ⟨hdmem, -, hdle, -⟩ := hres.resetSequences.blocks.mp hd₂
    exact ⟨hdmem, hdle⟩
  refine ⟨t₃, hrun hmark hprune, hsound₃, hdrops.consensusConfig.trans hconfig, ⟨?_, ?_, ?_⟩,
    fun y d hd => (hmem hd).1⟩
  · rw [hdrops.tip, hdrops.kept (hkeep.tip hsound.toCanonical), htip, hbblock₂, ← hbheight]
    exact hc.getLast?_take (mem_of_getElem? hb)
  · intro y d _ hd
    exact hc.mem_take.mpr (hmem hd)
  · intro d hd hlt
    have := (hc.mem_take.mp hd).2
    omega

end

end Irys
