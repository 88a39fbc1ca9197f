import Irys.Lib.Loops
import Irys.Migration.Chain

/-!
# The stores in a move of the tip

The index holds the lower part of the canonical chain.  The steps of a tip move keep it so: the
markers name a block of the new chain, the rollback cuts the index at the fork, and the migration
extends it block by block.  Each of them succeeds.
-/

namespace Irys

open List Mut Forest

open BlockTree

variable {name : H256 → Option IrysBlockHeader} {emission : ℕ → Res MigrationError ℕ}
  {genesis b c p : IrysBlockHeader} {chain old : List IrysBlockHeader} {i j k low top : ℕ}
  {t : BlockTree} {s s' : NodeStores}

/-- **The stores record the chain** up to height `top`.  After a first migration the supply counter
stands there too. -/
structure Records (s : NodeStores) (chain : List IrysBlockHeader) (top : ℕ) : Prop where
  top_lt : top < chain.length
  index : s.index = (chain.map (·.blockHash)).take (top + 1)
  headers : ∀ b ∈ chain.take (top + 1), s.headers[b.blockHash]? = some b
  supply : ∀ supply ∈ s.supplyState, supply.firstMigrationHeight.isSome → supply.height = top

namespace Records

section

variable (hr : Records s chain top)
include hr

theorem length : s.index.length = top + 1 := by
  have := hr.top_lt
  rw [hr.index, length_take, length_map]
  omega

theorem latestHeight : s.latestHeight = top := by
  rw [NodeStores.latestHeight, hr.length, Nat.add_sub_cancel]

theorem getElem? (hle : i ≤ top) (hb : chain[i]? = some b) : s.index[i]? = some b.blockHash := by
  rw [hr.index, getElem?_take, if_pos (by omega), getElem?_map, hb]
  rfl

theorem getLast? (hb : chain[top]? = some b) : s.index.getLast? = some b.blockHash := by
  rw [getLast?_eq_getElem?, hr.length, Nat.add_sub_cancel]
  exact hr.getElem? le_rfl hb

theorem loadHeader (hle : i ≤ top) (hb : chain[i]? = some b) :
    loadHeaderFromDb s b.blockHash = .ok b := by
  have hmem : b ∈ chain.take (top + 1) := by
    apply mem_of_getElem? (i := i)
    rw [getElem?_take, if_pos (by omega)]
    exact hb
  rw [loadHeaderFromDb, hr.headers b hmem]

theorem not_isEmpty : s.index.isEmpty = false := by
  rw [isEmpty_eq_false_iff, ← length_pos_iff, hr.length]
  exact Nat.succ_pos _

end

theorem transfer (hr : Records s old top) (heq : chain.take (top + 1) = old.take (top + 1)) :
    Records s chain top where
  top_lt := by
    have hlen := congrArg List.length heq
    have := hr.top_lt
    rw [length_take, length_take] at hlen
    omega
  index := by rw [hr.index, ← map_take, ← map_take, heq]
  headers := by
    rw [heq]
    exact hr.headers
  supply := hr.supply

end Records

/-! ### Markers -/

section

variable (hc : GenesisChain name emission genesis chain)
include hc

/-- **A block by height**, from the upper end of the chain or from the index below it. -/
theorem blockAtHeight_spec (hheld : ∀ b ∈ chain, low ≤ b.height → t.getBlock b.blockHash = some b)
    (hr : Records s old top) (hlow : low ≤ top + 1) (hk : k < chain.length) :
    ∃ b, blockAtHeight k (chain.drop low) t s = .ok b ∧ (low ≤ k → b ∈ chain ∧ b.height = k) := by
  rw [blockAtHeight]
  cases hfind : (chain.drop low).find? (·.height == k) with
  | some e =>
    obtain ⟨hmem, hle⟩ := hc.mem_drop.mp (mem_of_find?_eq_some hfind)
    have hheight : e.height = k := by simpa using find?_some hfind
    refine ⟨e, ?_, fun _ => ⟨hmem, hheight⟩⟩
    dsimp only
    rw [loadHeader, hheld e hmem hle]
  | none =>
    have hbelow : k < low := by
      by_contra hno
      obtain ⟨d, hd⟩ := exists_at hk
      have hheight := hc.height hd
      have hmem : d ∈ chain.drop low := hc.mem_drop.mpr ⟨mem_of_getElem? hd, by omega⟩
      exact find?_eq_none.mp hfind d hmem (by simp [hheight])
    have htop := hr.top_lt
    obtain ⟨d, hd⟩ := exists_at (show k < old.length by omega)
    refine ⟨d, ?_, fun hle => absurd hle (not_le.mpr hbelow)⟩
    dsimp only
    rw [markerFromIndexHeight, hr.getElem? (by omega) hd]
    exact hr.loadHeader (by omega) hd

theorem treeSafeHeight_spec (hlow : low < chain.length) (migrationDepth : ℕ) :
    ∃ k, treeSafeHeight (chain.drop low) migrationDepth = .ok k ∧ low ≤ k := by
  have hlen : (chain.drop low).length = chain.length - low := length_drop
  rw [treeSafeHeight]
  split_ifs with hdeep
  · obtain ⟨d, hd⟩ := exists_at
      (show (chain.drop low).length - 1 - migrationDepth < (chain.drop low).length by omega)
    rw [hd]
    refine ⟨d.height, rfl, ?_⟩
    rw [getElem?_drop] at hd
    rw [hc.height hd]
    exact Nat.le_add_right ..
  · obtain ⟨d, hd⟩ := exists_at hlow
    rw [head?_drop, hd]
    exact ⟨d.height, rfl, (hc.height hd).ge⟩

/-- **The markers of a tip move** can be computed, before the index is rolled back; the migration
block is on the new chain, no lower than what stays migrated. -/
theorem fromBlockTree_spec (ht : t.Sound name) (hcar : Carries t chain i) (hr : Records s old top)
    (hle : i ≤ top) (hreach : chain.length ≤ top + t.consensusConfig.blockTreeDepth + 1)
    (migrationDepth pruneDepth : ℕ) :
    ∃ markers, fromBlockTree t s migrationDepth pruneDepth = .ok markers ∧
      markers.migrationBlock ∈ chain ∧
      (top ≤ markers.migrationBlock.height ∨ markers.migrationBlock.height + 1 = chain.length) := by
  obtain ⟨low, hlow, hcache, hbound, hheld⟩ := hcar.cache ht hc
  have hlowtop : low ≤ top + 1 := by omega
  obtain ⟨head, hhead⟩ := exists_at (show chain.length - 1 < chain.length by omega)
  have hheadHeight := hc.height hhead
  obtain ⟨treeSafe, htree, htreeLow⟩ := treeSafeHeight_spec hc hlow migrationDepth
  have hat : ∀ {k}, k < chain.length → ∃ b, blockAtHeight k (chain.drop low) t s = .ok b ∧
      (low ≤ k → b ∈ chain ∧ b.height = k) :=
    fun hk => blockAtHeight_spec hc hheld hr hlowtop hk
  obtain ⟨headBlock, hheadBlock, -⟩ := hat (k := head.height) (by omega)
  obtain ⟨mig, hmig, hmigMem⟩ :=
    hat (k := computeMigrationHeight head.height treeSafe s.latestHeight)
      (by rw [computeMigrationHeight]; omega)
  obtain ⟨prune, hprune, -⟩ :=
    hat (k := computePruneHeight (computeMigrationHeight head.height treeSafe s.latestHeight)
      s.latestHeight (pruneDepth - migrationDepth))
      (by rw [computePruneHeight, computeMigrationHeight]; omega)
  obtain ⟨hmem, hheight⟩ := hmigMem (by rw [computeMigrationHeight]; omega)
  refine ⟨⟨headBlock, mig, prune⟩, ?_, hmem, ?_⟩
  · have hlast : (chain.drop low).getLast? = some head := by
      rw [getLast?_drop, if_neg (by omega), getLast?_eq_getElem?, hhead]
    rw [fromBlockTree, hcache, hlast]
    simp only [htree, hheadBlock, hmig, hprune, ok_bind]
    rfl
  · show top ≤ mig.height ∨ mig.height + 1 = chain.length
    rw [hheight, computeMigrationHeight, hr.latestHeight]
    omega

end

/-! ### Rolling back -/

/-- **The rollback** of the blocks above a height that is not below the finalized one: the index
is cut there. -/
theorem recover_spec (config : ConsensusConfig) (hc : GenesisChain name emission genesis chain)
    (hr : Records s chain top) {fork : ℕ}
    (hfinal : finalizedHeight top config.blockTreeDepth config.blockMigrationDepth ≤ fork) :
    ∃ s', (recoverFromNetworkPartition config emission fork).run s = (.ok (), s') ∧
      Records s' chain (min top fork) ∧
      ∀ supply' ∈ s'.supplyState, ∃ supply ∈ s.supplyState,
        supply'.firstMigrationHeight = supply.firstMigrationHeight ∧
        supply'.persistedBackfillHeight = supply.persistedBackfillHeight := by
  rw [recoverFromNetworkPartition, run_read_bind, hr.latestHeight, hr.not_isEmpty]
  simp only [Bool.false_eq_true, false_or]
  by_cases hle : top ≤ fork
  · rw [if_pos hle, Nat.min_eq_left hle]
    exact ⟨s, rfl, hr, fun supply hsupply => ⟨supply, hsupply, rfl, rfl⟩⟩
  rw [if_neg hle, if_neg (not_lt.mpr hfinal)]
  have htop := hr.top_lt
  -- everything is read before anything is written
  obtain ⟨emissions, hread⟩ : ∃ emissions, (List.range' (fork + 1) (top - fork)).mapM
      (rollbackInfo emission s) = .ok emissions := by
    apply mapM_ok
    intro h hh
    rw [mem_range'_1] at hh
    obtain ⟨d, hd⟩ := exists_at (show h < chain.length by omega)
    obtain ⟨q, hq⟩ := exists_at (show h - 1 < chain.length by omega)
    obtain ⟨amount, hamount⟩ := (hc.known d (mem_of_getElem? hd)).rewarded
    rw [hc.height hd] at hamount
    refine ⟨amount, ?_⟩
    rw [rollbackInfo, hr.getElem? (by omega) hd, hr.getElem? (by omega) hq]
    dsimp only
    rw [hr.loadHeader (by omega) hd, ok_bind, hamount]
  rw [hread, run_lift_ok_bind, Nat.min_eq_right (by omega)]
  refine ⟨_, rfl, ⟨by omega, ?_, ?_, ?_⟩, ?_⟩
  · show s.index.take (fork + 1) = _
    rw [hr.index, take_take, Nat.min_eq_left (by omega)]
  · intro d hd
    apply hr.headers
    rw [hc.mem_take] at hd ⊢
    exact ⟨hd.1, by omega⟩
  · intro supply hsupply _
    obtain ⟨supply₀, -, rfl⟩ := Option.map_eq_some_iff.mp hsupply
    rfl
  · intro supply hsupply
    obtain ⟨supply₀, hsupply₀, rfl⟩ := Option.map_eq_some_iff.mp hsupply
    exact ⟨supply₀, hsupply₀, rfl, rfl⟩

/-! ### Migrating -/

/-- A first migration above this height does not overlap the backfill. -/
def Backfilled (s : NodeStores) (height : ℕ) : Prop :=
  ∀ supply ∈ s.supplyState, supply.firstMigrationHeight = none →
    ∀ persisted ∈ supply.persistedBackfillHeight, persisted ≤ height

theorem addBlockReward_spec {supply : SupplyState}
    (hnext : supply.firstMigrationHeight.isSome → supply.height = i)
    (hfirst : supply.firstMigrationHeight = none →
      ∀ persisted ∈ supply.persistedBackfillHeight, persisted ≤ i) (amount : ℕ) :
    ∃ supply', supply.addBlockReward (i + 1) amount = .ok supply' ∧ supply'.height = i + 1 ∧
      supply'.firstMigrationHeight.isSome := by
  rw [SupplyState.addBlockReward]
  cases hm : supply.firstMigrationHeight with
  | none =>
    cases hp : supply.persistedBackfillHeight with
    | none => exact ⟨_, rfl, rfl, rfl⟩
    | some persisted =>
      have := hfirst hm persisted hp
      dsimp only
      rw [if_neg (by omega)]
      exact ⟨_, rfl, rfl, rfl⟩
  | some first =>
    have hheight := hnext (by rw [hm]; rfl)
    dsimp only
    rw [hheight, if_neg (not_not.mpr rfl)]
    exact ⟨_, rfl, rfl, rfl⟩

/-- **A block that continues the index** goes on top of it. -/
theorem persistBlock_run (hheight : b.height = s.index.length)
    (hlast : s.index.getLast? = some b.previousBlockHash) :
    (persistBlock b).run s = (.ok (), { s with
      index := s.index ++ [b.blockHash], headers := s.headers.insert b.blockHash b }) := by
  have hempty : s.index.isEmpty = false := by
    rw [isEmpty_eq_false_iff]
    intro hnil
    rw [hnil] at hlast
    cases hlast
  rw [persistBlock, run_read_bind, hempty, hheight, ← getLast?_eq_getElem?, hlast]
  simp only [Bool.false_eq_true, false_and, if_false, ne_eq, not_true_eq_false]
  show (Except.ok (), NodeStores.insertItem _ _ _) = _
  rw [NodeStores.insertItem, take_of_length_le le_rfl, drop_of_length_le (Nat.le_succ _)]

/-- **One block migrates.** -/
theorem migrateBlock_spec (hc : GenesisChain name emission genesis chain) (hr : Records s chain i)
    (hback : Backfilled s i) (hb : chain[i + 1]? = some b) :
    ∃ s', (migrateBlock emission b).run s = (.ok (), s') ∧ Records s' chain (i + 1) ∧
      Backfilled s' (i + 1) := by
  have hlt := lt_length_of_some hb
  have htake : chain.take (i + 1 + 1) = chain.take (i + 1) ++ [b] := by
    rw [take_add_one, hb]
    rfl
  have hindex : s.index ++ [b.blockHash] = (chain.map (·.blockHash)).take (i + 1 + 1) := by
    rw [← map_take, htake, map_append, map_take, ← hr.index]
    rfl
  have hheaders : ∀ d ∈ chain.take (i + 1 + 1),
      (s.headers.insert b.blockHash b)[d.blockHash]? = some d := by
    intro d hd
    rw [Std.TreeMap.getElem?_insert]
    simp only [Nat.compare_eq_eq]
    split_ifs with heq
    · rw [hc.eq_of_hash (mem_of_mem_take hd) (hc.known b (mem_of_getElem? hb)).named heq]
    · rw [htake, mem_append, mem_singleton] at hd
      rcases hd with hd | rfl
      · exact hr.headers d hd
      · exact absurd rfl heq
  have hlast : s.index.getLast? = some b.previousBlockHash := by
    obtain ⟨p, hp⟩ := exists_at hr.top_lt
    rw [hr.getLast? hp, (hc.step hp hb).parent]
  rw [migrateBlock, run_bind_of_ok (persistBlock_run ((hc.height hb).trans hr.length.symm) hlast),
    countReward, run_read_bind]
  dsimp only
  cases hsupply : s.supplyState with
  | none =>
    refine ⟨_, rfl, ⟨hlt, hindex, hheaders, ?_⟩, ?_⟩
    · intro supply h
      cases h
    · intro supply h
      cases h
  | some supply =>
    obtain ⟨amount, hamount⟩ := (hc.known b (mem_of_getElem? hb)).rewarded
    obtain ⟨counted, hcount, hheight, hsome⟩ :=
      addBlockReward_spec (hr.supply supply hsupply) (hback supply hsupply) amount
    rw [hamount, hc.height hb, run_lift_ok_bind, hcount, run_lift_ok_bind]
    refine ⟨_, rfl, ⟨hlt, hindex, hheaders, ?_⟩, ?_⟩
    · intro supply' h _
      rw [← Option.some.inj h, hheight]
    · intro supply' h hnone
      rw [← Option.some.inj h, Option.eq_none_iff_forall_not_mem] at hnone
      obtain ⟨first, hfirst⟩ := Option.isSome_iff_exists.mp hsome
      exact absurd hfirst (hnone first)

theorem validateLinks_of_follows {l : List IrysBlockHeader} (hl : l.IsChain Follows) :
    validateLinks l = .ok () := by
  induction l with
  | nil => rfl
  | cons x l ih =>
    cases l with
    | nil => rfl
    | cons y l =>
      obtain ⟨hxy, hrest⟩ := isChain_cons_cons.mp hl
      rw [validateLinks, if_neg (not_not.mpr hxy.height), if_neg (not_not.mpr hxy.parent)]
      exact ih hrest

/-- The part of the chain above `i`, up to `k`. -/
def between (chain : List IrysBlockHeader) (i k : ℕ) : List IrysBlockHeader :=
  (chain.take (k + 1)).drop (i + 1)

theorem between_self (chain : List IrysBlockHeader) (i : ℕ) : between chain i i = [] := by
  rw [between, drop_eq_nil_iff, length_take]
  omega

theorem between_succ (hb : chain[k + 1]? = some b) (hle : i ≤ k) :
    between chain i (k + 1) = between chain i k ++ [b] := by
  have hlt := lt_length_of_some hb
  rw [between, take_add_one, hb, drop_append_of_le_length]
  · rfl
  · rw [length_take]
    omega

theorem between_cons (hb : chain[i + 1]? = some b) (hlt : i < k) :
    between chain i k = b :: between chain (i + 1) k := by
  rw [between, drop_eq_getElem?_toList_append, getElem?_take, if_pos (by omega), hb]
  rfl

theorem collectToMigrate_spec (hc : GenesisChain name emission genesis chain)
    (hcar : Carries t chain i) (hlast : chain[i]? = some p) (hb : chain[k]? = some b)
    (hle : i ≤ k) {fuel : ℕ} (hfuel : k < i + fuel) (passed : List IrysBlockHeader) :
    collectToMigrate t p.blockHash fuel b.blockHash passed = .ok (between chain i k ++ passed) := by
  induction fuel generalizing k b passed with
  | zero => omega
  | succ fuel ih =>
    rw [collectToMigrate]
    by_cases heq : k = i
    · rw [heq, hlast, Option.some.injEq] at hb
      rw [if_pos (by rw [hb]), heq, between_self]
      rfl
    · have hheight := hc.height hb
      have hmem := mem_of_getElem? hb
      have hne : b.blockHash ≠ p.blockHash := by
        intro hhash
        rw [hc.eq_of_hash (mem_of_getElem? hlast) (hc.known b hmem).named hhash,
          hc.height hlast] at hheight
        exact heq hheight.symm
      obtain ⟨k, rfl⟩ : ∃ k', k = k' + 1 := ⟨k - 1, by omega⟩
      have hlt := lt_length_of_some hb
      obtain ⟨q, hq⟩ := exists_before hb
      rw [if_neg hne, (hcar.held b hmem (by omega)).1]
      dsimp only
      rw [(hc.step hq hb).parent, ih hq (by omega) (by omega), between_succ hb (by omega)]
      simp

theorem Carries.length_le_size (hcar : Carries t chain i) (ht : t.Sound name)
    (hc : GenesisChain name emission genesis chain) (hb : b ∈ chain) :
    b.height ≤ i + t.blocks.size := by
  by_cases hle : b.height ≤ i
  · omega
  obtain ⟨hblock, hon⟩ := hcar.held b hb (by omega)
  have hlt := hc.height_lt hb
  obtain ⟨a, ha⟩ := exists_at (show i + 1 < chain.length by omega)
  have haheight := hc.height ha
  obtain ⟨hablock, haon⟩ := hcar.held a (mem_of_getElem? ha) (by omega)
  have harank : t.rank a.blockHash = a.height := rank_of_look hablock
  have hbrank : t.rank b.blockHash = b.height := rank_of_look hblock
  have hanc : t.Anc b.blockHash a.blockHash := BlockTree.anc_of_rank_le ht.toLinked
    ((ht.onchain_iff hon).mp rfl) ((ht.onchain_iff haon).mp rfl) (by omega)
  obtain ⟨e, he, rfl⟩ := exists_entry hblock
  have hwalk := (lineage_spec ht.toLinked e.block.blockHash).rank_lt ht.toLinked.entry_height
    (Option.isSome_of_eq_some he) (anc_entry (t := t) ▸ hanc)
  have hlen : (t.lineage e.block.blockHash).length ≤ t.blocks.size := length_walk_le ..
  rw [rank_entry, rank_entry] at hwalk
  omega

/-- **The migration** up to a block of the chain. -/
theorem migrateBlocks_spec (hc : GenesisChain name emission genesis chain) (ht : t.Sound name)
    (hcar : Carries t chain top) (hr : Records s chain top) (hback : Backfilled s top)
    (hb : b ∈ chain) (hle : top ≤ b.height) :
    ∃ s', (migrateBlocks emission t b).run s = (.ok (), s') ∧ Records s' chain b.height := by
  obtain ⟨p, hp⟩ := exists_at hr.top_lt
  have hat := hc.mem_iff.mp hb
  have hsize := hcar.length_le_size ht hc hb
  have hlt := hc.height_lt hb
  have hcollect : getBlocksToMigrate t s b = .ok (between chain top b.height) := by
    rw [getBlocksToMigrate, hr.getLast? hp]
    dsimp only
    rw [collectToMigrate_spec hc hcar hp hat hle (by omega), append_nil]
  have hvalid : validateMigrationContinuity s (between chain top b.height) = .ok () := by
    by_cases heq : top = b.height
    · rw [heq, between_self]
      rfl
    · obtain ⟨d, hd⟩ := exists_at (show top + 1 < chain.length by omega)
      have hlinks := validateLinks_of_follows ((hc.follows.take (b.height + 1)).drop (top + 1))
      rw [← between, between_cons hd (by omega)] at hlinks
      rw [between_cons hd (by omega), validateMigrationContinuity, hr.getLast? hp]
      dsimp only
      rw [hr.latestHeight, hc.height hd, if_neg (not_not.mpr rfl),
        if_neg (not_not.mpr (hc.step hp hd).parent.symm), hlinks]
  rw [migrateBlocks, run_read_bind, hcollect, run_lift_ok_bind, hvalid,
    run_lift_ok_bind]
  -- what is left to migrate starts where the index ends
  obtain ⟨s', hrun, hr', -⟩ := forEach_ok_at (l := between chain top b.height)
    (fun k s => Records s chain (top + k) ∧ Backfilled s (top + k))
    (by
      rintro k d s hd ⟨hr, hback⟩
      rw [between, getElem?_drop, getElem?_take, Option.ite_none_right_eq_some,
        Nat.add_right_comm] at hd
      exact migrateBlock_spec hc hr hback hd.2)
    ⟨hr, hback⟩
  have hlen : top + (between chain top b.height).length = b.height := by
    rw [between, length_drop, length_take]
    omega
  exact ⟨s', hrun, hlen ▸ hr'⟩

end Irys
