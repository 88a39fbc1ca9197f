import Irys.Chain.Types

/-!
# The moving average of the token price

Every block header carries an oracle price and a moving average of it (EMA).  A node keeps, beside
each block, the few prices the next blocks need.  It rolls them forward block by block, and after
a restart it rebuilds them from the last three price intervals of the index.  Both are modelled
here, with the source's `u64` arithmetic.

* `isEmaRecalculationBlock`, `previousEmaRecalculationBlockHeight`, `blockHeightToUseForPrice` —
  which heights carry the averages in use at a height;
* `createEmaSnapshotFromChainHistory`, `buildCurrentEmaSnapshotFromIndex` — the rebuild;
* `PricedChain.snapshotAt` — the heights of the four prices in closed form.  Both sides are shown to
  produce it, so they agree at every height.
-/

namespace Irys

/-- A token price, in units of `10 ^ -18` dollars. -/
abbrev IrysTokenPrice := ℕ

/-- A block header with the two prices it carries. -/
structure PricedHeader extends IrysBlockHeader where
  oracleIrysPrice : IrysTokenPrice
  emaIrysPrice : IrysTokenPrice
  deriving DecidableEq

/-- The price section of the configuration, with the check of `Config::validate`. -/
structure EmaConfig where
  priceAdjustmentInterval : ℕ
  interval_pos : 0 < priceAdjustmentInterval

/-- How a rebuild can fail. -/
inductive EmaError where
  | noBlocks
  | latestNotHighest (height maxHeight : ℕ)
  | blockNotFound (height : ℕ)
  deriving DecidableEq

/-! ### Heights -/

section

variable (height interval : ℕ)

/-- In the first two intervals every block recalculates the average, later the last block of each
interval does. -/
def isEmaRecalculationBlock : Res EmaError Bool := do
  let firstTwo ← expect (checkedMul 64 interval 2)
  if height < firstTwo then pure true
  else pure (saturatingAdd 64 height 1 % interval == 0)

def prevEmaIgnoreGenesisRules : Res EmaError ℕ := do
  let next ← expect (checkedAdd 64 height 1)
  if next % interval == 0 then pure (height - interval)
  else pure (height - next % interval)

/-- The height whose average prices the block at `height`: two intervals back. -/
def blockHeightToUseForPrice : Res EmaError ℕ := do
  let firstTwo ← expect (checkedMul 64 interval 2)
  if height < firstTwo then pure 0
  else do
    let prevEmaHeight ← prevEmaIgnoreGenesisRules height interval
    prevEmaIgnoreGenesisRules prevEmaHeight interval

def previousEmaRecalculationBlockHeight : Res EmaError ℕ := do
  let firstTwo ← expect (checkedMul 64 interval 2)
  if height < firstTwo then pure (height - 1)
  else prevEmaIgnoreGenesisRules height interval

end

/-! ### The rolling snapshot -/

/-- The prices a node keeps beside a block. -/
structure EmaSnapshot where
  emaPrice2IntervalsAgo : IrysTokenPrice
  oraclePriceForCurrentEmaPredecessor : IrysTokenPrice
  emaPriceCurrentInterval : IrysTokenPrice
  emaPrice1IntervalAgo : IrysTokenPrice
  deriving DecidableEq

namespace EmaSnapshot

/-- At genesis every price is the genesis price. -/
def genesis (genesisHeader : PricedHeader) : EmaSnapshot where
  emaPrice2IntervalsAgo := genesisHeader.emaIrysPrice
  oraclePriceForCurrentEmaPredecessor := genesisHeader.oracleIrysPrice
  emaPriceCurrentInterval := genesisHeader.emaIrysPrice
  emaPrice1IntervalAgo := genesisHeader.emaIrysPrice

/-- At the first block of an interval the averages move one interval back. -/
def shifted (s : EmaSnapshot) (height interval : ℕ) : EmaSnapshot :=
  if height % interval = 0 ∧ 0 < height then
    { s with
      emaPrice2IntervalsAgo := s.emaPrice1IntervalAgo
      emaPrice1IntervalAgo := s.emaPriceCurrentInterval }
  else s

/-- At a recalculation block the header's average becomes the current one. -/
def recalculated (s : EmaSnapshot) (newBlock parentBlock : PricedHeader) : EmaSnapshot :=
  { s with
    oraclePriceForCurrentEmaPredecessor := parentBlock.oracleIrysPrice
    emaPriceCurrentInterval := newBlock.emaIrysPrice }

/-- The snapshot of a block, from its parent's. -/
def nextSnapshot (s : EmaSnapshot) (newBlock parentBlock : PricedHeader) (config : EmaConfig) :
    Res EmaError EmaSnapshot := do
  let recalculates ← isEmaRecalculationBlock newBlock.height config.priceAdjustmentInterval
  if recalculates then
    pure ((s.shifted newBlock.height config.priceAdjustmentInterval).recalculated
      newBlock parentBlock)
  else pure (s.shifted newBlock.height config.priceAdjustmentInterval)

end EmaSnapshot

/-! ### The rebuild -/

/-- The first listed block of a height. -/
def blockWithHeight (blocks : List PricedHeader) (desiredHeight : ℕ) :
    Res EmaError PricedHeader :=
  match blocks.find? fun b => b.height == desiredHeight with
  | some b => .ok b
  | none => fail (.blockNotFound desiredHeight)

/-- The last block of the interval before that of `height`; genesis in the first interval.  In
the second case the interval's number is at least 1, so the source's subtraction is exact. -/
def height1IntervalAgo (height interval : ℕ) : ℕ :=
  if height < interval then 0
  else (height / interval - 1) * interval + (interval - 1)

/-- The height of the last recalculation at or below a block. -/
def heightLatestEmaBlock (height interval : ℕ) : Res EmaError ℕ := do
  let recalculates ← isEmaRecalculationBlock height interval
  if recalculates then pure height
  else previousEmaRecalculationBlockHeight height interval

/-- The snapshot of the last listed block, read out of the listed blocks. -/
def createEmaSnapshotFromChainHistory (blocks : List PricedHeader) (config : EmaConfig) :
    Res EmaError EmaSnapshot :=
  match blocks.getLast? with
  | none => fail .noBlocks
  | some latestBlock =>
    let maxHeight := ((blocks.map fun b => b.height).max?).getD 0
    if latestBlock.height = maxHeight then do
      let interval := config.priceAdjustmentInterval
      let heightPricingBlock ← blockHeightToUseForPrice latestBlock.height interval
      let heightLatestEma ← heightLatestEmaBlock latestBlock.height interval
      let pricing ← blockWithHeight blocks heightPricingBlock
      let oneAgo ← blockWithHeight blocks (height1IntervalAgo latestBlock.height interval)
      let predecessor ← blockWithHeight blocks (heightLatestEma - 1)
      let latestEma ← blockWithHeight blocks heightLatestEma
      pure {
        emaPrice2IntervalsAgo := pricing.emaIrysPrice
        emaPrice1IntervalAgo := oneAgo.emaIrysPrice
        oraclePriceForCurrentEmaPredecessor := predecessor.oracleIrysPrice
        emaPriceCurrentInterval := latestEma.emaIrysPrice }
    else fail (.latestNotHighest latestBlock.height maxHeight)

/-- Walk to the parents until `n` more blocks are collected or genesis is reached; the oldest
comes first.  A parent missing from the database is a panic. -/
def collectParents (db : H256 → Option PricedHeader) :
    ℕ → PricedHeader → List PricedHeader → Res EmaError (List PricedHeader)
  | 0, _, chainBlocks => .ok chainBlocks
  | n + 1, currentBlock, chainBlocks =>
    if 0 < currentBlock.height then do
      let parent ← expect (db currentBlock.previousBlockHash)
      collectParents db n parent (parent :: chainBlocks)
    else .ok chainBlocks

/-- The rebuild from the database: collect three intervals, then read the snapshot out of them.
The collected list starts with the given block, so one block less than that is walked to. -/
def buildCurrentEmaSnapshotFromIndex (latestBlockFromIndex : PricedHeader)
    (db : H256 → Option PricedHeader) (config : EmaConfig) : Res EmaError EmaSnapshot := do
  let blocksToCollect ← expect (checkedMul 64 config.priceAdjustmentInterval 3)
  let chainBlocks ←
    collectParents db (blocksToCollect - 1) latestBlockFromIndex [latestBlockFromIndex]
  expectOk (createEmaSnapshotFromChainHistory chainBlocks config)

/-! ### Intervals -/

section Interval

variable {k h : ℕ}

/-- The first height of the interval of `h`. -/
def intervalStart (k h : ℕ) : ℕ := h / k * k

theorem intervalStart_le : intervalStart k h ≤ h :=
  Nat.div_mul_le_self h k

theorem lt_intervalStart_add (hk : 0 < k) : h < intervalStart k h + k := by
  rw [intervalStart, ← Nat.succ_mul, ← Nat.div_lt_iff_lt_mul hk]
  exact Nat.lt_succ_self _

theorem le_intervalStart (hk : 0 < k) {q : ℕ} (hq : q * k ≤ h) : q * k ≤ intervalStart k h :=
  Nat.mul_le_mul_right k ((Nat.le_div_iff_mul_le hk).mpr hq)

theorem intervalStart_succ_of_dvd (hd : k ∣ h + 1) :
    intervalStart k (h + 1) = h + 1 :=
  Nat.div_mul_cancel hd

theorem intervalStart_of_dvd_succ (hd : k ∣ h + 1) :
    intervalStart k h + k = h + 1 := by
  have hdiv : (h + 1) / k = h / k + 1 := by rw [Nat.succ_div, if_pos hd]
  have hcancel : (h + 1) / k * k = h + 1 := Nat.div_mul_cancel hd
  rw [hdiv, Nat.add_mul, Nat.one_mul] at hcancel
  exact hcancel

theorem intervalStart_succ_of_not_dvd (hd : ¬ k ∣ h + 1) :
    intervalStart k (h + 1) = intervalStart k h := by
  rw [intervalStart, intervalStart, Nat.succ_div, if_neg hd, Nat.add_zero]

theorem succ_mod_of_not_dvd (hd : ¬ k ∣ h + 1) :
    (h + 1) % k + intervalStart k h = h + 1 := by
  rw [← intervalStart_succ_of_not_dvd hd, intervalStart]
  exact Nat.mod_add_div' (h + 1) k

/-- The height of the last recalculation at or below `h`. -/
def latestEmaHeight (k h : ℕ) : ℕ :=
  if h < k * 2 ∨ k ∣ h + 1 then h else intervalStart k h - 1

/-- The height of the average one interval back. -/
def oneAgoHeight (k h : ℕ) : ℕ := if h < k then 0 else intervalStart k h - 1

/-- The height of the average two intervals back. -/
def twoAgoHeight (k h : ℕ) : ℕ := if h < k * 2 then 0 else intervalStart k h - k - 1

theorem isEmaRecalculationBlock_eq (hk : k * 2 < 2 ^ 64) (hh : h + 1 < 2 ^ 64) :
    isEmaRecalculationBlock h k = .ok (decide (h < k * 2 ∨ k ∣ h + 1)) := by
  have hsat : saturatingAdd 64 h 1 = h + 1 := by
    rw [saturatingAdd, min_eq_left (by omega)]
  rw [isEmaRecalculationBlock, checkedMul_of_lt hk, expect_some, ok_bind, hsat]
  by_cases hlt : h < k * 2
  · simp [hlt, pure, Except.pure]
  · have hrec : (h < k * 2 ∨ k ∣ h + 1) ↔ (h + 1) % k = 0 := by
      rw [or_iff_right hlt, Nat.dvd_iff_mod_eq_zero]
    rw [if_neg hlt, decide_eq_decide.mpr hrec, beq_eq_decide]
    rfl

theorem prevEmaIgnoreGenesisRules_eq (hh : h + 1 < 2 ^ 64) :
    prevEmaIgnoreGenesisRules h k = .ok (intervalStart k h - 1) := by
  rw [prevEmaIgnoreGenesisRules, checkedAdd_of_lt hh, expect_some, ok_bind]
  by_cases hd : k ∣ h + 1
  · have hstart := intervalStart_of_dvd_succ hd
    rw [if_pos (by simpa using Nat.mod_eq_zero_of_dvd hd), show h - k = intervalStart k h - 1 by
      omega]
    rfl
  · have hmod := succ_mod_of_not_dvd hd
    rw [if_neg (by simpa [← Nat.dvd_iff_mod_eq_zero] using hd),
      show h - (h + 1) % k = intervalStart k h - 1 by omega]
    rfl

theorem heightLatestEmaBlock_eq (hfit : k * 2 < 2 ^ 64) (hh : h + 1 < 2 ^ 64) :
    heightLatestEmaBlock h k = .ok (latestEmaHeight k h) := by
  rw [heightLatestEmaBlock, isEmaRecalculationBlock_eq hfit hh, ok_bind, latestEmaHeight]
  by_cases hrec : h < k * 2 ∨ k ∣ h + 1
  · simp [hrec, pure, Except.pure]
  · have hlt : ¬ h < k * 2 := fun hlt => hrec (.inl hlt)
    rw [if_neg (by simpa using hrec), if_neg hrec, previousEmaRecalculationBlockHeight,
      checkedMul_of_lt hfit, expect_some, ok_bind, if_neg hlt, prevEmaIgnoreGenesisRules_eq hh]

theorem blockHeightToUseForPrice_eq (hk : 0 < k) (hfit : k * 2 < 2 ^ 64) (hh : h + 1 < 2 ^ 64) :
    blockHeightToUseForPrice h k = .ok (twoAgoHeight k h) := by
  rw [blockHeightToUseForPrice, checkedMul_of_lt hfit, expect_some, ok_bind, twoAgoHeight]
  by_cases hlt : h < k * 2
  · rw [if_pos hlt, if_pos hlt]
    rfl
  · have hle : 2 * k ≤ intervalStart k h := le_intervalStart hk (by omega)
    have hsub : intervalStart k h - 1 + 1 = intervalStart k h := by omega
    have hback : k ∣ intervalStart k h - 1 + 1 := by
      rw [hsub]
      exact Dvd.intro_left (h / k) rfl
    have hstart := intervalStart_of_dvd_succ hback
    have hle' : intervalStart k h ≤ h := intervalStart_le
    rw [if_neg hlt, if_neg hlt, prevEmaIgnoreGenesisRules_eq hh, ok_bind,
      prevEmaIgnoreGenesisRules_eq (by omega)]
    congr 1
    omega

theorem height1IntervalAgo_eq (hk : 0 < k) : height1IntervalAgo h k = oneAgoHeight k h := by
  rw [height1IntervalAgo, oneAgoHeight]
  by_cases hlt : h < k
  · rw [if_pos hlt, if_pos hlt]
  · have hle : 1 * k ≤ h / k * k := le_intervalStart hk (by omega)
    rw [if_neg hlt, if_neg hlt, intervalStart, Nat.sub_mul]
    omega

theorem latestEmaHeight_le : latestEmaHeight k h ≤ h := by
  have hle : intervalStart k h ≤ h := intervalStart_le
  rw [latestEmaHeight]
  split <;> omega

theorem heights_in_window (hk : 0 < k) :
    (h + 1 - 3 * k ≤ twoAgoHeight k h ∧ twoAgoHeight k h ≤ h) ∧
    (h + 1 - 3 * k ≤ oneAgoHeight k h ∧ oneAgoHeight k h ≤ h) ∧
    h + 1 - 3 * k ≤ latestEmaHeight k h - 1 := by
  have hle : intervalStart k h ≤ h := intervalStart_le
  have hlt : h < intervalStart k h + k := lt_intervalStart_add hk
  rw [twoAgoHeight, oneAgoHeight, latestEmaHeight]
  refine ⟨?_, ?_, ?_⟩ <;> split <;> omega

/-! ### How the heights move from a block to the next -/

theorem latestEmaHeight_succ_of_keeps (hrec : ¬ (h + 1 < k * 2 ∨ k ∣ h + 1 + 1)) :
    latestEmaHeight k (h + 1) = latestEmaHeight k h := by
  rw [latestEmaHeight, if_neg hrec, latestEmaHeight]
  by_cases hd : k ∣ h + 1
  · rw [if_pos (.inr hd), intervalStart_succ_of_dvd hd]
    omega
  · by_cases hlt : h < k * 2
    · -- the step into the third interval starts it, so `h + 1` would be a multiple of `k`
      exact absurd (show k ∣ h + 1 from ⟨2, by omega⟩) hd
    · rw [if_neg (by tauto), intervalStart_succ_of_not_dvd hd]

theorem oneAgoHeight_succ_of_dvd (hd : k ∣ h + 1) : oneAgoHeight k (h + 1) = h := by
  have hle : k ≤ h + 1 := Nat.le_of_dvd (by omega) hd
  rw [oneAgoHeight, if_neg (by omega), intervalStart_succ_of_dvd hd]
  omega

theorem oneAgoHeight_succ_of_not_dvd (hd : ¬ k ∣ h + 1) :
    oneAgoHeight k (h + 1) = oneAgoHeight k h := by
  have hne : h + 1 ≠ k := fun heq => hd (heq ▸ dvd_rfl)
  rw [oneAgoHeight, oneAgoHeight, intervalStart_succ_of_not_dvd hd]
  by_cases hlt : h < k
  · rw [if_pos hlt, if_pos (by omega)]
  · rw [if_neg hlt, if_neg (by omega)]

theorem twoAgoHeight_succ_of_dvd (hk : 0 < k) (hd : k ∣ h + 1) :
    twoAgoHeight k (h + 1) = oneAgoHeight k h := by
  have hstart := intervalStart_of_dvd_succ hd
  rw [twoAgoHeight, oneAgoHeight, intervalStart_succ_of_dvd hd]
  by_cases hlt : h < k
  · rw [if_pos hlt, if_pos (by omega)]
  · have hle : 1 * k ≤ intervalStart k h := le_intervalStart hk (by omega)
    rw [if_neg hlt, if_neg (by omega)]
    omega

theorem twoAgoHeight_succ_of_not_dvd (hd : ¬ k ∣ h + 1) :
    twoAgoHeight k (h + 1) = twoAgoHeight k h := by
  have hne : h + 1 ≠ k * 2 := fun heq => hd ⟨2, heq⟩
  rw [twoAgoHeight, twoAgoHeight, intervalStart_succ_of_not_dvd hd]
  by_cases hlt : h < k * 2
  · rw [if_pos hlt, if_pos (by omega)]
  · rw [if_neg hlt, if_neg (by omega)]

end Interval

/-! ### Both snapshots in closed form -/

/-- **A chain of headers from genesis**, one for each height. -/
structure PricedChain where
  block : ℕ → PricedHeader
  height_block : ∀ h, (block h).height = h

/-- A chain whose prices rise with the height. -/
def risingChain : PricedChain where
  block h := ⟨.bare (h + 1) h h, 2 * h + 1, h + 1⟩
  height_block _ := rfl

namespace PricedChain

variable (chain : PricedChain) (config : EmaConfig)

/-- The last `n` headers that end at height `h`, oldest first. -/
def window (n h : ℕ) : List PricedHeader := (List.range' (h + 1 - n) n).map chain.block

/-- The snapshot of the block at `h`, rolled forward from the genesis snapshot. -/
def rolledSnapshot : ℕ → Res EmaError EmaSnapshot
  | 0 => .ok (EmaSnapshot.genesis (chain.block 0))
  | h + 1 => do
    let parentSnapshot ← rolledSnapshot h
    parentSnapshot.nextSnapshot (chain.block (h + 1)) (chain.block h) config

/-- The four prices at `h`, by the heights they are read from. -/
def snapshotAt (k h : ℕ) : EmaSnapshot where
  emaPrice2IntervalsAgo := (chain.block (twoAgoHeight k h)).emaIrysPrice
  oraclePriceForCurrentEmaPredecessor :=
    (chain.block (latestEmaHeight k h - 1)).oracleIrysPrice
  emaPriceCurrentInterval := (chain.block (latestEmaHeight k h)).emaIrysPrice
  emaPrice1IntervalAgo := (chain.block (oneAgoHeight k h)).emaIrysPrice

variable {k n d h : ℕ} {db : H256 → Option PricedHeader}

theorem snapshotAt_zero (hk : 0 < k) :
    chain.snapshotAt k 0 = EmaSnapshot.genesis (chain.block 0) := by
  have hlatest : latestEmaHeight k 0 = 0 := Nat.le_zero.mp latestEmaHeight_le
  simp [snapshotAt, EmaSnapshot.genesis, hlatest, twoAgoHeight, oneAgoHeight, hk]

/-- Entering the block after `h` shifts the two older averages exactly at an interval's start. -/
theorem shifted_snapshotAt (hk : 0 < k) (h : ℕ) :
    (chain.snapshotAt k h).shifted (h + 1) k =
      { chain.snapshotAt k h with
        emaPrice2IntervalsAgo := (chain.block (twoAgoHeight k (h + 1))).emaIrysPrice
        emaPrice1IntervalAgo := (chain.block (oneAgoHeight k (h + 1))).emaIrysPrice } := by
  rw [EmaSnapshot.shifted]
  by_cases hd : k ∣ h + 1
  · rw [if_pos ⟨Nat.mod_eq_zero_of_dvd hd, by omega⟩, twoAgoHeight_succ_of_dvd hk hd,
      oneAgoHeight_succ_of_dvd hd]
    simp only [snapshotAt, latestEmaHeight, if_pos (Or.inr hd)]
  · rw [if_neg (fun hcon => hd (Nat.dvd_of_mod_eq_zero hcon.1)),
      twoAgoHeight_succ_of_not_dvd hd, oneAgoHeight_succ_of_not_dvd hd]
    rfl

theorem nextSnapshot_snapshotAt (h : ℕ) (hfit : config.priceAdjustmentInterval * 2 < 2 ^ 64)
    (hh : h + 1 + 1 < 2 ^ 64) :
    (chain.snapshotAt config.priceAdjustmentInterval h).nextSnapshot
        (chain.block (h + 1)) (chain.block h) config =
      .ok (chain.snapshotAt config.priceAdjustmentInterval (h + 1)) := by
  have hk := config.interval_pos
  rw [EmaSnapshot.nextSnapshot, chain.height_block, isEmaRecalculationBlock_eq hfit hh, ok_bind,
    shifted_snapshotAt chain hk]
  by_cases hrec : h + 1 < config.priceAdjustmentInterval * 2 ∨
      config.priceAdjustmentInterval ∣ h + 1 + 1
  · rw [if_pos (by simpa using hrec)]
    simp only [EmaSnapshot.recalculated, snapshotAt, latestEmaHeight, if_pos hrec]
    rfl
  · rw [if_neg (by simpa using hrec)]
    simp only [snapshotAt, latestEmaHeight_succ_of_keeps hrec]
    rfl

/-- **The rolled snapshot in closed form**, by induction along the chain. -/
theorem rolledSnapshot_eq (h : ℕ) (hfit : config.priceAdjustmentInterval * 2 < 2 ^ 64)
    (hh : h + 1 < 2 ^ 64) :
    chain.rolledSnapshot config h =
      .ok (chain.snapshotAt config.priceAdjustmentInterval h) := by
  induction h with
  | zero => rw [rolledSnapshot, snapshotAt_zero chain config.interval_pos]
  | succ h ih =>
    rw [rolledSnapshot, ih (by omega), ok_bind, nextSnapshot_snapshotAt chain config h hfit hh]

/-! ### Reading a window -/

theorem find?_window {a : ℕ} (ha : a ≤ d) (hn : d < a + n) :
    ((List.range' a n).map chain.block).find? (fun b => b.height == d) =
      some (chain.block d) := by
  induction n generalizing a with
  | zero => omega
  | succ n ih =>
    rw [List.range'_succ, List.map_cons, List.find?_cons, chain.height_block]
    by_cases heq : a = d
    · simp [heq]
    · rw [show (a == d) = false by simpa using heq]
      exact ih (by omega) (by omega)

theorem blockWithHeight_window (hn : n ≤ h + 1) (hlow : h + 1 - n ≤ d)
    (hhigh : d ≤ h) : blockWithHeight (chain.window n h) d = .ok (chain.block d) := by
  rw [blockWithHeight, window, chain.find?_window hlow (by omega)]

theorem getLast?_window (hpos : 0 < n) (hn : n ≤ h + 1) :
    (chain.window n h).getLast? = some (chain.block h) := by
  obtain ⟨m, rfl⟩ : ∃ m, n = m + 1 := ⟨n - 1, by omega⟩
  rw [window, List.range'_1_concat, List.map_append, List.map_singleton, List.getLast?_concat,
    show h + 1 - (m + 1) + m = h by omega]

theorem maxHeight_window (hpos : 0 < n) (hn : n ≤ h + 1) :
    (((chain.window n h).map fun b => b.height).max?).getD 0 = h := by
  have heights : (chain.window n h).map (fun b => b.height) = List.range' (h + 1 - n) n := by
    rw [window, List.map_map]
    exact (List.map_congr_left fun d _ => chain.height_block d).trans (List.map_id _)
  have hmax : (List.range' (h + 1 - n) n).max? = some h := by
    simp only [List.max?_eq_some_iff, List.mem_range'_1]
    exact ⟨by omega, fun d hd => by omega⟩
  rw [heights, hmax, Option.getD_some]

/-- **The rebuilt snapshot in closed form.** -/
theorem createEmaSnapshotFromChainHistory_window (h : ℕ)
    (hfit : config.priceAdjustmentInterval * 2 < 2 ^ 64) (hh : h + 1 < 2 ^ 64) :
    createEmaSnapshotFromChainHistory
        (chain.window (min (3 * config.priceAdjustmentInterval) (h + 1)) h) config =
      .ok (chain.snapshotAt config.priceAdjustmentInterval h) := by
  have hk := config.interval_pos
  have hpos : 0 < min (3 * config.priceAdjustmentInterval) (h + 1) := by omega
  have hle : min (3 * config.priceAdjustmentInterval) (h + 1) ≤ h + 1 := min_le_right _ _
  obtain ⟨⟨htwo, htwo'⟩, ⟨hone, hone'⟩, hlatest⟩ := heights_in_window (h := h) hk
  have hlatest' : latestEmaHeight config.priceAdjustmentInterval h ≤ h := latestEmaHeight_le
  rw [createEmaSnapshotFromChainHistory, chain.getLast?_window hpos hle]
  simp only [chain.maxHeight_window hpos hle, chain.height_block, if_true]
  rw [blockHeightToUseForPrice_eq hk hfit hh, ok_bind, heightLatestEmaBlock_eq hfit hh,
    ok_bind, height1IntervalAgo_eq hk, chain.blockWithHeight_window hle (by omega) htwo', ok_bind,
    chain.blockWithHeight_window hle (by omega) hone', ok_bind,
    chain.blockWithHeight_window hle (by omega) (by omega), ok_bind,
    chain.blockWithHeight_window hle (by omega) hlatest', ok_bind]
  rfl

/-- **A rebuilt snapshot is the maintained one.**  For every price interval whose double fits the
source's `u64`, every chain and every height, the snapshot read out of the last three intervals is
the one rolled forward from genesis. -/
theorem rebuilt_snapshot_eq_rolled (h : ℕ)
    (hfit : config.priceAdjustmentInterval * 2 < 2 ^ 64) (hh : h + 1 < 2 ^ 64) :
    ∃ snapshot, chain.rolledSnapshot config h = .ok snapshot ∧
      createEmaSnapshotFromChainHistory
        (chain.window (min (3 * config.priceAdjustmentInterval) (h + 1)) h) config =
        .ok snapshot :=
  ⟨_, chain.rolledSnapshot_eq config h hfit hh,
    chain.createEmaSnapshotFromChainHistory_window config h hfit hh⟩

theorem rebuilt_snapshot_eq_rolled_ten :
    ∃ snapshot, PricedChain.rolledSnapshot risingChain ⟨10, by decide⟩ 25 = .ok snapshot ∧
      createEmaSnapshotFromChainHistory (risingChain.window (min (3 * 10) (25 + 1)) 25)
        ⟨10, by decide⟩ = .ok snapshot :=
  rebuilt_snapshot_eq_rolled risingChain ⟨10, by decide⟩ 25 (by decide) (by decide)

/-- An interval of `2 ^ 63` blocks passes the configuration check.  The rolled snapshot of genesis
exists, and the rebuild from the one header panics when it doubles the interval. -/
theorem rebuild_panics_on_huge_interval :
    PricedChain.rolledSnapshot risingChain ⟨2 ^ 63, by decide⟩ 0 =
        .ok (EmaSnapshot.genesis (risingChain.block 0)) ∧
      createEmaSnapshotFromChainHistory (risingChain.window (min (3 * 2 ^ 63) (0 + 1)) 0)
        ⟨2 ^ 63, by decide⟩ = .error .panic := by
  decide +kernel

/-! ### The walk through the index -/

/-- The database serves the parents of the blocks up to height `h`. -/
def Served (db : H256 → Option PricedHeader) (h : ℕ) : Prop :=
  ∀ d < h, db (chain.block (d + 1)).previousBlockHash = some (chain.block d)

/-- The walk from `h` collects the `n` blocks before it, or all of them. -/
theorem collectParents_eq (n h m : ℕ) (hdb : chain.Served db h) :
    collectParents db n (chain.block h) ((List.range' h m).map chain.block) =
      .ok ((List.range' (h - n) (min n h + m)).map chain.block) := by
  induction n generalizing h m with
  | zero => simp [collectParents]
  | succ n ih =>
    rw [collectParents, chain.height_block]
    cases h with
    | zero => simp
    | succ h =>
      rw [if_pos (by omega), hdb h (Nat.lt_succ_self h), expect_some, ok_bind]
      have hcons : chain.block h :: (List.range' (h + 1) m).map chain.block =
          (List.range' h (m + 1)).map chain.block := by
        rw [List.range'_succ, List.map_cons]
      rw [hcons, ih _ _ fun d hd => hdb d (by omega), show h + 1 - (n + 1) = h - n by omega,
        show min (n + 1) (h + 1) + m = min n h + (m + 1) by omega]

/-- **The rebuild after a restart**: collecting the blocks from the database and reading the
snapshot out of them succeeds, and gives the snapshot the node had rolled forward. -/
theorem buildCurrentEmaSnapshotFromIndex_eq (h : ℕ) (hdb : chain.Served db h)
    (hfit : config.priceAdjustmentInterval * 3 < 2 ^ 64) (hh : h + 1 < 2 ^ 64) :
    ∃ snapshot, chain.rolledSnapshot config h = .ok snapshot ∧
      buildCurrentEmaSnapshotFromIndex (chain.block h) db config = .ok snapshot := by
  have hk := config.interval_pos
  have hwindow : (List.range' (h - (config.priceAdjustmentInterval * 3 - 1))
      (min (config.priceAdjustmentInterval * 3 - 1) h + 1)).map chain.block =
      chain.window (min (3 * config.priceAdjustmentInterval) (h + 1)) h := by
    rw [window]
    congr 2 <;> omega
  refine ⟨_, chain.rolledSnapshot_eq config h (by omega) hh, ?_⟩
  rw [buildCurrentEmaSnapshotFromIndex, checkedMul_of_lt hfit, expect_some, ok_bind,
    show [chain.block h] = (List.range' h 1).map chain.block from rfl,
    chain.collectParents_eq _ _ _ hdb, ok_bind, hwindow,
    chain.createEmaSnapshotFromChainHistory_window config h (by omega) hh, expectOk_ok]

/-- A database of the first 25 blocks. -/
theorem rising_snapshot_rebuilt_from_index :
    ∃ snapshot, risingChain.rolledSnapshot ⟨10, by decide⟩ 25 = .ok snapshot ∧
      buildCurrentEmaSnapshotFromIndex (risingChain.block 25)
        (fun hash => if hash ≤ 25 then some (risingChain.block (hash - 1)) else none)
        ⟨10, by decide⟩ = .ok snapshot :=
  buildCurrentEmaSnapshotFromIndex_eq risingChain ⟨10, by decide⟩ 25 (fun _ hd => if_pos hd)
    (by decide) (by decide)

end PricedChain

end Irys
