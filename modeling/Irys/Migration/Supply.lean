import Irys.BlockTree.Runs
import Irys.Emission.HalvingCurve
import Irys.Migration.Stores

/-!
# The emitted supply

A node reports how much has been emitted up to the last migrated block.  The total has three parts:
a prefix that an earlier process has saved in a file, the blocks between that prefix and the first
migration of this process, which a background task adds up, and the blocks migrated since, which are
counted as they come.  A rollback of the index takes blocks out of the total.

* `SupplyNode`, `SupplyNode.step` — the node as the counter sees it: the migrations and rollbacks of
  `Migration.Service`, the steps of the background task, and restarts;
* `Accounts.migrate`, `Accounts.recover`, `Accounts.backfill`, `Accounts.restart` — the steps;
* `supply_exact_within_boundaries` — every run whose rollbacks keep above the part that is not
  counted live reports the exact total and refuses no migration.
-/

namespace Irys

open List Mut

/-! ### The node as the counter sees it -/

/-- `full_block_reward`: the part of the curve between two block times. -/
def fullBlockReward (curve : HalvingCurve) (blockTimeSecs parentHeight : ℕ) :
    Res MigrationError ℕ :=
  mapErr (fun _ => .rewardCurve (parentHeight + 1))
    (curve.rewardBetween (parentHeight * blockTimeSecs)
      (parentHeight * blockTimeSecs + blockTimeSecs))

/-- `PersistedSupplyState`, as far as a start reads it. -/
structure PersistedSupplyState where
  backfillHeight : Option ℕ
  backfillValue : ℕ
  deriving DecidableEq

/-- Where the task of `do_backfill` stands. -/
inductive Backfill where
  /-- It waits for the first migration. -/
  | waiting
  /-- It is about to read the batch from `height` on. -/
  | running (height backfillEnd historicalSum : ℕ)
  | finished
  | failed
  deriving DecidableEq

/-- **The node as the counter sees it.**  The stores hold the counter; the rest of `SupplyState` is
the value loaded from the file and whether the total is ready. -/
structure SupplyNode where
  stores : NodeStores
  persistedBackfillValue : ℕ
  ready : Bool
  file : PersistedSupplyState
  backfill : Backfill

/-- What happens to it. -/
inductive SupplyEvent where
  | migrate (block : IrysBlockHeader)
  | recover (forkParentHeight : ℕ)
  | backfill
  | restart
  deriving DecidableEq

def getBlockEmissionsBatch (emission : ℕ → Res MigrationError ℕ) (s : NodeStores)
    (startHeight endHeight : ℕ) : Res MigrationError (List ℕ) :=
  (List.range' startHeight (endHeight - startHeight + 1)).mapM fun height => do
    let header ← markerFromIndexHeight s height
    emission header.height

namespace SupplyNode

/-- The first start, with genesis in the index and no file. -/
def start (genesis : IrysBlockHeader) : SupplyNode where
  stores := .start genesis (some (.new none))
  persistedBackfillValue := 0
  ready := false
  file := ⟨none, 0⟩
  backfill := .waiting

/-- `add_historical_sum_and_mark_ready`: the new prefix goes to the file and into the total. -/
def addHistoricalSumAndMarkReady (node : SupplyNode) (supply : SupplyState)
    (historicalSum : ℕ) : SupplyNode :=
  if node.ready then node
  else
    let newBackfillValue := saturatingAdd 256 node.persistedBackfillValue historicalSum
    { node with
      file := ⟨supply.firstMigrationHeight.bind fun h => checkedSub h 1, newBackfillValue⟩
      stores := { node.stores with
        supplyState := some { supply with
          cumulativeEmitted := saturatingAdd 256 supply.cumulativeEmitted newBackfillValue } }
      ready := true }

/-- `do_backfill` up to its loop. -/
def beginBackfill (node : SupplyNode) (supply : SupplyState) : SupplyNode :=
  match supply.firstMigrationHeight with
  | none => node
  | some firstMigrationHeight =>
    if supply.persistedBackfillHeight.any (firstMigrationHeight ≤ ·) then
      { node with backfill := .failed }
    else
      let backfillStart := (supply.persistedBackfillHeight.map (· + 1)).getD 0
      let backfillEnd := firstMigrationHeight - 1
      if backfillEnd < backfillStart ∨ firstMigrationHeight = 0 then
        { node.addHistoricalSumAndMarkReady supply 0 with backfill := .finished }
      else { node with backfill := .running backfillStart backfillEnd 0 }

/-- **A step of `do_backfill`**: up to the loop, one batch of it, or what follows it.  Between two
steps the node may do anything else. -/
def backfillStep (emission : ℕ → Res MigrationError ℕ) (node : SupplyNode) (supply : SupplyState) :
    SupplyNode :=
  match node.backfill with
  | .waiting => node.beginBackfill supply
  | .running height backfillEnd historicalSum =>
    if height ≤ backfillEnd then
      let batchEnd := min (height + (1000 - 1)) backfillEnd
      match getBlockEmissionsBatch emission node.stores height batchEnd with
      | .error _ => { node with backfill := .failed }
      | .ok batch =>
        { node with
          backfill := .running (batchEnd + 1) backfillEnd
            (batch.foldl (saturatingAdd 256) historicalSum) }
    else
      { node.addHistoricalSumAndMarkReady supply historicalSum with backfill := .finished }
  | .finished => node
  | .failed => node

/-- A restart: the counter starts again from its file. -/
def restart (node : SupplyNode) : SupplyNode :=
  { node with
    stores := { node.stores with
      supplyState := node.stores.supplyState.map fun _ => .new node.file.backfillHeight }
    persistedBackfillValue := node.file.backfillValue
    ready := false
    backfill := .waiting }

/-- A call of the migration service, and the node it leaves. -/
def call (node : SupplyNode) (service : Mut NodeStores MigrationError Unit) :
    Res MigrationError SupplyNode :=
  match service.run node.stores with
  | (.ok (), stores) => .ok { node with stores := stores }
  | (.error e, _) => .error e

section

variable (config : ConsensusConfig) (emission : ℕ → Res MigrationError ℕ) (node : SupplyNode)

/-- **One step of the node.** -/
def step :
    SupplyEvent → Res MigrationError SupplyNode
  | .migrate block => node.call (migrateBlock emission block)
  | .recover forkParentHeight =>
    node.call (recoverFromNetworkPartition config emission forkParentHeight)
  | .backfill =>
    match node.stores.supplyState with
    | none => .ok node
    | some supply => .ok (node.backfillStep emission supply)
  | .restart => .ok node.restart

def run
    (events : List SupplyEvent) : Res MigrationError SupplyNode :=
  events.foldlM (step config emission) node

end

/-- **What can happen.**  A block migrates in height order, onto the last migrated one, and a hash
stands for one block; no recovery goes below the finalized height. -/
def Admits (config : ConsensusConfig) (node : SupplyNode) : SupplyEvent → Prop
  | .migrate block =>
    block.height = node.stores.latestHeight + 1 ∧
      node.stores.index.getLast? = some block.previousBlockHash ∧
      ∀ old ∈ node.stores.headers[block.blockHash]?, old = block
  | .recover forkParentHeight =>
    finalizedHeight node.stores.latestHeight config.blockTreeDepth config.blockMigrationDepth ≤
      forkParentHeight
  | .backfill => True
  | .restart => True

/-- **Within the boundaries.**  Until the total is ready, a recovery stays above the part that the
background task has to add, and a restart finds the index not below the saved prefix. -/
def WithinBoundaries (node : SupplyNode) : SupplyEvent → Prop
  | .migrate _ => True
  | .recover forkParentHeight =>
    forkParentHeight < node.stores.latestHeight → node.ready = false →
      ∀ supply ∈ node.stores.supplyState,
        (∀ first ∈ supply.firstMigrationHeight, first ≤ forkParentHeight + 1) ∧
        (supply.firstMigrationHeight = none →
          ∀ persisted ∈ supply.persistedBackfillHeight, persisted ≤ forkParentHeight)
  | .backfill => True
  | .restart => ∀ persisted ∈ node.file.backfillHeight, persisted ≤ node.stores.latestHeight

/-- A property of every step of a run. -/
abbrev Along (config : ConsensusConfig) (emission : ℕ → Res MigrationError ℕ)
    (P : SupplyNode → SupplyEvent → Prop) : SupplyNode → List SupplyEvent → Prop :=
  Irys.Along (fun node event => (node.step config emission event).toOption) P

end SupplyNode

/-! ### Sums of emissions -/

/-- What the blocks below height `n` have emitted. -/
def emittedBelow (e : ℕ → ℕ) (n : ℕ) : ℕ := ∑ h ∈ Finset.range n, e h

/-- **The amounts of a curve**: every height has one, and all of them together fit a word. -/
structure Emits (emission : ℕ → Res MigrationError ℕ) (e : ℕ → ℕ) : Prop where
  amount : ∀ h, emission h = .ok (e h)
  bounded : ∀ n, emittedBelow e n < 2 ^ 256

section Sums

variable {emission : ℕ → Res MigrationError ℕ} {e : ℕ → ℕ}

theorem emittedBelow_succ (e : ℕ → ℕ) (n : ℕ) :
    emittedBelow e (n + 1) = emittedBelow e n + e n := Finset.sum_range_succ e n

theorem emittedBelow_mono (e : ℕ → ℕ) : Monotone (emittedBelow e) :=
  monotone_nat_of_le_succ fun n => by
    rw [emittedBelow_succ]
    exact Nat.le_add_right _ _

theorem Emits.saturatingAdd_eq (he : Emits emission e) {a b n : ℕ} (h : a + b ≤ emittedBelow e n) :
    saturatingAdd 256 a b = a + b := by
  have := he.bounded n
  rw [saturatingAdd]
  omega

/-- **Adding up a range of heights** to a sum that goes up to it. -/
theorem Emits.foldl_saturatingAdd (he : Emits emission e) (start n : ℕ) {sum low : ℕ}
    (h : sum + low = emittedBelow e start) :
    ((List.range' start n).map e).foldl (saturatingAdd 256) sum + low =
      emittedBelow e (start + n) := by
  induction n generalizing start sum with
  | zero => exact h
  | succ n ih =>
    have hnext := emittedBelow_succ e start
    rw [range'_succ, map_cons, foldl_cons,
      he.saturatingAdd_eq (show sum + e start ≤ emittedBelow e (start + 1) by omega),
      ih (start + 1) (show sum + e start + low = emittedBelow e (start + 1) by omega),
      show start + 1 + n = start + (n + 1) from by omega]

/-- **The halving curve has such amounts.** -/
theorem HalvingCurve.emits {curve : HalvingCurve}
    (hcap : curve.inflationCap * tokenScale < 2 ^ 256) (hpos : 1 ≤ curve.halfLifeSecs)
    (hlife : curve.halfLifeSecs ≤ 10 ^ 15) (blockTimeSecs : ℕ) :
    ∃ e, Emits (blockEmission (fullBlockReward curve blockTimeSecs)) e := by
  have htotal : ∀ n, emittedBelow (fun h => curve.emittedAt (h * blockTimeSecs) -
      curve.emittedAt ((h - 1) * blockTimeSecs)) n ≤ curve.emittedAt ((n - 1) * blockTimeSecs) := by
    intro n
    induction n with
    | zero => exact Nat.zero_le _
    | succ n ih =>
      have hmono := curve.emittedAt_mono hpos hlife
        (Nat.mul_le_mul_right blockTimeSecs (Nat.sub_le n 1))
      rw [emittedBelow_succ, Nat.add_sub_cancel]
      omega
  refine ⟨_, ⟨?_, fun n => lt_of_le_of_lt (htotal n) ?_⟩⟩
  · intro h
    cases h with
    | zero => rw [blockEmission, Nat.zero_sub, Nat.sub_self]
    | succ h =>
      rw [blockEmission, fullBlockReward, rewardBetween_eq hcap hpos hlife (Nat.le_add_right _ _),
        mapErr_ok, Nat.add_sub_cancel, ← Nat.succ_mul]
  · refine lt_of_le_of_lt (curve.emittedAt_le _) (lt_of_le_of_lt ?_ hcap)
    exact Nat.le_mul_of_pos_right _ (by decide)

end Sums

/-! ### The stores -/

/-- **The index holds blocks by height.** -/
structure IndexedByHeight (s : NodeStores) : Prop where
  nonempty : s.index ≠ []
  stored : ∀ i hash, s.index[i]? = some hash →
    ∃ header : IrysBlockHeader, s.headers[hash]? = some header ∧ header.height = i

namespace IndexedByHeight

variable {s : NodeStores} {emission : ℕ → Res MigrationError ℕ} {e : ℕ → ℕ} {i : ℕ}

section

variable (h : IndexedByHeight s)
include h

theorem length : s.index.length = s.latestHeight + 1 := by
  have := length_pos_iff.mpr h.nonempty
  rw [NodeStores.latestHeight]
  omega

theorem exists_at (hi : i ≤ s.latestHeight) : ∃ hash, s.index[i]? = some hash := by
  have := h.length
  exact Irys.exists_at (by omega)

theorem read (hi : i ≤ s.latestHeight) :
    ∃ header, markerFromIndexHeight s i = .ok header ∧ header.height = i := by
  obtain ⟨hash, hat⟩ := h.exists_at hi
  obtain ⟨header, hheader, hheight⟩ := h.stored i hash hat
  refine ⟨header, ?_, hheight⟩
  rw [markerFromIndexHeight, hat]
  dsimp only
  rw [loadHeaderFromDb, hheader]

theorem batch (he : Emits emission e) {start stop : ℕ} (hstop : stop ≤ s.latestHeight)
    (hle : start ≤ stop) :
    getBlockEmissionsBatch emission s start stop =
      .ok ((List.range' start (stop - start + 1)).map e) := by
  apply mapM_eq_ok_map
  intro height hmem
  rw [mem_range'_1] at hmem
  obtain ⟨header, hread, hheight⟩ := h.read (show height ≤ s.latestHeight by omega)
  rw [hread, ok_bind, hheight, he.amount]

theorem rollback (he : Emits emission e) {fork : ℕ} :
    (List.range' (fork + 1) (s.latestHeight - fork)).mapM (rollbackInfo emission s) =
      .ok ((List.range' (fork + 1) (s.latestHeight - fork)).map e) := by
  apply mapM_eq_ok_map
  intro height hmem
  rw [mem_range'_1] at hmem
  obtain ⟨hash, hat⟩ := h.exists_at (show height ≤ s.latestHeight by omega)
  obtain ⟨prev, hprev⟩ := h.exists_at (show height - 1 ≤ s.latestHeight by omega)
  obtain ⟨header, hheader, -⟩ := h.stored height hash hat
  rw [rollbackInfo, hat, hprev]
  dsimp only
  rw [loadHeaderFromDb, hheader]
  exact he.amount height

end

end IndexedByHeight

section Calls

variable {s : NodeStores} {emission : ℕ → Res MigrationError ℕ} {e : ℕ → ℕ}
  {block : IrysBlockHeader} {supply supply' : SupplyState}

theorem getElem?_concat_eq_some {l : List H256} {a b : H256} {i : ℕ} :
    (l ++ [a])[i]? = some b ↔ l[i]? = some b ∨ i = l.length ∧ a = b := by
  rw [getElem?_append]
  split_ifs with hi
  · simp [hi.ne]
  · rw [getElem?_singleton, getElem?_eq_none (not_lt.mp hi)]
    simp only [Option.ite_none_right_eq_some, Option.some.injEq, reduceCtorEq, false_or]
    exact and_congr_left fun _ => by omega

/-- The index and the headers with a block on top. -/
def NodeStores.append (s : NodeStores) (block : IrysBlockHeader) (supply : SupplyState) :
    NodeStores :=
  ⟨s.index ++ [block.blockHash], s.headers.insert block.blockHash block, some supply⟩

theorem migrateBlock_run (h : IndexedByHeight s) (he : Emits emission e)
    (hsupply : s.supplyState = some supply) (hheight : block.height = s.latestHeight + 1)
    (hprev : s.index.getLast? = some block.previousBlockHash)
    (hadd : supply.addBlockReward block.height (e block.height) = .ok supply') :
    (migrateBlock emission block).run s = (.ok (), s.append block supply') := by
  rw [migrateBlock, run_bind_of_ok (persistBlock_run (hheight.trans h.length.symm) hprev),
    countReward, run_read_bind]
  dsimp only
  rw [hsupply, he.amount, run_lift_ok_bind, hadd, run_lift_ok_bind]
  rfl

theorem IndexedByHeight.append (h : IndexedByHeight s) (hheight : block.height = s.latestHeight + 1)
    (hnew : ∀ old ∈ s.headers[block.blockHash]?, old = block) (supply : SupplyState) :
    IndexedByHeight (s.append block supply) ∧
      (s.append block supply).latestHeight = s.latestHeight + 1 := by
  have hlen := h.length
  refine ⟨⟨append_ne_nil_of_left_ne_nil h.nonempty _, ?_⟩, ?_⟩
  · intro i hash hat
    show ∃ header, (s.headers.insert block.blockHash block)[hash]? = some header ∧ _
    rw [Std.TreeMap.getElem?_insert]
    simp only [Nat.compare_eq_eq]
    rcases getElem?_concat_eq_some.mp hat with hold | ⟨rfl, hself⟩
    · obtain ⟨header, hheader, hat'⟩ := h.stored i hash hold
      by_cases heq : block.blockHash = hash
      · rw [if_pos heq]
        rw [heq] at hnew
        exact ⟨block, rfl, by rw [← hnew header hheader, hat']⟩
      · rw [if_neg heq]
        exact ⟨header, hheader, hat'⟩
    · rw [if_pos hself, hlen]
      exact ⟨block, rfl, hheight⟩
  · show (s.index ++ [block.blockHash]).length - 1 = _
    rw [length_append, length_singleton, hlen]
    rfl

/-- The index cut above a height. -/
def NodeStores.cut (s : NodeStores) (fork : ℕ) (supply : SupplyState) : NodeStores :=
  { s with index := s.index.take (fork + 1), supplyState := some supply }

/-- A rollback within the finality window takes the emissions above the fork out of the total. -/
theorem recover_run (config : ConsensusConfig) (h : IndexedByHeight s) (he : Emits emission e)
    (hsupply : s.supplyState = some supply) {fork : ℕ}
    (hfinal : finalizedHeight s.latestHeight config.blockTreeDepth config.blockMigrationDepth ≤
      fork) (hbelow : fork < s.latestHeight) :
    ∃ sum, sum + emittedBelow e (fork + 1) = emittedBelow e (s.latestHeight + 1) ∧
      (recoverFromNetworkPartition config emission fork).run s =
        (.ok (), s.cut fork (supply.rollbackReward fork sum)) := by
  refine ⟨((List.range' (fork + 1) (s.latestHeight - fork)).map e).foldl (saturatingAdd 256) 0,
    ?_, ?_⟩
  · rw [he.foldl_saturatingAdd (fork + 1) _ (Nat.zero_add _)]
    congr 1
    omega
  · have hempty : s.index.isEmpty = false := isEmpty_eq_false_iff.mpr h.nonempty
    rw [recoverFromNetworkPartition, run_read_bind, hempty]
    simp only [Bool.false_eq_true, false_or]
    rw [if_neg (Nat.not_le.mpr hbelow), if_neg (Nat.not_lt.mpr hfinal), h.rollback he,
      run_lift_ok_bind]
    show (Except.ok (), _) = _
    dsimp only
    rw [hsupply]
    rfl

theorem recover_run_above (config : ConsensusConfig) {fork : ℕ} (habove : s.latestHeight ≤ fork) :
    (recoverFromNetworkPartition config emission fork).run s = (.ok (), s) := by
  rw [recoverFromNetworkPartition, run_read_bind, if_pos (.inr habove)]
  rfl

theorem IndexedByHeight.cut (h : IndexedByHeight s) {fork : ℕ} (hbelow : fork < s.latestHeight)
    (supply : SupplyState) :
    IndexedByHeight (s.cut fork supply) ∧ (s.cut fork supply).latestHeight = fork := by
  have hlen := h.length
  have htake : (s.index.take (fork + 1)).length = fork + 1 := by
    rw [length_take]
    omega
  refine ⟨⟨length_pos_iff.mp (show 0 < (s.index.take (fork + 1)).length by omega), ?_⟩, ?_⟩
  · intro i hash hat
    have hat : (s.index.take (fork + 1))[i]? = some hash := hat
    rw [getElem?_take] at hat
    split at hat
    · exact h.stored i hash hat
    · cases hat
  · show (s.index.take (fork + 1)).length - 1 = fork
    omega

end Calls

/-! ### What each part of the total stands for -/

/-- The number of heights in a saved prefix. -/
def prefixLength : Option ℕ → ℕ
  | none => 0
  | some height => height + 1

/-- **The counter**, with the index at height `top`.  Nothing is counted before the first migration;
from then on the blocks since are, and once the total is ready, all of them. -/
structure Counts (e : ℕ → ℕ) (supply : SupplyState) (ready : Bool) (top : ℕ) : Prop where
  height : supply.firstMigrationHeight.isSome → supply.height = top
  before : supply.firstMigrationHeight = none →
    supply.cumulativeEmitted = 0 ∧ ready = false ∧
      prefixLength supply.persistedBackfillHeight ≤ top + 1
  live : ∀ first, supply.firstMigrationHeight = some first → ready = false →
    0 < first ∧ prefixLength supply.persistedBackfillHeight ≤ first ∧ first ≤ top + 1 ∧
      supply.cumulativeEmitted + emittedBelow e first = emittedBelow e (top + 1)
  total : ready = true → supply.cumulativeEmitted = emittedBelow e (top + 1)

/-- **The background task**: its sum goes from the saved prefix up to the next height to read. -/
def Progresses (e : ℕ → ℕ) (supply : SupplyState) (ready : Bool) : Backfill → Prop
  | .waiting => ready = false
  | .running height backfillEnd historicalSum =>
    ready = false ∧ supply.firstMigrationHeight = some (backfillEnd + 1) ∧
      height ≤ backfillEnd + 1 ∧
      historicalSum + emittedBelow e (prefixLength supply.persistedBackfillHeight) =
        emittedBelow e height
  | .finished => ready = true
  | .failed => ready = false

/-- **The accounts of a node.** -/
structure Accounts (e : ℕ → ℕ) (node : SupplyNode) (supply : SupplyState) : Prop where
  held : node.stores.supplyState = some supply
  indexed : IndexedByHeight node.stores
  saved : node.file.backfillValue = emittedBelow e (prefixLength node.file.backfillHeight)
  loaded : node.persistedBackfillValue =
    emittedBelow e (prefixLength supply.persistedBackfillHeight)
  counts : Counts e supply node.ready node.stores.latestHeight
  progresses : Progresses e supply node.ready node.backfill

section Steps

variable {config : ConsensusConfig} {emission : ℕ → Res MigrationError ℕ} {e : ℕ → ℕ}
  {node : SupplyNode} {supply : SupplyState} {top : ℕ} {ready : Bool}

theorem prefixLength_le_iff {saved : Option ℕ} {n : ℕ} :
    prefixLength saved ≤ n + 1 ↔ ∀ height ∈ saved, height ≤ n := by
  cases saved with
  | none => simp [prefixLength]
  | some height => simp [prefixLength]

theorem addBlockReward_first {height : ℕ} (amount : ℕ)
    (hfirst : supply.firstMigrationHeight = none)
    (habove : ∀ persisted ∈ supply.persistedBackfillHeight, persisted < height) :
    supply.addBlockReward height amount = .ok { supply with
      height := height
      cumulativeEmitted := saturatingAdd 256 supply.cumulativeEmitted amount
      firstMigrationHeight := some height } := by
  obtain ⟨_, _, _, persisted⟩ := supply
  cases hfirst
  cases persisted with
  | none => rfl
  | some persisted => exact if_neg (Nat.not_le.mpr (habove persisted rfl))

/-- A counter that has just started. -/
theorem counts_new {saved : Option ℕ} (hsaved : prefixLength saved ≤ top + 1) :
    Counts e (.new saved) false top where
  height := nofun
  before _ := ⟨rfl, rfl, hsaved⟩
  live := nofun
  total := nofun

/-- **The counter takes the next block.** -/
theorem Counts.add (hc : Counts e supply ready top) (he : Emits emission e) :
    ∃ supply', supply.addBlockReward (top + 1) (e (top + 1)) = .ok supply' ∧
      supply'.persistedBackfillHeight = supply.persistedBackfillHeight ∧
      (∀ first ∈ supply.firstMigrationHeight, supply'.firstMigrationHeight = some first) ∧
      Counts e supply' ready (top + 1) := by
  have hnext := emittedBelow_succ e (top + 1)
  cases hfirst : supply.firstMigrationHeight with
  | none =>
    obtain ⟨hzero, hready, hsaved⟩ := hc.before hfirst
    have hsum : saturatingAdd 256 supply.cumulativeEmitted (e (top + 1)) = e (top + 1) := by
      rw [hzero, he.saturatingAdd_eq (n := top + 1 + 1) (by omega), Nat.zero_add]
    have habove : ∀ persisted ∈ supply.persistedBackfillHeight, persisted < top + 1 :=
      fun persisted hmem => Nat.lt_succ_of_le (prefixLength_le_iff.mp hsaved persisted hmem)
    rw [addBlockReward_first _ hfirst habove]
    refine ⟨_, rfl, rfl, fun _ h => absurd h (by simp), fun _ => rfl, ?_, ?_, ?_⟩
    · intro hnone
      cases hnone
    · intro first hsome _
      cases hsome
      refine ⟨Nat.succ_pos top, hsaved, Nat.le_succ _, ?_⟩
      show saturatingAdd 256 _ _ + _ = _
      omega
    · intro htrue
      rw [hready] at htrue
      cases htrue
  | some first =>
    have hheight := hc.height (by rw [hfirst]; rfl)
    have hbound : supply.cumulativeEmitted + e (top + 1) ≤ emittedBelow e (top + 1 + 1) := by
      cases hready : ready with
      | false =>
        obtain ⟨-, -, -, hlive⟩ := hc.live first hfirst hready
        omega
      | true =>
        have := hc.total hready
        omega
    have hsum := he.saturatingAdd_eq hbound
    rw [SupplyState.addBlockReward, hfirst]
    dsimp only
    rw [hheight, if_neg (not_not_intro rfl)]
    refine ⟨_, rfl, rfl, fun _ h => h, fun _ => rfl, ?_, ?_, ?_⟩
    · intro hnone
      cases hnone
    · intro first' hsome hready
      cases hsome
      obtain ⟨hpos, hsaved, hle, hlive⟩ := hc.live first hfirst hready
      refine ⟨hpos, hsaved, by omega, ?_⟩
      show saturatingAdd 256 _ _ + _ = _
      omega
    · intro hready
      have htotal := hc.total hready
      show saturatingAdd 256 _ _ = _
      omega

/-- **A rollback within the boundaries** takes out what is in the total. -/
theorem Counts.rollback (hc : Counts e supply ready top) {fork sum : ℕ}
    (hsum : sum + emittedBelow e (fork + 1) = emittedBelow e (top + 1))
    (hlive : ready = false → ∀ first ∈ supply.firstMigrationHeight, first ≤ fork + 1)
    (hbefore : supply.firstMigrationHeight = none →
      prefixLength supply.persistedBackfillHeight ≤ fork + 1) :
    Counts e (supply.rollbackReward fork sum) ready fork where
  height _ := rfl
  before hnone := by
    obtain ⟨hzero, hready, -⟩ := hc.before hnone
    refine ⟨?_, hready, hbefore hnone⟩
    show supply.cumulativeEmitted - sum = 0
    omega
  live first hfirst hready := by
    obtain ⟨hpos, hsaved, -, hcum⟩ := hc.live first hfirst hready
    have hle := hlive hready first hfirst
    have hmono := emittedBelow_mono e hle
    refine ⟨hpos, hsaved, hle, ?_⟩
    show supply.cumulativeEmitted - sum + _ = _
    omega
  total hready := by
    have htotal := hc.total hready
    show supply.cumulativeEmitted - sum = _
    omega

theorem Progresses.congr {supply' : SupplyState} {backfill : Backfill}
    (h : Progresses e supply ready backfill)
    (hpersisted : supply'.persistedBackfillHeight = supply.persistedBackfillHeight)
    (hfirst : ∀ first ∈ supply.firstMigrationHeight, supply'.firstMigrationHeight = some first) :
    Progresses e supply' ready backfill := by
  cases backfill with
  | waiting => exact h
  | running height backfillEnd historicalSum =>
    obtain ⟨hready, hsome, hle, hsum⟩ := h
    exact ⟨hready, hfirst _ hsome, hle, by rw [hpersisted]; exact hsum⟩
  | finished => exact h
  | failed => exact h

section

variable (ha : Accounts e node supply)
include ha

section

variable (he : Emits emission e)
include he

theorem Accounts.migrate {block : IrysBlockHeader}
    (hadmits : node.Admits config (.migrate block)) :
    ∃ node' supply', node.step config emission (.migrate block) = .ok node' ∧
      Accounts e node' supply' := by
  obtain ⟨hheight, hprev, hnew⟩ := hadmits
  obtain ⟨supply', hadd, hpersisted, hfirst, hcounts⟩ := ha.counts.add he
  rw [← hheight] at hadd
  obtain ⟨hindexed, htop⟩ := ha.indexed.append hheight hnew supply'
  have hrun := migrateBlock_run ha.indexed he ha.held hheight hprev hadd
  refine ⟨{ node with stores := node.stores.append block supply' }, supply', ?_,
    ⟨rfl, hindexed, ha.saved, ?_, ?_, ?_⟩⟩
  · rw [SupplyNode.step, SupplyNode.call, hrun]
  · rw [hpersisted]
    exact ha.loaded
  · show Counts e supply' node.ready (node.stores.append block supply').latestHeight
    rw [htop]
    exact hcounts
  · exact ha.progresses.congr hpersisted hfirst

theorem Accounts.recover {fork : ℕ}
    (hadmits : node.Admits config (.recover fork))
    (hwithin : node.WithinBoundaries (.recover fork)) :
    ∃ node' supply', node.step config emission (.recover fork) = .ok node' ∧
      Accounts e node' supply' := by
  rcases Nat.lt_or_ge fork node.stores.latestHeight with hbelow | habove
  · obtain ⟨sum, hsum, hrun⟩ := recover_run config ha.indexed he ha.held hadmits hbelow
    obtain ⟨hindexed, htop⟩ := ha.indexed.cut hbelow (supply.rollbackReward fork sum)
    have hcounts : Counts e (supply.rollbackReward fork sum) node.ready fork := by
      apply ha.counts.rollback hsum
      · intro hready
        exact (hwithin hbelow hready supply ha.held).1
      · intro hnone
        have hready := (ha.counts.before hnone).2.1
        exact prefixLength_le_iff.mpr ((hwithin hbelow hready supply ha.held).2 hnone)
    refine ⟨{ node with stores := node.stores.cut fork (supply.rollbackReward fork sum) },
      supply.rollbackReward fork sum, ?_, ⟨rfl, hindexed, ha.saved, ha.loaded, ?_, ha.progresses⟩⟩
    · rw [SupplyNode.step, SupplyNode.call, hrun]
    · show Counts e _ node.ready (node.stores.cut fork _).latestHeight
      rw [htop]
      exact hcounts
  · refine ⟨node, supply, ?_, ha⟩
    rw [SupplyNode.step, SupplyNode.call, recover_run_above config habove]

/-- **The prefix completes the total**, when the sum reaches from the saved prefix to the first
migration. -/
theorem Accounts.markReady (hready : node.ready = false)
    {first historicalSum : ℕ} (hfirst : supply.firstMigrationHeight = some first)
    (hsum : historicalSum + emittedBelow e (prefixLength supply.persistedBackfillHeight) =
      emittedBelow e first) :
    ∃ supply', Accounts e { node.addHistoricalSumAndMarkReady supply historicalSum with
      backfill := .finished } supply' := by
  obtain ⟨hpos, hsaved, hle, hlive⟩ := ha.counts.live first hfirst hready
  have hvalue : saturatingAdd 256 node.persistedBackfillValue historicalSum =
      emittedBelow e first := by
    have hloaded := ha.loaded
    rw [he.saturatingAdd_eq (n := first) (by omega)]
    omega
  have htotal : saturatingAdd 256 supply.cumulativeEmitted (emittedBelow e first) =
      emittedBelow e (node.stores.latestHeight + 1) := by
    rw [he.saturatingAdd_eq (n := node.stores.latestHeight + 1) (by omega), hlive]
  rw [SupplyNode.addHistoricalSumAndMarkReady, hready, hvalue]
  refine ⟨_, ⟨rfl, ⟨ha.indexed.nonempty, ha.indexed.stored⟩, ?_, ha.loaded, ?_, rfl⟩⟩
  · show emittedBelow e first = emittedBelow e
      (prefixLength (supply.firstMigrationHeight.bind fun h => checkedSub h 1))
    rw [hfirst, Option.bind_some, checkedSub_of_le hpos, prefixLength, Nat.sub_add_cancel hpos]
  · refine ⟨ha.counts.height, ?_, ?_, fun _ => htotal⟩
    · intro hnone
      have hnone : supply.firstMigrationHeight = none := hnone
      rw [hfirst] at hnone
      cases hnone
    · intro _ _ hfalse
      cases hfalse

theorem Accounts.backfill :
    ∃ supply', Accounts e (node.backfillStep emission supply) supply' := by
  have hprogress := ha.progresses
  rw [SupplyNode.backfillStep]
  cases hbackfill : node.backfill with
  | waiting =>
    rw [hbackfill] at hprogress
    have hready : node.ready = false := hprogress
    dsimp only
    rw [SupplyNode.beginBackfill]
    cases hfirst : supply.firstMigrationHeight with
    | none => exact ⟨supply, ha⟩
    | some first =>
      obtain ⟨hpos, hsaved, -, -⟩ := ha.counts.live first hfirst hready
      have hahead : supply.persistedBackfillHeight.any (first ≤ ·) = false := by
        cases hpersisted : supply.persistedBackfillHeight with
        | none => rfl
        | some persisted =>
          rw [hpersisted] at hsaved
          exact decide_eq_false (Nat.not_le.mpr hsaved)
      have hstart : (supply.persistedBackfillHeight.map (· + 1)).getD 0 =
          prefixLength supply.persistedBackfillHeight := by
        cases supply.persistedBackfillHeight <;> rfl
      dsimp only
      rw [hahead, hstart, if_neg Bool.false_ne_true]
      split
      · next hdone =>
          -- the prefix reaches the first migration already
          apply ha.markReady he hready hfirst
          rw [Nat.zero_add]
          congr 1
          omega
      · next hmore =>
          refine ⟨supply, ⟨ha.held, ha.indexed, ha.saved, ha.loaded, ha.counts, hready, ?_, ?_,
            Nat.zero_add _⟩⟩
          · rw [hfirst, Nat.sub_add_cancel hpos]
          · omega
  | running height backfillEnd historicalSum =>
    rw [hbackfill] at hprogress
    obtain ⟨hready, hfirst, hle, hsum⟩ := hprogress
    obtain ⟨-, -, htop, -⟩ := ha.counts.live _ hfirst hready
    dsimp only
    split
    · next hmore =>
        rw [ha.indexed.batch he (show min (height + (1000 - 1)) backfillEnd ≤ _ by omega)
          (by omega)]
        refine ⟨supply, ⟨ha.held, ha.indexed, ha.saved, ha.loaded, ha.counts, hready, hfirst, ?_,
          ?_⟩⟩
        · omega
        · rw [he.foldl_saturatingAdd height _ hsum]
          congr 1
          omega
    · next hdone =>
        apply ha.markReady he hready hfirst
        rw [hsum]
        congr 1
        omega
  | finished => exact ⟨supply, ha⟩
  | failed => exact ⟨supply, ha⟩

end

theorem Accounts.restart (hwithin : node.WithinBoundaries .restart) :
    Accounts e node.restart (.new node.file.backfillHeight) := by
  refine ⟨?_, ⟨ha.indexed.nonempty, ha.indexed.stored⟩, ha.saved, ha.saved,
    counts_new (prefixLength_le_iff.mpr hwithin), rfl⟩
  show node.stores.supplyState.map _ = _
  rw [ha.held]
  rfl

/-- **One step of the node** within the boundaries. -/
theorem Accounts.step (he : Emits emission e) {event : SupplyEvent}
    (hadmits : node.Admits config event) (hwithin : node.WithinBoundaries event) :
    ∃ node' supply', node.step config emission event = .ok node' ∧ Accounts e node' supply' := by
  cases event with
  | migrate block => exact ha.migrate he hadmits
  | recover fork => exact ha.recover he hadmits hwithin
  | backfill =>
    obtain ⟨supply', ha'⟩ := ha.backfill he
    refine ⟨_, supply', ?_, ha'⟩
    rw [SupplyNode.step, ha.held]
  | restart => exact ⟨_, _, rfl, ha.restart hwithin⟩

/-- **A run.** -/
theorem Accounts.run (he : Emits emission e) {events : List SupplyEvent}
    (hadmits : SupplyNode.Along config emission (SupplyNode.Admits config) node events)
    (hwithin : SupplyNode.Along config emission SupplyNode.WithinBoundaries node events) :
    ∃ node' supply', node.run config emission events = .ok node' ∧ Accounts e node' supply' := by
  obtain ⟨node', hrun, supply', ha'⟩ := Irys.Along.foldlM
    (I := fun node => ∃ supply, Accounts e node supply) (fun node event hnode hevent => by
      obtain ⟨supply, ha⟩ := hnode
      obtain ⟨node', supply', hstep, ha'⟩ := ha.step he hevent.1 hevent.2
      exact ⟨node', hstep, supply', ha'⟩) ⟨supply, ha⟩ (hadmits.and hwithin)
  exact ⟨node', supply', hrun, ha'⟩

end

theorem Accounts.start {genesis : IrysBlockHeader} (hzero : genesis.height = 0) :
    Accounts e (SupplyNode.start genesis) (.new none) := by
  refine ⟨rfl, ⟨cons_ne_nil _ _, ?_⟩, rfl, rfl, counts_new (Nat.zero_le _), rfl⟩
  intro i hash hat
  obtain hnone | ⟨rfl, rfl⟩ := (getElem?_concat_eq_some (l := [])).mp hat
  · cases hnone
  · exact ⟨genesis, Std.TreeMap.getElem?_insert_self, hzero⟩

end Steps

/-- **The reported supply is exact within the boundaries.**  In a run of migrations in height order,
recoveries not below the finalized height, steps of the background task and restarts, let every
recovery before the total is ready stay above the saved prefix and above the block before the first
migration, and every restart find the index not below the saved prefix.  Then no migration is
refused, and whenever the total is ready it is the sum of the emissions up to the last migrated
block. -/
theorem supply_exact_within_boundaries (config : ConsensusConfig)
    (emission : ℕ → Res MigrationError ℕ) (e : ℕ → ℕ) (he : Emits emission e)
    (genesis : IrysBlockHeader) (hzero : genesis.height = 0) (events : List SupplyEvent)
    (hadmits : SupplyNode.Along config emission (SupplyNode.Admits config)
      (SupplyNode.start genesis) events)
    (hwithin : SupplyNode.Along config emission SupplyNode.WithinBoundaries
      (SupplyNode.start genesis) events) :
    ∃ node supply, (SupplyNode.start genesis).run config emission events = .ok node ∧
      node.stores.supplyState = some supply ∧
      (node.ready = true →
        supply.cumulativeEmitted = ∑ h ∈ Finset.range (node.stores.latestHeight + 1), e h) := by
  obtain ⟨node, supply, hrun, ha⟩ := (Accounts.start hzero).run he hadmits hwithin
  exact ⟨node, supply, hrun, ha.held, ha.counts.total⟩

/-! ### Samples -/

namespace SupplyNode

section Decidable

variable {config : ConsensusConfig} {emission : ℕ → Res MigrationError ℕ}

instance (node : SupplyNode) : DecidablePred (node.Admits config)
  | .migrate _ => inferInstanceAs (Decidable (_ ∧ _ ∧ ∀ old ∈ _, _))
  | .recover _ => inferInstanceAs (Decidable (_ ≤ _))
  | .backfill => isTrue trivial
  | .restart => isTrue trivial

instance (node : SupplyNode) : DecidablePred node.WithinBoundaries
  | .migrate _ => isTrue trivial
  | .recover _ => inferInstanceAs (Decidable
      (_ → _ → ∀ supply ∈ _, (∀ first ∈ _, _) ∧ (_ → ∀ persisted ∈ _, _)))
  | .backfill => isTrue trivial
  | .restart => inferInstanceAs (Decidable (∀ persisted ∈ _, _))

end Decidable

/-- Eight migrated blocks are not final yet. -/
def supplyConfig : ConsensusConfig :=
  { BlockTreeService.sampleTreeConfig with blockTreeDepth := 10, blockMigrationDepth := 2 }

/-- A cap of a hundred million tokens, halved in four years; a block takes twelve seconds. -/
def supplyEmission : ℕ → Res MigrationError ℕ :=
  blockEmission (fullBlockReward ⟨10 ^ 26, 126144000⟩ 12)

/-- The block at a height. -/
def supplyBlock (height : ℕ) : IrysBlockHeader :=
  BlockTreeService.sampleBlock (100 + height) (99 + height) height height

/-- The total is completed, and again after a restart, with a rollback of one block between. -/
def exactEvents : List SupplyEvent :=
  [.migrate (supplyBlock 1), .migrate (supplyBlock 2), .backfill, .backfill, .backfill, .restart,
    .migrate (supplyBlock 3), .recover 2, .migrate (supplyBlock 3), .backfill, .backfill, .backfill]

/-- After the second start the total is completed; the third start is followed by a rollback. -/
def stallEvents : List SupplyEvent :=
  [.migrate (supplyBlock 1), .restart, .migrate (supplyBlock 2), .migrate (supplyBlock 3),
    .backfill, .backfill, .backfill, .restart, .recover 0, .migrate (supplyBlock 1)]

/-- The rollback comes before the total is completed. -/
def doubleEvents : List SupplyEvent :=
  [.migrate (supplyBlock 1), .restart, .migrate (supplyBlock 2), .recover 0,
    .migrate (supplyBlock 1), .migrate (supplyBlock 2), .backfill, .backfill, .backfill]

end SupplyNode

open SupplyNode in
theorem supply_exact_after_rollback :
    ∃ e node supply, Emits supplyEmission e ∧
      (SupplyNode.start (supplyBlock 0)).run supplyConfig supplyEmission exactEvents = .ok node ∧
      node.stores.supplyState = some supply ∧ node.ready = true ∧
      supply.cumulativeEmitted = ∑ h ∈ Finset.range (node.stores.latestHeight + 1), e h := by
  obtain ⟨e, he⟩ : ∃ e, Emits supplyEmission e :=
    HalvingCurve.emits (by decide) (by decide) (by decide) 12
  obtain ⟨node, supply, hrun, hheld, htotal⟩ := supply_exact_within_boundaries supplyConfig
    supplyEmission e he (supplyBlock 0) rfl exactEvents (by decide +kernel) (by decide +kernel)
  have hready : ((SupplyNode.start (supplyBlock 0)).run supplyConfig supplyEmission
      exactEvents).toOption.map (·.ready) = some true := by decide +kernel
  rw [hrun] at hready
  exact ⟨e, node, supply, he, hrun, hheld, Option.some.inj hready,
    htotal (Option.some.inj hready)⟩

open SupplyNode in
/-- **Rollbacks below the boundaries.**  Every step of both runs can happen.  In the first, a node
that saved its prefix up to block 1 restarts and rolls back to genesis: the next migration is
refused for overlapping the prefix.  In the second, a node rolls back below its first migration
before the total is completed: the block in between is counted live and by the background task. -/
theorem supply_stalls_and_counts_twice :
    SupplyNode.Along supplyConfig supplyEmission (Admits supplyConfig) (start (supplyBlock 0))
        stallEvents ∧
    (match (SupplyNode.start (supplyBlock 0)).run supplyConfig supplyEmission stallEvents with
      | .ok _ => none
      | .error fault => some fault) = some (.error (.migrationOverlapsBackfill 1 1)) ∧
    SupplyNode.Along supplyConfig supplyEmission (Admits supplyConfig) (start (supplyBlock 0))
        doubleEvents ∧
    ((SupplyNode.start (supplyBlock 0)).run supplyConfig supplyEmission
      doubleEvents).toOption.map (fun node => (node.ready, node.stores.latestHeight,
        node.stores.supplyState.map (·.cumulativeEmitted))) =
          some (true, 2, some 19781596531900000000) ∧
    (List.range' 0 3).mapM supplyEmission =
      .ok [0, 6593865655600000000, 6593865220700000000] ∧
    0 + 6593865655600000000 + 6593865220700000000 ≠ 19781596531900000000 := by
  refine ⟨by decide +kernel, by decide +kernel, by decide +kernel, by decide +kernel,
    by decide +kernel, by decide⟩

end Irys
