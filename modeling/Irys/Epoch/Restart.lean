import Irys.Epoch.Chain
import Irys.Epoch.Commitments
import Irys.Epoch.PreviousBlock

/-!
# Snapshots after a restart

A running node advances the epoch snapshot and the commitment snapshot of every block from those
of its parent.  A node that starts again has only the block index, the headers and the
transactions.  It replays the epoch blocks up to the first block it keeps, then the commitments
since the last of them, and goes on block by block.

* `queryReplayData`, `replayEpochData`, `buildCurrentCommitmentSnapshotFromIndex`,
  `restoreFromDb` — the entries after a restart;
* `CanonicalChain`, `Stored` — a chain of validated blocks, and stores that hold it;
* `CaughtUp` — what the replay up to a height has in common with the live entry there, kept by
  `CaughtUp.step`;
* `restart_restores_snapshots` — **every entry after a restart has the snapshots of the live one**.
-/

namespace Irys

open List

namespace Replay

open EpochSnapshot

/-! ### The running node -/

/-- A block with its commitment transactions, in header order. -/
structure CommitmentBlock where
  header : IrysBlockHeader
  commitmentTxs : List CommitmentTransaction

/-- A block of the tree with both snapshots. -/
structure TreeEntry extends BlockMetadata where
  commitmentSnapshot : CommitmentSnapshot

variable (env : EpochEnv) (config : Config)

/-- The entry of a block, from that of its parent. -/
def insertBlock (parent : TreeEntry) (b : CommitmentBlock) : EpochRes TreeEntry := do
  let epochSnapshot ← createEpochSnapshotForBlock env b.header parent.toBlockMetadata
    parent.commitmentSnapshot.getEpochCommitments config.toConsensusConfig
  let commitmentSnapshot := createCommitmentSnapshotForBlock b.header b.commitmentTxs
    parent.commitmentSnapshot epochSnapshot config.toConsensusConfig
  return ⟨⟨b.header, epochSnapshot⟩, commitmentSnapshot⟩

/-- The entries from `parent` on. -/
def liveFrom : TreeEntry → List CommitmentBlock → EpochRes (List TreeEntry)
  | parent, [] => .ok [parent]
  | parent, b :: blocks => do
    let entry ← insertBlock env config parent b
    let rest ← liveFrom entry blocks
    return parent :: rest

/-- **The live fold over the whole chain**: one entry for each block, genesis first. -/
def live (genesis : CommitmentBlock) (blocks : List CommitmentBlock) :
    EpochRes (List TreeEntry) := do
  let epochSnapshot ← EpochSnapshot.new env genesis.header genesis.commitmentTxs config
  liveFrom env config ⟨⟨genesis.header, epochSnapshot⟩, .empty⟩ blocks

/-! ### The restart -/

/-- What is left of a node that stopped: the block index by height, the database, and the
commitments that the mempool wrote to disk. -/
structure Stores where
  blockIndex : List H256
  blockHeaderByHash : H256 → Option IrysBlockHeader
  commitmentTxByTxid : IrysTransactionId → Option CommitmentTransaction
  recoveredCommitmentTxs : IrysTransactionId → Option CommitmentTransaction

/-- Why a restart fails. -/
inductive RestoreError where
  | emptyBlockList
  | missingIndexEntry (height : ℕ)
  | headerNotFound (blockHash : H256)
  | heightMismatch (stored expected : ℕ) (blockHash : H256)
  | epochTasks (e : EpochSnapshotError)
  deriving DecidableEq

/-- An epoch block with its commitments. -/
structure EpochBlockData where
  epochBlock : IrysBlockHeader
  commitments : List CommitmentTransaction

/-- All epoch blocks of the chain. -/
structure EpochReplayData where
  genesisBlockHeader : IrysBlockHeader
  genesisCommitments : List CommitmentTransaction
  epochBlocks : List EpochBlockData

/-- `commitment_tx_ids`: what the commitment ledger of the header lists. -/
def commitmentTxIds (block : IrysBlockHeader) : List IrysTransactionId :=
  ((block.systemLedgers.find? (·.ledgerId == .commitment)).map (·.txIds)).getD []

variable (st : Stores)

/-- `block_index.latest_height`. -/
def Stores.latestHeight : ℕ := st.blockIndex.length - 1

/-- A header that must be there. -/
def Stores.header (blockHash : H256) : Res RestoreError IrysBlockHeader :=
  match st.blockHeaderByHash blockHash with
  | some block => .ok block
  | none => fail (.headerNotFound blockHash)

/-- The `i`-th epoch block with its commitments, in header order. -/
def loadEpochBlock (i : ℕ) : Res RestoreError EpochBlockData := do
  let blockHeight := i * config.epoch.numBlocksInEpoch
  let blockHash ← expect st.blockIndex[blockHeight]?
  let block ← st.header blockHash
  if block.height ≠ blockHeight then
    fail (.heightMismatch block.height blockHeight block.blockHash)
  else
    match block.systemLedgers.find? (·.ledgerId == .commitment) with
    | none => return ⟨block, []⟩
    | some commitmentLedger =>
      let commitments ← commitmentLedger.txIds.mapM fun txid =>
        expect (st.commitmentTxByTxid txid <|> st.recoveredCommitmentTxs txid)
      return ⟨block, commitments⟩

def queryReplayData : Res RestoreError EpochReplayData := do
  let epochBlockData ← (List.range (st.latestHeight / config.epoch.numBlocksInEpoch + 1)).mapM
    (loadEpochBlock config st)
  match epochBlockData with
  | [] => .error .panic
  | genesis :: epochBlocks =>
    if 0 < genesis.epochBlock.height then .error .panic
    else return ⟨genesis.epochBlock, genesis.commitments, epochBlocks⟩

/-- One epoch block of `replay_epoch_data`, with the epoch block before it. -/
def replayEpochBlock (state : EpochSnapshot × Option IrysBlockHeader) (replayData : EpochBlockData) :
    EpochRes (EpochSnapshot × Option IrysBlockHeader) := do
  let s ← state.1.performEpochTasks env state.2 replayData.epochBlock replayData.commitments
  return (s, some replayData.epochBlock)

def replayEpochData (s : EpochSnapshot) (epochReplayData : List EpochBlockData) :
    EpochRes EpochSnapshot := do
  let (s, _) ← epochReplayData.foldlM (replayEpochBlock env) (s, s.previousEpochBlock)
  return s

/-- The commitments of one indexed block, added in header order. -/
def addIndexedBlock (epochSnapshot : EpochSnapshot) (snapshot : CommitmentSnapshot) (height : ℕ) :
    Res RestoreError CommitmentSnapshot := do
  let blockHash ← expect st.blockIndex[height]?
  let block ← expect (st.blockHeaderByHash blockHash)
  (commitmentTxIds block).foldlM (fun snapshot txid => do
    let commitmentTx ← expect (st.commitmentTxByTxid txid)
    return (snapshot.addCommitment commitmentTx epochSnapshot).2) snapshot

/-- `build_current_commitment_snapshot_from_index`: the commitments since the last epoch block. -/
def buildCurrentCommitmentSnapshotFromIndex (startBlockHash : H256)
    (epochSnapshot : EpochSnapshot) : Res RestoreError CommitmentSnapshot := do
  let latest ← expect (st.blockHeaderByHash startBlockHash)
  let lastEpochBlockHeight := latest.height - latest.height % config.epoch.numBlocksInEpoch
  (List.range' (lastEpochBlockHeight + 1) (latest.height - lastEpochBlockHeight)).foldlM
    (addIndexedBlock st epochSnapshot) .empty

/-- `load_commitment_transactions`: those the database has, sorted. -/
def loadCommitmentTransactions (block : IrysBlockHeader) : List CommitmentTransaction :=
  if (commitmentTxIds block).isEmpty then []
  else ((commitmentTxIds block).filterMap st.commitmentTxByTxid).insertionSort commitmentLe

/-- One block of the restored window. -/
def restoreBlock (parent : TreeEntry) (height : ℕ) : Res RestoreError TreeEntry := do
  let blockHash ← expect st.blockIndex[height]?
  let block ← expect (st.blockHeaderByHash blockHash)
  let commitmentTxs := loadCommitmentTransactions st block
  let epochSnapshot ←
    if block.height % config.epoch.numBlocksInEpoch = 0 then
      mapErr .epochTasks (createEpochSnapshotForBlock env block parent.toBlockMetadata
        parent.commitmentSnapshot.getEpochCommitments config.toConsensusConfig)
    else .ok parent.epochSnapshot
  let commitmentSnapshot := createCommitmentSnapshotForBlock block commitmentTxs
    parent.commitmentSnapshot epochSnapshot config.toConsensusConfig
  return ⟨⟨block, epochSnapshot⟩, commitmentSnapshot⟩

/-- The blocks of the restored window, in order. -/
def restoreBlocks : TreeEntry → List ℕ → Res RestoreError (List TreeEntry)
  | parent, [] => .ok [parent]
  | parent, height :: heights => do
    let entry ← restoreBlock env config st parent height
    let rest ← restoreBlocks entry heights
    return parent :: rest

/-- **`restore_from_db`**, for a window that starts at `start`: its entries. -/
def restoreFromDb (epochReplayData : EpochReplayData) (start : ℕ) :
    Res RestoreError (List TreeEntry) :=
  if st.blockIndex.isEmpty then fail .emptyBlockList
  else match st.blockIndex[start]? with
  | none => fail (.missingIndexEntry start)
  | some startBlockHash => do
    let epochSnapshot ← mapErr .epochTasks (EpochSnapshot.new env
      epochReplayData.genesisBlockHeader epochReplayData.genesisCommitments config)
    let epochBlocks := epochReplayData.epochBlocks.filter (·.epochBlock.height ≤ start)
    let epochSnapshot ← mapErr .epochTasks (replayEpochData env epochSnapshot epochBlocks)
    let startBlock ← st.header startBlockHash
    let commitmentSnapshot ← buildCurrentCommitmentSnapshotFromIndex config st startBlockHash
      epochSnapshot
    restoreBlocks env config st ⟨⟨startBlock, epochSnapshot⟩, commitmentSnapshot⟩
      (List.range' (start + 1) (st.blockIndex.length - (start + 1)))

/-- A restart: the epoch data of the chain, and the window. -/
def restart (start : ℕ) : Res RestoreError (List TreeEntry) := do
  let epochReplayData ← queryReplayData config st
  restoreFromDb env config st epochReplayData start

/-! ### Chains and stores -/

/-- The block at a height. -/
def blockAt (genesis : CommitmentBlock) (blocks : List CommitmentBlock) (height : ℕ) :
    CommitmentBlock :=
  (genesis :: blocks).getD height genesis

/-- **A canonical chain of validated blocks**, with its live entries.  Every header lists its
block's commitments; outside epoch blocks they are sorted, and an epoch block carries what its
parent collected.  (That each commitment was accepted when it was added is not needed.) -/
structure CanonicalChain (genesis : CommitmentBlock) (blocks : List CommitmentBlock)
    (entries : List TreeEntry) : Prop where
  genesisBlock : genesis.header.GenesisBlock
  live : live env config genesis blocks = .ok entries
  height : ∀ {i : ℕ} {b : CommitmentBlock}, blocks[i]? = some b → b.header.height = i + 1
  listed : ∀ b ∈ genesis :: blocks, commitmentTxIds b.header = b.commitmentTxs.map (·.id)
  sorted : ∀ b ∈ blocks, ¬ config.epoch.numBlocksInEpoch ∣ b.header.height →
    b.commitmentTxs.Pairwise commitmentLe
  epoch : ∀ {i : ℕ} {parent : TreeEntry} {b : CommitmentBlock}, entries[i]? = some parent →
    blocks[i]? = some b → config.epoch.numBlocksInEpoch ∣ b.header.height →
    b.commitmentTxs = parent.commitmentSnapshot.getEpochCommitments

/-- Stores that hold a chain: its index, its headers and the commitments of its blocks. -/
structure Stored (chain : List CommitmentBlock) : Prop where
  blockIndex : st.blockIndex = chain.map (·.header.blockHash)
  headers : ∀ b ∈ chain, st.blockHeaderByHash b.header.blockHash = some b.header
  commitments : ∀ b ∈ chain, ∀ tx ∈ b.commitmentTxs, st.commitmentTxByTxid tx.id = some tx

variable {env config st} {genesis b : CommitmentBlock} {blocks : List CommitmentBlock}
  {entries : List TreeEntry} {parent entry : TreeEntry} {s t : EpochSnapshot} {height : ℕ}

theorem blockAt_eq (h : (genesis :: blocks)[height]? = some b) :
    blockAt genesis blocks height = b := by
  rw [blockAt, getD_eq_getElem?_getD, h]
  rfl

theorem blockAt_mem (genesis : CommitmentBlock) (blocks : List CommitmentBlock) (height : ℕ) :
    blockAt genesis blocks height ∈ genesis :: blocks := by
  rw [blockAt, getD_eq_getElem?_getD]
  cases h : (genesis :: blocks)[height]? with
  | none => exact mem_cons_self ..
  | some b => exact mem_of_getElem? h

theorem getElem?_chain (h : height ≤ blocks.length) :
    (genesis :: blocks)[height]? = some (blockAt genesis blocks height) := by
  have hlt : height < (genesis :: blocks).length := by
    rw [length_cons]
    omega
  rw [blockAt_eq (getElem?_eq_getElem hlt), getElem?_eq_getElem hlt]

theorem CanonicalChain.height_blockAt (hc : CanonicalChain env config genesis blocks entries)
    (h : height ≤ blocks.length) : (blockAt genesis blocks height).header.height = height := by
  cases height with
  | zero => exact hc.genesisBlock.height
  | succ i => exact hc.height (getElem?_chain h)

/-! ### What the stores return -/

theorem Stored.header_at (hst : Stored st (genesis :: blocks)) (h : height ≤ blocks.length) :
    st.blockIndex[height]? = some (blockAt genesis blocks height).header.blockHash ∧
      st.blockHeaderByHash (blockAt genesis blocks height).header.blockHash =
        some (blockAt genesis blocks height).header := by
  refine ⟨?_, hst.headers _ (blockAt_mem genesis blocks height)⟩
  rw [hst.blockIndex, getElem?_map, getElem?_chain h]
  rfl

theorem Stored.length_blockIndex (hst : Stored st (genesis :: blocks)) :
    st.blockIndex.length = blocks.length + 1 := by
  rw [hst.blockIndex, length_map, length_cons]

theorem txIds_of_find {block : IrysBlockHeader} {ledger : SystemTransactionLedger}
    (h : block.systemLedgers.find? (·.ledgerId == .commitment) = some ledger) :
    commitmentTxIds block = ledger.txIds := by
  rw [commitmentTxIds, h]
  rfl

section

variable (hc : CanonicalChain env config genesis blocks entries)
include hc

/-- **An epoch block is loaded as it was**, its commitments in header order. -/
theorem loadEpochBlock_eq (hst : Stored st (genesis :: blocks)) {i : ℕ}
    (hi : i * config.epoch.numBlocksInEpoch ≤ blocks.length) :
    loadEpochBlock config st i =
      .ok ⟨(blockAt genesis blocks (i * config.epoch.numBlocksInEpoch)).header,
        (blockAt genesis blocks (i * config.epoch.numBlocksInEpoch)).commitmentTxs⟩ := by
  obtain ⟨hindex, hheader⟩ := hst.header_at hi
  have hmem := blockAt_mem genesis blocks (i * config.epoch.numBlocksInEpoch)
  have hlisted := hc.listed _ hmem
  have hheight := hc.height_blockAt hi
  rw [loadEpochBlock, hindex, expect_some, ok_bind, Stores.header, hheader]
  generalize blockAt genesis blocks (i * config.epoch.numBlocksInEpoch) = b at *
  dsimp only
  rw [ok_bind, if_neg (not_not.mpr hheight)]
  cases hfind : b.header.systemLedgers.find? (·.ledgerId == .commitment) with
  | none =>
    have hnil : b.commitmentTxs.map (·.id) = [] := by
      rw [← hlisted, commitmentTxIds, hfind]
      rfl
    rw [map_eq_nil_iff.mp hnil]
    rfl
  | some ledger =>
    rw [txIds_of_find hfind] at hlisted
    dsimp only
    rw [hlisted, mapM_map]
    rw [mapM_eq_ok_map (g := id), List.map_id]
    · rfl
    · intro tx htx
      show expect (st.commitmentTxByTxid tx.id <|> _) = _
      rw [hst.commitments b hmem tx htx]
      rfl

/-- The first `n` epoch blocks after genesis. -/
def epochData (config : Config) (genesis : CommitmentBlock) (blocks : List CommitmentBlock)
    (n : ℕ) : List EpochBlockData :=
  (List.range n).map fun k =>
    ⟨(blockAt genesis blocks ((k + 1) * config.epoch.numBlocksInEpoch)).header,
      (blockAt genesis blocks ((k + 1) * config.epoch.numBlocksInEpoch)).commitmentTxs⟩

/-- **The replay data** are the epoch blocks of the chain. -/
theorem queryReplayData_eq (hst : Stored st (genesis :: blocks)) :
    queryReplayData config st = .ok ⟨genesis.header, genesis.commitmentTxs,
      epochData config genesis blocks (blocks.length / config.epoch.numBlocksInEpoch)⟩ := by
  have hlatest : st.latestHeight = blocks.length := by
    rw [Stores.latestHeight, hst.length_blockIndex, Nat.add_sub_cancel]
  rw [queryReplayData, hlatest, mapM_eq_ok_map (g := fun i =>
    ⟨(blockAt genesis blocks (i * config.epoch.numBlocksInEpoch)).header,
      (blockAt genesis blocks (i * config.epoch.numBlocksInEpoch)).commitmentTxs⟩)]
  · rw [ok_bind, range_succ_eq_map, map_cons, List.map_map, zero_mul]
    show (if 0 < genesis.header.height then _ else _) = _
    rw [hc.genesisBlock.height]
    rfl
  · intro i hi
    have hle : i ≤ blocks.length / config.epoch.numBlocksInEpoch :=
      Nat.lt_succ_iff.mp (mem_range.mp hi)
    exact loadEpochBlock_eq hc hst
      ((Nat.mul_le_mul_right _ hle).trans (Nat.div_mul_le_self ..))

theorem filter_epochData {start : ℕ} (hstart : start ≤ blocks.length) :
    (epochData config genesis blocks (blocks.length / config.epoch.numBlocksInEpoch)).filter
        (·.epochBlock.height ≤ start) =
      epochData config genesis blocks (start / config.epoch.numBlocksInEpoch) := by
  have hpos : 0 < config.epoch.numBlocksInEpoch := config.blocksInEpoch_pos
  obtain ⟨r, hr⟩ := Nat.exists_eq_add_of_le
    (Nat.div_le_div_right (c := config.epoch.numBlocksInEpoch) hstart)
  have hheight : ∀ k < blocks.length / config.epoch.numBlocksInEpoch,
      (blockAt genesis blocks ((k + 1) * config.epoch.numBlocksInEpoch)).header.height =
        (k + 1) * config.epoch.numBlocksInEpoch := by
    intro k hk
    exact hc.height_blockAt ((Nat.mul_le_mul_right _ hk).trans (Nat.div_mul_le_self ..))
  have hiff : ∀ k, (k + 1) * config.epoch.numBlocksInEpoch ≤ start ↔
      k < start / config.epoch.numBlocksInEpoch := by
    intro k
    rw [← Nat.le_div_iff_mul_le hpos]
    exact Nat.succ_le_iff
  rw [epochData, epochData, hr, range_add, map_append, filter_append,
    filter_eq_self.mpr, filter_eq_nil_iff.mpr, append_nil]
  · intro d hd
    obtain ⟨k, hk, rfl⟩ := List.mem_map.mp hd
    obtain ⟨j, hj, rfl⟩ := List.mem_map.mp hk
    have hj' := mem_range.mp hj
    rw [decide_eq_true_eq, hheight _ (by omega), hiff]
    omega
  · intro d hd
    obtain ⟨k, hk, rfl⟩ := List.mem_map.mp hd
    have hk' := mem_range.mp hk
    rw [decide_eq_true_eq, hheight _ (by omega), hiff]
    exact hk'

theorem addIndexedBlock_eq (hst : Stored st (genesis :: blocks)) (s : EpochSnapshot)
    (cs : CommitmentSnapshot) (h : height ≤ blocks.length) :
    addIndexedBlock st s cs height =
      .ok (cs.addCommitments (blockAt genesis blocks height).commitmentTxs s) := by
  obtain ⟨hindex, hheader⟩ := hst.header_at h
  have hmem := blockAt_mem genesis blocks height
  rw [addIndexedBlock, hindex, expect_some, ok_bind, hheader, expect_some, ok_bind,
    hc.listed _ hmem]
  have hfound := hst.commitments _ hmem
  generalize (blockAt genesis blocks height).commitmentTxs = txs at hfound
  induction txs generalizing cs with
  | nil => rfl
  | cons tx txs ih =>
    rw [forall_mem_cons] at hfound
    rw [map_cons, foldlM_cons, hfound.1]
    exact ih _ hfound.2

theorem foldlM_addIndexedBlock (hst : Stored st (genesis :: blocks)) (s : EpochSnapshot)
    (cs : CommitmentSnapshot) {heights : List ℕ} (h : ∀ i ∈ heights, i ≤ blocks.length) :
    heights.foldlM (addIndexedBlock st s) cs =
      .ok (cs.addCommitments (heights.flatMap fun i => (blockAt genesis blocks i).commitmentTxs)
        s) := by
  induction heights generalizing cs with
  | nil => rfl
  | cons i heights ih =>
    rw [forall_mem_cons] at h
    rw [foldlM_cons, addIndexedBlock_eq hc hst s cs h.1, ok_bind, ih _ h.2,
      flatMap_cons, CommitmentSnapshot.addCommitments, CommitmentSnapshot.addCommitments,
      CommitmentSnapshot.addCommitments, foldl_append]

end

theorem loadCommitmentTransactions_eq (hst : Stored st (genesis :: blocks))
    (hmem : b ∈ genesis :: blocks)
    (hlisted : commitmentTxIds b.header = b.commitmentTxs.map (·.id))
    (hsorted : b.commitmentTxs.Pairwise commitmentLe) :
    loadCommitmentTransactions st b.header = b.commitmentTxs := by
  rw [loadCommitmentTransactions, hlisted]
  have hload : (b.commitmentTxs.map (·.id)).filterMap st.commitmentTxByTxid =
      b.commitmentTxs := by
    rw [filterMap_map]
    refine (filterMap_congr fun tx htx => ?_).trans filterMap_some
    exact hst.commitments b hmem tx htx
  split
  · rename_i hempty
    exact (map_eq_nil_iff.mp (List.isEmpty_iff.mp hempty)).symm
  · rw [hload]
    exact hsorted.insertionSort_eq

/-! ### The live entries -/

theorem insertBlock_eq_ok (h : insertBlock env config parent b = .ok entry) :
    createEpochSnapshotForBlock env b.header parent.toBlockMetadata
        parent.commitmentSnapshot.getEpochCommitments config.toConsensusConfig =
      .ok entry.epochSnapshot ∧
    entry.block = b.header ∧
    entry.commitmentSnapshot = createCommitmentSnapshotForBlock b.header b.commitmentTxs
      parent.commitmentSnapshot entry.epochSnapshot config.toConsensusConfig := by
  obtain ⟨s, hs, hret⟩ := bind_eq_ok.mp h
  cases hret
  exact ⟨hs, rfl, rfl⟩

theorem liveFrom_spec (h : liveFrom env config parent blocks = .ok entries) :
    entries[0]? = some parent ∧ entries.length = blocks.length + 1 ∧
      ∀ {i : ℕ} {b : CommitmentBlock}, blocks[i]? = some b →
        ∃ p x, entries[i]? = some p ∧ entries[i + 1]? = some x ∧
          insertBlock env config p b = .ok x := by
  induction blocks generalizing parent entries with
  | nil =>
    cases h
    refine ⟨rfl, rfl, ?_⟩
    intro i b hb
    cases hb
  | cons c blocks ih =>
    obtain ⟨next, hnext, h⟩ := bind_eq_ok.mp h
    obtain ⟨rest, hrest, hret⟩ := bind_eq_ok.mp h
    cases hret
    obtain ⟨hhead, hlen, hstep⟩ := ih hrest
    refine ⟨rfl, congrArg (· + 1) hlen, ?_⟩
    intro i b hb
    cases i with
    | zero =>
      cases hb
      exact ⟨parent, next, rfl, hhead, hnext⟩
    | succ i => exact hstep hb

/-- A block outside the epoch grid shares its parent's epoch snapshot and adds its commitments. -/
theorem insertBlock_within (h : insertBlock env config parent b = .ok entry)
    (hdvd : ¬ config.epoch.numBlocksInEpoch ∣ b.header.height) :
    entry = ⟨⟨b.header, parent.epochSnapshot⟩,
      parent.commitmentSnapshot.addCommitments b.commitmentTxs parent.epochSnapshot⟩ := by
  rw [insertBlock, createEpochSnapshotForBlock, if_neg hdvd, ok_bind,
    createCommitmentSnapshotForBlock, if_neg hdvd] at h
  cases h
  cases b.commitmentTxs with
  | nil => rfl
  | cons tx txs => rfl

/-! ### Catching up -/

/-- **What the replay up to a height has in common with the live entry there.**  The epoch blocks
up to the height lead to the entry's epoch snapshot, but for the previous epoch block that the
first of them was not given; the commitments since the last of them lead to its commitment
snapshot. -/
structure CaughtUp (env : EpochEnv) (config : Config) (genesis : CommitmentBlock)
    (blocks : List CommitmentBlock) (height : ℕ) (entry : TreeEntry) : Prop where
  block : entry.block = (blockAt genesis blocks height).header
  shape : entry.epochSnapshot.ledgers.Shape
  config_eq : entry.epochSnapshot.config = config
  epochBlock : entry.epochSnapshot.epochBlock = (blockAt genesis blocks
    (height / config.epoch.numBlocksInEpoch * config.epoch.numBlocksInEpoch)).header
  replayed : ∃ s₀ s prev,
    EpochSnapshot.new env genesis.header genesis.commitmentTxs config = .ok s₀ ∧
    (epochData config genesis blocks (height / config.epoch.numBlocksInEpoch)).foldlM
      (replayEpochBlock env) (s₀, s₀.previousEpochBlock) = .ok (s, prev) ∧
    s.withPrevious none = entry.epochSnapshot.withPrevious none ∧
    (prev = some entry.epochSnapshot.epochBlock ∨
      height / config.epoch.numBlocksInEpoch = 0 ∧ prev = none)
  collected : CommitmentSnapshot.empty.addCommitments
    ((List.range' (height / config.epoch.numBlocksInEpoch * config.epoch.numBlocksInEpoch + 1)
      (height % config.epoch.numBlocksInEpoch)).flatMap
        fun i => (blockAt genesis blocks i).commitmentTxs) entry.epochSnapshot =
    entry.commitmentSnapshot

theorem CaughtUp.atGenesis {s₀ : EpochSnapshot}
    (hnew : EpochSnapshot.new env genesis.header genesis.commitmentTxs config = .ok s₀) :
    CaughtUp env config genesis blocks 0 ⟨⟨genesis.header, s₀⟩, .empty⟩ := by
  have hshape : (EpochSnapshot.empty genesis.header config).ledgers.Shape := ledgers_new_shape _ _
  obtain ⟨hhead, hframe, -⟩ := performEpochTasks_spec hshape (expectOk_eq_ok.mp hnew)
  have hprev : s₀.previousEpochBlock = none := congrArg (fun p => p.2.2) hhead
  refine ⟨rfl, (activated_shape hshape _).of_frame hframe, congrArg Prod.fst hhead, ?_,
    ⟨s₀, s₀, none, hnew, ?_, rfl, .inr ⟨Nat.zero_div _, rfl⟩⟩, ?_⟩
  · rw [Nat.zero_div, zero_mul]
    exact congrArg (fun p => p.2.1) hhead
  · rw [Nat.zero_div, hprev]
    rfl
  · rw [Nat.zero_mod]
    rfl

theorem sameTotals_genesis {g : IrysBlockHeader} (hg : g.GenesisBlock) :
    SameTotals (some g) none := by
  intro ledger
  exact hg.ledgerTotalChunks ledger

/-- **One epoch block.**  The replay, which has no previous block for the first epoch, arrives
where the live node does. -/
theorem replayEpochBlock_agrees {prev : Option IrysBlockHeader} {x : EpochSnapshot}
    {d : EpochBlockData} (hs : s.withPrevious none = t.withPrevious none)
    (hlive : t.performEpochTasks env (some t.epochBlock) d.epochBlock d.commitments = .ok x)
    (hprev : prev = some t.epochBlock ∨ t.epochBlock.GenesisBlock ∧
      d.epochBlock.height ≤ t.config.epoch.numBlocksInEpoch ∧ prev = none) :
    ∃ s', replayEpochBlock env (s, prev) d = .ok (s', some d.epochBlock) ∧
      s'.withPrevious none = x.withPrevious none := by
  have hstart : s.performEpochTasks env prev d.epochBlock d.commitments =
      t.performEpochTasks env prev d.epochBlock d.commitments := by
    rw [← performEpochTasks_ignores s none, hs, performEpochTasks_ignores]
  rcases hprev with rfl | ⟨hgenesis, hfirst, rfl⟩
  · refine ⟨x, ?_, rfl⟩
    show (s.performEpochTasks env _ _ _ >>= _) = _
    rw [hstart, hlive]
    rfl
  · -- the check of the previous block is skipped in the first epoch
    have hcheck : ∀ prev', t.checkPreviousEpochBlock prev' d.epochBlock = .ok () := by
      intro prev'
      exact if_pos hfirst
    refine ⟨x.withPrevious none, ?_, rfl⟩
    show (s.performEpochTasks env _ _ _ >>= _) = _
    rw [hstart, performEpochTasks_withPrevious t (hcheck (some t.epochBlock)) (hcheck none)
      (sameTotals_genesis hgenesis), hlive]
    rfl

/-- **The next block.** -/
theorem CaughtUp.step (hc : CanonicalChain env config genesis blocks entries)
    (hup : CaughtUp env config genesis blocks height parent)
    (hparent : entries[height]? = some parent) (hb : blocks[height]? = some b)
    (hinsert : insertBlock env config parent b = .ok entry) :
    CaughtUp env config genesis blocks (height + 1) entry := by
  have hpos : 0 < config.epoch.numBlocksInEpoch := config.blocksInEpoch_pos
  have hheight := hc.height hb
  have hat : blockAt genesis blocks (height + 1) = b := blockAt_eq hb
  obtain ⟨hepoch, hblock, hcommit⟩ := insertBlock_eq_ok hinsert
  obtain ⟨s₀, s, prev, hnew, hreplay, hsame, hprev⟩ := hup.replayed
  by_cases hdvd : config.epoch.numBlocksInEpoch ∣ height + 1
  · -- an epoch block: one more is replayed, and collecting starts anew
    have hdiv := Nat.succ_div_of_dvd hdvd
    have hgrid : (height / config.epoch.numBlocksInEpoch + 1) * config.epoch.numBlocksInEpoch =
        height + 1 := by
      rw [← hdiv]
      exact Nat.div_mul_cancel hdvd
    have hzero : (height + 1) % config.epoch.numBlocksInEpoch = 0 := Nat.mod_eq_zero_of_dvd hdvd
    rw [createEpochSnapshotForBlock, hheight, if_pos hdvd,
      ← hc.epoch hparent hb (hheight.symm ▸ hdvd)] at hepoch
    obtain ⟨hhead, hframe, -⟩ := performEpochTasks_spec hup.shape hepoch
    have hnext : prev = some parent.epochSnapshot.epochBlock ∨
        parent.epochSnapshot.epochBlock.GenesisBlock ∧
        b.header.height ≤ parent.epochSnapshot.config.epoch.numBlocksInEpoch ∧ prev = none := by
      rcases hprev with hprev | ⟨hfirst, hnone⟩
      · exact .inl hprev
      · refine .inr ⟨?_, ?_, hnone⟩
        · rw [hup.epochBlock, hfirst, zero_mul]
          exact hc.genesisBlock
        · rw [hup.config_eq, hheight, ← hgrid, hfirst, zero_add, one_mul]
    obtain ⟨s', hstep, hsame'⟩ :=
      replayEpochBlock_agrees (d := ⟨b.header, b.commitmentTxs⟩) hsame hepoch hnext
    have hblock' : entry.epochSnapshot.epochBlock = b.header := congrArg (fun p => p.2.1) hhead
    refine ⟨hblock.trans (by rw [hat]), (activated_shape hup.shape _).of_frame hframe,
      (congrArg Prod.fst hhead).trans hup.config_eq, ?_,
      ⟨s₀, s', some b.header, hnew, ?_, hsame', .inl (by rw [hblock'])⟩, ?_⟩
    · rw [hdiv, hgrid, hat, hblock']
    · rw [hdiv, epochData, range_succ, map_append, foldlM_append, ← epochData,
        hreplay, ok_bind, map_singleton, foldlM_cons, hgrid, hat, hstep]
      rfl
    · rw [hzero, hcommit, createCommitmentSnapshotForBlock, hheight, if_pos hdvd]
      rfl
  · -- any other block: the same epoch snapshot, and one more block of commitments
    have hdiv := Nat.succ_div_of_not_dvd hdvd
    rw [insertBlock_within hinsert (hheight.symm ▸ hdvd)]
    have hmod := Nat.div_add_mod' height config.epoch.numBlocksInEpoch
    have hmod' := Nat.div_add_mod' (height + 1) config.epoch.numBlocksInEpoch
    rw [hdiv] at hmod'
    have hrest : (height + 1) % config.epoch.numBlocksInEpoch =
        height % config.epoch.numBlocksInEpoch + 1 := by omega
    refine ⟨by rw [hat], hup.shape, hup.config_eq, hdiv ▸ hup.epochBlock,
      ⟨s₀, s, prev, hnew, hdiv ▸ hreplay, hsame, hdiv ▸ hprev⟩, ?_⟩
    rw [hdiv, hrest, range'_1_concat, flatMap_append, Nat.add_right_comm, hmod, flatMap_singleton,
      hat, CommitmentSnapshot.addCommitments, foldl_append, ← hup.collected]
    rfl

/-- **Every live entry is caught up with.** -/
theorem CanonicalChain.caughtUp (hc : CanonicalChain env config genesis blocks entries)
    (hle : height ≤ blocks.length) :
    ∃ entry, entries[height]? = some entry ∧ CaughtUp env config genesis blocks height entry := by
  obtain ⟨s₀, hnew, hlive⟩ := bind_eq_ok.mp hc.live
  obtain ⟨hhead, -, hstep⟩ := liveFrom_spec hlive
  induction height with
  | zero => exact ⟨_, hhead, .atGenesis hnew⟩
  | succ height ih =>
    obtain ⟨parent, hparent, hup⟩ := ih (Nat.le_of_succ_le hle)
    obtain ⟨p, x, hp, hx, hinsert⟩ := hstep (getElem?_eq_getElem hle)
    cases hparent.symm.trans hp
    exact ⟨x, hx, hup.step hc hparent (getElem?_eq_getElem hle) hinsert⟩

/-! ### The window -/

/-- Entries that agree but for the previous epoch block in the epoch snapshot. -/
structure Agrees (restored entry : TreeEntry) : Prop where
  block : restored.block = entry.block
  epochSnapshot :
    restored.epochSnapshot.withPrevious none = entry.epochSnapshot.withPrevious none
  commitmentSnapshot : restored.commitmentSnapshot = entry.commitmentSnapshot

/-- **The same snapshots**: ledgers, partition assignments, partition lists, commitment state and
pending commitments. -/
structure SameSnapshots (restored entry : TreeEntry) : Prop where
  block : restored.block = entry.block
  ledgers : restored.epochSnapshot.ledgers = entry.epochSnapshot.ledgers
  partitionAssignments :
    restored.epochSnapshot.partitionAssignments = entry.epochSnapshot.partitionAssignments
  allActivePartitions :
    restored.epochSnapshot.allActivePartitions = entry.epochSnapshot.allActivePartitions
  unassignedPartitions :
    restored.epochSnapshot.unassignedPartitions = entry.epochSnapshot.unassignedPartitions
  commitmentState : restored.epochSnapshot.commitmentState = entry.epochSnapshot.commitmentState
  commitmentSnapshot : restored.commitmentSnapshot = entry.commitmentSnapshot

theorem Agrees.same {restored : TreeEntry} (h : Agrees restored entry) :
    SameSnapshots restored entry :=
  ⟨h.block, congrArg (·.ledgers) h.epochSnapshot,
    congrArg (·.partitionAssignments) h.epochSnapshot,
    congrArg (·.allActivePartitions) h.epochSnapshot,
    congrArg (·.unassignedPartitions) h.epochSnapshot,
    congrArg (·.commitmentState) h.epochSnapshot, h.commitmentSnapshot⟩

theorem addCommitments_congr (hs : s.withPrevious none = t.withPrevious none)
    (cs : CommitmentSnapshot) (txs : List CommitmentTransaction) :
    cs.addCommitments txs s = cs.addCommitments txs t := by
  show cs.addCommitments txs (s.withPrevious none) = cs.addCommitments txs (t.withPrevious none)
  rw [hs]

theorem createEpochSnapshotForBlock_of_dvd {block : IrysBlockHeader} {restored : TreeEntry}
    (h : Agrees restored entry) (hdvd : config.epoch.numBlocksInEpoch ∣ block.height) :
    createEpochSnapshotForBlock env block restored.toBlockMetadata
        restored.commitmentSnapshot.getEpochCommitments config.toConsensusConfig =
      createEpochSnapshotForBlock env block entry.toBlockMetadata
        entry.commitmentSnapshot.getEpochCommitments config.toConsensusConfig := by
  have hblock : restored.epochSnapshot.epochBlock = entry.epochSnapshot.epochBlock :=
    congrArg (·.epochBlock) h.epochSnapshot
  rw [createEpochSnapshotForBlock, createEpochSnapshotForBlock, if_pos hdvd, if_pos hdvd,
    h.commitmentSnapshot, hblock, ← performEpochTasks_ignores _ none, h.epochSnapshot,
    performEpochTasks_ignores]

section

variable (hc : CanonicalChain env config genesis blocks entries)
    (hst : Stored st (genesis :: blocks))
include hc hst

/-- **One block of the window.** -/
theorem restoreBlock_agrees {restored : TreeEntry} (h : Agrees restored parent)
    (hb : blocks[height]? = some b) (hinsert : insertBlock env config parent b = .ok entry) :
    ∃ x, restoreBlock env config st restored (height + 1) = .ok x ∧ Agrees x entry := by
  have hlt : height < blocks.length := lt_length_of_some hb
  obtain ⟨hindex, hheader⟩ := hst.header_at (Nat.succ_le_of_lt hlt)
  have hat : blockAt genesis blocks (height + 1) = b := blockAt_eq hb
  rw [hat] at hindex hheader
  have hmem : b ∈ genesis :: blocks := hat ▸ blockAt_mem genesis blocks (height + 1)
  obtain ⟨hepoch, hblock, hcommit⟩ := insertBlock_eq_ok hinsert
  rw [restoreBlock, hindex, expect_some, ok_bind, hheader, expect_some, ok_bind]
  by_cases hdvd : config.epoch.numBlocksInEpoch ∣ b.header.height
  · have hzero : b.header.height % config.epoch.numBlocksInEpoch = 0 := Nat.mod_eq_zero_of_dvd hdvd
    dsimp only
    rw [if_pos hzero, createEpochSnapshotForBlock_of_dvd h hdvd, hepoch, mapErr_ok, ok_bind]
    refine ⟨_, rfl, hblock.symm, rfl, ?_⟩
    rw [hcommit, createCommitmentSnapshotForBlock, createCommitmentSnapshotForBlock, if_pos hdvd,
      if_pos hdvd]
  · have hzero : b.header.height % config.epoch.numBlocksInEpoch ≠ 0 :=
      fun hzero => hdvd (Nat.dvd_of_mod_eq_zero hzero)
    have hs : entry.epochSnapshot = parent.epochSnapshot := by
      rw [insertBlock_within hinsert hdvd]
    dsimp only
    rw [if_neg hzero, ok_bind, loadCommitmentTransactions_eq hst hmem (hc.listed b hmem)
      (hc.sorted b (mem_of_getElem? hb) hdvd)]
    refine ⟨_, rfl, hblock.symm, hs ▸ h.epochSnapshot, ?_⟩
    show createCommitmentSnapshotForBlock _ _ restored.commitmentSnapshot _ _ = _
    rw [hcommit, hs, h.commitmentSnapshot, createCommitmentSnapshotForBlock,
      createCommitmentSnapshotForBlock, addCommitments_congr h.epochSnapshot]

/-- **The whole window**, from an entry that agrees. -/
theorem restoreBlocks_agrees {restored : TreeEntry} {start n : ℕ} (hn : start + n = blocks.length)
    (hparent : entries[start]? = some parent) (h : Agrees restored parent) :
    ∃ window, restoreBlocks env config st restored (List.range' (start + 1) n) = .ok window ∧
      List.Forall₂ Agrees window (entries.drop start) := by
  obtain ⟨s₀, -, hlive⟩ := bind_eq_ok.mp hc.live
  obtain ⟨-, hlen, hstep⟩ := liveFrom_spec hlive
  induction n generalizing start restored parent with
  | zero =>
    refine ⟨[restored], rfl, ?_⟩
    obtain ⟨hlt, rfl⟩ := List.getElem?_eq_some_iff.mp hparent
    rw [drop_eq_getElem_cons hlt, drop_eq_nil_of_le (by omega)]
    exact .cons h .nil
  | succ n ih =>
    have hlt : start < blocks.length := by omega
    obtain ⟨p, x, hp, hx, hinsert⟩ := hstep (getElem?_eq_getElem hlt)
    cases hparent.symm.trans hp
    obtain ⟨y, hy, hagrees⟩ :=
      restoreBlock_agrees hc hst h (getElem?_eq_getElem hlt) hinsert
    obtain ⟨window, hwindow, hall⟩ := ih (by omega) hx hagrees
    refine ⟨restored :: window, ?_, ?_⟩
    · rw [range'_succ, restoreBlocks, hy, ok_bind, hwindow]
      rfl
    · obtain ⟨hlt', rfl⟩ := List.getElem?_eq_some_iff.mp hparent
      rw [drop_eq_getElem_cons hlt']
      exact .cons h hall

theorem CaughtUp.restored {start : ℕ} (hstart : start ≤ blocks.length)
    (hup : CaughtUp env config genesis blocks start entry) :
    ∃ s₀ s, EpochSnapshot.new env genesis.header genesis.commitmentTxs config = .ok s₀ ∧
      replayEpochData env s₀
        (epochData config genesis blocks (start / config.epoch.numBlocksInEpoch)) = .ok s ∧
      buildCurrentCommitmentSnapshotFromIndex config st
        (blockAt genesis blocks start).header.blockHash s = .ok entry.commitmentSnapshot ∧
      s.withPrevious none = entry.epochSnapshot.withPrevious none := by
  obtain ⟨s₀, s, prev, hnew, hreplay, hsame, -⟩ := hup.replayed
  have hmod := Nat.div_add_mod' start config.epoch.numBlocksInEpoch
  have hlast : start - start % config.epoch.numBlocksInEpoch =
      start / config.epoch.numBlocksInEpoch * config.epoch.numBlocksInEpoch := by omega
  have hcount : start - start / config.epoch.numBlocksInEpoch * config.epoch.numBlocksInEpoch =
      start % config.epoch.numBlocksInEpoch := by omega
  refine ⟨s₀, s, hnew, bind_eq_ok.mpr ⟨_, hreplay, rfl⟩, ?_, hsame⟩
  rw [buildCurrentCommitmentSnapshotFromIndex, (hst.header_at hstart).2, expect_some, ok_bind,
    hc.height_blockAt hstart]
  dsimp only
  rw [hlast, hcount, foldlM_addIndexedBlock hc hst, addCommitments_congr hsame, hup.collected]
  intro i hi
  have hi' := mem_range'_1.mp hi
  omega

end

/-- **Restart equivalence.**  For every start of the retained window the restart succeeds, and
each of its entries has the snapshots of the live entry of the same block. -/
theorem restart_restores_snapshots (hc : CanonicalChain env config genesis blocks entries)
    (hst : Stored st (genesis :: blocks)) {start : ℕ} (hstart : start ≤ blocks.length) :
    ∃ window, restart env config st start = .ok window ∧
      List.Forall₂ SameSnapshots window (entries.drop start) := by
  obtain ⟨entry, hentry, hup⟩ := hc.caughtUp hstart
  obtain ⟨s₀, s, hnew, hreplay, hbuild, hsame⟩ := hup.restored hc hst hstart
  obtain ⟨hindex, hheader⟩ := hst.header_at hstart
  have hlen := hst.length_blockIndex
  have hfirst : Agrees ⟨⟨(blockAt genesis blocks start).header, s⟩, entry.commitmentSnapshot⟩
      entry := ⟨hup.block.symm, hsame, rfl⟩
  obtain ⟨window, hwindow, hall⟩ := restoreBlocks_agrees hc hst
    (Nat.add_sub_of_le hstart) hentry hfirst
  refine ⟨window, ?_, hall.imp fun _ _ h => h.same⟩
  have hnonempty : st.blockIndex.isEmpty = false := by
    rw [isEmpty_eq_false_iff]
    intro hnil
    rw [hnil] at hlen
    cases hlen
  rw [restart, queryReplayData_eq hc hst, ok_bind, restoreFromDb, hnonempty, hindex]
  simp only [Bool.false_eq_true, if_false, filter_epochData hc hstart, hnew, hreplay, mapErr_ok,
    ok_bind, Stores.header, hheader, hbuild]
  rw [hlen, Nat.add_sub_add_right]
  exact hwindow

/-! ### A chain over two epochs -/

/-- A second miner stakes and pledges in the first epoch, and the first pledges again in the
second. -/
def sampleBlocks : List CommitmentBlock :=
  [⟨sampleHeader 1 0 [4, 5], [⟨4, 8, 0, 0, .stake⟩, ⟨5, 8, 0, 0, .pledge 0⟩]⟩,
    ⟨sampleHeader 2 1 [4, 5], [⟨4, 8, 0, 0, .stake⟩, ⟨5, 8, 0, 0, .pledge 0⟩]⟩,
    ⟨sampleHeader 3 1 [6], [⟨6, 7, 0, 0, .pledge 2⟩]⟩,
    ⟨sampleHeader 4 1 [6], [⟨6, 7, 0, 0, .pledge 2⟩]⟩]

def sampleGenesis : CommitmentBlock := ⟨sampleHeader 0 0 [1, 2, 3], sampleCommitments⟩

def sampleStores : Stores where
  blockIndex := (sampleGenesis :: sampleBlocks).map (·.header.blockHash)
  blockHeaderByHash blockHash := ((sampleGenesis :: sampleBlocks).find?
    (·.header.blockHash == blockHash)).map (·.header)
  commitmentTxByTxid txid :=
    ((sampleGenesis :: sampleBlocks).flatMap (·.commitmentTxs)).find? (·.id == txid)
  recoveredCommitmentTxs _ := none

theorem sampleStores_stored : Stored sampleStores (sampleGenesis :: sampleBlocks) :=
  ⟨rfl, by decide, by decide⟩

theorem sampleBlocks_live : (match live referenceEnv twoBlockEpochs sampleGenesis sampleBlocks with
    | .ok entries => entries.map (·.commitmentSnapshot.getEpochCommitments) ==
        [[], (sampleBlocks.flatMap (·.commitmentTxs)).take 2, [],
          [⟨6, 7, 0, 0, .pledge 2⟩], []]
    | .error _ => false) = true := by
  decide +kernel

theorem sampleBlocks_canonical : ∃ entries,
    CanonicalChain referenceEnv twoBlockEpochs sampleGenesis sampleBlocks entries := by
  have hfacts := sampleBlocks_live
  cases hlive : live referenceEnv twoBlockEpochs sampleGenesis sampleBlocks with
  | error e => simp [hlive] at hfacts
  | ok entries =>
    rw [hlive] at hfacts
    have hcollected := beq_iff_eq.mp hfacts
    refine ⟨entries, ⟨rfl, by simp [sampleGenesis, sampleHeader]⟩, hlive, ?_, by decide,
      by decide, ?_⟩
    · intro i b hb
      obtain _ | _ | _ | _ | i := i <;> cases hb <;> rfl
    · intro i parent b hparent hb hdvd
      have hat := congrArg (·[i]?) hcollected
      simp only [getElem?_map, hparent, Option.map_some] at hat
      obtain _ | _ | _ | _ | i := i <;> cases hb
      · exact absurd hdvd (by decide)
      · exact (Option.some.inj hat).symm
      · exact absurd hdvd (by decide)
      · exact (Option.some.inj hat).symm

/-- The sample chain, restarted at its third block: one epoch block is replayed, without the
genesis block as its predecessor, and the window goes through a second one. -/
theorem restart_restores_snapshots_sample : ∃ entries window,
    live referenceEnv twoBlockEpochs sampleGenesis sampleBlocks = .ok entries ∧
      restart referenceEnv twoBlockEpochs sampleStores 3 = .ok window ∧
      List.Forall₂ SameSnapshots window (entries.drop 3) := by
  obtain ⟨entries, hc⟩ := sampleBlocks_canonical
  obtain ⟨window, hrestart, hall⟩ :=
    restart_restores_snapshots hc sampleStores_stored (show 3 ≤ sampleBlocks.length by decide)
  exact ⟨entries, window, hc.live, hrestart, hall⟩

end Replay

end Irys
