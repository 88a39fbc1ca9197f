import Irys.Chain.Stores
import Irys.Epoch.Restart
import Irys.Lib.Rows
import Irys.Migration.Service

/-!
# Inclusion lookups on the migrated chain

The database remembers, for every data transaction, the heights at which it was included and
promoted, and for every commitment the height at which it was included.  The rows are hints: they
are written when a block migrates, deleted when a reorg is confirmed, and the index is truncated in
a transaction of its own, so a crash in between leaves rows of blocks that are gone.  A lookup
believes a row only if the block that the index holds at its height lists the transaction.

* `canonicalSubmitHeight`, `canonicalPromotedHeight`, `canonicalCommitmentIncludedHeight`;
* `heights` and the `_spec` lemmas — what each transaction does to the rows.
-/

namespace Irys.Inclusion

open Option

open Irys.Replay (commitmentTxIds)

/-! ### Rows -/

structure DataTransactionMetadata where
  includedHeight : Option ℕ
  promotedHeight : Option ℕ
  deriving DecidableEq

structure CommitmentTransactionMetadata where
  includedHeight : Option ℕ
  deriving DecidableEq

/-- `is_included`. -/
def DataTransactionMetadata.isIncluded (m : DataTransactionMetadata) : Bool :=
  m.includedHeight.isSome

/-- `is_included`. -/
def CommitmentTransactionMetadata.isIncluded (m : CommitmentTransactionMetadata) : Bool :=
  m.includedHeight.isSome

abbrev DataTable := Std.TreeMap IrysTransactionId DataTransactionMetadata

abbrev CommitmentTable := Std.TreeMap IrysTransactionId CommitmentTransactionMetadata

/-- The errors of the database operations. -/
inductive InclusionError where
  | commitmentWithoutInclusionHeight
  | dataWithoutInclusionHeight
  | promotedWithoutIncluded
  | read (e : ChainReadError)
  | migration (e : MigrationError)
  | genesisNotIndexed
  deriving DecidableEq

def putCommitmentTxMetadata (t : CommitmentTable) (id : IrysTransactionId)
    (metadata : CommitmentTransactionMetadata) : Res InclusionError CommitmentTable :=
  if !metadata.isIncluded then fail .commitmentWithoutInclusionHeight
  else .ok (t.insert id metadata)

def setCommitmentTxIncludedHeight (height : ℕ) (t : CommitmentTable) (id : IrysTransactionId) :
    Res InclusionError CommitmentTable :=
  putCommitmentTxMetadata t id { t[id]?.getD ⟨none⟩ with includedHeight := some height }

def clearCommitmentTxMetadata (t : CommitmentTable) (id : IrysTransactionId) :
    Res InclusionError CommitmentTable :=
  .ok (t.erase id)

def putDataTxMetadata (t : DataTable) (id : IrysTransactionId)
    (metadata : DataTransactionMetadata) : Res InclusionError DataTable :=
  if !metadata.isIncluded then fail .dataWithoutInclusionHeight
  else .ok (t.insert id metadata)

def setDataTxIncludedHeight (height : ℕ) (t : DataTable) (id : IrysTransactionId) :
    Res InclusionError DataTable :=
  putDataTxMetadata t id { t[id]?.getD ⟨none, none⟩ with includedHeight := some height }

def setDataTxPromotedHeight (height : ℕ) (t : DataTable) (id : IrysTransactionId) :
    Res InclusionError DataTable :=
  let metadata := t[id]?.getD ⟨none, none⟩
  if !metadata.isIncluded then fail .promotedWithoutIncluded
  else putDataTxMetadata t id { metadata with promotedHeight := some height }

def clearDataTxPromotedHeight (t : DataTable) (id : IrysTransactionId) :
    Res InclusionError DataTable :=
  match t[id]? with
  | none => .ok t
  | some metadata =>
    let metadata := { metadata with promotedHeight := none }
    if metadata.isIncluded then putDataTxMetadata t id metadata else .ok (t.erase id)

/-- `clear_data_tx_included_height`: the whole row goes. -/
def clearDataTxIncludedHeight (t : DataTable) (id : IrysTransactionId) :
    Res InclusionError DataTable :=
  .ok (t.erase id)

/-! ### Transactions -/

/-- **The tables of the database** behind the lookups: those of the migration, and the rows of the
data transactions and of the commitments. -/
structure InclusionDb extends NodeStores where
  dataTxs : DataTable
  commitmentTxs : CommitmentTable

/-- `write_data_ledger_metadata`: the term ledgers before the Publish ledger, so that a transaction
submitted and promoted by one block has its inclusion when it is promoted. -/
def writeDataLedgerMetadata (t : DataTable) (dataLedgers : List DataTransactionLedger)
    (height : ℕ) : Res InclusionError DataTable := do
  let t ← (dataLedgers.filter (·.ledgerId != .publish)).foldlM
    (fun t dl => dl.txIds.foldlM (setDataTxIncludedHeight height) t) t
  (dataLedgers.filter (·.ledgerId == .publish)).foldlM
    (fun t dl => dl.txIds.foldlM (setDataTxPromotedHeight height) t) t

def isNonGenesisEpochBlock (numBlocksInEpoch height : ℕ) : Bool :=
  height != 0 && decide (numBlocksInEpoch ∣ height)

def persistCommitmentInclusions (numBlocksInEpoch : ℕ) (t : CommitmentTable)
    (header : IrysBlockHeader) : Res InclusionError CommitmentTable :=
  let commitmentIds := commitmentTxIds header
  if commitmentIds.isEmpty || isNonGenesisEpochBlock numBlocksInEpoch header.height then .ok t
  else commitmentIds.foldlM (setCommitmentTxIncludedHeight header.height) t

def clearCommitmentInclusions (numBlocksInEpoch : ℕ) (t : CommitmentTable)
    (header : IrysBlockHeader) : Res InclusionError CommitmentTable :=
  let commitmentIds := commitmentTxIds header
  if commitmentIds.isEmpty || isNonGenesisEpochBlock numBlocksInEpoch header.height then .ok t
  else commitmentIds.foldlM clearCommitmentTxMetadata t

section

variable (numBlocksInEpoch : ℕ) (db : InclusionDb)

/-- **`persist_block`**: the rows of a migrating block, its header and its entry in the index, in
one transaction. -/
def persistBlock (header : IrysBlockHeader) :
    Res InclusionError InclusionDb := do
  let dataTxs ← writeDataLedgerMetadata db.dataTxs header.dataLedgers header.height
  let commitmentTxs ← persistCommitmentInclusions numBlocksInEpoch db.commitmentTxs header
  let stores ← mapErr .migration ((Irys.persistBlock header).exec db.toNodeStores)
  return ⟨stores, dataTxs, commitmentTxs⟩

/-- What `persist_metadata` does to the rows of one orphaned block. -/
def clearBlock (header : IrysBlockHeader) :
    Res InclusionError InclusionDb := do
  let dataTxs ← header.dataLedgers.foldlM (fun t dl =>
    if dl.ledgerId == .publish then dl.txIds.foldlM clearDataTxPromotedHeight t
    else dl.txIds.foldlM clearDataTxIncludedHeight t) db.dataTxs
  let commitmentTxs ← clearCommitmentInclusions numBlocksInEpoch db.commitmentTxs header
  return { db with dataTxs, commitmentTxs }

/-- **`persist_metadata`**, as far as it touches these tables. -/
def persistMetadata
    (blocksToClear : List IrysBlockHeader) : Res InclusionError InclusionDb :=
  blocksToClear.foldlM (clearBlock numBlocksInEpoch) db

end

/-- The rollback of `recover_from_network_partition`: the index ends at the fork parent. -/
def truncate (db : InclusionDb) (forkParentHeight : ℕ) : InclusionDb :=
  { db with toNodeStores := db.toNodeStores.truncate forkParentHeight }

/-! ### Lookups -/

/-- The block that the index holds at a height. -/
def InclusionDb.indexedBlock (db : InclusionDb) (height : ℕ) : Option IrysBlockHeader :=
  db.index[height]?.bind (db.headers[·]?)

section

variable (db : InclusionDb) (id : IrysTransactionId) (maxHeight : ℕ)

def canonicalSubmitHeight : Res ChainReadError (Option ℕ) :=
  canonicalMetadataHeight (db.index[·]?) (db.headers[·]?) id maxHeight
    (db.dataTxs[id]?.bind (·.includedHeight)) .submit

def canonicalPromotedHeight : Res ChainReadError (Option ℕ) :=
  canonicalMetadataHeight (db.index[·]?) (db.headers[·]?) id maxHeight
    (db.dataTxs[id]?.bind (·.promotedHeight)) .publish

def canonicalCommitmentIncludedHeight : Res ChainReadError (Option ℕ) :=
  verifiedHeight (db.index[·]?) (db.headers[·]?) maxHeight
    (fun header => (commitmentTxIds header).contains id)
    (db.commitmentTxs[id]?.bind (·.includedHeight))

end

/-- `backfill_genesis_commitment_included_height`, at every boot. -/
def backfillGenesisCommitmentIncludedHeight (db : InclusionDb) :
    Res InclusionError InclusionDb := do
  match ← mapErr .read (canonicalHeaderAtHeight (db.index[·]?) (db.headers[·]?) 0) with
  | none => fail .genesisNotIndexed
  | some genesisHeader => do
    let commitmentTxs ← (commitmentTxIds genesisHeader).foldlM
      (setCommitmentTxIncludedHeight 0) db.commitmentTxs
    return { db with commitmentTxs }

/-! ### The node -/

/-- A node: its database, the chain its tree follows, genesis first, and the fork whose rows the
move of the tip has still to clear.  Only the database survives a crash. -/
structure InclusionNode where
  db : InclusionDb
  chain : List IrysBlockHeader
  orphaned : Option (List IrysBlockHeader)

/-- What can happen to a node.  Each event commits at most one transaction; a step of `Node.step`
is a run of them (`index_simulated`). -/
inductive InclusionEvent where
  /-- The tip moves to a fork of the chain.  An index that reaches above the fork parent is rolled
  back to it; the blocks that are left behind are to be cleared next. -/
  | moveTip (forkParentHeight : ℕ) (newFork : List IrysBlockHeader)
  /-- The rows of the blocks left behind are cleared. -/
  | persistMetadata
  /-- The next block of the chain migrates. -/
  | migrate
  /-- A crash, and a boot: the tree is rebuilt from the index. -/
  | restart

namespace InclusionNode

variable (numBlocksInEpoch : ℕ)

/-- A node at its first boot: the genesis block is stored and indexed. -/
def start (genesis : IrysBlockHeader) : Res InclusionError InclusionNode := do
  let db ← backfillGenesisCommitmentIncludedHeight ⟨.start genesis none, {}, {}⟩
  return ⟨db, [genesis], none⟩

/-- One event. -/
def step (node : InclusionNode) : InclusionEvent → Res InclusionError InclusionNode
  | .moveTip forkParentHeight newFork =>
    .ok { db :=
            if node.db.index.length ≤ forkParentHeight + 1 then node.db
            else truncate node.db forkParentHeight
          chain := node.chain.take (forkParentHeight + 1) ++ newFork
          orphaned := some (node.chain.drop (forkParentHeight + 1)) }
  | .persistMetadata => do
    let db ← persistMetadata numBlocksInEpoch node.db (node.orphaned.getD [])
    return { node with db, orphaned := none }
  | .migrate =>
    match node.chain[node.db.index.length]? with
    | none => .ok node
    | some block => do
      let db ← persistBlock numBlocksInEpoch node.db block
      return { node with db }
  | .restart => do
    let db ← backfillGenesisCommitmentIncludedHeight node.db
    return ⟨db, db.index.filterMap (db.headers[·]?), none⟩

/-- A run of events. -/
def run (node : InclusionNode) (events : List InclusionEvent) :
    Res InclusionError InclusionNode :=
  events.foldlM (step numBlocksInEpoch) node

end InclusionNode

/-! ### Chains -/

/-- The transactions that a block puts into its term ledgers. -/
def termTxIds (header : IrysBlockHeader) : List IrysTransactionId :=
  (header.dataLedgers.filter (·.ledgerId != .publish)).flatMap (·.txIds)

/-- The transactions that a block promotes. -/
def publishTxIds (header : IrysBlockHeader) : List IrysTransactionId :=
  (header.dataLedgers.filter (·.ledgerId == .publish)).flatMap (·.txIds)

/-- The commitments that a block includes; the roll-up of an epoch block includes none. -/
def includedCommitments (numBlocksInEpoch : ℕ) (header : IrysBlockHeader) :
    List IrysTransactionId :=
  if isNonGenesisEpochBlock numBlocksInEpoch header.height then [] else commitmentTxIds header

/-- What the blocks of a network share: the length of an epoch, the block that a hash names, and
the genesis block. -/
structure Network where
  numBlocksInEpoch : ℕ
  blockOf : H256 → Option IrysBlockHeader
  genesis : IrysBlockHeader

/-- **A chain of validated blocks.**  Blocks name one another by their hashes and no two blocks
share one (`named`); no transaction is included twice; what is promoted was submitted, at the
latest by the same block.  The genesis block carries no data. -/
@[mk_iff]
structure ValidChain (net : Network) (chain : List IrysBlockHeader) : Prop where
  head : chain.head? = some net.genesis
  heights : chain.map (·.height) = List.range chain.length
  links : chain.IsChain fun p b => b.previousBlockHash = p.blockHash
  named : ∀ b ∈ chain, net.blockOf b.blockHash = some b
  submittedOnce : chain.Pairwise fun b c => ∀ id ∈ termTxIds b, id ∉ termTxIds c
  promotedOnce : chain.Pairwise fun b c => ∀ id ∈ publishTxIds b, id ∉ publishTxIds c
  committedOnce : chain.Pairwise fun b c =>
    ∀ id ∈ includedCommitments net.numBlocksInEpoch b,
      id ∉ includedCommitments net.numBlocksInEpoch c
  submittedFirst : ∀ c ∈ chain, ∀ id ∈ publishTxIds c,
    ∃ b ∈ chain, b.height ≤ c.height ∧ id ∈ termTxIds b
  genesisEmpty : termTxIds net.genesis = [] ∧ publishTxIds net.genesis = []

namespace InclusionNode

variable (net : Network)

/-- Whether an event can happen.  The tip moves to a valid chain, and the move clears the rows of
the blocks it leaves behind before it migrates any. -/
def Admits (node : InclusionNode) : InclusionEvent → Prop
  | .moveTip forkParentHeight newFork =>
    ValidChain net (node.chain.take (forkParentHeight + 1) ++ newFork)
  | .persistMetadata => True
  | .migrate => node.orphaned = none
  | .restart => True

/-- Every event of a run can happen when it does. -/
abbrev AdmitsAll : InclusionNode → List InclusionEvent → Prop :=
  Along (fun node event => (node.step net.numBlocksInEpoch event).toOption) (Admits net)

end InclusionNode

/-! ### What the operations do to the rows -/

section Rows

variable {t : DataTable}

theorem getElem?_insert_row {ρ : Type} (t : Std.TreeMap IrysTransactionId ρ)
    (id k : IrysTransactionId) (row : ρ) :
    (t.insert id row)[k]? = if k = id then some row else t[k]? := by
  rw [Std.TreeMap.getElem?_insert]
  simp only [Nat.compare_eq_eq, @eq_comm _ k id]

theorem getElem?_erase_row {ρ : Type} (t : Std.TreeMap IrysTransactionId ρ)
    (id k : IrysTransactionId) : (t.erase id)[k]? = if k = id then none else t[k]? := by
  rw [Std.TreeMap.getElem?_erase]
  simp only [Nat.compare_eq_eq, @eq_comm _ k id]

/-- The two heights that the table has for a data transaction. -/
def heights (t : DataTable) (id : IrysTransactionId) : Option ℕ × Option ℕ :=
  (t[id]?.bind (·.includedHeight), t[id]?.bind (·.promotedHeight))

theorem included_iff {t : DataTable} {id : IrysTransactionId} {height : ℕ} :
    (∃ m, t[id]? = some m ∧ m.includedHeight = some height) ↔ (heights t id).1 = some height :=
  bind_eq_some_iff.symm

theorem promoted_iff {t : DataTable} {id : IrysTransactionId} {height : ℕ} :
    (∃ m, t[id]? = some m ∧ m.promotedHeight = some height) ↔ (heights t id).2 = some height :=
  bind_eq_some_iff.symm

theorem heights_insert (t : DataTable) (id k : IrysTransactionId) (m : DataTransactionMetadata) :
    heights (t.insert id m) k =
      if k = id then (m.includedHeight, m.promotedHeight) else heights t k := by
  rw [heights, getElem?_insert_row]
  split <;> rfl

theorem heights_erase (t : DataTable) (id k : IrysTransactionId) :
    heights (t.erase id) k = if k = id then (none, none) else heights t k := by
  rw [heights, getElem?_erase_row]
  split <;> rfl

theorem setDataTxIncludedHeight_rewrites (height : ℕ) :
    RewritesRow heights (fun _ => True) (fun row => (some height, row.2))
      (setDataTxIncludedHeight height) := by
  intro t id _
  refine ⟨_, rfl, fun k => ?_⟩
  rw [heights_insert]
  dsimp only [heights]
  cases t[id]? <;> rfl

theorem setDataTxPromotedHeight_rewrites (height : ℕ) :
    RewritesRow heights (fun row => row.1.isSome = true) (fun row => (row.1, some height))
      (setDataTxPromotedHeight height) := by
  intro t id hrow
  cases hm : t[id]? with
  | none => simp [heights, hm] at hrow
  | some m =>
    rw [heights, hm] at hrow ⊢
    have hincluded : m.includedHeight.isSome = true := hrow
    refine ⟨t.insert id { m with promotedHeight := some height }, ?_, fun k => heights_insert t id k _⟩
    simp [setDataTxPromotedHeight, putDataTxMetadata, DataTransactionMetadata.isIncluded, hm,
      hincluded]

theorem clearDataTxIncludedHeight_rewrites :
    RewritesRow heights (fun _ => True) (fun _ => (none, none)) clearDataTxIncludedHeight := by
  intro t id _
  exact ⟨_, rfl, heights_erase t id⟩

theorem clearDataTxPromotedHeight_rewrites :
    RewritesRow heights (fun _ => True) (fun row => (row.1, none)) clearDataTxPromotedHeight := by
  intro t id _
  rw [clearDataTxPromotedHeight, heights]
  cases hm : t[id]? with
  | none =>
    refine ⟨t, rfl, fun k => ?_⟩
    split
    · rename_i hk
      rw [hk, heights, hm]
      rfl
    · rfl
  | some m =>
    -- a row without an inclusion goes as a whole
    cases hincluded : m.includedHeight with
    | none =>
      refine ⟨t.erase id, ?_, fun k => ?_⟩
      · simp [DataTransactionMetadata.isIncluded, hincluded]
      · rw [heights_erase, bind_some, hincluded]
    | some height =>
      refine ⟨t.insert id { m with promotedHeight := none }, ?_, fun k => heights_insert t id k _⟩
      simp [putDataTxMetadata, DataTransactionMetadata.isIncluded, hincluded]

theorem setCommitmentTxIncludedHeight_rewrites (height : ℕ) :
    RewritesRow (fun (t : CommitmentTable) id => t[id]?) (fun _ => True)
      (fun _ => some ⟨some height⟩) (setCommitmentTxIncludedHeight height) := by
  intro t id _
  exact ⟨_, rfl, fun k => getElem?_insert_row t id k _⟩

theorem clearCommitmentTxMetadata_rewrites :
    RewritesRow (fun (t : CommitmentTable) id => t[id]?) (fun _ => True) (fun _ => none)
      clearCommitmentTxMetadata := by
  intro t id _
  exact ⟨_, rfl, fun k => getElem?_erase_row t id k⟩

/-- **The rows of a migrating block's data**: what it submits is included at its height, what it
publishes is promoted there, and no other inclusion or promotion changes. -/
theorem writeDataLedgerMetadata_spec {header : IrysBlockHeader}
    (hpublish : ∀ id ∈ publishTxIds header, id ∉ termTxIds header →
      (heights t id).1.isSome = true) :
    ∃ t', writeDataLedgerMetadata t header.dataLedgers header.height = .ok t' ∧ ∀ id,
      heights t' id = (if id ∈ termTxIds header then some header.height else (heights t id).1,
        if id ∈ publishTxIds header then some header.height else (heights t id).2) := by
  obtain ⟨mid, hmid, hmidRows⟩ := (setDataTxIncludedHeight_rewrites header.height).batch
    (fun _ _ => ⟨trivial, rfl⟩) (termTxIds header) t fun _ _ => trivial
  have hincluded : ∀ id ∈ publishTxIds header, (heights mid id).1.isSome = true := by
    intro id hid
    rw [hmidRows id]
    split
    · rfl
    · exact hpublish id hid ‹_›
  obtain ⟨t', ht', hrows⟩ := (setDataTxPromotedHeight_rewrites header.height).batch
    (fun _ hrow => ⟨hrow, rfl⟩) (publishTxIds header) mid hincluded
  refine ⟨t', ?_, fun id => ?_⟩
  · rw [writeDataLedgerMetadata, foldlM_flatMap]
    show (termTxIds header).foldlM _ t >>= _ = _
    rw [hmid, ok_bind, foldlM_flatMap]
    exact ht'
  · rw [hrows id, hmidRows id]
    split <;> split <;> rfl

/-- **The rows of an orphaned block's data**: those of what it submits go, what it publishes is no
longer promoted, and every other row stays as it is. -/
theorem clearData_spec (dataLedgers : List DataTransactionLedger) (t : DataTable) :
    ∃ t', dataLedgers.foldlM (fun t dl =>
        if dl.ledgerId == .publish then dl.txIds.foldlM clearDataTxPromotedHeight t
        else dl.txIds.foldlM clearDataTxIncludedHeight t) t = (.ok t' : Res InclusionError _) ∧
      ∀ id, heights t' id =
        if id ∈ (dataLedgers.filter (·.ledgerId != .publish)).flatMap (·.txIds) then (none, none)
        else if id ∈ (dataLedgers.filter (·.ledgerId == .publish)).flatMap (·.txIds) then
          ((heights t id).1, none)
        else heights t id := by
  induction dataLedgers generalizing t with
  | nil => exact ⟨t, rfl, fun _ => rfl⟩
  | cons dl dls ih =>
    rw [List.foldlM_cons, List.filter_cons, List.filter_cons, bne]
    cases dl.ledgerId == .publish with
    | true =>
      obtain ⟨mid, hmid, hmidRows⟩ := clearDataTxPromotedHeight_rewrites.batch
        (fun _ _ => ⟨trivial, rfl⟩) dl.txIds t fun _ _ => trivial
      obtain ⟨t', ht', hrows⟩ := ih mid
      refine ⟨t', by rw [if_pos rfl, hmid, ok_bind, ht'], fun id => ?_⟩
      rw [hrows id, hmidRows id]
      by_cases hid : id ∈ dl.txIds <;> simp only [hid, Bool.not_true, Bool.false_eq_true,
        List.flatMap_cons, List.mem_append, true_or, false_or, if_true, if_false, ite_self]
    | false =>
      obtain ⟨mid, hmid, hmidRows⟩ := clearDataTxIncludedHeight_rewrites.batch
        (fun _ _ => ⟨trivial, rfl⟩) dl.txIds t fun _ _ => trivial
      obtain ⟨t', ht', hrows⟩ := ih mid
      refine ⟨t', by rw [if_neg Bool.false_ne_true, hmid, ok_bind, ht'], fun id => ?_⟩
      rw [hrows id, hmidRows id]
      by_cases hid : id ∈ dl.txIds <;> simp only [hid, Bool.not_false, Bool.false_eq_true,
        List.flatMap_cons, List.mem_append, true_or, false_or, if_true, if_false, ite_self]

end Rows

/-! ### The rows of the commitments -/

section Commitments

variable {numBlocksInEpoch : ℕ}

theorem guarded_eq_foldlM (op : CommitmentTable → IrysTransactionId → Res InclusionError
    CommitmentTable) (t : CommitmentTable) (header : IrysBlockHeader) :
    (if (commitmentTxIds header).isEmpty ||
        isNonGenesisEpochBlock numBlocksInEpoch header.height then .ok t
      else (commitmentTxIds header).foldlM op t) =
        (includedCommitments numBlocksInEpoch header).foldlM op t := by
  rw [includedCommitments]
  cases isNonGenesisEpochBlock numBlocksInEpoch header.height with
  | true =>
    rw [Bool.or_true]
    rfl
  | false =>
    cases commitmentTxIds header with
    | nil => rfl
    | cons id ids => rfl

theorem not_isNonGenesisEpochBlock_of_mem {header : IrysBlockHeader} {id : IrysTransactionId}
    (hid : id ∈ includedCommitments numBlocksInEpoch header) :
    isNonGenesisEpochBlock numBlocksInEpoch header.height = false := by
  rw [includedCommitments] at hid
  split at hid
  · cases hid
  · rename_i hepoch
    exact Bool.not_eq_true _ ▸ hepoch

theorem persistCommitmentInclusions_spec (numBlocksInEpoch : ℕ) (t : CommitmentTable)
    (header : IrysBlockHeader) :
    ∃ t', persistCommitmentInclusions numBlocksInEpoch t header = .ok t' ∧ ∀ id,
      t'[id]? = if id ∈ includedCommitments numBlocksInEpoch header then
        some ⟨some header.height⟩ else t[id]? := by
  rw [persistCommitmentInclusions, guarded_eq_foldlM]
  exact (setCommitmentTxIncludedHeight_rewrites header.height).batch (fun _ _ => ⟨trivial, rfl⟩)
    _ t fun _ _ => trivial

theorem clearCommitmentInclusions_spec (numBlocksInEpoch : ℕ) (t : CommitmentTable)
    (header : IrysBlockHeader) :
    ∃ t', clearCommitmentInclusions numBlocksInEpoch t header = .ok t' ∧ ∀ id,
      t'[id]? = if id ∈ includedCommitments numBlocksInEpoch header then none else t[id]? := by
  rw [clearCommitmentInclusions, guarded_eq_foldlM]
  exact clearCommitmentTxMetadata_rewrites.batch (fun _ _ => ⟨trivial, rfl⟩) _ t
    fun _ _ => trivial

end Commitments

end Irys.Inclusion
