import Irys.Chain.Stores
import Irys.Expiry.SubmitRange

/-!
# The per-candidate promotion filter

A publish candidate is judged by where it was included in the Submit ledger.  A migrated
inclusion is read from the database, any other is found by walking the parent's ancestry.

* `resolveSubmitInclusion` — the inclusion block of a candidate, on the parent's own branch.
-/

namespace Irys

/-- **A candidate's inclusion block**: its hash, the Submit chunks before and through it, and the
tree's copy when the ancestry walk found it. -/
structure SubmitInclusion where
  blockHash : H256
  base : ℕ
  total : ℕ
  sealedBlock : Option SealedBlock

/-- `walk_submit_inclusion`, for as many blocks as are left to visit. -/
def walkSubmitInclusion (s : Stores) (txid : IrysTransactionId) :
    ℕ → H256 → Res ChainReadError (Option (H256 × ℕ × ℕ))
  | 0, _ => .ok none
  | left + 1, cursor =>
    match s.tree cursor with
    | none => .ok none
    | some block =>
      if Stores.blockIncludesLedgerTx block.header .submit txid then do
        let base ← s.predecessorTotal block.header .submit
        return some (cursor, base, block.header.ledgerTotalChunks .submit)
      else walkSubmitInclusion s txid left block.header.previousBlockHash

/-- The fast path of `resolve_submit_inclusion`: a migrated inclusion, at a height of the index. -/
def indexedInclusion (s : Stores) (height : ℕ) : Res ChainReadError SubmitInclusion :=
  match s.index[height]? with
  | none => fail (.submitHeightNotIndexed height)
  | some item =>
    let total := ledgerTotalOfIndexItem item .submit
    if height = 0 then .ok ⟨item.blockHash, 0, total, none⟩
    else
      match s.index[height - 1]? with
      | none => fail (.predecessorNotIndexed (height - 1))
      | some prev => .ok ⟨item.blockHash, ledgerTotalOfIndexItem prev .submit, total, none⟩

def resolveSubmitInclusion (s : Stores) (config : ConsensusConfig) (txid : IrysTransactionId)
    (range : ExpiredSubmitRange) : Res ChainReadError (Option SubmitInclusion) := do
  let maxHeight := range.blockHeight - 1
  match ← s.canonicalSubmitHeight txid maxHeight with
  | some height => do
    let inclusion ← indexedInclusion s height
    return some inclusion
  | none => do
    let maxWalk := config.txAnchorExpiryDepth
    let resolved ← walkSubmitInclusion s txid (maxWalk + 1) range.parentBlockHash
    return resolved.map fun (blockHash, base, total) =>
      ⟨blockHash, base, total, s.tree blockHash⟩

/-- The transactions of an inclusion block: the tree's copy of the walk, else read by hash. -/
def SubmitInclusion.headers (s : Stores) (inc : SubmitInclusion) :
    Res ChainReadError (List DataTransactionHeader) :=
  match inc.sealedBlock with
  | some block => Stores.ledgerTxHeadersOfSealedBlock block .submit
  | none => s.ledgerTxHeadersOfBlock inc.blockHash .submit

/-- The sizes of a list of transactions by id, as `submit_tx_start_offset` takes them. -/
def sizesById (headers : List DataTransactionHeader) : List (IrysTransactionId × ℕ) :=
  headers.map fun h => (h.id, h.dataSize)

/-- **`submit_tx_expired`**: whether a candidate's Submit storage has expired.  The inclusion
block's transactions are read only when the range ends inside the block. -/
def submitTxExpired (s : Stores) (config : ConsensusConfig) (txid : IrysTransactionId)
    (range : ExpiredSubmitRange) : Res ChainReadError Bool := do
  match ← resolveSubmitInclusion s config txid range with
  | none => return false
  | some inc =>
    match submitSpanVerdict inc.base inc.total range.rangeEnd with
    | some verdict => return verdict
    | none => do
      let headers ← inc.headers s
      let startOffset :=
        submitTxStartOffset txid (sizesById headers) inc.base config.chunkSize
      return startOffset.any fun offset => decide (offset < range.rangeEnd)

/-- With the block's transactions at hand, the verdict on an inclusion is `submitVerdict`. -/
theorem submitTxExpired_of_inclusion {s : Stores} {config : ConsensusConfig}
    {txid : IrysTransactionId} {range : ExpiredSubmitRange} {inc : SubmitInclusion}
    {headers : List DataTransactionHeader}
    (hinc : resolveSubmitInclusion s config txid range = .ok (some inc))
    (hheaders : inc.headers s = .ok headers) :
    submitTxExpired s config txid range = .ok (submitVerdict inc.base inc.total range.rangeEnd
      (submitTxStartOffset txid (sizesById headers) inc.base config.chunkSize)) := by
  rw [submitTxExpired, hinc, ok_bind, submitVerdict]
  dsimp only
  cases submitSpanVerdict inc.base inc.total range.rangeEnd with
  | some verdict => rfl
  | none =>
    dsimp only
    rw [hheaders]
    rfl

end Irys
