import Irys.Epoch.Snapshot

/-!
# The promotion filter

A Submit transaction may be promoted to the Publish ledger only while its Submit storage is
live.  For a block under test the expired slots give a range `[0, rangeEnd)` of chunks, and a
candidate is refused when it starts inside the range.
-/

namespace Irys

/-- The block-level inputs of the check: the block under test, the exclusive end of the expired
chunks, and the block's parent. -/
structure ExpiredSubmitRange where
  blockHeight : ℕ
  rangeEnd : ℕ
  parentBlockHash : H256
  deriving DecidableEq

/-- Why the range could not be computed. -/
inductive SubmitRangeError where
  | notContiguousPrefix (slotIndexes : List ℕ) (slot position : ℕ)
  | zeroPartitionSize
  deriving DecidableEq

/-- **`expired_submit_range`**: the expired chunks as of a block, or `none` if there are none. -/
def expiredSubmitRange (blockHeight : ℕ) (parentEpochSnapshot : EpochSnapshot)
    (parentBlockHeader : IrysBlockHeader) (config : ConsensusConfig) (cascade : Bool) :
    Res SubmitRangeError (Option ExpiredSubmitRange) := do
  let parentTotal := parentBlockHeader.ledgerTotalChunks .submit
  let slotIndexes ←
    parentEpochSnapshot.getAllExpiredTermSlotIndexes .submit blockHeight cascade parentTotal
  match slotIndexes.max? with
  | none => return none
  | some maxExpiredSlot =>
    match slotIndexes.zipIdx.find? (fun (slot, i) => slot != i) with
    | some (slot, i) => fail (.notContiguousPrefix slotIndexes slot i)
    | none =>
      let p := config.numChunksInPartition
      if p = 0 then fail .zeroPartitionSize
      else
        let rangeEnd :=
          min (saturatingMul 64 (saturatingAdd 64 maxExpiredSlot 1) p) parentTotal
        if rangeEnd = 0 then return none
        else return some { blockHeight, rangeEnd, parentBlockHash := parentBlockHeader.blockHash }

/-- The verdict of a whole inclusion block: `none` when the range ends inside it. -/
def submitSpanVerdict (base total rangeEnd : ℕ) : Option Bool :=
  if total ≤ rangeEnd then some true
  else if rangeEnd ≤ base then some false
  else none

/-- The loop of `submit_tx_start_offset`. -/
def startOffsetFrom (target : IrysTransactionId) (chunkSize : ℕ) :
    List (IrysTransactionId × ℕ) → ℕ → Option ℕ
  | [], _ => none
  | (id, dataSize) :: rest, offset =>
    if id = target then some offset
    else startOffsetFrom target chunkSize rest
      (saturatingAdd 64 offset (divCeil dataSize chunkSize))

/-- **`submit_tx_start_offset`**: where a transaction starts in the Submit ledger, from the
chunks before its block and the sizes of the block's transactions in order. -/
def submitTxStartOffset (target : IrysTransactionId)
    (blockSubmitTxs : List (IrysTransactionId × ℕ)) (baseChunks chunkSize : ℕ) : Option ℕ :=
  if chunkSize = 0 then none else startOffsetFrom target chunkSize blockSubmitTxs baseChunks

/-- The verdict of `submit_tx_expired` on a candidate whose inclusion block spans
`[base, total)`: the span decides, or the candidate's start offset does. -/
def submitVerdict (base total rangeEnd : ℕ) (startOffset : Option ℕ) : Bool :=
  match submitSpanVerdict base total rangeEnd with
  | some verdict => verdict
  | none => startOffset.any fun offset => decide (offset < rangeEnd)

/-! ### The verdict is the offset comparison -/

variable {target : IrysTransactionId} {chunkSize base start total rangeEnd : ℕ}
    {txs : List (IrysTransactionId × ℕ)}

theorem le_of_startOffsetFrom
    (h : startOffsetFrom target chunkSize txs base = some start) (hlt : start < 2 ^ 64 - 1) :
    base ≤ start := by
  induction txs generalizing base with
  | nil => cases h
  | cons tx rest ih =>
    obtain ⟨id, size⟩ := tx
    rw [startOffsetFrom] at h
    split at h
    · cases h
      exact le_rfl
    · have hle := ih h
      rw [saturatingAdd] at hle
      omega

theorem submitTxStartOffset_eq_some :
    submitTxStartOffset target txs base chunkSize = some start ↔
      chunkSize ≠ 0 ∧ startOffsetFrom target chunkSize txs base = some start := by
  rw [submitTxStartOffset, Option.ite_none_left_eq_some]

/-- **The verdict is the offset comparison**, whichever way it is reached, for a candidate that
starts inside its block. -/
theorem submitVerdict_of_start (hbase : base ≤ start)
    (htotal : start < total) :
    submitVerdict base total rangeEnd (some start) = decide (start < rangeEnd) := by
  rw [submitVerdict, submitSpanVerdict]
  by_cases hwhole : total ≤ rangeEnd
  · rw [if_pos hwhole]
    simpa using htotal.trans_le hwhole
  · rw [if_neg hwhole]
    by_cases hpast : rangeEnd ≤ base
    · rw [if_pos hpast]
      simpa using hpast.trans hbase
    · rw [if_neg hpast]
      rfl

theorem submitVerdict_of_lt (hbase : base ≤ start)
    (hlt : start < rangeEnd) : submitVerdict base total rangeEnd (some start) = true := by
  rw [submitVerdict, submitSpanVerdict]
  by_cases hwhole : total ≤ rangeEnd
  · rw [if_pos hwhole]
  · rw [if_neg hwhole, if_neg (by omega)]
    simpa using hlt

/-! ### The range of a prefix -/

theorem max?_range (k : ℕ) : (List.range (k + 1)).max? = some k := by
  rw [List.max?_eq_some_iff]
  simp only [List.mem_range]
  exact ⟨by omega, fun b hb => by omega⟩

theorem find?_zipIdx_range (k : ℕ) :
    (List.range k).zipIdx.find? (fun (slot, i) => slot != i) = none := by
  rw [List.find?_eq_none]
  rintro ⟨slot, i⟩ hmem
  rw [List.mem_zipIdx_iff_getElem?, List.getElem?_eq_some_iff] at hmem
  obtain ⟨hi, hslot⟩ := hmem
  rw [List.getElem_range] at hslot
  simpa using hslot.symm

/-- **The range when the expired slots are `0..k`**: it ends at the end of slot `k`, or at the
parent's total. -/
theorem expiredSubmitRange_of_eq_range {blockHeight : ℕ} {s : EpochSnapshot} {parent : IrysBlockHeader}
    {config : ConsensusConfig} {cascade : Bool} {k : ℕ}
    (hslots : (s.getAllExpiredTermSlotIndexes .submit blockHeight cascade
      (parent.ledgerTotalChunks .submit) : Res SubmitRangeError _) = .ok (List.range (k + 1)))
    (hC : 0 < config.numChunksInPartition) (hpos : 0 < parent.ledgerTotalChunks .submit)
    (hfits : parent.ledgerTotalChunks .submit < 2 ^ 64) :
    expiredSubmitRange blockHeight s parent config cascade =
      .ok (some ⟨blockHeight,
        min ((k + 1) * config.numChunksInPartition) (parent.ledgerTotalChunks .submit),
        parent.blockHash⟩) := by
  have hmul : k + 1 ≤ (k + 1) * config.numChunksInPartition := Nat.le_mul_of_pos_right _ hC
  have hend : min (saturatingMul 64 (saturatingAdd 64 k 1) config.numChunksInPartition)
      (parent.ledgerTotalChunks .submit) =
        min ((k + 1) * config.numChunksInPartition) (parent.ledgerTotalChunks .submit) := by
    rw [saturatingAdd, saturatingMul]
    by_cases hk : k + 1 ≤ 2 ^ 64 - 1
    · rw [Nat.min_eq_left hk]
      omega
    · -- both products are past every `u64`
      have hbig : 2 ^ 64 - 1 ≤ min (k + 1) (2 ^ 64 - 1) * config.numChunksInPartition :=
        (by omega : 2 ^ 64 - 1 ≤ min (k + 1) (2 ^ 64 - 1)).trans (Nat.le_mul_of_pos_right _ hC)
      omega
  rw [expiredSubmitRange, hslots, ok_bind, max?_range]
  simp only [find?_zipIdx_range]
  rw [if_neg hC.ne', hend, if_neg (by omega)]
  rfl

end Irys
