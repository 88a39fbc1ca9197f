import Irys.Lib.Machine

/-!
# Chunk and segment layout

`geometry.rs` of the data tree.  A `Geometry` carries the rules `Geometry::new` checks as
fields, so a value of the type is exactly an accepted geometry (`Geometry.new_of_parts`).
Sizes and indexes are natural numbers; every product the source computes with `checked_mul`
is checked here too, and the spec lemmas show that no check fails:

* `chunkCount_eq_ok_iff`, `chunkLen_eq_ok_iff`, `segmentLen_eq_ok_iff` — when a length is
  returned, and which;
* `segmentsPerChunk_eq`, `segmentSize_mul` — a chunk is `2 ^ height` segments.
-/

namespace Irys.Tree

open Irys

/-- Upper bound on `segments_per_chunk`. -/
def maxSegmentsPerChunk : ℕ := 256

/-- `log2(MAX_SEGMENTS_PER_CHUNK)`: a chunk subtree is never taller. -/
def maxSubtreeHeight : ℕ := trailingZeros 32 maxSegmentsPerChunk

/-- The height of a chunk subtree. -/
structure SubtreeHeight where
  get : ℕ
  le_max : get ≤ maxSubtreeHeight

/-- `none` above `MAX_SUBTREE_HEIGHT`. -/
def SubtreeHeight.new (height : ℕ) : Option SubtreeHeight :=
  if h : height ≤ maxSubtreeHeight then some ⟨height, h⟩ else none

theorem SubtreeHeight.new_of_le {height : ℕ} (h : height ≤ maxSubtreeHeight) :
    SubtreeHeight.new height = some ⟨height, h⟩ :=
  dif_pos h

/-- `Geometry::new` rejected a parameter set. -/
inductive GeometryError where
  | segmentsPerChunk (segmentsPerChunk : ℕ)
  | chunkSizeZero
  | chunkSizeNotMultiple (chunkSize segmentsPerChunk : ℕ)
  | maxChunksZero
  | maxDataSizeOverflow
  deriving DecidableEq

/-- A length or index is outside the geometry. -/
inductive SizeError where
  | dataSizeOutOfRange (dataSize maxDataSize : ℕ)
  | chunkIndexOutOfRange (chunkIndex chunkCount : ℕ)
  | segmentIndexOutOfRange (segmentIndex segmentsPerChunk : ℕ)
  deriving DecidableEq

def isPowerOfTwo (n : ℕ) : Prop := n ≠ 0 ∧ 2 ^ Nat.log2 n = n

instance (n : ℕ) : Decidable (isPowerOfTwo n) := inferInstanceAs (Decidable (_ ∧ _))

/-- An accepted `(chunk_size, segments_per_chunk, max_data_tx_chunks)`. -/
@[ext] structure Geometry where
  chunkSize : ℕ
  segmentsPerChunk : ℕ
  maxDataTxChunks : ℕ
  segments_le : segmentsPerChunk ≤ maxSegmentsPerChunk
  segments_pow : isPowerOfTwo segmentsPerChunk
  chunkSize_ne : chunkSize ≠ 0
  segments_dvd : chunkSize % segmentsPerChunk = 0
  maxChunks_ne : maxDataTxChunks ≠ 0
  maxChunks_lt : maxDataTxChunks < 2 ^ 32
  maxData_lt : chunkSize * maxDataTxChunks < 2 ^ 64

namespace Geometry

/-- Accept a geometry or say which rule failed. -/
def new (chunkSize : UInt64) (segmentsPerChunk maxDataTxChunks : UInt32) :
    Except GeometryError Geometry :=
  if h₁ : maxSegmentsPerChunk < segmentsPerChunk.toNat ∨ ¬ isPowerOfTwo segmentsPerChunk.toNat then
    .error (.segmentsPerChunk segmentsPerChunk.toNat)
  else if h₂ : chunkSize.toNat = 0 then
    .error .chunkSizeZero
  else if h₃ : chunkSize.toNat % segmentsPerChunk.toNat ≠ 0 then
    .error (.chunkSizeNotMultiple chunkSize.toNat segmentsPerChunk.toNat)
  else if h₄ : maxDataTxChunks.toNat = 0 then
    .error .maxChunksZero
  else if h₅ : (checkedMul 64 chunkSize.toNat maxDataTxChunks.toNat).isNone then
    .error .maxDataSizeOverflow
  else
    .ok {
      chunkSize := chunkSize.toNat
      segmentsPerChunk := segmentsPerChunk.toNat
      maxDataTxChunks := maxDataTxChunks.toNat
      segments_le := by omega
      segments_pow := by tauto
      chunkSize_ne := h₂
      segments_dvd := by omega
      maxChunks_ne := h₄
      maxChunks_lt := maxDataTxChunks.toNat_lt
      maxData_lt := by
        unfold checkedMul at h₅
        split at h₅
        · assumption
        · simp at h₅ }

section

variable (G : Geometry)

/-- `chunk_size / segments_per_chunk`. -/
def segmentSize : ℕ := G.chunkSize / G.segmentsPerChunk

/-- `h = log2(segments_per_chunk)`, read off by `trailing_zeros`. -/
def height : ℕ := trailingZeros 32 G.segmentsPerChunk

/-- `max_data_tx_chunks * chunk_size`. -/
def maxDataSize : ℕ := G.chunkSize * G.maxDataTxChunks

/-- `C = ceil(n / chunk_size)` when `1 <= n <= max_data_size`. -/
def chunkCount (dataSize : ℕ) : Res SizeError ℕ :=
  if dataSize = 0 ∨ G.maxDataSize < dataSize then
    fail (.dataSizeOutOfRange dataSize G.maxDataSize)
  else
    .ok (divCeil dataSize G.chunkSize)

/-- Number of data bytes in chunk `c`. -/
def chunkLen (dataSize chunkIndex : ℕ) : Res SizeError ℕ := do
  let chunkCount ← G.chunkCount dataSize
  if chunkCount ≤ chunkIndex then
    fail (.chunkIndexOutOfRange chunkIndex chunkCount)
  else
    let start ← expect (checkedMul 64 chunkIndex G.chunkSize)
    let remain ← expect (checkedSub dataSize start)
    .ok (if remain < G.chunkSize then remain else G.chunkSize)

/-- Number of data bytes in segment `j` of chunk `c`; `0` past the data. -/
def segmentLen (dataSize chunkIndex segmentIndex : ℕ) : Res SizeError ℕ := do
  let chunkCount ← G.chunkCount dataSize
  if chunkCount ≤ chunkIndex then
    fail (.chunkIndexOutOfRange chunkIndex chunkCount)
  else if G.segmentsPerChunk ≤ segmentIndex then
    fail (.segmentIndexOutOfRange segmentIndex G.segmentsPerChunk)
  else
    let chunkStart ← expect (checkedMul 64 chunkIndex G.chunkSize)
    let segmentOffset ← expect (checkedMul 64 segmentIndex G.segmentSize)
    let start ← expect (checkedAdd 64 chunkStart segmentOffset)
    if dataSize ≤ start then .ok 0
    else
      let remain ← expect (checkedSub dataSize start)
      .ok (if remain < G.segmentSize then remain else G.segmentSize)

end

/-! ### What an accepted geometry guarantees -/

variable (G : Geometry)

/-- Every `Geometry` is the value `new` returns for its own parameters. -/
theorem new_of_parts :
    Geometry.new (UInt64.ofNat G.chunkSize) (UInt32.ofNat G.segmentsPerChunk)
      (UInt32.ofNat G.maxDataTxChunks) = .ok G := by
  have hmax := Nat.pos_of_ne_zero G.maxChunks_ne
  have hcs : G.chunkSize < 2 ^ 64 :=
    lt_of_le_of_lt (Nat.le_mul_of_pos_right _ hmax) G.maxData_lt
  have hspc := G.segments_le
  simp only [maxSegmentsPerChunk] at hspc
  have h1 : (UInt64.ofNat G.chunkSize).toNat = G.chunkSize :=
    UInt64.toNat_ofNat_of_lt' hcs
  have h2 : (UInt32.ofNat G.segmentsPerChunk).toNat = G.segmentsPerChunk :=
    UInt32.toNat_ofNat_of_lt' (by simp [UInt32.size]; omega)
  have h3 : (UInt32.ofNat G.maxDataTxChunks).toNat = G.maxDataTxChunks :=
    UInt32.toNat_ofNat_of_lt' G.maxChunks_lt
  unfold Geometry.new
  rw [dif_neg, dif_neg, dif_neg, dif_neg, dif_neg]
  · congr 1
    ext
    · exact h1
    · exact h2
    · exact h3
  · rw [h1, h3, checkedMul_of_lt G.maxData_lt]
    simp
  · rw [h3]
    exact G.maxChunks_ne
  · rw [h1, h2]
    simpa using G.segments_dvd
  · rw [h1]
    exact G.chunkSize_ne
  · rw [h2]
    have := G.segments_le
    have := G.segments_pow
    simp only [not_or, not_not]
    exact ⟨by omega, this⟩

theorem chunkSize_pos : 0 < G.chunkSize := Nat.pos_of_ne_zero G.chunkSize_ne

theorem segmentsPerChunk_pos : 0 < G.segmentsPerChunk := Nat.pos_of_ne_zero G.segments_pow.1

theorem maxDataSize_lt : G.maxDataSize < 2 ^ 64 := G.maxData_lt

theorem chunkSize_lt : G.chunkSize < 2 ^ 64 :=
  lt_of_le_of_lt (Nat.le_mul_of_pos_right _ (Nat.pos_of_ne_zero G.maxChunks_ne)) G.maxData_lt

/-- A chunk subtree has `2 ^ height` leaves. -/
theorem segmentsPerChunk_eq : G.segmentsPerChunk = 2 ^ G.height := by
  have hpow := G.segments_pow.2
  have hle := G.segments_le
  have hlog : Nat.log2 G.segmentsPerChunk < 32 := by
    rw [Nat.log2_lt G.segments_pow.1]
    exact lt_of_le_of_lt hle (by decide)
  rw [height, ← hpow, trailingZeros_two_pow _ _ hlog]

theorem height_le : G.height ≤ maxSubtreeHeight := by
  have hle := G.segments_le
  rw [segmentsPerChunk_eq, show maxSegmentsPerChunk = 2 ^ 8 from rfl,
    Nat.pow_le_pow_iff_right (by decide)] at hle
  exact hle

theorem segmentSize_mul : G.segmentSize * G.segmentsPerChunk = G.chunkSize :=
  Nat.div_mul_cancel (Nat.dvd_of_mod_eq_zero G.segments_dvd)

theorem segmentSize_pos : 0 < G.segmentSize := by
  have hmul := G.segmentSize_mul
  have hpos := G.chunkSize_pos
  rcases Nat.eq_zero_or_pos G.segmentSize with h | h
  · rw [h, Nat.zero_mul] at hmul
    omega
  · exact h

/-! ### Spec lemmas for the length functions -/

variable {G} {n c j len : ℕ}

theorem chunkCount_eq_ok_iff {count : ℕ} :
    G.chunkCount n = .ok count ↔ (0 < n ∧ n ≤ G.maxDataSize) ∧ count = divCeil n G.chunkSize := by
  unfold chunkCount
  split
  · rename_i h
    simp only [fail_ne_ok, false_iff]
    omega
  · rename_i h
    simp only [Except.ok.injEq]
    constructor
    · rintro rfl
      exact ⟨by omega, rfl⟩
    · rintro ⟨-, rfl⟩
      rfl

theorem chunkCount_of_range (h : 0 < n ∧ n ≤ G.maxDataSize) :
    G.chunkCount n = .ok (divCeil n G.chunkSize) :=
  chunkCount_eq_ok_iff.mpr ⟨h, rfl⟩

theorem divCeil_le_maxDataTxChunks (h : n ≤ G.maxDataSize) :
    divCeil n G.chunkSize ≤ G.maxDataTxChunks := by
  rw [divCeil_le_iff G.chunkSize_pos, Nat.mul_comm]
  exact h

theorem chunkStart_lt (hc : c < divCeil n G.chunkSize) : c * G.chunkSize < n :=
  (lt_divCeil_iff G.chunkSize_pos).mp hc

/-- **Spec of `chunk_len`.**  It returns a value exactly for a size in range and an index below
the count, and the value is the rest of the data cut to one chunk. -/
theorem chunkLen_eq_ok_iff :
    G.chunkLen n c = .ok len ↔
      (0 < n ∧ n ≤ G.maxDataSize) ∧ c < divCeil n G.chunkSize ∧
        len = min (n - c * G.chunkSize) G.chunkSize := by
  rw [chunkLen, bind_eq_ok]
  simp only [chunkCount_eq_ok_iff, and_assoc, exists_and_left, exists_eq_left, fail_ite_eq_ok,
    not_le]
  refine and_congr_right fun _ => and_congr_right fun hmax => and_congr_right fun hc => ?_
  have hstart := chunkStart_lt hc
  have hbound := G.maxDataSize_lt
  rw [checkedMul_of_lt (by omega), expect_some, ok_bind, checkedSub_of_le hstart.le, expect_some,
    ok_bind, Except.ok.injEq]
  split <;> omega

theorem segmentOffset_lt (hj : j < G.segmentsPerChunk) :
    j * G.segmentSize + G.segmentSize ≤ G.chunkSize := by
  rw [← Nat.succ_mul, ← G.segmentSize_mul, Nat.mul_comm G.segmentSize]
  exact Nat.mul_le_mul_right _ hj

/-- **Spec of `segment_len`.** -/
theorem segmentLen_eq_ok_iff :
    G.segmentLen n c j = .ok len ↔
      (0 < n ∧ n ≤ G.maxDataSize) ∧ c < divCeil n G.chunkSize ∧ j < G.segmentsPerChunk ∧
        len = min (n - (c * G.chunkSize + j * G.segmentSize)) G.segmentSize := by
  rw [segmentLen, bind_eq_ok]
  simp only [chunkCount_eq_ok_iff, and_assoc, exists_and_left, exists_eq_left, fail_ite_eq_ok,
    not_le]
  refine and_congr_right fun _ => and_congr_right fun hmax => and_congr_right fun hc =>
    and_congr_right fun hj => ?_
  -- the two products and their sum stay below `max_data_size`
  have hbound := G.maxDataSize_lt
  have hoff := segmentOffset_lt hj
  have hcount := divCeil_le_maxDataTxChunks (G := G) hmax
  have hend : (c + 1) * G.chunkSize ≤ G.maxDataSize := by
    rw [maxDataSize, Nat.mul_comm G.chunkSize]
    exact Nat.mul_le_mul_right _ (by omega)
  rw [Nat.succ_mul] at hend
  rw [checkedMul_of_lt (by omega), expect_some, ok_bind, checkedMul_of_lt (by omega), expect_some,
    ok_bind, checkedAdd_of_lt (by omega), expect_some, ok_bind]
  split
  · rw [Except.ok.injEq]
    omega
  · rw [checkedSub_of_le (by omega), expect_some, ok_bind, Except.ok.injEq]
    split <;> omega

end Geometry

end Irys.Tree
