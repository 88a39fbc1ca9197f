import Irys.DataTree.Shape

/-!
# One chunk: a perfect subtree of segments

`chunk.rs` of the data tree.  The source takes a shortcut past the bytes: a subtree that
starts there is `empty(k)` from the table.  The spec lemmas say that the shortcut does not
show: a chunk root is the root of the tree over **all** `segments_per_chunk` segment leaves,
a segment past the bytes being the empty string.
-/

namespace Irys.Tree

open List

open Irys Irys.Merkle

/-- `chunk_root` rejected the byte length. -/
inductive ChunkLengthError where
  | empty
  | tooLong (chunkLength chunkSize : ℕ)
  deriving DecidableEq

variable {ε : Type} (sha256 : Bytes → Digest)

section

variable (G : Geometry) (bytes : Bytes)

/-- Root of the aligned subtree of height `subtreeHeight` whose first leaf is `startLeaf`. -/
def subtree (startLeaf subtreeHeight : ℕ) : Res ε Digest := do
  let rangeStart ← expect (checkedMul 64 startLeaf G.segmentSize)
  if bytes.length ≤ rangeStart then
    let height ← expect (SubtreeHeight.new subtreeHeight)
    .ok (empty sha256 height)
  else
    match subtreeHeight with
    | 0 =>
      let segmentEnd ← expect (checkedAdd 64 rangeStart G.segmentSize)
      let last := min segmentEnd bytes.length
      .ok (leaf sha256 ((bytes.take last).drop rangeStart))
    | k + 1 =>
      let left ← subtree startLeaf k
      let rightStart ← expect (checkedAdd 32 startLeaf (2 ^ k))
      let right ← subtree rightStart k
      .ok (node sha256 left right)

/-- Chunk root of `bytes`. -/
def chunkRoot : Res ChunkLengthError Digest :=
  if bytes.length = 0 then fail .empty
  else if G.chunkSize < bytes.length then fail (.tooLong bytes.length G.chunkSize)
  else subtree sha256 G bytes 0 G.height

/-- The loop of `segment_siblings`: `remaining` levels from `level` on. -/
def segmentSiblingsFrom :
    (remaining level nodeIndex : ℕ) → Res ε (List Digest)
  | 0, _, _ => .ok []
  | remaining + 1, level, nodeIndex => do
    -- a `u32` shift: what leaves the word is dropped
    let startLeaf := ((nodeIndex ^^^ 1) <<< level) % 2 ^ 32
    let sibling ← subtree sha256 G bytes startLeaf level
    let rest ← segmentSiblingsFrom remaining (level + 1) (nodeIndex >>> 1)
    .ok (sibling :: rest)

/-- The in-chunk siblings for segment `j`, level 0 first. -/
def segmentSiblings (segmentIndex : ℕ) : Res ε (List Digest) :=
  segmentSiblingsFrom sha256 G bytes G.height 0 segmentIndex

/-! ### The segments of a chunk -/

/-- Segment `j` of a chunk; empty past the bytes. -/
def segmentAt (j : ℕ) : Bytes :=
  (bytes.drop (j * G.segmentSize)).take G.segmentSize

/-- The leaves of the chunk subtree. -/
def segmentLeaves : List Digest :=
  (List.range G.segmentsPerChunk).map fun j => leaf sha256 (segmentAt G bytes j)

@[simp] theorem segmentLeaves_length :
    (segmentLeaves sha256 G bytes).length = G.segmentsPerChunk := by
  simp [segmentLeaves]

end

variable {G : Geometry} {bytes : Bytes} {j : ℕ}

theorem segmentLeaves_getElem? (hj : j < G.segmentsPerChunk) :
    (segmentLeaves sha256 G bytes)[j]? = some (leaf sha256 (segmentAt G bytes j)) := by
  simp [segmentLeaves, hj]

theorem segmentAt_of_past (h : bytes.length ≤ j * G.segmentSize) : segmentAt G bytes j = [] := by
  rw [segmentAt, drop_eq_nil_of_le h, take_nil]

theorem segmentAt_length (G : Geometry) (bytes : Bytes) (j : ℕ) :
    (segmentAt G bytes j).length = min (bytes.length - j * G.segmentSize) G.segmentSize := by
  rw [segmentAt, length_take, length_drop, Nat.min_comm]

theorem eq_of_segmentAt_eq {a b : Bytes} (ha : a.length ≤ G.chunkSize)
    (hb : b.length ≤ G.chunkSize)
    (h : ∀ j < G.segmentsPerChunk, segmentAt G a j = segmentAt G b j) : a = b := by
  -- a prefix of whole segments of each is the same; the last prefix is everything
  have hpre : ∀ k ≤ G.segmentsPerChunk,
      a.take (k * G.segmentSize) = b.take (k * G.segmentSize) := by
    intro k hk
    induction k with
    | zero => simp
    | succ k ih =>
      have hseg := h k (by omega)
      rw [segmentAt, segmentAt] at hseg
      rw [Nat.succ_mul, take_add, take_add, ih (by omega), hseg]
  have hall := hpre _ le_rfl
  rw [Nat.mul_comm, G.segmentSize_mul, take_of_length_le ha, take_of_length_le hb] at hall
  exact hall

/-! ### Spec of `subtree` -/

/-- The table entry of height `k` is the root over `2 ^ k` empty leaves. -/
theorem emptyRoot_eq (k : ℕ) :
    emptyRoot sha256 k = rootOf (node sha256) (List.replicate (2 ^ k) (leaf sha256 [])) := by
  induction k with
  | zero => rw [pow_zero, replicate_one, rootOf_singleton]; rfl
  | succ k ih =>
    have hpow : 2 ^ (k + 1) = 2 ^ k + 2 ^ k := by ring
    have hpos := Nat.two_pow_pos k
    rw [rootOf_split (node sha256) k _ (by rw [length_replicate]; omega) (by rw [length_replicate]),
      take_replicate, drop_replicate, min_eq_left (by omega),
      show 2 ^ (k + 1) - 2 ^ k = 2 ^ k by omega, ← ih, emptyRoot]

theorem segmentLeaves_block_past {start k : ℕ} (hpast : bytes.length ≤ start * G.segmentSize)
    (hle : start + 2 ^ k ≤ G.segmentsPerChunk) :
    ((segmentLeaves sha256 G bytes).drop start).take (2 ^ k)
      = List.replicate (2 ^ k) (leaf sha256 []) := by
  rw [eq_replicate_iff]
  refine ⟨by rw [length_take, length_drop, segmentLeaves_length]; omega, ?_⟩
  intro x hx
  obtain ⟨i, hi, rfl⟩ := getElem_of_mem (mem_of_mem_take hx)
  rw [getElem_drop]
  simp only [segmentLeaves, getElem_map, getElem_range]
  rw [segmentAt_of_past (le_trans hpast (Nat.mul_le_mul_right _ (by omega)))]

theorem segmentStart_lt (hj : j < G.segmentsPerChunk) :
    j * G.segmentSize + G.segmentSize < 2 ^ 64 :=
  lt_of_le_of_lt (Geometry.segmentOffset_lt hj) G.chunkSize_lt

/-- **Spec of `subtree`.**  Inside the chunk it does not fail, and it is the root of its block of
segment leaves. -/
theorem subtree_eq {start k : ℕ} (hk : k ≤ G.height) (hle : start + 2 ^ k ≤ G.segmentsPerChunk) :
    (subtree sha256 G bytes start k : Res ε Digest)
      = .ok (blockRoot (node sha256) (segmentLeaves sha256 G bytes) start k) := by
  induction k generalizing start with
  | zero =>
    have hstart : start < G.segmentsPerChunk := by omega
    have hfit := segmentStart_lt hstart
    rw [subtree.eq_def, checkedMul_of_lt (by omega), expect_some, ok_bind,
      blockRoot_zero (node sha256) (segmentLeaves_getElem? sha256 hstart)]
    split
    · rename_i hpast
      rw [SubtreeHeight.new_of_le (Nat.zero_le _), segmentAt_of_past hpast]
      rfl
    · rename_i hin
      rw [checkedAdd_of_lt hfit]
      simp only [expect_some, ok_bind]
      rw [segmentAt, drop_take, take_eq_take_iff.mpr]
      rw [length_drop]
      omega
  | succ k ih =>
    have hpow : 2 ^ (k + 1) = 2 ^ k + 2 ^ k := by ring
    have hpos := Nat.two_pow_pos k
    have hfit := segmentStart_lt (G := G) (j := start) (by omega)
    have hspc : G.segmentsPerChunk ≤ 256 := G.segments_le
    rw [subtree.eq_def, checkedMul_of_lt (by omega), expect_some, ok_bind]
    split
    · rename_i hpast
      rw [SubtreeHeight.new_of_le (le_trans hk G.height_le), expect_some, ok_bind, blockRoot,
        segmentLeaves_block_past sha256 hpast hle, ← emptyRoot_eq]
      rfl
    · simp only [ih (by omega) (show start + 2 ^ k ≤ G.segmentsPerChunk by omega), ok_bind]
      rw [checkedAdd_of_lt (by omega)]
      simp only [expect_some, ok_bind]
      rw [ih (by omega) (by omega), ok_bind,
        blockRoot_split (node sha256) (by rw [segmentLeaves_length]; omega)]

/-- **Spec of `chunk_root`.** -/
theorem chunkRoot_eq (hpos : 0 < bytes.length) (hle : bytes.length ≤ G.chunkSize) :
    chunkRoot sha256 G bytes = .ok (rootOf (node sha256) (segmentLeaves sha256 G bytes)) := by
  rw [chunkRoot, if_neg (by omega), if_neg (by omega),
    subtree_eq sha256 le_rfl (by rw [G.segmentsPerChunk_eq, Nat.zero_add]),
    blockRoot_full (node sha256) (by rw [segmentLeaves_length, G.segmentsPerChunk_eq])]

/-! ### Spec of `segment_siblings` -/

theorem sibling_block_le {h ℓ i : ℕ} (hℓ : ℓ < h) (hi : i < 2 ^ (h - ℓ)) :
    (i ^^^ 1) * 2 ^ ℓ + 2 ^ ℓ ≤ 2 ^ h := by
  have hxor : i ^^^ 1 < 2 ^ (h - ℓ) := by
    have heven : 2 ^ (h - ℓ) = 2 * 2 ^ (h - ℓ - 1) := by
      rw [← pow_succ', show h - ℓ - 1 + 1 = h - ℓ by omega]
    rw [xor_one_eq]
    split <;> omega
  calc (i ^^^ 1) * 2 ^ ℓ + 2 ^ ℓ = ((i ^^^ 1) + 1) * 2 ^ ℓ := by ring
    _ ≤ 2 ^ (h - ℓ) * 2 ^ ℓ := Nat.mul_le_mul_right _ hxor
    _ = 2 ^ h := by rw [← pow_add, show h - ℓ + ℓ = h by omega]

theorem segmentSiblingsFrom_eq (r ℓ i : ℕ) (hr : r + ℓ = G.height) (hi : i < 2 ^ r) :
    (segmentSiblingsFrom sha256 G bytes r ℓ i : Res ε (List Digest))
      = .ok ((List.range r).map fun m => blockRoot (node sha256) (segmentLeaves sha256 G bytes)
          (((i / 2 ^ m) ^^^ 1) * 2 ^ (m + ℓ)) (m + ℓ)) := by
  induction r generalizing ℓ i with
  | zero => rfl
  | succ r ih =>
    have hblock := sibling_block_le (h := G.height) (ℓ := ℓ) (i := i) (by omega)
      (by rw [show G.height - ℓ = r + 1 by omega]; exact hi)
    rw [← G.segmentsPerChunk_eq] at hblock
    have hspc : G.segmentsPerChunk ≤ 256 := G.segments_le
    have hpos := Nat.two_pow_pos ℓ
    have hstart : ((i ^^^ 1) <<< ℓ) % 2 ^ 32 = (i ^^^ 1) * 2 ^ ℓ := by
      rw [Nat.shiftLeft_eq, Nat.mod_eq_of_lt (by omega)]
    rw [segmentSiblingsFrom]
    simp only [hstart]
    rw [subtree_eq sha256 (by omega) hblock, ok_bind,
      ih (ℓ + 1) (i >>> 1) (by omega) (by rw [Nat.shiftRight_one]; rw [pow_succ'] at hi; omega),
      ok_bind, range_succ_eq_map, map_cons, List.map_map]
    simp only [pow_zero, Nat.div_one, Nat.zero_add, Except.ok.injEq, List.cons.injEq, true_and]
    refine map_congr_left fun m _ => ?_
    rw [Function.comp, Nat.shiftRight_one, Nat.div_div_eq_div_mul, ← pow_succ',
      Nat.succ_eq_add_one, show m + (ℓ + 1) = m + 1 + ℓ by ring]

/-- **Spec of `segment_siblings`.**  It does not fail, and it is the audit path of the segment in
the chunk subtree. -/
theorem segmentSiblings_eq (hj : j < G.segmentsPerChunk) :
    (segmentSiblings sha256 G bytes j : Res ε (List Digest))
      = .ok ((siblingsOf (node sha256) j (segmentLeaves sha256 G bytes)).map Prod.snd) := by
  rw [segmentSiblings, segmentSiblingsFrom_eq sha256 _ 0 j (by omega)
      (by rwa [← G.segmentsPerChunk_eq]),
    siblingsOf_perfect (node sha256) G.height j _
      (by rw [segmentLeaves_length, G.segmentsPerChunk_eq]) (by rwa [← G.segmentsPerChunk_eq])]
  rfl

end Irys.Tree
