import Irys.DataTree.Hash
import Irys.Merkle.Perfect

/-!
# Chunk-tree shape: `depth` and the inclusion walk

`shape.rs` of the data tree.  `depth` walks the tree from the root down; `climb` is the
RFC 9162 inclusion walk and goes from the leaf up, deriving every direction from the chunk
index and the chunk count.  Both are put in terms of the layered tree.
-/

namespace Irys.Tree

open List

open Irys Irys.Merkle

/-- Largest power of two strictly below `chunk_count` (at least 2). -/
def largestPowerOfTwoBelow (chunkCount : ℕ) : ℕ := 2 ^ Nat.log2 (chunkCount - 1)

theorem largestPowerOfTwoBelow_pos (m : ℕ) : 0 < largestPowerOfTwoBelow m := Nat.two_pow_pos _

/-- The loop of `depth`, with the siblings counted so far. -/
def depthLoop (chunkIndex chunkCount siblingCount : ℕ) : ℕ :=
  if _h : 1 < chunkCount then
    let leftSubtreeSize := largestPowerOfTwoBelow chunkCount
    if chunkIndex < leftSubtreeSize then
      siblingCount + 1 + trailingZeros 32 leftSubtreeSize
    else
      depthLoop (chunkIndex - leftSubtreeSize) (chunkCount - leftSubtreeSize) (siblingCount + 1)
  else siblingCount
termination_by chunkCount
decreasing_by
  have := largestPowerOfTwoBelow_pos chunkCount
  omega

/-- Chunk-level siblings in the proof of chunk `c`. -/
def depth (chunkIndex chunkCount : ℕ) : Option ℕ :=
  if chunkCount = 0 ∨ chunkCount ≤ chunkIndex then none
  else some (depthLoop chunkIndex chunkCount 0)

/-- While the node index is even and not zero, both indices move up one level. -/
def skipCarried (nodeIndex lastIndex : ℕ) : ℕ × ℕ :=
  if nodeIndex % 2 = 0 ∧ nodeIndex ≠ 0 then skipCarried (nodeIndex / 2) (lastIndex / 2)
  else (nodeIndex, lastIndex)
termination_by nodeIndex
decreasing_by omega

section Climb

variable (sha256 : Bytes → Digest)

/-- The loop of `climb` over the 32-byte siblings. -/
def climbLoop : Digest → ℕ → ℕ → List Digest → Option Digest
  | runningHash, _, lastIndex, [] => if lastIndex ≠ 0 then none else some runningHash
  | runningHash, nodeIndex, lastIndex, sibling :: rest =>
    if lastIndex = 0 then none
    else if nodeIndex % 2 = 1 ∨ nodeIndex = lastIndex then
      let idx := skipCarried nodeIndex lastIndex
      climbLoop (node sha256 sibling runningHash) (idx.1 / 2) (idx.2 / 2) rest
    else
      climbLoop (node sha256 runningHash sibling) (nodeIndex / 2) (lastIndex / 2) rest

/-- `chunks_exact(HASH_SIZE)`, each piece as a digest; a short tail is dropped. -/
def digestsOf (bytes : Bytes) : List Digest :=
  if h : hashSize ≤ bytes.length then
    ⟨bytes.take hashSize, length_take_of_le h⟩ :: digestsOf (bytes.drop hashSize)
  else []
termination_by bytes.length
decreasing_by simp only [length_drop, hashSize] at *; omega

/-- RFC 9162 inclusion walk over a byte string of siblings. -/
def climb (runningHash : Digest) (chunkIndex chunkCount : ℕ) (proof : Bytes) : Option Digest :=
  if chunkCount = 0 ∨ chunkCount ≤ chunkIndex ∨ proof.length % hashSize ≠ 0 then none
  else climbLoop sha256 runningHash chunkIndex (chunkCount - 1) (digestsOf proof)

end Climb

/-! ### Proof bytes as digests -/

/-- The bytes of a digest list. -/
def bytesOf (ds : List Digest) : Bytes := (ds.map Digest.bytes).flatten

@[simp] theorem bytesOf_nil : bytesOf [] = [] := rfl

@[simp] theorem bytesOf_cons (d : Digest) (ds : List Digest) :
    bytesOf (d :: ds) = d.bytes ++ bytesOf ds := rfl

theorem bytesOf_append (ds es : List Digest) : bytesOf (ds ++ es) = bytesOf ds ++ bytesOf es := by
  simp [bytesOf]

theorem bytesOf_snoc (ds : List Digest) (w : Digest) :
    bytesOf (ds ++ [w]) = bytesOf ds ++ w.bytes := by
  rw [bytesOf_append, bytesOf_cons, bytesOf_nil, append_nil]

@[simp] theorem bytesOf_length (ds : List Digest) : (bytesOf ds).length = hashSize * ds.length := by
  induction ds with
  | nil => rfl
  | cons d ds ih =>
    rw [bytesOf_cons, length_append, ih, d.size_eq, length_cons]
    ring

@[simp] theorem digestsOf_bytesOf (ds : List Digest) : digestsOf (bytesOf ds) = ds := by
  induction ds with
  | nil => rw [digestsOf, dif_neg (by simp [hashSize])]
  | cons d ds ih =>
    have hle : hashSize ≤ (d.bytes ++ bytesOf ds).length := by
      rw [length_append, d.size_eq]
      omega
    rw [bytesOf_cons, digestsOf, dif_pos hle, drop_left' d.size_eq, ih]
    congr 1
    exact Digest.ext (take_left' d.size_eq)

theorem bytesOf_digestsOf (bytes : Bytes) (h : bytes.length % hashSize = 0) :
    bytesOf (digestsOf bytes) = bytes := by
  fun_induction digestsOf bytes with
  | case1 bytes hle ih =>
    rw [bytesOf_cons, ih (by rw [length_drop, ← Nat.mod_eq_sub_mod hle]; exact h)]
    exact take_append_drop _ _
  | case2 bytes hlt =>
    have : bytes.length = 0 := by rwa [Nat.mod_eq_of_lt (not_le.mp hlt)] at h
    rw [length_eq_zero_iff.mp this, bytesOf_nil]

/-! ### `depth` is the length of the step sequence -/

theorem depthLoop_eq (c m acc : ℕ) (hc : c < m) (hm : m < 2 ^ 32) :
    depthLoop c m acc = acc + (levelSteps c (m - 1)).length := by
  induction m using Nat.strong_induction_on generalizing c acc with
  | _ m ih =>
    rw [depthLoop]
    split
    · rename_i h1
      obtain ⟨hlo, hhi⟩ := topExponent (m := m) (by omega)
      have hlog : Nat.log2 (m - 1) < 32 := by
        rw [Nat.log2_lt (by omega)]
        omega
      rcases Nat.lt_or_ge c (2 ^ Nat.log2 (m - 1)) with hk | hk
      · rw [if_pos (show c < largestPowerOfTwoBelow m from hk), largestPowerOfTwoBelow,
          levelSteps_split_left _ c m hlo hhi hk, length_append,
          levelSteps_length_perfect _ c hk, trailingZeros_two_pow _ _ hlog, length_singleton]
        omega
      · have hpos := Nat.two_pow_pos (Nat.log2 (m - 1))
        rw [if_neg (show ¬ c < largestPowerOfTwoBelow m from not_lt.mpr hk), largestPowerOfTwoBelow,
          ih _ (by omega) _ _ (by omega) (by omega), levelSteps_split_right _ c m hlo hhi hk hc,
          length_append, length_singleton]
        omega
    · rename_i h1
      simp [show m - 1 = 0 by omega]

/-- **`depth` counts the steps of the inclusion walk.** -/
theorem depth_eq {c m : ℕ} (hc : c < m) (hm : m < 2 ^ 32) :
    depth c m = some (levelSteps c (m - 1)).length := by
  rw [depth, if_neg (by omega), depthLoop_eq c m 0 hc hm, Nat.zero_add]

/-! ### `climb` folds the step sequence -/

section Climb

variable (sha256 : Bytes → Digest)

theorem levelSteps_skipCarried {i : ℕ} (h : i ≠ 0) :
    levelSteps i i
      = Side.left :: levelSteps ((skipCarried i i).1 / 2) ((skipCarried i i).2 / 2) := by
  induction i using Nat.strong_induction_on with
  | _ i ih =>
    rw [levelSteps_of_ne_zero i h]
    rcases Nat.mod_two_eq_zero_or_one i with h0 | h1
    · rw [if_neg (by omega), if_neg (lt_irrefl i), nil_append, ih (i / 2) (by omega) (by omega),
        skipCarried.eq_def i i, if_pos ⟨h0, h⟩]
    · rw [if_pos h1, skipCarried, if_neg (by omega)]
      rfl

theorem skipCarried_of_odd {i s : ℕ} (h : i % 2 = 1) : skipCarried i s = (i, s) := by
  rw [skipCarried, if_neg (by omega)]

/-- **The walk, step by step.**  `climb` accepts a sibling list exactly when it has one sibling
per step, and then folds it along the steps. -/
theorem climbLoop_eq (r : Digest) (fn sn : ℕ) (sibs : List Digest) (h : fn ≤ sn) :
    climbLoop sha256 r fn sn sibs
      = if sibs.length = (levelSteps fn sn).length then
          some (foldPath (node sha256) r ((levelSteps fn sn).zip sibs))
        else none := by
  induction sibs generalizing r fn sn with
  | nil =>
    rw [climbLoop]
    rcases Nat.eq_zero_or_pos sn with h0 | hpos
    · subst h0
      simp
    · rw [if_pos (by omega)]
      have hne : levelSteps fn sn ≠ [] := by
        rcases Nat.lt_or_ge fn sn with hlt | hge
        · rw [levelSteps_of_ne_zero fn (by omega)]
          split <;> simp
        · obtain rfl : fn = sn := by omega
          rw [levelSteps_skipCarried (by omega)]
          simp
      rw [if_neg fun hlen => hne (length_eq_zero_iff.mp hlen.symm)]
  | cons s sibs ih =>
    rw [climbLoop]
    rcases Nat.eq_zero_or_pos sn with h0 | hpos
    · subst h0
      rw [if_pos rfl, levelSteps_zero, if_neg (by simp)]
    · rw [if_neg (by omega)]
      split
      · rename_i hleft
        -- the steps from here start with a left sibling in both cases of the test
        have hsteps : levelSteps fn sn = Side.left ::
            levelSteps ((skipCarried fn sn).1 / 2) ((skipCarried fn sn).2 / 2) := by
          rcases Nat.mod_two_eq_zero_or_one fn with heven | hodd
          · obtain rfl : fn = sn := by omega
            exact levelSteps_skipCarried (by omega)
          · rw [skipCarried_of_odd hodd, levelSteps_of_ne_zero fn (by omega), if_pos hodd]
            rfl
        have hle : (skipCarried fn sn).1 / 2 ≤ (skipCarried fn sn).2 / 2 := by
          have : (skipCarried fn sn).1 ≤ (skipCarried fn sn).2 := by
            clear hsteps ih hleft hpos
            fun_induction skipCarried fn sn with
            | case1 fn sn hev ih' => exact ih' (Nat.div_le_div_right h)
            | case2 fn sn hodd => exact h
          exact Nat.div_le_div_right this
        rw [ih _ _ _ hle, hsteps]
        simp [stepUp, stepPair]
      · rename_i hright
        have hsteps : levelSteps fn sn = Side.right :: levelSteps (fn / 2) (sn / 2) := by
          rw [levelSteps_of_ne_zero fn (by omega), if_neg (by omega), if_pos (by omega)]
          rfl
        rw [ih _ _ _ (Nat.div_le_div_right h), hsteps]
        simp [stepUp, stepPair]

/-- **Spec of `climb`** on the bytes of a digest list. -/
theorem climb_eq {c m : ℕ} (r : Digest) (sibs : List Digest) (hc : c < m) :
    climb sha256 r c m (bytesOf sibs)
      = if sibs.length = (levelSteps c (m - 1)).length then
          some (foldPath (node sha256) r ((levelSteps c (m - 1)).zip sibs))
        else none := by
  rw [climb, if_neg (by simp; omega), digestsOf_bytesOf, climbLoop_eq sha256 r c (m - 1) sibs
    (by omega)]

end Climb

end Irys.Tree
