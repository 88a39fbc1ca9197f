import Irys.DataTree.Proofs

/-!
# Proof checks

`verify.rs` of the data tree.  The checks run in the source's order: range, byte length,
proof length, size witness, the climb, the commitment.  The spec lemmas invert a whole call.
-/

namespace Irys.Tree

open List

open Irys Irys.Merkle

/-- A chunk, segment, or size proof failed. -/
inductive VerifyError where
  | size (e : SizeError)
  | invalidChunkLength (expected actual : ℕ)
  | invalidSegmentLength (expected actual : ℕ)
  | invalidProofLength (expected actual : ℕ)
  | sizeWitnessMismatch
  | commitmentMismatch
  deriving DecidableEq

variable (sha256 : Bytes → Digest)

/-- Bytes of a proof of `hashCount` hashes. -/
def proofByteLength (hashCount : ℕ) : ℕ := hashCount * hashSize

/-- The last hash of the proof must be the size witness; the hashes before it. -/
def requireSizeWitness (G : Geometry) (proof : Bytes) (dataSize : ℕ) : Res VerifyError Bytes := do
  let siblingLen ← expect (checkedSub proof.length hashSize)
  if proof.drop siblingLen = (sizeWitness sha256 G dataSize).bytes then .ok (proof.take siblingLen)
  else fail .sizeWitnessMismatch

/-- `node(data_tree_root, size_witness(G, n)) == commitment`. -/
def commitmentMatches (G : Geometry) (commitment root : Digest) (dataSize : ℕ) :
    Res VerifyError Unit :=
  if dataCommitment sha256 G root dataSize = commitment then .ok () else fail .commitmentMismatch

/-- Check one chunk against an anchored commitment. -/
def verifyChunk (G : Geometry) (commitment : Digest) (dataSize chunkIndex : ℕ)
    (bytes proof : Bytes) : Res VerifyError Unit := do
  let chunkLength ← mapErr .size (G.chunkLen dataSize chunkIndex)
  if bytes.length ≠ chunkLength then fail (.invalidChunkLength chunkLength bytes.length)
  else
    let chunkCount ← mapErr .size (G.chunkCount dataSize)
    let d ← expect (depth chunkIndex chunkCount)
    let expectedProof := proofByteLength (d + 1)
    if proof.length ≠ expectedProof then fail (.invalidProofLength expectedProof proof.length)
    else
      let siblings ← requireSizeWitness sha256 G proof dataSize
      let root ← expectOk (chunkRoot sha256 G bytes)
      match climb sha256 (chunkLeaf sha256 chunkIndex root) chunkIndex chunkCount siblings with
      | none => fail .commitmentMismatch
      | some climbed => commitmentMatches sha256 G commitment climbed dataSize

/-- The in-chunk loop of `verify_segment`.  A sibling whose subtree lies past the data must be
the empty subtree of its level. -/
def climbInChunk (dataSegments : ℕ) :
    (level nodeIndex : ℕ) → Digest → List Digest → Res VerifyError Digest
  | _, _, root, [] => .ok root
  | level, nodeIndex, root, sibling :: rest => do
    let siblingStart := ((nodeIndex ^^^ 1) <<< level) % 2 ^ 32
    if dataSegments ≤ siblingStart then
      let height ← expect (SubtreeHeight.new level)
      if sibling ≠ empty sha256 height then fail .commitmentMismatch
      else
        climbInChunk dataSegments (level + 1) (nodeIndex >>> 1)
          (if nodeIndex &&& 1 = 0 then node sha256 root sibling else node sha256 sibling root) rest
    else
      climbInChunk dataSegments (level + 1) (nodeIndex >>> 1)
        (if nodeIndex &&& 1 = 0 then node sha256 root sibling else node sha256 sibling root) rest

/-- Check one segment against an anchored commitment. -/
def verifySegment (G : Geometry) (commitment : Digest) (dataSize chunkIndex segmentIndex : ℕ)
    (bytes proof : Bytes) : Res VerifyError Unit := do
  let segmentLength ← mapErr .size (G.segmentLen dataSize chunkIndex segmentIndex)
  if bytes.length ≠ segmentLength then fail (.invalidSegmentLength segmentLength bytes.length)
  else
    let chunkCount ← mapErr .size (G.chunkCount dataSize)
    let d ← expect (depth chunkIndex chunkCount)
    let expectedProof := proofByteLength (G.height + d + 1)
    if proof.length ≠ expectedProof then fail (.invalidProofLength expectedProof proof.length)
    else
      let siblings ← requireSizeWitness sha256 G proof dataSize
      let inChunkBytes := G.height * hashSize
      -- `split_at_checked`
      if siblings.length < inChunkBytes then .error .panic
      else
        let chunkLength ← expectOk (G.chunkLen dataSize chunkIndex)
        let dataSegments := divCeil chunkLength G.segmentSize
        let root ← climbInChunk sha256 dataSegments 0 segmentIndex (leaf sha256 bytes)
          (digestsOf (siblings.take inChunkBytes))
        match climb sha256 (chunkLeaf sha256 chunkIndex root) chunkIndex chunkCount
            (siblings.drop inChunkBytes) with
        | none => fail .commitmentMismatch
        | some climbed => commitmentMatches sha256 G commitment climbed dataSize

/-! ### Parts of an accepted proof -/

/-- What a chunk-level climb from the chunk root `R` ends in. -/
def climbedRoot (chunkIndex chunkCount : ℕ) (R : Digest) (siblings : List Digest) : Digest :=
  foldPath (node sha256) (chunkLeaf sha256 chunkIndex R)
    ((levelSteps chunkIndex (chunkCount - 1)).zip siblings)

/-- The chunk root an in-chunk climb from segment `j` ends in. -/
def climbedChunkRoot (G : Geometry) (segmentIndex : ℕ) (bytes : Bytes) (inner : List Digest) :
    Digest :=
  foldPath (node sha256) (leaf sha256 bytes)
    ((levelSteps segmentIndex (2 ^ G.height - 1)).zip inner)

/-- Every in-chunk sibling that starts at or past the data is the empty subtree of its level. -/
def PinnedFrom (dataSegments level nodeIndex : ℕ) (inner : List Digest) : Prop :=
  ∀ m x, inner[m]? = some x →
    dataSegments ≤ ((nodeIndex / 2 ^ m) ^^^ 1) * 2 ^ (level + m) → x = emptyRoot sha256 (level + m)

variable {sha256}

variable {G : Geometry} {root T : Digest} {n c s level i : ℕ} {proof bytes : Bytes}

theorem commitmentMatches_eq_ok {commitment : Digest} :
    commitmentMatches sha256 G commitment root n = .ok ()
      ↔ dataCommitment sha256 G root n = commitment := by
  unfold commitmentMatches
  split <;> simp_all

/-- A proof of the right length with the right last hash is a list of digests and the witness. -/
theorem requireSizeWitness_eq_ok {siblings : Bytes} {k : ℕ}
    (hlen : proof.length = proofByteLength (k + 1)) :
    requireSizeWitness sha256 G proof n = .ok siblings ↔
      ∃ sibs : List Digest, sibs.length = k ∧ siblings = bytesOf sibs ∧
        proof = bytesOf (sibs ++ [sizeWitness sha256 G n]) := by
  have hmul : proof.length = k * hashSize + hashSize := by
    rw [hlen, proofByteLength, Nat.succ_mul]
  rw [requireSizeWitness, checkedSub_of_le (by omega), expect_some, ok_bind, hmul,
    Nat.add_sub_cancel]
  constructor
  · intro h
    split at h
    · rename_i hw
      cases h
      have htake : (proof.take (k * hashSize)).length = k * hashSize := by
        rw [length_take]
        omega
      have hmod : (proof.take (k * hashSize)).length % hashSize = 0 := by
        rw [htake, Nat.mul_mod_left]
      refine ⟨digestsOf (proof.take (k * hashSize)), ?_, (bytesOf_digestsOf _ hmod).symm, ?_⟩
      · have := bytesOf_length (digestsOf (proof.take (k * hashSize)))
        rw [bytesOf_digestsOf _ hmod, htake] at this
        exact Nat.eq_of_mul_eq_mul_left (show 0 < hashSize by decide)
          (this.symm.trans (Nat.mul_comm _ _))
      · rw [bytesOf_snoc, bytesOf_digestsOf _ hmod, ← hw, take_append_drop]
    · exact absurd h (fail_ne_ok _ _)
  · rintro ⟨sibs, rfl, rfl, rfl⟩
    have hsib : (bytesOf sibs).length = sibs.length * hashSize := by
      rw [bytesOf_length, Nat.mul_comm]
    rw [bytesOf_snoc, drop_left' hsib, take_left' hsib, if_pos rfl]

/-- **What both verifiers check before they climb**: the length of the proof and its last hash. -/
theorem opens_eq_ok_iff {k : ℕ → ℕ} {next : ℕ → Bytes → Res VerifyError Unit}
    (hn : 0 < n ∧ n ≤ G.maxDataSize) (hc : c < divCeil n G.chunkSize) :
    (do
      let chunkCount ← mapErr .size (G.chunkCount n)
      let d ← expect (depth c chunkCount)
      let expectedProof := proofByteLength (k d + 1)
      if proof.length ≠ expectedProof then fail (.invalidProofLength expectedProof proof.length)
      else
        let siblings ← requireSizeWitness sha256 G proof n
        next chunkCount siblings : Res VerifyError Unit) = .ok () ↔
      ∃ sibs : List Digest, sibs.length = k (levelSteps c (divCeil n G.chunkSize - 1)).length ∧
        proof = bytesOf (sibs ++ [sizeWitness sha256 G n]) ∧
        next (divCeil n G.chunkSize) (bytesOf sibs) = .ok () := by
  have hcount := Geometry.divCeil_le_maxDataTxChunks hn.2
  have hmax := G.maxChunks_lt
  rw [Geometry.chunkCount_of_range hn, mapErr_ok, ok_bind, depth_eq hc (by omega), expect_some,
    ok_bind]
  dsimp only
  rw [fail_ite_eq_ok, not_not, bind_eq_ok]
  constructor
  · rintro ⟨hproof, siblings, hwit, h⟩
    obtain ⟨sibs, hsibs, rfl, hpf⟩ := (requireSizeWitness_eq_ok hproof).mp hwit
    exact ⟨sibs, hsibs, hpf, h⟩
  · rintro ⟨sibs, hsibs, rfl, h⟩
    have hproof : (bytesOf (sibs ++ [sizeWitness sha256 G n])).length
        = proofByteLength (sibs.length + 1) := by
      rw [bytesOf_length, length_append, Nat.mul_comm]
      rfl
    exact ⟨hsibs ▸ hproof, _, (requireSizeWitness_eq_ok hproof).mpr ⟨sibs, rfl, rfl, rfl⟩, h⟩

/-- **What an accepted chunk proof is.** -/
theorem verifyChunk_eq_ok_iff :
    verifyChunk sha256 G T n c bytes proof = .ok () ↔
      (0 < n ∧ n ≤ G.maxDataSize) ∧ c < divCeil n G.chunkSize ∧
        bytes.length = min (n - c * G.chunkSize) G.chunkSize ∧
        ∃ sibs : List Digest, sibs.length = (levelSteps c (divCeil n G.chunkSize - 1)).length ∧
          proof = bytesOf (sibs ++ [sizeWitness sha256 G n]) ∧
          dataCommitment sha256 G (climbedRoot sha256 c (divCeil n G.chunkSize)
            (rootOf (node sha256) (segmentLeaves sha256 G bytes)) sibs) n = T := by
  rw [verifyChunk, bind_eq_ok]
  simp only [mapErr_eq_ok, Geometry.chunkLen_eq_ok_iff, and_assoc, exists_and_left, exists_eq_left]
  refine and_congr_right fun hpos => and_congr_right fun hmax => and_congr_right fun hc => ?_
  have hstart := Geometry.chunkStart_lt hc
  have hcs := G.chunkSize_pos
  rw [fail_ite_eq_ok, not_not, opens_eq_ok_iff ⟨hpos, hmax⟩ hc]
  refine and_congr_right fun hbytes => exists_congr fun sibs => and_congr_right fun hsibs =>
    and_congr_right fun _ => ?_
  rw [chunkRoot_eq sha256 (by omega) (by omega), expectOk_ok, ok_bind,
    climb_eq sha256 _ sibs hc, if_pos hsibs]
  exact commitmentMatches_eq_ok

/-! ### The in-chunk climb -/

theorem pinnedFrom_cons {x : Digest} {rest : List Digest} :
    PinnedFrom sha256 s level i (x :: rest) ↔
      (s ≤ (i ^^^ 1) * 2 ^ level → x = emptyRoot sha256 level) ∧
        PinnedFrom sha256 s (level + 1) (i / 2) rest := by
  constructor
  · intro h
    refine ⟨fun hs => h 0 x rfl (by simpa using hs), fun m y hy hs => ?_⟩
    have := h (m + 1) y hy
    rw [pow_succ', ← Nat.div_div_eq_div_mul, show level + (m + 1) = level + 1 + m by omega] at this
    exact this hs
  · rintro ⟨h0, hrest⟩ m y hy hs
    cases m with
    | zero =>
      obtain rfl : x = y := by simpa using hy
      exact h0 (by simpa using hs)
    | succ m =>
      rw [pow_succ', ← Nat.div_div_eq_div_mul, show level + (m + 1) = level + 1 + m by omega] at hs
      rw [show level + (m + 1) = level + 1 + m by omega]
      exact hrest m y hy hs

/-- **The in-chunk loop** folds the siblings along the bits of the index and accepts exactly the
pinned ones. -/
theorem climbInChunk_eq_ok {h : ℕ} {r : Digest} {inner : List Digest}
    (hlevel : level + inner.length = h) (hh : h ≤ maxSubtreeHeight) (hi : i < 2 ^ inner.length) :
    climbInChunk sha256 s level i r inner = .ok root ↔
      PinnedFrom sha256 s level i inner ∧
        root = foldPath (node sha256) r ((levelSteps i (2 ^ inner.length - 1)).zip inner) := by
  induction inner generalizing level i r with
  | nil =>
    simp only [climbInChunk, Except.ok.injEq, zip_nil_right, foldPath_nil]
    constructor
    · rintro rfl
      exact ⟨fun m x hx => by simp at hx, rfl⟩
    · exact fun h => h.2.symm
  | cons x rest ih =>
    rw [length_cons] at hlevel hi
    have hblock := sibling_block_le (h := h) (ℓ := level) (i := i) (by omega)
      (by rw [show h - level = rest.length + 1 by omega]; exact hi)
    have hpow : 2 ^ h ≤ 2 ^ 8 := Nat.pow_le_pow_right (by decide) hh
    have hpos := Nat.two_pow_pos level
    have hstart : ((i ^^^ 1) <<< level) % 2 ^ 32 = (i ^^^ 1) * 2 ^ level := by
      rw [Nat.shiftLeft_eq, Nat.mod_eq_of_lt (by omega)]
    have hstep : (if i &&& 1 = 0 then node sha256 r x else node sha256 x r)
        = stepUp (node sha256) r (if i % 2 = 1 then Side.left else Side.right, x) := by
      rw [Nat.and_one_is_mod]
      rcases Nat.mod_two_eq_zero_or_one i with h0 | h1
      · rw [if_pos h0, if_neg (by omega)]
        rfl
      · rw [if_neg (by omega), if_pos h1]
        rfl
    rw [length_cons, levelSteps_perfect_succ hi, zip_cons_cons, foldPath_cons,
      pinnedFrom_cons, climbInChunk]
    simp only [hstart, hstep, Nat.shiftRight_one]
    have ih' := @ih (level + 1) (i / 2)
      (stepUp (node sha256) r (if i % 2 = 1 then Side.left else Side.right, x)) (by omega)
      (by rw [pow_succ'] at hi; omega)
    split
    · rename_i hpast
      rw [SubtreeHeight.new_of_le (show level ≤ maxSubtreeHeight by omega), expect_some, ok_bind]
      by_cases hx : x = emptyRoot sha256 level
      · rw [if_neg (not_not.mpr (show x = empty sha256 ⟨level, by omega⟩ from hx)), ih']
        simp [hx]
      · rw [if_pos (show x ≠ empty sha256 ⟨level, by omega⟩ from hx)]
        simp [hx, hpast]
    · rename_i hin
      rw [ih']
      simp [hin]

theorem exists_length_add_iff {α : Type} {p : List α → Prop} {a b : ℕ} :
    (∃ l, l.length = a + b ∧ p l) ↔ ∃ l, l.length = a ∧ ∃ r, r.length = b ∧ p (l ++ r) := by
  constructor
  · rintro ⟨l, hl, hp⟩
    exact ⟨l.take a, by simp [hl], l.drop a, by simp [hl], by rwa [take_append_drop]⟩
  · rintro ⟨l, rfl, r, rfl, hp⟩
    exact ⟨l ++ r, length_append, hp⟩

/-- **What an accepted segment proof is.** -/
theorem verifySegment_eq_ok_iff {j : ℕ} :
    verifySegment sha256 G T n c j bytes proof = .ok () ↔
      (0 < n ∧ n ≤ G.maxDataSize) ∧ c < divCeil n G.chunkSize ∧ j < G.segmentsPerChunk ∧
        bytes.length = min (n - (c * G.chunkSize + j * G.segmentSize)) G.segmentSize ∧
        ∃ inner sibs : List Digest, inner.length = G.height ∧
          sibs.length = (levelSteps c (divCeil n G.chunkSize - 1)).length ∧
          proof = bytesOf (inner ++ (sibs ++ [sizeWitness sha256 G n])) ∧
          PinnedFrom sha256
            (divCeil (min (n - c * G.chunkSize) G.chunkSize) G.segmentSize) 0 j inner ∧
          dataCommitment sha256 G (climbedRoot sha256 c (divCeil n G.chunkSize)
            (climbedChunkRoot sha256 G j bytes inner) sibs) n = T := by
  rw [verifySegment, bind_eq_ok]
  simp only [mapErr_eq_ok, Geometry.segmentLen_eq_ok_iff, and_assoc, exists_and_left,
    exists_eq_left]
  refine and_congr_right fun hpos => and_congr_right fun hmax => and_congr_right fun hc =>
    and_congr_right fun hj => ?_
  rw [fail_ite_eq_ok, not_not, opens_eq_ok_iff ⟨hpos, hmax⟩ hc]
  -- the hashes before the witness: first the in-chunk ones, then the chunk level
  rw [exists_length_add_iff]
  refine and_congr_right fun _ => exists_congr fun inner => and_congr_right fun hinner =>
    exists_congr fun sibs => and_congr_right fun hsibs => ?_
  have hbytesLen : (bytesOf inner).length = G.height * hashSize := by
    rw [bytesOf_length, hinner, Nat.mul_comm]
  rw [append_assoc]
  refine and_congr_right fun _ => ?_
  rw [bytesOf_append, take_left' hbytesLen, drop_left' hbytesLen,
    if_neg (by rw [length_append, hbytesLen]; omega),
    Geometry.chunkLen_eq_ok_iff.mpr ⟨⟨hpos, hmax⟩, hc, rfl⟩, expectOk_ok, ok_bind,
    digestsOf_bytesOf, bind_eq_ok]
  have hwidth : j < 2 ^ inner.length := by rwa [hinner, ← G.segmentsPerChunk_eq]
  simp only [climbInChunk_eq_ok ((Nat.zero_add _).trans hinner) G.height_le hwidth, and_assoc,
    exists_and_left, exists_eq_left]
  refine and_congr_right fun _ => ?_
  rw [climb_eq sha256 _ sibs hc, if_pos hsibs, climbedChunkRoot, ← hinner]
  exact commitmentMatches_eq_ok

end Irys.Tree
