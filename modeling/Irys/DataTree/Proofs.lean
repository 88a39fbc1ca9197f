import Irys.DataTree.Builder

/-!
# Proofs read out of a finished tree

The accessors of `DataTree` in `builder.rs`: the root, the commitment, and the chunk and
segment proofs.  For the tree of `d` they are computed in closed form.
-/

namespace Irys.Tree

open Irys Irys.Merkle

/-- Proof generation rejected the request. -/
inductive ProofError where
  | size (e : SizeError)
  | invalidChunkLength (expected actual : ℕ)
  | chunkRootMismatch
  deriving DecidableEq

namespace DataTree

variable {ε : Type} (sha256 : Bytes → Digest)

section

variable (t : DataTree)

/-- Number of chunks. -/
def chunkCount : ℕ := (t.layers.head?.map List.length).getD 0

/-- The chunk count, when `c` is below it. -/
def ensureChunk (chunkIndex : ℕ) : Res SizeError ℕ :=
  if t.chunkCount ≤ chunkIndex then fail (.chunkIndexOutOfRange chunkIndex t.chunkCount)
  else .ok t.chunkCount

/-- Chunk leaf stored at index `c`. -/
def chunkLeaf (chunkIndex : ℕ) : Res SizeError Digest :=
  match t.layers.head? with
  | none => fail (.chunkIndexOutOfRange chunkIndex t.chunkCount)
  | some layer =>
    match layer[chunkIndex]? with
    | none => fail (.chunkIndexOutOfRange chunkIndex t.chunkCount)
    | some hash => .ok hash

/-- The last entry of the highest layer. -/
def rootHash : Res ε Digest := expect (t.layers.getLast?.bind List.getLast?)

/-- Size and geometry witness for this tree. -/
def sizeWitness : Digest := Tree.sizeWitness sha256 t.geometry t.dataSize

/-- `node(data_tree_root, size_witness(G, n))`. -/
def dataCommitment : Res ε Digest := do
  let root ← t.rootHash
  .ok (Tree.dataCommitment sha256 t.geometry root t.dataSize)

end

/-- The neighbour of the node above chunk `c`; a missing slot is a carried node.  A level at or
above the word size has no neighbour. -/
def siblingAt (layer : List Digest) (chunkIndex level : ℕ) : Option Digest :=
  if level < 32 then layer[(chunkIndex >>> level) ^^^ 1]? else none

/-- The neighbours of chunk `c` in the layers from `level` upwards. -/
def siblingsFrom (chunkIndex : ℕ) : (level : ℕ) → List (List Digest) → List Digest
  | _, [] => []
  | level, layer :: rest =>
    (siblingAt layer chunkIndex level).toList ++ siblingsFrom chunkIndex (level + 1) rest

/-- Chunk proof for index `c`: siblings, then the size witness. -/
def chunkProof (t : DataTree) (chunkIndex : ℕ) : Res ProofError Bytes := do
  let _ ← mapErr .size (t.ensureChunk chunkIndex)
  .ok (bytesOf (siblingsFrom chunkIndex 0 t.layers) ++ (t.sizeWitness sha256).bytes)

/-- Segment proof: the in-chunk siblings, then the chunk proof. -/
def segmentProof (t : DataTree) (chunkIndex segmentIndex : ℕ) (chunkBytes : Bytes) :
    Res ProofError Bytes := do
  let _ ← mapErr .size (t.ensureChunk chunkIndex)
  if t.geometry.segmentsPerChunk ≤ segmentIndex then
    fail (.size (.segmentIndexOutOfRange segmentIndex t.geometry.segmentsPerChunk))
  else
    let expected ← mapErr .size (t.geometry.chunkLen t.dataSize chunkIndex)
    if chunkBytes.length ≠ expected then
      fail (.invalidChunkLength expected chunkBytes.length)
    else
      let computed ← expectOk (chunkRoot sha256 t.geometry chunkBytes)
      let stored ← mapErr .size (t.chunkLeaf chunkIndex)
      if Tree.chunkLeaf sha256 chunkIndex computed ≠ stored then fail .chunkRootMismatch
      else
        let siblings ← segmentSiblings sha256 t.geometry chunkBytes segmentIndex
        let proof ← t.chunkProof sha256 chunkIndex
        .ok (bytesOf siblings ++ proof)

end DataTree

/-! ### The tree of `d` -/

section

variable (sha256 : Bytes → Digest) (G : Geometry)

/-- The chunk-level audit path of chunk `c` of `d`. -/
def chunkPath (d : Bytes) (c : ℕ) : List (Side × Digest) :=
  siblingsOf (node sha256) c (chunkLeaves sha256 G d)

/-- The in-chunk audit path of segment `j` of a chunk. -/
def segmentPath (bytes : Bytes) (j : ℕ) :
    List (Side × Digest) :=
  siblingsOf (node sha256) j (segmentLeaves sha256 G bytes)

/-- The data-tree root of `d`. -/
def rootOfData (d : Bytes) : Digest :=
  rootOf (node sha256) (chunkLeaves sha256 G d)

end

namespace DataTree

variable {ε : Type} (sha256 : Bytes → Digest) {G : Geometry} {d : Bytes} {c j : ℕ}

@[simp] theorem chunkCount_treeOf :
    (treeOf sha256 G d).chunkCount = divCeil d.length G.chunkSize := by
  rw [chunkCount, treeOf, layersOf_head?]
  simp

theorem ensureChunk_treeOf (hc : c < divCeil d.length G.chunkSize) :
    (treeOf sha256 G d).ensureChunk c = .ok (divCeil d.length G.chunkSize) := by
  rw [ensureChunk, chunkCount_treeOf, if_neg (by omega)]

theorem chunkLeaf_treeOf (hc : c < divCeil d.length G.chunkSize) :
    (treeOf sha256 G d).chunkLeaf c = .ok (Tree.chunkLeaf sha256 c (chunkRootAt sha256 G d c)) := by
  rw [chunkLeaf, treeOf, layersOf_head?]
  simp only [chunkLeaves_getElem? sha256 hc]

theorem rootHash_treeOf (hd : d ≠ []) :
    ((treeOf sha256 G d).rootHash : Res ε Digest) = .ok (rootOfData sha256 G d) := by
  rw [rootHash, treeOf,
    layersOf_getLast? (node sha256) _ (DataTreeBuilder.chunkLeaves_ne_nil sha256 hd)]
  rfl

/-- **The commitment of `d`.** -/
theorem dataCommitment_treeOf (hd : d ≠ []) :
    ((treeOf sha256 G d).dataCommitment sha256 : Res ε Digest)
      = .ok (Tree.dataCommitment sha256 G (rootOfData sha256 G d) d.length) := by
  rw [dataCommitment, rootHash_treeOf sha256 hd]
  rfl

/-- Below `2 ^ 32` leaves no layer with a neighbour lies at or above the word size. -/
theorem siblingsFrom_layersOf (xs : List Digest) (level : ℕ) (hlevel : level ≤ 32)
    (hlen : xs.length ≤ 2 ^ (32 - level)) (hc : c >>> level < xs.length) :
    siblingsFrom c level (layersOf (node sha256) xs)
      = siblingsIn (c >>> level) (layersOf (node sha256) xs) := by
  induction hm : xs.length using Nat.strong_induction_on generalizing xs level with
  | _ m ih =>
    subst hm
    rcases Nat.lt_or_ge 1 xs.length with hgt | hle
    · have hlt : level < 32 := by
        by_contra hge
        rw [show 32 - level = 0 by omega, pow_zero] at hlen
        omega
      have hhalf : c >>> (level + 1) = c >>> level / 2 := by
        rw [Nat.shiftRight_succ]
      have hup : (levelUp (node sha256) xs).length ≤ 2 ^ (32 - (level + 1)) := by
        rw [levelUp_length]
        rw [show 32 - level = 32 - (level + 1) + 1 by omega, pow_succ] at hlen
        omega
      rw [layersOf_of_gt (node sha256) hgt, siblingsFrom, siblingsIn, siblingAt, if_pos hlt,
        ih _ (levelUp_length_lt (node sha256) hgt) _ (level + 1) (by omega) hup
          (by rw [hhalf, levelUp_length]; omega) rfl, hhalf]
    · rw [layersOf_of_le (node sha256) hle]
      have h0 : c >>> level = 0 := Nat.lt_one_iff.mp (lt_of_lt_of_le hc hle)
      rw [siblingsFrom, siblingsIn, siblingAt, siblingsFrom, siblingsIn, h0]
      split
      · rfl
      · rw [List.getElem?_eq_none (by simpa using hle)]

/-- **Chunk proofs are audit paths.** -/
theorem chunkProof_treeOf (hmax : d.length ≤ G.maxDataSize)
    (hc : c < divCeil d.length G.chunkSize) :
    (treeOf sha256 G d).chunkProof sha256 c
      = .ok (bytesOf ((chunkPath sha256 G d c).map Prod.snd
          ++ [Tree.sizeWitness sha256 G d.length])) := by
  have hcount := Geometry.divCeil_le_maxDataTxChunks hmax
  have hlt := G.maxChunks_lt
  rw [chunkProof, ensureChunk_treeOf sha256 hc, mapErr_ok, ok_bind, treeOf,
    siblingsFrom_layersOf sha256 _ 0 (by omega) (by rw [chunkLeaves_length]; omega)
      (by rw [chunkLeaves_length, Nat.shiftRight_zero]; exact hc),
    Nat.shiftRight_zero, siblingsIn_layersOf (node sha256) c _ (by rw [chunkLeaves_length]; exact hc),
    bytesOf_append]
  simp [chunkPath, sizeWitness]

/-- The chunks of `d` have the lengths `chunk_len` computes. -/
theorem chunkLen_chunkAt (hd : d ≠ []) (hmax : d.length ≤ G.maxDataSize)
    (hc : c < divCeil d.length G.chunkSize) :
    G.chunkLen d.length c = .ok (chunkAt G d c).length :=
  Geometry.chunkLen_eq_ok_iff.mpr
    ⟨⟨List.length_pos_iff.mpr hd, hmax⟩, hc, chunkAt_length G d c⟩

theorem chunkAt_pos (hc : c < divCeil d.length G.chunkSize) : 0 < (chunkAt G d c).length := by
  have := Geometry.chunkStart_lt hc
  have := G.chunkSize_pos
  rw [chunkAt_length]
  omega

theorem chunkAt_le (G : Geometry) (d : Bytes) (c : ℕ) : (chunkAt G d c).length ≤ G.chunkSize := by
  rw [chunkAt_length]
  omega

/-- **Segment proofs are two audit paths.** -/
theorem segmentProof_treeOf (hd : d ≠ []) (hmax : d.length ≤ G.maxDataSize)
    (hc : c < divCeil d.length G.chunkSize) (hj : j < G.segmentsPerChunk) :
    (treeOf sha256 G d).segmentProof sha256 c j (chunkAt G d c)
      = .ok (bytesOf ((segmentPath sha256 G (chunkAt G d c) j).map Prod.snd
          ++ ((chunkPath sha256 G d c).map Prod.snd ++ [Tree.sizeWitness sha256 G d.length]))) := by
  rw [segmentProof, ensureChunk_treeOf sha256 hc, mapErr_ok, ok_bind,
    show (treeOf sha256 G d).geometry = G from rfl,
    show (treeOf sha256 G d).dataSize = d.length from rfl, if_neg (by omega),
    chunkLen_chunkAt hd hmax hc, mapErr_ok, ok_bind, if_neg (by simp),
    chunkRoot_eq sha256 (chunkAt_pos hc) (chunkAt_le G d c), expectOk_ok, ok_bind,
    chunkLeaf_treeOf sha256 hc, mapErr_ok, ok_bind, if_neg (by simp [chunkRootAt]),
    segmentSiblings_eq sha256 hj, ok_bind, chunkProof_treeOf sha256 hmax hc, ok_bind,
    ← bytesOf_append]
  rfl

end DataTree

end Irys.Tree
