import Irys.DataTree.Completeness

/-!
# What a hash equality binds

The strings each computation hashes, and what follows when SHA-256 does not collide on them.
The lists below hold strings that the calls really feed to the hasher, so assuming
`HashInjOn` of them assumes nothing about strings nobody has hashed.
-/

namespace Irys.Tree

open List

open Irys Irys.Merkle

/-! ### The hashed strings -/

/-- The node preimages of a list of pairs. -/
def pairInputs (pairs : List (Digest × Digest)) : List Bytes :=
  pairs.map fun p => nodeInput p.1 p.2

section Strings

variable (sha256 : Bytes → Digest)

/-- Hashed to compute the chunk root of `bytes`. -/
def chunkStrings (G : Geometry) (bytes : Bytes) : List Bytes :=
  (List.range G.segmentsPerChunk).map (fun j => leafInput (segmentAt G bytes j))
    ++ pairInputs (treePairs (node sha256) (segmentLeaves sha256 G bytes))

/-- Hashed to climb from the chunk root `R`. -/
def climbStrings (chunkIndex chunkCount : ℕ) (R : Digest) (siblings : List Digest) : List Bytes :=
  chunkLeafInput chunkIndex R :: pairInputs (pathPairs (node sha256) (chunkLeaf sha256 chunkIndex R)
    ((levelSteps chunkIndex (chunkCount - 1)).zip siblings))

/-- Hashed to climb from a segment to the chunk root. -/
def segmentClimbStrings (G : Geometry) (segmentIndex : ℕ) (bytes : Bytes) (inner : List Digest) :
    List Bytes :=
  leafInput bytes :: pairInputs (pathPairs (node sha256) (leaf sha256 bytes)
    ((levelSteps segmentIndex (2 ^ G.height - 1)).zip inner))

/-- Hashed to compute the commitment of a root. -/
def commitmentStrings (G : Geometry) (root : Digest) (dataSize : ℕ) : List Bytes :=
  [sizeInput G dataSize, nodeInput root (sizeWitness sha256 G dataSize)]

/-- Hashed to build the data tree of `d`. -/
def treeStrings (G : Geometry) (d : Bytes) : List Bytes :=
  (List.range (divCeil d.length G.chunkSize)).flatMap (fun c =>
      chunkLeafInput c (chunkRootAt sha256 G d c) :: chunkStrings sha256 G (chunkAt G d c))
    ++ pairInputs (treePairs (node sha256) (chunkLeaves sha256 G d))

/-- The hashes of a proof before its last one, the size witness. -/
def proofSiblings (proof : Bytes) : List Digest := (digestsOf proof).dropLast

/-- Hashed by one call of `verify_chunk`. -/
def verifyChunkStrings (G : Geometry) (n c : ℕ) (bytes proof : Bytes) : List Bytes :=
  let R := rootOf (node sha256) (segmentLeaves sha256 G bytes)
  let count := divCeil n G.chunkSize
  chunkStrings sha256 G bytes ++ climbStrings sha256 c count R (proofSiblings proof)
    ++ commitmentStrings sha256 G (climbedRoot sha256 c count R (proofSiblings proof)) n

/-- Hashed by one call of `verify_segment`. -/
def verifySegmentStrings (G : Geometry) (n c j : ℕ) (bytes proof : Bytes) : List Bytes :=
  let inner := (proofSiblings proof).take G.height
  let siblings := (proofSiblings proof).drop G.height
  let R := climbedChunkRoot sha256 G j bytes inner
  let count := divCeil n G.chunkSize
  segmentClimbStrings sha256 G j bytes inner ++ climbStrings sha256 c count R siblings
    ++ commitmentStrings sha256 G (climbedRoot sha256 c count R siblings) n

end Strings

theorem proofSiblings_bytesOf (siblings : List Digest) (w : Digest) :
    proofSiblings (bytesOf (siblings ++ [w])) = siblings := by
  rw [proofSiblings, digestsOf_bytesOf, dropLast_concat]

/-! ### Nodes and leaves on hashed strings -/

variable {sha256 : Bytes → Digest} {S : List Bytes}

/-- The pairs whose preimages are in `S`. -/
def hashedPairs (S : List Bytes) : Set (Digest × Digest) := {p | nodeInput p.1 p.2 ∈ S}

/-- A digest of a string of `S` that is no node preimage. -/
def LeafOf (sha256 : Bytes → Digest) (S : List Bytes) (x : Digest) : Prop :=
  ∃ s ∈ S, sha256 s = x ∧ ∀ l r, nodeInput l r ≠ s

theorem nodeInjOn_hashedPairs (h : HashInjOn sha256 S) :
    NodeInjOn (node sha256) (hashedPairs S) := by
  intro p hp q hq heq
  obtain ⟨hl, hr⟩ := nodeInput_inj (h _ hp _ hq heq)
  exact Prod.ext hl hr

theorem nodeApart_hashedPairs (h : HashInjOn sha256 S) :
    NodeApart (node sha256) (hashedPairs S) (LeafOf sha256 S) := by
  rintro p hp x ⟨s, hs, rfl, hne⟩ heq
  exact hne _ _ (h _ hp _ hs heq)

theorem mem_hashedPairs {pairs : List (Digest × Digest)} (h : pairInputs pairs ⊆ S) :
    ∀ p ∈ pairs, p ∈ hashedPairs S :=
  fun p hp => h (List.mem_map.mpr ⟨p, hp, rfl⟩)

theorem leafOf_chunkLeaf {c : ℕ} {R : Digest} (h : chunkLeafInput c R ∈ S) :
    LeafOf sha256 S (chunkLeaf sha256 c R) :=
  ⟨_, h, rfl, fun l r => nodeInput_ne_chunkLeafInput l r R c⟩

theorem leafOf_leaf {bytes : Bytes} (h : leafInput bytes ∈ S) :
    LeafOf sha256 S (leaf sha256 bytes) :=
  ⟨_, h, rfl, fun l r => nodeInput_ne_leafInput l r bytes⟩

/-! ### Membership in the tree's strings -/

theorem subset_appends {A B C : List Bytes} :
    A ⊆ A ++ B ++ C ∧ B ⊆ A ++ B ++ C ∧ C ⊆ A ++ B ++ C := by
  simp [append_assoc]

section TreeStrings

variable {G : Geometry} {d : Bytes} {c : ℕ}

theorem chunkLeafInput_mem_treeStrings (hc : c < divCeil d.length G.chunkSize) :
    chunkLeafInput c (chunkRootAt sha256 G d c) ∈ treeStrings sha256 G d :=
  mem_append_left _ (mem_flatMap.mpr ⟨c, mem_range.mpr hc, mem_cons_self⟩)

theorem chunkStrings_subset_treeStrings (hc : c < divCeil d.length G.chunkSize) :
    chunkStrings sha256 G (chunkAt G d c) ⊆ treeStrings sha256 G d :=
  fun _ hx => mem_append_left _
    (mem_flatMap.mpr ⟨c, mem_range.mpr hc, mem_cons_of_mem _ hx⟩)

theorem pairInputs_subset_treeStrings :
    pairInputs (treePairs (node sha256) (chunkLeaves sha256 G d)) ⊆ treeStrings sha256 G d :=
  subset_append_right _ _

theorem leafInput_mem_chunkStrings {bytes : Bytes} {j : ℕ} (hj : j < G.segmentsPerChunk) :
    leafInput (segmentAt G bytes j) ∈ chunkStrings sha256 G bytes :=
  mem_append_left _ (List.mem_map.mpr ⟨j, mem_range.mpr hj, rfl⟩)

end TreeStrings

/-! ### Binding -/

section

variable (h : HashInjOn sha256 S)
include h

/-- **A commitment binds** the root, the size, and the geometry. -/
theorem commitment_binds {G G' : Geometry} {r r' : Digest} {n n' : ℕ}
    (hn : n < 2 ^ 64) (hn' : n' < 2 ^ 64) (hS : commitmentStrings sha256 G r n ⊆ S)
    (hS' : commitmentStrings sha256 G' r' n' ⊆ S)
    (heq : dataCommitment sha256 G r n = dataCommitment sha256 G' r' n') :
    r = r' ∧ n = n' ∧ G.chunkSize = G'.chunkSize ∧ G.segmentsPerChunk = G'.segmentsPerChunk := by
  simp only [commitmentStrings, cons_subset, nil_subset, and_true] at hS hS'
  obtain ⟨hroot, hwit⟩ := nodeInput_inj (h _ hS.2 _ hS'.2 heq)
  exact ⟨hroot, sizeInput_inj hn hn' (h _ hS.1 _ hS'.1 hwit)⟩

/-- **A climb binds its chunk.**  A climb from a chunk root at index `c` that ends in the root of
the tree of `d` started at chunk `c` of `d`, went along the steps of that chunk, and used its
siblings.  The claimed chunk count is arbitrary. -/
theorem climb_binds {G : Geometry} {d : Bytes} {c count : ℕ} {R : Digest}
    {sibs : List Digest} (hd : d ≠ []) (hmax : d.length ≤ G.maxDataSize) (hc : c < 2 ^ 32)
    (htree : treeStrings sha256 G d ⊆ S) (hclimb : climbStrings sha256 c count R sibs ⊆ S)
    (heq : climbedRoot sha256 c count R sibs = rootOfData sha256 G d) :
    c < divCeil d.length G.chunkSize ∧ R = chunkRootAt sha256 G d c ∧
      (levelSteps c (count - 1)).zip sibs = chunkPath sha256 G d c := by
  have hcount := Geometry.divCeil_le_maxDataTxChunks hmax
  have hlt := G.maxChunks_lt
  rw [climbStrings, cons_subset] at hclimb
  have hleaves : ∀ x ∈ chunkLeaves sha256 G d, LeafOf sha256 S x := by
    intro x hx
    obtain ⟨i, hi, rfl⟩ := List.mem_map.mp hx
    exact leafOf_chunkLeaf (htree (chunkLeafInput_mem_treeStrings (mem_range.mp hi)))
  obtain ⟨i, hi, hpath⟩ := opening_unique (nodeInjOn_hashedPairs h) (nodeApart_hashedPairs h)
    (chunkLeaves sha256 G d) (DataTreeBuilder.chunkLeaves_ne_nil sha256 hd) hleaves
    (mem_hashedPairs (List.Subset.trans pairInputs_subset_treeStrings htree)) _ _
    (leafOf_chunkLeaf hclimb.1) (mem_hashedPairs hclimb.2) heq
  have hic : i < divCeil d.length G.chunkSize := by
    rw [← chunkLeaves_length sha256]
    exact lt_length_of_some hi
  -- the leaf hashes the index, so the leaf that was opened is leaf `c`
  rw [chunkLeaves_getElem? sha256 hic, Option.some.injEq] at hi
  obtain ⟨rfl, hR⟩ := chunkLeafInput_inj (by omega) hc
    (h _ (htree (chunkLeafInput_mem_treeStrings hic)) _ hclimb.1 hi)
  exact ⟨hic, hR.symm, hpath⟩

/-- **A chunk root binds its bytes**, among chunks of one geometry. -/
theorem chunkRoot_binds {G : Geometry} {a b : Bytes}
    (ha : a.length ≤ G.chunkSize) (hb : b.length ≤ G.chunkSize)
    (hSa : chunkStrings sha256 G a ⊆ S) (hSb : chunkStrings sha256 G b ⊆ S)
    (heq : rootOf (node sha256) (segmentLeaves sha256 G a)
      = rootOf (node sha256) (segmentLeaves sha256 G b)) : a = b := by
  have hpairs : ∀ {x : Bytes}, chunkStrings sha256 G x ⊆ S →
      ∀ p ∈ treePairs (node sha256) (segmentLeaves sha256 G x), p ∈ hashedPairs S :=
    fun hx => mem_hashedPairs (List.Subset.trans (subset_append_right _ _) hx)
  have hleaves := rootOf_inj (nodeInjOn_hashedPairs h) _ _ (by simp) (hpairs hSa) (hpairs hSb) heq
  refine eq_of_segmentAt_eq ha hb fun j hj => leafInput_inj ?_
  have hj' := congrArg (fun l => l[j]?) hleaves
  simp only [segmentLeaves_getElem? sha256 hj, Option.some.injEq] at hj'
  exact h _ (hSa (leafInput_mem_chunkStrings hj)) _ (hSb (leafInput_mem_chunkStrings hj)) hj'

/-- **A chunk root binds its segments.**  An in-chunk climb from index `j` that ends in the root
of a chunk started at segment `j` of the chunk and used its siblings. -/
theorem segment_binds {G : Geometry} {chunk bytes : Bytes} {j : ℕ}
    {inner : List Digest} (hj : j < G.segmentsPerChunk) (hinner : inner.length = G.height)
    (hchunk : chunkStrings sha256 G chunk ⊆ S)
    (hclimb : segmentClimbStrings sha256 G j bytes inner ⊆ S)
    (heq : climbedChunkRoot sha256 G j bytes inner
      = rootOf (node sha256) (segmentLeaves sha256 G chunk)) :
    bytes = segmentAt G chunk j ∧ inner = (segmentPath sha256 G chunk j).map Prod.snd := by
  rw [segmentClimbStrings, cons_subset] at hclimb
  have hj' : j < 2 ^ G.height := by rwa [← G.segmentsPerChunk_eq]
  have hleaves : ∀ x ∈ segmentLeaves sha256 G chunk, LeafOf sha256 S x := by
    intro x hx
    obtain ⟨i, hi, rfl⟩ := List.mem_map.mp hx
    exact leafOf_leaf (hchunk (leafInput_mem_chunkStrings (mem_range.mp hi)))
  have hne : segmentLeaves sha256 G chunk ≠ [] := by
    rw [← length_pos_iff, segmentLeaves_length]
    exact G.segmentsPerChunk_pos
  obtain ⟨i, hi, hpath⟩ := opening_unique (nodeInjOn_hashedPairs h) (nodeApart_hashedPairs h)
    _ hne hleaves (mem_hashedPairs (List.Subset.trans (subset_append_right _ _) hchunk)) _ _
    (leafOf_leaf hclimb.1) (mem_hashedPairs hclimb.2) heq
  have hic : i < G.segmentsPerChunk := by
    rw [← segmentLeaves_length sha256 G chunk]
    exact lt_length_of_some hi
  -- in a perfect tree the sides determine the index
  have hlen : (levelSteps j (2 ^ G.height - 1)).length = inner.length := by
    rw [levelSteps_length_perfect _ _ hj', hinner]
  have hsides : levelSteps j (2 ^ G.height - 1) = levelSteps i (2 ^ G.height - 1) := by
    have hmap := congrArg (List.map Prod.fst) hpath
    rwa [map_fst_zip hlen.le, ← segmentPath, segmentPath_sides sha256 chunk hic] at hmap
  obtain rfl := levelSteps_inj hj' (by rwa [← G.segmentsPerChunk_eq]) hsides
  rw [segmentLeaves_getElem? sha256 hic, Option.some.injEq] at hi
  refine ⟨(leafInput_inj (h _ (hchunk (leafInput_mem_chunkStrings hic)) _ hclimb.1 hi)).symm, ?_⟩
  rw [segmentPath, ← hpath, map_snd_zip hlen.ge]

end

end Irys.Tree
