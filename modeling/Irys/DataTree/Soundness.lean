import Irys.DataTree.Binding

/-!
# Soundness: only the honest proof is accepted

Against the commitment of a tree that was built from `d`, a verifier accepts nothing but the
bytes of `d` with the proof the tree itself returns.  The candidate is arbitrary: its own
geometry, size, indexes, bytes and proof bytes.

The argument goes down from the commitment: it binds the root, the size and the geometry
(`commitment_binds`), the root binds the chunk (`climb_binds`), the chunk root binds the bytes
(`chunkRoot_binds`) or the segment (`segment_binds`).
-/

namespace Irys.Tree

open List

open Irys Irys.Merkle

variable {sha256 : Bytes → Digest}

/-! ### Geometries that differ in the maximum only -/

/-- Equal chunk size and segment count: the parts of a geometry the tree depends on. -/
structure SameLayout (G' G : Geometry) : Prop where
  chunkSize : G'.chunkSize = G.chunkSize
  segmentsPerChunk : G'.segmentsPerChunk = G.segmentsPerChunk

namespace SameLayout

variable {G' G : Geometry} (h : SameLayout G' G)
include h

theorem segmentSize : G'.segmentSize = G.segmentSize := by
  rw [Geometry.segmentSize, Geometry.segmentSize, h.chunkSize, h.segmentsPerChunk]

theorem height : G'.height = G.height := by
  rw [Geometry.height, Geometry.height, h.segmentsPerChunk]

theorem segmentAt (bytes : Bytes) (j : ℕ) : Tree.segmentAt G' bytes j = Tree.segmentAt G bytes j := by
  rw [Tree.segmentAt, Tree.segmentAt, h.segmentSize]

theorem segmentLeaves (bytes : Bytes) :
    Tree.segmentLeaves sha256 G' bytes = Tree.segmentLeaves sha256 G bytes := by
  simp only [Tree.segmentLeaves, h.segmentsPerChunk, h.segmentAt]

theorem chunkStrings (bytes : Bytes) :
    Tree.chunkStrings sha256 G' bytes = Tree.chunkStrings sha256 G bytes := by
  simp only [Tree.chunkStrings, h.segmentsPerChunk, h.segmentAt, h.segmentLeaves]

theorem sizeWitness (n : ℕ) : Tree.sizeWitness sha256 G' n = Tree.sizeWitness sha256 G n := by
  simp only [Tree.sizeWitness, sizeInput, h.chunkSize, h.segmentsPerChunk]

end SameLayout

/-! ### Accepted chunks and segments -/

variable {G G' : Geometry} {d : Bytes} {n c j : ℕ} {bytes proof : Bytes}

section

variable {S : List Bytes} {m : ℕ} (h : HashInjOn sha256 S) (hd : d ≠ [])
    (hmax : d.length ≤ G.maxDataSize) (htree : treeStrings sha256 G d ⊆ S)
include h hd hmax htree

/-- **An accepted chunk**, against the commitment of the root of `d` and a size `m`. -/
theorem verifyChunk_binds (hm : m < 2 ^ 64)
    (hcommit : commitmentStrings sha256 G (rootOfData sha256 G d) m ⊆ S)
    (hcall : verifyChunkStrings sha256 G' n c bytes proof ⊆ S)
    (hok : verifyChunk sha256 G' (dataCommitment sha256 G (rootOfData sha256 G d) m) n c
      bytes proof = .ok ()) :
    SameLayout G' G ∧ n = m ∧ (0 < n ∧ n ≤ G'.maxDataSize) ∧ c < divCeil n G.chunkSize ∧
      c < divCeil d.length G.chunkSize ∧
      levelSteps c (divCeil n G.chunkSize - 1) = levelSteps c (divCeil d.length G.chunkSize - 1) ∧
      min (n - c * G.chunkSize) G.chunkSize = (chunkAt G d c).length ∧ bytes = chunkAt G d c ∧
      proof = bytesOf ((chunkPath sha256 G d c).map Prod.snd ++ [sizeWitness sha256 G n]) := by
  obtain ⟨hn, hc, hlen, sibs, hsibs, rfl, hT⟩ := verifyChunk_eq_ok_iff.mp hok
  have hcount := Geometry.divCeil_le_maxDataTxChunks hn.2
  have hmaxc := G'.maxChunks_lt
  have hbound := G'.maxDataSize_lt
  simp only [verifyChunkStrings, proofSiblings_bytesOf, append_subset] at hcall
  obtain ⟨⟨hchunkS, hclimbS⟩, hcommitS⟩ := hcall
  obtain ⟨hroot, hnm, hcs, hspc⟩ := commitment_binds h (by omega) hm hcommitS hcommit hT
  have hlayout : SameLayout G' G := ⟨hcs, hspc⟩
  obtain ⟨hcd, hR, hpath⟩ := climb_binds h hd hmax (by omega) htree hclimbS hroot
  rw [hlayout.segmentLeaves] at hR
  rw [hlayout.chunkStrings] at hchunkS
  rw [hcs] at hc hlen hsibs hpath
  have hbytes := chunkRoot_binds h (by omega) (DataTree.chunkAt_le G d c) hchunkS
    (List.Subset.trans (chunkStrings_subset_treeStrings hcd) htree) hR
  have hsides := congrArg (List.map Prod.fst) hpath
  rw [map_fst_zip hsibs.ge, chunkPath_sides sha256 hcd] at hsides
  refine ⟨hlayout, hnm, hn, hc, hcd, hsides, by rw [← hlen, hbytes], hbytes, ?_⟩
  rw [← hpath, map_snd_zip hsibs.le, hlayout.sizeWitness]

theorem verifySegment_sound
    (hcommit : commitmentStrings sha256 G (rootOfData sha256 G d) d.length ⊆ S)
    (hcall : verifySegmentStrings sha256 G' n c j bytes proof ⊆ S)
    (hok : verifySegment sha256 G' (dataCommitment sha256 G (rootOfData sha256 G d) d.length) n c j
      bytes proof = .ok ()) :
    SameLayout G' G ∧ n = d.length ∧ c < divCeil d.length G.chunkSize ∧ j < G.segmentsPerChunk ∧
      bytes = segmentAt G (chunkAt G d c) j ∧
      proof = bytesOf ((segmentPath sha256 G (chunkAt G d c) j).map Prod.snd
        ++ ((chunkPath sha256 G d c).map Prod.snd ++ [sizeWitness sha256 G d.length])) := by
  obtain ⟨hn, hc, hj, hlen, inner, sibs, hinner, hsibs, rfl, -, hT⟩ :=
    verifySegment_eq_ok_iff.mp hok
  have hcount := Geometry.divCeil_le_maxDataTxChunks hn.2
  have hmaxc := G'.maxChunks_lt
  have hbound := G'.maxDataSize_lt
  have hbound' := G.maxDataSize_lt
  rw [← append_assoc] at hcall
  simp only [verifySegmentStrings, proofSiblings_bytesOf, append_subset,
    take_left' hinner, drop_left' hinner] at hcall
  obtain ⟨⟨hsegS, hclimbS⟩, hcommitS⟩ := hcall
  obtain ⟨hroot, rfl, hcs, hspc⟩ := commitment_binds h (by omega) (by omega) hcommitS hcommit hT
  have hlayout : SameLayout G' G := ⟨hcs, hspc⟩
  obtain ⟨hcd, hR, hpath⟩ := climb_binds h hd hmax (by omega) htree hclimbS hroot
  rw [hspc] at hj
  rw [hlayout.height] at hinner
  rw [hcs] at hsibs hpath
  simp only [climbedChunkRoot, hlayout.height] at hR
  simp only [segmentClimbStrings, hlayout.height] at hsegS
  obtain ⟨hbytes, rfl⟩ := segment_binds h hj hinner
    (List.Subset.trans (chunkStrings_subset_treeStrings hcd) htree) hsegS hR
  refine ⟨hlayout, rfl, hcd, hj, hbytes, ?_⟩
  rw [← hpath, map_snd_zip hsibs.le, hlayout.sizeWitness]

end

/-- **Soundness and non-malleability.**  Let `T` be the commitment of the tree built from `d`
under `G`, and let SHA-256 not collide on the strings hashed to build the tree and to check the
candidate.  A candidate that passes has the layout of `G` and the size of `d`, its bytes are the
chunk (segment) of `d` at its index, and its proof is the one the tree returns. -/
theorem accepted_proofs_are_honest (sha256 : Bytes → Digest) (G : Geometry) (d : Bytes)
    (hd : 1 ≤ d.length) (hmax : d.length ≤ G.maxDataSize) (t : DataTree) (T : Digest)
    (ht : DataTree.fromBytes sha256 G d = .ok t)
    (hT : t.dataCommitment sha256 = (.ok T : Res VerifyError Digest))
    (G' : Geometry) (n c : ℕ) (bytes proof : Bytes) :
    (HashInjOn sha256 (treeStrings sha256 G d
        ++ commitmentStrings sha256 G (rootOfData sha256 G d) d.length
        ++ verifyChunkStrings sha256 G' n c bytes proof) →
      verifyChunk sha256 G' T n c bytes proof = .ok () →
      G'.chunkSize = G.chunkSize ∧ G'.segmentsPerChunk = G.segmentsPerChunk ∧ n = d.length ∧
        c < divCeil d.length G.chunkSize ∧ bytes = chunkAt G d c ∧
        t.chunkProof sha256 c = .ok proof) ∧
    ∀ j, HashInjOn sha256 (treeStrings sha256 G d
        ++ commitmentStrings sha256 G (rootOfData sha256 G d) d.length
        ++ verifySegmentStrings sha256 G' n c j bytes proof) →
      verifySegment sha256 G' T n c j bytes proof = .ok () →
      G'.chunkSize = G.chunkSize ∧ G'.segmentsPerChunk = G.segmentsPerChunk ∧ n = d.length ∧
        c < divCeil d.length G.chunkSize ∧ j < G.segmentsPerChunk ∧
        bytes = segmentAt G (chunkAt G d c) j ∧
        t.segmentProof sha256 c j (chunkAt G d c) = .ok proof := by
  have hne : d ≠ [] := length_pos_iff.mp hd
  obtain rfl : treeOf sha256 G d = t :=
    Except.ok.inj ((DataTree.fromBytes_eq sha256 hne hmax).symm.trans ht)
  obtain rfl : dataCommitment sha256 G (rootOfData sha256 G d) d.length = T :=
    Except.ok.inj ((DataTree.dataCommitment_treeOf sha256 hne).symm.trans hT)
  constructor
  · intro hinj hok
    obtain ⟨hlayout, rfl, -, -, hc, -, -, hbytes, rfl⟩ := verifyChunk_binds hinj hne hmax
      subset_appends.1 (hmax.trans_lt G.maxDataSize_lt) subset_appends.2.1 subset_appends.2.2 hok
    exact ⟨hlayout.chunkSize, hlayout.segmentsPerChunk, rfl, hc, hbytes,
      DataTree.chunkProof_treeOf sha256 hmax hc⟩
  · intro j hinj hok
    obtain ⟨hlayout, hn, hc, hj, hbytes, rfl⟩ := verifySegment_sound hinj hne hmax
      subset_appends.1 subset_appends.2.1 subset_appends.2.2 hok
    exact ⟨hlayout.chunkSize, hlayout.segmentsPerChunk, hn, hc, hj, hbytes,
      DataTree.segmentProof_treeOf sha256 hne hmax hc hj⟩

/-- The three bytes `1, 2, 3` in two chunks: the short chunk, and its segment past the data. -/
theorem accepted_proofs_are_honest_three_bytes :
    let G := Geometry.small
    let t := treeOf Sha256.hash G [1, 2, 3]
    let T := dataCommitment Sha256.hash G (rootOfData Sha256.hash G [1, 2, 3]) 3
    let p := bytesOf ((chunkPath Sha256.hash G [1, 2, 3] 1).map Prod.snd
      ++ [sizeWitness Sha256.hash G 3])
    let q := bytesOf ((segmentPath Sha256.hash G [3] 1).map Prod.snd
      ++ ((chunkPath Sha256.hash G [1, 2, 3] 1).map Prod.snd ++ [sizeWitness Sha256.hash G 3]))
    (verifyChunk Sha256.hash G T 3 1 [3] p = .ok () ∧ t.chunkProof Sha256.hash 1 = .ok p) ∧
      verifySegment Sha256.hash G T 3 1 1 [] q = .ok () ∧
        t.segmentProof Sha256.hash 1 1 [3] = .ok q := by
  intro G t T p q
  have hp : verifyChunk Sha256.hash G T 3 1 [3] p = .ok () :=
    verifyChunk_honest Sha256.hash (G := Geometry.small) (d := [1, 2, 3]) (c := 1)
      (by decide) (by decide) (by decide)
  have hq : verifySegment Sha256.hash G T 3 1 1 [] q = .ok () :=
    verifySegment_honest Sha256.hash (G := Geometry.small) (d := [1, 2, 3]) (c := 1) (j := 1)
      (by decide) (by decide) (by decide) (by decide)
  have hmain := accepted_proofs_are_honest Sha256.hash G [1, 2, 3] (by decide) (by decide) t T
    (DataTree.fromBytes_eq Sha256.hash (by decide) (by decide))
    (DataTree.dataCommitment_treeOf Sha256.hash (by decide)) G 3 1
  have hinj : HashInjOn Sha256.hash ((treeStrings Sha256.hash G [1, 2, 3]
      ++ commitmentStrings Sha256.hash G (rootOfData Sha256.hash G [1, 2, 3]) 3)
      ++ (verifyChunkStrings Sha256.hash G 3 1 [3] p
        ++ verifySegmentStrings Sha256.hash G 3 1 1 [] q)) := by
    decide +kernel
  obtain ⟨-, -, -, -, -, hproof⟩ := (hmain [3] p).1
    (hinj.mono fun x hx => mem_append.mpr
      ((mem_append.mp hx).imp_right (mem_append_left _))) hp
  obtain ⟨-, -, -, -, -, -, hproof'⟩ := (hmain [] q).2 1
    (hinj.mono fun x hx => mem_append.mpr
      ((mem_append.mp hx).imp_right (mem_append_right _))) hq
  exact ⟨⟨hp, hproof⟩, hq, hproof'⟩

end Irys.Tree
