import Irys.DataTree.Verify

/-!
# Completeness: honest proofs are accepted

Whatever way the data reaches the builder, the finished tree is `treeOf G d`, and the proofs
it returns pass the checks against its commitment.  Nothing is assumed of the hash.

* `verifyChunk_honest`, `verifySegment_honest` — the proofs of `treeOf G d` pass;
* `built_eq` — every one of them ends in `treeOf G d`.
-/

namespace Irys.Tree

open List

open Irys Irys.Merkle

variable (sha256 : Bytes → Digest) {G : Geometry} {d : Bytes} {c j : ℕ}

/-! ### The honest climb -/

theorem chunkPath_sides (hc : c < divCeil d.length G.chunkSize) :
    (chunkPath sha256 G d c).map Prod.fst = levelSteps c (divCeil d.length G.chunkSize - 1) := by
  rw [chunkPath, siblingsOf_sides (node sha256) c _ (by rwa [chunkLeaves_length]),
    chunkLeaves_length]

theorem segmentPath_sides (bytes : Bytes) (hj : j < G.segmentsPerChunk) :
    (segmentPath sha256 G bytes j).map Prod.fst = levelSteps j (2 ^ G.height - 1) := by
  rw [segmentPath, siblingsOf_sides (node sha256) j _ (by rwa [segmentLeaves_length]),
    segmentLeaves_length, G.segmentsPerChunk_eq]

theorem climbedRoot_honest (hc : c < divCeil d.length G.chunkSize) :
    climbedRoot sha256 c (divCeil d.length G.chunkSize) (chunkRootAt sha256 G d c)
      ((chunkPath sha256 G d c).map Prod.snd) = rootOfData sha256 G d := by
  rw [climbedRoot, ← chunkPath_sides sha256 hc, zip_fst_snd, chunkPath,
    foldPath_siblingsOf (node sha256) _ c _ (chunkLeaves_getElem? sha256 hc), rootOfData]

theorem climbedChunkRoot_honest (bytes : Bytes) (hj : j < G.segmentsPerChunk) :
    climbedChunkRoot sha256 G j (segmentAt G bytes j) ((segmentPath sha256 G bytes j).map Prod.snd)
      = rootOf (node sha256) (segmentLeaves sha256 G bytes) := by
  rw [climbedChunkRoot, ← segmentPath_sides sha256 bytes hj, zip_fst_snd, segmentPath,
    foldPath_siblingsOf (node sha256) _ j _ (segmentLeaves_getElem? sha256 hj)]

theorem segmentPath_pinned (bytes : Bytes) (hj : j < G.segmentsPerChunk) :
    PinnedFrom sha256 (divCeil bytes.length G.segmentSize) 0 j
      ((segmentPath sha256 G bytes j).map Prod.snd) := by
  have hj' : j < 2 ^ G.height := by rwa [← G.segmentsPerChunk_eq]
  intro m x hx hpast
  rw [segmentPath, siblingsOf_perfect (node sha256) G.height j _
    (by rw [segmentLeaves_length, G.segmentsPerChunk_eq]) hj'] at hx
  obtain ⟨hm, rfl⟩ := List.getElem?_eq_some_iff.mp hx
  rw [length_map, length_range] at hm
  rw [Nat.zero_add, divCeil_le_iff G.segmentSize_pos] at hpast
  have hblock := sibling_block_le (h := G.height) (ℓ := m) (i := j / 2 ^ m) hm (by
    rw [Nat.div_lt_iff_lt_mul (Nat.two_pow_pos m), ← pow_add, Nat.sub_add_cancel hm.le]
    exact hj')
  rw [← G.segmentsPerChunk_eq] at hblock
  rw [getElem_map, getElem_range, blockRoot,
    segmentLeaves_block_past sha256 hpast hblock, ← emptyRoot_eq, Nat.zero_add]

/-! ### Honest proofs pass -/

section

variable (hd : d ≠ []) (hmax : d.length ≤ G.maxDataSize) (hc : c < divCeil d.length G.chunkSize)
include hd hmax hc

/-- **The chunk proof of the tree of `d` passes.** -/
theorem verifyChunk_honest :
    verifyChunk sha256 G (dataCommitment sha256 G (rootOfData sha256 G d) d.length) d.length c
      (chunkAt G d c)
      (bytesOf ((chunkPath sha256 G d c).map Prod.snd ++ [sizeWitness sha256 G d.length]))
        = .ok () := by
  refine verifyChunk_eq_ok_iff.mpr ⟨⟨length_pos_iff.mpr hd, hmax⟩, hc, chunkAt_length G d c,
    _, ?_, rfl, ?_⟩
  · rw [← chunkPath_sides sha256 hc, length_map, length_map]
  · exact congrArg (fun r => dataCommitment sha256 G r d.length) (climbedRoot_honest sha256 hc)

/-- **The segment proof of the tree of `d` passes**, also for a segment past the data. -/
theorem verifySegment_honest (hj : j < G.segmentsPerChunk) :
    verifySegment sha256 G (dataCommitment sha256 G (rootOfData sha256 G d) d.length) d.length c j
      (segmentAt G (chunkAt G d c) j)
      (bytesOf ((segmentPath sha256 G (chunkAt G d c) j).map Prod.snd
        ++ ((chunkPath sha256 G d c).map Prod.snd ++ [sizeWitness sha256 G d.length])))
        = .ok () := by
  have hlen := chunkAt_length G d c
  refine verifySegment_eq_ok_iff.mpr ⟨⟨length_pos_iff.mpr hd, hmax⟩, hc, hj, ?_, _, _, ?_, ?_,
    rfl, ?_, ?_⟩
  · have hoff := Geometry.segmentOffset_lt hj
    rw [segmentAt_length, hlen]
    omega
  · rw [length_map, ← length_map Prod.fst, segmentPath_sides sha256 _ hj,
      levelSteps_length_perfect _ _ (by rwa [← G.segmentsPerChunk_eq])]
  · rw [← chunkPath_sides sha256 hc, length_map, length_map]
  · rw [← hlen]
    exact segmentPath_pinned sha256 _ hj
  · rw [climbedChunkRoot_honest sha256 _ hj]
    exact congrArg (fun r => dataCommitment sha256 G r d.length) (climbedRoot_honest sha256 hc)

end

/-! ### Ways of feeding the builder -/

/-- One call that feeds the builder. -/
inductive Feed where
  | chunk (bytes : Bytes)
  | batch (bytes : Bytes)

/-- The bytes a call feeds. -/
def Feed.bytes : Feed → Bytes
  | .chunk bytes => bytes
  | .batch bytes => bytes

/-- Make the call. -/
def Feed.push (b : DataTreeBuilder) : Feed → Res BuildError DataTreeBuilder
  | .chunk bytes => b.pushChunk sha256 bytes
  | .batch bytes => (DataTreeBuilder.pushChunksParallel sha256 bytes).exec b

/-- Make the calls in order. -/
def pushAll : DataTreeBuilder → List Feed → Res BuildError DataTreeBuilder
  | b, [] => .ok b
  | b, f :: rest => do
    let b' ← f.push sha256 b
    pushAll b' rest

/-- The bytes of all calls, in order. -/
def feedBytes (feeds : List Feed) : Bytes := feeds.flatMap Feed.bytes

/-- A split of the data at chunk boundaries: no call is empty, `push_chunk` gets at most one
chunk, and only the last call may end inside a chunk. -/
structure WholeChunks (G : Geometry) (feeds : List Feed) : Prop where
  nonempty : ∀ f ∈ feeds, f.bytes ≠ []
  chunk_le : ∀ bytes, Feed.chunk bytes ∈ feeds → bytes.length ≤ G.chunkSize
  whole : ∀ f ∈ feeds.dropLast, f.bytes.length % G.chunkSize = 0

/-- The ways to build a tree from the data `d`, with what the build returns. -/
inductive Built (G : Geometry) (d : Bytes) : Res BuildError DataTree → Prop where
  | fromBytes : Built G d (DataTree.fromBytes sha256 G d)
  | fromBytesSequential : Built G d (DataTree.fromBytesSequential sha256 G d)
  | pushes (feeds : List Feed) (hsplit : WholeChunks G feeds) (hbytes : feedBytes feeds = d) :
      Built G d (pushAll sha256 (DataTreeBuilder.new G) feeds >>= fun b => b.finish sha256)

theorem WholeChunks.tail {f : Feed} {feeds : List Feed} (h : WholeChunks G (f :: feeds)) :
    WholeChunks G feeds where
  nonempty g hg := h.nonempty g (mem_cons_of_mem _ hg)
  chunk_le b hb := h.chunk_le b (mem_cons_of_mem _ hb)
  whole g hg := by
    cases feeds with
    | nil => simp at hg
    | cons a as =>
      apply h.whole g
      rw [dropLast_cons_of_ne_nil (cons_ne_nil _ _)]
      exact mem_cons_of_mem _ hg

theorem Feed.push_builderOf {b : Bytes} {f : Feed} (hb : b.length % G.chunkSize = 0)
    (hne : f.bytes ≠ []) (hle : ∀ bytes, f = .chunk bytes → bytes.length ≤ G.chunkSize)
    (hmax : b.length + f.bytes.length ≤ G.maxDataSize) :
    f.push sha256 (builderOf sha256 G b) = .ok (builderOf sha256 G (b ++ f.bytes)) := by
  cases f with
  | chunk bytes =>
    exact DataTreeBuilder.pushChunk_builderOf sha256 hb (length_pos_iff.mpr hne)
      (hle bytes rfl) hmax
  | batch bytes => exact DataTree.pushChunksParallel_builderOf sha256 hb hne hmax

/-- **A run of calls** split at chunk boundaries feeds all their bytes. -/
theorem pushAll_builderOf {b : Bytes} {feeds : List Feed} (hsplit : WholeChunks G feeds)
    (hb : feeds ≠ [] → b.length % G.chunkSize = 0)
    (hmax : b.length + (feedBytes feeds).length ≤ G.maxDataSize) :
    pushAll sha256 (builderOf sha256 G b) feeds = .ok (builderOf sha256 G (b ++ feedBytes feeds)) := by
  induction feeds generalizing b with
  | nil => simp [pushAll, feedBytes]
  | cons f feeds ih =>
    have hcons : feedBytes (f :: feeds) = f.bytes ++ feedBytes feeds := rfl
    rw [hcons, length_append] at hmax
    rw [pushAll, Feed.push_builderOf sha256 (hb (cons_ne_nil _ _))
        (hsplit.nonempty f mem_cons_self)
        (fun bytes hf => hsplit.chunk_le bytes (hf ▸ mem_cons_self)) (by omega), ok_bind,
      ih hsplit.tail ?_ (by rw [length_append]; omega), hcons, append_assoc]
    -- a call that is not the last one ends at a chunk boundary
    intro hne
    have hwhole := hsplit.whole f (by
      rw [dropLast_cons_of_ne_nil hne]
      exact mem_cons_self)
    rw [length_append, Nat.add_mod, hb (cons_ne_nil _ _), hwhole]
    exact Nat.zero_mod _

/-- **Every way of feeding ends in the same tree.** -/
theorem built_eq {tree : Res BuildError DataTree} (hd : d ≠ []) (hmax : d.length ≤ G.maxDataSize)
    (h : Built sha256 G d tree) : tree = .ok (treeOf sha256 G d) := by
  cases h with
  | fromBytes => exact DataTree.fromBytes_eq sha256 hd hmax
  | fromBytesSequential => exact DataTree.fromBytesSequential_eq sha256 hd hmax
  | pushes feeds hsplit hbytes =>
    have hpush := pushAll_builderOf sha256 (b := []) hsplit (fun _ => Nat.zero_mod _)
      (by rw [hbytes]; simpa using hmax)
    rw [DataTreeBuilder.builderOf_nil, nil_append, hbytes] at hpush
    rw [hpush, ok_bind, DataTreeBuilder.finish_builderOf sha256 hd]

/-- **Completeness.**  However the data is fed, the build succeeds, and every chunk proof and
every segment proof of the finished tree passes the check against the tree's commitment. -/
theorem built_proofs_verify (sha256 : Bytes → Digest) (G : Geometry) (d : Bytes)
    (hd : 1 ≤ d.length) (hmax : d.length ≤ G.maxDataSize) (tree : Res BuildError DataTree)
    (hbuilt : Built sha256 G d tree) :
    ∃ t T, tree = .ok t ∧ t.dataCommitment sha256 = (.ok T : Res VerifyError Digest) ∧
      ∀ c < divCeil d.length G.chunkSize,
        (∃ p, t.chunkProof sha256 c = .ok p ∧
          verifyChunk sha256 G T d.length c (chunkAt G d c) p = .ok ()) ∧
        ∀ j < G.segmentsPerChunk,
          ∃ p, t.segmentProof sha256 c j (chunkAt G d c) = .ok p ∧
            verifySegment sha256 G T d.length c j (segmentAt G (chunkAt G d c) j) p = .ok () := by
  have hne : d ≠ [] := length_pos_iff.mp hd
  refine ⟨treeOf sha256 G d, _, built_eq sha256 hne hmax hbuilt,
    DataTree.dataCommitment_treeOf sha256 hne, fun c hc => ⟨?_, fun j hj => ?_⟩⟩
  · exact ⟨_, DataTree.chunkProof_treeOf sha256 hmax hc, verifyChunk_honest sha256 hne hmax hc⟩
  · exact ⟨_, DataTree.segmentProof_treeOf sha256 hne hmax hc hj,
      verifySegment_honest sha256 hne hmax hc hj⟩

/-- Two-byte chunks of two segments, for concrete inputs. -/
def Geometry.small : Geometry where
  chunkSize := 2
  segmentsPerChunk := 2
  maxDataTxChunks := 8
  segments_le := by decide
  segments_pow := by decide +kernel
  chunkSize_ne := by decide
  segments_dvd := by decide
  maxChunks_ne := by decide
  maxChunks_lt := by decide
  maxData_lt := by decide

theorem built_proofs_verify_three_bytes :
    ∃ t T, (pushAll Sha256.hash (DataTreeBuilder.new Geometry.small) [.batch [1, 2], .chunk [3]]
        >>= fun b => b.finish Sha256.hash) = .ok t ∧
      t.dataCommitment Sha256.hash = (.ok T : Res VerifyError Digest) ∧
      ∀ c < 2,
        (∃ p, t.chunkProof Sha256.hash c = .ok p ∧
          verifyChunk Sha256.hash Geometry.small T 3 c (chunkAt Geometry.small [1, 2, 3] c) p
            = .ok ()) ∧
        ∀ j < 2,
          ∃ p, t.segmentProof Sha256.hash c j (chunkAt Geometry.small [1, 2, 3] c) = .ok p ∧
            verifySegment Sha256.hash Geometry.small T 3 c j
              (segmentAt Geometry.small (chunkAt Geometry.small [1, 2, 3] c) j) p = .ok () :=
  built_proofs_verify Sha256.hash Geometry.small [1, 2, 3] (by decide) (by decide) _
    (.pushes [.batch [1, 2], .chunk [3]]
      ⟨by simp [Feed.bytes], by simp [Geometry.small], by simp [Feed.bytes, Geometry.small]⟩ rfl)

end Irys.Tree
