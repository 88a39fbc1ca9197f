import Irys.DataTree.Alias

/-!
# Size proofs bind the size of any root

A proof of the rightmost chunk, or of the rightmost data segment of the rightmost chunk, at the
indexes computed from the claimed size, fixes that size: two such proofs against one root `T`
are for one size.  `T` need not be the root of anything.

* `LastSegment` — both kinds open a chunk root at its rightmost data segment, with every
  sibling past it empty;
* `lastSegment_len_eq` — such an opening fixes the chunk length.
-/

namespace Irys.Tree

open List

open Irys Irys.Merkle

variable (sha256 : Bytes → Digest)

/-- The rightmost chunk index of an upload of `n` bytes. -/
def lastChunk (G : Geometry) (n : ℕ) : ℕ := divCeil n G.chunkSize - 1

/-- `chunk_len` of the rightmost chunk. -/
def lastChunkLen (G : Geometry) (n : ℕ) : ℕ := min (n - lastChunk G n * G.chunkSize) G.chunkSize

/-- Data segments of the rightmost chunk. -/
def lastDataSegments (G : Geometry) (n : ℕ) : ℕ := divCeil (lastChunkLen G n) G.segmentSize

/-- A size proof: bytes and a proof for the rightmost chunk, or for the rightmost data segment. -/
inductive SizeProof where
  | chunk (bytes proof : Bytes)
  | segment (bytes proof : Bytes)

/-- The proof passes for size `n` against `node(T, size_witness(G, n))`. -/
def SizeProof.Accepted (G : Geometry) (T : Digest) (n : ℕ) : SizeProof → Prop
  | .chunk bytes proof =>
    verifyChunk sha256 G (dataCommitment sha256 G T n) n (lastChunk G n) bytes proof = .ok ()
  | .segment bytes proof =>
    verifySegment sha256 G (dataCommitment sha256 G T n) n (lastChunk G n)
      (lastDataSegments G n - 1) bytes proof = .ok ()

/-- Hashed to derive the commitment for size `n` and to check the proof. -/
def SizeProof.strings (G : Geometry) (T : Digest) (n : ℕ) : SizeProof → List Bytes
  | .chunk bytes proof =>
    commitmentStrings sha256 G T n
      ++ verifyChunkStrings sha256 G n (lastChunk G n) bytes proof
  | .segment bytes proof =>
    commitmentStrings sha256 G T n
      ++ verifySegmentStrings sha256 G n (lastChunk G n) (lastDataSegments G n - 1) bytes proof

/-- Hashed to fill the table of empty subtrees, as far as the height of a chunk. -/
def emptyStrings (G : Geometry) : List Bytes :=
  leafInput [] :: (List.range G.height).map fun k =>
    nodeInput (emptyRoot sha256 k) (emptyRoot sha256 k)

variable {sha256} {S : List Bytes} {G : Geometry}

/-! ### Climbs into an empty subtree -/

theorem emptyRoot_binds (h : HashInjOn sha256 S) (hempty : emptyStrings sha256 G ⊆ S) {k : ℕ}
    (hk : k ≤ G.height) {bytes : Bytes} {path : List (Side × Digest)}
    (hbytes : leafInput bytes ∈ S)
    (hpath : ∀ p ∈ pathPairs (node sha256) (leaf sha256 bytes) path, p ∈ hashedPairs S)
    (heq : foldPath (node sha256) (leaf sha256 bytes) path = emptyRoot sha256 k) : bytes = [] := by
  rw [emptyStrings, cons_subset] at hempty
  have hapart := nodeApart_hashedPairs h
  induction k generalizing path with
  | zero =>
    obtain rfl := path_eq_nil hapart hpath (heq ▸ leafOf_leaf hempty.1)
    exact leafInput_inj (h _ hbytes _ hempty.1 heq)
  | succ k ih =>
    have hnode : (emptyRoot sha256 k, emptyRoot sha256 k) ∈ hashedPairs S :=
      hempty.2 (List.mem_map.mpr ⟨k, mem_range.mpr (by omega), rfl⟩)
    rcases eq_nil_or_concat' path with rfl | ⟨p, s, rfl⟩
    · exact absurd heq.symm (hapart _ hnode _ (leafOf_leaf hbytes))
    · rw [foldPath_snoc] at heq
      rw [pathPairs_snoc] at hpath
      have hpair := nodeInjOn_hashedPairs h _ (hpath _ (by simp)) _ hnode heq
      -- both children are the empty subtree one level down
      have hinit : ∀ q ∈ pathPairs (node sha256) (leaf sha256 bytes) p, q ∈ hashedPairs S :=
        fun q hq => hpath q (by simp [hq])
      refine ih (by omega) hinit ?_
      obtain ⟨side, s⟩ := s
      cases side <;> simp only [stepPair, Prod.mk.injEq] at hpair <;> tauto

/-! ### Opening a chunk root at its rightmost data segment -/

/-- An opening of the chunk root `R` at the rightmost data segment of a chunk of `len` bytes. -/
structure LastSegment (sha256 : Bytes → Digest) (S : List Bytes) (G : Geometry) (R : Digest)
    (len : ℕ) where
  bytes : Bytes
  inner : List Digest
  bytes_length : bytes.length = len - (divCeil len G.segmentSize - 1) * G.segmentSize
  inner_length : inner.length = G.height
  pinned : PinnedFrom sha256 (divCeil len G.segmentSize) 0 (divCeil len G.segmentSize - 1) inner
  opens : climbedChunkRoot sha256 G (divCeil len G.segmentSize - 1) bytes inner = R
  hashed : segmentClimbStrings sha256 G (divCeil len G.segmentSize - 1) bytes inner ⊆ S

theorem lastSegment_lt {len : ℕ} (hpos : 0 < len) (hle : len ≤ G.chunkSize) :
    divCeil len G.segmentSize - 1 < G.segmentsPerChunk := by
  have hcount : divCeil len G.segmentSize ≤ G.segmentsPerChunk := by
    rw [divCeil_le_iff G.segmentSize_pos, Nat.mul_comm, G.segmentSize_mul]
    exact hle
  have := divCeil_pos G.segmentSize_pos hpos
  omega

/-- A chunk opens its own root at its rightmost data segment. -/
def LastSegment.ofChunk {bytes : Bytes} (hpos : 0 < bytes.length) (hle : bytes.length ≤ G.chunkSize)
    (hS : chunkStrings sha256 G bytes ⊆ S) :
    LastSegment sha256 S G (rootOf (node sha256) (segmentLeaves sha256 G bytes)) bytes.length where
  bytes := segmentAt G bytes (divCeil bytes.length G.segmentSize - 1)
  inner := (segmentPath sha256 G bytes (divCeil bytes.length G.segmentSize - 1)).map Prod.snd
  bytes_length := by
    have := divCeil_bounds G.segmentSize_pos hpos
    rw [segmentAt_length]
    omega
  inner_length := by
    have hj := lastSegment_lt hpos hle
    rw [length_map, ← length_map Prod.fst, segmentPath_sides sha256 _ hj,
      levelSteps_length_perfect _ _ (by rwa [← G.segmentsPerChunk_eq])]
  pinned := segmentPath_pinned sha256 bytes (lastSegment_lt hpos hle)
  opens := climbedChunkRoot_honest sha256 bytes (lastSegment_lt hpos hle)
  hashed := by
    have hj := lastSegment_lt hpos hle
    rw [segmentClimbStrings, ← segmentPath_sides sha256 bytes hj, zip_fst_snd, cons_subset]
    refine ⟨hS (leafInput_mem_chunkStrings hj), List.Subset.trans ?_
      (List.Subset.trans (subset_append_right _ _) hS)⟩
    exact map_subset _ (pathPairs_siblingsOf_subset (node sha256) _ _ _
      (segmentLeaves_getElem? sha256 hj))

/-- An opening at a lower segment than another: its pinned sibling would hold the other's data. -/
theorem lastSegment_not_lt (h : HashInjOn sha256 S) (hempty : emptyStrings sha256 G ⊆ S)
    {R : Digest} {len len' : ℕ} (o : LastSegment sha256 S G R len)
    (o' : LastSegment sha256 S G R len') (hpos : 0 < len) (hpos' : 0 < len')
    (hle' : len' ≤ G.chunkSize) :
    ¬ divCeil len G.segmentSize < divCeil len' G.segmentSize := by
  intro hlt
  have hone := divCeil_pos G.segmentSize_pos hpos
  have hj' := lastSegment_lt hpos' hle'
  rw [G.segmentsPerChunk_eq] at hj'
  obtain ⟨A, A', B, hA, hA', hlen, hAe, heven, hnext⟩ := levelSteps_diverge
    (show divCeil len G.segmentSize - 1 < divCeil len' G.segmentSize - 1 by omega) hj'
  set j := divCeil len G.segmentSize - 1 with hj
  have hsteps : (A ++ Side.right :: B).length = G.height := by
    rw [← hA, levelSteps_length_perfect _ _ (by omega)]
  have hsteps' : (A' ++ Side.left :: B).length = G.height := by
    rw [← hA', levelSteps_length_perfect _ _ hj']
  -- cut both sibling lists at the step where the two paths part
  have hcut : ∀ inner : List Digest, inner.length = G.height →
      ∃ X x Y, inner = X ++ x :: Y ∧ X.length = A.length ∧ inner[A.length]? = some x := by
    intro inner hinner
    have hin : A.length < inner.length := by omega
    exact ⟨inner.take A.length, inner[A.length], inner.drop (A.length + 1),
      by rw [← drop_eq_getElem_cons hin, take_append_drop],
      by rw [length_take]; omega, getElem?_eq_getElem hin⟩
  obtain ⟨X, x, Y, hX, hXlen, hx⟩ := hcut o.inner o.inner_length
  obtain ⟨X', x', Y', hX', hXlen', -⟩ := hcut o'.inner o'.inner_length
  have hzip : (levelSteps j (2 ^ G.height - 1)).zip o.inner
      = A.zip X ++ (Side.right, x) :: B.zip Y := by
    rw [hA, hX, zip_append hXlen.symm, zip_cons_cons]
  have hzip' : (levelSteps (divCeil len' G.segmentSize - 1) (2 ^ G.height - 1)).zip o'.inner
      = A'.zip X' ++ (Side.left, x') :: B.zip Y' := by
    rw [hA', hX', zip_append (by omega), zip_cons_cons]
  have hopens := o.opens.trans o'.opens.symm
  have hhashed := o.hashed
  have hhashed' := o'.hashed
  rw [climbedChunkRoot, climbedChunkRoot, hzip, hzip'] at hopens
  rw [segmentClimbStrings, hzip, cons_subset] at hhashed
  rw [segmentClimbStrings, hzip', cons_subset] at hhashed'
  have hBY : B.length = Y.length := by
    have := o.inner_length
    rw [hX] at this
    simp only [length_append, length_cons] at this hsteps
    omega
  have hBY' : B.length = Y'.length := by
    have := o'.inner_length
    rw [hX'] at this
    simp only [length_append, length_cons] at this hsteps'
    omega
  have hpairs' := mem_hashedPairs hhashed'.2
  obtain ⟨hsib, -⟩ := foldPath_diverge (nodeInjOn_hashedPairs h) _ _ _ _ _ _ _ _
    (by rw [map_fst_zip hBY.le, map_fst_zip hBY'.le]) (mem_hashedPairs hhashed.2) hpairs'
    hopens
  -- the sibling starts past the data of the lower claim, so it is pinned
  have hstart : divCeil len G.segmentSize ≤ ((j / 2 ^ A.length) ^^^ 1) * 2 ^ (0 + A.length) := by
    have hbound : j < (j / 2 ^ A.length + 1) * 2 ^ A.length :=
      (Nat.div_lt_iff_lt_mul (Nat.two_pow_pos _)).mp (Nat.lt_succ_self _)
    rw [xor_one_eq, if_neg (by omega), Nat.zero_add]
    omega
  have hpinned := o.pinned A.length x hx hstart
  rw [hpinned, Nat.zero_add] at hsib
  rw [pathPairs_append] at hpairs'
  have hbytes := emptyRoot_binds h hempty hAe.le hhashed'.1
    (fun p hp => hpairs' p (mem_append_left _ hp)) hsib.symm
  -- but the rightmost data segment of the other claim holds a byte
  have hdata := divCeil_bounds G.segmentSize_pos hpos'
  have := o'.bytes_length
  rw [hbytes, length_nil] at this
  omega

/-- **The opening fixes the length.** -/
theorem lastSegment_len_eq (h : HashInjOn sha256 S) (hempty : emptyStrings sha256 G ⊆ S)
    {R : Digest} {len len' : ℕ} (o : LastSegment sha256 S G R len)
    (o' : LastSegment sha256 S G R len') (hpos : 0 < len) (hpos' : 0 < len')
    (hle : len ≤ G.chunkSize) (hle' : len' ≤ G.chunkSize) : len = len' := by
  have hcount : divCeil len G.segmentSize = divCeil len' G.segmentSize := by
    have h1 := lastSegment_not_lt h hempty o o' hpos hpos' hle'
    have h2 := lastSegment_not_lt h hempty o' o hpos' hpos hle
    omega
  have hj := lastSegment_lt hpos hle
  rw [G.segmentsPerChunk_eq] at hj
  have hopens := o.opens.trans o'.opens.symm
  have hhashed := o.hashed
  have hhashed' := o'.hashed
  rw [segmentClimbStrings, cons_subset] at hhashed hhashed'
  rw [← hcount] at hhashed' hopens
  have hsteps := levelSteps_length_perfect G.height _ hj
  obtain ⟨hleaf, -⟩ := foldPath_inj (nodeInjOn_hashedPairs h) _ _ _ _
    (by rw [map_fst_zip (by rw [hsteps, o.inner_length]),
      map_fst_zip (by rw [hsteps, o'.inner_length])])
    (mem_hashedPairs hhashed.2) (mem_hashedPairs hhashed'.2) hopens
  have hbytes := leafInput_inj (h _ hhashed.1 _ hhashed'.1 hleaf)
  have hl := o.bytes_length
  have hl' := o'.bytes_length
  have hdata := divCeil_bounds G.segmentSize_pos hpos
  have hdata' := divCeil_bounds G.segmentSize_pos hpos'
  rw [hbytes, hl', ← hcount] at hl
  rw [← hcount] at hdata'
  omega

/-! ### Two size proofs against one root -/

theorem SizeProof.Accepted.opens (h : HashInjOn sha256 S) {T : Digest} {n : ℕ} {P : SizeProof}
    (hP : P.Accepted sha256 G T n) (hS : P.strings sha256 G T n ⊆ S) :
    (0 < n ∧ n ≤ G.maxDataSize) ∧ ∃ (R : Digest) (sibs : List Digest),
      climbStrings sha256 (lastChunk G n) (divCeil n G.chunkSize) R sibs ⊆ S ∧
        sibs.length = (levelSteps (lastChunk G n) (lastChunk G n)).length ∧
        climbedRoot sha256 (lastChunk G n) (divCeil n G.chunkSize) R sibs = T ∧
        Nonempty (LastSegment sha256 S G R (lastChunkLen G n)) := by
  have hbound := G.maxDataSize_lt
  cases P with
  | chunk bytes proof =>
    obtain ⟨hn, hc, hlen, sibs, hsibs, rfl, hT⟩ := verifyChunk_eq_ok_iff.mp hP
    have hstart := Geometry.chunkStart_lt hc
    have hcs := G.chunkSize_pos
    simp only [SizeProof.strings, verifyChunkStrings, proofSiblings_bytesOf, append_subset] at hS
    obtain ⟨hcommit, ⟨hchunk, hclimb⟩, hcommit'⟩ := hS
    obtain ⟨hroot, -⟩ := commitment_binds h (by omega) (by omega) hcommit' hcommit hT
    refine ⟨hn, _, sibs, hclimb, hsibs, hroot, ⟨?_⟩⟩
    rw [show lastChunkLen G n = bytes.length from hlen.symm]
    exact LastSegment.ofChunk (by omega) (by omega) hchunk
  | segment bytes proof =>
    obtain ⟨hn, hc, hj, hlen, inner, sibs, hinner, hsibs, rfl, hpin, hT⟩ :=
      verifySegment_eq_ok_iff.mp hP
    have hstart := Geometry.chunkStart_lt hc
    have hcs := G.chunkSize_pos
    rw [← append_assoc] at hS
    simp only [SizeProof.strings, verifySegmentStrings, proofSiblings_bytesOf,
      append_subset, take_left' hinner, drop_left' hinner] at hS
    obtain ⟨hcommit, ⟨hseg, hclimb⟩, hcommit'⟩ := hS
    obtain ⟨hroot, -⟩ := commitment_binds h (by omega) (by omega) hcommit' hcommit hT
    refine ⟨hn, _, sibs, hclimb, hsibs, hroot, ⟨⟨bytes, inner, ?_, hinner, hpin, rfl, hseg⟩⟩⟩
    -- the rightmost data segment holds the rest of the chunk
    have hpos : 0 < lastChunkLen G n := by
      rw [lastChunkLen]
      omega
    have hoff := Geometry.segmentOffset_lt hj
    have hdata := divCeil_bounds G.segmentSize_pos hpos
    have hwhole := divCeil_bounds G.chunkSize_pos hn.1
    have hdef : lastChunkLen G n = min (n - lastChunk G n * G.chunkSize) G.chunkSize := rfl
    rw [← lastDataSegments] at hdata
    rw [← lastChunk] at hwhole
    rw [hlen, ← lastDataSegments]
    omega

/-- **Size proofs bind.**  For any 32-byte `T`, two size proofs against `T`, of either kind, are
for one size, unless SHA-256 collides on the strings the two checks hash. -/
theorem size_proofs_agree (sha256 : Bytes → Digest) (G : Geometry) (T : Digest) (n n' : ℕ)
    (P P' : SizeProof)
    (hinj : HashInjOn sha256 (emptyStrings sha256 G ++ P.strings sha256 G T n
      ++ P'.strings sha256 G T n'))
    (hP : P.Accepted sha256 G T n) (hP' : P'.Accepted sha256 G T n') : n = n' := by
  obtain ⟨hn, R, sibs, hclimb, hsibs, hroot, ⟨o⟩⟩ := hP.opens hinj subset_appends.2.1
  obtain ⟨hn', R', sibs', hclimb', hsibs', hroot', ⟨o'⟩⟩ := hP'.opens hinj subset_appends.2.2
  have hlt : ∀ {k : ℕ}, 0 < k ∧ k ≤ G.maxDataSize → lastChunk G k < 2 ^ 32 := by
    intro k hk
    have := Geometry.divCeil_le_maxDataTxChunks hk.2
    have := G.maxChunks_lt
    rw [lastChunk]
    omega
  -- a rightmost climb has left siblings throughout
  have hleft : ∀ {k : ℕ} {l : List Digest}, ∀ s ∈ (levelSteps (lastChunk G k)
      (divCeil k G.chunkSize - 1)).zip l, s.1 = Side.left :=
    fun s hs => levelSteps_self _ _ (of_mem_zip hs).1
  rw [climbStrings, cons_subset] at hclimb hclimb'
  obtain ⟨hleaf, -⟩ := foldPath_left_inj (nodeInjOn_hashedPairs hinj) (nodeApart_hashedPairs hinj)
    _ _ _ _ (leafOf_chunkLeaf hclimb.1) (leafOf_chunkLeaf hclimb'.1) hleft hleft
    (mem_hashedPairs hclimb.2) (mem_hashedPairs hclimb'.2) (hroot.trans hroot'.symm)
  obtain ⟨hchunk, rfl⟩ := chunkLeafInput_inj (hlt hn) (hlt hn') (hinj _ hclimb.1 _ hclimb'.1 hleaf)
  have hcount : divCeil n G.chunkSize = divCeil n' G.chunkSize := by
    have := divCeil_pos G.chunkSize_pos hn.1
    have := divCeil_pos G.chunkSize_pos hn'.1
    rw [lastChunk, lastChunk] at hchunk
    omega
  have hlen : ∀ {k : ℕ}, 0 < k → 0 < lastChunkLen G k ∧ lastChunkLen G k ≤ G.chunkSize := by
    intro k hk
    have := divCeil_bounds G.chunkSize_pos hk
    have := G.chunkSize_pos
    rw [lastChunkLen, lastChunk]
    omega
  exact size_eq_of_last_chunk hn.1 hn'.1 hcount (lastSegment_len_eq hinj subset_appends.1 o o'
    (hlen hn.1).1 (hlen hn'.1).1 (hlen hn.1).2 (hlen hn'.1).2)

/-- The size proofs of the tree of `d`, by the chunk `c` and by its first segment. -/
def honestSizeProofs (d : Bytes) (c : ℕ) : SizeProof × SizeProof :=
  let path := (chunkPath Sha256.hash Geometry.small d c).map Prod.snd
    ++ [sizeWitness Sha256.hash Geometry.small d.length]
  let chunk := chunkAt Geometry.small d c
  (.chunk chunk (bytesOf path), .segment (segmentAt Geometry.small chunk 0)
    (bytesOf ((segmentPath Sha256.hash Geometry.small chunk 0).map Prod.snd ++ path)))

/-- Five bytes in three chunks: the last chunk and its one segment prove the same size. -/
theorem size_proofs_agree_three_chunks :
    let G := Geometry.small
    let T := rootOfData Sha256.hash G [1, 2, 3, 4, 5]
    let P := honestSizeProofs [1, 2, 3, 4, 5] 2
    ∃ n n', P.1.Accepted Sha256.hash G T n ∧ P.2.Accepted Sha256.hash G T n' ∧ n = n' := by
  intro G T P
  have hchunk : lastChunk G 5 = 2 := by decide
  have hsegment : lastDataSegments G 5 - 1 = 0 := by decide
  have hP : P.1.Accepted Sha256.hash G T 5 := by
    dsimp only [P, honestSizeProofs]
    rw [SizeProof.Accepted, hchunk]
    exact verifyChunk_honest Sha256.hash (by decide) (by decide) (by decide)
  have hP' : P.2.Accepted Sha256.hash G T 5 := by
    dsimp only [P, honestSizeProofs]
    rw [SizeProof.Accepted, hchunk, hsegment]
    exact verifySegment_honest Sha256.hash (by decide) (by decide) (by decide) (by decide)
  have hinj : HashInjOn Sha256.hash (emptyStrings Sha256.hash G ++ P.1.strings Sha256.hash G T 5
      ++ P.2.strings Sha256.hash G T 5).dedup := by
    apply HashInjOn.of_nodup fun d => fromBe (d.bytes.take 4)
    decide +kernel
  exact ⟨5, 5, hP, hP', size_proofs_agree Sha256.hash G T 5 5 P.1 P.2
    (hinj.mono fun _ hx => mem_dedup.mpr hx) hP hP'⟩

end Irys.Tree
