import Irys.DataTree.Soundness

/-!
# Unanchored commitments

A verifier that re-derives the commitment from a claimed size accepts an honest chunk for
every size that gives the same steps and the same chunk length, and accepts nothing else.
The step sequence of `(c, C)` is `levelSteps c (C - 1)`, the sides `climb` gives the siblings
(`climb_eq`).

* `levelSteps_last` — only the last leaf has no right sibling, so a rightmost chunk has no
  alias.
-/

namespace Irys.Tree

open List

open Irys Irys.Merkle

variable {G : Geometry}

/-- Two leaf counts give leaf `c` the same steps and `c` is the last leaf of one of them: then the
counts are equal. -/
theorem levelSteps_last {c m m' : ℕ} (hc : c < m) (hc' : c < m')
    (hsteps : levelSteps c (m - 1) = levelSteps c (m' - 1)) (hlast : c + 1 = m ∨ c + 1 = m') :
    m = m' := by
  have hno : ∀ {k k' : ℕ}, c + 1 = k → c < k' → levelSteps c (k - 1) = levelSteps c (k' - 1) →
      k = k' := by
    rintro k k' rfl hk' heq
    rw [Nat.add_sub_cancel] at heq
    by_contra hne
    have hright := right_mem_levelSteps (show c < k' - 1 by omega)
    rw [← heq] at hright
    exact absurd (levelSteps_self c _ hright) (by decide)
  rcases hlast with h | h
  · exact hno h hc' hsteps
  · exact (hno h hc hsteps.symm).symm

theorem size_eq_of_last_chunk {n n' : ℕ} (hn : 0 < n) (hn' : 0 < n')
    (hcount : divCeil n G.chunkSize = divCeil n' G.chunkSize)
    (hlen : min (n - (divCeil n G.chunkSize - 1) * G.chunkSize) G.chunkSize
      = min (n' - (divCeil n' G.chunkSize - 1) * G.chunkSize) G.chunkSize) : n = n' := by
  have hsize : ∀ {k : ℕ}, 0 < k →
      k = (divCeil k G.chunkSize - 1) * G.chunkSize
        + min (k - (divCeil k G.chunkSize - 1) * G.chunkSize) G.chunkSize := by
    intro k hk
    have := divCeil_bounds G.chunkSize_pos hk
    omega
  rw [hsize hn, hsize hn', hlen, hcount]

/-- **The exact aliasing rule.**  Let `T` be the root of the tree built from `d`.  Against the
commitment re-derived from `T` and a claimed size `n`, the candidate passes exactly when its index
is a chunk of `d`, the steps for the claimed count are those for the real count, the chunk lengths
agree, and the bytes and siblings are the honest ones.  A rightmost chunk, of the tree or of the
claim, passes for no size but the real one. -/
theorem unanchored_chunk_accepted_iff (sha256 : Bytes → Digest) (G : Geometry) (d : Bytes)
    (hd : 1 ≤ d.length) (hmax : d.length ≤ G.maxDataSize) (t : DataTree) (T : Digest)
    (ht : DataTree.fromBytes sha256 G d = .ok t) (hT : t.rootHash = (.ok T : Res VerifyError Digest))
    (n c : ℕ) (bytes siblings : Bytes)
    (hinj : HashInjOn sha256 (treeStrings sha256 G d ++ commitmentStrings sha256 G T n
      ++ verifyChunkStrings sha256 G n c bytes (siblings ++ (sizeWitness sha256 G n).bytes))) :
    (verifyChunk sha256 G (dataCommitment sha256 G T n) n c bytes
        (siblings ++ (sizeWitness sha256 G n).bytes) = .ok () ↔
      c < divCeil d.length G.chunkSize ∧
        levelSteps c (divCeil n G.chunkSize - 1)
          = levelSteps c (divCeil d.length G.chunkSize - 1) ∧
        G.chunkLen n c = G.chunkLen d.length c ∧ bytes = chunkAt G d c ∧
        siblings = bytesOf ((chunkPath sha256 G d c).map Prod.snd)) ∧
    (c + 1 = divCeil d.length G.chunkSize ∨ c + 1 = divCeil n G.chunkSize →
      verifyChunk sha256 G (dataCommitment sha256 G T n) n c bytes
        (siblings ++ (sizeWitness sha256 G n).bytes) = .ok () → n = d.length) := by
  have hne : d ≠ [] := length_pos_iff.mp hd
  obtain rfl : treeOf sha256 G d = t :=
    Except.ok.inj ((DataTree.fromBytes_eq sha256 hne hmax).symm.trans ht)
  obtain rfl : rootOfData sha256 G d = T :=
    Except.ok.inj ((DataTree.rootHash_treeOf sha256 hne).symm.trans hT)
  have hopen := fun hok => verifyChunk_binds hinj hne hmax subset_appends.1
    ((verifyChunk_eq_ok_iff.mp hok).1.2.trans_lt G.maxDataSize_lt) subset_appends.2.1
    subset_appends.2.2 hok
  refine ⟨⟨fun hok => ?_, ?_⟩, fun hlast hok => ?_⟩
  · obtain ⟨-, -, hn, hc, hcd, hsteps, hlen, hbytes, hproof⟩ := hopen hok
    refine ⟨hcd, hsteps, ?_, hbytes, ?_⟩
    · rw [DataTree.chunkLen_chunkAt hne hmax hcd]
      exact Geometry.chunkLen_eq_ok_iff.mpr ⟨hn, hc, hlen.symm⟩
    · rw [bytesOf_snoc] at hproof
      exact append_inj_left' hproof rfl
  · rintro ⟨hcd, hsteps, hlen, rfl, rfl⟩
    rw [DataTree.chunkLen_chunkAt hne hmax hcd] at hlen
    obtain ⟨hn, hc, hlen⟩ := Geometry.chunkLen_eq_ok_iff.mp hlen
    refine verifyChunk_eq_ok_iff.mpr ⟨hn, hc, hlen, (chunkPath sha256 G d c).map Prod.snd, ?_,
      (bytesOf_snoc _ _).symm, ?_⟩
    · rw [hsteps, ← chunkPath_sides sha256 hcd, length_map, length_map]
    · rw [climbedRoot, hsteps]
      exact congrArg (fun r => dataCommitment sha256 G r n) (climbedRoot_honest sha256 hcd)
  · obtain ⟨-, -, hn, hc, hcd, hsteps, hlen, -, -⟩ := hopen hok
    have hcount := levelSteps_last hc hcd hsteps hlast.symm
    obtain rfl : c = divCeil n G.chunkSize - 1 := by omega
    refine size_eq_of_last_chunk hn.1 hd hcount ?_
    rw [hlen, chunkAt_length, hcount]

/-- One-byte chunks of one segment, for concrete inputs. -/
def Geometry.bytewise : Geometry where
  chunkSize := 1
  segmentsPerChunk := 1
  maxDataTxChunks := 8
  segments_le := by decide
  segments_pow := by decide +kernel
  chunkSize_ne := by decide
  segments_dvd := by decide
  maxChunks_ne := Geometry.small.maxChunks_ne
  maxChunks_lt := Geometry.small.maxChunks_lt
  maxData_lt := by decide

theorem unanchored_chunk_accepted_iff_three_as_four :
    let G := Geometry.bytewise
    verifyChunk Sha256.hash G
      (dataCommitment Sha256.hash G (rootOfData Sha256.hash G [1, 2, 3]) 4) 4 0 [1]
      (bytesOf ((chunkPath Sha256.hash G [1, 2, 3] 0).map Prod.snd)
        ++ (sizeWitness Sha256.hash G 4).bytes) = .ok () := by
  intro G
  refine (unanchored_chunk_accepted_iff Sha256.hash G [1, 2, 3] (by decide) (by decide) _ _
    (DataTree.fromBytes_eq Sha256.hash (by decide) (by decide))
    (DataTree.rootHash_treeOf Sha256.hash (by decide)) 4 0 [1] _ (by decide +kernel)).1.mpr ?_
  exact ⟨by decide, by decide +kernel, by decide, rfl, rfl⟩

end Irys.Tree
