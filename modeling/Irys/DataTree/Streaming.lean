import Irys.DataTree.Completeness

/-!
# What the streaming builder computes

The builder keeps layers and carries odd tails at the end; the specification splits the leaves
from the root down; the inclusion walk reads the bits of the index.  The three are one tree.
A batch of chunks is checked before any of it is pushed.

* `streamed_tree_is_recursive` — root, audit paths and accepted sibling lists;
* `batch_is_all_or_nothing` — a batch is its chunks pushed one at a time, or nothing.
-/

namespace Irys.Tree

open List

open Irys Irys.Merkle DataTreeBuilder

variable (sha256 : Bytes → Digest)

/-! ### The recursive tree -/

theorem parts_lt {leaves : List Digest} (h : 1 < leaves.length) :
    (leaves.take (largestPowerOfTwoBelow leaves.length)).length < leaves.length ∧
      (leaves.drop (largestPowerOfTwoBelow leaves.length)).length < leaves.length := by
  have hlo : largestPowerOfTwoBelow leaves.length < leaves.length := (topExponent h).1
  have hpos := largestPowerOfTwoBelow_pos leaves.length
  rw [length_take, length_drop]
  omega

/-- **The recursive definition**: `C` leaves split at the largest power of two below `C`. -/
def recursiveRoot (leaves : List Digest) : Digest :=
  if _h : 1 < leaves.length then
    node sha256 (recursiveRoot (leaves.take (largestPowerOfTwoBelow leaves.length)))
      (recursiveRoot (leaves.drop (largestPowerOfTwoBelow leaves.length)))
  else leaves.headD default
termination_by leaves.length
decreasing_by
  · exact (parts_lt _h).1
  · exact (parts_lt _h).2

/-- The audit path of leaf `c` in the recursive tree, leaf to root. -/
def auditPath (c : ℕ) (leaves : List Digest) : List Digest :=
  if _h : 1 < leaves.length then
    let k := largestPowerOfTwoBelow leaves.length
    if c < k then auditPath c (leaves.take k) ++ [recursiveRoot sha256 (leaves.drop k)]
    else auditPath (c - k) (leaves.drop k) ++ [recursiveRoot sha256 (leaves.take k)]
  else []
termination_by leaves.length
decreasing_by
  · exact (parts_lt _h).1
  · exact (parts_lt _h).2

theorem recursiveRoot_eq (leaves : List Digest) :
    recursiveRoot sha256 leaves = rootOf (node sha256) leaves := by
  fun_induction recursiveRoot sha256 leaves with
  | case1 leaves h ihl ihr =>
    obtain ⟨hlo, hhi⟩ := topExponent (m := leaves.length) h
    rw [ihl, ihr, rootOf_split (node sha256) _ leaves hlo hhi]
    rfl
  | case2 leaves h =>
    rcases Nat.eq_zero_or_pos leaves.length with h0 | hpos
    · rw [length_eq_zero_iff.mp h0, rootOf]
      rfl
    · obtain ⟨a, rfl⟩ := length_eq_one_iff.mp (show leaves.length = 1 by omega)
      exact (rootOf_singleton _ a).symm

theorem auditPath_eq (c : ℕ) (leaves : List Digest) (hc : c < leaves.length) :
    auditPath sha256 c leaves = (siblingsOf (node sha256) c leaves).map Prod.snd := by
  fun_induction auditPath sha256 c leaves with
  | case1 c leaves h k hck ih =>
    obtain ⟨hlo, hhi⟩ := topExponent (m := leaves.length) h
    rw [ih (by rw [length_take]; omega), recursiveRoot_eq,
      siblingsOf_split_left (node sha256) _ c leaves hlo hhi hck, map_append]
    rfl
  | case2 c leaves h k hck ih =>
    obtain ⟨hlo, hhi⟩ := topExponent (m := leaves.length) h
    rw [ih (by rw [length_drop]; omega), recursiveRoot_eq,
      siblingsOf_split_right (node sha256) _ c leaves hlo hhi (not_lt.mp hck) hc, map_append]
    rfl
  | case3 c leaves h => rw [siblingsOf_of_le _ _ (not_lt.mp h), map_nil]

/-! ### The streamed tree -/

/-- The layers `finish` leaves after `leaves` were pushed one at a time. -/
def streamedLayers (leaves : List Digest) : List (List Digest) :=
  carryOddTails sha256 (leaves.foldl (fun layers hash => pushNodeAt sha256 layers 0 hash) [])

theorem foldl_pushNodeAt (done leaves : List Digest) :
    leaves.foldl (fun layers hash => pushNodeAt sha256 layers 0 hash)
      (streamLayers (node sha256) done) = streamLayers (node sha256) (done ++ leaves) := by
  induction leaves generalizing done with
  | nil => rw [foldl_nil, append_nil]
  | cons hash leaves ih =>
    have hpush : pushNodeAt sha256 (streamLayers (node sha256) done) 0 hash =
        streamLayers (node sha256) (done ++ [hash]) := pushNode_streamLayers _ _ _
    rw [foldl_cons, hpush, ih, append_assoc, singleton_append]

theorem streamedLayers_eq {leaves : List Digest} (hne : leaves ≠ []) :
    streamedLayers sha256 leaves = layersOf (node sha256) leaves := by
  have hfold := foldl_pushNodeAt sha256 [] leaves
  rw [streamLayers_nil, nil_append] at hfold
  rw [streamedLayers, hfold, carryOddTails_streamLayers sha256 hne]

/-- A climb accepts exactly the byte strings of one sibling per step. -/
theorem climb_isSome_iff {c m : ℕ} (hc : c < m) (r : Digest) (proof : Bytes) :
    (climb sha256 r c m proof).isSome ↔ proof.length = hashSize * (levelSteps c (m - 1)).length := by
  by_cases hmod : proof.length % hashSize = 0
  · rw [← bytesOf_digestsOf proof hmod, climb_eq sha256 r _ hc, bytesOf_length,
      Nat.mul_right_inj (by decide)]
    split <;> simp_all
  · rw [climb, if_pos (.inr (.inr hmod))]
    have hne : proof.length ≠ hashSize * (levelSteps c (m - 1)).length := by
      intro heq
      exact hmod (by rw [heq, Nat.mul_mod_right])
    simpa using hne

/-- **Streaming gives the recursive tree.**  The last layer is its root, the siblings read out for
leaf `c` are the audit path of `c`, of length `depth`, and the walk accepts exactly the sibling
lists of that length. -/
theorem streamed_tree_is_recursive (leaves : List Digest) (hpos : 1 ≤ leaves.length)
    (hlen : leaves.length < 2 ^ 32) :
    (streamedLayers sha256 leaves).getLast? = some [recursiveRoot sha256 leaves] ∧
      ∀ c < leaves.length,
        DataTree.siblingsFrom c 0 (streamedLayers sha256 leaves) = auditPath sha256 c leaves ∧
        depth c leaves.length = some (auditPath sha256 c leaves).length ∧
        ∀ r proof, (climb sha256 r c leaves.length proof).isSome ↔
          proof.length = hashSize * (auditPath sha256 c leaves).length := by
  have hne : leaves ≠ [] := ne_nil_of_length_pos hpos
  rw [streamedLayers_eq sha256 hne]
  refine ⟨?_, ?_⟩
  · rw [layersOf_getLast? _ _ hne, recursiveRoot_eq]
  · intro c hc
    have hsides : (auditPath sha256 c leaves).length =
        (levelSteps c (leaves.length - 1)).length := by
      rw [auditPath_eq sha256 c leaves hc, ← siblingsOf_sides (node sha256) c leaves hc, length_map,
        length_map]
    refine ⟨?_, ?_, ?_⟩
    · rw [DataTree.siblingsFrom_layersOf sha256 leaves 0 (by omega) (by omega) hc,
        Nat.shiftRight_zero, siblingsIn_layersOf _ c leaves hc, auditPath_eq sha256 c leaves hc]
    · rw [hsides]
      exact depth_eq hc hlen
    · intro r proof
      rw [hsides]
      exact climb_isSome_iff sha256 hc r proof

theorem streamed_tree_is_recursive_three_leaves :
    let leaves := [[1], [2], [3]].map Sha256.hash
    (streamedLayers Sha256.hash leaves).getLast? = some [recursiveRoot Sha256.hash leaves] ∧
      DataTree.siblingsFrom 2 0 (streamedLayers Sha256.hash leaves) =
        auditPath Sha256.hash 2 leaves ∧
      (auditPath Sha256.hash 2 leaves).length = 1 ∧
      (climb Sha256.hash (Sha256.hash [3]) 2 3 (Sha256.hash [4]).bytes).isSome := by
  intro leaves
  obtain ⟨hroot, hleaf⟩ := streamed_tree_is_recursive Sha256.hash leaves (by decide) (by decide)
  obtain ⟨hsibs, hdepth, hclimb⟩ := hleaf 2 (by decide)
  have hone : (auditPath Sha256.hash 2 leaves).length = 1 := by
    have hdepth' : depth 2 leaves.length = some 1 := by
      rw [show leaves.length = 3 from rfl, depth_eq (by decide) (by decide), levelSteps]
      simp [levelSteps]
    exact Option.some.inj (hdepth.symm.trans hdepth')
  refine ⟨hroot, hsibs, hone, (hclimb _ _).mpr ?_⟩
  rw [hone]
  exact (Sha256.hash [4]).size_eq

/-! ### A batch in place -/

/-- **The states of a builder**: an empty one, and what a successful push leaves.  `push_chunk` and
`push_chunks_parallel` push the roots they compute. -/
inductive Reached : DataTreeBuilder → Prop where
  | new (G : Geometry) : Reached (new G)
  | push {t t' : DataTreeBuilder} {root : Digest} {chunkLength : ℕ} (run : Reached t)
      (h : t.pushChunkRoot sha256 root chunkLength = .ok t') : Reached t'

variable {t t' : DataTreeBuilder} {bytes : Bytes}

theorem Reached.sound (h : Reached sha256 t) : t.Sound := by
  induction h with
  | new G => exact ⟨Nat.zero_le _, Nat.zero_le _⟩
  | push run h ih =>
    obtain ⟨hprep, rfl⟩ := (ih.pushChunkRoot_eq_ok sha256).mp h
    exact ih.fed sha256 hprep _

theorem pushChunksParallel_of_error {e : Fault BuildError}
    (h : t.validateChunkBatch bytes = .error e) :
    (pushChunksParallel sha256 bytes).run t = (.error e, t) := by
  rw [pushChunksParallel, Mut.run_read_bind, h]
  exact Mut.run_bind_of_error rfl

/-- A batch that passes its checks is pushed, whole. -/
theorem pushChunksParallel_cases (ht : t.Sound) (hlen : bytes.length < 2 ^ 64) :
    (∃ e, t.validateChunkBatch bytes = .error e) ∨
      bytes ≠ [] ∧ ∃ t', DataTree.pushSlices sha256 t.geometry t bytes = .ok t' ∧
        (pushChunksParallel sha256 bytes).run t = (.ok (), t') := by
  cases hvalid : t.validateChunkBatch bytes with
  | error e => exact .inl ⟨e, rfl⟩
  | ok r =>
    have hb : bytes ≠ [] := by
      rintro rfl
      obtain ⟨_, hprep, -⟩ := bind_eq_ok.mp hvalid
      exact absurd (preparePush_eq_ok.mp hprep).1 (lt_irrefl 0)
    obtain ⟨hshort, hfits, -⟩ := (ht.validateChunkBatch_eq_ok hb hlen).mp hvalid
    obtain ⟨t', h⟩ := (DataTree.pushSlices_isOk_iff sha256 rfl ht).mpr ⟨fun _ => hshort, hfits⟩
    exact .inr ⟨hb, t', h, DataTree.pushChunksParallel_eq sha256 rfl ht hb hlen h⟩

/-- **A batch is pushed whole or not at all.**  A non-empty slice is accepted exactly when its
chunk-size pieces are, pushed one at a time, and leaves the same builder; an empty one is refused
as an empty chunk is; a refused batch leaves the builder as it was. -/
theorem batch_is_all_or_nothing (ht : Reached sha256 t) (hlen : bytes.length < 2 ^ 64)
    {out : Res BuildError Unit} (hrun : (pushChunksParallel sha256 bytes).run t = (out, t')) :
    (bytes ≠ [] → (out = .ok () ↔
        ∃ s, DataTree.pushSlices sha256 t.geometry t bytes = .ok s) ∧
      ∀ s, DataTree.pushSlices sha256 t.geometry t bytes = .ok s → t' = s) ∧
    (bytes = [] → ∃ e, out = .error e ∧ t.pushChunk sha256 bytes = .error e) ∧
    ∀ e, out = .error e → t' = t := by
  have hs := ht.sound
  rcases pushChunksParallel_cases sha256 hs hlen with ⟨e, hvalid⟩ | ⟨hb, s, h, hrun'⟩
  · rw [pushChunksParallel_of_error sha256 hvalid] at hrun
    cases hrun
    refine ⟨?_, ?_, fun _ _ => rfl⟩
    · intro hb
      have hnone : ∀ s, DataTree.pushSlices sha256 t.geometry t bytes ≠ .ok s := by
        intro s h
        obtain ⟨hshort, hfits⟩ := (DataTree.pushSlices_isOk_iff sha256 rfl hs).mp ⟨s, h⟩
        rw [(hs.validateChunkBatch_eq_ok hb hlen).mpr ⟨hshort hb, hfits, rfl⟩] at hvalid
        cases hvalid
      refine ⟨⟨fun h => ?_, fun h => absurd h.choose_spec (hnone _)⟩, fun s h => absurd h (hnone s)⟩
      cases h
    · rintro rfl
      rw [validateChunkBatch, if_pos rfl] at hvalid
      rw [pushChunk, length_nil]
      cases hprep : t.preparePush 0 with
      | ok _ => exact absurd (preparePush_eq_ok.mp hprep).1 (lt_irrefl 0)
      | error f =>
        rw [hprep] at hvalid
        cases hvalid
        exact ⟨_, rfl, rfl⟩
  · rw [hrun'] at hrun
    cases hrun
    refine ⟨fun _ => ⟨⟨fun _ => ⟨_, h⟩, fun _ => rfl⟩, ?_⟩, fun hnil => absurd hnil hb, ?_⟩
    · intro s' h'
      exact Except.ok.inj (h.symm.trans h')
    · intro e he
      cases he

/-- Three bytes are pushed whole; after a short chunk nothing is. -/
theorem batch_is_all_or_nothing_short_chunk :
    (∃ s, DataTree.pushSlices Sha256.hash Geometry.small (new Geometry.small) [1, 2, 3] = .ok s ∧
      (pushChunksParallel Sha256.hash [1, 2, 3]).run (new Geometry.small) = (.ok (), s)) ∧
    ∃ t e, (new Geometry.small).pushChunkRoot Sha256.hash (Sha256.hash [1]) 1 = .ok t ∧
      (pushChunksParallel Sha256.hash [2, 3]).run t = (.error e, t) := by
  constructor
  · have hreach : Reached Sha256.hash (new Geometry.small) := .new _
    obtain ⟨s, hs⟩ := (DataTree.pushSlices_isOk_iff Sha256.hash (b := [1, 2, 3]) rfl
      hreach.sound).mpr ⟨fun _ => rfl, by decide⟩
    have hrun : (pushChunksParallel Sha256.hash [1, 2, 3]).run (new Geometry.small) = (_, _) := rfl
    obtain ⟨hiff, hsame⟩ :=
      (batch_is_all_or_nothing Sha256.hash hreach (by decide) hrun).1 (by decide)
    exact ⟨s, hs, Prod.ext (hiff.mpr ⟨s, hs⟩) (hsame s hs)⟩
  · obtain ⟨t, ht, hshort⟩ : ∃ t, (new Geometry.small).pushChunkRoot Sha256.hash (Sha256.hash [1]) 1
      = .ok t ∧ t.lastChunkShort = true := ⟨_, rfl, rfl⟩
    have hreach : Reached Sha256.hash t := .push (.new _) ht
    have hrun : (pushChunksParallel Sha256.hash [2, 3]).run t = (_, _) := rfl
    obtain ⟨hbatch, -, hsame⟩ := batch_is_all_or_nothing Sha256.hash hreach (by decide) hrun
    cases hout : ((pushChunksParallel Sha256.hash [2, 3]).run t).1 with
    | ok _ =>
      obtain ⟨hwhole, -⟩ := (DataTree.pushSlices_isOk_iff Sha256.hash rfl hreach.sound).mp
        ((hbatch (by decide)).1.mp hout)
      exact absurd (hshort.symm.trans (hwhole (by decide))) (by decide)
    | error e => exact ⟨t, e, ht, Prod.ext hout (hsame e hout)⟩

/-- An empty slice has no pieces to push, and is refused. -/
theorem empty_batch_refused :
    DataTree.pushSlices Sha256.hash Geometry.small (new Geometry.small) [] =
        .ok (new Geometry.small) ∧
      ((pushChunksParallel Sha256.hash []).run (new Geometry.small)).1 =
        fail (.chunkLength .empty) := by
  refine ⟨?_, rfl⟩
  rw [DataTree.pushSlices, dif_pos rfl]

end Irys.Tree
