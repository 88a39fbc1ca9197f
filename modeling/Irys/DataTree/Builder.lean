import Irys.DataTree.Chunk
import Irys.Lib.Mutable

/-!
# The streaming builder

`builder.rs` of the data tree, up to `finish` and `from_bytes`.  A builder keeps one list of
hashes per layer; layer 0 holds the chunk leaves.  `usize` is taken to have 64 bits, so a
`chunk_size` always fits it.  The capacity hints of `with_capacity` reserve memory and are
not part of the state.

`builderOf G d` is the builder that has been fed the bytes `d`, and `treeOf G d` the finished
tree.  The spec lemmas say that every way of feeding keeps this shape.
-/

namespace Irys.Tree

open List

open Irys Irys.Merkle

/-- The streaming builder rejected a push or a finish. -/
inductive BuildError where
  | chunkLength (e : ChunkLengthError)
  | afterShortChunk
  | tooManyChunks (maxDataTxChunks : ℕ)
  | empty
  deriving DecidableEq

/-- Accumulates chunk roots, as chunk leaves, into a data tree. -/
structure DataTreeBuilder where
  geometry : Geometry
  layers : List (List Digest)
  dataSize : ℕ
  lastChunkShort : Bool

/-- A finished data tree. -/
structure DataTree where
  geometry : Geometry
  layers : List (List Digest)
  dataSize : ℕ

namespace DataTreeBuilder

variable (sha256 : Bytes → Digest)

/-- An empty builder. -/
def new (geometry : Geometry) : DataTreeBuilder := ⟨geometry, [], 0, false⟩

/-- Number of chunks pushed so far. -/
def pushedChunkCount (b : DataTreeBuilder) : ℕ := (b.layers.head?.map List.length).getD 0

/-- Push `hash` on layer `level`, which is at most one above the highest; a layer that becomes
even pushes the node of its last two entries one layer up. -/
def pushNodeAt (layers : List (List Digest)) (level : ℕ) (hash : Digest) : List (List Digest) :=
  layers.take level ++ pushNode (node sha256) (layers.drop level) hash

section

variable (b : DataTreeBuilder)

/-- The checks before a push. -/
def preparePush (chunkLength : ℕ) : Res BuildError Unit :=
  if b.lastChunkShort then fail .afterShortChunk
  else if chunkLength = 0 then fail (.chunkLength .empty)
  else if b.geometry.chunkSize < chunkLength then
    fail (.chunkLength (.tooLong chunkLength b.geometry.chunkSize))
  else if b.geometry.maxDataTxChunks ≤ b.pushedChunkCount then
    fail (.tooManyChunks b.geometry.maxDataTxChunks)
  else .ok ()

/-- Append the chunk leaf of `root` at the push index. -/
def commitPush (root : Digest) (chunkLength : ℕ) :
    Res BuildError DataTreeBuilder := do
  let chunkIndex := b.pushedChunkCount
  let layers := pushNodeAt sha256 b.layers 0 (chunkLeaf sha256 chunkIndex root)
  let dataSize ← expect (checkedAdd 64 b.dataSize chunkLength)
  .ok ⟨b.geometry, layers, dataSize, decide (chunkLength < b.geometry.chunkSize)⟩

/-- Hash `bytes` and append its chunk leaf. -/
def pushChunk (bytes : Bytes) : Res BuildError DataTreeBuilder := do
  b.preparePush bytes.length
  let root ← mapErr .chunkLength (chunkRoot sha256 b.geometry bytes)
  b.commitPush sha256 root bytes.length

/-- Append a chunk root hashed by the caller. -/
def pushChunkRoot (root : Digest) (chunkLength : ℕ) :
    Res BuildError DataTreeBuilder := do
  b.preparePush chunkLength
  b.commitPush sha256 root chunkLength

end

/-- End of the piece that starts at `start`. -/
def pieceEnd (byteLength split start : ℕ) : ℕ :=
  match checkedAdd 64 start split with
  | some e => min e byteLength
  | none => byteLength

theorem lt_pieceEnd {byteLength split start : ℕ} (hs : 0 < split) (h : start < byteLength) :
    start < pieceEnd byteLength split start := by
  unfold pieceEnd checkedAdd
  split
  · rename_i e he
    split at he
    · cases he
      omega
    · cases he
  · exact h

/-- The loop of `validate_chunk_batch`: check every piece, and count them. -/
def validatePieces (G : Geometry) (byteLength offset pushed : ℕ) (previousPieceShort : Bool)
    (pieceCount : ℕ) : Res BuildError ℕ :=
  if _h : offset < byteLength then
    if previousPieceShort then fail .afterShortChunk
    else if G.maxDataTxChunks ≤ pushed then fail (.tooManyChunks G.maxDataTxChunks)
    else do
      let pushed' ← expect (checkedAdd 32 pushed 1)
      let pieceCount' ← expect (checkedAdd 64 pieceCount 1)
      validatePieces G byteLength (pieceEnd byteLength G.chunkSize offset) pushed'
        (decide (pieceEnd byteLength G.chunkSize offset - offset < G.chunkSize)) pieceCount'
  else .ok pieceCount
termination_by byteLength - offset
decreasing_by
  have := lt_pieceEnd G.chunkSize_pos _h
  omega

/-- Check every piece of a batch before hashing; the number of pieces. -/
def validateChunkBatch (b : DataTreeBuilder) (bytes : Bytes) : Res BuildError ℕ :=
  if bytes = [] then do
    b.preparePush 0
    .error .panic
  else
    validatePieces b.geometry bytes.length 0 b.pushedChunkCount b.lastChunkShort 0

/-- Byte range of piece `pieceIndex`. -/
def pieceBounds (byteLength split pieceIndex : ℕ) : Res BuildError (ℕ × ℕ) := do
  let start ← expect (checkedMul 64 pieceIndex split)
  .ok (start, pieceEnd byteLength split start)

/-- Chunk root of piece `pieceIndex`. -/
def hashPiece (G : Geometry) (bytes : Bytes) (pieceIndex : ℕ) : Res BuildError Digest := do
  let bounds ← pieceBounds bytes.length G.chunkSize pieceIndex
  mapErr .chunkLength (chunkRoot sha256 G ((bytes.take bounds.2).drop bounds.1))

/-- Chunk roots of `remaining` pieces from `pieceIndex` on, in piece order. -/
def hashChunkPieces (G : Geometry) (bytes : Bytes) :
    (remaining pieceIndex : ℕ) → Res BuildError (List Digest)
  | 0, _ => .ok []
  | remaining + 1, pieceIndex => do
    let root ← hashPiece sha256 G bytes pieceIndex
    let rest ← hashChunkPieces G bytes remaining (pieceIndex + 1)
    .ok (root :: rest)

/-- Push the roots of a validated batch in order. -/
def pushPieceRoots (byteLength split : ℕ) :
    (pieceIndex : ℕ) → List Digest → Mut DataTreeBuilder BuildError Unit
  | _, [] => pure ()
  | pieceIndex, root :: rest => do
    let bounds ← Mut.lift (pieceBounds byteLength split pieceIndex)
    let b ← Mut.read
    let b' ← Mut.lift (expectOk (b.pushChunkRoot sha256 root (bounds.2 - bounds.1)))
    Mut.update fun _ => b'
    pushPieceRoots byteLength split (pieceIndex + 1) rest

/-- Hash a batch of consecutive chunks, then append their roots in order.  The checks and the
hashing only read the builder. -/
def pushChunksParallel (bytes : Bytes) : Mut DataTreeBuilder BuildError Unit := do
  let b ← Mut.read
  let pieceCount ← Mut.lift (b.validateChunkBatch bytes)
  let roots ← Mut.lift (hashChunkPieces sha256 b.geometry bytes pieceCount 0)
  pushPieceRoots sha256 bytes.length b.geometry.chunkSize 0 roots

/-- Carry odd tails until one root remains. -/
def carryOddTails (layers : List (List Digest)) : List (List Digest) :=
  carryTails (node sha256) (layers.flatten.length + layers.length) layers

/-- Carry odd tails and return the tree. -/
def finish (b : DataTreeBuilder) : Res BuildError DataTree :=
  if b.pushedChunkCount = 0 then fail .empty
  else .ok ⟨b.geometry, carryOddTails sha256 b.layers, b.dataSize⟩

end DataTreeBuilder

namespace DataTree

variable (sha256 : Bytes → Digest)

/-- Split `data` into chunks and build the tree (feature `parallel`). -/
def fromBytes (geometry : Geometry) (data : Bytes) : Res BuildError DataTree :=
  if data = [] then (DataTreeBuilder.new geometry).finish sha256
  else do
    let builder ← (DataTreeBuilder.pushChunksParallel sha256 data).exec (.new geometry)
    builder.finish sha256

/-- The loop of `from_bytes` without the feature `parallel`. -/
def pushSlices (geometry : Geometry) (builder : DataTreeBuilder) (data : Bytes) :
    Res BuildError DataTreeBuilder :=
  if _h : data = [] then .ok builder
  else do
    let builder' ← builder.pushChunk sha256 (data.take geometry.chunkSize)
    pushSlices geometry builder' (data.drop geometry.chunkSize)
termination_by data.length
decreasing_by
  have := geometry.chunkSize_pos
  have := length_pos_iff.mpr _h
  rw [length_drop]
  omega

/-- Split `data` into chunks and build the tree, without the feature `parallel`. -/
def fromBytesSequential (geometry : Geometry) (data : Bytes) : Res BuildError DataTree :=
  if data = [] then (DataTreeBuilder.new geometry).finish sha256
  else do
    let builder ← pushSlices sha256 geometry (DataTreeBuilder.new geometry) data
    builder.finish sha256

end DataTree

/-! ### The builder that has been fed `d` -/

/-- Chunk `c` of the data `d`. -/
def chunkAt (G : Geometry) (d : Bytes) (c : ℕ) : Bytes :=
  (d.drop (c * G.chunkSize)).take G.chunkSize

variable (sha256 : Bytes → Digest)

section

variable (G : Geometry) (d : Bytes)

/-- The chunk root of chunk `c` of `d`. -/
def chunkRootAt (c : ℕ) : Digest :=
  rootOf (node sha256) (segmentLeaves sha256 G (chunkAt G d c))

/-- The chunk leaves of `d`. -/
def chunkLeaves : List Digest :=
  (List.range (divCeil d.length G.chunkSize)).map fun c =>
    chunkLeaf sha256 c (chunkRootAt sha256 G d c)

/-- The builder that has been fed `d`. -/
def builderOf : DataTreeBuilder :=
  ⟨G, streamLayers (node sha256) (chunkLeaves sha256 G d), d.length,
    decide (d.length % G.chunkSize ≠ 0)⟩

/-- The finished tree of `d`. -/
def treeOf : DataTree :=
  ⟨G, layersOf (node sha256) (chunkLeaves sha256 G d), d.length⟩

@[simp] theorem chunkLeaves_length :
    (chunkLeaves sha256 G d).length = divCeil d.length G.chunkSize := by
  simp [chunkLeaves]

end

theorem chunkLeaves_getElem? {G : Geometry} {d : Bytes} {c : ℕ}
    (hc : c < divCeil d.length G.chunkSize) :
    (chunkLeaves sha256 G d)[c]? = some (chunkLeaf sha256 c (chunkRootAt sha256 G d c)) := by
  simp [chunkLeaves, hc]

theorem chunkAt_length (G : Geometry) (d : Bytes) (c : ℕ) :
    (chunkAt G d c).length = min (d.length - c * G.chunkSize) G.chunkSize := by
  rw [chunkAt, length_take, length_drop, Nat.min_comm]

variable {G : Geometry} {d b : Bytes}

theorem divCeil_mul (k : ℕ) : divCeil (k * G.chunkSize) G.chunkSize = k := by
  have := G.chunkSize_pos
  exact (divCeil_eq_iff this).mpr ⟨le_rfl, by omega⟩

theorem divCeil_mul_add {k len : ℕ} (hpos : 0 < len) (hle : len ≤ G.chunkSize) :
    divCeil (k * G.chunkSize + len) G.chunkSize = k + 1 := by
  rw [divCeil_eq_iff G.chunkSize_pos, Nat.succ_mul]
  omega

theorem divCeil_sub_chunk {m : ℕ} (h : 0 < m) :
    divCeil m G.chunkSize = divCeil (m - G.chunkSize) G.chunkSize + 1 := by
  have hcs := G.chunkSize_pos
  rcases Nat.le_total m G.chunkSize with hle | hge
  · rw [Nat.sub_eq_zero_of_le hle, divCeil_zero hcs, divCeil_eq_iff hcs]
    omega
  · have hrest := (divCeil_eq_iff (a := m - G.chunkSize) hcs).mp rfl
    rw [divCeil_eq_iff hcs, Nat.succ_mul]
    omega

theorem chunkAt_append_of_lt {c : ℕ} (h : (c + 1) * G.chunkSize ≤ d.length) :
    chunkAt G (d ++ b) c = chunkAt G d c := by
  rw [Nat.succ_mul] at h
  rw [chunkAt, chunkAt, drop_append_of_le_length (by omega),
    take_append_of_le_length (by rw [length_drop]; omega)]

theorem chunkAt_append_last {k : ℕ} (hd : d.length = k * G.chunkSize)
    (hle : b.length ≤ G.chunkSize) : chunkAt G (d ++ b) k = b := by
  rw [chunkAt, drop_left' hd, take_of_length_le hle]

theorem chunkLeaves_append {k : ℕ} (hd : d.length = k * G.chunkSize) (hpos : 0 < b.length)
    (hle : b.length ≤ G.chunkSize) :
    chunkLeaves sha256 G (d ++ b) = chunkLeaves sha256 G d
      ++ [chunkLeaf sha256 k (rootOf (node sha256) (segmentLeaves sha256 G b))] := by
  rw [chunkLeaves, chunkLeaves, length_append, hd, divCeil_mul_add hpos hle, divCeil_mul,
    range_succ, map_append]
  congr 1
  · refine map_congr_left fun c hc => ?_
    rw [mem_range] at hc
    rw [chunkRootAt, chunkAt_append_of_lt (by rw [hd]; exact Nat.mul_le_mul_right _ hc)]
    rfl
  · rw [map_singleton, chunkRootAt, chunkAt_append_last hd hle]

namespace DataTreeBuilder

@[simp] theorem builderOf_nil : builderOf sha256 G [] = new G := by
  simp [builderOf, new, chunkLeaves, divCeil, Nat.div_eq_of_lt, G.chunkSize_pos]

@[simp] theorem pushedChunkCount_builderOf :
    (builderOf sha256 G d).pushedChunkCount = divCeil d.length G.chunkSize := by
  rw [pushedChunkCount, builderOf]
  by_cases h : chunkLeaves sha256 G d = []
  · rw [← chunkLeaves_length sha256, h]
    simp
  · rw [streamLayers_of_ne (node sha256) h]
    simp

/-! ### One push -/

/-- What the private fields of a builder always satisfy. -/
structure Sound (b : DataTreeBuilder) : Prop where
  count_le : b.pushedChunkCount ≤ b.geometry.maxDataTxChunks
  size_le : b.dataSize ≤ b.pushedChunkCount * b.geometry.chunkSize

/-- The builder with one more chunk. -/
def fed (t : DataTreeBuilder) (root : Digest) (chunkLength : ℕ) : DataTreeBuilder :=
  ⟨t.geometry, pushNodeAt sha256 t.layers 0 (chunkLeaf sha256 t.pushedChunkCount root),
    t.dataSize + chunkLength, decide (chunkLength < t.geometry.chunkSize)⟩

variable {t t' : DataTreeBuilder} {len : ℕ}

theorem preparePush_eq_ok : t.preparePush len = .ok () ↔
    0 < len ∧ len ≤ t.geometry.chunkSize ∧ t.lastChunkShort = false ∧
      t.pushedChunkCount < t.geometry.maxDataTxChunks := by
  simp only [preparePush, fail_ite_eq_ok, Bool.not_eq_true, ← Nat.pos_iff_ne_zero, not_lt, not_le,
    and_true]
  tauto

theorem pushedChunkCount_fed (root : Digest) :
    (t.fed sha256 root len).pushedChunkCount = t.pushedChunkCount + 1 := by
  rw [fed, pushedChunkCount, pushedChunkCount, pushNodeAt, take_zero, nil_append, drop_zero]
  cases t.layers with
  | nil => rfl
  | cons layer rest =>
    rw [pushNode]
    split
    · rename_i hnone
      rw [getLast?_eq_none_iff.mp hnone]
      rfl
    · split <;> simp

section

variable (ht : t.Sound) (hprep : t.preparePush len = .ok ())
include ht hprep

theorem Sound.size_fed : t.dataSize + len ≤ (t.pushedChunkCount + 1) * t.geometry.chunkSize := by
  have := ht.size_le
  have := (preparePush_eq_ok.mp hprep).2.1
  rw [Nat.succ_mul]
  omega

theorem Sound.fed (root : Digest) : (t.fed sha256 root len).Sound := by
  refine ⟨?_, ?_⟩
  · rw [pushedChunkCount_fed]
    exact (preparePush_eq_ok.mp hprep).2.2.2
  · rw [pushedChunkCount_fed]
    exact ht.size_fed hprep

theorem Sound.commitPush (root : Digest) :
    t.commitPush sha256 root len = .ok (t.fed sha256 root len) := by
  have hmul : (t.pushedChunkCount + 1) * t.geometry.chunkSize ≤ _ :=
    Nat.mul_le_mul_right _ (preparePush_eq_ok.mp hprep).2.2.2
  have hsize := ht.size_fed hprep
  have hbound := t.geometry.maxData_lt
  rw [Nat.mul_comm] at hbound
  rw [DataTreeBuilder.commitPush, checkedAdd_of_lt (by omega)]
  rfl

end

theorem Sound.pushChunkRoot_eq_ok (ht : t.Sound) {root : Digest} :
    t.pushChunkRoot sha256 root len = .ok t' ↔
      t.preparePush len = .ok () ∧ t' = t.fed sha256 root len := by
  rw [pushChunkRoot, bind_eq_ok]
  constructor
  · intro h
    obtain ⟨_, hprep, h⟩ := h
    rw [ht.commitPush sha256 hprep] at h
    exact ⟨hprep, (Except.ok.inj h).symm⟩
  · intro h
    exact ⟨(), h.1, by rw [ht.commitPush sha256 h.1, h.2]⟩

/-- **`push_chunk`** pushes the root it computes. -/
theorem pushChunk_eq (hpos : 0 < b.length) (hle : b.length ≤ t.geometry.chunkSize) :
    t.pushChunk sha256 b = t.pushChunkRoot sha256
      (rootOf (node sha256) (segmentLeaves sha256 t.geometry b)) b.length := by
  rw [pushChunk, chunkRoot_eq sha256 hpos hle]
  rfl

/-! ### A batch of chunks -/

/-- Below the word size the piece that starts at `start` ends one chunk later or with the data. -/
theorem pieceEnd_eq {len split start : ℕ} (hlen : len < 2 ^ 64) :
    pieceEnd len split start = min (start + split) len := by
  unfold pieceEnd checkedAdd
  split
  · rename_i e he
    split at he
    · cases he
      rfl
    · cases he
  · rename_i he
    split at he
    · cases he
    · omega

/-- **The batch check** asks for a whole last chunk and for room for every piece. -/
theorem validatePieces_eq_ok {len : ℕ} (hlen : len < 2 ^ 64) (offset pushed count r : ℕ)
    (short : Bool) (hcount : count + divCeil (len - offset) G.chunkSize < 2 ^ 64)
    (hpushed : pushed ≤ G.maxDataTxChunks) :
    validatePieces G len offset pushed short count = .ok r ↔ (offset < len → short = false) ∧
      pushed + divCeil (len - offset) G.chunkSize ≤ G.maxDataTxChunks ∧
      r = count + divCeil (len - offset) G.chunkSize := by
  induction hm : len - offset using Nat.strong_induction_on
    generalizing offset pushed count short with
  | _ m ih =>
    subst hm
    rw [validatePieces]
    split
    · rename_i hlt
      have hstep := divCeil_sub_chunk (G := G) (m := len - offset) (by omega)
      have hmax := G.maxChunks_lt
      have hcs := G.chunkSize_pos
      have hrest : len - min (offset + G.chunkSize) len = len - offset - G.chunkSize := by omega
      -- only the last piece of a batch is short
      have hwhole : min (offset + G.chunkSize) len < len →
          decide (min (offset + G.chunkSize) len - offset < G.chunkSize) = false := by
        intro hin
        rw [decide_eq_false_iff_not]
        omega
      rw [fail_ite_eq_ok, fail_ite_eq_ok, Bool.not_eq_true]
      rcases Nat.lt_or_ge pushed G.maxDataTxChunks with hroom | hfull
      · rw [checkedAdd_of_lt (by omega), expect_some, ok_bind, checkedAdd_of_lt (by omega),
          expect_some, ok_bind, pieceEnd_eq hlen, ih _ (by omega) _ _ _ _ (by rw [hrest]; omega)
          (by omega) rfl, hrest, hstep, eq_true hwhole]
        simp only [true_and, hlt, forall_const]
        exact and_congr_right fun _ => by omega
      · rw [hstep]
        omega
    · rename_i hge
      rw [show len - offset = 0 by omega, divCeil_zero G.chunkSize_pos]
      simp [hge, hpushed, eq_comm]

theorem chunkAt_eq_slice (c : ℕ) :
    (b.take (min (c * G.chunkSize + G.chunkSize) b.length)).drop (c * G.chunkSize)
      = chunkAt G b c := by
  rw [chunkAt, drop_take, take_eq_take_iff.mpr]
  rw [length_drop]
  omega

/-- The bounds of piece `c` of a batch. -/
theorem pieceBounds_eq {c : ℕ} (hlen : b.length < 2 ^ 64)
    (hc : c < divCeil b.length G.chunkSize) :
    pieceBounds b.length G.chunkSize c
      = .ok (c * G.chunkSize, min (c * G.chunkSize + G.chunkSize) b.length) := by
  have := Geometry.chunkStart_lt hc
  rw [pieceBounds, checkedMul_of_lt (by omega), expect_some, ok_bind, pieceEnd_eq hlen]

theorem hashPiece_eq {c : ℕ} (hlen : b.length < 2 ^ 64) (hc : c < divCeil b.length G.chunkSize) :
    hashPiece sha256 G b c = .ok (chunkRootAt sha256 G b c) := by
  have hstart := Geometry.chunkStart_lt hc
  have hsize := chunkAt_length G b c
  have hcs := G.chunkSize_pos
  rw [hashPiece, pieceBounds_eq hlen hc, ok_bind, chunkAt_eq_slice,
    chunkRoot_eq sha256 (by omega) (by omega), mapErr_ok]
  rfl

theorem hashChunkPieces_eq (hlen : b.length < 2 ^ 64) (r i : ℕ)
    (hr : i + r ≤ divCeil b.length G.chunkSize) :
    hashChunkPieces sha256 G b r i
      = .ok ((List.range r).map fun m => chunkRootAt sha256 G b (i + m)) := by
  induction r generalizing i with
  | zero => rfl
  | succ r ih =>
    rw [hashChunkPieces, hashPiece_eq sha256 hlen (by omega), ok_bind, ih (i + 1) (by omega),
      ok_bind, range_succ_eq_map, map_cons, List.map_map]
    simp only [Nat.add_zero, Except.ok.injEq, List.cons.injEq, true_and]
    refine map_congr_left fun m _ => ?_
    rw [Function.comp, Nat.succ_eq_add_one, Nat.add_assoc, Nat.add_comm 1]

/-- **The checks of a batch** ask the same of a builder as pushing its pieces one at a time. -/
theorem Sound.validateChunkBatch_eq_ok (ht : t.Sound) (hb : b ≠ []) (hlen : b.length < 2 ^ 64)
    {r : ℕ} : t.validateChunkBatch b = .ok r ↔ t.lastChunkShort = false ∧
      t.pushedChunkCount + divCeil b.length t.geometry.chunkSize ≤ t.geometry.maxDataTxChunks ∧
      r = divCeil b.length t.geometry.chunkSize := by
  have hle : divCeil b.length t.geometry.chunkSize ≤ b.length :=
    (divCeil_le_iff t.geometry.chunkSize_pos).mpr (Nat.le_mul_of_pos_right _ t.geometry.chunkSize_pos)
  have hvalid := validatePieces_eq_ok hlen 0 t.pushedChunkCount 0 r t.lastChunkShort
    (by rw [Nat.sub_zero]; omega) ht.count_le
  simpa [validateChunkBatch, hb, length_pos_iff] using hvalid

end DataTreeBuilder

namespace DataTree

open DataTreeBuilder

section

variable {t t' : DataTreeBuilder} (hG : t.geometry = G) (ht : t.Sound)
include hG ht

theorem pushSlices_eq_ok (hb : b ≠ []) :
    pushSlices sha256 G t b = .ok t' ↔ t.preparePush (b.take G.chunkSize).length = .ok () ∧
      pushSlices sha256 G (t.fed sha256 (rootOf (node sha256)
        (segmentLeaves sha256 G (b.take G.chunkSize))) (b.take G.chunkSize).length)
        (b.drop G.chunkSize) = .ok t' := by
  subst hG
  have hcs := t.geometry.chunkSize_pos
  have hpos := length_pos_iff.mpr hb
  rw [pushSlices, dif_neg hb, pushChunk_eq sha256 (by rw [length_take]; omega)
    (by rw [length_take]; omega), bind_eq_ok]
  simp only [ht.pushChunkRoot_eq_ok sha256, and_assoc, exists_and_left, exists_eq_left]

/-- **Pushing slices** asks for a whole last chunk and for room for every slice. -/
theorem pushSlices_isOk_iff : (∃ t', pushSlices sha256 G t b = .ok t') ↔
    (b ≠ [] → t.lastChunkShort = false) ∧
      t.pushedChunkCount + divCeil b.length G.chunkSize ≤ G.maxDataTxChunks := by
  induction hm : b.length using Nat.strong_induction_on generalizing t b with
  | _ m ih =>
    subst hm
    have hcs := G.chunkSize_pos
    by_cases hb : b = []
    · subst hb
      have hcount := ht.count_le
      rw [hG] at hcount
      simp [pushSlices, divCeil_zero hcs, hcount]
    · have hpos := length_pos_iff.mpr hb
      have hstep := divCeil_sub_chunk (G := G) hpos
      have hlen : (b.take G.chunkSize).length = min G.chunkSize b.length := length_take
      have hdrop : (b.drop G.chunkSize).length = b.length - G.chunkSize := length_drop
      simp only [pushSlices_eq_ok sha256 hG ht hb, exists_and_left]
      constructor
      · intro h
        obtain ⟨hprep, hrest⟩ := h
        have hfits := ((ih (b.drop G.chunkSize).length (by omega) (t := t.fed sha256 _ _) hG
          (ht.fed sha256 hprep _) rfl).mp hrest).2
        rw [pushedChunkCount_fed, hdrop] at hfits
        exact ⟨fun _ => (preparePush_eq_ok.mp hprep).2.2.1, by omega⟩
      · intro h
        obtain ⟨hshort, hfits⟩ := h
        have hprep : t.preparePush (b.take G.chunkSize).length = .ok () := by
          rw [preparePush_eq_ok, hG]
          exact ⟨by omega, by omega, hshort hb, by omega⟩
        refine ⟨hprep, (ih (b.drop G.chunkSize).length (by omega) (t := t.fed sha256 _ _) hG
          (ht.fed sha256 hprep _) rfl).mpr ⟨?_, ?_⟩⟩
        · intro hmore
          have := length_pos_iff.mpr hmore
          exact decide_eq_false (by rw [hG]; omega)
        · rw [pushedChunkCount_fed, hdrop]
          omega

/-- Pushing the roots of the pieces from `i` on is pushing the slices from there. -/
theorem pushPieceRoots_eq (hlen : b.length < 2 ^ 64) (r i : ℕ)
    (hr : i + r = divCeil b.length G.chunkSize)
    (h : pushSlices sha256 G t (b.drop (i * G.chunkSize)) = .ok t') :
    (pushPieceRoots sha256 b.length G.chunkSize i
      ((List.range r).map fun m => chunkRootAt sha256 G b (i + m))).run t = (.ok (), t') := by
  have hcs := G.chunkSize_pos
  induction r generalizing i t with
  | zero =>
    have hall : b.length ≤ i * G.chunkSize := (divCeil_le_iff hcs).mp (by omega)
    rw [drop_eq_nil_of_le hall, pushSlices, dif_pos rfl] at h
    cases h
    rfl
  | succ r ih =>
    have hstart := Geometry.chunkStart_lt (G := G) (c := i) (n := b.length) (by omega)
    obtain ⟨hprep, hrest⟩ := (pushSlices_eq_ok sha256 hG ht
      (by rw [← length_pos_iff, length_drop]; omega)).mp h
    have hpush : t.pushChunkRoot sha256 (chunkRootAt sha256 G b i) (chunkAt G b i).length = .ok _ :=
      (ht.pushChunkRoot_eq_ok sha256).mpr ⟨hprep, rfl⟩
    rw [drop_drop, ← Nat.succ_mul] at hrest
    rw [range_succ_eq_map, map_cons, List.map_map, pushPieceRoots, pieceBounds_eq hlen (by omega),
      Mut.run_lift_ok_bind, Mut.run_read_bind,
      show min (i * G.chunkSize + G.chunkSize) b.length - i * G.chunkSize
        = (chunkAt G b i).length by rw [chunkAt_length]; omega,
      Nat.add_zero, expectOk_eq_ok.mpr hpush, Mut.run_lift_ok_bind, Mut.run_update_bind]
    rw [← ih (t := t.fed sha256 _ _) hG (ht.fed sha256 hprep _) (i + 1) (by omega) hrest]
    congr 3
    funext m
    rw [Function.comp, Nat.succ_eq_add_one, Nat.add_assoc, Nat.add_comm 1]

/-- **A batch is its slices pushed one at a time.** -/
theorem pushChunksParallel_eq (hb : b ≠ []) (hlen : b.length < 2 ^ 64)
    (h : pushSlices sha256 G t b = .ok t') :
    (pushChunksParallel sha256 b).run t = (.ok (), t') := by
  obtain ⟨hshort, hfits⟩ := (pushSlices_isOk_iff sha256 hG ht).mp ⟨t', h⟩
  subst hG
  have hvalid := (ht.validateChunkBatch_eq_ok hb hlen).mpr ⟨hshort hb, hfits, rfl⟩
  have hroots := hashChunkPieces_eq sha256 (G := t.geometry) hlen _ 0 (le_of_eq (Nat.zero_add _))
  rw [pushChunksParallel, Mut.run_read_bind, hvalid, Mut.run_lift_ok_bind, hroots,
    Mut.run_lift_ok_bind]
  exact pushPieceRoots_eq sha256 rfl ht hlen _ 0 (Nat.zero_add _) (by rwa [Nat.zero_mul, drop_zero])

end

end DataTree

namespace DataTreeBuilder

/-! ### The builder fed `d` -/

theorem builderOf_sound (hmax : d.length ≤ G.maxDataSize) : (builderOf sha256 G d).Sound := by
  refine ⟨?_, ?_⟩
  · rw [pushedChunkCount_builderOf]
    exact Geometry.divCeil_le_maxDataTxChunks hmax
  · rw [pushedChunkCount_builderOf]
    exact (divCeil_le_iff G.chunkSize_pos).mp le_rfl

section

variable (hd : d.length % G.chunkSize = 0) (hpos : 0 < b.length) (hle : b.length ≤ G.chunkSize)
include hd hpos hle

theorem fed_builderOf : (builderOf sha256 G d).fed sha256
    (rootOf (node sha256) (segmentLeaves sha256 G b)) b.length = builderOf sha256 G (d ++ b) := by
  obtain ⟨k, hk⟩ := Nat.dvd_of_mod_eq_zero hd
  rw [Nat.mul_comm] at hk
  have hmod : (d ++ b).length % G.chunkSize = b.length % G.chunkSize := by
    rw [length_append, Nat.add_mod, hd, Nat.zero_add, Nat.mod_mod]
  -- the chunk is short exactly when the new size is not a whole number of chunks
  have hshort : decide (b.length < G.chunkSize) = decide ((d ++ b).length % G.chunkSize ≠ 0) := by
    rw [hmod, decide_eq_decide]
    rcases Nat.lt_or_eq_of_le hle with hlt | heq
    · rw [Nat.mod_eq_of_lt hlt]
      omega
    · rw [heq, Nat.mod_self]
      omega
  rw [fed, pushedChunkCount_builderOf, hk, divCeil_mul, pushNodeAt, take_zero, nil_append, drop_zero,
    builderOf, pushNode_streamLayers, ← chunkLeaves_append sha256 hk hpos hle, builderOf, hshort,
    length_append]

/-- **`push_chunk`** feeds its bytes. -/
theorem pushChunk_builderOf (hmax : d.length + b.length ≤ G.maxDataSize) :
    (builderOf sha256 G d).pushChunk sha256 b = .ok (builderOf sha256 G (d ++ b)) := by
  have hroom : divCeil d.length G.chunkSize < G.maxDataTxChunks := by
    obtain ⟨k, hk⟩ := Nat.dvd_of_mod_eq_zero hd
    have hall := Geometry.divCeil_le_maxDataTxChunks hmax
    rw [hk, Nat.mul_comm, divCeil_mul_add hpos hle] at hall
    rwa [hk, Nat.mul_comm, divCeil_mul]
  rw [pushChunk_eq sha256 hpos hle,
    (builderOf_sound sha256 (Nat.le_of_add_right_le hmax)).pushChunkRoot_eq_ok]
  refine ⟨preparePush_eq_ok.mpr ⟨hpos, hle, by simp [builderOf, hd], ?_⟩,
    (fed_builderOf sha256 hd hpos hle).symm⟩
  rwa [pushedChunkCount_builderOf]

end

/-! ### The finished tree -/

theorem chunkLeaves_ne_nil (hd : d ≠ []) : chunkLeaves sha256 G d ≠ [] := by
  rw [← length_pos_iff, chunkLeaves_length]
  exact divCeil_pos G.chunkSize_pos (length_pos_iff.mpr hd)

theorem carryOddTails_streamLayers {leaves : List Digest} (hne : leaves ≠ []) :
    carryOddTails sha256 (streamLayers (node sha256) leaves) = layersOf (node sha256) leaves := by
  apply carryTails_streamLayers (node sha256) _ _ hne
  rw [streamLayers_of_ne (node sha256) hne]
  simp only [flatten_cons, length_append, length_cons]
  omega

/-- **`finish`** returns the tree of what was fed. -/
theorem finish_builderOf (hd : d ≠ []) :
    (builderOf sha256 G d).finish sha256 = .ok (treeOf sha256 G d) := by
  have hne := chunkLeaves_ne_nil sha256 (G := G) hd
  have hpos := length_pos_iff.mpr hne
  rw [chunkLeaves_length] at hpos
  rw [finish, pushedChunkCount_builderOf, if_neg (by omega)]
  rw [builderOf, carryOddTails_streamLayers sha256 hne]
  rfl

end DataTreeBuilder

namespace DataTree

open DataTreeBuilder

theorem pushSlices_builderOf (hd : d.length % G.chunkSize = 0)
    (hmax : d.length + b.length ≤ G.maxDataSize) :
    pushSlices sha256 G (builderOf sha256 G d) b = .ok (builderOf sha256 G (d ++ b)) := by
  induction hm : b.length using Nat.strong_induction_on generalizing d b with
  | _ m ih =>
    subst hm
    rw [pushSlices]
    split
    · rename_i hnil
      rw [hnil, append_nil]
    · rename_i hne
      have hpos := length_pos_iff.mpr hne
      have hcs := G.chunkSize_pos
      have hlen : (b.take G.chunkSize).length = min G.chunkSize b.length := length_take
      rw [pushChunk_builderOf sha256 hd (by omega) (by omega) (by omega), ok_bind]
      rcases Nat.lt_or_ge b.length G.chunkSize with hlt | hge
      · -- a short slice is the last one
        rw [drop_eq_nil_of_le hlt.le, take_of_length_le hlt.le, pushSlices, dif_pos rfl]
      · have hwhole : (d ++ b.take G.chunkSize).length % G.chunkSize = 0 := by
          rw [length_append, hlen, min_eq_left hge, Nat.add_mod_right]
          exact hd
        have hdrop : (b.drop G.chunkSize).length = b.length - G.chunkSize := length_drop
        have hfits : (d ++ b.take G.chunkSize).length + (b.drop G.chunkSize).length
            ≤ G.maxDataSize := by
          rw [length_append]
          omega
        rw [ih (b.drop G.chunkSize).length (by omega) hwhole hfits rfl, append_assoc,
          take_append_drop]

/-- **`push_chunks_parallel`** feeds its bytes. -/
theorem pushChunksParallel_builderOf (hd : d.length % G.chunkSize = 0) (hb : b ≠ [])
    (hmax : d.length + b.length ≤ G.maxDataSize) :
    (pushChunksParallel sha256 b).exec (builderOf sha256 G d) =
      .ok (builderOf sha256 G (d ++ b)) := by
  have hbound := G.maxDataSize_lt
  exact Mut.exec_of_ok <| pushChunksParallel_eq sha256 rfl
    (builderOf_sound sha256 (Nat.le_of_add_right_le hmax)) hb (by omega) (pushSlices_builderOf sha256 hd hmax)

/-- **`from_bytes`** builds the tree of its data. -/
theorem fromBytes_eq (hd : d ≠ []) (hmax : d.length ≤ G.maxDataSize) :
    fromBytes sha256 G d = .ok (treeOf sha256 G d) := by
  have hpush := pushChunksParallel_builderOf sha256 (G := G) (d := []) (Nat.zero_mod _) hd
    (by simpa using hmax)
  rw [builderOf_nil, nil_append] at hpush
  rw [fromBytes, if_neg hd, hpush, ok_bind, finish_builderOf sha256 hd]

/-- **`from_bytes`** without the feature `parallel` builds the same tree. -/
theorem fromBytesSequential_eq (hd : d ≠ []) (hmax : d.length ≤ G.maxDataSize) :
    fromBytesSequential sha256 G d = .ok (treeOf sha256 G d) := by
  have hpush := pushSlices_builderOf sha256 (G := G) (d := []) (b := d) (Nat.zero_mod _)
    (by simpa using hmax)
  rw [builderOf_nil, nil_append] at hpush
  rw [fromBytesSequential, if_neg hd, hpush, ok_bind, finish_builderOf sha256 hd]

end DataTree

end Irys.Tree
