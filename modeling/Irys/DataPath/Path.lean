import Irys.DataTree.Hash
import Irys.Merkle.Routed

/-!
# Data paths of the first tree format

A data path proves that a chunk stands at some bytes of a transaction's data.  It is a byte string:
the branches from the root down, 96 bytes each, then the leaf, 64 bytes.  Offsets are the last
eight bytes of 32-byte notes; the leading 24 bytes of a note are never read.

* `ensureProofLayout`, `validatePath` — the check of a path against a root and a target byte;
* `expectedChunkByteRange`, `validatePathByteRange`, `validateUnpackedChunk` — the check of a chunk;
* `pathHash`, `routeOf` — the routed tree that the bytes describe;
* `data_paths_bind` — a root binds its rightmost leaf and the bytes of every chunk, however it was
  made.
-/

namespace Irys.DataPath

open List

open Irys.Tree (Bytes Digest hashSize HashInjOn)

open Irys.Merkle (RouteBranch Route RouteHash Descends lowerBound rightmost)

open Irys.Merkle.RouteTree (towards)

/-! ### Notes and hashes -/

/-- Width of a note. -/
def noteSize : ℕ := 32

def leafProofLen : ℕ := hashSize + noteSize

def branchProofLen : ℕ := hashSize * 2 + noteSize

def toNoteVec (n : ℕ) : Bytes := List.replicate (noteSize - 8) 0 ++ be 8 n

/-- `hash_all_sha256`: the hash of the messages' hashes. -/
def hashAllSha256 (sha256 : Bytes → Digest) (messages : List Bytes) : Digest :=
  sha256 (messages.flatMap fun m => (sha256 m).bytes)

/-! ### Parsing -/

structure LeafProof where
  dataHash : Digest
  notepad : Bytes
  offsetBytes : Bytes

structure BranchProof where
  leftId : Digest
  rightId : Digest
  notepad : Bytes
  offsetBytes : Bytes

def LeafProof.offset (p : LeafProof) : ℕ := fromBe p.offsetBytes

def BranchProof.offset (p : BranchProof) : ℕ := fromBe p.offsetBytes

/-- `LeafProof::try_from_proof_slice`: the fields have fixed widths and fill the slice. -/
def LeafProof.tryFromProofSlice (slice : Bytes) : Option LeafProof :=
  if h : slice.length = leafProofLen then
    some ⟨⟨slice.take 32, by rw [length_take, h]; rfl⟩, (slice.drop 32).take 24,
      slice.drop 56⟩
  else none

def BranchProof.tryFromProofSlice (slice : Bytes) : Option BranchProof :=
  if h : slice.length = branchProofLen then
    some ⟨⟨slice.take 32, by rw [length_take, h]; rfl⟩,
      ⟨(slice.drop 32).take 32, by rw [length_take, length_drop, h]; rfl⟩,
      (slice.drop 64).take 24, slice.drop 88⟩
  else none

/-- `slice::chunks`, for a slice of `count` whole chunks. -/
def chunks (width : ℕ) : (count : ℕ) → Bytes → List Bytes
  | 0, _ => []
  | count + 1, bytes => bytes.take width :: chunks width count (bytes.drop width)

/-- Why a path was refused. -/
inductive PathError where
  | tooShort
  | misalignedBranches
  | malformedProof
  | invalidBranchProof
  | leafHashMismatch (expected got : Digest)
  | targetOutOfBounds
  deriving DecidableEq

/-- `ensure_proof_layout`: the length of the branch section. -/
def ensureProofLayout (path : Bytes) : Res PathError ℕ :=
  match checkedSub path.length leafProofLen with
  | none => fail .tooShort
  | some branchesLen =>
    if branchesLen % branchProofLen = 0 then .ok branchesLen else fail .misalignedBranches

/-! ### Validating a path -/

structure ValidatePathResult where
  leafHash : Digest
  minByteRange : ℕ
  maxByteRange : ℕ
  isRightmostChunk : Bool
  deriving DecidableEq

/-- The loop's variables. -/
structure PathState where
  expectedPathHash : Digest
  minByteRange : ℕ
  isRightmostChunk : Bool

section Validate

variable (sha256 : Bytes → Digest)

/-- One branch of `validate_path`. -/
def validateBranch (target : ℕ) (st : PathState) (p : BranchProof) : Res PathError PathState :=
  if hashAllSha256 sha256 [p.leftId.bytes, p.rightId.bytes, toNoteVec p.offset]
      ≠ st.expectedPathHash then
    fail .invalidBranchProof
  else if p.offset ≤ target then
    .ok { st with expectedPathHash := p.rightId, minByteRange := p.offset }
  else
    .ok { st with expectedPathHash := p.leftId, isRightmostChunk := false }

/-- The leaf of `validate_path`. -/
def validateLeaf (target : ℕ) (p : LeafProof) (st : PathState) :
    Res PathError ValidatePathResult :=
  if hashAllSha256 sha256 [p.dataHash.bytes, toNoteVec p.offset] ≠ st.expectedPathHash then
    fail (.leafHashMismatch st.expectedPathHash p.dataHash)
  else if st.minByteRange ≤ target ∧ target ≤ p.offset then
    .ok ⟨p.dataHash, st.minByteRange, p.offset, st.isRightmostChunk⟩
  else fail .targetOutOfBounds

/-- Read the slice or refuse the proof. -/
def parsed {α : Type} : Option α → Res PathError α
  | some a => .ok a
  | none => fail .malformedProof

def validatePath (root : Digest) (path : Bytes) (target : ℕ) :
    Res PathError ValidatePathResult := do
  let branchesLen ← ensureProofLayout path
  let branches := path.take branchesLen
  let leaf := path.drop branchesLen
  let branchProofs ← (chunks branchProofLen (branchesLen / branchProofLen) branches).mapM
    fun c => parsed (BranchProof.tryFromProofSlice c)
  let leafProof ← parsed (LeafProof.tryFromProofSlice leaf)
  let st ← branchProofs.foldlM (validateBranch sha256 target) ⟨root, 0, true⟩
  validateLeaf sha256 target leafProof st

/-! ### Validating a chunk -/

/-- Why a chunk was refused. -/
inductive ChunkError where
  | zeroDataSize
  | zeroChunkSize
  | byteRangeOverflow
  | pastDataSize
  | path (e : PathError)
  | chunkLength (got expected : ℕ)
  | boundaryExceedsU64
  | byteRange (actual expected : ℕ × ℕ)
  | leafHash
  deriving DecidableEq

structure UnpackedChunk where
  dataRoot : Digest
  dataSize : ℕ
  dataPath : Bytes
  bytes : Bytes
  txOffset : ℕ

def expectedChunkByteRange (txOffset dataSize chunkSize : ℕ) : Res ChunkError (ℕ × ℕ) :=
  if dataSize = 0 then fail .zeroDataSize
  else if chunkSize = 0 then fail .zeroChunkSize
  else
    match checkedMul 64 txOffset chunkSize with
    | none => fail .byteRangeOverflow
    | some low =>
      if dataSize ≤ low then fail .pastDataSize
      else
        match checkedAdd 64 low chunkSize with
        | none => fail .byteRangeOverflow
        | some high => .ok (low, min high dataSize)

def validatePathByteRange (path : ValidatePathResult) (expected : ℕ × ℕ) : Res ChunkError Unit :=
  if 2 ^ 64 ≤ path.minByteRange ∨ 2 ^ 64 ≤ path.maxByteRange then fail .boundaryExceedsU64
  else if (path.minByteRange, path.maxByteRange) = expected then .ok ()
  else fail (.byteRange (path.minByteRange, path.maxByteRange) expected)

def validateUnpackedChunk (chunk : UnpackedChunk) (chunkSize : ℕ) : Res ChunkError Unit := do
  let range ← expectedChunkByteRange chunk.txOffset chunk.dataSize chunkSize
  let path ← mapErr .path (validatePath sha256 chunk.dataRoot chunk.dataPath (range.2 - 1))
  if chunk.bytes.length ≠ range.2 - range.1 then
    fail (.chunkLength chunk.bytes.length (range.2 - range.1))
  else do
    validatePathByteRange path range
    if path.leafHash ≠ sha256 chunk.bytes then fail .leafHash else .ok ()

end Validate

/-! ### The route that the bytes describe -/

/-- A branch without its notepad. -/
def BranchProof.branch (p : BranchProof) : RouteBranch Digest ℕ := ⟨p.leftId, p.rightId, p.offset⟩

/-- A path read into its fields. -/
structure ParsedPath where
  branches : List BranchProof
  leaf : LeafProof

/-- Read a path of the right layout. -/
def readPath (path : Bytes) : Option ParsedPath := do
  let branchesLen ← (ensureProofLayout path).toOption
  let branches ← (chunks branchProofLen (branchesLen / branchProofLen)
    (path.take branchesLen)).mapM BranchProof.tryFromProofSlice
  let leaf ← LeafProof.tryFromProofSlice (path.drop branchesLen)
  return ⟨branches, leaf⟩

/-- The route that the fields describe; the notepads are not part of it. -/
def ParsedPath.route (p : ParsedPath) : Route Digest Digest ℕ :=
  ⟨p.branches.map BranchProof.branch, p.leaf.dataHash, p.leaf.offset⟩

/-- How branches and leaves are hashed. -/
def pathHash (sha256 : Bytes → Digest) : RouteHash Digest Digest ℕ where
  branchId b := hashAllSha256 sha256 [b.left.bytes, b.right.bytes, toNoteVec b.pivot]
  leafId dataHash offset := hashAllSha256 sha256 [dataHash.bytes, toNoteVec offset]

section Spec

variable {sha256 : Bytes → Digest}

variable {α : Type} {target : ℕ} {st : PathState} {p : BranchProof}

theorem parsed_eq_ok {o : Option α} {a : α} : parsed o = .ok a ↔ o = some a := by
  cases o <;> simp [parsed]

variable {β : Type} {path : Bytes} {r : ValidatePathResult}

theorem mapM_parsed {f : α → Option β} {l : List α} :
    l.mapM (fun a => parsed (f a)) = parsed (l.mapM f) := by
  induction l with
  | nil => rfl
  | cons a l ih =>
    rw [mapM_cons, mapM_cons, ih]
    cases f a with
    | none => rfl
    | some b => cases l.mapM f <;> rfl

theorem mapM_eq_some_iff {f : α → Option β} {l : List α} {bs : List β} :
    l.mapM f = some bs ↔ List.Forall₂ (fun a b => f a = some b) l bs := by
  induction l generalizing bs with
  | nil =>
    rw [mapM_nil, forall₂_nil_left_iff, eq_comm]
    exact .of_eq (Option.some.injEq _ _)
  | cons a l ih =>
    simp only [mapM_cons, Option.bind_eq_bind, Option.bind_eq_some_iff, forall₂_cons_left_iff, ih,
      exists_and_left, pure, Option.some.injEq, eq_comm (b := bs)]

theorem readPath_eq_some {p : ParsedPath} :
    readPath path = some p ↔ ∃ n, ensureProofLayout path = .ok n ∧
      (chunks branchProofLen (n / branchProofLen) (path.take n)).mapM
        BranchProof.tryFromProofSlice = some p.branches ∧
      LeafProof.tryFromProofSlice (path.drop n) = some p.leaf := by
  rw [readPath]
  cases hlayout : ensureProofLayout path with
  | error e => simp [Except.toOption]
  | ok n =>
    cases p
    simp [Except.toOption, Option.bind_eq_some_iff]

theorem validateBranch_of_ne (hid : (pathHash sha256).branchId p.branch ≠ st.expectedPathHash) :
    validateBranch sha256 target st p = fail .invalidBranchProof :=
  if_pos hid

section

variable (hid : (pathHash sha256).branchId p.branch = st.expectedPathHash)
include hid

theorem validateBranch_right
    (hgo : p.offset ≤ target) :
    validateBranch sha256 target st p =
      .ok { st with expectedPathHash := p.rightId, minByteRange := p.offset } :=
  (if_neg (not_not.mpr hid)).trans (if_pos hgo)

theorem validateBranch_left
    (hgo : ¬ p.offset ≤ target) :
    validateBranch sha256 target st p =
      .ok { st with expectedPathHash := p.leftId, isRightmostChunk := false } :=
  (if_neg (not_not.mpr hid)).trans (if_neg hgo)

end

/-- **The loop and the leaf check, as a descent.** -/
theorem foldlM_validateBranch_eq_ok {leaf : LeafProof} {branches : List BranchProof} :
    (branches.foldlM (validateBranch sha256 target) st >>= validateLeaf sha256 target leaf) = .ok r ↔
      Descends (pathHash sha256) (towards target) st.expectedPathHash
        (branches.map BranchProof.branch) leaf.dataHash leaf.offset ∧
      lowerBound (towards target) st.minByteRange (branches.map BranchProof.branch) ≤ target ∧
      target ≤ leaf.offset ∧
      r = ⟨leaf.dataHash,
        lowerBound (towards target) st.minByteRange (branches.map BranchProof.branch), leaf.offset,
        st.isRightmostChunk && rightmost (towards target) (branches.map BranchProof.branch)⟩ := by
  induction branches generalizing st with
  | nil =>
    rw [foldlM_nil, pure_bind, validateLeaf, fail_ite_eq_ok, ite_fail_eq_ok, not_not, and_assoc,
      Except.ok.injEq, eq_comm (b := r), map_nil, rightmost, all_nil, Bool.and_true]
    rfl
  | cons p branches ih =>
    rw [foldlM_cons, bind_assoc, map_cons, rightmost, all_cons, lowerBound, foldl_cons]
    show _ ↔ ((pathHash sha256).branchId p.branch = st.expectedPathHash ∧ _) ∧ _
    by_cases hid : (pathHash sha256).branchId p.branch = st.expectedPathHash
    · by_cases hgo : p.offset ≤ target
      · have hpivot : towards target p.branch.pivot = true := decide_eq_true hgo
        rw [validateBranch_right hid hgo, ok_bind, ih, hpivot, RouteBranch.child, if_pos hpivot,
          Bool.true_and]
        simp only [hid, true_and, if_true]
        rfl
      · have hpivot : towards target p.branch.pivot = false := decide_eq_false hgo
        rw [validateBranch_left hid hgo, ok_bind, ih, hpivot, RouteBranch.child,
          if_neg (by simp [hpivot])]
        simp only [hid, true_and, Bool.false_eq_true, if_false, Bool.false_and, Bool.and_false]
        rfl
    · rw [validateBranch_of_ne hid, fail_bind]
      exact ⟨fun h => absurd h (fail_ne_ok _ _), fun h => absurd h.1.1 hid⟩

/-- **What acceptance says.**  The path reads as a route whose ids match from the root down, the
target is in the leaf's range, and the result describes the leaf. -/
theorem validatePath_eq_ok {root : Digest} :
    validatePath sha256 root path target = .ok r ↔
      ∃ p, readPath path = some p ∧
        Descends (pathHash sha256) (towards target) root p.route.branches p.route.value
          p.route.bound ∧
        lowerBound (towards target) 0 p.route.branches ≤ target ∧ target ≤ p.route.bound ∧
        r = ⟨p.route.value, lowerBound (towards target) 0 p.route.branches, p.route.bound,
          rightmost (towards target) p.route.branches⟩ := by
  constructor
  · intro h
    obtain ⟨n, hn, h⟩ := bind_eq_ok.mp h
    obtain ⟨bs, hbs, h⟩ := bind_eq_ok.mp h
    obtain ⟨l, hl, h⟩ := bind_eq_ok.mp h
    rw [mapM_parsed, parsed_eq_ok] at hbs
    obtain ⟨hdesc, hlow, hhigh, hr⟩ := foldlM_validateBranch_eq_ok.mp h
    refine ⟨⟨bs, l⟩, readPath_eq_some.mpr ⟨n, hn, hbs, parsed_eq_ok.mp hl⟩, hdesc, hlow, hhigh, ?_⟩
    rw [hr, Bool.true_and]
    rfl
  · rintro ⟨p, hp, hdesc, hlow, hhigh, hr⟩
    obtain ⟨n, hn, hbs, hl⟩ := readPath_eq_some.mp hp
    simp only [validatePath, hn, ok_bind, mapM_parsed, hbs, hl]
    refine foldlM_validateBranch_eq_ok.mpr ⟨hdesc, hlow, hhigh, ?_⟩
    rw [hr, Bool.true_and]
    rfl

end Spec

/-! ### Hashed strings -/

section Binding

variable (sha256 : Bytes → Digest)

/-- Hashed for a node with these parts: the parts, and the string of their hashes. -/
def nodeStrings (parts : List Bytes) : List Bytes :=
  (parts.flatMap fun m => (sha256 m).bytes) :: parts

/-- Hashed for a branch. -/
def branchStrings (b : RouteBranch Digest ℕ) : List Bytes :=
  nodeStrings sha256 [b.left.bytes, b.right.bytes, toNoteVec b.pivot]

/-- Hashed for a leaf. -/
def leafStrings (dataHash : Digest) (offset : ℕ) : List Bytes :=
  nodeStrings sha256 [dataHash.bytes, toNoteVec offset]

/-- Hashed along a route. -/
def routeStrings (r : Route Digest Digest ℕ) : List Bytes :=
  r.branches.flatMap (branchStrings sha256) ++ leafStrings sha256 r.value r.bound

/-- Hashed by `validate_path` at most. -/
def pathStrings (path : Bytes) : List Bytes :=
  match readPath path with
  | some p => routeStrings sha256 p.route
  | none => []

/-- The branches whose strings are in `S`, with machine-word pivots. -/
def hashedBranches (S : List Bytes) : Set (RouteBranch Digest ℕ) :=
  {b | branchStrings sha256 b ⊆ S ∧ b.pivot < 2 ^ 64}

/-- The leaves whose strings are in `S`, with machine-word bounds. -/
def hashedLeaves (S : List Bytes) : Set (Digest × ℕ) :=
  {l | leafStrings sha256 l.1 l.2 ⊆ S ∧ l.2 < 2 ^ 64}

variable {sha256} {S : List Bytes}

@[simp] theorem toNoteVec_length (n : ℕ) : (toNoteVec n).length = 32 := by
  simp [toNoteVec, noteSize]

theorem toNoteVec_inj {m n : ℕ} (hm : m < 2 ^ 64) (hn : n < 2 ^ 64)
    (h : toNoteVec m = toNoteVec n) : m = n :=
  be_inj (w := 8) (by simpa using hm) (by simpa using hn) (append_cancel_left h)

variable {parts parts' : List Bytes} {slice path' : Bytes} {p : ParsedPath} {root : Digest}

theorem parts_eq_of_hashes_eq (h : HashInjOn sha256 S)
    (hp : parts ⊆ S) (hp' : parts' ⊆ S)
    (heq : (parts.flatMap fun m => (sha256 m).bytes) = parts'.flatMap fun m => (sha256 m).bytes) :
    parts = parts' := by
  induction parts generalizing parts' with
  | nil =>
    cases parts' with
    | nil => rfl
    | cons m' parts' =>
      have hlen := congrArg List.length heq
      rw [flatMap_nil, flatMap_cons, length_append, (sha256 m').size_eq,
        length_nil, hashSize] at hlen
      omega
  | cons m parts ih =>
    cases parts' with
    | nil =>
      have hlen := congrArg List.length heq
      rw [flatMap_nil, flatMap_cons, length_append, (sha256 m).size_eq,
        length_nil, hashSize] at hlen
      omega
    | cons m' parts' =>
      rw [flatMap_cons, flatMap_cons] at heq
      obtain ⟨hm, hrest⟩ := append_inj heq (by rw [(sha256 m).size_eq, (sha256 m').size_eq])
      rw [h m (hp mem_cons_self) m' (hp' mem_cons_self) (Digest.ext hm),
        ih (fun x hx => hp (mem_cons_of_mem _ hx)) (fun x hx => hp' (mem_cons_of_mem _ hx)) hrest]

theorem parts_eq_of_hashAll_eq (h : HashInjOn sha256 S)
    (hp : nodeStrings sha256 parts ⊆ S) (hp' : nodeStrings sha256 parts' ⊆ S)
    (heq : hashAllSha256 sha256 parts = hashAllSha256 sha256 parts') : parts = parts' :=
  parts_eq_of_hashes_eq h (fun _ hx => hp (mem_cons_of_mem _ hx))
    (fun _ hx => hp' (mem_cons_of_mem _ hx))
    (h _ (hp mem_cons_self) _ (hp' mem_cons_self) heq)

/-- **Branches and leaves bind on hashed strings.**  A branch has three parts and a leaf two. -/
theorem pathHash_bindsOn (h : HashInjOn sha256 S) :
    (pathHash sha256).BindsOn (hashedBranches sha256 S) (hashedLeaves sha256 S) where
  branch b hb b' hb' heq := by
    have hparts := parts_eq_of_hashAll_eq h hb.1 hb'.1 heq
    simp only [List.cons.injEq, and_true] at hparts
    exact RouteBranch.ext (Digest.ext hparts.1) (Digest.ext hparts.2.1)
      (toNoteVec_inj hb.2 hb'.2 hparts.2.2)
  leaf l hl l' hl' heq := by
    have hparts := parts_eq_of_hashAll_eq h hl.1 hl'.1 heq
    simp only [List.cons.injEq, and_true] at hparts
    exact Prod.ext (Digest.ext hparts.1) (toNoteVec_inj hl.2 hl'.2 hparts.2)
  apart b hb l hl heq := by
    have hparts := parts_eq_of_hashAll_eq h hb.1 hl.1 heq
    simp at hparts

theorem BranchProof.offset_lt {p : BranchProof}
    (h : BranchProof.tryFromProofSlice slice = some p) : p.offset < 2 ^ 64 := by
  obtain ⟨hlen, ⟨⟩⟩ := Option.dite_none_right_eq_some.mp h
  have hlt := fromBe_lt (slice.drop 88)
  rw [length_drop, hlen] at hlt
  simpa [branchProofLen, hashSize, noteSize, BranchProof.offset] using hlt

theorem LeafProof.offset_lt {p : LeafProof}
    (h : LeafProof.tryFromProofSlice slice = some p) : p.offset < 2 ^ 64 := by
  obtain ⟨hlen, ⟨⟩⟩ := Option.dite_none_right_eq_some.mp h
  have hlt := fromBe_lt (slice.drop 56)
  rw [length_drop, hlen] at hlt
  simpa [leafProofLen, hashSize, noteSize, LeafProof.offset] using hlt

variable {path : Bytes}

theorem route_hashed (hread : readPath path = some p)
    (hS : pathStrings sha256 path ⊆ S) :
    (∀ b ∈ p.route.branches, b ∈ hashedBranches sha256 S) ∧
      (p.route.value, p.route.bound) ∈ hashedLeaves sha256 S := by
  rw [pathStrings, hread] at hS
  obtain ⟨n, -, hbs, hl⟩ := readPath_eq_some.mp hread
  constructor
  · intro b hb
    refine ⟨fun x hx => hS (mem_append_left _ (mem_flatMap.mpr ⟨b, hb, hx⟩)), ?_⟩
    obtain ⟨proof, hproof, rfl⟩ := List.mem_map.mp hb
    obtain ⟨i, hi, rfl⟩ := getElem_of_mem hproof
    have hslices := mapM_eq_some_iff.mp hbs
    exact BranchProof.offset_lt (hslices.get (hslices.length_eq ▸ hi) hi)
  · exact ⟨fun x hx => hS (mem_append_right _ hx), LeafProof.offset_lt hl⟩

/-- **Two accepted paths that route alike are one route.** -/
theorem validatePath_unique (hinj : HashInjOn sha256 S)
    {p' : ParsedPath} (hread : readPath path = some p) (hread' : readPath path' = some p')
    (hS : pathStrings sha256 path ⊆ S) (hS' : pathStrings sha256 path' ⊆ S) {goesRight : ℕ → Bool}
    (h : Descends (pathHash sha256) goesRight root p.route.branches p.route.value p.route.bound)
    (h' : Descends (pathHash sha256) goesRight root p'.route.branches p'.route.value p'.route.bound) :
    p.route = p'.route := by
  obtain ⟨hbs, hl⟩ := route_hashed hread hS
  obtain ⟨hbs', hl'⟩ := route_hashed hread' hS'
  obtain ⟨h₁, h₂, h₃⟩ := h.unique (pathHash_bindsOn hinj) h' hbs hbs' hl hl'
  exact Route.ext h₁ h₂ h₃

theorem rightmost_binds {target target' : ℕ}
    {r r' : ValidatePathResult}
    (hinj : HashInjOn sha256 (pathStrings sha256 path ++ pathStrings sha256 path'))
    (h : validatePath sha256 root path target = .ok r)
    (h' : validatePath sha256 root path' target' = .ok r') (hr : r.isRightmostChunk = true)
    (hr' : r'.isRightmostChunk = true) :
    r.leafHash = r'.leafHash ∧ r.minByteRange = r'.minByteRange ∧
      r.maxByteRange = r'.maxByteRange := by
  obtain ⟨p, hread, hdesc, -, -, rfl⟩ := validatePath_eq_ok.mp h
  obtain ⟨p', hread', hdesc', -, -, rfl⟩ := validatePath_eq_ok.mp h'
  have hroute := validatePath_unique hinj hread hread' (subset_append_left _ _)
    (subset_append_right _ _) (hdesc.of_rightmost hr) (hdesc'.of_rightmost hr')
  refine ⟨congrArg Route.value hroute, ?_, congrArg Route.bound hroute⟩
  show lowerBound (towards target) 0 p.route.branches = lowerBound (towards target') 0 _
  rw [Merkle.lowerBound_of_rightmost hr, Merkle.lowerBound_of_rightmost hr', hroute]

theorem chunk_binds {chunk chunk' : UnpackedChunk} {chunkSize : ℕ}
    (hroot : chunk.dataRoot = chunk'.dataRoot) (hsize : chunk.dataSize = chunk'.dataSize)
    (hoffset : chunk.txOffset = chunk'.txOffset)
    (hinj : HashInjOn sha256 (pathStrings sha256 chunk.dataPath
      ++ pathStrings sha256 chunk'.dataPath ++ [chunk.bytes, chunk'.bytes]))
    (h : validateUnpackedChunk sha256 chunk chunkSize = .ok ())
    (h' : validateUnpackedChunk sha256 chunk' chunkSize = .ok ()) : chunk.bytes = chunk'.bytes := by
  -- what acceptance leaves: a leaf reached by the same target, with the hash of the bytes
  have hleaf : ∀ c : UnpackedChunk, validateUnpackedChunk sha256 c chunkSize = .ok () →
      ∃ range path, expectedChunkByteRange c.txOffset c.dataSize chunkSize = .ok range ∧
        validatePath sha256 c.dataRoot c.dataPath (range.2 - 1) = .ok path ∧
        path.leafHash = sha256 c.bytes := by
    intro c hc
    obtain ⟨range, hrange, hc⟩ := bind_eq_ok.mp hc
    obtain ⟨path, hpath, hc⟩ := bind_eq_ok.mp hc
    obtain ⟨-, -, hc⟩ := bind_eq_ok.mp (fail_ite_eq_ok.mp hc).2
    exact ⟨range, path, hrange, mapErr_eq_ok.mp hpath, not_not.mp (fail_ite_eq_ok.mp hc).1⟩
  obtain ⟨range, path, hrange, hpath, hhash⟩ := hleaf chunk h
  obtain ⟨range', path', hrange', hpath', hhash'⟩ := hleaf chunk' h'
  rw [hsize, hoffset, hrange', Except.ok.injEq] at hrange
  rw [← hrange, hroot] at hpath
  obtain ⟨p, hread, hdesc, -, -, rfl⟩ := validatePath_eq_ok.mp hpath
  obtain ⟨p', hread', hdesc', -, -, rfl⟩ := validatePath_eq_ok.mp hpath'
  have hroute := validatePath_unique hinj hread hread'
    (fun x hx => mem_append_left _ (mem_append_left _ hx))
    (fun x hx => mem_append_left _ (mem_append_right _ hx)) hdesc hdesc'
  refine hinj _ (by simp) _ (by simp) ?_
  rw [← hhash, ← hhash', hroute]

end Binding

/-- **A root binds.**  Whatever tree a root stands for, honest or not: any two accepted paths to its
rightmost leaf agree on the leaf's hash and byte range, and at one place of one data size at most
one byte string passes as the chunk. -/
theorem data_paths_bind (sha256 : Bytes → Digest) (root : Digest) :
    (∀ path path' target target' r r',
      HashInjOn sha256 (pathStrings sha256 path ++ pathStrings sha256 path') →
      validatePath sha256 root path target = .ok r →
      validatePath sha256 root path' target' = .ok r' →
      r.isRightmostChunk = true → r'.isRightmostChunk = true →
      r.leafHash = r'.leafHash ∧ r.minByteRange = r'.minByteRange ∧
        r.maxByteRange = r'.maxByteRange) ∧
    ∀ dataSize txOffset chunkSize path path' bytes bytes',
      HashInjOn sha256 (pathStrings sha256 path ++ pathStrings sha256 path' ++ [bytes, bytes']) →
      validateUnpackedChunk sha256 ⟨root, dataSize, path, bytes, txOffset⟩ chunkSize = .ok () →
      validateUnpackedChunk sha256 ⟨root, dataSize, path', bytes', txOffset⟩ chunkSize = .ok () →
      bytes = bytes' :=
  ⟨fun _ _ _ _ _ _ hinj h h' hr hr' => rightmost_binds hinj h h' hr hr',
    fun dataSize txOffset chunkSize path path' bytes bytes' hinj h h' =>
      @chunk_binds sha256 ⟨root, dataSize, path, bytes, txOffset⟩
        ⟨root, dataSize, path', bytes', txOffset⟩ chunkSize rfl rfl rfl hinj h h'⟩

/-! ### Roots over one leaf -/

/-- The leaf of the chunk `[3]`, over the byte from 2 to 3. -/
def lastLeaf : Digest :=
  hashAllSha256 Tree.Sha256.hash [(Tree.Sha256.hash [3]).bytes, toNoteVec 3]

/-- A root with that leaf on the right. -/
def rootOver (left : Digest) : Digest :=
  hashAllSha256 Tree.Sha256.hash [left.bytes, lastLeaf.bytes, toNoteVec 2]

/-- The path to the leaf, with notepads of `pad` bytes. -/
def pathOver (left : Digest) (pad : UInt8) : Bytes :=
  left.bytes ++ lastLeaf.bytes ++ (List.replicate 24 pad ++ be 8 2)
    ++ ((Tree.Sha256.hash [3]).bytes ++ (List.replicate 24 pad ++ be 8 3))

/-- The leaf of the chunk `[1, 2]`. -/
def firstLeaf : Digest :=
  hashAllSha256 Tree.Sha256.hash [(Tree.Sha256.hash [1, 2]).bytes, toNoteVec 2]

/-- The left child of a root that is not built from leaves. -/
def forgedLeft : Digest := Tree.Sha256.hash []

/-- The strings of two paths to the leaf, and its chunk. -/
def stringsOver (left : Digest) : List Bytes :=
  pathStrings Tree.Sha256.hash (pathOver left 0) ++ pathStrings Tree.Sha256.hash (pathOver left 7)
    ++ [[3], [3]]

theorem stringsOver_injOn {left : Digest} (hleft : left ∈ [firstLeaf, forgedLeft]) :
    HashInjOn Tree.Sha256.hash (stringsOver left) := by
  have hinj : HashInjOn Tree.Sha256.hash ([firstLeaf, forgedLeft].flatMap stringsOver).dedup := by
    apply HashInjOn.of_nodup fun d => fromBe (d.bytes.take 4)
    decide +kernel
  exact hinj.mono fun _ hx => mem_dedup.mpr (mem_flatMap.mpr ⟨left, hleft, hx⟩)

/-- Two paths to the last leaf of an honest tree, and two chunks under a forged root. -/
theorem data_paths_bind_last_leaf :
    (∃ r r', validatePath Tree.Sha256.hash (rootOver firstLeaf) (pathOver firstLeaf 0) 2 = .ok r ∧
      validatePath Tree.Sha256.hash (rootOver firstLeaf) (pathOver firstLeaf 7) 3 = .ok r' ∧
      r.leafHash = r'.leafHash ∧ r.minByteRange = r'.minByteRange ∧
      r.maxByteRange = r'.maxByteRange) ∧
    ∃ chunk chunk', validateUnpackedChunk Tree.Sha256.hash
        ⟨rootOver forgedLeft, 3, pathOver forgedLeft 0, chunk, 1⟩ 2 = .ok () ∧
      validateUnpackedChunk Tree.Sha256.hash
        ⟨rootOver forgedLeft, 3, pathOver forgedLeft 7, chunk', 1⟩ 2 = .ok () ∧
      chunk = chunk' := by
  constructor
  · have hr : validatePath Tree.Sha256.hash (rootOver firstLeaf) (pathOver firstLeaf 0) 2
        = .ok ⟨Tree.Sha256.hash [3], 2, 3, true⟩ := by decide +kernel
    have hr' : validatePath Tree.Sha256.hash (rootOver firstLeaf) (pathOver firstLeaf 7) 3
        = .ok ⟨Tree.Sha256.hash [3], 2, 3, true⟩ := by decide +kernel
    exact ⟨_, _, hr, hr', (data_paths_bind Tree.Sha256.hash (rootOver firstLeaf)).1 _ _ _ _ _ _
      ((stringsOver_injOn mem_cons_self).mono (subset_append_left _ _)) hr hr' rfl rfl⟩
  · have hr : validateUnpackedChunk Tree.Sha256.hash
        ⟨rootOver forgedLeft, 3, pathOver forgedLeft 0, [3], 1⟩ 2 = .ok () := by decide +kernel
    have hr' : validateUnpackedChunk Tree.Sha256.hash
        ⟨rootOver forgedLeft, 3, pathOver forgedLeft 7, [3], 1⟩ 2 = .ok () := by decide +kernel
    exact ⟨_, _, hr, hr', (data_paths_bind Tree.Sha256.hash (rootOver forgedLeft)).2 _ _ _ _ _ _ _
      (stringsOver_injOn (mem_cons_of_mem _ mem_cons_self)) hr hr'⟩

end Irys.DataPath
