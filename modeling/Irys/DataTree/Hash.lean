import Irys.DataTree.Geometry
import Irys.Lib.Sha256

/-!
# Domain-separated hashing

`hash.rs` of the data tree.  SHA-256 is a parameter `sha256`; nothing here depends on how
it computes.  Every preimage is `preimage tag parts`, a tag byte and then the parts, so a
hashed string determines its tag, and, at fixed widths, its parts.

`HashInjOn sha256 strings` is the only assumption the security results make of SHA-256: it
does not collide **on the listed strings**, which are strings that the calls in question
really hash.  (Injectivity on all strings of even one shape is impossible: there are more
of them than digests.)
-/

namespace Irys.Tree

open List

open Irys

/-- A byte string. -/
abbrev Bytes := List UInt8

/-- SHA-256 digest width in bytes. -/
def hashSize : ℕ := 32

/-- A 32-byte hash: `NodeHash`, `DataTreeRoot`, `SizeWitness` and `DataCommitment` are
newtypes of it that differ in name only. -/
@[ext] structure Digest where
  bytes : Bytes
  size_eq : bytes.length = hashSize
  deriving DecidableEq

instance : Inhabited Digest := ⟨⟨List.replicate hashSize 0, length_replicate⟩⟩

/-- SHA-256 as the function from byte strings to digests that the source calls.  Only concrete
inputs use it; every result is about an arbitrary `sha256`. -/
def Sha256.hash (bytes : Bytes) : Digest := ⟨Irys.Sha256.digest bytes, Irys.Sha256.digest_length bytes⟩

inductive TreeDomainTag where
  | leaf
  | node
  | size
  | chunkKey
  | ticket
  | chunkIndex
  deriving DecidableEq

/-- The tag byte a variant hashes. -/
def TreeDomainTag.asByte : TreeDomainTag → UInt8
  | .leaf => 0x00
  | .node => 0x01
  | .size => 0x02
  | .chunkKey => 0x03
  | .ticket => 0x04
  | .chunkIndex => 0x08

/-- What one hasher is fed: the tag, then the parts in order. -/
def preimage (tag : TreeDomainTag) (parts : List Bytes) : Bytes := tag.asByte :: parts.flatten

/-- `0x00 ‖ bytes`. -/
def leafInput (bytes : Bytes) : Bytes := preimage .leaf [bytes]

/-- `0x01 ‖ left ‖ right`. -/
def nodeInput (left right : Digest) : Bytes := preimage .node [left.bytes, right.bytes]

/-- `0x02 ‖ be64(data_size) ‖ be64(chunk_size) ‖ be16(segments_per_chunk)`. -/
def sizeInput (G : Geometry) (dataSize : ℕ) : Bytes :=
  preimage .size [be 8 dataSize, be 8 G.chunkSize, be 2 G.segmentsPerChunk]

/-- `0x08 ‖ be32(c) ‖ R_c`. -/
def chunkLeafInput (chunkIndex : ℕ) (chunkRoot : Digest) : Bytes :=
  preimage .chunkIndex [be 4 chunkIndex, chunkRoot.bytes]

section Hash

variable (sha256 : Bytes → Digest)

/-- The hash of a segment at its exact length. -/
def leaf (bytes : Bytes) : Digest := sha256 (leafInput bytes)

/-- The hash of an internal node. -/
def node (left right : Digest) : Digest := sha256 (nodeInput left right)

/-- The size and geometry witness. -/
def sizeWitness (G : Geometry) (dataSize : ℕ) : Digest := sha256 (sizeInput G dataSize)

/-- The chunk-level leaf: the chunk root with its index. -/
def chunkLeaf (chunkIndex : ℕ) (chunkRoot : Digest) : Digest :=
  sha256 (chunkLeafInput chunkIndex chunkRoot)

/-- The entries of the table behind `empty`, as its loop fills them. -/
def emptyRoot : ℕ → Digest
  | 0 => leaf sha256 []
  | k + 1 => node sha256 (emptyRoot k) (emptyRoot k)

/-- Root of an empty perfect subtree.  The table has an entry for every `SubtreeHeight`. -/
def empty (emptyHeight : SubtreeHeight) : Digest := emptyRoot sha256 emptyHeight.get

/-- `node(data_tree_root, size_witness(G, data_size))`. -/
def dataCommitment (G : Geometry) (root : Digest) (dataSize : ℕ) : Digest :=
  node sha256 root (sizeWitness sha256 G dataSize)

/-- SHA-256 does not collide on `strings`. -/
def HashInjOn (strings : List Bytes) : Prop :=
  ∀ x ∈ strings, ∀ y ∈ strings, sha256 x = sha256 y → x = y

instance (strings : List Bytes) : Decidable (HashInjOn sha256 strings) :=
  inferInstanceAs (Decidable (∀ x ∈ strings, ∀ y ∈ strings, sha256 x = sha256 y → x = y))

variable {sha256}

theorem HashInjOn.mono {s t : List Bytes} (h : HashInjOn sha256 t) (hst : s ⊆ t) :
    HashInjOn sha256 s :=
  fun x hx y hy => h x (hst hx) y (hst hy)

theorem HashInjOn.of_nodup {γ : Type} {s : List Bytes} (tag : Digest → γ)
    (h : (s.map fun x => tag (sha256 x)).Nodup) : HashInjOn sha256 s :=
  fun x hx y hy heq => inj_on_of_nodup_map h hx hy (by rw [heq])

end Hash

/-! ### Preimages determine their parts -/

theorem nodeInput_inj {l r l' r' : Digest} (h : nodeInput l r = nodeInput l' r') :
    l = l' ∧ r = r' := by
  simp only [nodeInput, preimage, List.cons.injEq, flatten_cons, flatten_nil, append_nil] at h
  obtain ⟨hl, hr⟩ := append_inj h.2 (by rw [l.size_eq, l'.size_eq])
  exact ⟨Digest.ext hl, Digest.ext hr⟩

theorem leafInput_inj {b b' : Bytes} (h : leafInput b = leafInput b') : b = b' := by
  simpa [leafInput, preimage] using h

theorem chunkLeafInput_inj {c c' : ℕ} {r r' : Digest} (hc : c < 2 ^ 32) (hc' : c' < 2 ^ 32)
    (h : chunkLeafInput c r = chunkLeafInput c' r') : c = c' ∧ r = r' := by
  simp only [chunkLeafInput, preimage, List.cons.injEq, flatten_cons, flatten_nil, append_nil] at h
  obtain ⟨hbe, hr⟩ := append_inj h.2 (by simp)
  exact ⟨be_inj (by simpa using hc) (by simpa using hc') hbe, Digest.ext hr⟩

theorem sizeInput_inj {G G' : Geometry} {n n' : ℕ} (hn : n < 2 ^ 64) (hn' : n' < 2 ^ 64)
    (h : sizeInput G n = sizeInput G' n') :
    n = n' ∧ G.chunkSize = G'.chunkSize ∧ G.segmentsPerChunk = G'.segmentsPerChunk := by
  simp only [sizeInput, preimage, List.cons.injEq, flatten_cons, flatten_nil, append_nil] at h
  obtain ⟨hsize, hrest⟩ := append_inj h.2 (by simp)
  obtain ⟨hchunk, hseg⟩ := append_inj hrest (by simp)
  have hle : ∀ K : Geometry, K.segmentsPerChunk < 256 ^ 2 := fun K =>
    lt_of_le_of_lt K.segments_le (by decide)
  exact ⟨be_inj (by simpa using hn) (by simpa using hn') hsize,
    be_inj (by simpa using G.chunkSize_lt) (by simpa using G'.chunkSize_lt) hchunk,
    be_inj (hle G) (hle G') hseg⟩

theorem nodeInput_ne_chunkLeafInput (l r R : Digest) (c : ℕ) :
    nodeInput l r ≠ chunkLeafInput c R := by
  simp [nodeInput, chunkLeafInput, preimage, TreeDomainTag.asByte]

theorem nodeInput_ne_leafInput (l r : Digest) (b : Bytes) : nodeInput l r ≠ leafInput b := by
  simp [nodeInput, leafInput, preimage, TreeDomainTag.asByte]

end Irys.Tree
