import Irys.Chain.Types
import Irys.DataPath.Path
import Irys.DataTree.Shape

/-!
# Packed chunks

A miner stores each chunk xored with entropy of the miner's address and the chunk's place, and a
proof of access shows the packed bytes.

* `computeEntropyChunk`, `packingXorVecU8` — the entropy and the packing;
* `poa_accepts_packed_chunk` — what the check accepts is what packing makes.
-/

namespace Irys.Packing

open List

open Irys.Tree (Bytes Digest bytesOf)

open Irys.DataPath

variable (sha256 : Bytes → Digest)

/-! ### Entropy -/

def computeSeedHash (address : IrysAddress) (partitionOffset : ℕ) (hash : PartitionHash)
    (irysChainId : ℕ) : Digest :=
  sha256 (be 20 address ++ be 32 hash ++ (be 8 irysChainId).reverse ++
    (be 8 partitionOffset).reverse)

def segment (segments : List Digest) (i : ℕ) : Bytes := segments[i]?.elim [] Digest.bytes

/-- A chunk size that the configuration check accepts: it is a whole number of hashes. -/
structure ChunkSize where
  size : ℕ
  pos : 0 < size
  wholeHashes : 32 ∣ size

/-- One round of the second phase, on the chunk's 32-byte segments. -/
def packStep (segments : List Digest) (hashCount : ℕ) : List Digest :=
  let i := hashCount % segments.length
  let previous := if i = 0 then segments.length - 1 else i - 1
  segments.set i (sha256 (segment segments previous ++ segment segments i))

def computeEntropyChunk (miningAddress : IrysAddress) (partitionChunkOffset : ℕ)
    (partitionHash : PartitionHash) (iterations : ℕ) (chunkSize : ChunkSize) (irysChainId : ℕ) :
    Bytes :=
  let hashCount := chunkSize.size / 32
  let seed := computeSeedHash sha256 miningAddress partitionChunkOffset partitionHash irysChainId
  bytesOf ((range' hashCount (iterations - hashCount)).foldl (packStep sha256)
    (iterate (sha256 ·.bytes) (sha256 seed.bytes) hashCount))

/-! ### Packing -/

inductive PackingError where
  | dataExceedsEntropy (dataLen entropyLen : ℕ)
  deriving DecidableEq

/-- **`packing_xor_vec_u8`**: after the data the entropy stays. -/
def packingXorVecU8 (entropy data : Bytes) : Res PackingError Bytes :=
  if entropy.length < data.length then fail (.dataExceedsEntropy data.length entropy.length)
  else .ok (zipWith (· ^^^ ·) entropy data ++ entropy.drop data.length)

/-! ### Proofs of access -/

inductive PoaError where
  | merkleProofInvalid (e : PathError)
  | outOfDataChunksBounds
  | chunkTooLong (chunkSize limit got : ℕ)
  | chunkTooShort (expected got : ℕ)
  | paddingNotZero (span : ℕ)
  | chunkHashMismatch (expected got : Digest)
  deriving DecidableEq

/-- The part of `poa_is_valid` that follows the choice of the transaction: the data path at the
chunk's first byte, then the chunk's bytes. -/
def poaDataChunk (dataRoot : Digest) (dataSize : ℕ) (dataPath : Bytes) (txChunkOffset : ℕ)
    (minerAddress : IrysAddress) (partitionChunkOffset : ℕ) (partitionHash : PartitionHash)
    (iterations : ℕ) (chunkSize : ChunkSize) (chainId : ℕ) (poaChunk : Bytes) :
    Res PoaError Unit := do
  let path ← mapErr .merkleProofInvalid (validatePath sha256 dataRoot dataPath txChunkOffset)
  if 2 ^ 32 ≤ txChunkOffset / chunkSize.size then fail .outOfDataChunksBounds
  else do
    let range ← mapErr (fun _ => .outOfDataChunksBounds)
      (expectedChunkByteRange (txChunkOffset / chunkSize.size) dataSize chunkSize.size)
    mapErr (fun _ => .outOfDataChunksBounds) (validatePathByteRange path range)
    let entropy := computeEntropyChunk sha256 minerAddress partitionChunkOffset partitionHash
      iterations chunkSize chainId
    if entropy.length < poaChunk.length then
      fail (.chunkTooLong chunkSize.size entropy.length poaChunk.length)
    else if poaChunk.length < chunkSize.size then
      fail (.chunkTooShort chunkSize.size poaChunk.length)
    else
      let unpacked := zipWith (· ^^^ ·) poaChunk entropy
      let span := range.2 - range.1
      if unpacked.length < span then .error .panic
      else if (unpacked.drop span).any (· ≠ 0) then fail (.paddingNotZero span)
      else if sha256 (unpacked.take span) ≠ path.leafHash then
        fail (.chunkHashMismatch path.leafHash (sha256 (unpacked.take span)))
      else .ok ()

/-! ### The entropy is a queue of hashes -/

/-- **One hash more**: of the latest and the oldest, whose place it takes. -/
def slide : List Digest → List Digest
  | [] => []
  | oldest :: queue => queue ++ [sha256 ((queue.getLastD oldest).bytes ++ oldest.bytes)]

variable {sha256} {segments : List Digest} {k : ℕ}

/-- The oldest hash stands in the segment that is due. -/
theorem rotate_packStep (hne : segments ≠ []) :
    (packStep sha256 segments k).rotate (k + 1) = slide sha256 (segments.rotate k) := by
  have hmod := Nat.mod_lt k (length_pos_iff.2 hne)
  obtain ⟨left, hash, right, rfl, hleft⟩ : ∃ left hash right,
      segments = left ++ hash :: right ∧ k % segments.length = left.length :=
    ⟨segments.take (k % segments.length), segments[k % segments.length],
      segments.drop (k % segments.length + 1), by simp, (length_take_of_le hmod.le).symm⟩
  have hrotate (x : Digest) : (left ++ x :: right).rotate k = x :: (right ++ left) := by
    rw [length_append, length_cons] at hleft
    rw [← rotate_mod, length_append, length_cons, hleft, rotate_append_length_eq, cons_append]
  have hstep : packStep sha256 (left ++ hash :: right) k =
      left ++ sha256 (((right ++ left).getLastD hash).bytes ++ hash.bytes) :: right := by
    rw [packStep, hleft]
    obtain rfl | ⟨before, latest, rfl⟩ := eq_nil_or_concat' left
    · -- wrapped around: the hash before is the chunk's last
      obtain rfl | ⟨before, latest, rfl⟩ := eq_nil_or_concat' right <;> simp [segment]
    · rw [← append_assoc, getLastD_concat]
      simp [segment]
  rw [hstep, ← rotate_rotate, hrotate, hrotate]
  simp [slide]

theorem rotate_rounds (hne : segments ≠ []) (count : ℕ) :
    ((range' k count).foldl (packStep sha256) segments).rotate (k + count) =
      (slide sha256)^[count] (segments.rotate k) := by
  induction count generalizing k segments with
  | zero => rfl
  | succ count ih =>
    have hnext : packStep sha256 segments k ≠ [] := by simpa [packStep] using hne
    rw [Function.iterate_succ_apply, ← rotate_packStep hne, ← ih hnext, range'_succ, foldl_cons,
      Nat.add_right_comm, Nat.add_assoc]

theorem length_rounds (counts : List ℕ) :
    (counts.foldl (packStep sha256) segments).length = segments.length := by
  induction counts generalizing segments with
  | nil => rfl
  | cons k counts ih => rw [foldl_cons, ih, packStep, length_set]

variable {address : IrysAddress} {offset : ℕ} {hash : PartitionHash} {iterations chainId : ℕ}
  {chunkSize : ChunkSize}

theorem computeEntropyChunk_length :
    (computeEntropyChunk sha256 address offset hash iterations chunkSize chainId).length =
      chunkSize.size := by
  rw [computeEntropyChunk, Tree.bytesOf_length, length_rounds, length_iterate, Tree.hashSize,
    Nat.mul_div_cancel' chunkSize.wholeHashes]

/-- **The entropy chunk is the queue of its last hashes.**  The rounds that overwrite the chunk in
place keep it equal, up to where it starts, to a queue: the chain of the seed's hashes, in which
each further hash, of the latest and the oldest, takes the place of the oldest. -/
theorem entropy_is_queue :
    (computeEntropyChunk sha256 address offset hash iterations chunkSize chainId).length =
      chunkSize.size ∧
    ∃ segments : List Digest,
      computeEntropyChunk sha256 address offset hash iterations chunkSize chainId =
        bytesOf segments ∧
      segments.rotate (max (chunkSize.size / 32) iterations) =
        (slide sha256)^[iterations - chunkSize.size / 32] (iterate (sha256 ·.bytes)
          (sha256 (computeSeedHash sha256 address offset hash chainId).bytes)
          (chunkSize.size / 32)) := by
  refine ⟨computeEntropyChunk_length, _, rfl, ?_⟩
  have hpos : 0 < chunkSize.size / 32 :=
    Nat.div_pos (Nat.le_of_dvd chunkSize.pos chunkSize.wholeHashes) (by decide)
  rw [← add_tsub_eq_max, rotate_rounds, ← rotate_mod, length_iterate, Nat.mod_self, rotate_zero]
  simpa [← length_pos_iff] using hpos

/-! ### What is packed is what is accepted -/

theorem xor_eq_iff (a b c : UInt8) : a ^^^ b = c ↔ c ^^^ a = b := by
  constructor
  · rintro rfl
    rw [UInt8.xor_comm a, UInt8.xor_assoc, UInt8.xor_self, UInt8.xor_zero]
  · rintro rfl
    rw [UInt8.xor_comm c, ← UInt8.xor_assoc, UInt8.xor_self, UInt8.zero_xor]

/-- Packed bytes are those that unpack to the data and zeros. -/
theorem packingXorVecU8_eq_ok {entropy data packed : Bytes} :
    packingXorVecU8 entropy data = .ok packed ↔ data.length ≤ entropy.length ∧
      packed.length = entropy.length ∧ zipWith (· ^^^ ·) packed entropy =
        data ++ replicate (entropy.length - data.length) 0 := by
  rw [packingXorVecU8, fail_ite_eq_ok, not_lt, Except.ok.injEq]
  refine and_congr_right fun hle => ?_
  induction entropy generalizing data packed with
  | nil => cases packed <;> simp_all
  | cons e entropy ih =>
    obtain _ | ⟨p, packed⟩ := packed
    · cases data <;> simp
    obtain _ | ⟨d, data⟩ := data
    · -- the entropy's tail is what packs zeros
      have hrest := @ih [] packed (by simp)
      have hzero : e = p ↔ p ^^^ e = 0 := by rw [← xor_eq_iff, UInt8.xor_zero]
      simp_all [replicate_succ]
      tauto
    · have hrest := @ih data packed (by simpa using hle)
      simp_all [xor_eq_iff e]
      tauto

/-- **A proof of access holds the packed chunk**: next to a data path to exactly the chunk's bytes,
the validator accepts the bytes that packing makes of data with the leaf's hash, and no others. -/
theorem poa_accepts_packed_chunk (dataRoot : Digest) (dataSize : ℕ) (dataPath : Bytes)
    (start : ℕ) (poaChunk : Bytes) :
    poaDataChunk sha256 dataRoot dataSize dataPath start address offset hash iterations chunkSize
      chainId poaChunk = .ok () ↔
    ∃ path range data, validatePath sha256 dataRoot dataPath start = .ok path ∧
      start / chunkSize.size < 2 ^ 32 ∧
      expectedChunkByteRange (start / chunkSize.size) dataSize chunkSize.size = .ok range ∧
      validatePathByteRange path range = .ok () ∧
      packingXorVecU8 (computeEntropyChunk sha256 address offset hash iterations chunkSize chainId)
        data = .ok poaChunk ∧ poaChunk.length = chunkSize.size ∧
      data.length = range.2 - range.1 ∧ sha256 data = path.leafHash := by
  have hfull := @computeEntropyChunk_length sha256 address offset hash iterations chainId chunkSize
  simp only [poaDataChunk, bind_eq_ok, mapErr_eq_ok, fail_ite_eq_ok]
  generalize computeEntropyChunk sha256 address offset hash iterations chunkSize chainId = entropy
    at hfull ⊢
  constructor
  · rintro ⟨path, hpath, hindex, range, hrange, ⟨⟩, hbytes, hlong, hshort, h⟩
    have hlength : (zipWith (· ^^^ ·) poaChunk entropy).length = entropy.length := by
      rw [length_zipWith]
      omega
    split at h
    · cases h
    rename_i hspan
    obtain ⟨hpadding, h⟩ := fail_ite_eq_ok.1 h
    obtain ⟨hhash, -⟩ := fail_ite_eq_ok.1 h
    refine ⟨path, range, _, hpath, not_le.1 hindex, hrange, hbytes,
      packingXorVecU8_eq_ok.2 ⟨?_, by omega, ?_⟩, by omega, length_take_of_le (not_lt.1 hspan),
      not_not.1 hhash⟩
    · rw [← hlength]
      exact length_take_le' ..
    · -- what follows the data is zeros
      conv_lhs => rw [← take_append_drop (range.2 - range.1) (zipWith _ poaChunk entropy)]
      rw [← hlength, length_take_of_le (not_lt.1 hspan), ← length_drop, append_cancel_left_eq,
        eq_replicate_iff]
      simpa using hpadding
  · rintro ⟨path, range, data, hpath, hindex, hrange, hbytes, hpacked, hsize, hspan, hhash⟩
    obtain ⟨hle, hlength, hunpacked⟩ := packingXorVecU8_eq_ok.1 hpacked
    refine ⟨path, hpath, not_le.2 hindex, range, hrange, (), hbytes, ?_, ?_, ?_⟩
    · omega
    · omega
    · rw [hunpacked, ← hspan, if_neg (by simp), fail_ite_eq_ok, fail_ite_eq_ok]
      simp [hhash]

end Irys.Packing
