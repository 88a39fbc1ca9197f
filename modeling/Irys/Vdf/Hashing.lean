import Irys.Vdf.Steps

/-!
# The hash loops, byte by byte

A step is hashed by two programs.  `vdf_sha` keeps one message block in place, the salt in its first
half and the running hash in its second, and calls the compression function on it and on the
padding block; from checkpoint to checkpoint the salt bytes are incremented where they are.
`vdf_sha_verification` feeds the salt and the seed to the hash function and counts the salt as a
number.
-/

namespace Irys.Vdf.Blocks

/-! ### The programs -/

/-- `increment_le_salt`: add one to the first byte and carry on while it overflows. -/
def incrementLeSalt : List UInt8 → List UInt8
  | [] => []
  | byte :: rest => if byte = 255 then 0 :: incrementLeSalt rest else (byte + 1) :: rest

/-- `compress_n_rounds`: the message block is the salt and the running hash, and the hash is
overwritten with the bytes of the state. -/
def compressNRounds (salt : List UInt8) : (iterations : ℕ) → (hash : List UInt8) → List UInt8
  | 0, hash => hash
  | n + 1, hash =>
    compressNRounds salt n (Sha256.compress (Sha256.compress Sha256.initial
      (Sha256.wordsOf (salt ++ hash))) (Sha256.wordsOf Sha256.blockPadding)).bytes

/-- The loop of `vdf_sha` from checkpoint `idx` on, with `count` slots left: the seed it ends with
and the slots it wrote. -/
def vdfShaLoop (iterations : ℕ) :
    (idx count : ℕ) → (salt hash : List UInt8) → (seed : H256) → H256 × List H256
  | _, 0, _, _, seed => (seed, [])
  | idx, count + 1, salt, hash, _ =>
    let salt := if 0 < idx then incrementLeSalt salt else salt
    let hash := compressNRounds salt iterations hash
    let seed := fromBe hash
    let rest := vdfShaLoop iterations (idx + 1) count salt hash seed
    (rest.1, seed :: rest.2)

/-- **`vdf_sha`**: the seed and the checkpoint slots after the call. -/
def vdfSha (startSalt : ℕ) (seed : H256) (numCheckpoints iterations : ℕ)
    (checkpoints : List H256) : Res VdfError (H256 × List H256) :=
  if checkpoints.length < numCheckpoints then .error .panic
  else
    let done := vdfShaLoop iterations 0 numCheckpoints (be 32 startSalt).reverse (be 32 seed) seed
    .ok (done.1, done.2 ++ checkpoints.drop numCheckpoints)

/-- **`vdf_sha_verification`.**  The salt is incremented after the last checkpoint too. -/
def vdfShaVerification (iterations : ℕ) :
    (salt : ℕ) → (seed : H256) → (numCheckpoints : ℕ) → Res VdfError (List H256)
  | _, _, 0 => .ok []
  | salt, seed, n + 1 => do
    let seed := (fun s => fromBe (Sha256.digest ((be 32 salt).reverse ++ be 32 s)))^[iterations]
      seed
    let salt ← expect (checkedAdd 256 salt 1)
    let rest ← vdfShaVerification iterations salt seed n
    return seed :: rest

/-! ### Bytes and numbers -/

/-- **The increment of the bytes is the increment of the number**, which wraps with them. -/
theorem incrementLeSalt_be (w n : ℕ) :
    incrementLeSalt (be w n).reverse = (be w (n + 1)).reverse := by
  induction w generalizing n with
  | zero => rfl
  | succ w ih =>
    rw [be_succ_eq_concat, be_succ_eq_concat, List.reverse_concat, List.reverse_concat,
      incrementLeSalt]
    have hbyte : UInt8.ofNat n = 255 ↔ n % 256 = 255 := by
      rw [← UInt8.toNat_inj, UInt8.toNat_ofNat']
      rfl
    split
    · next hcarry =>
        have hdiv : (n + 1) / 256 = n / 256 + 1 := by
          have := hbyte.mp hcarry
          omega
        have hzero : UInt8.ofNat (n + 1) = 0 := by
          rw [UInt8.ofNat_add, hcarry]
          rfl
        rw [ih, hdiv, hzero]
    · next hstop =>
        have hdiv : (n + 1) / 256 = n / 256 := by
          have := mt hbyte.mpr hstop
          omega
        rw [hdiv, UInt8.ofNat_add]
        rfl

theorem be_sha256Number (bytes : List UInt8) :
    be 32 (sha256Number bytes) = Sha256.digest bytes := by
  have h := be_fromBe (Sha256.digest bytes)
  rwa [Sha256.digest_length] at h

theorem compressNRounds_eq (salt iterations : ℕ) (seed : H256) :
    compressNRounds (be 32 salt).reverse iterations (be 32 seed) =
      be 32 (Vdf.compressNRounds sha256Number salt iterations seed) := by
  induction iterations generalizing seed with
  | zero => rfl
  | succ n ih =>
    have hlen : ((be 32 salt).reverse ++ be 32 seed).length = 64 := by
      rw [List.length_append, List.length_reverse, be_length, be_length]
    rw [compressNRounds, ← Sha256.digest_of_length _ hlen, ← be_sha256Number, ih,
      Vdf.compressNRounds, Vdf.compressNRounds, Function.iterate_succ_apply]

section

variable {iterations : ℕ} (hiter : 0 < iterations)
include hiter

/-- What a round leaves is the encoding of a number, so nothing is lost when it is read back. -/
theorem fromBe_compressNRounds (salt : ℕ) (seed : H256) :
    fromBe (be 32 (Vdf.compressNRounds sha256Number salt iterations seed)) =
      Vdf.compressNRounds sha256Number salt iterations seed := by
  obtain ⟨n, rfl⟩ := Nat.exists_eq_add_of_lt hiter
  rw [Nat.zero_add, Vdf.compressNRounds, Function.iterate_succ_apply', be_sha256Number]
  rfl

/-! ### The loops -/

theorem vdfShaLoop_eq (idx count salt : ℕ) (seed : H256) :
    vdfShaLoop iterations (idx + 1) count (be 32 salt).reverse (be 32 seed) seed =
      ((Vdf.vdfSha sha256Number iterations (salt + 1) seed count).getLastD seed,
        Vdf.vdfSha sha256Number iterations (salt + 1) seed count) := by
  induction count generalizing idx salt seed with
  | zero => rfl
  | succ count ih =>
    rw [vdfShaLoop, Vdf.vdfSha, if_pos (Nat.succ_pos idx), incrementLeSalt_be]
    rw [compressNRounds_eq, fromBe_compressNRounds hiter, ih, List.getLastD_cons]

/-- **`vdf_sha` fills the slots with the checkpoints** and leaves the last of them in the seed. -/
theorem vdfSha_eq (startSalt : ℕ) (seed : H256)
    (numCheckpoints : ℕ) (checkpoints : List H256) (hslots : numCheckpoints ≤ checkpoints.length) :
    vdfSha startSalt seed numCheckpoints iterations checkpoints =
      .ok ((Vdf.vdfSha sha256Number iterations startSalt seed numCheckpoints).getLastD seed,
        Vdf.vdfSha sha256Number iterations startSalt seed numCheckpoints ++
          checkpoints.drop numCheckpoints) := by
  rw [vdfSha, if_neg (Nat.not_lt.mpr hslots)]
  cases numCheckpoints with
  | zero => rfl
  | succ n =>
    -- the first checkpoint does not increment the salt
    rw [vdfShaLoop, Vdf.vdfSha, if_neg (Nat.lt_irrefl 0)]
    dsimp only
    rw [compressNRounds_eq, fromBe_compressNRounds hiter, vdfShaLoop_eq hiter, List.getLastD_cons]

end

/-- **`vdf_sha_verification` returns the same checkpoints**, unless the salt overflows. -/
theorem vdfShaVerification_eq (iterations salt : ℕ) (seed : H256) (numCheckpoints : ℕ)
    (hsalt : salt + numCheckpoints < 2 ^ 256) :
    vdfShaVerification iterations salt seed numCheckpoints =
      .ok (Vdf.vdfSha sha256Number iterations salt seed numCheckpoints) := by
  induction numCheckpoints generalizing salt seed with
  | zero => rfl
  | succ n ih =>
    rw [vdfShaVerification, checkedAdd_of_lt (by omega), expect_some, ok_bind,
      ih _ _ (by omega), ok_bind]
    rfl

end Irys.Vdf.Blocks
