import Irys.Lib.Machine

/-!
# SHA-256, executable

The hash function of FIPS 180-4 on byte strings, with 32-bit words as natural numbers below
`2 ^ 32`.  Results about programs that hash take the function as a parameter; this file is
what the parameter stands for, so that concrete inputs can be evaluated.
-/

namespace Irys.Sha256

open List

def roundConstants : List ℕ :=
  [0x428a2f98, 0x71374491, 0xb5c0fbcf, 0xe9b5dba5, 0x3956c25b, 0x59f111f1, 0x923f82a4, 0xab1c5ed5,
   0xd807aa98, 0x12835b01, 0x243185be, 0x550c7dc3, 0x72be5d74, 0x80deb1fe, 0x9bdc06a7, 0xc19bf174,
   0xe49b69c1, 0xefbe4786, 0x0fc19dc6, 0x240ca1cc, 0x2de92c6f, 0x4a7484aa, 0x5cb0a9dc, 0x76f988da,
   0x983e5152, 0xa831c66d, 0xb00327c8, 0xbf597fc7, 0xc6e00bf3, 0xd5a79147, 0x06ca6351, 0x14292967,
   0x27b70a85, 0x2e1b2138, 0x4d2c6dfc, 0x53380d13, 0x650a7354, 0x766a0abb, 0x81c2c92e, 0x92722c85,
   0xa2bfe8a1, 0xa81a664b, 0xc24b8b70, 0xc76c51a3, 0xd192e819, 0xd6990624, 0xf40e3585, 0x106aa070,
   0x19a4c116, 0x1e376c08, 0x2748774c, 0x34b0bcb5, 0x391c0cb3, 0x4ed8aa4a, 0x5b9cca4f, 0x682e6ff3,
   0x748f82ee, 0x78a5636f, 0x84c87814, 0x8cc70208, 0x90befffa, 0xa4506ceb, 0xbef9a3f7, 0xc67178f2]

/-- The eight working variables. -/
structure Words where
  a : ℕ
  b : ℕ
  c : ℕ
  d : ℕ
  e : ℕ
  f : ℕ
  g : ℕ
  h : ℕ

/-- The initial hash value. -/
def initial : Words :=
  ⟨0x6a09e667, 0xbb67ae85, 0x3c6ef372, 0xa54ff53a, 0x510e527f, 0x9b05688c, 0x1f83d9ab, 0x5be0cd19⟩

/-- Rotation to the right. -/
def rotr (x n : ℕ) : ℕ := (x >>> n) ||| ((x <<< (32 - n)) % 2 ^ 32)

def bigSigma0 (x : ℕ) : ℕ := rotr x 2 ^^^ rotr x 13 ^^^ rotr x 22

def bigSigma1 (x : ℕ) : ℕ := rotr x 6 ^^^ rotr x 11 ^^^ rotr x 25

def smallSigma0 (x : ℕ) : ℕ := rotr x 7 ^^^ rotr x 18 ^^^ (x >>> 3)

def smallSigma1 (x : ℕ) : ℕ := rotr x 17 ^^^ rotr x 19 ^^^ (x >>> 10)

def choose (x y z : ℕ) : ℕ := (x &&& y) ^^^ ((2 ^ 32 - 1 - x) &&& z)

def majority (x y z : ℕ) : ℕ := (x &&& y) ^^^ (x &&& z) ^^^ (y &&& z)

/-- Extend the message schedule by `n` words; the list holds the latest word first. -/
def extend : ℕ → List ℕ → List ℕ
  | 0, ws => ws
  | n + 1, ws =>
    extend n ((smallSigma1 (ws.getD 1 0) + ws.getD 6 0 + smallSigma0 (ws.getD 14 0)
      + ws.getD 15 0) % 2 ^ 32 :: ws)

/-- One round with constant `kw.1` and schedule word `kw.2`. -/
def round (s : Words) (kw : ℕ × ℕ) : Words :=
  let t1 := s.h + bigSigma1 s.e + choose s.e s.f s.g + kw.1 + kw.2
  let t2 := bigSigma0 s.a + majority s.a s.b s.c
  ⟨(t1 + t2) % 2 ^ 32, s.a, s.b, s.c, (s.d + t1) % 2 ^ 32, s.e, s.f, s.g⟩

/-- Add the working variables to the hash value. -/
def add (s t : Words) : Words :=
  ⟨(s.a + t.a) % 2 ^ 32, (s.b + t.b) % 2 ^ 32, (s.c + t.c) % 2 ^ 32, (s.d + t.d) % 2 ^ 32,
    (s.e + t.e) % 2 ^ 32, (s.f + t.f) % 2 ^ 32, (s.g + t.g) % 2 ^ 32, (s.h + t.h) % 2 ^ 32⟩

/-- Process one block of sixteen words. -/
def compress (s : Words) (block : List ℕ) : Words :=
  add s ((roundConstants.zip (extend 48 block.reverse).reverse).foldl round s)

/-- Big-endian words of a byte string. -/
def wordsOf : List UInt8 → List ℕ
  | a :: b :: c :: d :: rest =>
    (a.toNat * 2 ^ 24 + b.toNat * 2 ^ 16 + c.toNat * 2 ^ 8 + d.toNat) :: wordsOf rest
  | _ => []

/-- The first `n` blocks. -/
def blocks : ℕ → List ℕ → List (List ℕ)
  | 0, _ => []
  | n + 1, ws => ws.take 16 :: blocks n (ws.drop 16)

/-- The padded message. -/
def pad (bytes : List UInt8) : List UInt8 :=
  bytes ++ (0x80 :: List.replicate ((119 - bytes.length % 64) % 64) 0) ++ be 8 (8 * bytes.length)

/-- The bytes of a hash value. -/
def Words.bytes (s : Words) : List UInt8 :=
  be 4 s.a ++ be 4 s.b ++ be 4 s.c ++ be 4 s.d ++ be 4 s.e ++ be 4 s.f ++ be 4 s.g ++ be 4 s.h

/-- The SHA-256 digest of a byte string. -/
def digest (bytes : List UInt8) : List UInt8 :=
  ((blocks ((pad bytes).length / 64) (wordsOf (pad bytes))).foldl compress initial).bytes

theorem digest_length (bytes : List UInt8) : (digest bytes).length = 32 := by
  simp [digest, Words.bytes]

/-! ### Messages of one block -/

theorem exists_word {l : List UInt8} {k : ℕ} (h : l.length = 4 * (k + 1)) :
    ∃ a b c d rest, l = a :: b :: c :: d :: rest ∧ rest.length = 4 * k := by
  match l, h with
  | a :: b :: c :: d :: rest, h =>
    simp only [length_cons] at h
    exact ⟨a, b, c, d, rest, rfl, by omega⟩

theorem wordsOf_append {l : List UInt8} {k : ℕ} (h : l.length = 4 * k) (l' : List UInt8) :
    (wordsOf l).length = k ∧ wordsOf (l ++ l') = wordsOf l ++ wordsOf l' := by
  induction k generalizing l with
  | zero =>
    rw [length_eq_zero_iff.mp h]
    exact ⟨rfl, rfl⟩
  | succ k ih =>
    obtain ⟨a, b, c, d, rest, rfl, hrest⟩ := exists_word h
    obtain ⟨hlen, happend⟩ := ih hrest
    simp only [cons_append, wordsOf, length_cons, hlen, happend, and_self]

/-- What is appended to a message of 64 bytes: a block of its own. -/
def blockPadding : List UInt8 := 0x80 :: List.replicate 61 0 ++ [0x02, 0x00]

theorem pad_of_length (m : List UInt8) (h : m.length = 64) : pad m = m ++ blockPadding := by
  rw [pad, h, append_assoc]
  rfl

/-- **The hash of a message of one block** is two compressions: of the message, and of its
padding. -/
theorem digest_of_length (m : List UInt8) (h : m.length = 64) :
    digest m = (compress (compress initial (wordsOf m)) (wordsOf blockPadding)).bytes := by
  obtain ⟨hlen, happend⟩ := wordsOf_append (k := 16) h blockPadding
  have hblocks : blocks 2 (wordsOf m ++ wordsOf blockPadding) =
      [wordsOf m, wordsOf blockPadding] := by
    rw [blocks, blocks, blocks, take_left' hlen, drop_left' hlen]
    rfl
  rw [digest, pad_of_length m h, happend, length_append, h,
    show (64 + blockPadding.length) / 64 = 2 from rfl, hblocks]
  rfl

-- the digest of "abc", from the standard
example : digest [0x61, 0x62, 0x63]
    = [0xba, 0x78, 0x16, 0xbf, 0x8f, 0x01, 0xcf, 0xea, 0x41, 0x41, 0x40, 0xde, 0x5d, 0xae, 0x22,
      0x23, 0xb0, 0x03, 0x61, 0xa3, 0x96, 0x17, 0x7a, 0x9c, 0xb4, 0x10, 0xff, 0x61, 0xf2, 0x00,
      0x15, 0xad] := by
  decide +kernel

end Irys.Sha256
