import Mathlib.Data.Nat.Log
import Mathlib.Data.UInt
import Mathlib.Tactic

/-!
# Machine-level vocabulary: faults, bounded arithmetic, fixed-width encodings

The programs modelled in this development return errors, panic on a broken local
assumption, and compute with fixed-width integers.  This file fixes how each of the
three is written down, once, with no reference to any particular program.
-/

namespace Irys

/-! ### Faults -/

/-- Why a call gave no value: an error it returned, or a panic. -/
inductive Fault (ε : Type) where
  | error (e : ε)
  | panic
  deriving DecidableEq

/-- The outcome of a call that may return an error of type `ε` or panic. -/
abbrev Res (ε α : Type) := Except (Fault ε) α

variable {ε ε' α β : Type}

/-- Return the error `e`. -/
def fail (e : ε) : Res ε α := .error (.error e)

/-- `Option::expect`: panic on `none`. -/
def expect : Option α → Res ε α
  | some a => .ok a
  | none => .error .panic

/-- Convert the error type and keep panics. -/
def mapErr (f : ε → ε') : Res ε α → Res ε' α
  | .ok a => .ok a
  | .error (.error e) => .error (.error (f e))
  | .error .panic => .error .panic

/-- `Result::expect`: a returned error becomes a panic. -/
def expectOk : Res ε α → Res ε' α
  | .ok a => .ok a
  | .error _ => .error .panic

@[simp] theorem expect_some (a : α) : (expect (some a) : Res ε α) = .ok a := rfl

@[simp] theorem expect_none : (expect (none : Option α) : Res ε α) = .error .panic := rfl

@[simp] theorem mapErr_ok (f : ε → ε') (a : α) : mapErr f (.ok a : Res ε α) = .ok a := rfl

@[simp] theorem expectOk_ok (a : α) : (expectOk (.ok a : Res ε α) : Res ε' α) = .ok a := rfl

@[simp] theorem ok_bind (a : α) (f : α → Res ε β) : ((.ok a : Res ε α) >>= f) = f a := rfl

@[simp] theorem fail_bind (e : ε) (f : α → Res ε β) :
    ((fail e : Res ε α) >>= f) = fail e := rfl

@[simp] theorem fail_ne_ok (e : ε) (a : α) : (fail e : Res ε α) ≠ .ok a := by
  intro h
  cases h

section

variable {c : Prop} [Decidable c] {e : ε} {x : Res ε α} {a : α}

theorem fail_ite_eq_ok : (if c then fail e else x) = .ok a ↔ ¬ c ∧ x = .ok a := by
  by_cases hc : c
  · simp [hc]
  · simp [hc]

theorem ite_fail_eq_ok : (if c then x else fail e) = .ok a ↔ c ∧ x = .ok a := by
  by_cases hc : c
  · simp [hc]
  · simp [hc]

end

/-- **Peeling a bind.**  A sequence of two calls gave a value exactly when the first did and
the second did on what the first returned. -/
theorem bind_eq_ok {x : Res ε α} {f : α → Res ε β} {b : β} :
    (x >>= f) = .ok b ↔ ∃ a, x = .ok a ∧ f a = .ok b := by
  cases x with
  | ok a => simp
  | error e =>
    constructor
    · intro h; cases h
    · rintro ⟨a, h, -⟩; cases h

theorem mapErr_eq_ok {f : ε → ε'} {x : Res ε α} {a : α} :
    mapErr f x = .ok a ↔ x = .ok a := by
  rcases x with (e | _) | b <;> simp [mapErr]

theorem expectOk_eq_ok {x : Res ε α} {a : α} :
    (expectOk x : Res ε' α) = .ok a ↔ x = .ok a := by
  cases x <;> simp [expectOk]

theorem expect_eq_ok {o : Option α} {a : α} : (expect o : Res ε α) = .ok a ↔ o = some a := by
  cases o <;> simp

/-! ### Bounded arithmetic -/

/-- Checked addition on words of `w` bits. -/
def checkedAdd (w a b : ℕ) : Option ℕ := if a + b < 2 ^ w then some (a + b) else none

/-- Checked subtraction. -/
def checkedSub (a b : ℕ) : Option ℕ := if b ≤ a then some (a - b) else none

/-- Checked multiplication on words of `w` bits. -/
def checkedMul (w a b : ℕ) : Option ℕ := if a * b < 2 ^ w then some (a * b) else none

/-- Saturating addition on words of `w` bits. -/
def saturatingAdd (w a b : ℕ) : ℕ := min (a + b) (2 ^ w - 1)

theorem saturatingAdd_of_lt {w a b : ℕ} (h : a + b < 2 ^ w) : saturatingAdd w a b = a + b :=
  Nat.min_eq_left (by omega)

/-- Saturating multiplication on words of `w` bits. -/
def saturatingMul (w a b : ℕ) : ℕ := min (a * b) (2 ^ w - 1)

variable {w a b c m : ℕ}

theorem checkedAdd_of_lt (h : a + b < 2 ^ w) : checkedAdd w a b = some (a + b) :=
  if_pos h

theorem checkedSub_of_le (h : b ≤ a) : checkedSub a b = some (a - b) :=
  if_pos h

theorem checkedMul_of_lt (h : a * b < 2 ^ w) : checkedMul w a b = some (a * b) :=
  if_pos h

theorem checkedAdd_eq_some :
    checkedAdd w a b = some c ↔ a + b < 2 ^ w ∧ c = a + b := by
  rw [checkedAdd, Option.ite_none_right_eq_some, Option.some.injEq, eq_comm (a := c)]

theorem checkedMul_eq_some :
    checkedMul w a b = some c ↔ a * b < 2 ^ w ∧ c = a * b := by
  rw [checkedMul, Option.ite_none_right_eq_some, Option.some.injEq, eq_comm (a := c)]

def divCeil (a b : ℕ) : ℕ := (a + b - 1) / b

theorem divCeil_le_iff (hb : 0 < b) : divCeil a b ≤ m ↔ a ≤ m * b := by
  rw [divCeil, Nat.div_le_iff_le_mul hb]
  omega

theorem lt_divCeil_iff (hb : 0 < b) : m < divCeil a b ↔ m * b < a := by
  rw [← not_le, divCeil_le_iff hb, not_le]

theorem divCeil_eq_iff (hb : 0 < b) : divCeil a b = m ↔ a ≤ m * b ∧ m * b < a + b := by
  rw [divCeil, Nat.div_eq_iff hb]
  omega

theorem divCeil_zero (hb : 0 < b) : divCeil 0 b = 0 := (divCeil_eq_iff hb).mpr (by omega)

theorem divCeil_pos (hb : 0 < b) (ha : 0 < a) : 0 < divCeil a b := by
  rw [lt_divCeil_iff hb]
  omega

/-- The last part of a division rounded up is neither empty nor more than a whole one. -/
theorem divCeil_bounds (hb : 0 < b) (ha : 0 < a) :
    0 < divCeil a b ∧ (divCeil a b - 1) * b < a ∧ a ≤ (divCeil a b - 1) * b + b := by
  have hpos := divCeil_pos hb ha
  obtain ⟨hle, hlt⟩ := (divCeil_eq_iff (a := a) hb).mp rfl
  have hsucc : divCeil a b * b = (divCeil a b - 1) * b + b := by
    rw [← Nat.succ_mul, Nat.succ_eq_add_one, Nat.sub_add_cancel hpos]
  omega

/-- **A sequence that passes a value crosses it somewhere.** -/
theorem exists_crossing {f : ℕ → ℕ} {x n : ℕ} (h0 : f 0 ≤ x) (h : x < f n) :
    ∃ j < n, f j ≤ x ∧ x < f (j + 1) := by
  induction n with
  | zero => omega
  | succ n ih =>
    by_cases hlt : x < f n
    · obtain ⟨j, hj, hcross⟩ := ih hlt
      exact ⟨j, by omega, hcross⟩
    · exact ⟨n, Nat.lt_succ_self n, by omega, h⟩

/-- Zero bits below the lowest set bit of a `w`-bit word; `w` for the zero word. -/
def trailingZeros : ℕ → ℕ → ℕ
  | 0, _ => 0
  | w + 1, n => if n % 2 = 1 then 0 else trailingZeros w (n / 2) + 1

theorem trailingZeros_two_pow (w e : ℕ) (h : e < w) : trailingZeros w (2 ^ e) = e := by
  induction w generalizing e with
  | zero => omega
  | succ w ih =>
    cases e with
    | zero => simp [trailingZeros]
    | succ e =>
      rw [trailingZeros, if_neg (by rw [pow_succ]; omega), pow_succ,
        Nat.mul_div_cancel _ (by decide), ih e (by omega)]

/-! ### Big-endian encodings -/

/-- The `w` low bytes of `n`, most significant first. -/
def be : ℕ → ℕ → List UInt8
  | 0, _ => []
  | w + 1, n => UInt8.ofNat (n / 256 ^ w) :: be w n

@[simp] theorem be_length (w n : ℕ) : (be w n).length = w := by
  induction w with
  | zero => rfl
  | succ w ih => simp [be, ih]

theorem be_succ_eq_concat (w n : ℕ) : be (w + 1) n = be w (n / 256) ++ [UInt8.ofNat n] := by
  induction w with
  | zero => simp [be]
  | succ w ih =>
    rw [be, ih, be, Nat.div_div_eq_div_mul, ← pow_succ']
    rfl

theorem mod_eq_of_be_eq (w m n : ℕ) (h : be w m = be w n) : m % 256 ^ w = n % 256 ^ w := by
  induction w with
  | zero => simp [Nat.mod_one]
  | succ w ih =>
    simp only [be, List.cons.injEq] at h
    have hlow := ih h.2
    have hhigh : m / 256 ^ w % 256 = n / 256 ^ w % 256 := by
      have := congrArg UInt8.toNat h.1
      simpa using this
    rw [Nat.pow_succ, Nat.mod_mul, Nat.mod_mul, hlow, hhigh]

/-- **The encoding is injective** on numbers that fit its width. -/
theorem be_inj {n : ℕ} (hm : m < 256 ^ w) (hn : n < 256 ^ w) (h : be w m = be w n) :
    m = n := by
  have := mod_eq_of_be_eq w m n h
  rwa [Nat.mod_eq_of_lt hm, Nat.mod_eq_of_lt hn] at this

/-- The number a byte string encodes, most significant byte first. -/
def fromBe (bytes : List UInt8) : ℕ := bytes.foldl (fun n b => n * 256 + b.toNat) 0

theorem foldl_fromBe (n : ℕ) (bytes : List UInt8) :
    bytes.foldl (fun n b => n * 256 + b.toNat) n = n * 256 ^ bytes.length + fromBe bytes := by
  induction bytes generalizing n with
  | nil => simp [fromBe]
  | cons b bytes ih =>
    have hcons : fromBe (b :: bytes) = (0 * 256 + b.toNat) * 256 ^ bytes.length + fromBe bytes :=
      ih _
    rw [List.foldl_cons, ih, hcons, List.length_cons, pow_succ]
    ring

theorem fromBe_cons (b : UInt8) (bytes : List UInt8) :
    fromBe (b :: bytes) = b.toNat * 256 ^ bytes.length + fromBe bytes := by
  rw [fromBe, List.foldl_cons, Nat.zero_mul, Nat.zero_add, foldl_fromBe]

theorem fromBe_lt (bytes : List UInt8) : fromBe bytes < 256 ^ bytes.length := by
  induction bytes with
  | nil => simp [fromBe]
  | cons b bytes ih =>
    rw [fromBe_cons, List.length_cons, pow_succ]
    have hb : b.toNat < 256 := b.toNat_lt
    have hmul : (b.toNat + 1) * 256 ^ bytes.length ≤ 256 * 256 ^ bytes.length :=
      Nat.mul_le_mul_right _ hb
    rw [Nat.add_mul] at hmul
    omega

theorem be_add_mul (w m n : ℕ) : be w (m * 256 ^ w + n) = be w n := by
  induction w generalizing m with
  | zero => rfl
  | succ w ih =>
    rw [be, be, show m * 256 ^ (w + 1) + n = m * 256 * 256 ^ w + n from by rw [pow_succ]; ring, ih,
      Nat.mul_comm (m * 256), Nat.mul_add_div (by positivity)]
    congr 1
    apply UInt8.toNat_inj.mp
    simp

theorem be_fromBe (bytes : List UInt8) : be bytes.length (fromBe bytes) = bytes := by
  induction bytes with
  | nil => rfl
  | cons b bytes ih =>
    have hlt := fromBe_lt bytes
    rw [List.length_cons, be, fromBe_cons, be_add_mul, ih, Nat.mul_comm,
      Nat.mul_add_div (by positivity), Nat.div_eq_of_lt hlt, Nat.add_zero]
    congr 1
    exact UInt8.ofNat_toNat

/-! ### Positions of a list -/

section

variable {l : List α} {i : ℕ} {a : α}

theorem lt_length_of_some (h : l[i]? = some a) : i < l.length := (List.getElem?_eq_some_iff.mp h).1

theorem exists_at (h : i < l.length) : ∃ a, l[i]? = some a := ⟨_, List.getElem?_eq_getElem h⟩

theorem exists_before (h : l[i + 1]? = some a) : ∃ b, l[i]? = some b :=
  exists_at (Nat.lt_of_succ_lt (lt_length_of_some h))

end

end Irys
