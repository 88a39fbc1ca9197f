import Irys.Lib.Machine

/-!
# Checked 256-bit arithmetic

Prices and fees are computed in unsigned 256-bit words.  Every operation that leaves the word is
an error.

* `safeAdd`, `safeSub`, `safeMul`, `safeDiv`, `mulDiv` — the checked operations, each with the
  value it returns when its result fits.
-/

namespace Irys

/-- How a price computation can fail. -/
inductive PricingError where
  | overflowInAdd
  | underflowInSub
  | overflowInMul
  | divisionByZero
  | halfLifeZero
  | newBeforePrev (newTs prevTs : ℕ)
  deriving DecidableEq

/-- `10 ^ 18`: one token in its smallest unit. -/
def tokenScale : ℕ := 1000000000000000000

/-- `10 ^ 12`: one, as a percentage amount. -/
def precisionScale : ℕ := 1000000000000

/-- `ln 2`, rounded down to 18 decimals. -/
def ln2Fp18 : ℕ := 693147180559945309

/-- How many terms of a series are summed. -/
def taylorTerms : ℕ := 30

/-- An optional result with the error that stands for its absence. -/
def orElseFail {ε α : Type} (e : ε) : Option α → Res ε α
  | some a => .ok a
  | none => fail e

@[simp] theorem orElseFail_some {ε α : Type} (e : ε) (a : α) :
    orElseFail e (some a) = .ok a := rfl

theorem orElseFail_eq_ok {ε α : Type} {e : ε} {o : Option α} {a : α} :
    orElseFail e o = .ok a ↔ o = some a := by
  cases o <;> simp [orElseFail]

def safeAdd (lhs rhs : ℕ) : Res PricingError ℕ :=
  orElseFail .overflowInAdd (checkedAdd 256 lhs rhs)

def safeSub (lhs rhs : ℕ) : Res PricingError ℕ :=
  orElseFail .underflowInSub (checkedSub lhs rhs)

def safeMul (lhs rhs : ℕ) : Res PricingError ℕ :=
  orElseFail .overflowInMul (checkedMul 256 lhs rhs)

def safeDiv (lhs rhs : ℕ) : Res PricingError ℕ :=
  if rhs = 0 then fail .divisionByZero else .ok (lhs / rhs)

/-- `lhs * rhs / div`. -/
def mulDiv (mulLhs mulRhs div : ℕ) : Res PricingError ℕ := do
  let prod ← safeMul mulLhs mulRhs
  safeDiv prod div

/-- One round of `exp_neg_fp18`: the next term, subtracted at odd indices. -/
def expNegStep (x : ℕ) (state : ℕ × ℕ) (i : ℕ) : Res PricingError (ℕ × ℕ) := do
  let product ← mulDiv state.1 x tokenScale
  let term ← safeDiv product i
  let sum ← if i &&& 1 = 1 then safeSub state.2 term else safeAdd state.2 term
  .ok (term, sum)

/-- `exp (-x)` in 18 decimals, by the Taylor series. -/
def expNegFp18 (x : ℕ) : Res PricingError ℕ := do
  let state ← (List.range' 1 taylorTerms).foldlM (expNegStep x) (tokenScale, tokenScale)
  .ok state.2

section

variable {a b c : ℕ}

theorem mul_div_le_left (h : b ≤ c) : a * b / c ≤ a :=
  Nat.div_le_of_le_mul (by rw [Nat.mul_comm c]; exact Nat.mul_le_mul_left a h)

theorem safeAdd_of_lt (h : a + b < 2 ^ 256) : safeAdd a b = .ok (a + b) := by
  rw [safeAdd, checkedAdd_of_lt h, orElseFail_some]

theorem safeSub_of_le (h : b ≤ a) : safeSub a b = .ok (a - b) := by
  rw [safeSub, checkedSub_of_le h, orElseFail_some]

theorem safeMul_of_lt (h : a * b < 2 ^ 256) : safeMul a b = .ok (a * b) := by
  rw [safeMul, checkedMul_of_lt h, orElseFail_some]

theorem safeDiv_of_pos (h : 0 < b) : safeDiv a b = .ok (a / b) := by
  rw [safeDiv, if_neg (by omega)]

theorem mulDiv_of_lt (h : a * b < 2 ^ 256) (hc : 0 < c) : mulDiv a b c = .ok (a * b / c) := by
  rw [mulDiv, safeMul_of_lt h, ok_bind, safeDiv_of_pos hc]

end

end Irys
