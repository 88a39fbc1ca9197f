import Mathlib.Data.List.Nodup
import Mathlib.Logic.Function.Basic
import Mathlib.Logic.Relation
import Mathlib.Tactic

/-!
# A registry of held items

Items are minted into a pool.  A holder files claims, and each claim can be granted one item of
the pool.  A held item lies in the holder's hand or in a bin; a bin takes a bounded number of
items and no two of one holder, until it is retired.  An item released goes back to the pool and
its claim ends.
-/

namespace Irys

open List

/-- Who holds an item, and the bin it lies in, if it is in one. -/
structure Holding (Holder Bin : Type) where
  holder : Holder
  bin : Option Bin
  deriving DecidableEq

/-- **The registry.**  A claim that was granted carries its item. -/
@[ext]
structure Registry (Item Holder Bin : Type) where
  minted : List Item
  pool : List Item
  held : Item → Option (Holding Holder Bin)
  bins : Bin → List Item
  retired : Bin → Bool
  claims : Holder → List (Option Item)

namespace Registry

variable {Item Holder Bin : Type} [DecidableEq Item] {r r' : Registry Item Holder Bin} {cap : ℕ}
  {x : Item} {m : Holder} {b : Bin}

/-! ### The invariant -/

/-- **The invariant.**  `cap` bounds the items of a bin. -/
structure WellFormed (cap : ℕ) (r : Registry Item Holder Bin) : Prop where
  nodup_minted : r.minted.Nodup
  nodup_pool : r.pool.Nodup
  pool_free : ∀ x ∈ r.pool, r.held x = none
  minted_iff : ∀ x, x ∈ r.minted ↔ x ∈ r.pool ∨ (r.held x).isSome = true
  nodup_bin : ∀ b, (r.bins b).Nodup
  mem_bin : ∀ b x, x ∈ r.bins b ↔ ∃ m, r.held x = some ⟨m, some b⟩
  bin_le : ∀ b, (r.bins b).length ≤ cap
  bin_inj : ∀ b m x y, r.held x = some ⟨m, some b⟩ → r.held y = some ⟨m, some b⟩ → x = y
  retired_empty : ∀ b, r.retired b = true → r.bins b = []
  mem_claims : ∀ m x, some x ∈ r.claims m ↔ ∃ p, r.held x = some ⟨m, p⟩
  claim_once : ∀ m x, (r.claims m).count (some x) ≤ 1

theorem WellFormed.of_held (h : r.WellFormed cap) {p : Holding Holder Bin}
    (hx : r.held x = some p) : x ∈ r.minted ∧ x ∉ r.pool := by
  refine ⟨(h.minted_iff x).mpr (.inr (by rw [hx]; rfl)), ?_⟩
  intro hpool
  rw [h.pool_free x hpool] at hx
  cases hx

/-! ### Operations -/

section

variable (r) [DecidableEq Holder] [DecidableEq Bin]

/-- New items enter the pool. -/
def mint (xs : List Item) : Registry Item Holder Bin :=
  { r with minted := r.minted ++ xs, pool := r.pool ++ xs }

/-- A holder files a claim. -/
def claim (m : Holder) : Registry Item Holder Bin :=
  { r with claims := Function.update r.claims m (r.claims m ++ [none]) }

/-- An item of the pool goes to the open claim between `before` and `after`. -/
def grant (x : Item) (m : Holder) (before after : List (Option Item)) :
    Registry Item Holder Bin :=
  { r with
    pool := r.pool.filter (· != x)
    held := Function.update r.held x (some ⟨m, none⟩)
    claims := Function.update r.claims m (before ++ some x :: after) }

/-- An item in hand goes into a bin. -/
def place (x : Item) (m : Holder) (b : Bin) :
    Registry Item Holder Bin :=
  { r with
    held := Function.update r.held x (some ⟨m, some b⟩)
    bins := Function.update r.bins b (r.bins b ++ [x]) }

/-- An item in a bin goes back to its holder's hand. -/
def withdraw (x : Item) (m : Holder) (b : Bin) :
    Registry Item Holder Bin :=
  { r with
    held := Function.update r.held x (some ⟨m, none⟩)
    bins := Function.update r.bins b ((r.bins b).filter (· != x)) }

/-- An item in hand goes back to the pool, and its claim ends. -/
def release (x : Item) (m : Holder) : Registry Item Holder Bin :=
  { r with
    pool := r.pool ++ [x]
    held := Function.update r.held x none
    claims := Function.update r.claims m ((r.claims m).erase (some x)) }

/-- Bins are closed for good. -/
def retire (closed : Bin → Bool) : Registry Item Holder Bin :=
  { r with retired := fun b => r.retired b || closed b }

end

/-! ### Each operation keeps it -/

theorem WellFormed.mint (h : r.WellFormed cap) {xs : List Item} (hxs : (r.minted ++ xs).Nodup) :
    (r.mint xs).WellFormed cap := by
  obtain ⟨-, hnodup, hdisj⟩ := nodup_append.mp hxs
  have hfresh : ∀ x ∈ xs, x ∉ r.pool ∧ r.held x = none := by
    intro x hx
    have hnot : x ∉ r.minted := fun hm => hdisj x hm x hx rfl
    rw [h.minted_iff, not_or, Option.not_isSome_iff_eq_none] at hnot
    exact hnot
  refine { h with nodup_minted := hxs, nodup_pool := ?_, pool_free := ?_, minted_iff := ?_ }
  · refine nodup_append.mpr ⟨h.nodup_pool, hnodup, ?_⟩
    intro x hx y hy hxy
    subst hxy
    exact (hfresh x hy).1 hx
  · intro x hx
    rcases mem_append.mp hx with hx | hx
    · exact h.pool_free x hx
    · exact (hfresh x hx).2
  · intro x
    show x ∈ r.minted ++ xs ↔ x ∈ r.pool ++ xs ∨ (r.held x).isSome = true
    rw [mem_append, mem_append, h.minted_iff]
    tauto

theorem WellFormed.retire (h : r.WellFormed cap) {closed : Bin → Bool}
    (hclosed : ∀ b, closed b = true → r.bins b = []) : (r.retire closed).WellFormed cap := by
  refine { h with retired_empty := ?_ }
  intro b hb
  rcases Bool.or_eq_true_iff.mp hb with hb | hb
  · exact h.retired_empty b hb
  · exact hclosed b hb

section

variable [DecidableEq Holder]

theorem WellFormed.claim (h : r.WellFormed cap) (m : Holder) : (r.claim m).WellFormed cap := by
  have hclaims : ∀ m', (r.claim m).claims m' = r.claims m' ∨
      (r.claim m).claims m' = r.claims m' ++ [none] := by
    intro m'
    by_cases hm : m' = m
    · subst hm
      exact .inr (Function.update_self ..)
    · exact .inl (Function.update_of_ne hm ..)
  refine { h with mem_claims := ?_, claim_once := ?_ }
  · intro m' x
    refine Iff.trans ?_ (h.mem_claims m' x)
    rcases hclaims m' with he | he <;> rw [he]
    simp
  · intro m' x
    refine le_trans (le_of_eq ?_) (h.claim_once m' x)
    rcases hclaims m' with he | he <;> rw [he]
    simp

theorem some_mem_grant {before after : List (Option Item)}
    (hclaims : r.claims m = before ++ none :: after) (m' : Holder) (y : Item) :
    some y ∈ (r.grant x m before after).claims m' ↔ some y ∈ r.claims m' ∨ (m' = m ∧ y = x) := by
  by_cases hm : m' = m
  · subst hm
    rw [hclaims]
    simp [Registry.grant]
    tauto
  · simp [Registry.grant, hm]

theorem count_grant {before after : List (Option Item)}
    (hclaims : r.claims m = before ++ none :: after) (m' : Holder) (y : Item) :
    ((r.grant x m before after).claims m').count (some y) =
      (r.claims m').count (some y) + if m' = m ∧ y = x then 1 else 0 := by
  by_cases hm : m' = m
  · subst hm
    rw [hclaims]
    by_cases hy : y = x
    · subst hy
      simp [Registry.grant]
      omega
    · have hxy : ¬ x = y := fun h => hy h.symm
      simp [Registry.grant, hy, hxy]
  · simp [Registry.grant, hm]

theorem WellFormed.grant (h : r.WellFormed cap) {before after : List (Option Item)}
    (hx : x ∈ r.pool) (hclaims : r.claims m = before ++ none :: after) :
    (r.grant x m before after).WellFormed cap := by
  have hfree := h.pool_free x hx
  have hmint := (h.minted_iff x).mpr (.inl hx)
  have hheld : ∀ y p, (r.grant x m before after).held y = some p ↔
      r.held y = some p ∨ (y = x ∧ p = ⟨m, none⟩) := by
    intro y p
    simp only [Registry.grant, Function.update_apply]
    grind
  refine { h with nodup_pool := h.nodup_pool.filter _, pool_free := ?_, minted_iff := ?_,
                  mem_bin := ?_, bin_inj := ?_, mem_claims := ?_, claim_once := ?_ }
  · intro y hy
    obtain ⟨hpool, hne⟩ := mem_filter.mp hy
    have hyx : y ≠ x := by simpa using hne
    exact (Function.update_of_ne hyx ..).trans (h.pool_free y hpool)
  · intro y
    have := h.minted_iff y
    simp only [Registry.grant, Function.update_apply]
    grind
  · intro b y
    rw [show (r.grant x m before after).bins = r.bins from rfl, h.mem_bin]
    simp [hheld]
  · intro b m' y z hy hz
    simp only [hheld, Holding.mk.injEq, reduceCtorEq, and_false, or_false] at hy hz
    exact h.bin_inj b m' y z hy hz
  · intro m' y
    rw [some_mem_grant hclaims, h.mem_claims]
    simp only [hheld, Holding.mk.injEq]
    grind
  · intro m' y
    rw [count_grant hclaims]
    split
    · rename_i hm
      have hnot : some y ∉ r.claims m' := by
        rw [h.mem_claims, hm.2, hfree]
        simp
      rw [count_eq_zero_of_not_mem hnot]
    · exact h.claim_once m' y

theorem WellFormed.release (h : r.WellFormed cap) (hx : r.held x = some ⟨m, none⟩) :
    (r.release x m).WellFormed cap := by
  obtain ⟨hminted, hpool⟩ := h.of_held hx
  have hheld : ∀ y p, (r.release x m).held y = some p ↔ y ≠ x ∧ r.held y = some p := by
    intro y p
    simp only [Registry.release, Function.update_apply]
    grind
  refine { h with nodup_pool := ?_, pool_free := ?_, minted_iff := ?_, mem_bin := ?_,
                  bin_inj := ?_, mem_claims := ?_, claim_once := ?_ }
  · exact nodup_append.mpr ⟨h.nodup_pool, by simp, by grind⟩
  · intro y hy
    have := h.pool_free y
    simp only [Registry.release, Function.update_apply] at hy ⊢
    grind
  · intro y
    have := h.minted_iff y
    simp only [Registry.release, Function.update_apply]
    grind
  · intro b y
    rw [show (r.release x m).bins = r.bins from rfl, h.mem_bin]
    simp only [hheld]
    grind
  · intro b m' y z hy hz
    exact h.bin_inj b m' y z ((hheld _ _).mp hy).2 ((hheld _ _).mp hz).2
  · intro m' y
    have hmem := h.mem_claims m' y
    have honce := h.claim_once m' y
    simp only [Registry.release, Function.update_apply]
    by_cases hm : m' = m
    · subst hm
      rw [if_pos rfl]
      by_cases hy : y = x
      · subst hy
        have : some y ∉ (r.claims m').erase (some y) := by
          rw [← count_pos_iff, count_erase_self]
          omega
        simp [this]
      · rw [mem_erase_of_ne (by simpa using hy), hmem]
        simp [hy]
    · rw [if_neg hm, hmem]
      grind
  · intro m' y
    have honce := h.claim_once m' y
    simp only [Registry.release, Function.update_apply]
    split
    · rename_i hm
      subst hm
      exact (List.Sublist.count_le _ erase_sublist).trans honce
    · exact honce

end

theorem WellFormed.move (h : r.WellFormed cap) {p q : Option Bin} {bins : Bin → List Item}
    (hx : r.held x = some ⟨m, p⟩)
    (hnodup : ∀ b, (bins b).Nodup)
    (hmem : ∀ b y, y ∈ bins b ↔ (y ≠ x ∧ y ∈ r.bins b) ∨ (y = x ∧ q = some b))
    (hle : ∀ b, (bins b).length ≤ cap)
    (hinj : ∀ b y, q = some b → y ≠ x → r.held y ≠ some ⟨m, some b⟩)
    (hretired : ∀ b, r.retired b = true → q ≠ some b) :
    ({ r with held := Function.update r.held x (some ⟨m, q⟩), bins } :
      Registry Item Holder Bin).WellFormed cap := by
  obtain ⟨hminted, hpool⟩ := h.of_held hx
  refine { h with pool_free := ?_, minted_iff := ?_, nodup_bin := hnodup, mem_bin := ?_,
                  bin_le := hle, bin_inj := ?_, retired_empty := ?_, mem_claims := ?_ }
  · intro y hy
    have hyx : y ≠ x := fun e => hpool (e ▸ hy)
    exact (Function.update_of_ne hyx ..).trans (h.pool_free y hy)
  · intro y
    have := h.minted_iff y
    simp only [Function.update_apply]
    grind
  · intro b y
    rw [hmem, h.mem_bin]
    by_cases hy : y = x
    · subst hy
      simp
    · simp [hy]
  · intro b m' y z hy hz
    simp only [Function.update_apply] at hy hz
    have := h.bin_inj b m' y z
    grind
  · intro b hb
    have hempty := h.retired_empty b hb
    rw [eq_nil_iff_forall_not_mem]
    intro y hy
    rcases (hmem b y).mp hy with ⟨-, hy⟩ | ⟨-, hq⟩
    · rw [hempty] at hy
      cases hy
    · exact hretired b hb hq
  · intro m' y
    rw [h.mem_claims]
    simp only [Function.update_apply]
    grind

variable [DecidableEq Bin]

theorem WellFormed.place (h : r.WellFormed cap) (hx : r.held x = some ⟨m, none⟩)
    (hlive : r.retired b = false) (hroom : (r.bins b).length < cap)
    (hnew : ∀ y, r.held y ≠ some ⟨m, some b⟩) : (r.place x m b).WellFormed cap := by
  have hout : x ∉ r.bins b := by
    rw [h.mem_bin, hx]
    simp
  refine h.move hx ?_ ?_ ?_ ?_ ?_
  · intro b'
    by_cases hb : b' = b
    · subst hb
      rw [Function.update_self]
      exact nodup_append.mpr ⟨h.nodup_bin b', by simp, by grind⟩
    · rw [Function.update_of_ne hb]
      exact h.nodup_bin b'
  · intro b' y
    have := h.mem_bin b' y
    simp only [Function.update_apply]
    grind
  · intro b'
    have := h.bin_le b'
    simp only [Function.update_apply]
    grind
  · intro b' y hb _ hy
    cases hb
    exact hnew y hy
  · intro b' hb he
    cases he
    rw [hlive] at hb
    cases hb

theorem WellFormed.withdraw (h : r.WellFormed cap) (hx : r.held x = some ⟨m, some b⟩) :
    (r.withdraw x m b).WellFormed cap := by
  refine h.move hx ?_ ?_ ?_ (by simp) (by simp)
  · intro b'
    by_cases hb : b' = b
    · subst hb
      rw [Function.update_self]
      exact (h.nodup_bin b').filter _
    · rw [Function.update_of_ne hb]
      exact h.nodup_bin b'
  · intro b' y
    have := h.mem_bin b' y
    simp only [Function.update_apply]
    grind
  · intro b'
    have := h.bin_le b'
    have := length_filter_le (· != x) (r.bins b)
    simp only [Function.update_apply]
    grind

/-! ### Steps and runs -/

variable [DecidableEq Holder]

/-- **One operation, under its precondition.** -/
inductive Step (cap : ℕ) : Registry Item Holder Bin → Registry Item Holder Bin → Prop where
  | mint {r : Registry Item Holder Bin} {xs : List Item} (hxs : (r.minted ++ xs).Nodup) :
      Step cap r (r.mint xs)
  | claim (r : Registry Item Holder Bin) (m : Holder) : Step cap r (r.claim m)
  | grant {r : Registry Item Holder Bin} {x : Item} {m : Holder} {before after : List (Option Item)}
      (hx : x ∈ r.pool) (hclaims : r.claims m = before ++ none :: after) :
      Step cap r (r.grant x m before after)
  | place {r : Registry Item Holder Bin} {x : Item} {m : Holder} {b : Bin}
      (hx : r.held x = some ⟨m, none⟩) (hlive : r.retired b = false)
      (hroom : (r.bins b).length < cap) (hnew : ∀ y, r.held y ≠ some ⟨m, some b⟩) :
      Step cap r (r.place x m b)
  | withdraw {r : Registry Item Holder Bin} {x : Item} {m : Holder} {b : Bin}
      (hx : r.held x = some ⟨m, some b⟩) : Step cap r (r.withdraw x m b)
  | release {r : Registry Item Holder Bin} {x : Item} {m : Holder}
      (hx : r.held x = some ⟨m, none⟩) : Step cap r (r.release x m)
  | retire {r : Registry Item Holder Bin} {closed : Bin → Bool}
      (hclosed : ∀ b, closed b = true → r.bins b = []) : Step cap r (r.retire closed)

/-- **Every operation keeps the invariant.** -/
theorem Step.wellFormed (h : Step cap r r') (hr : r.WellFormed cap) : r'.WellFormed cap := by
  cases h with
  | mint hxs => exact hr.mint hxs
  | claim m => exact hr.claim m
  | grant hx hclaims => exact hr.grant hx hclaims
  | place hx hlive hroom hnew => exact hr.place hx hlive hroom hnew
  | withdraw hx => exact hr.withdraw hx
  | release hx => exact hr.release hx
  | retire hclosed => exact hr.retire hclosed

/-- Runs of the registry. -/
abbrev Steps (cap : ℕ) : Registry Item Holder Bin → Registry Item Holder Bin → Prop :=
  Relation.ReflTransGen (Step cap)

/-- **The invariant along a run.** -/
theorem Steps.wellFormed (h : Steps cap r r') (hr : r.WellFormed cap) : r'.WellFormed cap := by
  induction h with
  | refl => exact hr
  | tail _ hstep ih => exact hstep.wellFormed ih

end Registry

end Irys
