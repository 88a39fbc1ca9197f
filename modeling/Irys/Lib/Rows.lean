import Irys.Lib.Loops

/-!
# Batches of row updates

A table shows something for every key; a batch goes through a list of keys and rewrites the
row of each.  Nothing here depends on how the table stores its rows: `row` reads one, or as much
of it as matters.

* `foldlM_flatMap` — a batch of batches is one batch.
-/

namespace Irys

open List

variable {ε σ α κ ρ : Type}

theorem foldlM_flatMap {f : σ → κ → Res ε σ} {g : α → List κ} (l : List α) (s : σ) :
    l.foldlM (fun s a => (g a).foldlM f s) s = (l.flatMap g).foldlM f s := by
  induction l generalizing s with
  | nil => rfl
  | cons a l ih =>
    rw [foldlM_cons, flatMap_cons, foldlM_append]
    cases h : (g a).foldlM f s with
    | ok s' =>
      rw [ok_bind, ok_bind]
      exact ih s'
    | error e => rfl

variable [DecidableEq κ]

/-- **`op` rewrites the row of its key by `f`**, where the row meets `P`, and no other row. -/
def RewritesRow (row : σ → κ → ρ) (P : ρ → Prop) (f : ρ → ρ)
    (op : σ → κ → Res ε σ) : Prop :=
  ∀ s k, P (row s k) →
    ∃ s', op s k = .ok s' ∧ ∀ k', row s' k' = if k' = k then f (row s k) else row s k'

variable {row : σ → κ → ρ} {P : ρ → Prop} {f : ρ → ρ} {op : σ → κ → Res ε σ}

/-- **The batch rewrites the rows of its keys.**  A key may be listed twice, so the rewrite is
asked to be idempotent where it applies. -/
theorem RewritesRow.batch (h : RewritesRow row P f op)
    (hidem : ∀ x, P x → P (f x) ∧ f (f x) = f x) (keys : List κ) (s : σ)
    (hkeys : ∀ k ∈ keys, P (row s k)) :
    ∃ s', keys.foldlM op s = .ok s' ∧
      ∀ k, row s' k = if k ∈ keys then f (row s k) else row s k := by
  induction keys generalizing s with
  | nil => exact ⟨s, rfl, fun k => (if_neg not_mem_nil).symm⟩
  | cons key keys ih =>
    rw [forall_mem_cons] at hkeys
    obtain ⟨mid, hmid, hrow⟩ := h s key hkeys.1
    have hkeysMid : ∀ k ∈ keys, P (row mid k) := by
      intro k hk
      rw [hrow k]
      by_cases heq : k = key
      · rw [if_pos heq]
        exact (hidem _ hkeys.1).1
      · rw [if_neg heq]
        exact hkeys.2 k hk
    obtain ⟨s', hs', hrows⟩ := ih mid hkeysMid
    refine ⟨s', by rw [foldlM_cons, hmid, ok_bind, hs'], fun k => ?_⟩
    rw [hrows k, hrow k]
    by_cases heq : k = key
    · subst heq
      rw [if_pos rfl, if_pos (mem_cons_self ..)]
      by_cases hk : k ∈ keys
      · rw [if_pos hk]
        exact (hidem _ hkeys.1).2
      · rw [if_neg hk]
    · rw [if_neg heq]
      by_cases hk : k ∈ keys
      · rw [if_pos hk, if_pos (mem_cons_of_mem _ hk)]
      · rw [if_neg hk, if_neg (by simp [heq, hk])]

end Irys
