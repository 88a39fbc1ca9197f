import Mathlib.Order.Basic
import Mathlib.Tactic

/-!
# The heaviest entry, the first among equals

Entries are stored under keys with a weight and the number of their arrival.  One key is kept
beside them as the leader: an entry that arrives replaces it if it is heavier, and it is looked up
again when its own entry leaves.  Nothing here depends on what the keys and the weights are.
-/

namespace Irys

section Leader

variable {κ D : Type} [LinearOrder D]

/-- `lead` names a stored entry and its weight; no entry is heavier, and none of the same weight
arrived earlier. -/
def Leads (look : κ → Option (D × ℕ)) (lead : D × κ) : Prop :=
  ∃ n, look lead.2 = some (lead.1, n) ∧
    ∀ ⦃k d m⦄, look k = some (d, m) → d ≤ lead.1 ∧ (d = lead.1 → n ≤ m)

/-- **The state of the ranking**: arrivals are numbered below `next`, entries of one weight have
different numbers, and the leader leads if there is anything to lead. -/
structure Ranking (look : κ → Option (D × ℕ)) (next : ℕ) (lead : D × κ) : Prop where
  known : ∀ ⦃k d n⦄, look k = some (d, n) → n < next
  apart : ∀ ⦃k k' v⦄, look k = some v → look k' = some v → k = k'
  leads : ∀ ⦃k⦄, (look k).isSome → Leads look lead

namespace Ranking

variable {look look' : κ → Option (D × ℕ)} {next : ℕ} {lead lead' : D × κ} {k : κ} {d : D}

/-- **An arrival**: it leads if it is heavier than the leader. -/
theorem insert (h : Ranking look next lead) (hlead : Leads look lead) (hnew : look k = none)
    (hk : look' k = some (d, next)) (hother : ∀ x, x ≠ k → look' x = look x) :
    Ranking look' (next + 1) (if lead.1 < d then (d, k) else lead) := by
  have hcases : ∀ ⦃x e m⦄, look' x = some (e, m) →
      (x = k ∧ e = d ∧ m = next) ∨ (x ≠ k ∧ look x = some (e, m)) := by
    intro x e m hx
    by_cases hxk : x = k
    · subst hxk
      cases hk.symm.trans hx
      exact .inl ⟨rfl, rfl, rfl⟩
    · rw [hother x hxk] at hx
      exact .inr ⟨hxk, hx⟩
  have hlead' : Leads look' (if lead.1 < d then (d, k) else lead) := by
    obtain ⟨n, hn, hmax⟩ := hlead
    have hleadk : lead.2 ≠ k := by
      intro heq
      rw [heq, hnew] at hn
      cases hn
    by_cases hlt : lead.1 < d
    · rw [if_pos hlt]
      refine ⟨next, hk, ?_⟩
      intro x e m hx
      rcases hcases hx with ⟨-, rfl, rfl⟩ | ⟨-, hx⟩
      · exact ⟨le_rfl, fun _ => le_rfl⟩
      · have hbelow := (hmax hx).1.trans_lt hlt
        exact ⟨hbelow.le, fun heq => absurd heq hbelow.ne⟩
    · rw [if_neg hlt]
      refine ⟨n, by rw [hother _ hleadk]; exact hn, ?_⟩
      intro x e m hx
      rcases hcases hx with ⟨-, rfl, rfl⟩ | ⟨-, hx⟩
      · exact ⟨not_lt.mp hlt, fun _ => (h.known hn).le⟩
      · exact hmax hx
  refine ⟨?_, ?_, fun _ _ => hlead'⟩
  · intro x e m hx
    rcases hcases hx with ⟨-, -, rfl⟩ | ⟨-, hx⟩
    · exact Nat.lt_succ_self _
    · exact (h.known hx).trans (Nat.lt_succ_self _)
  · intro x y v hx hy
    rcases hcases hx with ⟨rfl, -, hxn⟩ | ⟨-, hx⟩
    · rcases hcases hy with ⟨rfl, -, -⟩ | ⟨-, hy⟩
      · rfl
      · exact absurd hxn (h.known hy).ne
    · rcases hcases hy with ⟨-, -, hyn⟩ | ⟨-, hy⟩
      · exact absurd hyn (h.known hx).ne
      · exact h.apart hx hy

/-- **An entry leaves**, and the leader is looked up among what stays. -/
theorem elect (h : Ranking look next lead) (hsub : ∀ ⦃x v⦄, look' x = some v → look x = some v)
    (hlead' : ∀ ⦃x⦄, (look' x).isSome → Leads look' lead') : Ranking look' next lead' where
  known _ _ _ hx := h.known (hsub hx)
  apart _ _ _ hx hy := h.apart (hsub hx) (hsub hy)
  leads := hlead'

/-- **An entry leaves that is not the leader's.** -/
theorem erase (h : Ranking look next lead) (hsub : ∀ ⦃x v⦄, look' x = some v → look x = some v)
    (hstays : look' lead.2 = look lead.2) : Ranking look' next lead := by
  refine h.elect hsub ?_
  intro x hx
  obtain ⟨v, hv⟩ := Option.isSome_iff_exists.mp hx
  obtain ⟨n, hn, hmax⟩ := h.leads (Option.isSome_of_eq_some (hsub hv))
  exact ⟨n, hstays.trans hn, fun y d m hy => hmax (hsub hy)⟩

end Ranking

end Leader

end Irys
