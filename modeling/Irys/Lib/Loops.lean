import Irys.Lib.Machine

/-!
# Loops of calls that may fail

A loop of the program is `mapM` or `foldlM` over a list, in the monad of calls that may return an
error or panic.

* `mapM_ok`, `mapM_eq_ok_map` — a loop whose calls all succeed;
* `Along` — a property of every step of a run of events, with the invariant rules.
-/

namespace Irys

open List

variable {ε α β γ σ τ : Type}

theorem mapM_ok {f : α → Res ε β} {l : List α} (h : ∀ a ∈ l, ∃ b, f a = .ok b) :
    ∃ bs, l.mapM f = .ok bs := by
  induction l with
  | nil => exact ⟨[], rfl⟩
  | cons a l ih =>
    obtain ⟨b, hb⟩ := h a (mem_cons_self ..)
    obtain ⟨bs, hbs⟩ := ih fun x hx => h x (mem_cons_of_mem _ hx)
    refine ⟨b :: bs, ?_⟩
    rw [mapM_cons, hb, hbs]
    rfl

theorem mapM_eq_ok_map {f : α → Res ε β} {g : α → β} {l : List α}
    (h : ∀ a ∈ l, f a = .ok (g a)) : l.mapM f = .ok (l.map g) := by
  induction l with
  | nil => rfl
  | cons a l ih =>
    rw [forall_mem_cons] at h
    rw [mapM_cons, h.1, ok_bind, ih h.2]
    rfl

/-- **A loop with an invariant** returns if each step returns and keeps the invariant. -/
theorem foldlM_ok_of_inv {I : List α → σ → Prop} {f : σ → α → Res ε σ}
    (hstep : ∀ s a l, I (a :: l) s → ∃ s', f s a = .ok s' ∧ I l s') {l : List α} {s : σ}
    (h : I l s) : ∃ s', l.foldlM f s = .ok s' ∧ I [] s' := by
  induction l generalizing s with
  | nil => exact ⟨s, rfl, h⟩
  | cons a l ih =>
    obtain ⟨mid, hmid, hmidI⟩ := hstep s a l h
    obtain ⟨s', hs', hI⟩ := ih hmidI
    exact ⟨s', by rw [foldlM_cons, hmid, ok_bind, hs'], hI⟩

/-! ### Runs of events -/

/-- **A property of every step of a run.**  A run ends with a step that gives no next state. -/
def Along (next : σ → α → Option σ) (P : σ → α → Prop) : σ → List α → Prop
  | _, [] => True
  | s, a :: l => P s a ∧ ∀ s' ∈ next s a, Along next P s' l

namespace Along

variable {next : σ → α → Option σ} {P Q : σ → α → Prop} {I : σ → Prop} {s : σ} {l : List α}

instance decidable [∀ s, DecidablePred (P s)] :
    (s : σ) → (l : List α) → Decidable (Along next P s l)
  | _, [] => isTrue trivial
  | s, a :: l =>
    have : ∀ s', Decidable (Along next P s' l) := fun s' => decidable s' l
    inferInstanceAs (Decidable (P s a ∧ ∀ s' ∈ next s a, Along next P s' l))

theorem and (hP : Along next P s l) (hQ : Along next Q s l) :
    Along next (fun s a => P s a ∧ Q s a) s l := by
  induction l generalizing s with
  | nil => trivial
  | cons a l ih => exact ⟨⟨hP.1, hQ.1⟩, fun s' hs' => ih (hP.2 s' hs') (hQ.2 s' hs')⟩

/-- **The invariant rule** for steps that cannot fail. -/
theorem foldl {step : σ → α → σ} (hstep : ∀ s a, I s → P s a → I (step s a)) (h : I s)
    (hrun : Along (fun s a => some (step s a)) P s l) : I (l.foldl step s) := by
  induction l generalizing s with
  | nil => exact h
  | cons a l ih => exact ih (hstep s a h hrun.1) (hrun.2 _ rfl)

/-- **The invariant rule** for steps that may fail: none does. -/
theorem foldlM {step : σ → α → Res ε σ}
    (hstep : ∀ s a, I s → P s a → ∃ s', step s a = .ok s' ∧ I s') (h : I s)
    (hrun : Along (fun s a => (step s a).toOption) P s l) :
    ∃ s', l.foldlM step s = .ok s' ∧ I s' := by
  induction l generalizing s with
  | nil => exact ⟨s, rfl, h⟩
  | cons a l ih =>
    obtain ⟨mid, hmid, hI⟩ := hstep s a h hrun.1
    have hnext : (step s a).toOption = some mid := by
      rw [hmid]
      rfl
    rw [List.foldlM_cons, hmid, ok_bind]
    exact ih hI (hrun.2 mid hnext)

end Along

/-! ### Calls that commute with a map of states -/

/-- **`f` commutes with a map of states**: `g` before the call is `k` after it, and the outcome is
a value, an error or a panic on both sides alike. -/
def Intertwines (g : σ → σ) (k : τ → τ) (f : σ → Res ε τ) : Prop :=
  ∀ s, f (g s) = (f s).map k

namespace Intertwines

variable {g : σ → σ} {k : τ → τ}

theorem pure {f : σ → τ} (h : ∀ s, f (g s) = k (f s)) :
    Intertwines g k (fun s => (.ok (f s) : Res ε τ)) := by
  intro s
  show Except.ok (f (g s)) = Except.ok (k (f s))
  rw [h]

theorem bind {l : γ → γ} {f : σ → Res ε τ} {f' : τ → Res ε γ} (hf : Intertwines g k f)
    (hf' : Intertwines k l f') : Intertwines g l (fun s => f s >>= f') := by
  intro s
  show (f (g s) >>= f') = (f s >>= f').map l
  rw [hf s]
  cases f s with
  | ok t => exact hf' t
  | error e => rfl

theorem bind_const {e : σ → Res ε γ} {f : σ → γ → Res ε τ} (he : ∀ s, e (g s) = e s)
    (hf : ∀ x, Intertwines g k (f · x)) : Intertwines g k (fun s => e s >>= f s) := by
  intro s
  show (e (g s) >>= f (g s)) = (e s >>= f s).map k
  rw [he s]
  cases e s with
  | ok x => exact hf x s
  | error e => rfl

theorem ite {c : σ → Prop} [DecidablePred c] {f f' : σ → Res ε τ} (hc : ∀ s, c (g s) ↔ c s)
    (hf : Intertwines g k f) (hf' : Intertwines g k f') :
    Intertwines g k (fun s => if c s then f s else f' s) := by
  intro s
  show (if c (g s) then f (g s) else f' (g s)) = (if c s then f s else f' s).map k
  by_cases h : c s
  · rw [if_pos h, if_pos ((hc s).mpr h)]
    exact hf s
  · rw [if_neg h, if_neg fun h' => h ((hc s).mp h')]
    exact hf' s

theorem foldlM {f : σ → α → Res ε σ} (hf : ∀ a, Intertwines g g (f · a)) (l : List α) :
    Intertwines g g (fun s => l.foldlM f s) := by
  induction l with
  | nil =>
    intro s
    rfl
  | cons a l ih =>
    intro s
    show ((a :: l).foldlM f (g s)) = ((a :: l).foldlM f s).map g
    rw [foldlM_cons, foldlM_cons]
    exact (hf a).bind ih s

end Intertwines

end Irys
