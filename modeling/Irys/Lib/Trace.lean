import Mathlib.Data.List.Basic
import Mathlib.Tactic

/-!
# Sequences computed one value from the last

A list of values is a trace of a numbered step relation when each value follows from the one
before it at its own number.  A chain of blocks carries such a list in pieces, so the lemmas say
how traces concatenate, when one step relation may stand for another, and that two traces of a
functional relation from one start never differ at an index both reach.
-/

namespace Irys

open List

variable {α : Type*}

theorem getLastD_append (l l' : List α) (a : α) :
    (l ++ l').getLastD a = l'.getLastD (l.getLastD a) := by
  rw [getLastD_eq_getLast?, getLastD_eq_getLast?, getLastD_eq_getLast?, getLast?_append]
  cases l'.getLast? <;> rfl

/-- **A trace.**  Every value of the list follows from the one before it, the first from `a`; the
step into the first value has number `n`. -/
def Trace (next : ℕ → α → α → Prop) : ℕ → α → List α → Prop
  | _, _, [] => True
  | n, a, b :: l => next n a b ∧ Trace next (n + 1) b l

namespace Trace

variable {next next' : ℕ → α → α → Prop}

@[simp] theorem nil (n : ℕ) (a : α) : Trace next n a [] := trivial

@[simp] theorem cons_iff {n : ℕ} {a b : α} {l : List α} :
    Trace next n a (b :: l) ↔ next n a b ∧ Trace next (n + 1) b l := Iff.rfl

theorem append_iff {n : ℕ} {a : α} {l l' : List α} :
    Trace next n a (l ++ l') ↔
      Trace next n a l ∧ Trace next (n + l.length) (l.getLastD a) l' := by
  induction l generalizing n a with
  | nil => simp
  | cons b l ih =>
    rw [cons_append, cons_iff, cons_iff, ih, length_cons, getLastD_cons,
      show n + 1 + l.length = n + (l.length + 1) from by omega, and_assoc]

theorem imp {n : ℕ} {a : α} {l : List α}
    (h : ∀ m, n ≤ m → m < n + l.length → ∀ a b, next m a b → next' m a b)
    (ht : Trace next n a l) : Trace next' n a l := by
  induction l generalizing n a with
  | nil => exact trivial
  | cons b l ih =>
    rw [length_cons] at h
    refine ⟨h n le_rfl (by omega) a b ht.1, ih (fun m hm hm' => ?_) ht.2⟩
    exact h m (by omega) (by omega)

section

variable {n : ℕ} {a : α} {l l' : List α} (hdet : ∀ n a b b', next n a b → next n a b' → b = b')
    (h : Trace next n a l) (h' : Trace next n a l')
include hdet h h'

/-- **Determinism.**  Two traces of a functional relation from one start agree wherever both have
a value. -/
theorem agree
    {i : ℕ} {x y : α} (hx : l[i]? = some x) (hy : l'[i]? = some y) : x = y := by
  induction l generalizing n a l' i with
  | nil => simp at hx
  | cons b l ih =>
    cases l' with
    | nil => simp at hy
    | cons b' l' =>
      have hb : b = b' := hdet n a b b' h.1 h'.1
      subst hb
      cases i with
      | zero =>
        exact Option.some.inj (hx.symm.trans hy)
      | succ i =>
        rw [getElem?_cons_succ] at hx hy
        exact ih h.2 h'.2 hx hy

theorem eq_of_length
    (hlen : l.length = l'.length) : l = l' := by
  apply ext_getElem hlen
  intro i hi hi'
  exact h.agree hdet h' (getElem?_eq_getElem hi) (getElem?_eq_getElem hi')

end

theorem segment {n : ℕ} {a : α} {l : List α} (h : Trace next n a l) {start stop : ℕ}
    (hstart : start ≤ stop) (hstop : stop ≤ l.length) :
    Trace next (n + start) ((l.take start).getLastD a) ((l.drop start).take (stop - start)) := by
  rw [← take_append_drop stop l, append_iff] at h
  have htake := h.1
  rw [show stop = start + (stop - start) from by omega, take_add, append_iff,
    length_take, Nat.min_eq_left (hstart.trans hstop)] at htake
  exact htake.2

end Trace

end Irys
