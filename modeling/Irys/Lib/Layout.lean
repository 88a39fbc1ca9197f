import Irys.Lib.Machine

/-!
# Laying out sized items one after the other

Items of given sizes stand in a row; each starts where the items before it end.
-/

namespace Irys

open List

variable {α β : Type}

section

variable (size : α → ℕ)

/-- The size of a row of items. -/
def extent (l : List α) : ℕ := (l.map size).sum

@[simp] theorem extent_nil : extent size [] = 0 := rfl

@[simp] theorem extent_cons (a : α) (l : List α) :
    extent size (a :: l) = size a + extent size l := by
  simp [extent]

@[simp] theorem extent_append (l l' : List α) :
    extent size (l ++ l') = extent size l + extent size l' := by
  simp [extent]

/-- **The items of a row with their starts**, from a base. -/
def laidOut : ℕ → List α → List (α × ℕ)
  | _, [] => []
  | base, a :: l => (a, base) :: laidOut (base + size a) l

@[simp] theorem map_fst_laidOut (base : ℕ) (l : List α) :
    (laidOut size base l).map Prod.fst = l := by
  induction l generalizing base with
  | nil => rfl
  | cons a l ih => rw [laidOut, map_cons, ih]

theorem laidOut_append (base : ℕ) (l l' : List α) :
    laidOut size base (l ++ l') = laidOut size base l ++ laidOut size (base + extent size l) l' := by
  induction l generalizing base with
  | nil => simp [laidOut]
  | cons a l ih => rw [cons_append, laidOut, laidOut, ih, extent_cons, Nat.add_assoc,
      cons_append]

end

section

variable {size : α → ℕ} {base : ℕ} {l : List α} {a : α}

theorem mem_iff_laidOut (size : α → ℕ) (base : ℕ) :
    a ∈ l ↔ ∃ start, (a, start) ∈ laidOut size base l := by
  conv_lhs => rw [← map_fst_laidOut size base l]
  simp only [List.mem_map, Prod.exists, exists_and_right, exists_eq_right]

theorem exists_mem_laidOut_cons {P : α → ℕ → Prop} :
    (∃ b start, (b, start) ∈ laidOut size base (a :: l) ∧ P b start) ↔
      P a base ∨ ∃ b start, (b, start) ∈ laidOut size (base + size a) l ∧ P b start := by
  simp [laidOut, or_and_right, exists_or, and_assoc]

theorem forall_mem_laidOut_cons {P : α → ℕ → Prop} :
    (∀ b start, (b, start) ∈ laidOut size base (a :: l) → P b start) ↔
      P a base ∧ ∀ b start, (b, start) ∈ laidOut size (base + size a) l → P b start := by
  simp [laidOut, or_imp, forall_and]

end

theorem laidOut_bounds {size : α → ℕ} {base : ℕ} {l : List α} {a : α} {start : ℕ}
    (h : (a, start) ∈ laidOut size base l) :
    base ≤ start ∧ start + size a ≤ base + extent size l := by
  induction l generalizing base with
  | nil => cases h
  | cons b l ih =>
    rw [laidOut, mem_cons] at h
    rw [extent_cons]
    rcases h with h | h
    · cases h
      omega
    · have := ih h
      omega

theorem laidOut_unique {size : α → ℕ} {base : ℕ} {l : List α} {key : α → β}
    (hnodup : (l.map key).Nodup) {a a' : α} {start start' : ℕ}
    (h : (a, start) ∈ laidOut size base l) (h' : (a', start') ∈ laidOut size base l)
    (hkey : key a = key a') : a = a' ∧ start = start' := by
  have hmap : ((laidOut size base l).map fun p => key p.1).Nodup := by
    have heq : ((laidOut size base l).map fun p => key p.1) = l.map key := by
      conv_rhs => rw [← map_fst_laidOut size base l, List.map_map]
      rfl
    rwa [heq]
  have := inj_on_of_nodup_map hmap h h' hkey
  exact ⟨congrArg Prod.fst this, congrArg Prod.snd this⟩

/-! ### Frontiers -/

/-- The end of the first `j` items. -/
def frontier (size : α → ℕ) (l : List α) (j : ℕ) : ℕ := extent size (l.take j)

@[simp] theorem frontier_zero (size : α → ℕ) (l : List α) : frontier size l 0 = 0 := rfl

theorem frontier_succ {size : α → ℕ} {l : List α} {j : ℕ} {a : α} (h : l[j]? = some a) :
    frontier size l (j + 1) = frontier size l j + size a := by
  obtain ⟨hj, rfl⟩ := List.getElem?_eq_some_iff.mp h
  rw [frontier, frontier, ← take_append_getElem hj, extent_append, extent_cons, extent_nil,
    Nat.add_zero]

theorem frontier_mono (size : α → ℕ) (l : List α) : Monotone (frontier size l) := by
  apply monotone_nat_of_le_succ
  intro j
  cases h : l[j]? with
  | none =>
    have hlen := List.getElem?_eq_none_iff.mp h
    rw [frontier, frontier, take_of_length_le hlen, take_of_length_le (by omega)]
  | some a =>
    rw [frontier_succ h]
    exact Nat.le_add_right _ _

/-- **Every position below a frontier lies in an item.** -/
theorem exists_between_frontiers {size : α → ℕ} {l : List α} {n o : ℕ}
    (h : o < frontier size l n) :
    ∃ j < n, frontier size l j ≤ o ∧ o < frontier size l (j + 1) :=
  exists_crossing (by rw [frontier_zero]; exact Nat.zero_le o) h

theorem index_le_of_frontier {size : α → ℕ} {l : List α} {i j o : ℕ}
    (hi : frontier size l i ≤ o) (hj : o < frontier size l (j + 1)) : i ≤ j := by
  by_contra hlt
  have := frontier_mono size l (show j + 1 ≤ i by omega)
  omega

/-! ### Rows of rows -/

/-- **A row of rows is laid out row by row**, each from its own frontier. -/
theorem mem_laidOut_flatMap {size : α → ℕ} {items : β → List α} {l : List β} {n : ℕ} {a : α}
    {start : ℕ} :
    (a, start) ∈ laidOut size 0 ((l.take n).flatMap items) ↔
      ∃ j < n, ∃ b, l[j]? = some b ∧
        (a, start) ∈ laidOut size (frontier (fun b => extent size (items b)) l j) (items b) := by
  have hextent : ∀ k : List β, extent size (k.flatMap items) =
      extent (fun b => extent size (items b)) k := by
    intro k
    induction k with
    | nil => rfl
    | cons b k ih => rw [flatMap_cons, extent_append, extent_cons, ih]
  induction n with
  | zero => simp [laidOut]
  | succ n ih =>
    cases hn : l[n]? with
    | none =>
      have hlen := List.getElem?_eq_none_iff.mp hn
      have htake : l.take (n + 1) = l.take n := by
        rw [take_of_length_le hlen, take_of_length_le (by omega)]
      rw [htake]
      refine ih.trans ⟨?_, ?_⟩
      · rintro ⟨j, hj, h⟩
        exact ⟨j, by omega, h⟩
      · rintro ⟨j, hj, b, hb, h⟩
        have := lt_length_of_some hb
        exact ⟨j, by omega, b, hb, h⟩
    | some b =>
      obtain ⟨hlt, hb⟩ := List.getElem?_eq_some_iff.mp hn
      rw [← take_append_getElem hlt, flatMap_append, laidOut_append,
        mem_append, hextent, Nat.zero_add, hb]
      simp only [flatMap_cons, flatMap_nil, append_nil]
      constructor
      · rintro (h | h)
        · obtain ⟨j, hj, h⟩ := ih.mp h
          exact ⟨j, by omega, h⟩
        · exact ⟨n, Nat.lt_succ_self n, b, hn, h⟩
      · rintro ⟨j, hj, b', hb', h⟩
        rcases Nat.lt_or_ge j n with hjn | hjn
        · exact .inl (ih.mpr ⟨j, hjn, b', hb', h⟩)
        · obtain rfl : j = n := by omega
          rw [hn] at hb'
          cases hb'
          exact .inr h

end Irys
