import Irys.Lib.Finmap

/-!
# Indexes: sets of items by key

An index keeps, for every key, the set of items filed under it, and drops a key whose set has
become empty.
-/

namespace Irys

/-- Sets of items by key. -/
abbrev Buckets (κ ι : Type) [Ord κ] [Ord ι] := Std.TreeMap κ (Std.TreeSet ι)

namespace Buckets

variable {κ ι : Type} [Ord κ] [Ord ι]

/-- `entry(k).or_default().insert(i)`. -/
def add (b : Buckets κ ι) (k : κ) (i : ι) : Buckets κ ι :=
  b.alter k fun s => some ((s.getD ∅).insert i)

/-- Remove an item, and the key when nothing is left under it. -/
def drop (b : Buckets κ ι) (k : κ) (i : ι) : Buckets κ ι :=
  b.alter k fun s => (s.map (·.erase i)).filter (!·.isEmpty)

end Buckets

/-- The index holds the pairs of the relation, and nothing empty. -/
structure Lists {κ ι : Type} [Ord κ] [Ord ι] (b : Buckets κ ι) (R : κ → ι → Prop) : Prop where
  mem_iff : ∀ (k : κ) (i : ι), (∃ s, b[k]? = some s ∧ i ∈ s) ↔ R k i
  nonempty : ∀ (k : κ) (s : Std.TreeSet ι), b[k]? = some s → ∃ i, i ∈ s

namespace Lists

variable {κ ι : Type} [Ord κ] [Ord ι] {b : Buckets κ ι} {R S : κ → ι → Prop}

theorem congr (h : Lists b R) (heq : ∀ k i, R k i ↔ S k i) : Lists b S :=
  ⟨fun k i => (h.mem_iff k i).trans (heq k i), h.nonempty⟩

variable [Std.TransOrd κ]

theorem empty : Lists (∅ : Buckets κ ι) fun _ _ => False where
  mem_iff k i := by simp
  nonempty k s hs := by simp at hs

theorem contains_iff (h : Lists b R) (k : κ) : b.contains k = true ↔ ∃ i, R k i := by
  rw [Std.TreeMap.contains_iff_mem, Std.TreeMap.mem_iff_isSome_getElem?, Option.isSome_iff_exists]
  constructor
  · rintro ⟨s, hs⟩
    obtain ⟨i, hi⟩ := h.nonempty k s hs
    exact ⟨i, (h.mem_iff k i).mp ⟨s, hs, hi⟩⟩
  · rintro ⟨i, hi⟩
    obtain ⟨s, hs, -⟩ := (h.mem_iff k i).mpr hi
    exact ⟨s, hs⟩

variable [Std.TransOrd ι] [Std.LawfulEqOrd κ] [Std.LawfulEqOrd ι]

theorem add (h : Lists b R) (k : κ) (i : ι) :
    Lists (b.add k i) (fun k' i' => (k' = k ∧ i' = i) ∨ R k' i') := by
  have hget : ∀ k' : κ, k' ≠ k → (b.add k i)[k']? = b[k']? := by
    intro k' hk
    rw [Buckets.add, Std.TreeMap.getElem?_alter,
      if_neg (mt Std.LawfulEqOrd.eq_of_compare (Ne.symm hk))]
  have hself : (b.add k i)[k]? = some ((b[k]?.getD ∅).insert i) := Std.TreeMap.getElem?_alter_self
  constructor
  · intro k' i'
    by_cases hk : k' = k
    · subst hk
      simp only [hself, Option.some.injEq, exists_eq_left', Std.TreeSet.mem_insert, true_and]
      rw [Std.LawfulEqOrd.compare_eq_iff_eq, eq_comm, ← h.mem_iff]
      refine or_congr_right ?_
      cases hs : b[k']? with
      | none => simp
      | some s => simp
    · simp only [hget k' hk, hk, false_and, false_or]
      exact h.mem_iff k' i'
  · intro k' s hs
    by_cases hk : k' = k
    · subst hk
      cases hself.symm.trans hs
      exact ⟨i, Std.TreeSet.mem_insert_self⟩
    · exact h.nonempty k' s (hget k' hk ▸ hs)

theorem drop (h : Lists b R) (k : κ) (i : ι) :
    Lists (b.drop k i) (fun k' i' => R k' i' ∧ ¬ (k' = k ∧ i' = i)) := by
  have hget : ∀ k' : κ, k' ≠ k → (b.drop k i)[k']? = b[k']? := by
    intro k' hk
    rw [Buckets.drop, Std.TreeMap.getElem?_alter,
      if_neg (mt Std.LawfulEqOrd.eq_of_compare (Ne.symm hk))]
  have hself : ∀ s, (b.drop k i)[k]? = some s ↔
      ∃ s', b[k]? = some s' ∧ s'.erase i = s ∧ ∃ j, j ∈ s := by
    intro s
    rw [Buckets.drop, Std.TreeMap.getElem?_alter_self]
    cases hs : b[k]? with
    | none => simp
    | some s' =>
      simp only [Option.map_some, Option.some.injEq, exists_eq_left', Option.filter_some,
        Option.ite_none_right_eq_some, Bool.not_eq_true', Bool.eq_false_iff, ne_eq,
        Std.TreeSet.isEmpty_iff_forall_not_mem, not_forall, not_not, and_comm (b := _ = s)]
      refine and_congr_right ?_
      rintro rfl
      rfl
  constructor
  · intro k' i'
    by_cases hk : k' = k
    · subst hk
      simp only [hself, true_and, ← h.mem_iff]
      constructor
      · rintro ⟨s, ⟨s', hs', rfl, -⟩, hi'⟩
        rw [Std.TreeSet.mem_erase, ne_eq, Std.LawfulEqOrd.compare_eq_iff_eq] at hi'
        exact ⟨⟨s', hs', hi'.2⟩, Ne.symm hi'.1⟩
      · rintro ⟨⟨s', hs', hi'⟩, hne⟩
        have hmem : i' ∈ s'.erase i := by
          rw [Std.TreeSet.mem_erase, ne_eq, Std.LawfulEqOrd.compare_eq_iff_eq]
          exact ⟨Ne.symm hne, hi'⟩
        exact ⟨s'.erase i, ⟨s', hs', rfl, i', hmem⟩, hmem⟩
    · simp only [hget k' hk, hk, false_and, not_false_eq_true, and_true]
      exact h.mem_iff k' i'
  · intro k' s hs
    by_cases hk : k' = k
    · subst hk
      obtain ⟨-, -, -, hj⟩ := (hself s).mp hs
      exact hj
    · exact h.nonempty k' s (hget k' hk ▸ hs)

end Lists

end Irys
