import Mathlib.Tactic

/-!
# Ordered maps as relations

An ordered map is described by the relation between its keys and values.

* `Holds.insert`, `Holds.insertMany` — writing entries adds pairs, as long as no key gets two
  values.
-/

namespace Irys

open List

theorem eq_of_pairwise_of_mem {α : Type} {r : α → α → Prop} (hasymm : ∀ a b, r a b → ¬ r b a)
    {l l' : List α} (hl : l.Pairwise r) (hl' : l'.Pairwise r) (h : ∀ x, x ∈ l ↔ x ∈ l') :
    l = l' := by
  have hnodup : ∀ {k : List α}, k.Pairwise r → k.Nodup := by
    intro k hk
    refine hk.imp ?_
    rintro a b hab rfl
    exact hasymm a a hab hab
  exact List.Perm.eq_of_pairwise (fun a b _ _ hab hba => absurd hba (hasymm a b hab)) hl hl'
    ((perm_ext_iff_of_nodup (hnodup hl) (hnodup hl')).mpr h)

variable {α β γ : Type} [Ord α]

/-- The entries of the map are the pairs of the relation. -/
def Holds (m : Std.TreeMap α β) (R : α → β → Prop) : Prop := ∀ k v, m[k]? = some v ↔ R k v

variable {m : Std.TreeMap α β} {R S : α → β → Prop}

theorem Holds.congr (h : Holds m R) (heq : ∀ k v, R k v ↔ S k v) : Holds m S :=
  fun k v => (h k v).trans (heq k v)

theorem values_eq_map_snd_toList (m : Std.TreeMap α β) : m.values = m.toList.map Prod.snd := by
  have hvalues : m.values = m.inner.inner.toListModel.map Sigma.snd :=
    Std.DTreeMap.Internal.Impl.values_eq_map_snd
  have htoList : m.toList = m.inner.inner.toListModel.map fun ⟨k, v⟩ => (k, v) :=
    Std.DTreeMap.Internal.Impl.Const.toList_eq_toListModel_map
  rw [hvalues, htoList, List.map_map]
  rfl

variable [Std.TransOrd α]

theorem holds_empty (h : ∀ k v, ¬ R k v) : Holds (∅ : Std.TreeMap α β) R := by
  intro k v
  simpa using h k v

theorem contains_iff_exists {k : α} : m.contains k = true ↔ ∃ v, m[k]? = some v := by
  rw [Std.TreeMap.contains_iff_mem, Std.TreeMap.mem_iff_isSome_getElem?, Option.isSome_iff_exists]

theorem Holds.contains_iff (h : Holds m R) (k : α) : m.contains k = true ↔ ∃ v, R k v := by
  simp only [contains_iff_exists, h k]

variable [Std.LawfulEqOrd α]

section

variable (h : Holds m R)
include h

theorem Holds.insert {a : α} {b : β} (hagree : ∀ v, R a v → v = b) :
    Holds (m.insert a b) (fun k v => (k = a ∧ v = b) ∨ R k v) := by
  intro k v
  rw [Std.TreeMap.getElem?_insert]
  by_cases hk : compare a k = .eq
  · rw [if_pos hk]
    obtain rfl := Std.LawfulEqOrd.eq_of_compare hk
    constructor
    · intro heq
      exact .inl ⟨rfl, (Option.some.inj heq).symm⟩
    · rintro (⟨-, rfl⟩ | hR)
      · rfl
      · rw [hagree v hR]
  · rw [if_neg hk, h k v]
    constructor
    · exact .inr
    · rintro (⟨rfl, -⟩ | hR)
      · exact absurd Std.ReflOrd.compare_self hk
      · exact hR

theorem Holds.insertIfNew {a : α} {b : β} (hagree : ∀ v, R a v → v = b) :
    Holds (m.insertIfNew a b) (fun k v => (k = a ∧ v = b) ∨ R k v) := by
  intro k v
  rw [← h.insert hagree k v, Std.TreeMap.getElem?_insertIfNew, Std.TreeMap.getElem?_insert]
  by_cases hk : compare a k = .eq
  · obtain rfl := Std.LawfulEqOrd.eq_of_compare hk
    by_cases hmem : a ∈ m
    · obtain ⟨b', hb'⟩ := Option.isSome_iff_exists.mp (Std.TreeMap.mem_iff_isSome_getElem?.mp hmem)
      rw [if_neg (by simp [hmem]), if_pos hk, hb', hagree b' ((h a b').mp hb')]
    · rw [if_pos ⟨hk, hmem⟩, if_pos hk]
  · rw [if_neg (fun hc => hk hc.1), if_neg hk]

theorem Holds.erase (a : α) : Holds (m.erase a) (fun k v => R k v ∧ k ≠ a) := by
  intro k v
  rw [Std.TreeMap.getElem?_erase]
  by_cases hk : compare a k = .eq
  · obtain rfl := Std.LawfulEqOrd.eq_of_compare hk
    simp
  · have hne : k ≠ a := by
      rintro rfl
      exact hk Std.ReflOrd.compare_self
    rw [if_neg hk, h k v]
    simp [hne]

/-- **Writing a list of entries**, where the list and the map agree. -/
theorem Holds.insertMany {l : List (α × β)}
    (hself : ∀ k v v', (k, v) ∈ l → (k, v') ∈ l → v = v')
    (hagree : ∀ k v v', R k v → (k, v') ∈ l → v = v') :
    Holds (m.insertMany l) (fun k v => R k v ∨ (k, v) ∈ l) := by
  induction l generalizing m R with
  | nil =>
    rw [Std.TreeMap.insertMany_nil]
    exact h.congr (fun k v => by simp)
  | cons p l ih =>
    obtain ⟨a, b⟩ := p
    rw [Std.TreeMap.insertMany_cons]
    have hstep := h.insert (fun v hR => hagree a v b hR (mem_cons_self ..))
    have hl : ∀ k v v', (k, v) ∈ l → (k, v') ∈ l → v = v' := by
      intro k v v' hv hv'
      exact hself k v v' (mem_cons_of_mem _ hv) (mem_cons_of_mem _ hv')
    refine (ih hstep hl ?_).congr ?_
    · rintro k v v' (⟨rfl, rfl⟩ | hR) hv'
      · exact hself _ _ _ (mem_cons_self ..) (mem_cons_of_mem _ hv')
      · exact hagree k v v' hR (mem_cons_of_mem _ hv')
    · intro k v
      rw [mem_cons, Prod.mk.injEq]
      tauto

theorem Holds.insertMap {m' : Std.TreeMap α β} (h' : Holds m' S)
    (hagree : ∀ k v v', R k v → S k v' → v = v') :
    Holds (m.insertMany m'.toList) (fun k v => R k v ∨ S k v) := by
  have hmem : ∀ k v, (k, v) ∈ m'.toList ↔ S k v := by
    intro k v
    rw [Std.TreeMap.mem_toList_iff_getElem?_eq_some, h' k v]
  refine (h.insertMany ?_ ?_).congr ?_
  · intro k v v' hv hv'
    rw [Std.TreeMap.mem_toList_iff_getElem?_eq_some] at hv hv'
    exact Option.some.inj (hv.symm.trans hv')
  · intro k v v' hR hv'
    exact hagree k v v' hR ((hmem k v').mp hv')
  · intro k v
    rw [hmem]

end

/-- **A map's keys are any sorted list of them.** -/
theorem keys_eq {m : Std.TreeMap α β} {l : List α} (hl : l.Pairwise fun a b => compare a b = .lt)
    (h : ∀ k, m.contains k = true ↔ k ∈ l) : m.keys = l := by
  apply eq_of_pairwise_of_mem _ Std.TreeMap.ordered_keys hl
  · intro k
    rw [Std.TreeMap.mem_keys, ← Std.TreeMap.contains_iff_mem, h k]
  · intro a b hab hba
    rw [Std.OrientedOrd.eq_swap, hba] at hab
    cases hab

theorem keys_eq_keys {m : Std.TreeMap α β} {m' : Std.TreeMap α γ}
    (h : ∀ k, m.contains k = true ↔ m'.contains k = true) : m.keys = m'.keys := by
  apply keys_eq Std.TreeMap.ordered_keys
  intro k
  rw [h k, Std.TreeMap.mem_keys, Std.TreeMap.contains_iff_mem]

/-! ### Values -/

theorem mem_values_iff {v : β} : v ∈ m.values ↔ ∃ k : α, m[k]? = some v := by
  rw [values_eq_map_snd_toList, List.mem_map]
  constructor
  · rintro ⟨⟨k, v'⟩, hmem, rfl⟩
    exact ⟨k, Std.TreeMap.mem_toList_iff_getElem?_eq_some.mp hmem⟩
  · rintro ⟨k, hk⟩
    exact ⟨(k, v), Std.TreeMap.mem_toList_iff_getElem?_eq_some.mpr hk, rfl⟩

/-- **Values that add nothing** may be missing: the lists together are those of any map that agrees
up to them. -/
theorem flatMap_values_congr {m' : Std.TreeMap α β} {f : β → List γ} {d : β} (hd : f d = [])
    (h : ∀ k : α, (m[k]?).getD d = (m'[k]?).getD d) : m.values.flatMap f = m'.values.flatMap f := by
  have hdrop : ∀ n : Std.TreeMap α β, n.values.flatMap f =
      (n.toList.filter fun p => !(f p.2).isEmpty).flatMap fun p => f p.2 := by
    intro n
    rw [values_eq_map_snd_toList, flatMap_map]
    induction n.toList with
    | nil => rfl
    | cons p l ih => cases hp : f p.2 <;> simp [hp, ih]
  have hmem : ∀ n n' : Std.TreeMap α β, (∀ k : α, (n[k]?).getD d = (n'[k]?).getD d) →
      ∀ (k : α) (v : β), n[k]? = some v → f v ≠ [] → n'[k]? = some v := by
    intro n n' heq k v hget hne
    have hk := heq k
    rw [hget, Option.getD_some] at hk
    cases hget' : n'[k]? with
    | none =>
      rw [hget', Option.getD_none] at hk
      exact absurd (hk ▸ hd) hne
    | some v' =>
      rw [hget', Option.getD_some] at hk
      rw [hk]
  rw [hdrop, hdrop]
  congr 1
  refine eq_of_pairwise_of_mem ?_ (Std.TreeMap.ordered_keys_toList.filter _)
    (Std.TreeMap.ordered_keys_toList.filter _) ?_
  · intro a b hab hba
    rw [Std.OrientedOrd.eq_swap, hba] at hab
    cases hab
  · rintro ⟨k, v⟩
    simp only [mem_filter, Std.TreeMap.mem_toList_iff_getElem?_eq_some, Bool.not_eq_true',
      isEmpty_eq_false_iff]
    exact ⟨fun hv => ⟨hmem m m' h k v hv.1 hv.2, hv.2⟩,
      fun hv => ⟨hmem m' m (fun k => (h k).symm) k v hv.1 hv.2, hv.2⟩⟩

/-- **Lists under different keys.**  If each value gives a list without repeats, and an element
tells the key of its list, then the lists together have no repeats. -/
theorem nodup_flatMap_values {f : β → List γ} (key : γ → α)
    (hnodup : ∀ (k : α) (v : β), m[k]? = some v → (f v).Nodup)
    (hkey : ∀ (k : α) (v : β), m[k]? = some v → ∀ x ∈ f v, key x = k) :
    (m.values.flatMap f).Nodup := by
  rw [values_eq_map_snd_toList, flatMap_map, nodup_flatMap]
  constructor
  · rintro ⟨k, v⟩ hmem
    exact hnodup k v (Std.TreeMap.mem_toList_iff_getElem?_eq_some.mp hmem)
  · refine List.Pairwise.imp_of_mem ?_ Std.TreeMap.distinct_keys_toList
    rintro ⟨k, v⟩ ⟨k', v'⟩ hmem hmem' hne x hx hx'
    apply hne
    show compare k k' = .eq
    rw [← hkey k v (Std.TreeMap.mem_toList_iff_getElem?_eq_some.mp hmem) x hx,
      ← hkey k' v' (Std.TreeMap.mem_toList_iff_getElem?_eq_some.mp hmem') x hx']
    exact Std.ReflOrd.compare_self

end Irys
