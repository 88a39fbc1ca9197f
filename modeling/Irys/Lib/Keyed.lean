import Irys.Lib.Machine

/-!
# Lists of keyed records

A list that stands for a small map: records are found by key, the first match counts, and a
write replaces the record it finds.
-/

namespace Irys

open List

variable {α κ : Type}

/-- Replace the first record that satisfies `p`; `none` if there is none. -/
def updateFirst (p : α → Bool) (f : α → α) : List α → Option (List α)
  | [] => none
  | a :: l => if p a then some (f a :: l) else (updateFirst p f l).map (a :: ·)

theorem updateFirst_cons_eq_some {p : α → Bool} {f : α → α} {a : α} {l l' : List α} :
    updateFirst p f (a :: l) = some l' ↔
      (p a = true ∧ l' = f a :: l) ∨
        (p a = false ∧ ∃ r, updateFirst p f l = some r ∧ l' = a :: r) := by
  cases hp : p a with
  | true => simp [updateFirst, hp, eq_comm]
  | false => simp [updateFirst, hp, eq_comm]

theorem map_updateFirst {β : Type} {p : α → Bool} {f : α → α} (obs : α → β) {l l' : List α}
    (h : updateFirst p f l = some l') (hf : ∀ a, l.find? p = some a → obs (f a) = obs a) :
    l'.map obs = l.map obs := by
  induction l generalizing l' with
  | nil => cases h
  | cons a l ih =>
    rcases updateFirst_cons_eq_some.mp h with ⟨hp, rfl⟩ | ⟨hp, r, hr, rfl⟩
    · simp [hf a (by simp [hp])]
    · rw [map_cons, map_cons, ih hr (fun b hb => hf b (by simp [hp, hb]))]

variable [DecidableEq κ] {key : α → κ} {k : κ} {f : α → α}

theorem find?_updateFirst_self (hf : ∀ a, key (f a) = key a) {l l' : List α}
    (h : updateFirst (fun a => key a == k) f l = some l') :
    l'.find? (fun a => key a == k) = (l.find? (fun a => key a == k)).map f := by
  induction l generalizing l' with
  | nil => cases h
  | cons a l ih =>
    rcases updateFirst_cons_eq_some.mp h with ⟨hp, rfl⟩ | ⟨hp, r, hr, rfl⟩
    · simp [hf, hp]
    · simp [hp, ih hr]

theorem find?_updateFirst_of_ne (hf : ∀ a, key (f a) = key a) {k' : κ} (hk : k' ≠ k)
    {l l' : List α} (h : updateFirst (fun a => key a == k) f l = some l') :
    l'.find? (fun a => key a == k') = l.find? (fun a => key a == k') := by
  induction l generalizing l' with
  | nil => cases h
  | cons a l ih =>
    rcases updateFirst_cons_eq_some.mp h with ⟨hp, rfl⟩ | ⟨-, r, hr, rfl⟩
    · have hne : ¬ key a = k' := by
        rw [beq_iff_eq] at hp
        intro h'
        exact hk (h'.symm.trans hp)
      simp [hf, hne]
    · rw [find?_cons, find?_cons, ih hr]

theorem updateFirst_isSome_iff {l : List α} :
    (updateFirst (fun a => key a == k) f l).isSome = true ↔ k ∈ l.map key := by
  induction l with
  | nil => simp [updateFirst]
  | cons a l ih =>
    by_cases h : key a = k
    · simp [updateFirst, h]
    · have h' : ¬ k = key a := fun e => h e.symm
      simp [updateFirst, h, h', ← ih]

theorem updateFirst_of_mem {l : List α} (hl : (l.map key).Nodup) {a : α} (ha : a ∈ l) :
    ∃ before after, l = before ++ a :: after ∧
      updateFirst (fun b => key b == key a) f l = some (before ++ f a :: after) := by
  induction l with
  | nil => cases ha
  | cons b l ih =>
    rw [map_cons, nodup_cons] at hl
    rcases mem_cons.mp ha with rfl | ha
    · exact ⟨[], l, rfl, by simp [updateFirst]⟩
    · obtain ⟨before, after, hsplit, hupdate⟩ := ih hl.2 ha
      have hne : ¬ key b = key a := fun h => hl.1 (h ▸ List.mem_map_of_mem ha)
      refine ⟨b :: before, after, by rw [hsplit]; rfl, ?_⟩
      simp [updateFirst, hne, hupdate]

/-- With distinct keys, what is collected from the records at a key comes from the one record
found there. -/
theorem flatMap_at_key {β : Type} (F : α → List β) {l : List α} (hl : (l.map key).Nodup) :
    (l.flatMap fun a => if key a = k then F a else []) =
      ((l.find? (fun a => key a == k)).map F).getD [] := by
  induction l with
  | nil => rfl
  | cons a l ih =>
    rw [map_cons, nodup_cons] at hl
    rw [flatMap_cons, ih hl.2]
    by_cases h : key a = k
    · have hnone : l.find? (fun b => key b == k) = none := by
        rw [find?_eq_none]
        intro b hb heq
        rw [beq_iff_eq] at heq
        exact hl.1 (List.mem_map.mpr ⟨b, hb, heq.trans h.symm⟩)
      simp [h, hnone]
    · simp [h]

/-! ### Loops that write key by key -/

/-- **A loop over distinct keys.**  If the step at `k` changes what is seen at `k` by `g k` and
nothing else, then after the loop each key of the list has been changed once. -/
theorem foldlM_view {σ V ε : Type} (view : σ → κ → Option V) (g : κ → V → V)
    (step : σ → κ → Res ε σ)
    (hself : ∀ s k s', step s k = .ok s' → view s' k = (view s k).map (g k))
    (hother : ∀ s k s', step s k = .ok s' → ∀ k', k' ≠ k → view s' k' = view s k')
    {ks : List κ} (hks : ks.Nodup) {s s' : σ} (h : ks.foldlM step s = .ok s') (k : κ) :
    view s' k = if k ∈ ks then (view s k).map (g k) else view s k := by
  induction ks generalizing s with
  | nil =>
    cases h
    simp
  | cons a ks ih =>
    rw [nodup_cons] at hks
    rw [foldlM_cons] at h
    obtain ⟨mid, hstep, hrest⟩ := bind_eq_ok.mp h
    rw [ih hks.2 hrest]
    by_cases hka : k = a
    · subst hka
      rw [if_neg hks.1, if_pos mem_cons_self, hself _ _ _ hstep]
    · rw [hother _ _ _ hstep k hka]
      simp [hka]

omit [DecidableEq κ] in
theorem foldlM_preserves {σ τ ε β : Type} (obs : σ → τ) (step : σ → β → Res ε σ)
    (hstep : ∀ s b s', step s b = .ok s' → obs s' = obs s)
    {l : List β} {s s' : σ} (h : l.foldlM step s = .ok s') : obs s' = obs s := by
  induction l generalizing s with
  | nil =>
    cases h
    rfl
  | cons b l ih =>
    rw [foldlM_cons] at h
    obtain ⟨mid, hmid, hrest⟩ := bind_eq_ok.mp h
    rw [ih hrest, hstep _ _ _ hmid]

end Irys
