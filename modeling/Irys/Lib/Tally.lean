import Irys.Lib.Finmap

/-!
# Ordered maps that accumulate

A map from keys to accumulated values is written by `upsert`: modify the entry of a key, or start
it.  Reading a number off each entry gives the map an amount at every key and a total.
-/

namespace Irys

open List

open Std (TreeMap)

section Added

variable {α γ : Type} [DecidableEq α] (key : γ → α) (n : γ → ℕ)

/-- What the entries of a list add at a key. -/
def addedAt (cs : List γ) (k : α) : ℕ := ((cs.filter fun c => key c = k).map n).sum

theorem addedAt_cons_self (c : γ) (cs : List γ) :
    addedAt key n (c :: cs) (key c) = n c + addedAt key n cs (key c) := by
  simp [addedAt]

theorem addedAt_cons_of_ne {c : γ} {k : α} (hk : k ≠ key c) (cs : List γ) :
    addedAt key n (c :: cs) k = addedAt key n cs k := by
  simp [addedAt, hk.symm]

theorem addedAt_le_sum (cs : List γ) (k : α) : addedAt key n cs k ≤ (cs.map n).sum :=
  ((filter_sublist (p := fun c => decide (key c = k)) (l := cs)).map n).sum_le_sum
    (fun _ _ => Nat.zero_le _)

theorem addedAt_perm {cs cs' : List γ} (h : cs.Perm cs') (k : α) :
    addedAt key n cs k = addedAt key n cs' k :=
  ((h.filter _).map n).sum_eq

end Added

variable {α β : Type} [Ord α]

/-- Modify the value at a key, or start it with `v`. -/
def upsert (m : TreeMap α β) (k : α) (f : β → β) (v : β) : TreeMap α β :=
  match m[k]? with
  | some b => m.insert k (f b)
  | none => m.insert k v

/-- The number at a key; 0 at a key without an entry. -/
def amountAt (g : β → ℕ) (m : TreeMap α β) (k : α) : ℕ := (m[k]?.map g).getD 0

/-- The sum of the numbers of all entries. -/
def total (g : β → ℕ) (m : TreeMap α β) : ℕ := (m.toList.map fun e => g e.2).sum

variable {m : TreeMap α β} {g : β → ℕ} {k : α} {f : β → β} {v : β} {c : ℕ}

theorem total_empty : total g (∅ : TreeMap α β) = 0 := rfl

variable [Std.TransOrd α]

theorem amountAt_empty : amountAt g (∅ : TreeMap α β) k = 0 := by
  simp [amountAt]

theorem getElem?_upsert (m : TreeMap α β) (k : α) (f : β → β) (v : β) (j : α) :
    (upsert m k f v)[j]? =
      if compare k j = .eq then some ((m[k]?.map f).getD v) else m[j]? := by
  rw [upsert]
  cases h : m[k]? with
  | some b => rw [TreeMap.getElem?_insert]; rfl
  | none => rw [TreeMap.getElem?_insert]; rfl

theorem nodup_toList (m : TreeMap α β) : m.toList.Nodup := by
  refine TreeMap.distinct_keys_toList.imp ?_
  intro a b hab heq
  rw [heq] at hab
  exact hab Std.ReflOrd.compare_self

variable [Std.LawfulEqOrd α]

theorem total_congr {m m' : TreeMap α β} (h : ∀ j : α, m[j]? = m'[j]?) : total g m = total g m' := by
  have hperm : m.toList.Perm m'.toList := by
    rw [perm_ext_iff_of_nodup (nodup_toList m) (nodup_toList m')]
    rintro ⟨j, b⟩
    rw [TreeMap.mem_toList_iff_getElem?_eq_some, TreeMap.mem_toList_iff_getElem?_eq_some, h j]
  exact (hperm.map fun e => g e.2).sum_eq

theorem toList_perm_cons {b : β} (h : m[k]? = some b) :
    m.toList.Perm ((k, b) :: (m.erase k).toList) := by
  have hfresh : (k, b) ∉ (m.erase k).toList := by
    rw [TreeMap.mem_toList_iff_getElem?_eq_some, TreeMap.getElem?_erase_self]
    exact fun hcon => by cases hcon
  rw [perm_ext_iff_of_nodup (nodup_toList m) (nodup_cons.mpr ⟨hfresh, nodup_toList _⟩)]
  rintro ⟨j, b'⟩
  rw [mem_cons, TreeMap.mem_toList_iff_getElem?_eq_some,
    TreeMap.mem_toList_iff_getElem?_eq_some, TreeMap.getElem?_erase, Prod.mk.injEq]
  by_cases hj : compare k j = .eq
  · obtain rfl := Std.LawfulEqOrd.eq_of_compare hj
    rw [if_pos hj, h]
    constructor
    · intro heq
      exact .inl ⟨rfl, (Option.some.inj heq).symm⟩
    · rintro (⟨-, rfl⟩ | hcon)
      · rfl
      · cases hcon
  · rw [if_neg hj]
    constructor
    · exact .inr
    · rintro (⟨rfl, -⟩ | hmem)
      · exact absurd Std.ReflOrd.compare_self hj
      · exact hmem

theorem total_eq_erase_add (g : β → ℕ) (m : TreeMap α β) (k : α) :
    total g m = total g (m.erase k) + amountAt g m k := by
  cases h : m[k]? with
  | some b =>
    have hperm := (toList_perm_cons h).map fun e => g e.2
    rw [total, hperm.sum_eq, total, amountAt, h]
    simp [Nat.add_comm]
  | none =>
    have hsame : ∀ j : α, m[j]? = (m.erase k)[j]? := by
      intro j
      rw [TreeMap.getElem?_erase]
      by_cases hj : compare k j = .eq
      · obtain rfl := Std.LawfulEqOrd.eq_of_compare hj
        rw [if_pos hj, h]
      · rw [if_neg hj]
    rw [total_congr hsame, amountAt, h]
    rfl

theorem addedAt_toList [DecidableEq α] (g : β → ℕ) (m : TreeMap α β) (k : α) :
    addedAt (fun e : α × β => e.1) (fun e => g e.2) m.toList k = amountAt g m k := by
  have hnone : ∀ {m' : TreeMap α β}, m'[k]? = none →
      m'.toList.filter (fun e => e.1 = k) = [] := by
    intro m' h
    rw [filter_eq_nil_iff]
    rintro ⟨j, b⟩ hmem heq
    rw [TreeMap.mem_toList_iff_getElem?_eq_some] at hmem
    rw [decide_eq_true_iff] at heq
    rw [← heq, hmem] at h
    cases h
  cases h : m[k]? with
  | some b =>
    have herase : (m.erase k)[k]? = none := TreeMap.getElem?_erase_self
    have hperm := ((toList_perm_cons h).filter fun e => e.1 = k).map fun e => g e.2
    rw [addedAt, hperm.sum_eq, filter_cons_of_pos (by simp), hnone herase, amountAt, h]
    simp
  | none => rw [addedAt, hnone h, amountAt, h]; rfl

theorem amountAt_upsert_self (hf : ∀ b, m[k]? = some b → g (f b) = g b + c) (hv : g v = c) :
    amountAt g (upsert m k f v) k = amountAt g m k + c := by
  rw [amountAt, getElem?_upsert, if_pos Std.ReflOrd.compare_self, amountAt]
  cases h : m[k]? with
  | some b => simpa using hf b h
  | none => simpa using hv

theorem amountAt_upsert_of_ne {j : α} (hj : j ≠ k) :
    amountAt g (upsert m k f v) j = amountAt g m j := by
  have hcmp : ¬ compare k j = .eq := fun heq => hj (Std.LawfulEqOrd.eq_of_compare heq).symm
  rw [amountAt, getElem?_upsert, if_neg hcmp, amountAt]

/-- **Adding at a key adds to the total.** -/
theorem total_upsert (hf : ∀ b, m[k]? = some b → g (f b) = g b + c) (hv : g v = c) :
    total g (upsert m k f v) = total g m + c := by
  have hrest : total g ((upsert m k f v).erase k) = total g (m.erase k) := by
    apply total_congr
    intro j
    rw [TreeMap.getElem?_erase, TreeMap.getElem?_erase, getElem?_upsert]
    by_cases hj : compare k j = .eq
    · rw [if_pos hj, if_pos hj]
    · rw [if_neg hj, if_neg hj, if_neg hj]
  rw [total_eq_erase_add g (upsert m k f v) k, hrest, amountAt_upsert_self hf hv,
    total_eq_erase_add g m k, Nat.add_assoc]

section Fold

variable {γ : Type} [DecidableEq α] {key : γ → α} {modify : γ → β → β} {fresh : γ → β} {n : γ → ℕ}

/-- **A list of upserts.**  As long as no key reaches the bound, the fold adds every entry, at its
key and in total. -/
theorem foldl_upsert (bound : ℕ)
    (hmodify : ∀ c b, g b + n c < bound → g (modify c b) = g b + n c)
    (hfresh : ∀ c, g (fresh c) = n c) (cs : List γ) (m : TreeMap α β)
    (hroom : ∀ k, amountAt g m k + addedAt key n cs k < bound) :
    total g (cs.foldl (fun m c => upsert m (key c) (modify c) (fresh c)) m) =
        total g m + (cs.map n).sum ∧
      ∀ k, amountAt g (cs.foldl (fun m c => upsert m (key c) (modify c) (fresh c)) m) k =
        amountAt g m k + addedAt key n cs k := by
  induction cs generalizing m with
  | nil => exact ⟨rfl, fun k => rfl⟩
  | cons c cs ih =>
    -- the key of `c` has room for `c`, so the upsert adds exactly `n c`
    have hadd : ∀ b, m[key c]? = some b → g (modify c b) = g b + n c := by
      intro b hb
      have hkey := hroom (key c)
      rw [amountAt, hb, addedAt_cons_self] at hkey
      simp only [Option.map_some, Option.getD_some] at hkey
      exact hmodify c b (by omega)
    have hself := amountAt_upsert_self (g := g) hadd (hfresh c)
    have hnext : ∀ k, amountAt g (upsert m (key c) (modify c) (fresh c)) k +
        addedAt key n cs k = amountAt g m k + addedAt key n (c :: cs) k := by
      intro k
      by_cases hk : k = key c
      · subst hk
        rw [hself, addedAt_cons_self, Nat.add_assoc]
      · rw [amountAt_upsert_of_ne hk, addedAt_cons_of_ne key n hk]
    obtain ⟨htotal, hat⟩ := ih (upsert m (key c) (modify c) (fresh c)) (fun k => by
      rw [hnext k]
      exact hroom k)
    rw [foldl_cons]
    refine ⟨?_, ?_⟩
    · rw [htotal, total_upsert hadd (hfresh c), map_cons, sum_cons, Nat.add_assoc]
    · intro k
      rw [hat k, hnext k]

end Fold

end Irys
