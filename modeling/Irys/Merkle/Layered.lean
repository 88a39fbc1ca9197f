import Irys.Lib.Machine

/-!
# Layered Merkle trees over an arbitrary leaf list

A list of digests is reduced level by level: neighbours are paired left to right and an
unpaired last node is carried up **unchanged**.  This is the shape of RFC 6962 trees.
The file is about the shape only; `node : D → D → D` is arbitrary.

* `rootOf_split`, `siblingsOf_split_left`, `siblingsOf_split_right` — the same tree read
  from the root down: it splits at the largest power of two below the leaf count.
-/

namespace Irys.Merkle

open List

variable {D : Type} (node : D → D → D)

/-- The side on which a sibling stands. -/
inductive Side where
  | left
  | right
  deriving DecidableEq

/-- One level up: pair neighbours, carry an unpaired last node unchanged. -/
def levelUp : List D → List D
  | a :: b :: rest => node a b :: levelUp rest
  | [a] => [a]
  | [] => []

@[simp] theorem levelUp_nil : levelUp node [] = [] := rfl

@[simp] theorem levelUp_length (xs : List D) : (levelUp node xs).length = (xs.length + 1) / 2 := by
  fun_induction levelUp node xs with
  | case1 a b rest ih => simp only [length_cons, ih]; omega
  | case2 a => simp
  | case3 => simp

theorem levelUp_length_lt {xs : List D} (h : 1 < xs.length) :
    (levelUp node xs).length < xs.length := by
  rw [levelUp_length]
  omega

/-- **Cutting at an even leaf** commutes with turning each pair of leaves into one node. -/
theorem pairing_cut {β : Type} {f : List D → List β} {g : D → D → β} (hnil : f [] = [])
    (hone : ∀ a, (f [a]).length ≤ 1) (hpair : ∀ a b rest, f (a :: b :: rest) = g a b :: f rest)
    (xs : List D) (k : ℕ) :
    f (xs.take (2 * k)) = (f xs).take k ∧ f (xs.drop (2 * k)) = (f xs).drop k := by
  induction k generalizing xs with
  | zero => simp [hnil]
  | succ k ih =>
    rw [show 2 * (k + 1) = 2 * k + 1 + 1 from by ring]
    match xs with
    | [] => simp [hnil]
    | [a] => simp [hnil, (hone a).trans (Nat.le_add_left 1 k)]
    | a :: b :: rest => simpa [hpair] using ih rest

theorem levelUp_take (xs : List D) (k : ℕ) :
    (levelUp node xs).take k = levelUp node (xs.take (2 * k)) :=
  (pairing_cut rfl (by simp) (fun _ _ _ => rfl) xs k).1.symm

/-- A level read past the first `2 * k` leaves. -/
theorem levelUp_drop (xs : List D) (k : ℕ) :
    (levelUp node xs).drop k = levelUp node (xs.drop (2 * k)) :=
  (pairing_cut rfl (by simp) (fun _ _ _ => rfl) xs k).2.symm

/-! ### The root -/

/-- The root of the layered tree. -/
def rootOf [Inhabited D] : List D → D
  | [] => default
  | [a] => a
  | a :: b :: rest => rootOf (levelUp node (a :: b :: rest))
termination_by xs => xs.length
decreasing_by exact levelUp_length_lt node (by simp)

/-- Every layer from the leaves to the root. -/
def layersOf (xs : List D) : List (List D) :=
  if _h : xs.length ≤ 1 then [xs] else xs :: layersOf (levelUp node xs)
termination_by xs.length
decreasing_by exact levelUp_length_lt node (by omega)

section Root

variable [Inhabited D]

@[simp] theorem rootOf_singleton (a : D) : rootOf node [a] = a := by
  rw [rootOf]

theorem rootOf_pair (a b : D) : rootOf node [a, b] = node a b := by
  rw [rootOf, levelUp, levelUp_nil, rootOf_singleton]

theorem rootOf_levelUp (xs : List D) : rootOf node (levelUp node xs) = rootOf node xs := by
  match xs with
  | [] => rfl
  | [a] => rfl
  | a :: b :: rest => rw [rootOf.eq_def node (a :: b :: rest)]

/-- **The tree splits from the root down.**  With `2 ^ e` the largest power of two below the
leaf count, the root is the node of the roots of the two parts. -/
theorem rootOf_split (e : ℕ) (xs : List D) (hlo : 2 ^ e < xs.length)
    (hhi : xs.length ≤ 2 ^ (e + 1)) :
    rootOf node xs = node (rootOf node (xs.take (2 ^ e))) (rootOf node (xs.drop (2 ^ e))) := by
  induction e generalizing xs with
  | zero =>
    obtain ⟨a, b, rfl⟩ := length_eq_two.mp (show xs.length = 2 by omega)
    rw [rootOf_pair, show [a, b].take (2 ^ 0) = [a] from rfl,
      show [a, b].drop (2 ^ 0) = [b] from rfl, rootOf_singleton, rootOf_singleton]
  | succ e ih =>
    have hlen := levelUp_length node xs
    rw [pow_succ] at hlo
    rw [pow_succ] at hhi
    rw [← rootOf_levelUp, ih (levelUp node xs) (by omega) (by omega), levelUp_take,
      levelUp_drop, rootOf_levelUp, rootOf_levelUp, ← pow_succ']

end Root

theorem layersOf_of_le {xs : List D} (h : xs.length ≤ 1) : layersOf node xs = [xs] := by
  rw [layersOf, dif_pos h]

theorem layersOf_of_gt {xs : List D} (h : 1 < xs.length) :
    layersOf node xs = xs :: layersOf node (levelUp node xs) := by
  rw [layersOf, dif_neg (by omega)]

theorem layersOf_ne_nil (xs : List D) : layersOf node xs ≠ [] := by
  rw [layersOf]
  split <;> simp

theorem layersOf_head? (xs : List D) : (layersOf node xs).head? = some xs := by
  rw [layersOf]
  split <;> rfl

theorem layersOf_getLast? [Inhabited D] (xs : List D) (h : xs ≠ []) :
    (layersOf node xs).getLast? = some [rootOf node xs] := by
  fun_induction layersOf node xs with
  | case1 xs hle =>
    obtain ⟨a, rfl⟩ := length_eq_one_iff.mp
      (show xs.length = 1 by have := length_pos_iff.mpr h; omega)
    simp
  | case2 xs hgt ih =>
    have hne : levelUp node xs ≠ [] := by
      rw [← length_pos_iff, levelUp_length]
      omega
    rw [getLast?_cons_of_ne_nil (layersOf_ne_nil node _), ih hne, rootOf_levelUp]

/-! ### Audit paths -/

/-- The sibling of node `c` in one layer, with its side; none for a carried node. -/
def stepAt (c : ℕ) (xs : List D) : List (Side × D) :=
  if c % 2 = 1 then (xs[c - 1]?.map fun s => (Side.left, s)).toList
  else (xs[c + 1]?.map fun s => (Side.right, s)).toList

/-- The audit path of leaf `c`, leaf to root. -/
def siblingsOf (c : ℕ) (xs : List D) : List (Side × D) :=
  if _h : xs.length ≤ 1 then []
  else stepAt c xs ++ siblingsOf (c / 2) (levelUp node xs)
termination_by xs.length
decreasing_by exact levelUp_length_lt node (by omega)

/-- The sides of an audit path, from the index `fn` of a node and the index `sn` of the last
node of its layer. -/
def levelSteps (fn sn : ℕ) : List Side :=
  if sn = 0 then []
  else (if fn % 2 = 1 then [Side.left] else if fn < sn then [Side.right] else [])
    ++ levelSteps (fn / 2) (sn / 2)
termination_by sn
decreasing_by omega

theorem siblingsOf_of_le {xs : List D} (c : ℕ) (h : xs.length ≤ 1) :
    siblingsOf node c xs = [] := by
  rw [siblingsOf, dif_pos h]

theorem siblingsOf_of_gt {xs : List D} (c : ℕ) (h : 1 < xs.length) :
    siblingsOf node c xs = stepAt c xs ++ siblingsOf node (c / 2) (levelUp node xs) := by
  rw [siblingsOf, dif_neg (by omega)]

@[simp] theorem levelSteps_zero (fn : ℕ) : levelSteps fn 0 = [] := by
  rw [levelSteps, if_pos rfl]

theorem levelSteps_of_ne_zero {sn : ℕ} (fn : ℕ) (h : sn ≠ 0) :
    levelSteps fn sn = (if fn % 2 = 1 then [Side.left] else if fn < sn then [Side.right] else [])
      ++ levelSteps (fn / 2) (sn / 2) := by
  rw [levelSteps, if_neg h]

theorem stepAt_sides {c : ℕ} {xs : List D} (h : c < xs.length) :
    (stepAt c xs).map Prod.fst
      = if c % 2 = 1 then [Side.left] else if c < xs.length - 1 then [Side.right] else [] := by
  unfold stepAt
  split
  · rw [getElem?_eq_getElem (by omega)]
    simp
  · split
    · rw [getElem?_eq_getElem (by omega)]
      simp
    · rw [getElem?_eq_none (by omega)]
      simp

/-- **The sides of an audit path depend on the index and the leaf count only.** -/
theorem siblingsOf_sides (c : ℕ) (xs : List D) (h : c < xs.length) :
    (siblingsOf node c xs).map Prod.fst = levelSteps c (xs.length - 1) := by
  fun_induction siblingsOf node c xs with
  | case1 c xs hle => simp [show xs.length - 1 = 0 by omega]
  | case2 c xs hgt ih =>
    rw [map_append, stepAt_sides h, ih (by rw [levelUp_length]; omega), levelUp_length,
      levelSteps_of_ne_zero c (show xs.length - 1 ≠ 0 by omega),
      show (xs.length + 1) / 2 - 1 = (xs.length - 1) / 2 by omega]

theorem stepAt_take {c k : ℕ} (xs : List D) (h : c < 2 * k) :
    stepAt c (xs.take (2 * k)) = stepAt c xs := by
  unfold stepAt
  split
  · rw [getElem?_take_of_lt (by omega)]
  · rw [getElem?_take_of_lt (by omega)]

theorem stepAt_drop {c k : ℕ} (xs : List D) (h : 2 * k ≤ c) :
    stepAt (c - 2 * k) (xs.drop (2 * k)) = stepAt c xs := by
  unfold stepAt
  rw [show (c - 2 * k) % 2 = c % 2 by omega]
  split
  · rw [getElem?_drop, show 2 * k + (c - 2 * k - 1) = c - 1 by omega]
  · rw [getElem?_drop, show 2 * k + (c - 2 * k + 1) = c + 1 by omega]

theorem siblingsOf_split_left [Inhabited D] (e c : ℕ) (xs : List D) (hlo : 2 ^ e < xs.length)
    (hhi : xs.length ≤ 2 ^ (e + 1)) (hc : c < 2 ^ e) :
    siblingsOf node c xs
      = siblingsOf node c (xs.take (2 ^ e)) ++ [(Side.right, rootOf node (xs.drop (2 ^ e)))] := by
  induction e generalizing xs c with
  | zero =>
    obtain ⟨a, b, rfl⟩ := length_eq_two.mp (show xs.length = 2 by omega)
    obtain rfl : c = 0 := by omega
    rw [siblingsOf_of_gt node 0 (by simp), siblingsOf_of_le node _ (by simp),
      siblingsOf_of_le node _ (by simp)]
    simp [stepAt]
  | succ e ih =>
    have hlen := levelUp_length node xs
    rw [pow_succ'] at hlo hc ⊢
    rw [pow_succ'] at hhi
    have htake : 1 < (xs.take (2 * 2 ^ e)).length := by
      rw [length_take]
      have := Nat.one_le_two_pow (n := e)
      omega
    rw [siblingsOf_of_gt node c (by omega), ih (c / 2) (levelUp node xs) (by omega) (by omega)
      (by omega), siblingsOf_of_gt node c htake, stepAt_take xs hc, levelUp_take, levelUp_drop,
      rootOf_levelUp, append_assoc]

theorem siblingsOf_split_right [Inhabited D] (e c : ℕ) (xs : List D) (hlo : 2 ^ e < xs.length)
    (hhi : xs.length ≤ 2 ^ (e + 1)) (hc : 2 ^ e ≤ c) (hcl : c < xs.length) :
    siblingsOf node c xs
      = siblingsOf node (c - 2 ^ e) (xs.drop (2 ^ e))
        ++ [(Side.left, rootOf node (xs.take (2 ^ e)))] := by
  induction e generalizing xs c with
  | zero =>
    obtain ⟨a, b, rfl⟩ := length_eq_two.mp (show xs.length = 2 by omega)
    obtain rfl : c = 1 := by simp at hcl; omega
    rw [siblingsOf_of_gt node 1 (by simp), siblingsOf_of_le node _ (by simp),
      siblingsOf_of_le node _ (by simp), show [a, b].take (2 ^ 0) = [a] from rfl, rootOf_singleton]
    simp [stepAt]
  | succ e ih =>
    have hlen := levelUp_length node xs
    rw [pow_succ'] at hlo hc ⊢
    rw [pow_succ'] at hhi
    rw [siblingsOf_of_gt node c (by omega), ih (c / 2) (levelUp node xs) (by omega) (by omega)
      (by omega) (by omega), levelUp_take, levelUp_drop, rootOf_levelUp,
      show c / 2 - 2 ^ e = (c - 2 * 2 ^ e) / 2 by omega, ← stepAt_drop xs hc]
    rcases Nat.lt_or_ge 1 (xs.drop (2 * 2 ^ e)).length with hgt | hle
    · rw [siblingsOf_of_gt node (c - 2 * 2 ^ e) hgt, append_assoc]
    · -- one leaf on the right: it is carried, so neither side has a step here
      have hone : (xs.drop (2 * 2 ^ e)).length = 1 := by
        rw [length_drop] at hle ⊢
        omega
      have hc0 : c - 2 * 2 ^ e = 0 := by
        rw [length_drop] at hone
        omega
      obtain ⟨a, ha⟩ := length_eq_one_iff.mp hone
      rw [hc0, ha, siblingsOf_of_le node _ (by simp), siblingsOf_of_le node _ (by simp)]
      simp [stepAt]

/-! ### Step sequences from the root down -/

theorem topExponent {m : ℕ} (h : 2 ≤ m) :
    2 ^ Nat.log2 (m - 1) < m ∧ m ≤ 2 ^ (Nat.log2 (m - 1) + 1) := by
  have hle := Nat.log2_self_le (n := m - 1) (by omega)
  have hlt := Nat.lt_log2_self (n := m - 1)
  omega

theorem levelSteps_split_left (e c m : ℕ) (hlo : 2 ^ e < m) (hhi : m ≤ 2 ^ (e + 1))
    (hc : c < 2 ^ e) :
    levelSteps c (m - 1) = levelSteps c (2 ^ e - 1) ++ [Side.right] := by
  -- the sides do not depend on the digests, so read them off a tree over `Unit`
  have h := siblingsOf_split_left (fun _ _ => ()) e c (List.replicate m ()) (by simpa using hlo)
    (by simpa using hhi) hc
  have hs := congrArg (List.map Prod.fst) h
  rw [map_append, siblingsOf_sides _ _ _ (by simp; omega),
    siblingsOf_sides _ _ _ (by simp; omega)] at hs
  simpa [Nat.min_eq_left hlo.le] using hs

theorem levelSteps_split_right (e c m : ℕ) (hlo : 2 ^ e < m) (hhi : m ≤ 2 ^ (e + 1))
    (hc : 2 ^ e ≤ c) (hcm : c < m) :
    levelSteps c (m - 1) = levelSteps (c - 2 ^ e) (m - 2 ^ e - 1) ++ [Side.left] := by
  have h := siblingsOf_split_right (fun _ _ => ()) e c (List.replicate m ()) (by simpa using hlo)
    (by simpa using hhi) hc (by simpa using hcm)
  have hs := congrArg (List.map Prod.fst) h
  rw [map_append, siblingsOf_sides _ _ _ (by simp; omega),
    siblingsOf_sides _ _ _ (by simp; omega)] at hs
  simpa using hs

theorem levelSteps_inj {m c c' : ℕ} (hc : c < m) (hc' : c' < m)
    (h : levelSteps c (m - 1) = levelSteps c' (m - 1)) : c = c' := by
  induction m using Nat.strong_induction_on generalizing c c' with
  | _ m ih =>
    rcases Nat.lt_or_ge m 2 with hm | hm
    · omega
    · obtain ⟨hlo, hhi⟩ := topExponent hm
      set k := 2 ^ Nat.log2 (m - 1) with hk
      rcases Nat.lt_or_ge c k with hck | hck <;> rcases Nat.lt_or_ge c' k with hck' | hck'
      · rw [levelSteps_split_left _ c m hlo hhi hck, levelSteps_split_left _ c' m hlo hhi hck'] at h
        exact ih k hlo hck hck' (append_cancel_right h)
      · rw [levelSteps_split_left _ c m hlo hhi hck,
          levelSteps_split_right _ c' m hlo hhi hck' hc'] at h
        simpa using append_inj_right' h rfl
      · rw [levelSteps_split_right _ c m hlo hhi hck hc,
          levelSteps_split_left _ c' m hlo hhi hck'] at h
        simpa using append_inj_right' h rfl
      · rw [levelSteps_split_right _ c m hlo hhi hck hc,
          levelSteps_split_right _ c' m hlo hhi hck' hc'] at h
        have hkpos : 0 < k := by rw [hk]; positivity
        have := ih (m - k) (by omega) (by omega) (by omega) (append_cancel_right h)
        omega

theorem levelSteps_self (i : ℕ) : ∀ s ∈ levelSteps i i, s = Side.left := by
  induction i using Nat.strong_induction_on with
  | _ i ih =>
    rcases Nat.eq_zero_or_pos i with rfl | hpos
    · simp
    · intro s hs
      rw [levelSteps_of_ne_zero i (by omega), if_neg (lt_irrefl i), mem_append] at hs
      rcases hs with hs | hs
      · split at hs
        · simpa using hs
        · simp at hs
      · exact ih (i / 2) (by omega) s hs

theorem right_mem_levelSteps {fn sn : ℕ} (h : fn < sn) : Side.right ∈ levelSteps fn sn := by
  induction sn using Nat.strong_induction_on generalizing fn with
  | _ sn ih =>
    rw [levelSteps_of_ne_zero fn (by omega), mem_append]
    rcases Nat.mod_two_eq_zero_or_one fn with heven | hodd
    · left
      rw [if_neg (by omega), if_pos h]
      exact mem_singleton_self _
    · exact .inr (ih (sn / 2) (by omega) (by omega))

end Irys.Merkle
