import Irys.Merkle.Layered
import Mathlib.Data.Nat.Bitwise

/-!
# Building a layered tree one leaf at a time

A streaming builder keeps one list per layer.  Pushing a node appends it to its layer; a
layer whose length becomes even pushes the node of its last two entries one layer up.  An
unpaired node is carried up only at the end.
-/

namespace Irys.Merkle

open List

variable {D : Type} (node : D → D → D)

/-- The complete pairs of one level; an unpaired last node is left out. -/
def pairUp : List D → List D
  | a :: b :: rest => node a b :: pairUp rest
  | [_] => []
  | [] => []

@[simp] theorem pairUp_length (xs : List D) : (pairUp node xs).length = xs.length / 2 := by
  fun_induction pairUp node xs with
  | case1 a b rest ih => simp only [length_cons, ih]; omega
  | case2 a => simp
  | case3 => simp

/-- The layers of a builder fed the leaves `xs`. -/
def streamLayers (xs : List D) : List (List D) :=
  if _h : xs = [] then [] else xs :: streamLayers (pairUp node xs)
termination_by xs.length
decreasing_by
  have := length_pos_iff.mpr _h
  rw [pairUp_length]
  omega

/-- Push a node on the lowest of `layers`; every layer that becomes even pushes the node of its
last two entries on the next one. -/
def pushNode : List (List D) → D → List (List D)
  | [], hash => [[hash]]
  | layer :: rest, hash =>
    match layer.getLast? with
    | none => [hash] :: rest
    | some left =>
      if (layer ++ [hash]).length % 2 = 0 then
        (layer ++ [hash]) :: pushNode rest (node left hash)
      else (layer ++ [hash]) :: rest

/-- Carry the last node of every odd layer one layer up, lowest layer first, until the highest
layer is a single node. -/
def carryTails : ℕ → List (List D) → List (List D)
  | 0, layers => layers
  | _ + 1, [] => []
  | fuel + 1, layer :: rest =>
    match layer.getLast? with
    | none => layer :: carryTails fuel rest
    | some tail =>
      if layer.length % 2 = 0 then layer :: carryTails fuel rest
      else if layer.length = 1 ∧ rest = [] then layer :: rest
      else layer :: carryTails fuel (pushNode node rest tail)

@[simp] theorem streamLayers_nil : streamLayers node ([] : List D) = [] := by
  rw [streamLayers, dif_pos rfl]

theorem streamLayers_of_ne {xs : List D} (h : xs ≠ []) :
    streamLayers node xs = xs :: streamLayers node (pairUp node xs) := by
  rw [streamLayers, dif_neg h]

/-! ### Pushing keeps the shape -/

theorem pairUp_snoc_even (xs : List D) (h : D) (heven : xs.length % 2 = 0) :
    pairUp node (xs ++ [h]) = pairUp node xs := by
  fun_induction pairUp node xs with
  | case1 a b rest ih =>
    simp only [length_cons] at heven
    simp only [cons_append, pairUp, ih (by omega)]
  | case2 a => simp at heven
  | case3 => rfl

theorem pairUp_snoc_odd (xs : List D) (l h : D) (hodd : xs.length % 2 = 1)
    (hl : xs.getLast? = some l) :
    pairUp node (xs ++ [h]) = pairUp node xs ++ [node l h] := by
  fun_induction pairUp node xs with
  | case1 a b rest ih =>
    simp only [length_cons] at hodd
    have hne : rest ≠ [] := by
      rintro rfl
      simp at hodd
    have hlast : rest.getLast? = some l := by
      rwa [getLast?_cons_of_ne_nil (by simp), getLast?_cons_of_ne_nil hne] at hl
    simp only [cons_append, pairUp, ih (by omega) hlast]
  | case2 a =>
    obtain rfl : a = l := by simpa using hl
    rfl
  | case3 => simp at hodd

/-- **Pushing a leaf.**  The layers of `xs` become the layers of `xs ++ [h]`. -/
theorem pushNode_streamLayers (xs : List D) (h : D) :
    pushNode node (streamLayers node xs) h = streamLayers node (xs ++ [h]) := by
  induction hm : xs.length using Nat.strong_induction_on generalizing xs h with
  | _ m ih =>
    subst hm
    rw [streamLayers_of_ne node (show xs ++ [h] ≠ [] by simp)]
    rcases eq_nil_or_concat xs with rfl | ⟨ys, l, hxs⟩
    · simp [pushNode, pairUp]
    · have hne : xs ≠ [] := by simp [hxs]
      have hlast : xs.getLast? = some l := by simp [hxs]
      have hpos := length_pos_iff.mpr hne
      rw [streamLayers_of_ne node hne, pushNode, hlast]
      simp only [length_append, length_singleton]
      rcases Nat.mod_two_eq_zero_or_one xs.length with heven | hodd
      · rw [if_neg (by omega), pairUp_snoc_even node xs h heven]
      · rw [if_pos (by omega), pairUp_snoc_odd node xs l h hodd hlast,
          ih _ (by rw [pairUp_length]; omega) _ _ rfl]

/-! ### Carrying the odd tails -/

theorem levelUp_of_even (xs : List D) (h : xs.length % 2 = 0) :
    levelUp node xs = pairUp node xs := by
  fun_induction pairUp node xs with
  | case1 a b rest ih =>
    simp only [length_cons] at h
    rw [levelUp, ih (by omega)]
  | case2 a => simp at h
  | case3 => rfl

theorem levelUp_of_odd (xs : List D) (tail : D) (h : xs.length % 2 = 1)
    (hl : xs.getLast? = some tail) : levelUp node xs = pairUp node xs ++ [tail] := by
  fun_induction pairUp node xs with
  | case1 a b rest ih =>
    simp only [length_cons] at h
    have hne : rest ≠ [] := by
      rintro rfl
      simp at h
    have hlast : rest.getLast? = some tail := by
      rwa [getLast?_cons_of_ne_nil (by simp), getLast?_cons_of_ne_nil hne] at hl
    rw [levelUp, ih (by omega) hlast]
    rfl
  | case2 a =>
    obtain rfl : a = tail := by simpa using hl
    rfl
  | case3 => simp at h

/-- **Carrying the tails.**  From the layers of a builder fed `xs`, carrying gives the layers of
the finished tree; one unit of fuel per leaf is enough. -/
theorem carryTails_streamLayers (fuel : ℕ) (xs : List D) (hne : xs ≠ [])
    (hfuel : xs.length ≤ fuel) :
    carryTails node fuel (streamLayers node xs) = layersOf node xs := by
  induction fuel generalizing xs with
  | zero => exact absurd (length_eq_zero_iff.mp (Nat.le_zero.mp hfuel)) hne
  | succ fuel ih =>
    have hpos := length_pos_iff.mpr hne
    obtain ⟨tail, hlast⟩ := Option.isSome_iff_exists.mp (getLast?_isSome.mpr hne)
    rw [streamLayers_of_ne node hne, carryTails, hlast]
    rcases Nat.lt_or_ge 1 xs.length with hgt | hle
    · -- above one node, either way the rest is the stream of the next level of the tree
      have hup : levelUp node xs ≠ [] := by
        rw [← length_pos_iff, levelUp_length]
        omega
      have hlen : (levelUp node xs).length ≤ fuel := by
        rw [levelUp_length]
        omega
      rw [layersOf_of_gt node hgt, ← ih _ hup hlen]
      rcases Nat.mod_two_eq_zero_or_one xs.length with heven | hodd
      · simp only [heven, if_true, levelUp_of_even node xs heven]
      · rw [levelUp_of_odd node xs tail hodd hlast, ← pushNode_streamLayers]
        simp only [hodd, one_ne_zero, if_false]
        rw [if_neg (by omega)]
    · obtain ⟨a, rfl⟩ := length_eq_one_iff.mp (show xs.length = 1 by omega)
      rw [layersOf_of_le node (by simp)]
      simp [pairUp]

/-! ### Reading siblings out of the layers -/

/-- The neighbour of the node above leaf `c` in each layer that has one, lowest layer first. -/
def siblingsIn : ℕ → List (List D) → List D
  | _, [] => []
  | c, layer :: rest => (layer[c ^^^ 1]?).toList ++ siblingsIn (c / 2) rest

theorem xor_one_eq (c : ℕ) : c ^^^ 1 = if c % 2 = 1 then c - 1 else c + 1 := by
  rcases Nat.even_or_odd' c with ⟨k, rfl | rfl⟩
  · rw [if_neg (by omega)]
    exact Nat.xor_one_of_even (by simp)
  · rw [if_pos (by omega)]
    exact Nat.xor_one_of_odd (by simp)

theorem stepAt_map_snd (c : ℕ) (xs : List D) :
    (stepAt c xs).map Prod.snd = (xs[c ^^^ 1]?).toList := by
  rw [stepAt, xor_one_eq]
  split
  · cases xs[c - 1]? <;> rfl
  · cases xs[c + 1]? <;> rfl

/-- **The cache is the path.**  In the finished layers the neighbours above leaf `c` are the
audit path of `c`. -/
theorem siblingsIn_layersOf (c : ℕ) (xs : List D) (hc : c < xs.length) :
    siblingsIn c (layersOf node xs) = (siblingsOf node c xs).map Prod.snd := by
  fun_induction layersOf node xs generalizing c with
  | case1 xs hle =>
    obtain ⟨a, rfl⟩ := length_eq_one_iff.mp (show xs.length = 1 by omega)
    obtain rfl : c = 0 := by simpa using hc
    rw [siblingsOf_of_le node _ (by simp)]
    rfl
  | case2 xs hgt ih =>
    rw [siblingsIn, siblingsOf_of_gt node c (by omega), map_append, stepAt_map_snd,
      ih (c / 2) (by rw [levelUp_length]; omega)]

end Irys.Merkle
