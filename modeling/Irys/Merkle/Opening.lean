import Irys.Merkle.Layered

/-!
# Opening a layered Merkle tree

Climbing an audit path from a leaf combines the running digest with one sibling per step.
This file proves what a climb that ends in the root says about its start and its siblings,
with no assumption that either is honest.

The hash is not assumed injective everywhere.  `P` is the set of pairs that were really
combined, `node` is injective **on `P`**, and `Leafy` marks digests that no pair of `P`
combines to (domain separation).  Under these:

* `rootOf_inj` — two trees of one size with one root have the same leaves;
* `foldPath_inj`, `foldPath_left_inj`, `foldPath_diverge` — two climbs that end in one digest,
  neither honest.
-/

namespace Irys.Merkle

open List

variable {D : Type} (node : D → D → D)

/-! ### Climbing a path -/

/-- The pair one step combines, left child first. -/
def stepPair (r : D) : Side × D → D × D
  | (.left, s) => (s, r)
  | (.right, s) => (r, s)

/-- One step of a climb. -/
def stepUp (r : D) (s : Side × D) : D := node (stepPair r s).1 (stepPair r s).2

/-- The digest a climb from `r` along `path` ends in. -/
def foldPath (r : D) (path : List (Side × D)) : D := path.foldl (stepUp node) r

/-- The pairs a climb combines, leaf to root. -/
def pathPairs : D → List (Side × D) → List (D × D)
  | _, [] => []
  | r, s :: rest => stepPair r s :: pathPairs (stepUp node r s) rest

@[simp] theorem foldPath_nil (r : D) : foldPath node r [] = r := rfl

@[simp] theorem foldPath_cons (r : D) (s : Side × D) (rest : List (Side × D)) :
    foldPath node r (s :: rest) = foldPath node (stepUp node r s) rest := rfl

theorem foldPath_append (r : D) (p q : List (Side × D)) :
    foldPath node r (p ++ q) = foldPath node (foldPath node r p) q :=
  foldl_append

theorem foldPath_snoc (r : D) (p : List (Side × D)) (s : Side × D) :
    foldPath node r (p ++ [s]) = stepUp node (foldPath node r p) s := by
  rw [foldPath_append, foldPath_cons, foldPath_nil]

theorem pathPairs_append (r : D) (p q : List (Side × D)) :
    pathPairs node r (p ++ q) = pathPairs node r p ++ pathPairs node (foldPath node r p) q := by
  induction p generalizing r with
  | nil => rfl
  | cons s rest ih => simp [pathPairs, ih]

theorem pathPairs_snoc (r : D) (p : List (Side × D)) (s : Side × D) :
    pathPairs node r (p ++ [s]) = pathPairs node r p ++ [stepPair (foldPath node r p) s] := by
  rw [pathPairs_append]
  rfl

theorem zip_fst_snd (path : List (Side × D)) :
    (path.map Prod.fst).zip (path.map Prod.snd) = path := by
  induction path with
  | nil => rfl
  | cons s rest ih => rw [map_cons, map_cons, zip_cons_cons, ih]

/-! ### The pairs a tree combines -/

/-- The pairs one level combines. -/
def levelPairs : List D → List (D × D)
  | a :: b :: rest => (a, b) :: levelPairs rest
  | [_] => []
  | [] => []

/-- Every pair combined on the way from the leaves to the root. -/
def treePairs (xs : List D) : List (D × D) :=
  if _h : xs.length ≤ 1 then [] else levelPairs xs ++ treePairs (levelUp node xs)
termination_by xs.length
decreasing_by exact levelUp_length_lt node (by omega)

theorem treePairs_of_le {xs : List D} (h : xs.length ≤ 1) : treePairs node xs = [] := by
  rw [treePairs, dif_pos h]

theorem treePairs_of_gt {xs : List D} (h : 1 < xs.length) :
    treePairs node xs = levelPairs xs ++ treePairs node (levelUp node xs) := by
  rw [treePairs, dif_neg (by omega)]

theorem levelPairs_take (xs : List D) (k : ℕ) :
    levelPairs (xs.take (2 * k)) = (levelPairs xs).take k :=
  (pairing_cut rfl (by simp [levelPairs]) (fun _ _ _ => rfl) xs k).1

theorem levelPairs_drop (xs : List D) (k : ℕ) :
    levelPairs (xs.drop (2 * k)) = (levelPairs xs).drop k :=
  (pairing_cut rfl (by simp [levelPairs]) (fun _ _ _ => rfl) xs k).2

theorem treePairs_split [Inhabited D] (e : ℕ) (xs : List D) (hlo : 2 ^ e < xs.length)
    (hhi : xs.length ≤ 2 ^ (e + 1)) :
    treePairs node (xs.take (2 ^ e)) ⊆ treePairs node xs ∧
      treePairs node (xs.drop (2 ^ e)) ⊆ treePairs node xs ∧
      (rootOf node (xs.take (2 ^ e)), rootOf node (xs.drop (2 ^ e))) ∈ treePairs node xs := by
  induction e generalizing xs with
  | zero =>
    obtain ⟨a, b, rfl⟩ := length_eq_two.mp (show xs.length = 2 by omega)
    rw [show [a, b].take (2 ^ 0) = [a] from rfl, show [a, b].drop (2 ^ 0) = [b] from rfl,
      treePairs_of_gt node (show 1 < [a, b].length by simp),
      treePairs_of_le node (show [a].length ≤ 1 by simp),
      treePairs_of_le node (show [b].length ≤ 1 by simp)]
    simp [levelPairs]
  | succ e ih =>
    have hlen := levelUp_length node xs
    rw [pow_succ'] at hlo ⊢
    rw [pow_succ'] at hhi
    have htake : 1 < (xs.take (2 * 2 ^ e)).length := by
      rw [length_take]
      have := Nat.one_le_two_pow (n := e)
      omega
    obtain ⟨hl, hr, hroot⟩ := ih (levelUp node xs) (by omega) (by omega)
    rw [levelUp_take] at hl hroot
    rw [levelUp_drop] at hr hroot
    rw [rootOf_levelUp, rootOf_levelUp] at hroot
    rw [treePairs_of_gt node (show 1 < xs.length by omega), treePairs_of_gt node htake, levelPairs_take]
    refine ⟨?_, ?_, mem_append_right _ hroot⟩
    · apply append_subset.mpr
      exact ⟨List.Subset.trans (take_subset _ _) (subset_append_left _ _),
        List.Subset.trans hl (subset_append_right _ _)⟩
    · rcases Nat.lt_or_ge 1 (xs.drop (2 * 2 ^ e)).length with hgt | hle
      · rw [treePairs_of_gt node hgt, levelPairs_drop]
        apply append_subset.mpr
        exact ⟨List.Subset.trans (drop_subset _ _) (subset_append_left _ _),
          List.Subset.trans hr (subset_append_right _ _)⟩
      · rw [treePairs_of_le node hle]
        exact nil_subset _

/-! ### Honest paths climb to the root -/

/-- **Induction along the top split** of a list into its largest proper power of two and the
rest. -/
theorem splitInduction {motive : List D → Prop} (small : ∀ xs, xs.length < 2 → motive xs)
    (split : ∀ e xs, 2 ^ e < xs.length → xs.length ≤ 2 ^ (e + 1) → motive (xs.take (2 ^ e)) →
      motive (xs.drop (2 ^ e)) → motive xs) (xs : List D) : motive xs := by
  induction hm : xs.length using Nat.strong_induction_on generalizing xs with
  | _ m ih =>
    subst hm
    rcases Nat.lt_or_ge xs.length 2 with hm | hm
    · exact small xs hm
    · obtain ⟨hlo, hhi⟩ := topExponent hm
      have hpos := Nat.two_pow_pos (Nat.log2 (xs.length - 1))
      exact split _ xs hlo hhi (ih _ (by rw [length_take]; omega) _ rfl)
        (ih _ (by rw [length_drop]; omega) _ rfl)

section Root

variable [Inhabited D]

/-- **Completeness.**  The audit path of a leaf climbs from that leaf to the root. -/
theorem foldPath_siblingsOf (xs : List D) (c : ℕ) (r : D) (h : xs[c]? = some r) :
    foldPath node r (siblingsOf node c xs) = rootOf node xs := by
  obtain ⟨hc, hr⟩ := List.getElem?_eq_some_iff.mp h
  induction xs using splitInduction generalizing c with
  | small xs hm =>
    obtain ⟨a, rfl⟩ := length_eq_one_iff.mp (show xs.length = 1 by omega)
    obtain rfl : c = 0 := by simpa using hc
    rw [siblingsOf_of_le node _ (by simp)]
    simpa using hr.symm
  | split e xs hlo hhi ihl ihr =>
    rw [rootOf_split node e xs hlo hhi]
    rcases Nat.lt_or_ge c (2 ^ e) with hck | hck
    · rw [← getElem?_take_of_lt hck] at h
      obtain ⟨hc', hr'⟩ := List.getElem?_eq_some_iff.mp h
      rw [siblingsOf_split_left node e c xs hlo hhi hck, foldPath_snoc, ihl c h hc' hr']
      rfl
    · rw [← Nat.add_sub_cancel' hck, ← getElem?_drop] at h
      obtain ⟨hc', hr'⟩ := List.getElem?_eq_some_iff.mp h
      rw [siblingsOf_split_right node e c xs hlo hhi hck hc, foldPath_snoc, ihr _ h hc' hr']
      rfl

theorem pathPairs_siblingsOf_subset (xs : List D) (c : ℕ) (r : D) (h : xs[c]? = some r) :
    pathPairs node r (siblingsOf node c xs) ⊆ treePairs node xs := by
  induction xs using splitInduction generalizing c with
  | small xs hm =>
    rw [siblingsOf_of_le node _ (by omega)]
    exact nil_subset _
  | split e xs hlo hhi ihl ihr =>
    have hc := lt_length_of_some h
    obtain ⟨hl, hr, hroot⟩ := treePairs_split node e xs hlo hhi
    rcases Nat.lt_or_ge c (2 ^ e) with hck | hck
    · rw [← getElem?_take_of_lt hck] at h
      rw [siblingsOf_split_left node e c xs hlo hhi hck, pathPairs_snoc,
        foldPath_siblingsOf node _ c r h]
      refine append_subset.mpr ⟨?_, by simpa [stepPair] using hroot⟩
      exact List.Subset.trans (ihl c h) hl
    · rw [← Nat.add_sub_cancel' hck, ← getElem?_drop] at h
      rw [siblingsOf_split_right node e c xs hlo hhi hck hc, pathPairs_snoc,
        foldPath_siblingsOf node _ _ r h]
      refine append_subset.mpr ⟨?_, by simpa [stepPair] using hroot⟩
      exact List.Subset.trans (ihr _ h) hr

end Root

/-! ### Climbs that end in the root -/

section Binding

variable {node} {P : Set (D × D)} {Leafy : D → Prop}

section

variable (node) (P)

/-- `node` does not collide on the pairs of `P`. -/
def NodeInjOn : Prop :=
  ∀ p ∈ P, ∀ q ∈ P, node p.1 p.2 = node q.1 q.2 → p = q

/-- No pair of `P` combines to a leafy digest. -/
def NodeApart (Leafy : D → Prop) : Prop :=
  ∀ p ∈ P, ∀ x, Leafy x → node p.1 p.2 ≠ x

end

/-- A climb that ends in a leafy digest has no steps. -/
theorem path_eq_nil (hapart : NodeApart node P Leafy) {r : D} {path : List (Side × D)}
    (hp : ∀ q ∈ pathPairs node r path, q ∈ P) (hx : Leafy (foldPath node r path)) : path = [] := by
  rcases eq_nil_or_concat' path with h | ⟨p, s, rfl⟩
  · exact h
  · rw [foldPath_snoc] at hx
    rw [pathPairs_snoc] at hp
    exact absurd rfl (hapart _ (hp _ (by simp)) _ hx)

theorem mem_pathPairs_snoc {r : D} {p : List (Side × D)} {s : Side × D} {q : D × D}
    (hq : q ∈ pathPairs node r p) : q ∈ pathPairs node r (p ++ [s]) := by
  rw [pathPairs_snoc]
  exact mem_append_left _ hq

section

variable (hinj : NodeInjOn node P)
include hinj

/-- The last steps of two climbs that end in one digest. -/
theorem foldPath_snoc_inj {r r' : D} {p p' : List (Side × D)} {s s' : Side × D}
    (hside : s.1 = s'.1) (hp : ∀ q ∈ pathPairs node r (p ++ [s]), q ∈ P)
    (hp' : ∀ q ∈ pathPairs node r' (p' ++ [s']), q ∈ P)
    (h : foldPath node r (p ++ [s]) = foldPath node r' (p' ++ [s'])) :
    foldPath node r p = foldPath node r' p' ∧ s = s' := by
  rw [foldPath_snoc, foldPath_snoc] at h
  rw [pathPairs_snoc] at hp hp'
  have hpair := hinj _ (hp _ (by simp)) _ (hp' _ (by simp)) h
  obtain ⟨side, s⟩ := s
  obtain ⟨side', s'⟩ := s'
  obtain rfl : side = side' := hside
  cases side <;> simp only [stepPair, Prod.mk.injEq] at hpair ⊢ <;> tauto

/-- **Binding.**  A climb from a leafy digest that ends in the root of a tree with leafy leaves
started at a leaf of the tree and used that leaf's own audit path. -/
theorem opening_unique [Inhabited D] (hapart : NodeApart node P Leafy) (xs : List D)
    (hne : xs ≠ []) (hleaf : ∀ x ∈ xs, Leafy x) (htree : ∀ p ∈ treePairs node xs, p ∈ P) (r : D)
    (path : List (Side × D)) (hr : Leafy r) (hpath : ∀ p ∈ pathPairs node r path, p ∈ P)
    (h : foldPath node r path = rootOf node xs) :
    ∃ c, xs[c]? = some r ∧ path = siblingsOf node c xs := by
  induction xs using splitInduction generalizing path with
  | small xs hm =>
    have hlen : 0 < xs.length := length_pos_iff.mpr hne
    obtain ⟨a, rfl⟩ := length_eq_one_iff.mp (show xs.length = 1 by omega)
    rw [rootOf_singleton] at h
    -- a last step would combine a pair to the only leaf
    obtain rfl := path_eq_nil hapart hpath (h ▸ hleaf a (by simp))
    exact ⟨0, by simpa using h.symm, by rw [siblingsOf_of_le node _ (by simp)]⟩
  | split e xs hlo hhi ihl ihr =>
    have hpos : 0 < 2 ^ e := Nat.two_pow_pos e
    obtain ⟨hl, hr', hroot⟩ := treePairs_split node e xs hlo hhi
    rw [rootOf_split node e xs hlo hhi] at h
    rcases eq_nil_or_concat' path with rfl | ⟨p, s, rfl⟩
    · exact absurd h.symm (hapart _ (htree _ hroot) r hr)
    · rw [foldPath_snoc] at h
      rw [pathPairs_snoc] at hpath
      have hpair := hinj _ (hpath _ (by simp)) _ (htree _ hroot) h
      have hsub : ∀ q ∈ pathPairs node r p, q ∈ P := fun q hq => hpath q (by simp [hq])
      obtain ⟨side, s⟩ := s
      cases side with
      | left =>
        simp only [stepPair, Prod.mk.injEq] at hpair
        obtain ⟨c, hget, rfl⟩ := ihr
          (by rw [← length_pos_iff, length_drop]; omega)
          (fun x hx => hleaf x (mem_of_mem_drop hx)) (fun q hq => htree q (hr' hq))
          p hsub hpair.2
        rw [getElem?_drop] at hget
        refine ⟨2 ^ e + c, hget, ?_⟩
        rw [siblingsOf_split_right node e _ xs hlo hhi (by omega)
          (lt_length_of_some hget), Nat.add_sub_cancel_left, hpair.1]
      | right =>
        simp only [stepPair, Prod.mk.injEq] at hpair
        obtain ⟨c, hget, rfl⟩ := ihl
          (by rw [← length_pos_iff, length_take]; omega)
          (fun x hx => hleaf x (mem_of_mem_take hx)) (fun q hq => htree q (hl hq))
          p hsub hpair.1
        have hck : c < 2 ^ e := by
          have := lt_length_of_some hget
          rw [length_take] at this
          omega
        rw [getElem?_take_of_lt hck] at hget
        exact ⟨c, hget, by rw [siblingsOf_split_left node e c xs hlo hhi hck, hpair.2]⟩

theorem rootOf_inj [Inhabited D] (xs ys : List D) (hlen : xs.length = ys.length)
    (hxs : ∀ p ∈ treePairs node xs, p ∈ P) (hys : ∀ p ∈ treePairs node ys, p ∈ P)
    (h : rootOf node xs = rootOf node ys) : xs = ys := by
  induction xs using splitInduction generalizing ys with
  | small xs hm =>
    rcases xs with _ | ⟨a, _ | ⟨_, _⟩⟩
    · exact (length_eq_zero_iff.mp hlen.symm).symm
    · obtain ⟨b, rfl⟩ := length_eq_one_iff.mp hlen.symm
      rw [rootOf_singleton, rootOf_singleton] at h
      rw [h]
    · simp at hm
  | split e xs hlo hhi ihl ihr =>
    obtain ⟨hxl, hxr, hxroot⟩ := treePairs_split node e xs hlo hhi
    obtain ⟨hyl, hyr, hyroot⟩ := treePairs_split node e ys (by omega) (by omega)
    rw [rootOf_split node e xs hlo hhi, rootOf_split node e ys (by omega) (by omega)] at h
    have hpair := hinj _ (hxs _ hxroot) _ (hys _ hyroot) h
    rw [Prod.mk.injEq] at hpair
    have hleft := ihl (ys.take (2 ^ e)) (by rw [length_take, length_take, hlen])
      (fun p hp => hxs p (hxl hp)) (fun p hp => hys p (hyl hp)) hpair.1
    have hright := ihr (ys.drop (2 ^ e)) (by rw [length_drop, length_drop, hlen])
      (fun p hp => hxs p (hxr hp)) (fun p hp => hys p (hyr hp)) hpair.2
    rw [← take_append_drop (2 ^ e) xs, hleft, hright, take_append_drop]

theorem foldPath_inj (r r' : D) (p p' : List (Side × D))
    (hsides : p.map Prod.fst = p'.map Prod.fst) (hp : ∀ q ∈ pathPairs node r p, q ∈ P)
    (hp' : ∀ q ∈ pathPairs node r' p', q ∈ P) (h : foldPath node r p = foldPath node r' p') :
    r = r' ∧ p = p' := by
  induction p using List.reverseRecOn generalizing p' with
  | nil =>
    obtain rfl : p' = [] := by simpa using hsides.symm
    exact ⟨h, rfl⟩
  | append_singleton p s ih =>
    rcases eq_nil_or_concat' p' with rfl | ⟨p', s', rfl⟩
    · simp at hsides
    · rw [map_append, map_append] at hsides
      have hlast : s.1 = s'.1 := by simpa using append_inj_right' hsides rfl
      have hinit := append_inj_left' hsides rfl
      obtain ⟨hfold, rfl⟩ := foldPath_snoc_inj hinj hlast hp hp' h
      obtain ⟨hr, rfl⟩ := ih p' hinit (fun q hq => hp q (mem_pathPairs_snoc hq))
        (fun q hq => hp' q (mem_pathPairs_snoc hq)) hfold
      exact ⟨hr, rfl⟩

/-- Two climbs from leafy digests that end in one digest, with left siblings throughout, are the
same climb, **whatever their lengths**. -/
theorem foldPath_left_inj (hapart : NodeApart node P Leafy) (r r' : D) (p p' : List (Side × D))
    (hr : Leafy r) (hr' : Leafy r') (hleft : ∀ s ∈ p, s.1 = Side.left)
    (hleft' : ∀ s ∈ p', s.1 = Side.left) (hp : ∀ q ∈ pathPairs node r p, q ∈ P)
    (hp' : ∀ q ∈ pathPairs node r' p', q ∈ P) (h : foldPath node r p = foldPath node r' p') :
    r = r' ∧ p = p' := by
  induction p using List.reverseRecOn generalizing p' with
  | nil =>
    obtain rfl := path_eq_nil hapart hp' (h ▸ hr)
    exact ⟨h, rfl⟩
  | append_singleton p s ih =>
    rcases eq_nil_or_concat' p' with rfl | ⟨p', s', rfl⟩
    · have := path_eq_nil hapart hp (h.symm ▸ hr')
      simp at this
    · have hlast : s.1 = s'.1 := (hleft s (by simp)).trans (hleft' s' (by simp)).symm
      obtain ⟨hfold, rfl⟩ := foldPath_snoc_inj hinj hlast hp hp' h
      obtain ⟨hr, rfl⟩ := ih p' (fun t ht => hleft t (by simp [ht]))
        (fun t ht => hleft' t (by simp [ht])) (fun q hq => hp q (mem_pathPairs_snoc hq))
        (fun q hq => hp' q (mem_pathPairs_snoc hq)) hfold
      exact ⟨hr, rfl⟩

/-- Two climbs that end in one digest and part ways at one step: each one's sibling there is
what the other one had climbed to. -/
theorem foldPath_diverge (r r' s s' : D) (p p' t t' : List (Side × D))
    (hsides : t.map Prod.fst = t'.map Prod.fst)
    (hp : ∀ q ∈ pathPairs node r (p ++ (Side.right, s) :: t), q ∈ P)
    (hp' : ∀ q ∈ pathPairs node r' (p' ++ (Side.left, s') :: t'), q ∈ P)
    (h : foldPath node r (p ++ (Side.right, s) :: t)
      = foldPath node r' (p' ++ (Side.left, s') :: t')) :
    s = foldPath node r' p' ∧ s' = foldPath node r p := by
  rw [foldPath_append, foldPath_append, foldPath_cons, foldPath_cons] at h
  rw [pathPairs_append] at hp hp'
  obtain ⟨hnode, -⟩ := foldPath_inj hinj _ _ t t' hsides
    (fun q hq => hp q (mem_append_right _ (mem_cons_of_mem _ hq)))
    (fun q hq => hp' q (mem_append_right _ (mem_cons_of_mem _ hq))) h
  have hpair := hinj _ (hp _ (mem_append_right _ mem_cons_self)) _
    (hp' _ (mem_append_right _ mem_cons_self)) hnode
  simp only [stepPair, Prod.mk.injEq] at hpair
  exact ⟨hpair.2, hpair.1.symm⟩

end

end Binding

end Irys.Merkle
