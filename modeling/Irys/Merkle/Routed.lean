import Irys.Merkle.Layered

/-!
# Merkle trees that route a target

In a routed tree every branch hashes its two children together with a **pivot**, and every leaf
hashes a value together with its **bound**.  A proof is read from the root down: at each branch the
target is compared with the pivot, and the comparison picks the child whose id the next step has to
match.  This file is about such trees over any digests, values and keys.

The hash is not assumed injective everywhere: `RouteHash.BindsOn` asks for it on the branches and
leaves that were really hashed, and that no branch collides with a leaf there.
-/

namespace Irys.Merkle

open List

/-- One branch of a proof: the ids of the children and the pivot. -/
@[ext] structure RouteBranch (D K : Type) where
  left : D
  right : D
  pivot : K
  deriving DecidableEq

/-- A proof: the branches from the root down, then the leaf. -/
@[ext] structure Route (D V K : Type) where
  branches : List (RouteBranch D K)
  value : V
  bound : K
  deriving DecidableEq

/-- How branches and leaves are hashed. -/
structure RouteHash (D V K : Type) where
  branchId : RouteBranch D K → D
  leafId : V → K → D

variable {D V K : Type} {H : RouteHash D V K}

/-- A proof with one more branch above it. -/
def Route.under (r : Route D V K) (b : RouteBranch D K) : Route D V K :=
  { r with branches := b :: r.branches }

/-- The child a descent goes on with. -/
def RouteBranch.child (goesRight : K → Bool) (b : RouteBranch D K) : D :=
  if goesRight b.pivot then b.right else b.left

/-- **A descent.**  Every id of the proof is the one its parent names. -/
def Descends (H : RouteHash D V K) (goesRight : K → Bool) :
    D → List (RouteBranch D K) → V → K → Prop
  | root, [], value, bound => H.leafId value bound = root
  | root, b :: rest, value, bound =>
    H.branchId b = root ∧ Descends H goesRight (b.child goesRight) rest value bound

/-- The lower end of the leaf a descent reaches: the last pivot passed on the right. -/
def lowerBound (goesRight : K → Bool) (least : K) (branches : List (RouteBranch D K)) : K :=
  branches.foldl (fun low b => if goesRight b.pivot then b.pivot else low) least

/-- Whether a descent always goes right. -/
def rightmost (goesRight : K → Bool) (branches : List (RouteBranch D K)) : Bool :=
  branches.all fun b => goesRight b.pivot

/-! ### Binding -/

/-- The hash does not collide on the branches of `B` and the leaves of `L`. -/
structure RouteHash.BindsOn (H : RouteHash D V K) (B : Set (RouteBranch D K)) (L : Set (V × K)) :
    Prop where
  branch : ∀ b ∈ B, ∀ b' ∈ B, H.branchId b = H.branchId b' → b = b'
  leaf : ∀ l ∈ L, ∀ l' ∈ L, H.leafId l.1 l.2 = H.leafId l'.1 l'.2 → l = l'
  apart : ∀ b ∈ B, ∀ l ∈ L, H.branchId b ≠ H.leafId l.1 l.2

variable {B : Set (RouteBranch D K)} {L : Set (V × K)} {goesRight : K → Bool}

/-- **Two descents from one root that route alike coincide.**  The hash at each step fixes the
branch, its pivot fixes the child, and a leaf never stands where the other proof has a branch. -/
theorem Descends.unique (hbinds : H.BindsOn B L) {root : D} {bs bs' : List (RouteBranch D K)}
    {v v' : V} {k k' : K} (h : Descends H goesRight root bs v k)
    (h' : Descends H goesRight root bs' v' k') (hbs : ∀ b ∈ bs, b ∈ B) (hbs' : ∀ b ∈ bs', b ∈ B)
    (hl : (v, k) ∈ L) (hl' : (v', k') ∈ L) : bs = bs' ∧ v = v' ∧ k = k' := by
  induction bs generalizing root bs' with
  | nil =>
    cases bs' with
    | nil =>
      have heq := hbinds.leaf (v, k) hl (v', k') hl' (h.trans h'.symm)
      exact ⟨rfl, congrArg Prod.fst heq, congrArg Prod.snd heq⟩
    | cons b' bs' =>
      exact absurd (h'.1.trans h.symm) (hbinds.apart b' (hbs' b' mem_cons_self) _ hl)
  | cons b bs ih =>
    cases bs' with
    | nil =>
      exact absurd (h.1.trans h'.symm) (hbinds.apart b (hbs b mem_cons_self) _ hl')
    | cons b' bs' =>
      have heq : b = b' := hbinds.branch b (hbs b mem_cons_self) b'
        (hbs' b' mem_cons_self) (h.1.trans h'.1.symm)
      subst heq
      obtain ⟨hrest, hv, hk⟩ := ih h.2 h'.2 (fun x hx => hbs x (mem_cons_of_mem _ hx))
        fun x hx => hbs' x (mem_cons_of_mem _ hx)
      exact ⟨by rw [hrest], hv, hk⟩

theorem Descends.of_rightmost {root : D} {bs : List (RouteBranch D K)} {v : V} {k : K}
    (h : Descends H goesRight root bs v k) (hright : rightmost goesRight bs = true) :
    Descends H (fun _ => true) root bs v k := by
  induction bs generalizing root with
  | nil => exact h
  | cons b bs ih =>
    rw [rightmost, all_cons, Bool.and_eq_true] at hright
    have hchild : b.child goesRight = b.child fun _ => true := by
      simp [RouteBranch.child, hright.1]
    exact ⟨h.1, ih (hchild ▸ h.2) hright.2⟩

theorem lowerBound_of_rightmost {least : K} {bs : List (RouteBranch D K)}
    (hright : rightmost goesRight bs = true) :
    lowerBound goesRight least bs = lowerBound (fun _ => true) least bs := by
  induction bs generalizing least with
  | nil => rfl
  | cons b bs ih =>
    rw [rightmost, all_cons, Bool.and_eq_true] at hright
    rw [lowerBound, foldl_cons, if_pos hright.1]
    exact ih hright.2

/-! ### The honest tree -/

/-- A tree of leaves with their bounds. -/
inductive RouteTree (V K : Type) where
  | leaf (value : V) (bound : K)
  | node (left right : RouteTree V K)

namespace RouteTree

/-- The bound of the last leaf. -/
def bound : RouteTree V K → K
  | leaf _ k => k
  | node _ r => r.bound

/-- The leaves, left to right. -/
def leaves : RouteTree V K → List (V × K)
  | leaf v k => [(v, k)]
  | node l r => l.leaves ++ r.leaves

/-- The bounds of the leaves, left to right. -/
def bounds (t : RouteTree V K) : List K := t.leaves.map Prod.snd

variable (H) in
/-- The id of the root. -/
def id : RouteTree V K → D
  | leaf v k => H.leafId v k
  | node l r => H.branchId ⟨l.id, r.id, l.bound⟩

variable (H) in
/-- The branch over two trees. -/
def branch (l r : RouteTree V K) : RouteBranch D K := ⟨l.id H, r.id H, l.bound⟩

variable (H) in
/-- All branches of the tree. -/
def branches : RouteTree V K → List (RouteBranch D K)
  | leaf _ _ => []
  | node l r => branch H l r :: (l.branches ++ r.branches)

variable (H) in
/-- The proofs of the leaves, left to right. -/
def routes : RouteTree V K → List (Route D V K)
  | leaf v k => [⟨[], v, k⟩]
  | node l r => (l.routes ++ r.routes).map fun p => p.under (branch H l r)

variable (H) in
/-- The proof a target is led to. -/
def route (goesRight : K → Bool) : RouteTree V K → Route D V K
  | leaf v k => ⟨[], v, k⟩
  | node l r =>
    (if goesRight l.bound then r.route goesRight else l.route goesRight).under (branch H l r)

theorem leaves_ne_nil (t : RouteTree V K) : t.leaves ≠ [] := by
  induction t with
  | leaf v k => exact cons_ne_nil _ _
  | node l r ihl ihr => exact append_ne_nil_of_left_ne_nil ihl _

theorem bounds_ne_nil (t : RouteTree V K) : t.bounds ≠ [] := by
  rw [bounds, ne_eq, map_eq_nil_iff]
  exact t.leaves_ne_nil

@[simp] theorem bounds_leaf (v : V) (k : K) : (leaf v k).bounds = [k] := rfl

@[simp] theorem bounds_node (l r : RouteTree V K) : (node l r).bounds = l.bounds ++ r.bounds :=
  map_append

section

variable (t : RouteTree V K)

theorem getLast?_bounds : t.bounds.getLast? = some t.bound := by
  induction t with
  | leaf v k => rfl
  | node l r ihl ihr => rw [bounds_node, getLast?_append, ihr]; rfl

@[simp] theorem length_routes : (t.routes H).length = t.bounds.length := by
  induction t with
  | leaf v k => rfl
  | node l r ihl ihr => simp [routes, ihl, ihr]

theorem routes_map_leaf :
    (t.routes H).map (fun p => (p.value, p.bound)) = t.leaves := by
  induction t with
  | leaf v k => rfl
  | node l r ihl ihr =>
    rw [routes, leaves, List.map_map, ← ihl, ← ihr, ← map_append]
    rfl

theorem descends_route :
    Descends H goesRight (t.id H) (t.route H goesRight).branches (t.route H goesRight).value
      (t.route H goesRight).bound := by
  induction t with
  | leaf v k => rfl
  | node l r ihl ihr =>
    cases hgo : goesRight l.bound with
    | true =>
      rw [route, hgo]
      refine ⟨rfl, ?_⟩
      rw [branch, RouteBranch.child, hgo]
      exact ihr
    | false =>
      rw [route, hgo]
      refine ⟨rfl, ?_⟩
      rw [branch, RouteBranch.child, hgo]
      exact ihl

theorem route_subset :
    (∀ b ∈ (t.route H goesRight).branches, b ∈ t.branches H) ∧
      ((t.route H goesRight).value, (t.route H goesRight).bound) ∈ t.leaves := by
  induction t with
  | leaf v k => simp [route, leaves]
  | node l r ihl ihr =>
    cases hgo : goesRight l.bound with
    | true =>
      simp only [route, hgo, if_true, Route.under, branches, leaves, mem_cons, mem_append]
      exact ⟨fun b hb => hb.imp_right fun h => .inr (ihr.1 b h), .inr ihr.2⟩
    | false =>
      simp only [route, hgo, if_false, Bool.false_eq_true, Route.under, branches, leaves,
        mem_cons, mem_append]
      exact ⟨fun b hb => hb.imp_right fun h => .inl (ihl.1 b h), .inl ihl.2⟩

end

/-- **Against an honest root only the route of the target matches.** -/
theorem descends_iff (hbinds : H.BindsOn B L) {t : RouteTree V K}
    (hB : ∀ b ∈ t.branches H, b ∈ B) (hL : ∀ l ∈ t.leaves, l ∈ L) {p : Route D V K}
    (hbs : ∀ b ∈ p.branches, b ∈ B) (hl : (p.value, p.bound) ∈ L) :
    Descends H goesRight (t.id H) p.branches p.value p.bound ↔ p = t.route H goesRight := by
  constructor
  · intro h
    obtain ⟨hsub, hmem⟩ := @route_subset D V K H goesRight t
    obtain ⟨h₁, h₂, h₃⟩ := h.unique hbinds t.descends_route hbs
      (fun b hb => hB b (hsub b hb)) hl (hL _ hmem)
    exact Route.ext h₁ h₂ h₃
  · intro h
    rw [h]
    exact t.descends_route

/-! ### Where a target is led -/

/-- The lower end of interval `i` of a list of bounds, the first one at `least`. -/
def lowerEnd (least : K) : List K → ℕ → K
  | _, 0 => least
  | [], _ + 1 => least
  | k :: ks, i + 1 => lowerEnd k ks i

@[simp] theorem lowerEnd_zero (least : K) (ks : List K) : lowerEnd least ks 0 = least := by
  cases ks <;> rfl

@[simp] theorem lowerEnd_cons_succ (least k : K) (ks : List K) (i : ℕ) :
    lowerEnd least (k :: ks) (i + 1) = lowerEnd k ks i := rfl

theorem lowerEnd_append_left {least : K} {ks ks' : List K} {i : ℕ} (hi : i ≤ ks.length) :
    lowerEnd least (ks ++ ks') i = lowerEnd least ks i := by
  induction ks generalizing least i with
  | nil =>
    rw [Nat.le_zero.mp hi, lowerEnd_zero, lowerEnd_zero]
  | cons k ks ih =>
    cases i with
    | zero => rw [lowerEnd_zero, lowerEnd_zero]
    | succ i => exact ih (Nat.le_of_succ_le_succ hi)

theorem lowerEnd_append_right {least : K} {ks ks' : List K} (i : ℕ) :
    lowerEnd least (ks ++ ks') (ks.length + i) = lowerEnd (ks.getLastD least) ks' i := by
  induction ks generalizing least with
  | nil => rw [nil_append, length_nil, Nat.zero_add, getLastD_nil]
  | cons k ks ih =>
    rw [cons_append, length_cons, show ks.length + 1 + i = ks.length + i + 1 from by
      omega, lowerEnd_cons_succ, ih, getLastD_cons]

theorem lowerEnd_eq_or_mem (least : K) (ks : List K) (i : ℕ) :
    lowerEnd least ks i = least ∨ lowerEnd least ks i ∈ ks := by
  induction ks generalizing least i with
  | nil => cases i <;> exact .inl rfl
  | cons k ks ih =>
    cases i with
    | zero => exact .inl rfl
    | succ i =>
      rcases ih k i with h | h
      · exact .inr (by rw [lowerEnd_cons_succ, h]; exact mem_cons_self)
      · exact .inr (mem_cons_of_mem _ h)

section Order

variable [LinearOrder K]

/-- The route of a target: right at every pivot at or below it. -/
abbrev towards (target : K) : K → Bool := fun pivot => decide (pivot ≤ target)

/-- The intervals of a list of bounds cover everything above the least key; the last one is open
to the right. -/
theorem exists_interval {ks : List K} (hne : ks ≠ []) {least target : K} (hle : least ≤ target) :
    ∃ i, ∃ k, ks[i]? = some k ∧ lowerEnd least ks i ≤ target ∧
      (target < k ∨ i + 1 = ks.length) := by
  induction ks generalizing least with
  | nil => exact absurd rfl hne
  | cons k ks ih =>
    by_cases hk : target < k
    · exact ⟨0, k, rfl, hle, .inl hk⟩
    · cases ks with
      | nil => exact ⟨0, k, rfl, hle, .inr rfl⟩
      | cons k' ks =>
        obtain ⟨i, k'', hget, hlow, hhigh⟩ := ih (cons_ne_nil _ _) (not_lt.mp hk)
        exact ⟨i + 1, k'', hget, hlow, hhigh.imp_right (congrArg Nat.succ)⟩

theorem lowerEnd_lt {ks : List K} {least : K} (hord : (least :: ks).Pairwise (· < ·)) {i : ℕ} {k : K}
    (hi : ks[i]? = some k) : lowerEnd least ks i < k := by
  induction ks generalizing least i with
  | nil => simp at hi
  | cons k' ks ih =>
    obtain ⟨hleast, hord⟩ := pairwise_cons.mp hord
    cases i with
    | zero =>
      rw [getElem?_cons_zero, Option.some.injEq] at hi
      rw [lowerEnd_zero, ← hi]
      exact hleast k' mem_cons_self
    | succ i => exact ih hord hi

theorem le_bound {t : RouteTree V K} (hord : t.bounds.Pairwise (· < ·)) {k : K}
    (hk : k ∈ t.bounds) : k ≤ t.bound := by
  induction t with
  | leaf v k' => exact (mem_singleton.mp hk).le
  | node l r ihl ihr =>
    rw [bounds_node, pairwise_append] at hord
    rw [bounds_node] at hk
    rcases mem_append.mp hk with hkl | hkr
    · exact (hord.2.2 k hkl r.bound (mem_of_getLast? r.getLast?_bounds)).le
    · exact ihr hord.2.1 hkr

/-- **The leaf a target is led to.**  In a tree with increasing bounds it is the leaf whose interval
holds the target; the descent ends with that leaf's lower end, and is the rightmost one exactly at
the last leaf. -/
theorem route_spec {t : RouteTree V K} (hord : t.bounds.Pairwise (· < ·)) {least target : K}
    {i : ℕ} {k : K} (hi : t.bounds[i]? = some k) (hlow : lowerEnd least t.bounds i ≤ target)
    (hhigh : target < k ∨ i + 1 = t.bounds.length) :
    (t.routes H)[i]? = some (t.route H (towards target)) ∧
      lowerBound (towards target) least (t.route H (towards target)).branches
        = lowerEnd least t.bounds i ∧
      (rightmost (towards target) (t.route H (towards target)).branches = true ↔
        i + 1 = t.bounds.length) := by
  induction t generalizing least i with
  | leaf v k' =>
    have hi0 : i = 0 := by
      have hlt := lt_length_of_some hi
      rw [bounds_leaf, length_singleton] at hlt
      omega
    subst hi0
    simp [routes, route, lowerBound, rightmost]
  | node l r ihl ihr =>
    rw [bounds_node, pairwise_append] at hord
    obtain ⟨hordl, hordr, hlr⟩ := hord
    rw [bounds_node] at hi hlow hhigh ⊢
    have hrpos : 0 < r.bounds.length := length_pos_of_ne_nil r.bounds_ne_nil
    rcases Nat.lt_or_ge i l.bounds.length with hil | hil
    · -- a leaf of the left tree: the target is below its bound, and so below the pivot
      rw [getElem?_append_left hil] at hi
      have hk : target < k := hhigh.resolve_right (by rw [length_append]; omega)
      have hkl : k ≤ l.bound := le_bound hordl (mem_of_getElem? hi)
      have hgo : towards target l.bound = false := decide_eq_false (not_le.mpr (hk.trans_le hkl))
      rw [lowerEnd_append_left hil.le] at hlow ⊢
      obtain ⟨hroute, hlb, -⟩ := ihl hordl hi hlow (.inl hk)
      refine ⟨?_, ?_, ?_⟩
      · rw [routes, route, hgo, getElem?_map, getElem?_append_left (by simpa using hil), hroute]
        rfl
      · rw [route, hgo, Route.under, lowerBound, foldl_cons, branch, if_neg (by simp [hgo])]
        exact hlb
      · rw [route, hgo, Route.under, rightmost, all_cons, branch, hgo, Bool.false_and,
          length_append]
        constructor
        · intro h
          cases h
        · intro h
          omega
    · -- a leaf of the right tree: the pivot is at most its lower end, and so the target
      obtain ⟨j, rfl⟩ := Nat.exists_eq_add_of_le hil
      have hlast : l.bounds.getLastD least = l.bound := by
        rw [getLastD_eq_getLast?, l.getLast?_bounds, Option.getD_some]
      rw [getElem?_append_right hil, Nat.add_sub_cancel_left] at hi
      rw [lowerEnd_append_right, hlast] at hlow ⊢
      have hpivot : l.bound ≤ lowerEnd l.bound r.bounds j := by
        rcases lowerEnd_eq_or_mem l.bound r.bounds j with h | h
        · exact h.ge
        · exact (hlr _ (mem_of_getLast? l.getLast?_bounds) _ h).le
      have hgo : towards target l.bound = true := decide_eq_true (hpivot.trans hlow)
      obtain ⟨hroute, hlb, hright⟩ := ihr hordr hi hlow
        (hhigh.imp_right fun h => by rw [length_append] at h; omega)
      refine ⟨?_, ?_, ?_⟩
      · rw [routes, route, hgo, getElem?_map,
          getElem?_append_right (by simp), length_routes, Nat.add_sub_cancel_left, hroute]
        rfl
      · rw [route, hgo, Route.under, lowerBound, foldl_cons, branch, if_pos hgo]
        exact hlb
      · rw [route, hgo, Route.under, rightmost, all_cons, branch, hgo, Bool.true_and, length_append]
        refine Iff.trans hright ?_
        omega

end Order

end RouteTree

end Irys.Merkle
