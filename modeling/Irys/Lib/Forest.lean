import Mathlib.Logic.Relation
import Mathlib.Tactic

/-!
# Forests by parent pointers

Nodes are stored under keys, and every node names the key of its parent, which may or may not be
stored.  Nothing here depends on what a node is.
-/

namespace Irys

open List

namespace Forest

variable {κ ν : Type} (look : κ → Option ν) (prev : ν → κ)

/-! ### Links and ancestors -/

/-- `p` is the parent of `c`, and both are stored. -/
def Link (c p : κ) : Prop := ∃ v, look c = some v ∧ prev v = p ∧ (look p).isSome

/-- `a` is `h` itself or an ancestor of it inside the store. -/
abbrev Anc : κ → κ → Prop := Relation.ReflTransGen (Link look prev)

/-- The height of a stored node; 0 for a key that is not stored. -/
def rank (height : ν → ℕ) (h : κ) : ℕ := ((look h).map height).getD 0

/-- A child is one higher than its parent. -/
def Graded (height : ν → ℕ) : Prop :=
  ∀ ⦃c v w⦄, look c = some v → look (prev v) = some w → height v = height w + 1

/-- The walk upwards from a key, of at most `fuel` nodes: the nodes with their keys. -/
def walk : ℕ → κ → List (κ × ν)
  | 0, _ => []
  | fuel + 1, h =>
    match look h with
    | none => []
    | some v => (h, v) :: walk fuel (prev v)

/-- The whole walk upwards from a key, to where it leaves the store. -/
inductive Lineage : κ → List (κ × ν) → Prop where
  | leave {h : κ} : look h = none → Lineage h []
  | step {h : κ} {v : ν} {l : List (κ × ν)} :
      look h = some v → Lineage (prev v) l → Lineage h ((h, v) :: l)

variable {look look' : κ → Option ν} {prev} {height : ν → ℕ} {a b c h p q : κ}

theorem rank_of_look {v : ν} (hv : look h = some v) : rank look height h = height v := by
  rw [rank, hv]
  rfl

theorem link_iff_of_look {v : ν} (hv : look c = some v) :
    Link look prev c p ↔ prev v = p ∧ (look p).isSome := by
  constructor
  · rintro ⟨w, hw, hp, hmem⟩
    cases hv.symm.trans hw
    exact ⟨hp, hmem⟩
  · rintro ⟨hp, hmem⟩
    exact ⟨v, hv, hp, hmem⟩

theorem Link.unique (hp : Link look prev c p) (hq : Link look prev c q) : p = q := by
  obtain ⟨v, hv, rfl, -⟩ := hp
  exact ((link_iff_of_look hv).mp hq).1

theorem Link.isSome_left (hp : Link look prev c p) : (look c).isSome := by
  obtain ⟨v, hv, -⟩ := hp
  rw [hv]
  rfl

theorem Link.isSome_right (hp : Link look prev c p) : (look p).isSome := by
  obtain ⟨-, -, -, hmem⟩ := hp
  exact hmem

theorem Link.rank_eq (hg : Graded look prev height) (hp : Link look prev c p) :
    rank look height c = rank look height p + 1 := by
  obtain ⟨v, hv, rfl, hmem⟩ := hp
  obtain ⟨w, hw⟩ := Option.isSome_iff_exists.mp hmem
  rw [rank_of_look hv, rank_of_look hw, hg hv hw]

theorem isSome_of_anc (ha : Anc look prev h a) (hh : (look h).isSome) : (look a).isSome := by
  induction ha with
  | refl => exact hh
  | tail _ hlink _ => exact hlink.isSome_right

/-- **The ancestors of one node are in line.** -/
theorem anc_total (ha : Anc look prev h a) (hb : Anc look prev h b) :
    Anc look prev a b ∨ Anc look prev b a :=
  Relation.ReflTransGen.total_of_right_unique (fun _ _ _ hp hq => hp.unique hq) ha hb

section

variable (hg : Graded look prev height) (ha : Anc look prev h a)
include hg ha

theorem rank_le_of_anc : rank look height a ≤ rank look height h := by
  induction ha with
  | refl => exact le_rfl
  | tail _ hlink ih =>
    have := hlink.rank_eq hg
    omega

theorem eq_of_anc_of_rank_le (hle : rank look height h ≤ rank look height a) : a = h := by
  rcases Relation.ReflTransGen.cases_tail ha with heq | ⟨c, hc, hlink⟩
  · exact heq
  · have h1 := rank_le_of_anc hg hc
    have h2 := hlink.rank_eq hg
    omega

theorem anc_of_rank_le (hb : Anc look prev h b) (hle : rank look height b ≤ rank look height a) :
    Anc look prev a b := by
  rcases anc_total ha hb with hab | hba
  · exact hab
  · rw [eq_of_anc_of_rank_le hg hba hle]

theorem anc_eq_of_rank_eq (hb : Anc look prev h b) (heq : rank look height a = rank look height b) :
    a = b :=
  (eq_of_anc_of_rank_le hg (anc_of_rank_le hg ha hb heq.ge) heq.le).symm

end

theorem anc_iff_eq_or_child : Anc look prev h a ↔ h = a ∨ ∃ c, Link look prev c a ∧
    Anc look prev h c := by
  constructor
  · intro ha
    rcases Relation.ReflTransGen.cases_tail ha with heq | ⟨c, hc, hlink⟩
    · exact .inl heq.symm
    · exact .inr ⟨c, hlink, hc⟩
  · rintro (rfl | ⟨c, hlink, hc⟩)
    · exact .refl
    · exact hc.tail hlink

theorem anc_iff_eq_or_parent (hp : Link look prev h p) :
    Anc look prev h a ↔ h = a ∨ Anc look prev p a := by
  constructor
  · intro ha
    rcases Relation.ReflTransGen.cases_head ha with heq | ⟨q, hq, hrest⟩
    · exact .inl heq
    · rw [hp.unique hq]
      exact .inr hrest
  · rintro (rfl | ha)
    · exact .refl
    · exact ha.head hp

theorem eq_of_anc_of_root (hroot : ∀ p, ¬ Link look prev h p) (ha : Anc look prev h a) :
    a = h := by
  rcases Relation.ReflTransGen.cases_head ha with heq | ⟨p, hp, -⟩
  · exact heq.symm
  · exact absurd hp (hroot p)

theorem eq_of_anc_of_none (hnone : look h = none) (ha : Anc look prev h a) : a = h := by
  refine eq_of_anc_of_root ?_ ha
  rintro p ⟨v, hv, -⟩
  cases hnone.symm.trans hv

theorem not_anc_sibling (hg : Graded look prev height) (ha : Link look prev a p)
    (hb : Link look prev b p) (hne : a ≠ b) (hha : Anc look prev h a) : ¬ Anc look prev h b := by
  intro hhb
  apply hne
  apply anc_eq_of_rank_eq hg hha hhb
  rw [ha.rank_eq hg, hb.rank_eq hg]

theorem exists_anc_at (hg : Graded look prev height) (ha : Anc look prev h a) {k : ℕ}
    (hlow : rank look height a ≤ k) (hhigh : k ≤ rank look height h) :
    ∃ y, Anc look prev h y ∧ Anc look prev y a ∧ rank look height y = k := by
  induction ha with
  | refl => exact ⟨h, .refl, .refl, by omega⟩
  | @tail c a hc hlink ih =>
    have hrank := hlink.rank_eq hg
    by_cases heq : k = rank look height a
    · exact ⟨a, hc.tail hlink, .refl, heq.symm⟩
    · obtain ⟨y, hhy, hyc, hy⟩ := ih (by omega)
      exact ⟨y, hhy, hyc.tail hlink, hy⟩

/-- **The lowest common ancestor** of two nodes that have one. -/
theorem exists_meet (ha : Anc look prev h a) (hb : Anc look prev b a) :
    ∃ m, Anc look prev h m ∧ Anc look prev b m ∧
      ∀ y, Anc look prev h y → Anc look prev b y → Anc look prev m y := by
  induction ha using Relation.ReflTransGen.head_induction_on with
  | refl => exact ⟨a, .refl, hb, fun y hy _ => hy⟩
  | @head h p hlink _ ih =>
    by_cases hbh : Anc look prev b h
    · exact ⟨h, .refl, hbh, fun y hy _ => hy⟩
    · obtain ⟨m, hpm, hbm, hmeet⟩ := ih
      refine ⟨m, hpm.head hlink, hbm, ?_⟩
      intro y hhy hby
      rcases (anc_iff_eq_or_parent hlink).mp hhy with rfl | hpy
      · exact absurd hby hbh
      · exact hmeet y hpy hby

/-! ### Dropping nodes -/

section Restrict

variable {keep : κ → Prop}

theorem link_of_restrict (hkeep : ∀ x, keep x → look' x = look x)
    (hdrop : ∀ x, ¬ keep x → look' x = none) (hl : Link look' prev c p) :
    Link look prev c p ∧ keep c ∧ keep p := by
  have hstored : ∀ x, (look' x).isSome → keep x := by
    intro x hx
    by_contra hk
    rw [hdrop x hk] at hx
    cases hx
  have hc := hstored c hl.isSome_left
  have hp := hstored p hl.isSome_right
  obtain ⟨v, hv, hprev, hmem⟩ := hl
  rw [hkeep c hc] at hv
  rw [hkeep p hp] at hmem
  exact ⟨⟨v, hv, hprev, hmem⟩, hc, hp⟩

theorem link_restrict (hkeep : ∀ x, keep x → look' x = look x) (hl : Link look prev c p)
    (hc : keep c) (hp : keep p) : Link look' prev c p := by
  obtain ⟨v, hv, hprev, hmem⟩ := hl
  refine ⟨v, ?_, hprev, ?_⟩
  · rw [hkeep c hc]
    exact hv
  · rw [hkeep p hp]
    exact hmem

/-- **Dropping nodes keeps the ancestry of what stays**, when every walk to the ancestor in
question stays among the nodes kept. -/
theorem anc_restrict_iff (keep : κ → Prop) (hkeep : ∀ x, keep x → look' x = look x)
    (hdrop : ∀ x, ¬ keep x → look' x = none) (hh : keep h)
    (hup : ∀ c p, Link look prev c p → keep c → Anc look prev p a → keep p) :
    Anc look' prev h a ↔ Anc look prev h a := by
  constructor
  · intro ha
    clear hup
    induction ha with
    | refl => exact .refl
    | tail _ hl ih => exact ih.tail (link_of_restrict hkeep hdrop hl).1
  · intro ha
    induction ha using Relation.ReflTransGen.head_induction_on with
    | refl => exact .refl
    | head hl hrest ih =>
      have hp := hup _ _ hl hh hrest
      exact (ih hp).head (link_restrict hkeep hl hh hp)

theorem graded_restrict (hg : Graded look prev height)
    (hstay : ∀ x v, look' x = some v → look x = some v) : Graded look' prev height :=
  fun c _ _ hv hw => hg (hstay c _ hv) (hstay _ _ hw)

end Restrict

/-! ### Walks -/

variable {l l' : List (κ × ν)}

theorem Lineage.unique (hl : Lineage look prev h l) (hl' : Lineage look prev h l') : l = l' := by
  induction hl generalizing l' with
  | leave hnone =>
    cases hl' with
    | leave _ => rfl
    | step hv _ => cases hnone.symm.trans hv
  | step hv _ ih =>
    cases hl' with
    | leave hnone => cases hnone.symm.trans hv
    | step hw hrest =>
      cases hv.symm.trans hw
      rw [ih hrest]

theorem length_walk_le (fuel : ℕ) (h : κ) : (walk look prev fuel h).length ≤ fuel := by
  induction fuel generalizing h with
  | zero => rfl
  | succ fuel ih =>
    rw [walk]
    split
    · exact Nat.zero_le _
    · exact Nat.succ_le_succ (ih _)

theorem walk_map {f : ν → ν} (hf : ∀ v, prev (f v) = prev v) (fuel : ℕ) (h : κ) :
    walk (fun k => (look k).map f) prev fuel h =
      (walk look prev fuel h).map fun x => (x.1, f x.2) := by
  induction fuel generalizing h with
  | zero => rfl
  | succ fuel ih =>
    rw [walk, walk]
    cases look h with
    | none => rfl
    | some v =>
      simp only [Option.map_some, map_cons, hf]
      rw [ih]

theorem walk_eq_of_lineage (hl : Lineage look prev h l) {fuel : ℕ} (hfuel : l.length ≤ fuel) :
    walk look prev fuel h = l := by
  induction hl generalizing fuel with
  | leave hnone =>
    cases fuel with
    | zero => rfl
    | succ fuel => simp only [walk, hnone]
  | step hv _ ih =>
    cases fuel with
    | zero => simp at hfuel
    | succ fuel =>
      simp only [walk, hv]
      rw [ih (by simpa using hfuel)]

theorem exists_lineage (hg : Graded look prev height) (h : κ) : ∃ l, Lineage look prev h l := by
  cases hv : look h with
  | none => exact ⟨[], .leave hv⟩
  | some v =>
    induction hn : height v using Nat.strong_induction_on generalizing h v with
    | _ n ih =>
      cases hp : look (prev v) with
      | none => exact ⟨[(h, v)], .step hv (.leave hp)⟩
      | some w =>
        have hlt := hg hv hp
        obtain ⟨l, hl⟩ := ih (height w) (by omega) (prev v) w hp rfl
        exact ⟨(h, v) :: l, .step hv hl⟩

/-- **A lineage visits the ancestors**, each with the node stored for it. -/
theorem Lineage.mem_iff (hl : Lineage look prev h l) {x : κ × ν} :
    x ∈ l ↔ Anc look prev h x.1 ∧ look x.1 = some x.2 := by
  induction hl with
  | @leave h hnone =>
    constructor
    · intro hx
      cases hx
    · rintro ⟨ha, hx⟩
      rw [eq_of_anc_of_none hnone ha, hnone] at hx
      cases hx
  | @step h v l hv hrest ih =>
    rw [mem_cons, ih]
    constructor
    · rintro (rfl | ⟨ha, hx⟩)
      · exact ⟨.refl, hv⟩
      · refine ⟨?_, hx⟩
        by_cases hp : (look (prev v)).isSome
        · exact ha.head ⟨v, hv, rfl, hp⟩
        · -- the parent is not stored, so its only ancestor is itself, which is not stored
          rw [Option.not_isSome_iff_eq_none] at hp
          rw [eq_of_anc_of_none hp ha, hp] at hx
          cases hx
    · rintro ⟨ha, hx⟩
      rcases Relation.ReflTransGen.cases_head ha with heq | ⟨p, hlink, hrest'⟩
      · refine .inl (Prod.ext heq.symm ?_)
        rw [← heq, hv, Option.some.injEq] at hx
        exact hx.symm
      · rw [← ((link_iff_of_look hv).mp hlink).1] at hrest'
        exact .inr ⟨hrest', hx⟩

section

variable (hg : Graded look prev height) (hl : Lineage look prev h l)
include hg hl

theorem Lineage.pairwise_height : l.Pairwise fun x y => height y.2 < height x.2 := by
  induction hl with
  | leave _ => exact List.Pairwise.nil
  | @step h v l hv hrest ih =>
    refine List.Pairwise.cons ?_ ih
    intro x hx
    obtain ⟨ha, hx'⟩ := hrest.mem_iff.mp hx
    by_cases hp : (look (prev v)).isSome
    · have hle := rank_le_of_anc hg ha
      obtain ⟨w, hw⟩ := Option.isSome_iff_exists.mp hp
      rw [rank_of_look hx', rank_of_look hw] at hle
      have := hg hv hw
      show height x.2 < height v
      omega
    · rw [Option.not_isSome_iff_eq_none] at hp
      cases hrest with
      | leave _ => cases hx
      | step hw _ => cases hp.symm.trans hw

theorem Lineage.nodup_keys : (l.map Prod.fst).Nodup := by
  rw [List.Nodup, pairwise_map]
  refine (hl.pairwise_height hg).imp_of_mem ?_
  intro x y hx hy hlt heq
  obtain ⟨-, hx'⟩ := hl.mem_iff.mp hx
  obtain ⟨-, hy'⟩ := hl.mem_iff.mp hy
  rw [← heq, hx', Option.some.injEq] at hy'
  rw [hy'] at hlt
  exact lt_irrefl _ hlt

/-- **A lineage is no longer than the store is large.** -/
theorem Lineage.length_le {keys : List κ} (hkeys : ∀ k, (look k).isSome → k ∈ keys) :
    l.length ≤ keys.length := by
  have hsub : l.map Prod.fst ⊆ keys := by
    intro k hk
    obtain ⟨x, hx, rfl⟩ := List.mem_map.mp hk
    obtain ⟨-, hx'⟩ := hl.mem_iff.mp hx
    apply hkeys
    rw [hx']
    rfl
  have hle := (subperm_of_subset (hl.nodup_keys hg) hsub).length_le
  rwa [length_map] at hle

/-- **A lineage passes the lineage of every ancestor**, after as many nodes as the heights
differ. -/
theorem Lineage.split_at (ha : Anc look prev h a) (hh : (look h).isSome) :
    ∃ pre rest, l = pre ++ rest ∧ Lineage look prev a rest ∧
      pre.length + rank look height a = rank look height h ∧
      ∀ x ∈ pre, Anc look prev h x.1 ∧ look x.1 = some x.2 ∧ rank look height a < height x.2 := by
  induction ha using Relation.ReflTransGen.head_induction_on generalizing l with
  | refl => exact ⟨[], l, rfl, hl, by simp, by simp⟩
  | @head h p hlink hpa ih =>
    have hrank := hlink.rank_eq hg
    have hp := hlink.isSome_right
    have hle := rank_le_of_anc hg hpa
    cases hl with
    | leave hnone =>
      rw [hnone] at hh
      cases hh
    | @step _ v l hv hrest =>
      obtain ⟨rfl, -⟩ := (link_iff_of_look hv).mp hlink
      obtain ⟨pre, rest, rfl, hlast, hlen, hpre⟩ := ih hrest hp
      refine ⟨(h, v) :: pre, rest, rfl, hlast, ?_, ?_⟩
      · rw [length_cons]
        omega
      · intro x hx
        rcases mem_cons.mp hx with rfl | hx
        · refine ⟨.refl, hv, ?_⟩
          have hv' : rank look height h = height v := rank_of_look hv
          show _ < height v
          omega
        · obtain ⟨hpx, hlook, hlt⟩ := hpre x hx
          exact ⟨hpx.head hlink, hlook, hlt⟩

end

theorem Lineage.isChain (hl : Lineage look prev h l) :
    l.IsChain fun x y => prev x.2 = y.1 ∧ look x.1 = some x.2 ∧ look y.1 = some y.2 := by
  induction hl with
  | leave _ => exact isChain_nil
  | step hv hrest ih =>
    cases hrest with
    | leave _ => exact isChain_singleton _
    | step hw _ => exact isChain_cons_cons.mpr ⟨⟨rfl, hv, hw⟩, ih⟩

theorem Lineage.length_le_rank (hg : Graded look prev height) (hl : Lineage look prev h l) :
    l.length ≤ rank look height h + 1 := by
  induction hl with
  | leave _ => exact Nat.zero_le _
  | @step h v l hv hrest ih =>
    rw [length_cons, rank_of_look hv]
    cases hrest with
    | leave _ => simp
    | step hw _ =>
      rw [rank_of_look hw] at ih
      have := hg hv hw
      omega

theorem isPrefix_of_isChain {α : Type} {R : α → α → Prop} (hR : Relator.RightUnique R)
    {l l' : List α} (hl : l.IsChain R) (hl' : l'.IsChain R) (hhead : l.head? = l'.head?)
    (hlen : l.length ≤ l'.length) : l <+: l' := by
  induction l generalizing l' with
  | nil => exact nil_prefix
  | cons x l ih =>
    cases l' with
    | nil => cases hhead
    | cons y l' =>
      obtain rfl : x = y := Option.some.inj hhead
      rw [cons_prefix_cons]
      refine ⟨rfl, ?_⟩
      cases l with
      | nil => exact nil_prefix
      | cons u l =>
        cases l' with
        | nil => simp at hlen
        | cons v l' =>
          rw [isChain_cons_cons] at hl hl'
          exact ih hl.2 hl'.2 (congrArg some (hR hl.1 hl'.1)) (by simpa using hlen)

theorem Lineage.rank_lt (hg : Graded look prev height) (hl : Lineage look prev h l)
    (hh : (look h).isSome) (ha : Anc look prev h a) :
    rank look height h < rank look height a + l.length := by
  induction hl with
  | leave hnone =>
    rw [hnone] at hh
    cases hh
  | @step h v l hv hrest ih =>
    rw [length_cons]
    rcases Relation.ReflTransGen.cases_head ha with rfl | ⟨p, hlink, hpa⟩
    · omega
    · have hrank := hlink.rank_eq hg
      obtain ⟨rfl, hp⟩ := (link_iff_of_look hv).mp hlink
      have := ih hp hpa
      omega

end Forest

end Irys
