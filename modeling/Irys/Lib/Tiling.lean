import Irys.Lib.Loops

/-!
# Labelled tilings of an offset range

Spans with inclusive ends are pushed one after the other; one that continues the last span under
the same label is merged into it.  What is pushed in order tiles a range, and stays a tiling.
-/

namespace Irys

/-- A labelled span `low..=high`. -/
structure Piece (κ : Type) where
  low : ℕ
  high : ℕ
  label : κ
  deriving DecidableEq

variable {ε κ : Type} {f : ℕ → κ} {w lo mid hi : ℕ} {p : Piece κ} {ps qs : List (Piece κ)}

/-- **The pieces tile `lo..hi`**, the end excluded, in order and without an empty piece, and each
is labelled as `f` labels every offset in it. -/
def Tiles (f : ℕ → κ) : ℕ → ℕ → List (Piece κ) → Prop
  | lo, hi, [] => lo = hi
  | lo, hi, p :: ps => p.low = lo ∧ lo ≤ p.high ∧ (∀ o, lo ≤ o → o ≤ p.high → f o = p.label) ∧
      Tiles f (p.high + 1) hi ps

/-- Neighbouring pieces carry different labels. -/
def Parted (ps : List (Piece κ)) : Prop := ps.IsChain (·.label ≠ ·.label)

/-- Append a piece, or move the end of the last one where it continues it under its label. -/
def pushMerged [DecidableEq κ] (w : ℕ) (ps : List (Piece κ)) (p : Piece κ) :
    Res ε (List (Piece κ)) :=
  match ps.getLast? with
  | none => .ok [p]
  | some last =>
    if last.label = p.label then do
      let next ← expect (checkedAdd w last.high 1)
      .ok (if next = p.low then ps.dropLast ++ [{ last with high := p.high }] else ps ++ [p])
    else .ok (ps ++ [p])

namespace Tiles

theorem append_iff : Tiles f lo hi (ps ++ qs) ↔ ∃ mid, Tiles f lo mid ps ∧ Tiles f mid hi qs := by
  induction ps generalizing lo with
  | nil => simp [Tiles]
  | cons p ps ih =>
    simp only [List.cons_append, Tiles, ih]
    constructor
    · rintro ⟨hlow, hle, hlabel, mid, hps, hqs⟩
      exact ⟨mid, ⟨hlow, hle, hlabel, hps⟩, hqs⟩
    · rintro ⟨mid, ⟨hlow, hle, hlabel, hps⟩, hqs⟩
      exact ⟨hlow, hle, hlabel, mid, hps, hqs⟩

theorem singleton_iff : Tiles f lo hi [p] ↔
    p.low = lo ∧ lo ≤ p.high ∧ (∀ o, lo ≤ o → o ≤ p.high → f o = p.label) ∧ p.high + 1 = hi :=
  Iff.rfl

theorem le (h : Tiles f lo hi ps) : lo ≤ hi := by
  induction ps generalizing lo with
  | nil => exact h.le
  | cons p ps ih => exact (h.2.1.trans p.high.le_succ).trans (ih h.2.2.2)

variable [DecidableEq κ]

/-- **A push keeps the tiling**, never leaves the word, and never puts equal labels side by
side. -/
theorem pushMerged_ok (hw : p.low < 2 ^ w) (hps : Tiles f lo p.low ps)
    (hp : Tiles f p.low hi [p]) :
    ∃ qs, (pushMerged w ps p : Res ε _) = .ok qs ∧ Tiles f lo hi qs ∧ (Parted ps → Parted qs) := by
  obtain rfl | ⟨init, last, rfl⟩ := List.eq_nil_or_concat' ps
  · cases hps
    exact ⟨[p], rfl, hp, fun _ => .singleton p⟩
  · obtain ⟨mid, hinit, hlast⟩ := append_iff.mp hps
    obtain ⟨rfl, hle, hlabel, hnext⟩ := singleton_iff.mp hlast
    simp only [pushMerged, List.getLast?_concat, List.dropLast_concat]
    by_cases heq : last.label = p.label
    · rw [if_pos heq, checkedAdd_of_lt (by omega), expect_some, ok_bind, if_pos hnext]
      refine ⟨_, rfl, append_iff.mpr ⟨_, hinit, rfl, ?_, fun o hlo hhi => ?_, hp.2.2.2⟩,
        fun h => ?_⟩
      · exact (hle.trans (by omega)).trans hp.2.1
      · obtain ho | ho := le_or_gt o last.high
        · exact hlabel o hlo ho
        · exact (hp.2.2.1 o (by omega) hhi).trans heq.symm
      · rw [Parted, List.isChain_append] at h ⊢
        exact ⟨h.1, .singleton _, by simpa using h.2.2⟩
    · rw [if_neg heq]
      refine ⟨_, rfl, append_iff.mpr ⟨_, hps, hp⟩, fun h => ?_⟩
      exact List.isChain_append.mpr ⟨h, .singleton p, by simpa using heq⟩

/-- **Pushing a whole tiling** continues the one already there. -/
theorem foldlM_pushMerged_ok (hw : hi ≤ 2 ^ w) (hps : Tiles f lo mid ps) (hparted : Parted ps)
    (hqs : Tiles f mid hi qs) : ∃ rs, (qs.foldlM (pushMerged w) ps : Res ε _) = .ok rs ∧
      Tiles f lo hi rs ∧ Parted rs := by
  obtain ⟨rs, hrs, _, hlo, hparted, rfl⟩ := foldlM_ok_of_inv
    (I := fun l rs => ∃ mid, Tiles f lo mid rs ∧ Parted rs ∧ Tiles f mid hi l)
    (f := pushMerged (ε := ε) w) (fun rs p l ⟨mid, hrs, hparted, hlow, hle, hlabel, hl⟩ => by
      subst hlow
      have hhi := le hl
      obtain ⟨rs', hok, htiles, hkeep⟩ := pushMerged_ok (w := w) (by omega) hrs
        (singleton_iff.mpr ⟨rfl, hle, hlabel, rfl⟩)
      exact ⟨rs', hok, _, htiles, hkeep hparted, hl⟩) ⟨mid, hps, hparted, hqs⟩
  exact ⟨rs, hrs, hlo, hparted⟩

end Tiles

end Irys
