import Irys.Chain.Types
import Irys.Lib.Tiling

/-!
# Which offsets the assignees of a slot claim to hold

Data sync asks every assignee of a slot which offsets it holds.  An answer is a window: a span it
is complete for, and the runs of data inside it.  `segments` cuts a range at the window edges and
splits each piece by the runs claimed there.

* `segments_pointwise` — the segments tile the range as the answers cover it offset by offset.
-/

namespace Irys.Sync

open List

/-! ### Answers -/

inductive Coverage where
  | claimed
  | unclaimed
  | unknown
  deriving DecidableEq

/-- An answer: the span it is complete for, and the runs of data in it, ends included. -/
structure Known where
  covers : ℕ × ℕ
  data : List (ℕ × ℕ)
  deriving DecidableEq

/-- What one window of a peer is: no answer, a fetch that keeps an earlier answer, an answer. -/
inductive PeerHint where
  | unknown
  | fetching (prior : Option Known)
  | known (known : Known)

/-- `PeerHint::known`. -/
def PeerHint.answer : PeerHint → Option Known
  | .unknown => none
  | .fetching prior => prior
  | .known answer => some answer

structure PeerState where
  scan : PeerHint
  head : PeerHint

def PeerState.knowns (state : PeerState) : List Known :=
  state.scan.answer.toList ++ state.head.answer.toList

structure AssigneeIntervals where
  peers : IrysAddress → Option PeerState

/-- The windows of a peer, none for a peer without a state. -/
def AssigneeIntervals.knowns (hints : AssigneeIntervals) (peer : IrysAddress) : List Known :=
  ((hints.peers peer).map PeerState.knowns).getD []

/-- `offset` lies in the span, both ends included. -/
def Within (span : ℕ × ℕ) (offset : ℕ) : Prop := span.1 ≤ offset ∧ offset ≤ span.2

instance (span : ℕ × ℕ) (offset : ℕ) : Decidable (Within span offset) :=
  inferInstanceAs (Decidable (_ ∧ _))

/-- The runs are spans, ascending and disjoint. -/
def Ascending (runs : List (ℕ × ℕ)) : Prop :=
  (∀ run ∈ runs, run.1 ≤ run.2) ∧ runs.Pairwise (·.2 < ·.1)

/-- What a page of a peer's answer is complete for. -/
inductive IntervalsCoverage where
  | window (stop : ℕ) (assigned : Bool)
  | fullList

structure DataIntervalsPage where
  intervals : List (ℕ × ℕ)
  coverage : IntervalsCoverage

/-- The span a page answers for, up to `settledEnd`. -/
def DataIntervalsPage.covers (page : DataIntervalsPage) (windowStart settledEnd : ℕ) :
    Option (ℕ × ℕ) :=
  match page.coverage with
  | .fullList => if page.intervals.isEmpty then none else some (0, settledEnd)
  | .window _ false => none
  | .window stop true => some (windowStart, min stop settledEnd)

/-- A usable answer, cut to the window and below the frontier margin. -/
def intoKnown (page : DataIntervalsPage) (windowStart head frontierMargin : ℕ) : Option Known := do
  let settledEnd ← checkedSub head frontierMargin
  let covers ← page.covers windowStart settledEnd
  if covers.2 < covers.1 then none
  else some ⟨covers, (page.intervals.filter fun run => covers.1 ≤ run.2 ∧ run.1 ≤ covers.2).map
    fun run => (max run.1 covers.1, min run.2 covers.2)⟩

/-- The first run that does not end before `offset` decides (`partition_point`). -/
def Known.holds (known : Known) (offset : ℕ) : Bool :=
  (known.data.dropWhile (·.2 < offset)).head?.any (·.1 ≤ offset)

/-! ### Segments -/

/-- The runs of one window that meet `low..=high`, clipped to it. -/
def Known.claims (known : Known) (low high : ℕ) : List (ℕ × ℕ) :=
  ((known.data.dropWhile (·.2 < low)).takeWhile (·.1 ≤ high)).map
    fun run => (max run.1 low, min run.2 high)

/-- The unclaimed offsets before a run. -/
def pushGap (segments : List (Piece Coverage)) (position runStart : ℕ) :
    Res Empty (List (Piece Coverage)) :=
  if position < runStart then do
    let gapEnd ← expect (checkedSub runStart 1)
    .ok (segments ++ [⟨position, gapEnd, .unclaimed⟩])
  else .ok segments

/-- One round of the loop of `split_by_claims`: the segments so far and the next offset, if any. -/
def splitStep (high : ℕ) (st : List (Piece Coverage) × Option ℕ) (run : ℕ × ℕ) :
    Res Empty (List (Piece Coverage) × Option ℕ) :=
  match st.2 with
  | none => .ok st
  | some position =>
    if run.2 < position then .ok st
    else do
      let segments ← pushGap st.1 position run.1
      let segments ← pushMerged 32 segments ⟨max run.1 position, run.2, .claimed⟩
      .ok (segments, (checkedAdd 32 run.2 1).filter (· ≤ high))

/-- The order of pairs by which the runs are sorted. -/
def runLe (a b : ℕ × ℕ) : Bool := a.1 < b.1 ∨ a.1 = b.1 ∧ a.2 ≤ b.2

def splitByClaims (knowns : List Known) (low high : ℕ) : Res Empty (List (Piece Coverage)) := do
  let claimed := (knowns.flatMap (·.claims low high)).mergeSort runLe
  let (segments, next) ← claimed.foldlM (splitStep high) ([], some low)
  match next with
  | some position => .ok (segments ++ [⟨position, high, .unclaimed⟩])
  | none => .ok segments

/-- Where a window begins and where it has just ended; the latter is no offset past the last one. -/
def Known.edges (known : Known) : List ℕ :=
  known.covers.1 :: (checkedAdd 32 known.covers.2 1).toList

section

variable (perPeer : List (List Known))

/-- The pieces of `low..=high`, which no window edge cuts. -/
def piecesOf (low high : ℕ) : Res Empty (List (Piece Coverage)) :=
  let spans (known : Known) : Bool := known.covers.1 ≤ low ∧ high ≤ known.covers.2
  if perPeer.all (·.any spans) then splitByClaims (perPeer.flatten.filter spans) low high
  else .ok [⟨low, high, .unknown⟩]

/-- The loop of `segments` over the cuts. -/
def segmentsFrom (stop : ℕ) :
    List ℕ → List (Piece Coverage) → Res Empty (List (Piece Coverage))
  | [], segments => .ok segments
  | low :: cuts, segments => do
    let high ← match cuts.head? with
      | some next => expect (checkedSub next 1)
      | none => .ok stop
    let pieces ← piecesOf perPeer low high
    let segments ← pieces.foldlM (pushMerged 32) segments
    segmentsFrom stop cuts segments

/-- The window edges inside the range. -/
def edgesIn (start stop : ℕ) : List ℕ :=
  perPeer.flatten.flatMap fun known => known.edges.filter fun edge => start < edge ∧ edge ≤ stop

/-- The range is cut at its start and at every window edge inside it, sorted and deduplicated. -/
def cutsOf (start stop : ℕ) : List ℕ :=
  (start :: edgesIn perPeer start stop).toFinset.sort

end

namespace AssigneeIntervals

def segments (hints : AssigneeIntervals) (assignees : List IrysAddress) (start stop : ℕ) :
    Res Empty (List (Piece Coverage)) :=
  let perPeer := assignees.map hints.knowns
  if assignees = [] ∨ stop < start ∨ [] ∈ perPeer then .ok [⟨start, stop, .unknown⟩]
  else segmentsFrom perPeer stop (cutsOf perPeer start stop) []

/-- The loop of `excludes` over a peer's windows. -/
def excludesFrom (offset : ℕ) : List Known → Bool → Bool
  | [], answered => answered
  | known :: knowns, answered =>
    if Within known.covers offset then
      if known.holds offset then false else excludesFrom offset knowns true
    else excludesFrom offset knowns answered

def excludes (hints : AssigneeIntervals) (peer : IrysAddress) (offset : ℕ) : Bool :=
  match hints.peers peer with
  | none => false
  | some state => excludesFrom offset state.knowns false

end AssigneeIntervals

/-! ### What the answers say about one offset -/

/-- **The coverage of an offset** under the windows of each assignee. -/
def coverageAt (perPeer : List (List Known)) (offset : ℕ) : Coverage :=
  if perPeer = [] ∨ ∃ knowns ∈ perPeer, ∀ known ∈ knowns, ¬ Within known.covers offset then
    .unknown
  else if ∃ known ∈ perPeer.flatten, Within known.covers offset ∧
      ∃ run ∈ known.data, Within run offset then .claimed
  else .unclaimed

section Runs

variable {known : Known} {knowns : List Known} {run : ℕ × ℕ} {f : ℕ → Coverage} {o low high : ℕ}

/-- **Answers keep the order of the runs** a peer sends. -/
theorem intoKnown_ascending {page : DataIntervalsPage} {windowStart head frontierMargin : ℕ}
    (h : Ascending page.intervals)
    (hknown : intoKnown page windowStart head frontierMargin = some known) :
    Ascending known.data := by
  simp only [intoKnown, Option.bind_eq_bind, Option.bind_eq_some_iff,
    Option.ite_none_left_eq_some, Option.some.injEq, not_lt] at hknown
  obtain ⟨-, -, covers, -, hcovers, rfl⟩ := hknown
  refine ⟨forall_mem_map.mpr fun run hrun => ?_, pairwise_map.mpr ((h.2.filter _).imp ?_)⟩
  · simp only [mem_filter, decide_eq_true_eq] at hrun
    have := h.1 run hrun.1
    dsimp only
    omega
  · intro a b hab
    dsimp only
    omega

/-- Where the predicate holds on a leading part only, `takeWhile` and `dropWhile` filter by it. -/
theorem while_eq_filter {p : ℕ × ℕ → Bool} {l : List (ℕ × ℕ)}
    (h : l.Pairwise fun a b => p b → p a) :
    l.takeWhile p = l.filter p ∧ l.dropWhile p = l.filter (!p ·) := by
  induction l with
  | nil => exact ⟨rfl, rfl⟩
  | cons a l ih =>
    obtain ⟨ha, hl⟩ := pairwise_cons.mp h
    cases hp : p a with
    | true => simp [hp, ih hl]
    | false =>
      have hrest : ∀ b ∈ l, p b = false := fun b hb => by simpa [hp] using ha b hb
      rw [takeWhile_cons_of_neg (by simp [hp]), dropWhile_cons_of_neg (by simp [hp]),
        eq_comm, filter_eq_nil_iff, eq_comm, filter_eq_self]
      simp_all

variable (hdata : Ascending known.data)
include hdata

theorem Ascending.dropWhile_eq :
    known.data.dropWhile (·.2 < low) = known.data.filter (low ≤ ·.2) := by
  refine (while_eq_filter (hdata.2.imp_of_mem fun {a b} _ hb hab => ?_)).2.trans
    (filter_congr fun r _ => by rw [← decide_not, decide_eq_decide, not_lt])
  have := hdata.1 b hb
  simp only [decide_eq_true_eq]
  omega

theorem Ascending.holds_iff : known.holds o ↔ ∃ run ∈ known.data, Within run o := by
  have hsorted := hdata.2.filter (o ≤ ·.2)
  have hmem : ∀ run, run ∈ known.data.filter (o ≤ ·.2) ↔ run ∈ known.data ∧ o ≤ run.2 := by
    simp
  rw [Known.holds, hdata.dropWhile_eq]
  cases hl : known.data.filter (o ≤ ·.2) with
  | nil => grind [Within]
  | cons r l =>
    rw [hl] at hsorted hmem
    grind [Within, pairwise_cons]

theorem Ascending.mem_claims : run ∈ known.claims low high ↔
    ∃ r ∈ known.data, low ≤ r.2 ∧ r.1 ≤ high ∧ (max r.1 low, min r.2 high) = run := by
  have htake := (while_eq_filter (p := (·.1 ≤ high))
    ((hdata.2.filter (low ≤ ·.2)).imp_of_mem fun {a b} ha _ hab => ?_)).1
  · rw [Known.claims, hdata.dropWhile_eq, htake]
    simp [and_assoc, and_left_comm]
  · have := hdata.1 a (mem_filter.mp ha).1
    simp only [decide_eq_true_eq]
    omega

omit hdata

/-- Offsets from `mid` on are claimed where one of the remaining runs holds them, and what comes
before is tiled. -/
structure Splits (f : ℕ → Coverage) (low high : ℕ) (runs : List (ℕ × ℕ))
    (st : List (Piece Coverage) × Option ℕ) : Prop where
  sorted : runs.Pairwise (·.1 ≤ ·.1)
  inside : ∀ run ∈ runs, run.1 ≤ run.2 ∧ run.2 ≤ high
  tiled : ∃ mid ≤ high + 1, Tiles f low mid st.1 ∧
    st.2 = (if mid ≤ high then some mid else none) ∧
    ∀ o, mid ≤ o → o ≤ high → f o = if ∃ run ∈ runs, Within run o then .claimed else .unclaimed

theorem pushGap_ok {mid start : ℕ} {segments : List (Piece Coverage)} (h : Tiles f low mid segments)
    (hf : ∀ o, mid ≤ o → o < start → f o = .unclaimed) :
    ∃ ps, pushGap segments mid start = .ok ps ∧ Tiles f low (max start mid) ps := by
  rw [pushGap]
  by_cases hgap : mid < start
  · rw [if_pos hgap, checkedSub_of_le (by omega), expect_some, ok_bind, max_eq_left hgap.le]
    refine ⟨_, rfl, Tiles.append_iff.mpr ⟨mid, h, rfl, Nat.le_sub_one_of_lt hgap, ?_,
      Nat.sub_add_cancel (by omega)⟩⟩
    exact fun o hmo ho => hf o hmo (Nat.lt_of_le_sub_one (by omega) ho)
  · rw [if_neg hgap, max_eq_right (by omega)]
    exact ⟨_, rfl, h⟩

theorem splitStep_ok (hhigh : high < 2 ^ 32) {runs : List (ℕ × ℕ)}
    {st : List (Piece Coverage) × Option ℕ} (h : Splits f low high (run :: runs) st) :
    ∃ st', splitStep high st run = .ok st' ∧ Splits f low high runs st' := by
  obtain ⟨hfirst, hsorted⟩ := pairwise_cons.mp h.sorted
  obtain ⟨⟨hspan, hend⟩, hinside⟩ := forall_mem_cons.mp h.inside
  obtain ⟨mid, hmid, htiles, hnext, hf⟩ := h.tiled
  -- past the end of `run` only the later runs matter
  have hrest : ∀ o, mid ≤ o → run.2 < o → o ≤ high →
      f o = if ∃ run ∈ runs, Within run o then .claimed else .unclaimed := by
    intro o hmo hro ho
    have : ¬ Within run o := fun hw => absurd hw.2 (by omega)
    simp only [hf o hmo ho, exists_mem_cons_iff, this, false_or]
  rw [splitStep, hnext]
  by_cases hle : mid ≤ high
  · rw [if_pos hle]
    dsimp only
    by_cases hpast : run.2 < mid
    · rw [if_pos hpast]
      exact ⟨st, rfl, hsorted, hinside, mid, hmid, htiles, hnext,
        fun o hmo ho => hrest o hmo (by omega) ho⟩
    · rw [if_neg hpast]
      obtain ⟨gap, hgap, hgapTiles⟩ := pushGap_ok htiles fun o hmo (ho : o < run.1) => by
        rw [hf o hmo (by omega), if_neg]
        rintro ⟨r, hr, hw⟩
        obtain rfl | hr := mem_cons.mp hr
        · exact absurd hw.1 (by omega)
        · exact absurd ((hfirst r hr).trans hw.1) (by omega)
      rw [hgap, ok_bind]
      obtain ⟨segments, hpush, hsegments, -⟩ := Tiles.pushMerged_ok (ε := Empty) (w := 32)
        (p := ⟨max run.1 mid, run.2, .claimed⟩) (by dsimp only; omega)
        hgapTiles ⟨rfl, by dsimp only; omega, fun o hmo ho => by
          dsimp only at hmo ho
          rw [hf o (by omega) (by omega), if_pos ⟨run, mem_cons_self .., by omega, ho⟩], rfl⟩
      rw [hpush, ok_bind]
      refine ⟨_, rfl, hsorted, hinside, run.2 + 1, by omega, hsegments, ?_,
        fun o hmo ho => hrest o (by omega) (by omega) ho⟩
      grind [checkedAdd]
  · rw [if_neg hle]
    exact ⟨st, rfl, hsorted, hinside, mid, hmid, htiles, hnext, fun o hmo ho => by omega⟩

/-- **Splitting a piece by its claims** tiles it by them. -/
theorem splitByClaims_ok (hle : low ≤ high) (hhigh : high < 2 ^ 32)
    (hdata : ∀ known ∈ knowns, Ascending known.data)
    (hf : ∀ o, low ≤ o → o ≤ high → f o = if ∃ known ∈ knowns, ∃ run ∈ known.data, Within run o then
      .claimed else .unclaimed) :
    ∃ ps, splitByClaims knowns low high = .ok ps ∧ Tiles f low (high + 1) ps := by
  have hmem : ∀ run, run ∈ (knowns.flatMap (·.claims low high)).mergeSort runLe ↔
      ∃ known ∈ knowns, ∃ r ∈ known.data, low ≤ r.2 ∧ r.1 ≤ high ∧
        (max r.1 low, min r.2 high) = run := by
    intro run
    rw [mem_mergeSort, mem_flatMap]
    exact exists_congr fun known => and_congr_right fun hk => (hdata known hk).mem_claims
  have hstart : Splits f low high ((knowns.flatMap (·.claims low high)).mergeSort runLe)
      ([], some low) := by
    refine ⟨?_, fun run hrun => ?_, low, by omega, rfl, (if_pos hle).symm, fun o hlo ho => ?_⟩
    · refine (pairwise_mergeSort (by grind [runLe]) (by grind [runLe]) _).imp fun {a b} hab => ?_
      grind [runLe]
    · obtain ⟨known, hk, r, hr, h1, h2, rfl⟩ := (hmem run).mp hrun
      have := (hdata known hk).1 r hr
      constructor <;> dsimp only <;> omega
    · rw [hf o hlo ho]
      refine if_congr ⟨?_, ?_⟩ rfl rfl
      · rintro ⟨known, hk, r, hr, h1, h2⟩
        exact ⟨_, (hmem _).mpr ⟨known, hk, r, hr, hlo.trans h2, h1.trans ho, rfl⟩,
          max_le h1 hlo, le_min h2 ho⟩
      · rintro ⟨run, hrun, h1, h2⟩
        obtain ⟨known, hk, r, hr, -, -, rfl⟩ := (hmem run).mp hrun
        exact ⟨known, hk, r, hr, (max_le_iff.mp h1).1, (le_min_iff.mp h2).1⟩
  obtain ⟨⟨segments, next⟩, hrun, -, -, mid, hmid, htiles, rfl, hlast⟩ :=
    foldlM_ok_of_inv (I := Splits f low high) (fun _ _ _ h => splitStep_ok hhigh h) hstart
  rw [splitByClaims, hrun, ok_bind]
  dsimp only at htiles ⊢
  by_cases hend : mid ≤ high
  · rw [if_pos hend]
    refine ⟨_, rfl, Tiles.append_iff.mpr ⟨mid, htiles, rfl, hend, fun o hmo ho => ?_, rfl⟩⟩
    simp [hlast o hmo ho]
  · rw [if_neg hend]
    obtain rfl : mid = high + 1 := by omega
    exact ⟨_, rfl, htiles⟩

end Runs

section Segments

variable {perPeer : List (List Known)} {low high start stop : ℕ} {segments : List (Piece Coverage)}
  (hne : perPeer ≠ []) (hdata : ∀ known ∈ perPeer.flatten, Ascending known.data)
include hne hdata

/-- **A piece no window edge cuts** lies inside or outside each window, so its offsets are answered
for alike. -/
theorem piecesOf_ok (hle : low ≤ high) (hhigh : high < 2 ^ 32)
    (hedge : ∀ known ∈ perPeer.flatten, ∀ edge ∈ known.edges, low < edge → ¬ edge ≤ high) :
    ∃ ps, piecesOf perPeer low high = .ok ps ∧ Tiles (coverageAt perPeer) low (high + 1) ps := by
  have hover : ∀ known ∈ perPeer.flatten, ∀ o, low ≤ o → o ≤ high →
      ((known.covers.1 ≤ low ∧ high ≤ known.covers.2) ↔ Within known.covers o) := by
    intro known hk o hlo ho
    have h1 := hedge known hk known.covers.1 (by simp [Known.edges])
    have h2 : ∀ edge, checkedAdd 32 known.covers.2 1 = some edge → low < edge → ¬ edge ≤ high :=
      fun edge h => hedge known hk edge (by simp [Known.edges, h])
    rw [Within]
    grind [checkedAdd]
  rw [piecesOf]
  split_ifs with hanswered
  · simp only [List.all_eq_true, List.any_eq_true, decide_eq_true_eq] at hanswered
    refine splitByClaims_ok hle hhigh (fun known hk => hdata known (mem_filter.mp hk).1)
      fun o hlo ho => ?_
    rw [coverageAt, if_neg]
    · refine if_congr ?_ rfl rfl
      simp only [mem_filter, decide_eq_true_eq, and_assoc (a := _ ∈ _)]
      exact exists_congr fun known => and_congr_right fun hk =>
        and_congr_left' (hover known hk o hlo ho).symm
    · rintro (h | ⟨knowns, hk, hnone⟩)
      · exact hne h
      · obtain ⟨known, hknown, hcov⟩ := hanswered knowns hk
        exact hnone known hknown
          ((hover known (mem_flatten_of_mem hk hknown) o hlo ho).mp hcov)
  · refine ⟨_, rfl, rfl, hle, fun o hlo ho => ?_, rfl⟩
    simp only [List.all_eq_true, List.any_eq_true, decide_eq_true_eq, not_forall] at hanswered
    obtain ⟨knowns, hk, hnone⟩ := hanswered
    exact if_pos (.inr ⟨knowns, hk, fun known hknown hw => hnone ⟨known, hknown,
      (hover known (mem_flatten_of_mem hk hknown) o hlo ho).mpr hw⟩⟩)

/-- **The loop over the cuts** continues the tiling up to the end of the range. -/
theorem segmentsFrom_ok (hstop : stop < 2 ^ 32) {cuts : List ℕ}
    (hcuts : (low :: cuts).Pairwise (· < ·)) (hle : ∀ cut ∈ low :: cuts, cut ≤ stop)
    (hedge : ∀ known ∈ perPeer.flatten, ∀ edge ∈ known.edges, low < edge → edge ≤ stop →
      edge ∈ cuts)
    (htiles : Tiles (coverageAt perPeer) start low segments) (hparted : Parted segments) :
    ∃ ps, segmentsFrom perPeer stop (low :: cuts) segments = .ok ps ∧
      Tiles (coverageAt perPeer) start (stop + 1) ps ∧ Parted ps := by
  induction cuts generalizing low segments with
  | nil =>
    obtain ⟨pieces, hpieces, hnew⟩ := piecesOf_ok hne hdata (hle low (by simp)) hstop
      fun known hk edge he hlt hes => not_mem_nil (hedge known hk edge he hlt hes)
    obtain ⟨ps, hps, hall⟩ := Tiles.foldlM_pushMerged_ok (ε := Empty) (w := 32) hstop htiles
      hparted hnew
    exact ⟨ps, by simp [segmentsFrom, hpieces, hps], hall⟩
  | cons next cuts ih =>
    obtain ⟨hlow, hcuts⟩ := pairwise_cons.mp hcuts
    specialize hlow next (mem_cons_self ..)
    obtain ⟨hhead, hle⟩ := forall_mem_cons.mp hle
    have hnext := hle next (mem_cons_self ..)
    have hpast : ∀ cut ∈ next :: cuts, next ≤ cut :=
      forall_mem_cons.mpr ⟨le_rfl, fun cut hcut => (rel_of_pairwise_cons hcuts hcut).le⟩
    obtain ⟨pieces, hpieces, hnew⟩ := piecesOf_ok hne hdata (Nat.le_sub_one_of_lt hlow) (by omega)
      fun known hk edge he hlt hes => absurd (hpast edge (hedge known hk edge he hlt (by omega)))
        (by omega)
    rw [Nat.sub_add_cancel (by omega)] at hnew
    obtain ⟨ps, hps, hpsTiles, hpsParted⟩ := Tiles.foldlM_pushMerged_ok (ε := Empty) (w := 32)
      (by omega) htiles hparted hnew
    obtain ⟨all, hall, hallTiles⟩ := ih hcuts hle (fun known hk edge he hlt hes =>
      (mem_cons.mp (hedge known hk edge he (hlow.trans hlt) hes)).resolve_left hlt.ne')
      hpsTiles hpsParted
    refine ⟨all, ?_, hallTiles⟩
    rw [segmentsFrom]
    simp [checkedSub_of_le (show 1 ≤ next by omega), hpieces, hps, hall]

end Segments

/-- The cuts begin with `start`, ascend, and hold every window edge inside the range. -/
theorem cutsOf_spec (perPeer : List (List Known)) {start stop : ℕ} (hle : start ≤ stop) :
    ∃ cuts, cutsOf perPeer start stop = start :: cuts ∧ (start :: cuts).Pairwise (· < ·) ∧
      (∀ cut ∈ start :: cuts, cut ≤ stop) ∧
      ∀ known ∈ perPeer.flatten, ∀ edge ∈ known.edges, start < edge → edge ≤ stop →
        edge ∈ cuts := by
  have hmem : ∀ cut, cut ∈ (edgesIn perPeer start stop).toFinset ↔
      ∃ known ∈ perPeer.flatten, cut ∈ known.edges ∧ start < cut ∧ cut ≤ stop := by
    simp [edgesIn]
  have hin : ∀ cut ∈ (edgesIn perPeer start stop).toFinset, start < cut ∧ cut ≤ stop :=
    fun cut hcut => by
      obtain ⟨-, -, -, h⟩ := (hmem cut).mp hcut
      exact h
  refine ⟨(edgesIn perPeer start stop).toFinset.sort, ?_, ?_, ?_, ?_⟩
  · rw [cutsOf, toFinset_cons]
    exact Finset.sort_insert _ (fun cut hcut => (hin cut hcut).1.le)
      fun hstart => lt_irrefl _ (hin start hstart).1
  · exact pairwise_cons.mpr ⟨fun cut hcut => (hin cut ((Finset.mem_sort _).mp hcut)).1,
      (Finset.sortedLT_sort _).pairwise⟩
  · exact forall_mem_cons.mpr ⟨hle, fun cut hcut => (hin cut ((Finset.mem_sort _).mp hcut)).2⟩
  · exact fun known hk edge he hlt hes =>
      (Finset.mem_sort _).mpr ((hmem edge).mpr ⟨known, hk, he, hlt, hes⟩)

namespace AssigneeIntervals

variable {hints : AssigneeIntervals} {assignees : List IrysAddress} {start stop : ℕ}

theorem excludes_iff {peer : IrysAddress} {o : ℕ}
    (hdata : ∀ known ∈ hints.knowns peer, Ascending known.data) :
    hints.excludes peer o ↔ (∃ known ∈ hints.knowns peer, Within known.covers o) ∧
      ∀ known ∈ hints.knowns peer, Within known.covers o → ¬ ∃ run ∈ known.data, Within run o := by
  have hloop : ∀ knowns answered, (∀ known ∈ knowns, Ascending known.data) →
      (excludesFrom o knowns answered ↔ (answered ∨ ∃ known ∈ knowns, Within known.covers o) ∧
        ∀ known ∈ knowns, Within known.covers o → ¬ ∃ run ∈ known.data, Within run o) := by
    intro knowns
    induction knowns with
    | nil => simp [excludesFrom]
    | cons known knowns ih =>
      intro answered h
      rw [forall_mem_cons] at h
      rw [excludesFrom, exists_mem_cons_iff, forall_mem_cons, ← h.1.holds_iff]
      by_cases hcov : Within known.covers o
      · by_cases hholds : known.holds o
        · simp [hcov, hholds]
        · simp [hcov, hholds, ih true h.2]
      · simp [hcov, ih answered h.2]
  rw [excludes, knowns] at *
  cases hpeer : hints.peers peer with
  | none => simp
  | some state => simpa using hloop _ false (by simpa [hpeer] using hdata)

/-- **The segments are the coverage, offset by offset.** -/
theorem segments_pointwise (hle : start ≤ stop) (hstop : stop < 2 ^ 32)
    (hdata : ∀ peer, ∀ known ∈ hints.knowns peer, Ascending known.data) :
    (∃ pieces, hints.segments assignees start stop = .ok pieces ∧
      Tiles (coverageAt (assignees.map hints.knowns)) start (stop + 1) pieces ∧ Parted pieces) ∧
    ∀ o, coverageAt (assignees.map hints.knowns) o = .unclaimed ↔
      assignees ≠ [] ∧ ∀ peer ∈ assignees, hints.excludes peer o := by
  refine ⟨?_, fun o => ?_⟩
  · rw [segments]
    split_ifs with hnone
    · refine ⟨_, rfl, ⟨rfl, hle, fun o _ _ => if_pos ?_, rfl⟩, .singleton _⟩
      obtain rfl | hlt | hmem := hnone
      · exact .inl rfl
      · omega
      · exact .inr ⟨[], hmem, by simp⟩
    · obtain ⟨cuts, hcuts, hsorted, hstops, hedges⟩ :=
        cutsOf_spec (assignees.map hints.knowns) hle
      rw [hcuts]
      exact segmentsFrom_ok (by simp_all) (by simp; grind) hstop hsorted hstops hedges rfl .nil
  · simp only [coverageAt, excludes_iff (hdata _), map_eq_nil_iff, ← flatMap_def,
      mem_flatMap, exists_exists_and_eq_and, List.mem_map]
    split_ifs <;> grind

/-- Every peer answers with a window to the last offset, where its run ends too. -/
def sampleHints : AssigneeIntervals where
  peers _ := (intoKnown ⟨[(7, 2 ^ 32 - 1)], .window (2 ^ 32 - 1) true⟩ 5 (2 ^ 32 - 1) 0).map
    fun known => ⟨.known known, .unknown⟩

theorem segments_pointwise_to_last_offset :
    ∃ pieces, sampleHints.segments [1] 0 (2 ^ 32 - 1) = .ok pieces ∧
      Tiles (coverageAt [sampleHints.knowns 1]) 0 (2 ^ 32) pieces ∧ Parted pieces := by
  have hdata : ∀ peer, ∀ known ∈ sampleHints.knowns peer, Ascending known.data := by
    intro peer known hk
    obtain rfl := mem_singleton.mp hk
    exact @intoKnown_ascending _ ⟨[(7, 2 ^ 32 - 1)], .window (2 ^ 32 - 1) true⟩ 5 (2 ^ 32 - 1) 0
      ⟨by simp, pairwise_singleton _ _⟩ rfl
  exact (@segments_pointwise sampleHints [1] 0 (2 ^ 32 - 1) (by decide) (by decide) hdata).1

/-- Without an assignee the whole range is unknown, although no assignee lacks a window. -/
theorem segments_without_assignees :
    (⟨fun _ => none⟩ : AssigneeIntervals).segments [] 0 0 = .ok [⟨0, 0, .unknown⟩] ∧
      ¬ ∃ peer ∈ ([] : List IrysAddress), ∀ known ∈ knowns ⟨fun _ => none⟩ peer,
        ¬ Within known.covers 0 :=
  ⟨rfl, fun ⟨_, hpeer, _⟩ => not_mem_nil hpeer⟩

end AssigneeIntervals

end Irys.Sync
