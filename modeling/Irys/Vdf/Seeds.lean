import Irys.Chain.Types

/-!
# The reset seeds that headers hand on

Every `F` steps the delay function folds a reset seed into its running hash.  A header carries two
of them: `seed`, the one its own steps use, and `nextSeed`, the one for the boundary above it.  A
block whose steps contain a boundary rotates the pair (its parent's `nextSeed` becomes its `seed`,
its parent's hash its `nextSeed`); any other block copies it.

* `VDFLimiterInfo`, `calculateSeeds`, `isSeedDataValid` — the rotation and its check.
-/

namespace Irys.Vdf

open List

/-! ### The header's delay-function fields -/

structure VDFLimiterInfo where
  output : H256
  globalStepNumber : ℕ
  seed : H256
  nextSeed : H256
  prevOutput : H256
  lastStepCheckpoints : List H256
  steps : List H256
  globalStepNumber_lt : globalStepNumber < 2 ^ 64
  deriving DecidableEq

/-- A block header with its delay-function fields. -/
structure VdfHeader extends IrysBlockHeader where
  vdfLimiterInfo : VDFLimiterInfo
  deriving DecidableEq

namespace VDFLimiterInfo

section

variable (v : VDFLimiterInfo)

/-- `first_step_number`.  Saturating at both ends: a step count above the step number gives 0. -/
def firstStepNumber : ℕ :=
  saturatingAdd 64 v.globalStepNumber 1 - v.steps.length

/-- `reset_step`: the first boundary among the block's steps. -/
def resetStep (resetFrequency : ℕ) : Option ℕ :=
  (List.range' v.firstStepNumber (v.globalStepNumber + 1 - v.firstStepNumber)).find?
    fun step => step % resetFrequency == 0

/-- `calculate_seeds`: the expected `(next_seed, seed)`. -/
def calculateSeeds (resetFrequency : ℕ) (parent : VdfHeader) : H256 × H256 :=
  match v.resetStep resetFrequency with
  | some _ => (parent.blockHash, parent.vdfLimiterInfo.nextSeed)
  | none => (parent.vdfLimiterInfo.nextSeed, parent.vdfLimiterInfo.seed)

theorem firstStepNumber_le (h : v.steps ≠ []) :
    v.firstStepNumber ≤ v.globalStepNumber := by
  have hlen : 0 < v.steps.length := length_pos_of_ne_nil h
  rw [firstStepNumber, saturatingAdd]
  omega

/-- Below the last step number there is, a block with a first step has exactly the steps from it to
its last. -/
theorem firstStepNumber_add_length (h : 0 < v.firstStepNumber)
    (hlt : v.globalStepNumber + 1 < 2 ^ 64) :
    v.firstStepNumber + v.steps.length = v.globalStepNumber + 1 := by
  rw [firstStepNumber, saturatingAdd] at *
  omega

theorem resetStep_eq_none_iff (F : ℕ) :
    v.resetStep F = none ↔
      ∀ step, v.firstStepNumber ≤ step → step ≤ v.globalStepNumber → ¬ F ∣ step := by
  simp only [resetStep, find?_eq_none, mem_range'_1, beq_iff_eq, ← Nat.dvd_iff_mod_eq_zero]
  constructor
  · intro h step hfirst hlast
    exact h step ⟨hfirst, by omega⟩
  · intro h step hstep
    exact h step hstep.1 (by omega)

end

end VDFLimiterInfo

/-- Why the seed check refused a block. -/
structure SeedDataInvalid where
  expectedSeed : H256
  expectedNextSeed : H256
  gotSeed : H256
  gotNextSeed : H256
  deriving DecidableEq

def isSeedDataValid (block parent : VdfHeader) (resetFrequency : ℕ) : Res SeedDataInvalid Unit :=
  let v := block.vdfLimiterInfo
  let expected := v.calculateSeeds resetFrequency parent
  if expected.1 = v.nextSeed ∧ expected.2 = v.seed then .ok ()
  else fail ⟨expected.2, expected.1, v.seed, v.nextSeed⟩

theorem isSeedDataValid_eq_ok {block parent : VdfHeader} {F : ℕ} :
    isSeedDataValid block parent F = .ok () ↔
      block.vdfLimiterInfo.calculateSeeds F parent =
        (block.vdfLimiterInfo.nextSeed, block.vdfLimiterInfo.seed) := by
  rw [isSeedDataValid, Prod.ext_iff]
  split <;> simp_all

namespace VdfHeader

/-- The block's first step. -/
abbrev firstStep (b : VdfHeader) : ℕ := b.vdfLimiterInfo.firstStepNumber

/-- The block's last step. -/
abbrev lastStep (b : VdfHeader) : ℕ := b.vdfLimiterInfo.globalStepNumber

/-- The seed the block's own steps fold at a boundary. -/
abbrev seed (b : VdfHeader) : H256 := b.vdfLimiterInfo.seed

/-- The seed the block pins for the boundary above it. -/
abbrev nextSeed (b : VdfHeader) : H256 := b.vdfLimiterInfo.nextSeed

end VdfHeader

/-! ### Chains of headers -/

/-- **A block after its parent.**  It has steps, its first step follows the parent's last, and its
seeds pass the check. -/
@[mk_iff]
structure Follows (F : ℕ) (parent block : VdfHeader) : Prop where
  nonempty : block.vdfLimiterInfo.steps ≠ []
  contiguous : block.firstStep = parent.lastStep + 1
  seeds : isSeedDataValid block parent F = .ok ()

instance (F : ℕ) (parent block : VdfHeader) : Decidable (Follows F parent block) :=
  decidable_of_iff' _ (follows_iff ..)

namespace Follows

variable {F : ℕ} {parent block : VdfHeader}

theorem lastStep_lt (h : Follows F parent block) : parent.lastStep < block.lastStep := by
  have hle : block.firstStep ≤ block.lastStep :=
    block.vdfLimiterInfo.firstStepNumber_le h.nonempty
  have hfirst := h.contiguous
  omega

theorem rotates (h : Follows F parent block) {B : ℕ} (hB : F ∣ B) (hlow : parent.lastStep < B)
    (hhigh : B ≤ block.lastStep) :
    block.nextSeed = parent.blockHash ∧ block.seed = parent.nextSeed := by
  have hseeds := isSeedDataValid_eq_ok.mp h.seeds
  rw [VDFLimiterInfo.calculateSeeds] at hseeds
  cases hreset : block.vdfLimiterInfo.resetStep F with
  | none =>
    have hfirst : block.firstStep ≤ B := by
      rw [h.contiguous]
      exact hlow
    exact absurd hB ((VDFLimiterInfo.resetStep_eq_none_iff _ _).mp hreset B hfirst hhigh)
  | some step =>
    rw [hreset] at hseeds
    exact ⟨(congrArg Prod.fst hseeds).symm, (congrArg Prod.snd hseeds).symm⟩

theorem copies (h : Follows F parent block)
    (hnone : ∀ B, F ∣ B → parent.lastStep < B → block.lastStep < B) :
    block.nextSeed = parent.nextSeed ∧ block.seed = parent.seed := by
  have hseeds := isSeedDataValid_eq_ok.mp h.seeds
  have hreset : block.vdfLimiterInfo.resetStep F = none := by
    rw [VDFLimiterInfo.resetStep_eq_none_iff]
    intro step hlow hhigh hdvd
    exact absurd hhigh (Nat.not_le.mpr (hnone step hdvd (h.contiguous.symm.trans_le hlow)))
  rw [VDFLimiterInfo.calculateSeeds, hreset] at hseeds
  exact ⟨(congrArg Prod.fst hseeds).symm, (congrArg Prod.snd hseeds).symm⟩

end Follows

/-- **A chain of headers**, oldest first. -/
@[mk_iff]
structure HeaderChain (F : ℕ) (c : List VdfHeader) : Prop where
  nonempty : ∀ b ∈ c, b.vdfLimiterInfo.steps ≠ []
  follows : c.IsChain (Follows F)

instance (F : ℕ) (c : List VdfHeader) : Decidable (HeaderChain F c) :=
  decidable_of_iff' _ (headerChain_iff ..)

/-- One block's steps all precede another's. -/
def Precedes (b b' : VdfHeader) : Prop := b.lastStep < b'.lastStep ∧ b.lastStep < b'.firstStep

instance : IsTrans VdfHeader Precedes where
  trans _ _ _ h h' := ⟨h.1.trans h'.1, h.1.trans h'.2⟩

namespace HeaderChain

variable {F : ℕ} {c : List VdfHeader}

theorem of_infix {d : List VdfHeader} (h : HeaderChain F c) (hd : d <:+: c) : HeaderChain F d :=
  ⟨fun b hb => h.nonempty b (hd.subset hb), h.follows.infix hd⟩

theorem pairwise (h : HeaderChain F c) : c.Pairwise Precedes := by
  refine isChain_iff_pairwise.mp (h.follows.imp fun parent block hb => ⟨hb.lastStep_lt, ?_⟩)
  have hfirst := hb.contiguous
  omega

theorem precedes_of_mem {b x : VdfHeader} (h : HeaderChain F (b :: c)) (hx : x ∈ c) :
    Precedes b x :=
  (pairwise_cons.mp h.pairwise).1 x hx

theorem eq_of_step (h : HeaderChain F c) {b b' : VdfHeader} {n : ℕ} (hb : b ∈ c) (hb' : b' ∈ c)
    (hlow : b.firstStep ≤ n) (hhigh : n ≤ b.lastStep) (hlow' : b'.firstStep ≤ n)
    (hhigh' : n ≤ b'.lastStep) : b = b' := by
  obtain ⟨i, hi, rfl⟩ := getElem_of_mem hb
  obtain ⟨j, hj, rfl⟩ := getElem_of_mem hb'
  have hp := pairwise_iff_getElem.mp h.pairwise
  rcases lt_trichotomy i j with hij | rfl | hij
  · have := (hp i j hi hj hij).2
    omega
  · rfl
  · have := (hp j i hj hi hij).2
    omega

end HeaderChain

/-! ### One seed for each boundary -/

/-- **One reset seed for each boundary.**  The block that holds the step after a boundary `B` folds
the seed that every block ending in the period before `B` has pinned. -/
def OneSeedPerBoundary (F : ℕ) (c : List VdfHeader) : Prop :=
  ∀ B, 0 < B → F ∣ B → ∀ x ∈ c, x.firstStep ≤ B + 1 → B + 1 ≤ x.lastStep →
    ∀ b ∈ c, B - F ≤ b.lastStep → b.lastStep < B → x.seed = b.nextSeed

/-- A block that starts right after a boundary and holds the next one as well. -/
def Outpaces (F : ℕ) (parent block : VdfHeader) : Prop :=
  0 < parent.lastStep ∧ F ∣ parent.lastStep ∧ parent.lastStep + F ≤ block.lastStep

instance (F : ℕ) (parent block : VdfHeader) : Decidable (Outpaces F parent block) :=
  inferInstanceAs (Decidable (_ ∧ _ ∧ _))

/-- From step `L` on, no block that starts right after a boundary holds the next one. -/
def Paced (F L : ℕ) (c : List VdfHeader) : Prop :=
  c.IsChain fun p b => L ≤ p.lastStep → ¬ Outpaces F p b

/-- A block that outpaces its parent folds at the parent's last step the hash of the block before
the parent.  The chain is pinned if that hash is what the block before the parent had pinned. -/
def Pinned (F : ℕ) (c : List VdfHeader) : Prop :=
  ∀ g p b, [g, p, b] <:+: c → Outpaces F p b → p.lastStep ≤ g.lastStep + F →
    g.blockHash = g.nextSeed

theorem Paced.pinned {F : ℕ} {s : VdfHeader} {c : List VdfHeader} (h : HeaderChain F (s :: c))
    (hpaced : Paced F s.lastStep (s :: c)) : Pinned F (s :: c) := by
  intro g p b hgpb hout
  have hpb := (isChain_cons_cons.mp ( List.IsChain.infix hpaced hgpb)).2
  refine absurd hout ((isChain_cons_cons.mp hpb).1 ?_)
  rcases mem_cons.mp (hgpb.subset (show p ∈ [g, p, b] by simp)) with rfl | hp
  · exact le_rfl
  · exact (h.precedes_of_mem hp).1.le

theorem Paced.of_infix {F L : ℕ} {c d : List VdfHeader} (h : Paced F L c) (hd : d <:+: c) :
    Paced F L d :=
  List.IsChain.infix h hd

theorem Pinned.of_infix {F : ℕ} {c d : List VdfHeader} (h : Pinned F c) (hd : d <:+: c) :
    Pinned F d :=
  fun g p b hgpb => h g p b (hgpb.trans hd)

theorem boundary_eq {F B n : ℕ} (hB : F ∣ B) (hn : F ∣ n) (hlow : B ≤ n) (hhigh : n < B + F) :
    n = B := by
  obtain ⟨k, rfl⟩ := hB
  obtain ⟨m, rfl⟩ := hn
  have hkm : m < k + 1 := Nat.lt_of_mul_lt_mul_left (hhigh.trans_eq (by ring))
  have hF : 0 < F := by omega
  have hmk : k ≤ m := Nat.le_of_mul_le_mul_left hlow hF
  rw [show m = k from by omega]

namespace HeaderChain

variable {F : ℕ} {c : List VdfHeader}

theorem copies_below {b y : VdfHeader} {B : ℕ} (h : Follows F b y) (hB : F ∣ B)
    (hb : B - F ≤ b.lastStep) (hy : y.lastStep < B) :
    y.nextSeed = b.nextSeed ∧ y.seed = b.seed := by
  refine h.copies fun n hn hlow => ?_
  by_contra hle
  have hlt : B - F < n ∧ n < B := ⟨by omega, by omega⟩
  have hdvd : F ∣ B - F := Nat.dvd_sub hB dvd_rfl
  have heq : n = B - F := boundary_eq hdvd hn (by omega) (by omega)
  omega

/-- **The seed at a boundary, walking up from a block of the period before it.**  The walk passes
the blocks that end below the boundary, which copy the pinned seed, to the block that holds the
boundary and rotates it in; a block that ends on the boundary leaves the fold to the next one. -/
theorem seed_at_boundary {b x : VdfHeader} {B : ℕ} (h : HeaderChain F (b :: c))
    (hpin : Pinned F (b :: c)) (hpos : 0 < B) (hB : F ∣ B) (hb : B - F ≤ b.lastStep)
    (hlt : b.lastStep < B) (hx : x ∈ c) (hlow : x.firstStep ≤ B + 1) (hhigh : B + 1 ≤ x.lastStep) :
    x.seed = b.nextSeed := by
  induction c generalizing b with
  | nil => exact absurd hx not_mem_nil
  | cons y c ih =>
    have hby : Follows F b y := (isChain_cons_cons.mp h.follows).1
    have htail : y :: c <:+: b :: y :: c := infix_cons (infix_refl _)
    have hyc : HeaderChain F (y :: c) := h.of_infix htail
    -- x is y as soon as y reaches past the boundary
    have hstop : B + 1 ≤ y.lastStep → x = y := by
      intro hy
      rcases mem_cons.mp hx with rfl | hxc
      · rfl
      · have := (hyc.precedes_of_mem hxc).2
        omega
    rcases Nat.lt_or_ge y.lastStep B with hy | hy
    · have hxc : x ∈ c := by
        rcases mem_cons.mp hx with rfl | hxc
        · omega
        · exact hxc
      have hcopy := copies_below hby hB hb hy
      have hlt' := hby.lastStep_lt
      rw [ih hyc (hpin.of_infix htail) (by omega) hy hxc, hcopy.1]
    · obtain ⟨hnext, hseed⟩ := hby.rotates hB hlt hy
      rcases Nat.lt_or_ge B y.lastStep with hy' | hy'
      · rw [hstop hy', hseed]
      · have hyB : y.lastStep = B := by omega
        have hxc : x ∈ c := by
          rcases mem_cons.mp hx with rfl | hxc
          · omega
          · exact hxc
        cases c with
        | nil => exact absurd hxc not_mem_nil
        | cons z c =>
          have hyz : Follows F y z := (isChain_cons_cons.mp hyc.follows).1
          have hz := hyz.lastStep_lt
          have hxz : x = z := by
            rcases mem_cons.mp hxc with rfl | hxc
            · rfl
            · have := ((hyc.of_infix (infix_cons (infix_refl _))).precedes_of_mem
                hxc).2
              omega
          rw [hxz]
          rcases Nat.lt_or_ge z.lastStep (B + F) with hzB | hzB
          · have hcopy := hyz.copies fun n hn hlow => by
              by_contra hle
              have heq := boundary_eq hB hn (by omega) (by omega)
              omega
            rw [hcopy.2, hseed]
          · -- z holds the next boundary too: it folds the hash of b
            have hrot := hyz.rotates (B := B + F) (Nat.dvd_add hB dvd_rfl) (by omega) hzB
            rw [hrot.2, hnext]
            exact hpin b y z ⟨[], c, rfl⟩ ⟨by omega, by rwa [hyB], by omega⟩ (by omega)

/-- **A chain has one seed for each boundary exactly when it is pinned.** -/
theorem oneSeedPerBoundary_iff (h : HeaderChain F c) : OneSeedPerBoundary F c ↔ Pinned F c := by
  constructor
  · intro hone g p b hgpb hout hclose
    have hchain := h.of_infix hgpb
    obtain ⟨hgp, hpb⟩ := isChain_cons_cons.mp hchain.follows
    have hpb : Follows F p b := (isChain_cons_cons.mp hpb).1
    obtain ⟨hpos, hdvd, hreach⟩ := hout
    have hlt := hgp.lastStep_lt
    have hlt' := hpb.lastStep_lt
    have hmem : ∀ x ∈ [g, p, b], x ∈ c := fun x hx => hgpb.subset hx
    have hfold : b.seed = g.nextSeed :=
      hone p.lastStep hpos hdvd b (hmem b (by simp)) hpb.contiguous.le hlt' g (hmem g (by simp))
        (by omega) hlt
    have hF : 0 < F := Nat.pos_of_dvd_of_pos hdvd hpos
    rw [← hfold, (hpb.rotates (Nat.dvd_add hdvd dvd_rfl) (by omega) hreach).2,
      (hgp.rotates hdvd hlt le_rfl).1]
  · intro hpin B hpos hB x hx hlow hhigh b hb hwin hlt
    obtain ⟨l, r, rfl⟩ := append_of_mem hb
    have hsuffix : b :: r <:+: l ++ b :: r := (suffix_append l (b :: r)).isInfix
    have hxr : x ∈ r := by
      rcases mem_append.mp hx with hxl | hxr
      · have := (pairwise_append.mp h.pairwise).2.2 x hxl b mem_cons_self
        have := this.1
        omega
      · rcases mem_cons.mp hxr with rfl | hxr
        · omega
        · exact hxr
    exact seed_at_boundary (h.of_infix hsuffix) (hpin.of_infix hsuffix) hpos hB hwin hlt hxr hlow
      hhigh

theorem nextSeed_eq_of_period (h : HeaderChain F c) {B : ℕ} (hB : F ∣ B) {b b' : VdfHeader}
    (hb : b ∈ c) (hb' : b' ∈ c) (hlow : B - F ≤ b.lastStep) (hle : b.lastStep ≤ b'.lastStep)
    (hhigh : b'.lastStep < B) : b'.nextSeed = b.nextSeed := by
  obtain ⟨l, r, rfl⟩ := append_of_mem hb
  have hsuffix : b :: r <:+: l ++ b :: r := (suffix_append l (b :: r)).isInfix
  have hbr := h.of_infix hsuffix
  have hmem : b' ∈ b :: r := by
    rcases mem_append.mp hb' with hl | hr
    · have := ((pairwise_append.mp h.pairwise).2.2 b' hl b mem_cons_self).1
      omega
    · exact hr
  clear h hb hb' hsuffix
  induction r generalizing b with
  | nil =>
    rw [mem_singleton.mp hmem]
  | cons y r ih =>
    rcases mem_cons.mp hmem with rfl | hyr
    · rfl
    · have hby : Follows F b y := (isChain_cons_cons.mp hbr.follows).1
      have hlt := hby.lastStep_lt
      have hyb' : y.lastStep ≤ b'.lastStep := by
        rcases mem_cons.mp hyr with rfl | hr
        · exact le_rfl
        · exact ((hbr.of_infix (infix_cons (infix_refl _))).precedes_of_mem hr).1.le
      have hcopy := copies_below hby hB hlow (by omega)
      rw [ih (by omega) hyb' (hbr.of_infix (infix_cons (infix_refl _))) hyr, hcopy.1]

end HeaderChain

end Irys.Vdf
