import Irys.BlockTree.Remove

/-!
# Moving the tip

`mark_tip` puts a validated block and its ancestors on chain and takes the branch they replace
off it.  The walk up and the recursion down touch chain states only.
-/

namespace Irys

open List Option Mut Forest

namespace BlockTree

open Std Classical

variable {t t' : BlockTree} {h x : H256} {b : IrysBlockHeader} {e : TreeBlockMetadata}
  {name : H256 → Option IrysBlockHeader}

theorem Restated.anc (hr : Restated t t') : t'.Anc = t.Anc := by
  unfold Anc
  rw [hr.getBlock]

theorem Restated.rank (hr : Restated t t') : t'.rank = t.rank := by
  unfold BlockTree.rank
  rw [hr.getBlock]

/-! ### Leaving the chain -/

/-- `t'` is `t` with the on-chain blocks at or below some of the blocks `cs` taken off the
chain. -/
structure OffBelow (t : BlockTree) (cs : List H256) (current : H256) (t' : BlockTree) : Prop where
  restated : Restated t t'
  tip : t'.tip = t.tip
  off : ∀ ⦃y c⦄, c ∈ cs → c ≠ current → t.Anc y c → t.getStatus y = some .onchain →
    t'.getStatus y = some (.validated .validBlock)
  same : ∀ ⦃y⦄, ¬ (t.getStatus y = some .onchain ∧ ∃ c ∈ cs, c ≠ current ∧ t.Anc y c) →
    t'.getStatus y = t.getStatus y

namespace OffBelow

variable {cs : List H256} {c current : H256}

theorem iff_status (hr : Restated t t') (htip : t'.tip = t.tip) : OffBelow t cs current t' ↔
    ∀ y, t'.getStatus y = if t.getStatus y = some .onchain ∧ ∃ c ∈ cs, c ≠ current ∧ t.Anc y c
      then some (.validated .validBlock) else t.getStatus y := by
  constructor
  · intro h y
    split_ifs with hy
    · obtain ⟨hon, c, hc, hne, hyc⟩ := hy
      exact h.off hc hne hyc hon
    · exact h.same hy
  · refine fun h => ⟨hr, htip, fun y c hc hne hyc hon => ?_, fun y hy => (h y).trans (if_neg hy)⟩
    rw [h, if_pos ⟨hon, c, hc, hne, hyc⟩]

theorem status (h : OffBelow t cs current t') : ∀ y, t'.getStatus y =
    if t.getStatus y = some .onchain ∧ ∃ c ∈ cs, c ≠ current ∧ t.Anc y c
    then some (.validated .validBlock) else t.getStatus y :=
  (iff_status h.restated h.tip).mp h

theorem of_none (hnone : ∀ y, t.getStatus y = some .onchain → ∀ c ∈ cs, c ≠ current → ¬ t.Anc y c) :
    OffBelow t cs current t where
  restated := Restated.refl t
  tip := rfl
  off _ _ hc hne hyc hon := absurd hyc (hnone _ hon _ hc hne)
  same _ _ := rfl

theorem cons {t'' : BlockTree} (h₁ : OffBelow t [c] current t') (h₂ : OffBelow t' cs current t'') :
    OffBelow t (c :: cs) current t'' := by
  refine (iff_status (h₁.restated.trans h₂.restated) (h₂.tip.trans h₁.tip)).mpr fun y => ?_
  rw [h₂.status, h₁.status, h₁.restated.anc]
  by_cases hon : t.getStatus y = some .onchain
  · by_cases hc : c ≠ current ∧ t.Anc y c
    · simp [hon, hc]
    · simp [hon, hc]
  · simp [hon]

theorem onchain_iff (h : OffBelow t cs current t') {y : H256} :
    t'.getStatus y = some .onchain ↔
      t.getStatus y = some .onchain ∧ ¬ ∃ c ∈ cs, c ≠ current ∧ t.Anc y c := by
  rw [h.status]
  split_ifs with hy
  · exact iff_of_false (by simp) fun hnone => hnone.2 hy.2
  · exact ⟨fun hon => ⟨hon, fun hex => hy ⟨hon, hex⟩⟩, And.left⟩

theorem of_children (hidx : t.Indexed) (he : t.blocks[c]? = some e)
    (hon : e.chainState = .onchain) (hne : c ≠ current) (hcur : ¬ t.Anc current c)
    (hrec : OffBelow (t.setChainState c (.validated .validBlock)) e.children.toList current t') :
    OffBelow t [c] current t' := by
  refine (iff_status ((restated_setChainState _).trans hrec.restated) hrec.tip).mpr fun y => ?_
  rw [hrec.status, getStatus_setChainState, (restated_setChainState _).anc]
  by_cases hyc : c = y
  · subst hyc
    simp [getStatus_of_entry he, hon, hne, Relation.ReflTransGen.refl]
  · rw [if_neg hyc]
    refine if_congr (and_congr_right fun _ => ?_) rfl rfl
    simp only [mem_singleton, exists_eq_left, hne, ne_eq, not_false_eq_true, true_and,
      mem_children_iff hidx he]
    constructor
    · rintro ⟨d, hd, -, hyd⟩
      exact hyd.tail hd
    · intro hy
      obtain ⟨d, hd, hyd⟩ := (anc_iff_eq_or_child.mp hy).resolve_left (Ne.symm hyc)
      refine ⟨d, hd, ?_, hyd⟩
      rintro rfl
      exact hcur (.single hd)

end OffBelow

/-- A sibling of `current` with everything on chain below it: on chain up to the sibling, away from
`current`, and within reach of the fuel. -/
structure Leaving (t : BlockTree) (current : H256) (fuel : ℕ) (c : H256) : Prop where
  mem : (t.getBlock c).isSome
  reach : ∀ y, (t.getBlock y).isSome → t.Anc y c → t.rank y < t.rank c + fuel
  down : c ≠ current → ∀ ⦃y a⦄, t.getStatus y = some .onchain → t.Anc y a → t.Anc a c →
    t.getStatus a = some .onchain
  away : c ≠ current → ¬ t.Anc current c

namespace Leaving

variable {c d current : H256} {fuel : ℕ}

theorem later (h : Leaving t current fuel d) (hoff : OffBelow t [c] current t') :
    Leaving t' current fuel d := by
  have hr := hoff.restated
  refine ⟨?_, ?_, ?_, ?_⟩
  · rw [hr.getBlock]
    exact h.mem
  · rw [hr.getBlock, hr.anc, hr.rank]
    exact h.reach
  · intro hne y a hy hya had
    rw [hr.anc] at hya had
    rw [hoff.onchain_iff] at hy ⊢
    refine ⟨h.down hne hy.1 hya had, ?_⟩
    rintro ⟨c', hc', hne', hac'⟩
    exact hy.2 ⟨c', hc', hne', hya.trans hac'⟩
  · rw [hr.anc]
    exact h.away

theorem child (ht : t.Linked) (h : Leaving t current (fuel + 1) c) (hne : c ≠ current)
    (hlink : t.Link d c) :
    Leaving (t.setChainState c (.validated .validBlock)) current fuel d := by
  have hr : Restated t (t.setChainState c (.validated .validBlock)) := restated_setChainState _
  have hrank := ht.rank_of_link hlink
  refine ⟨?_, ?_, ?_, ?_⟩
  · rw [hr.getBlock]
    exact hlink.isSome_left
  · rw [hr.getBlock, hr.anc, hr.rank]
    intro y hy hyd
    have hlt := h.reach y hy (hyd.tail hlink)
    omega
  · intro _ y a hy hya had
    rw [hr.anc] at hya had
    have hac : c ≠ a := by
      rintro rfl
      have := ht.rank_le_of_anc had
      omega
    rw [getStatus_setChainState] at hy
    split_ifs at hy with hyc
    · obtain ⟨-, -, hoff⟩ := map_eq_some_iff.mp hy
      cases hoff
    · rw [getStatus_setChainState, if_neg hac]
      exact h.down hne hy hya (had.tail hlink)
  · rw [hr.anc]
    exact fun _ hanc => h.away hne (hanc.tail hlink)

end Leaving

/-- **`mark_off_chain`** takes exactly the on-chain blocks below the siblings off the chain. -/
theorem markOffChain_spec (fuel : ℕ) : ∀ (cs : List H256) (t : BlockTree) (current : H256),
    t.Indexed → t.Linked → (∀ c ∈ cs, Leaving t current fuel c) →
    OffBelow t cs current (t.markOffChain fuel cs current) := by
  induction fuel with
  | zero =>
    intro cs t current _ _ hall
    cases cs with
    | nil => exact .of_none nofun
    | cons c cs =>
      have hc := hall c (mem_cons_self ..)
      have := hc.reach c hc.mem .refl
      omega
  | succ fuel ih =>
    intro cs
    induction cs with
    | nil => exact fun t current _ _ _ => .of_none nofun
    | cons c cs ihcs =>
      intro t current hidx hlinked hall
      rw [forall_mem_cons] at hall
      obtain ⟨hc, hall⟩ := hall
      obtain ⟨b, hb⟩ := isSome_iff_exists.mp hc.mem
      obtain ⟨e, he, rfl⟩ := exists_entry hb
      -- the body of the loop, for one sibling
      obtain ⟨t₁, heq, hfirst⟩ : ∃ t₁, t.markOffChain (fuel + 1) (c :: cs) current =
          t₁.markOffChain (fuel + 1) cs current ∧ OffBelow t [c] current t₁ := by
        rw [markOffChain]
        refine ⟨_, rfl, ?_⟩
        beta_reduce
        by_cases hne : c = current
        · rw [if_pos hne]
          exact .of_none fun _ _ d hd hne' => absurd ((mem_singleton.mp hd).trans hne) hne'
        · rw [if_neg hne]
          simp only [he]
          by_cases hon : e.chainState = .onchain
          · rw [if_pos hon]
            have hr : Restated t (t.setChainState c (.validated .validBlock)) :=
              restated_setChainState _
            refine .of_children hidx he hon hne (hc.away hne)
              (ih _ _ _ (hr.indexed hidx) (hr.linked hlinked) fun d hd => ?_)
            exact hc.child hlinked hne ((mem_children_iff hidx he).mp hd)
          · rw [if_neg hon]
            -- nothing below a block off the chain is on it
            refine .of_none fun y hy d hd _ hyd => hon ?_
            rw [mem_singleton.mp hd] at hyd
            exact Option.some.inj ((getStatus_of_entry he).symm.trans (hc.down hne hy hyd .refl))
      have hr := hfirst.restated
      have hrest := ihcs t₁ current (hr.indexed hidx) (hr.linked hlinked)
        fun d hd => (hall d hd).later hfirst
      rw [heq]
      exact hfirst.cons hrest

/-! ### Joining the chain -/

/-- On chain are the ancestors of `T` and, above them, some blocks at or below `n`, which is not
one of those ancestors but hangs from one of them. -/
structure Climb (t : BlockTree) (T n : H256) (fuel : ℕ) : Prop where
  mem : (t.getBlock n).isSome
  onchain : ∀ ⦃y⦄, (t.getBlock y).isSome → t.Anc T y → t.getStatus y = some .onchain
  only : ∀ ⦃y⦄, t.getStatus y = some .onchain → t.Anc T y ∨ t.Anc y n
  off : ¬ t.Anc T n
  anchored : ∃ a, t.Anc n a ∧ t.Anc T a ∧ t.rank n < t.rank a + fuel

/-- Some block above `n` is not validated. -/
def OverPending (t : BlockTree) (n : H256) : Prop :=
  ∃ a s, t.Anc n a ∧ a ≠ n ∧ t.getStatus a = some s ∧ s.isParentReady = false

/-- `t'` is `t` with the proper ancestors of `n` on chain and nothing else on chain that is not at
or below `n`. -/
structure OnAbove (t : BlockTree) (n : H256) (t' : BlockTree) : Prop where
  restated : Restated t t'
  tip : t'.tip = t.tip
  on : ∀ ⦃y⦄, t.Anc n y → y ≠ n → t'.getStatus y = some .onchain
  off : ∀ ⦃y⦄, ¬ t.Anc n y → ¬ t.Anc y n → t.getStatus y = some .onchain →
    t'.getStatus y = some (.validated .validBlock)
  same : ∀ ⦃y⦄, ¬ (t.Anc n y ∧ y ≠ n) → ¬ (t.getStatus y = some .onchain ∧ ¬ t.Anc y n) →
    t'.getStatus y = t.getStatus y

theorem OnAbove.iff_status {n : H256} (hr : Restated t t') (htip : t'.tip = t.tip) :
    OnAbove t n t' ↔ ∀ y, t'.getStatus y = if t.Anc n y ∧ y ≠ n then some .onchain
      else if t.getStatus y = some .onchain ∧ ¬ t.Anc y n then some (.validated .validBlock)
      else t.getStatus y := by
  constructor
  · intro h y
    split_ifs with hn hy
    · exact h.on hn.1 hn.2
    · refine h.off (fun hny => hn ⟨hny, ?_⟩) hy.2 hy.1
      rintro rfl
      exact hy.2 .refl
    · exact h.same hn hy
  · refine fun h => ⟨hr, htip, fun y hny hne => (h y).trans (if_pos ⟨hny, hne⟩), ?_, ?_⟩
    · intro y hny hyn hon
      rw [h, if_neg fun hn => hny hn.1, if_pos ⟨hon, hyn⟩]
    · intro y hn hy
      rw [h, if_neg hn, if_neg hy]

section Climb

variable {T n p : H256} {fuel : ℕ}

theorem anc_ne_iff_anc_parent (ht : t.Linked) (hp : t.Link n p) {y : H256} :
    (t.Anc n y ∧ y ≠ n) ↔ t.Anc p y := by
  constructor
  · rintro ⟨hny, hyn⟩
    exact ((anc_iff_eq_or_parent hp).mp hny).resolve_left (Ne.symm hyn)
  · intro hpy
    refine ⟨hpy.head hp, ?_⟩
    rintro rfl
    have hle := ht.rank_le_of_anc hpy
    have := ht.rank_of_link hp
    omega

theorem Climb.arrive (hidx : t.Indexed) (ht : t.Linked) (hc : Climb t T n fuel)
    (hp : t.Link n p) (hpe : t.blocks[p]? = some e) (hon : e.chainState = .onchain) :
    OnAbove t n (t.markOffChain t.blocks.size e.children.toList n) := by
  have hstatus : t.getStatus p = some .onchain := by rw [getStatus_of_entry hpe, hon]
  have hchild : ∀ c ∈ e.children.toList, t.Link c p :=
    fun c hc => (mem_children_iff hidx hpe).mp hc
  have hTp : t.Anc T p := by
    refine (hc.only hstatus).resolve_right ?_
    intro hpn
    have hle := ht.rank_le_of_anc hpn
    have := ht.rank_of_link hp
    omega
  -- a block below another child is on the old branch if it is on chain
  have hsibling : ∀ {c y}, c ∈ e.children.toList → c ≠ n → t.Anc y c → ¬ t.Anc y n :=
    fun hcm hne hyc => not_anc_sibling ht.height (hchild _ hcm) hp hne hyc
  have hoff : OffBelow t e.children.toList n
      (t.markOffChain t.blocks.size e.children.toList n) := by
    refine markOffChain_spec _ _ _ _ hidx ht fun c hcm => ⟨(hchild c hcm).isSome_left,
      fun y hy hyc => rank_lt_of_anc ht hy hyc, ?_, fun hne hnc => hsibling hcm hne hnc .refl⟩
    intro hne y a hy hya hac
    have hTy := (hc.only hy).resolve_right (hsibling hcm hne (hya.trans hac))
    obtain ⟨yb, hyb⟩ := exists_header hy
    exact hc.onchain (isSome_of_anc hya (isSome_of_eq_some hyb)) (hTy.trans hya)
  refine (OnAbove.iff_status hoff.restated hoff.tip).mpr fun y => ?_
  simp only [anc_ne_iff_anc_parent ht hp]
  split_ifs with hpy hy
  · rw [hoff.onchain_iff]
    refine ⟨hc.onchain (isSome_of_anc hpy hp.isSome_right) (hTp.trans hpy), ?_⟩
    rintro ⟨c, hcm, -, hyc⟩
    have h1 := ht.rank_le_of_anc hpy
    have h2 := ht.rank_le_of_anc hyc
    have h3 := ht.rank_of_link (hchild c hcm)
    omega
  · -- below the parent, by a child other than `n`
    have hyp := (anc_total ((hc.only hy.1).resolve_right hy.2) hTp).resolve_right hpy
    obtain rfl | ⟨c, hcp, hyc⟩ := anc_iff_eq_or_child.mp hyp
    · exact absurd .refl hpy
    · have hne : c ≠ n := by
        rintro rfl
        exact hy.2 hyc
      rw [hoff.status, if_pos ⟨hy.1, c, (mem_children_iff hidx hpe).mpr hcp, hne, hyc⟩]
  · rw [hoff.status, if_neg]
    rintro ⟨hy', c, hcm, hne, hyc⟩
    exact hy ⟨hy', hsibling hcm hne hyc⟩

section

variable (ht : t.Linked) (hc : Climb t T n (fuel + 1)) (hp : t.Link n p)
    (hpe : t.blocks[p]? = some e) (hoff : e.chainState ≠ .onchain)
include ht hc hp hpe hoff

omit ht in
theorem Climb.not_anc_parent : ¬ t.Anc T p := by
  intro hTp
  exact hoff (Option.some.inj
    ((getStatus_of_entry hpe).symm.trans (hc.onchain hp.isSome_right hTp)))

theorem Climb.parent :
    Climb (t.setChainState p .onchain) T p fuel := by
  have hr : Restated t (t.setChainState p .onchain) := restated_setChainState _
  have hrank := ht.rank_of_link hp
  constructor
  · rw [hr.getBlock]
    exact hp.isSome_right
  · intro y hy hTy
    rw [hr.getBlock] at hy
    rw [hr.anc] at hTy
    have hon := hc.onchain hy hTy
    rw [getStatus_setChainState, hon]
    split_ifs <;> rfl
  · intro y hy
    rw [hr.anc]
    rw [getStatus_setChainState] at hy
    split_ifs at hy with hyp
    · rw [← hyp]
      exact .inr .refl
    · exact (hc.only hy).imp_right fun hyn => hyn.tail hp
  · rw [hr.anc]
    exact hc.not_anc_parent hp hpe hoff
  · rw [hr.anc, hr.rank]
    obtain ⟨a, hna, hTa, hlt⟩ := hc.anchored
    have hne : a ≠ n := by
      rintro rfl
      exact hc.off hTa
    exact ⟨a, (anc_ne_iff_anc_parent ht hp).mp ⟨hna, hne⟩, hTa, by omega⟩

theorem Climb.extend
    (habove : OnAbove (t.setChainState p .onchain) p t') : OnAbove t n t' := by
  have hr : Restated t (t.setChainState p .onchain) := restated_setChainState _
  refine (OnAbove.iff_status (hr.trans habove.restated) habove.tip).mpr fun y => ?_
  rw [(OnAbove.iff_status habove.restated habove.tip).mp habove, hr.anc, getStatus_setChainState]
  simp only [anc_ne_iff_anc_parent ht hp]
  by_cases hyp : p = y
  · subst hyp
    simp [getStatus_of_entry hpe, Relation.ReflTransGen.refl]
  · simp only [if_neg hyp, ne_eq, Ne.symm hyp, not_false_eq_true, and_true]
    refine if_congr Iff.rfl rfl (if_congr (and_congr_right fun hy => not_congr ⟨?_, ?_⟩) rfl rfl)
    · intro hyp'
      refine (hc.only hy).resolve_left fun hTy => ?_
      exact hc.not_anc_parent hp hpe hoff (hTy.trans hyp')
    · exact fun hyn => hyn.tail hp

end

end Climb

/-- **`mark_on_chain`** puts the proper ancestors of a block on chain, or it fails and one of them
is not validated. -/
theorem markOnChain_cases (T : H256) (fuel : ℕ) :
    ∀ (t : BlockTree) (n : H256) (b : IrysBlockHeader),
      t.Indexed → t.Linked → t.getBlock n = some b → Climb t T n fuel →
      (∃ t', (markOnChain fuel b).run t = (.ok (), t') ∧ OnAbove t n t') ∨
        (t.OverPending n ∧ ∃ err t', (markOnChain fuel b).run t = (fail err, t')) := by
  induction fuel with
  | zero =>
    intro t n b _ ht _ hc
    obtain ⟨a, hna, -, hlt⟩ := hc.anchored
    have := ht.rank_le_of_anc hna
    omega
  | succ fuel ih =>
    intro t n b hidx ht hb hc
    -- the parent is in the tree, between the block and the chain
    obtain ⟨a, hna, hTa, -⟩ := hc.anchored
    have hne : n ≠ a := by
      rintro rfl
      exact hc.off hTa
    obtain ⟨p, hp, -⟩ := (Relation.ReflTransGen.cases_head hna).resolve_left hne
    obtain ⟨hprev, hpmem⟩ := (link_iff_of_look hb).mp hp
    obtain ⟨pb, hpb⟩ := isSome_iff_exists.mp hpmem
    obtain ⟨pe, hpe, rfl⟩ := exists_entry hpb
    have hkey : b.blockHash = n := by
      obtain ⟨ne, hne', rfl⟩ := exists_entry hb
      exact hidx.keyed hne'
    have hpn : p ≠ n := by
      rintro rfl
      have := ht.rank_of_link hp
      omega
    rw [markOnChain, run_read_bind, hprev]
    simp only [hpe]
    by_cases hon : pe.chainState = .onchain
    · rw [hon, hkey]
      exact .inl ⟨_, rfl, hc.arrive hidx ht hp hpe hon⟩
    have hr : Restated t (t.setChainState p .onchain) := restated_setChainState _
    -- from a parent in one of the states that the climb passes
    have hclimb : (∃ t', (markOnChain fuel pe.block).run (t.setChainState p .onchain) =
          (.ok (), t') ∧ OnAbove t n t') ∨
        (t.OverPending n ∧ ∃ err t', (markOnChain fuel pe.block).run
          (t.setChainState p .onchain) = (fail err, t')) := by
      rcases ih (t.setChainState p .onchain) p pe.block (hr.indexed hidx) (hr.linked ht)
        (by rw [hr.getBlock]; exact hpb) (hc.parent ht hp hpe hon) with
        ⟨t', hrun, habove⟩ | ⟨⟨a, s, hpa, hap, hs, hpending⟩, hfail⟩
      · exact .inl ⟨t', hrun, hc.extend ht hp hpe hon habove⟩
      · rw [hr.anc] at hpa
        rw [getStatus_setChainState, if_neg (Ne.symm hap)] at hs
        obtain ⟨hna, hane⟩ := (anc_ne_iff_anc_parent ht hp).mpr hpa
        exact .inr ⟨⟨a, s, hna, hane, hs, hpending⟩, hfail⟩
    have hstop : pe.chainState.isParentReady = false → t.OverPending n :=
      fun hpending => ⟨p, _, .single hp, hpn, getStatus_of_entry hpe, hpending⟩
    cases hstate : pe.chainState with
    | onchain => exact absurd hstate hon
    | validated state => exact hclimb
    | notOnchain state =>
      cases state with
      | validBlock => exact hclimb
      | unknown => exact .inr ⟨hstop (by rw [hstate]; rfl), _, _, rfl⟩
      | validationScheduled => exact .inr ⟨hstop (by rw [hstate]; rfl), _, _, rfl⟩

/-! ### The new tip -/

/-- `t'` is `t` with the tip at `n` and exactly `n` and its ancestors on chain. -/
structure TipAt (t : BlockTree) (n : H256) (t' : BlockTree) : Prop where
  restated : Restated t t'
  tip : t'.tip = n
  cached : t'.Cached
  on : ∀ ⦃y⦄, t.Anc n y → t'.getStatus y = some .onchain
  off : ∀ ⦃y⦄, ¬ t.Anc n y → t.getStatus y = some .onchain →
    t'.getStatus y = some (.validated .validBlock)
  same : ∀ ⦃y⦄, ¬ t.Anc n y → t.getStatus y ≠ some .onchain → t'.getStatus y = t.getStatus y

variable {n y : H256} {s sy sy' : ChainState}

/-- The block is as heavy as the heaviest one, which is another. -/
abbrev Ties (t : BlockTree) (n : H256) (b : IrysBlockHeader) : Prop :=
  b.cumulativeDiff = t.maxCumulativeDifficulty.1 ∧ t.maxCumulativeDifficulty.2 ≠ n

/-- A validated block off the chain. -/
def Candidate (t : BlockTree) (n : H256) : Prop :=
  ∃ s, t.getStatus n = some s ∧ s ≠ .onchain ∧ s.isParentReady

theorem Candidate.ready (h : t.Candidate n) : ∃ s, t.getStatus n = some s ∧ s.isParentReady :=
  h.imp fun _ hs => ⟨hs.1, hs.2.2⟩

section

variable (ht : t.Sound name) (hb : t.getBlock n = some b)
include ht hb

/-- **`mark_tip`** moves the tip to a block off the chain, or it fails and a block above is not
validated, unless the block is refused for tying the heaviest.  The state of the block itself is
not looked at. -/
theorem markTip_cases (hs : t.getStatus n = some s) (hoff : s ≠ .onchain) (hmax : ¬ t.Ties n b) :
    (∃ t', (markTip n).run t = (.ok true, t') ∧ TipAt t n t') ∨
      (t.OverPending n ∧ ∃ err t', (markTip n).run t = (fail err, t')) := by
  have hntip : ¬ t.Anc t.tip n := fun htn => hoff ((ht.onchain_iff hs).mpr htn)
  have hclimb : Climb t t.tip n t.blocks.size := by
    constructor
    · exact isSome_of_eq_some hb
    · intro y hy hty
      obtain ⟨sy, hsy⟩ := exists_status_of_isSome hy
      rw [hsy, (ht.onchain_iff hsy).mpr hty]
    · intro y hy
      exact .inl ((ht.onchain_iff hy).mp rfl)
    · exact hntip
    · obtain ⟨a, hna, hta⟩ := ht.anchored (isSome_of_eq_some hb)
      exact ⟨a, hna, hta, rank_lt_of_anc ht.toLinked (isSome_of_eq_some hb) hna⟩
  obtain ⟨e, he, rfl⟩ := exists_entry hb
  rcases markOnChain_cases t.tip _ t n e.block ht.toIndexed ht.toLinked hb hclimb with
    ⟨t₁, hrun, habove⟩ | ⟨hpending, err, t₁, hfail⟩
  swap
  · refine .inr ⟨hpending, err, t₁, ?_⟩
    rw [markTip, run_read_bind]
    simp only [he]
    rw [if_neg hmax, run_bind_of_error hfail]
    rfl
  left
  have hr : Restated t t₁ := habove.restated
  have hne : t.tip ≠ n := by
    rintro rfl
    exact hntip .refl
  have hbelow : ∀ {y}, t.Anc y n → t.getStatus y ≠ some .onchain := by
    intro y hyn hy
    exact hntip (((ht.onchain_iff hy).mp rfl).trans hyn)
  refine ⟨{ t₁.setChainState n .onchain with tip := n }.updateLongestChainCache, ?_, ?_⟩
  · rw [markTip, run_read_bind]
    simp only [he]
    rw [if_neg hmax, run_bind_of_ok hrun, run_update_bind, run_pure]
    simp [hne]
  · have hstatus : ∀ y, { t₁.setChainState n .onchain with tip := n
        }.updateLongestChainCache.getStatus y =
          if n = y then (t₁.getStatus y).map fun _ => .onchain else t₁.getStatus y :=
      fun y => getStatus_setChainState _
    have hsame : ∀ {y}, n ≠ y → { t₁.setChainState n .onchain with tip := n
        }.updateLongestChainCache.getStatus y = t₁.getStatus y := by
      intro y hy
      rw [hstatus, if_neg hy]
    constructor
    · exact (hr.trans (restated_setChainState .onchain)).trans
        ⟨fun _ => rfl, rfl, rfl, rfl, rfl⟩
    · rfl
    · rfl
    · intro y hny
      by_cases hyn : n = y
      · rw [hstatus, if_pos hyn, ← hyn]
        obtain ⟨s₁, hs₁⟩ : ∃ s₁, t₁.getStatus n = some s₁ := by
          apply exists_status
          rw [hr.getBlock]
          exact hb
        rw [hs₁]
        rfl
      · rw [hsame hyn, habove.on hny (Ne.symm hyn)]
    · intro y hny hy
      have hyn : n ≠ y := by
        rintro rfl
        exact hny .refl
      rw [hsame hyn, habove.off hny (fun h => hbelow h hy) hy]
    · intro y hny hy
      have hyn : n ≠ y := by
        rintro rfl
        exact hny .refl
      rw [hsame hyn, habove.same (fun h => hny h.1) fun h => hy h.1]

/-- `mark_tip` does not fail on a validated block. -/
theorem markTip_spec (hcand : t.Candidate n) (hmax : ¬ t.Ties n b) :
    ∃ t', (markTip n).run t = (.ok true, t') ∧ TipAt t n t' := by
  obtain ⟨s, hs, hoff, hready⟩ := hcand
  rcases markTip_cases ht hb hs hoff hmax with hmoved | ⟨⟨a, sa, hna, -, hsa, hpending⟩, -⟩
  · exact hmoved
  · rw [ht.ready_of_anc hna hs hready hsa] at hpending
    cases hpending

end

theorem TipAt.ready_iff_or (htip : TipAt t n t')
    (hy : t.getStatus y = some sy) (hy' : t'.getStatus y = some sy') :
    sy'.isParentReady ↔ t.Anc n y ∨ sy.isParentReady := by
  by_cases hny : t.Anc n y
  · cases (htip.on hny).symm.trans hy'
    exact iff_of_true rfl (.inl hny)
  · rw [or_iff_right hny]
    by_cases hon : t.getStatus y = some .onchain
    · cases (htip.off hny hon).symm.trans hy'
      cases hon.symm.trans hy
      exact iff_of_true rfl rfl
    · rw [htip.same hny hon] at hy'
      cases hy.symm.trans hy'
      exact Iff.rfl

theorem TipAt.anc_of_onchain (htip : TipAt t n t') (hy : t'.getStatus y = some .onchain) :
    t.Anc n y := by
  by_contra hny
  by_cases hon : t.getStatus y = some .onchain
  · cases (htip.off hny hon).symm.trans hy
  · exact hon (htip.same hny hon ▸ hy)

theorem TipAt.ready_iff (ht : t.Sound name)
    (hs : t.getStatus n = some s) (hready : s.isParentReady) (htip : TipAt t n t')
    (hy : t.getStatus y = some sy) (hy' : t'.getStatus y = some sy') :
    sy'.isParentReady ↔ sy.isParentReady := by
  rw [htip.ready_iff_or hy hy']
  constructor
  · intro hor
    exact hor.elim (fun hny => ht.ready_of_anc hny hs hready hy) id
  · exact .inr

/-- **The invariant holds at the new tip.** -/
theorem Sound.at_tip (ht : t.Sound name) (hb : t.getBlock n = some b)
    (htip : TipAt t n t') : t'.Sound name := by
  have hr := htip.restated
  refine { toTidy := ht.toTidy.restated hr htip.cached, toCanonical := ?_,
           toNamed := hr.named ht.toNamed }
  constructor
  · rw [htip.tip, hr.getBlock]
    exact isSome_of_eq_some hb
  · intro y sy hsy
    rw [htip.tip, hr.anc]
    constructor
    · rintro rfl
      exact htip.anc_of_onchain hsy
    · intro hny
      cases (htip.on hny).symm.trans hsy
      rfl
  · intro y hy
    rw [hr.getBlock] at hy
    rw [htip.tip, hr.anc]
    exact ht.exists_common_anc hy (isSome_of_eq_some hb)
  · intro y c sy sp hc hsy hready' hsp
    rw [hr.getBlock] at hc
    obtain ⟨sy₀, hsy₀⟩ := exists_status hc
    obtain ⟨pb, hpb⟩ := exists_header hsp
    rw [hr.getBlock] at hpb
    obtain ⟨sp₀, hsp₀⟩ := exists_status hpb
    rw [htip.ready_iff_or hsy₀ hsy] at hready'
    rw [htip.ready_iff_or hsp₀ hsp]
    have hlink : t.Link y c.previousBlockHash := ⟨c, hc, rfl, isSome_of_eq_some hpb⟩
    rcases hready' with hny | hready'
    · exact .inl (hny.tail hlink)
    · exact .inr (ht.ready hc hsy₀ hready' hsp₀)

end BlockTree

end Irys
