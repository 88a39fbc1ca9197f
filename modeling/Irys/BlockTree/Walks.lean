import Irys.BlockTree.Remove

/-!
# What the walks along parent hashes find

* `collectChain_lineage`, `Sound.longestChainCache` — the chain cache is the ancestry of the tip,
  cut at the depth bound.
-/

namespace Irys

open List Option Forest

namespace BlockTree

variable {t : BlockTree} {h x : H256} {b : IrysBlockHeader} {e : TreeBlockMetadata}
  {name : H256 → Option IrysBlockHeader}

/-! ### The canonical chain -/

theorem lineage_of_height_zero (ht : t.Linked) (he : t.blocks[h]? = some e)
    (hzero : e.block.height = 0) : t.lineage e.block.previousBlockHash = [] := by
  cases hp : t.blocks[e.block.previousBlockHash]? with
  | none => exact lineage_of_none ht hp
  | some p =>
    have := ht.height (getBlock_of_entry he) (getBlock_of_entry hp)
    omega

theorem collectChain_lineage (ht : t.Linked) (depth : ℕ) (h : H256) :
    collectChain depth (t.lineage h) = ((t.lineage h).map Prod.snd).take (depth + 1) := by
  induction depth generalizing h with
  | zero =>
    cases he : t.blocks[h]? with
    | none =>
      rw [lineage_of_none ht he]
      rfl
    | some e =>
      rw [lineage_of_some ht he]
      simp [collectChain]
  | succ depth ih =>
    cases he : t.blocks[h]? with
    | none =>
      rw [lineage_of_none ht he]
      rfl
    | some e =>
      rw [lineage_of_some ht he, collectChain, map_cons, take_succ_cons]
      by_cases hzero : e.block.height = 0
      · rw [if_pos (.inr hzero), lineage_of_height_zero ht he hzero]
        rfl
      · rw [if_neg (by simp [hzero]), Nat.add_sub_cancel, ih]

/-- **The chain cache** is the tip's ancestry in the tree, up to the depth bound, oldest first;
all of it is on chain. -/
theorem Sound.longestChainCache (ht : t.Sound name) :
    t.longestChainCache =
      ((((t.lineage t.tip).map (·.2.block)).take (t.consensusConfig.blockTreeDepth + 1)).reverse,
        0) := by
  rw [ht.cached, updateLongestChainCache]
  dsimp only
  rw [collectChain_lineage ht.toLinked, map_take, List.map_map]
  refine Prod.ext rfl ?_
  show List.countP _ _ = 0
  rw [countP_eq_zero]
  intro e he
  obtain ⟨⟨y, e'⟩, hy, rfl⟩ := List.mem_map.mp (mem_of_mem_take he)
  obtain ⟨hanc, he'⟩ := (mem_lineage ht.toLinked).mp hy
  simp [(ht.onchain_iff (getStatus_of_entry he')).mpr hanc]

/-! ### The validated head -/

theorem mem_of_validatedHead {head : Option H256} {l : List (H256 × TreeBlockMetadata)} {v : H256}
    (hv : validatedHead head l = some v) : head = some v ∨ v ∈ l.map Prod.fst := by
  induction l generalizing head with
  | nil => cases hv
  | cons p l ih =>
    obtain ⟨current, entry⟩ := p
    have hgetD : ∀ {w}, head.getD current = w → head = some w ∨ w = current := by
      intro w hw
      cases head with
      | none => exact .inr hw.symm
      | some u => exact .inl (congrArg some hw)
    have hcons : ∀ {w}, w ∈ l.map Prod.fst → w ∈ ((current, entry) :: l).map Prod.fst :=
      fun hw => mem_cons_of_mem _ hw
    have hfirst : ∀ {w}, head.getD current = w →
        head = some w ∨ w ∈ ((current, entry) :: l).map Prod.fst := by
      intro w hw
      rcases hgetD hw with heq | rfl
      · exact .inl heq
      · exact .inr (mem_cons_self ..)
    rw [validatedHead] at hv
    split at hv
    · exact hfirst (Option.some.inj hv)
    · exact (ih hv).elim (fun heq => hfirst (Option.some.inj heq)) (.inr ∘ hcons)
    · exact (ih hv).elim (fun heq => hfirst (Option.some.inj heq)) (.inr ∘ hcons)
    · exact (ih hv).elim (fun heq => by cases heq) (fun hmem => .inr (hcons hmem))
    · exact (ih hv).elim (fun heq => by cases heq) (fun hmem => .inr (hcons hmem))

/-- Off the chain a block has its parent in the tree, one lower. -/
theorem Sound.exists_parent (ht : t.Sound name) (he : t.blocks[h]? = some e)
    (hoff : e.chainState ≠ .onchain) : ∃ p, t.blocks[e.block.previousBlockHash]? = some p ∧
      t.rank h = t.rank e.block.previousBlockHash + 1 := by
  obtain ⟨p, hp⟩ := ht.exists_link (getStatus_of_entry he) hoff
  have hrank := ht.rank_of_link hp
  obtain ⟨rfl, hmem⟩ := (link_iff_of_look (getBlock_of_entry he)).mp hp
  obtain ⟨b, hb⟩ := isSome_iff_exists.mp hmem
  obtain ⟨p, hp, -⟩ := exists_entry hb
  exact ⟨p, hp, hrank⟩

/-- From a validated block the walk goes down to the chain, and keeps its first block. -/
theorem validatedHead_of_ready (ht : t.Sound name) (head : Option H256)
    (he : t.blocks[h]? = some e) (hready : e.chainState.isParentReady) :
    validatedHead head (t.lineage h) = some (head.getD h) := by
  induction hn : t.rank h using Nat.strong_induction_on generalizing h e head with
  | _ n ih =>
    rw [lineage_of_some ht.toLinked he, validatedHead]
    by_cases hon : e.chainState = .onchain
    · rw [hon]
    · obtain ⟨p, hp, hrank⟩ := ht.exists_parent he hon
      have hrest := ih _ (by omega) (some (head.getD h)) hp
        (ht.ready (getBlock_of_entry he) (getStatus_of_entry he) hready (getStatus_of_entry hp)) rfl
      match hstate : e.chainState, hready with
      | .onchain, _ => exact absurd hstate hon
      | .validated .validBlock, _ => exact hrest
      | .notOnchain .validBlock, _ => exact hrest

/-- **The validated head is the heaviest block exactly when that block is validated.** -/
theorem head_eq_max_iff (ht : t.Sound name) :
    t.getMaxChainValidatedHead = some t.maxCumulativeDifficulty.2 ↔
      ∃ s, t.getStatus t.maxCumulativeDifficulty.2 = some s ∧ s.isParentReady := by
  obtain ⟨b, hb, -⟩ := ht.attained
  obtain ⟨e, he, rfl⟩ := exists_entry hb
  have hs := getStatus_of_entry he
  constructor
  · intro hhead
    refine ⟨e.chainState, hs, ?_⟩
    by_contra hpending
    -- the walk drops the heaviest block at once, and then meets only its ancestors
    have hrest : validatedHead none (t.lineage e.block.previousBlockHash) =
        some t.maxCumulativeDifficulty.2 := by
      rw [← hhead, getMaxChainValidatedHead, lineage_of_some ht.toLinked he]
      match hstate : e.chainState, hpending with
      | .validated .unknown, _ => simp only [validatedHead, hstate]
      | .validated .validationScheduled, _ => simp only [validatedHead, hstate]
      | .notOnchain .unknown, _ => simp only [validatedHead, hstate]
      | .notOnchain .validationScheduled, _ => simp only [validatedHead, hstate]
      | .onchain, h => exact absurd rfl h
      | .validated .validBlock, h => exact absurd rfl h
      | .notOnchain .validBlock, h => exact absurd rfl h
    rcases mem_of_validatedHead hrest with hnone | hmem
    · cases hnone
    · obtain ⟨⟨y, e'⟩, hy, hyeq⟩ := List.mem_map.mp hmem
      obtain ⟨hanc, he'⟩ := (mem_lineage ht.toLinked).mp hy
      have hle := ht.rank_le_of_anc hanc
      rw [show y = t.maxCumulativeDifficulty.2 from hyeq] at hle
      have hoff : e.chainState ≠ .onchain := by
        intro hon
        rw [hon] at hpending
        exact hpending rfl
      obtain ⟨p, -, hrank⟩ := ht.exists_parent he hoff
      omega
  · rintro ⟨s, hs', hready⟩
    cases hs.symm.trans hs'
    exact validatedHead_of_ready ht none he hready

/-! ### The fork of the heaviest block -/

theorem canonicalForkHeight_of_off (ht : t.Linked) {p : TreeBlockMetadata}
    (hp : t.blocks[e.block.previousBlockHash]? = some p) (hoff : e.chainState ≠ .onchain) :
    t.canonicalForkHeight e = t.canonicalForkHeight p := by
  rw [canonicalForkHeight, canonicalForkHeight, lineage_of_some ht hp,
    find?_cons_of_neg (by simpa using hoff)]
  rfl

theorem forkHeight_lt (ht : t.Linked) (he : t.blocks[h]? = some e) {f : ℕ}
    (hf : t.canonicalForkHeight e = some f) (hoff : e.chainState ≠ .onchain) :
    f < e.block.height := by
  rw [canonicalForkHeight, find?_cons_of_neg (by simpa using hoff)] at hf
  obtain ⟨a, ha, rfl⟩ := map_eq_some_iff.mp hf
  obtain ⟨⟨y, a'⟩, hy, rfl⟩ := List.mem_map.mp (mem_of_find?_eq_some ha)
  obtain ⟨hanc, ha'⟩ := (mem_lineage ht).mp hy
  have hle := ht.rank_le_of_anc hanc
  cases hp : t.blocks[e.block.previousBlockHash]? with
  | none =>
    rw [lineage_of_none ht hp] at hy
    cases hy
  | some p =>
    have hheight := ht.height (getBlock_of_entry he) (getBlock_of_entry hp)
    have hra : t.rank y = a'.block.height := rank_of_look (getBlock_of_entry ha')
    have hrp : t.rank e.block.previousBlockHash = p.block.height :=
      rank_of_look (getBlock_of_entry hp)
    show a'.block.height < e.block.height
    omega

theorem earliestNotOnchain_isSome (ht : t.Sound name) (depth : ℕ) {f : ℕ}
    (he : t.blocks[h]? = some e) (hoff : e.chainState ≠ .onchain)
    (hf : t.canonicalForkHeight e = some f) (hdepth : e.block.height ≤ f + depth) :
    (t.earliestNotOnchain depth e (t.lineage e.block.previousBlockHash)).isSome := by
  induction depth generalizing h e with
  | zero =>
    have := forkHeight_lt ht.toLinked he hf hoff
    omega
  | succ depth ih =>
    obtain ⟨pe, hpe, -⟩ := ht.exists_parent he hoff
    have hheight := ht.height (getBlock_of_entry he) (getBlock_of_entry hpe)
    have hne : e.block.height ≠ 0 := by
      intro hzero
      rw [hzero] at hheight
      omega
    have hrest : pe.chainState ≠ .onchain →
        (t.earliestNotOnchain depth pe (t.lineage pe.block.previousBlockHash)).isSome := by
      intro hpoff
      apply ih hpe hpoff
      · rw [← canonicalForkHeight_of_off ht.toLinked hpe hoff]
        exact hf
      · omega
    rw [lineage_of_some ht.toLinked hpe]
    unfold earliestNotOnchain
    rw [if_neg hne]
    dsimp only
    match hstate : pe.chainState with
    | .onchain => rfl
    | .validated .validBlock => rfl
    | .validated .unknown => exact hrest (by rw [hstate]; simp)
    | .validated .validationScheduled => exact hrest (by rw [hstate]; simp)
    | .notOnchain _ => exact hrest (by rw [hstate]; simp)

theorem max_off_of_heavier (ht : t.Sound name) {c : IrysBlockHeader}
    (hc : t.getBlock t.tip = some c) (hlt : c.cumulativeDiff < t.maxCumulativeDifficulty.1)
    {s : ChainState} (hs : t.getStatus t.maxCumulativeDifficulty.2 = some s) : s ≠ .onchain := by
  intro hon
  obtain ⟨b, hb, hdiff⟩ := ht.attained
  have hle := ht.diff_le_of_anc ((ht.onchain_iff hs).mp hon) hc hb
  omega

/-- **The gate opens for a heavier block on a fork no longer than the depth.** -/
theorem gate_of_short_fork (ht : t.Sound name) {c : IrysBlockHeader}
    (hc : t.getBlock t.tip = some c) (hlt : c.cumulativeDiff < t.maxCumulativeDifficulty.1)
    (hshort : ∀ ⦃e f⦄, t.blocks[t.maxCumulativeDifficulty.2]? = some e →
      t.canonicalForkHeight e = some f → e.block.height ≤ f + t.consensusConfig.blockTreeDepth) :
    t.getEarliestNotOnchainInLongestChain.isSome := by
  obtain ⟨ce, hce, rfl⟩ := exists_entry hc
  obtain ⟨b, hb, -⟩ := ht.attained
  obtain ⟨e, he, rfl⟩ := exists_entry hb
  have hoff := max_off_of_heavier ht hc hlt (getStatus_of_entry he)
  -- the walk to the chain ends
  obtain ⟨f, hf⟩ : ∃ f, t.canonicalForkHeight e = some f := by
    obtain ⟨a, hma, hta⟩ := ht.anchored (isSome_of_eq_some hb)
    obtain ⟨ab, hab⟩ := isSome_iff_exists.mp
      (isSome_of_anc hma (isSome_of_eq_some hb))
    obtain ⟨ae, hae, rfl⟩ := exists_entry hab
    have hon := (ht.onchain_iff (getStatus_of_entry hae)).mpr hta
    have hmem : ae ∈ e :: (t.lineage e.block.previousBlockHash).map Prod.snd := by
      have := (mem_lineage ht.toLinked).mpr ⟨hma, hae⟩
      rw [lineage_of_some ht.toLinked he] at this
      show ae ∈ ((t.maxCumulativeDifficulty.2, e) ::
        t.lineage e.block.previousBlockHash).map Prod.snd
      exact List.mem_map.mpr ⟨(a, ae), this, rfl⟩
    have hsome : ((e :: (t.lineage e.block.previousBlockHash).map Prod.snd).find?
        (·.chainState == .onchain)).isSome := by
      rw [find?_isSome]
      exact ⟨ae, hmem, by simp [hon]⟩
    obtain ⟨z, hz⟩ := isSome_iff_exists.mp hsome
    exact ⟨z.block.height, by rw [canonicalForkHeight, hz]; rfl⟩
  have hfound := earliestNotOnchain_isSome ht _ he hoff hf (hshort he hf)
  unfold getEarliestNotOnchainInLongestChain
  simp only [hce, he, bind_eq_bind, bind_some]
  rw [if_neg (not_le.mpr hlt)]
  match hstate : e.chainState with
  | .onchain => exact absurd hstate hoff
  | .validated _ => exact hfound
  | .notOnchain _ => exact hfound

theorem heavier_of_gate (hc : t.getBlock t.tip = some b)
    (hgate : t.getEarliestNotOnchainInLongestChain.isSome) :
    b.cumulativeDiff < t.maxCumulativeDifficulty.1 := by
  obtain ⟨ce, hce, rfl⟩ := exists_entry hc
  by_contra hle
  unfold getEarliestNotOnchainInLongestChain at hgate
  simp only [hce, bind_eq_bind, bind_some] at hgate
  rw [if_pos (not_lt.mp hle)] at hgate
  cases hgate

end BlockTree

end Irys
