import Irys.BlockTree.FirstSeen
import Irys.Migration.Restart

/-!
# The heaviest block in every run

A run of the block tree service starts from a tree with one block, or from the tree that a restart
rebuilt.  The blocks of a rebuilt tree share one insertion sequence; they lie on one chain, so no
two of them are equally heavy.

* `Restored.firstSeen`, `restoreFromDb_firstSeen` — the rebuilt tree;
* `tracked_block_is_first_heaviest` — the tracked block, after every run.
-/

namespace Irys

open BlockTree

variable {name : H256 → Option IrysBlockHeader} {emission : ℕ → Res MigrationError ℕ}
  {genesis b : IrysBlockHeader} {chain : List IrysBlockHeader} {start top : ℕ}
  {t : BlockTree} {s : NodeStores} {config : ConsensusConfig}

/-! ### After a restart -/

theorem standing_resetSequences {h : H256} {v : ℕ × ℕ}
    (hv : t.resetSequences.standing h = some v) :
    ∃ d, t.getBlock h = some d ∧ v = (d.cumulativeDiff, 0) := by
  obtain ⟨e, he, rfl⟩ := exists_entry_of_standing hv
  rw [getElem?_resetSequences] at he
  obtain ⟨e', he', rfl⟩ := Option.map_eq_some_iff.mp he
  exact ⟨e'.block, getBlock_of_entry he', rfl⟩

/-- **The loaded blocks lie on one chain**, so their difficulties differ. -/
theorem Restored.firstSeen (hres : Restored name config chain start top t)
    (hc : GenesisChain name emission genesis chain) : t.resetSequences.FirstSeen := by
  refine ⟨?_, ?_, ?_⟩
  · intro k d n hk
    obtain ⟨c, -, hv⟩ := standing_resetSequences hk
    cases hv
    exact Nat.one_pos
  · intro k k' v hk hk'
    obtain ⟨c, hcblock, rfl⟩ := standing_resetSequences hk
    obtain ⟨d, hdblock, hv⟩ := standing_resetSequences hk'
    have hdiff : c.cumulativeDiff = d.cumulativeDiff := congrArg Prod.fst hv
    obtain ⟨hcmem, -, -, rfl⟩ := hres.blocks.mp hcblock
    obtain ⟨hdmem, -, -, rfl⟩ := hres.blocks.mp hdblock
    have hheight : c.height = d.height := by
      rcases Nat.lt_trichotomy c.height d.height with hlt | heq | hgt
      · have := hc.diff_lt (hc.mem_iff.mp hcmem) (hc.mem_iff.mp hdmem) hlt
        omega
      · exact heq
      · have := hc.diff_lt (hc.mem_iff.mp hdmem) (hc.mem_iff.mp hcmem) hgt
        omega
    rw [hc.eq_of_height hcmem hdmem hheight]
  · intro _ _
    obtain ⟨m, hm, hdiff⟩ := hres.sound.attained
    obtain ⟨e, he, rfl⟩ := exists_entry hm
    refine ⟨0, ?_, ?_⟩
    · show t.resetSequences.standing t.maxCumulativeDifficulty.2 =
        some (t.maxCumulativeDifficulty.1, 0)
      rw [standing, getElem?_resetSequences, he, ← hdiff]
      rfl
    · intro k d n hk
      obtain ⟨c, hcblock, hv⟩ := standing_resetSequences hk
      cases hv
      exact ⟨hres.sound.le hcblock, fun _ => le_rfl⟩

theorem restoreFromDb_firstSeen (hc : GenesisChain name emission genesis chain)
    (hbelow : name genesis.previousBlockHash = none) (hr : Records s chain top)
    (hdepth : config.blockMigrationDepth < config.blockTreeDepth)
    (h : restoreFromDb config s = .ok t) : t.FirstSeen := by
  obtain ⟨b, hb⟩ := exists_at hr.top_lt
  obtain ⟨start, t₁, hstart, hres, hrun⟩ := restoreFromDb_run hc hbelow hr hdepth hb
  obtain ⟨changed, t₂, hmark, hsound, -⟩ := hres.resetSequences.markTip hc hb hstart
  obtain ⟨t₃, hprune, -⟩ := prune_spec hsound (config.blockTreeDepth - 1)
  have hfirst₂ : t₂.FirstSeen := by
    have := keeps_markTip b.blockHash _ (hres.firstSeen hc)
    rwa [hmark] at this
  have hfirst₃ : t₃.FirstSeen := by
    have := keeps_prune (config.blockTreeDepth - 1) _ hfirst₂
    rwa [hprune] at this
  cases (hrun hmark hprune).symm.trans h
  exact hfirst₃

/-! ### Every run -/

/-- **The trees a run starts from**: one block, or what a restart rebuilds from the index. -/
inductive StartTree (name : H256 → Option IrysBlockHeader) : BlockTree → Prop where
  | fresh {genesis : IrysBlockHeader} {config : ConsensusConfig}
      (hname : name genesis.blockHash = some genesis)
      (hbelow : ∀ p ∈ name genesis.previousBlockHash, genesis.height = p.height + 1) :
      StartTree name (BlockTree.new genesis config)
  | restored {emission : ℕ → Res MigrationError ℕ} {genesis : IrysBlockHeader}
      {chain : List IrysBlockHeader} {top : ℕ} {s : NodeStores} {config : ConsensusConfig}
      {t : BlockTree} (hc : GenesisChain name emission genesis chain)
      (hbelow : name genesis.previousBlockHash = none) (hr : Records s chain top)
      (hdepth : config.blockMigrationDepth < config.blockTreeDepth)
      (h : restoreFromDb config s = .ok t) : StartTree name t

theorem StartTree.sound (h : StartTree name t) : t.Sound name := by
  cases h with
  | fresh hname hbelow => exact new_sound hname hbelow
  | restored hc hbelow hr hdepth h =>
    obtain ⟨t', hrun, hsound, -⟩ := restoreFromDb_spec hc hbelow hr hdepth
    cases h.symm.trans hrun
    exact hsound

theorem StartTree.firstSeen (h : StartTree name t) : t.FirstSeen := by
  cases h with
  | fresh _ _ => exact firstSeen_new _ _
  | restored hc hbelow hr hdepth h => exact restoreFromDb_firstSeen hc hbelow hr hdepth h

/-- **The block to track**: it is stored, no block has more cumulative difficulty, and no other
block with as much was added before it or with it. -/
def FirstHeaviest (t : BlockTree) (hash : H256) : Prop :=
  ∃ e, t.blocks[hash]? = some e ∧ ∀ ⦃h : H256⦄ ⦃e' : TreeBlockMetadata⦄, t.blocks[h]? = some e' →
    e'.block.cumulativeDiff ≤ e.block.cumulativeDiff ∧
      (e'.block.cumulativeDiff = e.block.cumulativeDiff → h ≠ hash →
        e.insertionSequence < e'.insertionSequence)

theorem FirstHeaviest.unique {h h' : H256} (hf : FirstHeaviest t h) (hf' : FirstHeaviest t h') :
    h' = h := by
  obtain ⟨e, he, hmax⟩ := hf
  obtain ⟨e', he', hmax'⟩ := hf'
  by_contra hne
  have hdiff := le_antisymm (hmax he').1 (hmax' he).1
  have hlt := (hmax he').2 hdiff hne
  have hgt := (hmax' he).2 hdiff.symm (Ne.symm hne)
  omega

theorem BlockTree.FirstSeen.firstHeaviest (hf : t.FirstSeen) {h : H256}
    (hh : (t.getBlock h).isSome) :
    FirstHeaviest t t.maxCumulativeDifficulty.2 ∧
      ∀ ⦃m⦄, t.getBlock t.maxCumulativeDifficulty.2 = some m →
        m.cumulativeDiff = t.maxCumulativeDifficulty.1 := by
  obtain ⟨d, hd⟩ := Option.isSome_iff_exists.mp hh
  obtain ⟨e, he, -⟩ := exists_entry hd
  obtain ⟨n, hn, hmax⟩ := hf.leads (Option.isSome_of_eq_some (standing_of_entry he))
  obtain ⟨m, hm, hv⟩ := exists_entry_of_standing hn
  obtain ⟨hdiff, hseq⟩ := Prod.mk.inj hv
  refine ⟨⟨m, hm, ?_⟩, ?_⟩
  · intro x e' he'
    obtain ⟨hle, hfirst⟩ := hmax (standing_of_entry he')
    refine ⟨hdiff ▸ hle, fun htie hne => ?_⟩
    have hle' : m.insertionSequence ≤ e'.insertionSequence := hseq ▸ hfirst (htie.trans hdiff)
    refine lt_of_le_of_ne hle' fun hsame => hne ?_
    apply hf.apart (standing_of_entry he')
    rw [htie, ← hsame]
    exact standing_of_entry hm
  · intro m' hm'
    cases (getBlock_of_entry hm).symm.trans hm'
    exact hdiff

/-- **The tracked block is the right one.**  After every run of the service, from a fresh tree or a
restored one, the recorded maximum is the cumulative difficulty of a stored block, which is the
heaviest and the first added of its weight; the blocks and their sequences alone determine it. -/
theorem tracked_block_is_first_heaviest {σ μ ω : Type} (o : Outside σ μ ω)
    (name : H256 → Option IrysBlockHeader) {t₀ : BlockTree} (hstart : StartTree name t₀) (rest : σ)
    (events : List Event) (hrun : BlockTreeService.InOrder o name ⟨t₀, rest, []⟩ events)
    {t : BlockTree} (ht : t = (BlockTreeService.run o ⟨t₀, rest, []⟩ events).cache) :
    FirstHeaviest t t.maxCumulativeDifficulty.2 ∧
    (∀ m, t.getBlock t.maxCumulativeDifficulty.2 = some m →
      m.cumulativeDiff = t.maxCumulativeDifficulty.1) ∧
    ∀ h, FirstHeaviest t h → h = t.maxCumulativeDifficulty.2 := by
  have hsound : t.Sound name := ht ▸ BlockTreeService.run_sound hstart.sound hrun
  have hfirst : t.FirstSeen := ht ▸ BlockTreeService.run_firstSeen hstart.firstSeen events
  obtain ⟨hheaviest, hdiff⟩ := hfirst.firstHeaviest hsound.tip_mem
  exact ⟨hheaviest, hdiff, fun h hh => hheaviest.unique hh⟩

section Sample

open BlockTreeService

/-- Blocks 3 and 4 tie, and block 3 came first; then it turns out to be invalid. -/
def tieEvents : List Event :=
  [.prevalidated (sampleBlock 2 1 1 2), .prevalidated (sampleBlock 3 1 1 10), .valid 2,
    .prevalidated (sampleBlock 4 2 2 10), .invalid 3]

theorem tracked_block_is_first_heaviest_tie :
    FirstHeaviest (run sampleOutside sampleStart (tieEvents.take 4)).cache 3 ∧
      FirstHeaviest (run sampleOutside sampleStart tieEvents).cache 4 := by
  have hstart : StartTree sampleName (BlockTree.new (sampleBlock 1 0 0 1) sampleTreeConfig) :=
    .fresh (by decide +kernel) (by decide +kernel)
  have hbefore := (tracked_block_is_first_heaviest sampleOutside sampleName hstart ()
    (tieEvents.take 4) (by decide +kernel) rfl).1
  have hafter := (tracked_block_is_first_heaviest sampleOutside sampleName hstart ()
    tieEvents (by decide +kernel) rfl).1
  have hmax : (run sampleOutside sampleStart (tieEvents.take 4)).cache.maxCumulativeDifficulty.2 =
      3 := by decide +kernel
  have hmax' : (run sampleOutside sampleStart tieEvents).cache.maxCumulativeDifficulty.2 = 4 := by
    decide +kernel
  exact ⟨hmax ▸ hbefore, hmax' ▸ hafter⟩

end Sample

end Irys
