import Irys.BlockTree.Runs
import Irys.Lib.Leader

/-!
# The heaviest block is the first one seen

The tree keeps the heaviest block beside the blocks: a new block replaces it if it is heavier, and
it is looked up again when it is deleted, by `find_max_difficulty`, which decides ties by the
insertion sequence.  Both rules name the same block.

* `keeps_…` — **every method of the tree keeps it**, whatever its outcome;
* `after_firstSeen`, `run_firstSeen` — so does every event of the service, in every run.
-/

namespace Irys

open List Mut

namespace BlockTree

open Std

variable {t : BlockTree} {h x : H256} {b : IrysBlockHeader} {e : TreeBlockMetadata}

/-- The cumulative difficulty and the insertion sequence of a block. -/
def standing (t : BlockTree) (h : H256) : Option (ℕ × ℕ) :=
  t.blocks[h]?.map fun e => (e.block.cumulativeDiff, e.insertionSequence)

/-- **The recorded maximum is the heaviest block, the first added among equals.** -/
def FirstSeen (t : BlockTree) : Prop :=
  Ranking t.standing t.nextInsertionSequence t.maxCumulativeDifficulty

theorem standing_of_entry (he : t.blocks[h]? = some e) :
    t.standing h = some (e.block.cumulativeDiff, e.insertionSequence) := by
  rw [standing, he]
  rfl

theorem exists_entry_of_standing {v : ℕ × ℕ} (hv : t.standing h = some v) :
    ∃ e, t.blocks[h]? = some e ∧ (e.block.cumulativeDiff, e.insertionSequence) = v :=
  Option.map_eq_some_iff.mp hv

/-! ### Chain states -/

theorem standing_setChainState (s : ChainState) : (t.setChainState h s).standing = t.standing := by
  funext x
  rw [standing, getElem?_setChainState, standing]
  split_ifs
  · rw [Option.map_map]
    rfl
  · rfl

theorem firstSeen_setChainState (ht : t.FirstSeen) (s : ChainState) :
    (t.setChainState h s).FirstSeen := by
  show Ranking (t.setChainState h s).standing t.nextInsertionSequence t.maxCumulativeDifficulty
  rw [standing_setChainState]
  exact ht

theorem markOffChain_firstSeen (fuel : ℕ) : ∀ (children : List H256) (current : H256)
    {t : BlockTree}, t.FirstSeen → (markOffChain fuel children current t).FirstSeen := by
  induction fuel with
  | zero =>
    intro children current t ht
    exact ht
  | succ fuel ih =>
    intro children current t ht
    rw [markOffChain]
    induction children generalizing t with
    | nil => exact ht
    | cons child rest ihrest =>
      rw [foldl_cons]
      apply ihrest
      split_ifs
      · exact ht
      · split
        · exact ht
        · split_ifs
          · exact ih _ current (firstSeen_setChainState ht _)
          · exact ht

theorem keeps_markOnChain (fuel : ℕ) (header : IrysBlockHeader) :
    Mut.Keeps FirstSeen (markOnChain fuel header) := by
  induction fuel generalizing header with
  | zero => exact keeps_lift _
  | succ fuel ih =>
    refine keeps_read_bind fun t ht => ?_
    split
    · exact ht
    · rename_i prevEntry _
      split
      · exact markOffChain_firstSeen _ _ _ ht
      · exact ih prevEntry.block _ (firstSeen_setChainState ht _)
      · exact ih prevEntry.block _ (firstSeen_setChainState ht _)
      · exact ht

theorem keeps_markTip (hash : H256) : Mut.Keeps FirstSeen (markTip hash) := by
  refine keeps_read_bind fun t ht => ?_
  dsimp only
  split
  · exact ht
  · split_ifs
    · exact ht
    · refine (keeps_markOnChain _ _).bind (fun _ => ?_) t ht
      refine (keeps_update fun s hs => ?_).bind fun _ => keeps_pure _
      exact firstSeen_setChainState hs _

theorem firstSeen_markBlockAsValidationScheduled (ht : t.FirstSeen) :
    (t.markBlockAsValidationScheduled h).FirstSeen := by
  rw [markBlockAsValidationScheduled]
  split
  · exact firstSeen_setChainState ht _
  · exact firstSeen_setChainState ht _
  · exact ht

theorem keeps_markBlockAsValid (hash : H256) : Mut.Keeps FirstSeen (markBlockAsValid hash) := by
  refine keeps_read_bind fun t ht => ?_
  split
  · exact firstSeen_setChainState ht _
  · exact firstSeen_setChainState ht _
  · exact ht
  · exact ht

/-! ### A new block -/

/-- **A new block leads if it is heavier than the maximum.** -/
theorem firstSeen_place {s : ChainState} {prevEntry : TreeBlockMetadata} (ht : t.FirstSeen)
    (hprev : t.blocks[b.previousBlockHash]? = some prevEntry)
    (hfresh : t.blocks[b.blockHash]? = none) :
    (t.place b.blockHash b s prevEntry).FirstSeen := by
  have hne := prev_ne_hash hprev hfresh
  have hnext : (t.place b.blockHash b s prevEntry).nextInsertionSequence =
      t.nextInsertionSequence + 1 := by
    have hnot : (t.blocks.insert b.previousBlockHash
        { prevEntry with children := prevEntry.children.insert b.blockHash }).contains
          b.blockHash = false := by
      rw [← Bool.not_eq_true, TreeMap.contains_insert]
      simp [hne, TreeMap.contains_eq_isSome_getElem?, hfresh]
    unfold place
    simp only [hnot, Bool.false_eq_true, if_false]
  have hlead := ht.leads (k := b.previousBlockHash) (by
    rw [standing_of_entry hprev]
    rfl)
  have hnone : t.standing b.blockHash = none := by
    rw [standing, hfresh]
    rfl
  have hview : ∀ x, (t.place b.blockHash b s prevEntry).standing x =
      if b.blockHash = x then some (b.cumulativeDiff, t.nextInsertionSequence)
      else t.standing x :=
    fun x => map_place hprev hfresh fun _ _ => rfl
  rw [FirstSeen, hnext]
  refine Ranking.insert ht hlead hnone ?_ fun x hx => ?_
  · rw [hview, if_pos rfl]
  · rw [hview, if_neg (Ne.symm hx)]

/-! ### A block deleted -/

/-- **`find_max_difficulty` names the leader**, if there is a block. -/
theorem findMaxDifficulty_leads {maxBlock : ℕ × H256} (hmax : t.findMaxDifficulty = .ok maxBlock)
    (hx : (t.standing x).isSome) : Leads t.standing maxBlock := by
  obtain ⟨v, hv⟩ := Option.isSome_iff_exists.mp hx
  obtain ⟨e, he, -⟩ := exists_entry_of_standing hv
  obtain ⟨q, hfind, hq, hle⟩ := findMaxDifficulty_spec he
  cases hfind.symm.trans hmax
  refine ⟨q.2.insertionSequence, standing_of_entry hq, ?_⟩
  intro y d n hy
  obtain ⟨e, he, heq⟩ := exists_entry_of_standing hy
  cases heq
  exact hle he

theorem standing_unlink : (t.unlink h e).standing x = if h = x then none else t.standing x :=
  map_unlink fun _ _ => rfl

theorem keeps_deleteBlock (hash : H256) : Mut.Keeps FirstSeen (deleteBlock hash) := by
  refine keeps_read_bind fun t ht => ?_
  dsimp only
  split
  · exact ht
  · rename_i entry _
    have hsub : ∀ ⦃y v⦄, (t.unlink hash entry).standing y = some v → t.standing y = some v := by
      intro y v hv
      rw [standing_unlink] at hv
      split_ifs at hv
      exact hv
    by_cases hmax : t.maxCumulativeDifficulty.2 = hash
    · rw [if_pos hmax]
      cases hfind : (t.unlink hash entry).findMaxDifficulty with
      | error err =>
        rw [run_bind_of_error (run_lift _ _)]
        exact ht
      | ok maxBlock =>
        rw [run_lift_ok_bind]
        exact Ranking.elect ht hsub fun y hy => findMaxDifficulty_leads hfind hy
    · rw [if_neg hmax, run_lift_ok_bind]
      have hstays : (t.unlink hash entry).standing t.maxCumulativeDifficulty.2 =
          t.standing t.maxCumulativeDifficulty.2 := by
        rw [standing_unlink, if_neg (Ne.symm hmax)]
      exact Ranking.erase ht hsub hstays

theorem keeps_removeSubtree (fuel : ℕ) (hash : H256) :
    Mut.Keeps FirstSeen (removeSubtree fuel hash) := by
  induction fuel generalizing hash with
  | zero => exact keeps_lift _
  | succ fuel ih =>
    refine keeps_read_bind fun t ht => ?_
    split
    · exact ht
    · rename_i entry _
      split_ifs
      · exact ht
      · exact ((Mut.Keeps.forEach ih _).bind fun _ => keeps_deleteBlock hash) t ht

theorem keeps_removeBlock (hash : H256) : Mut.Keeps FirstSeen (removeBlock hash) :=
  keeps_read_bind fun t ht => keeps_removeSubtree _ hash t ht

/-! ### Pruning -/

theorem keeps_pruneChild (child : H256) : Mut.Keeps FirstSeen (pruneChild child) := by
  refine keeps_read_bind fun t ht => ?_
  split
  · exact ht
  · exact ht
  · exact (keeps_removeBlock child).logged t ht

theorem keeps_pruneBlock (hash : H256) : Mut.Keeps FirstSeen (pruneBlock hash) := by
  refine keeps_read_bind fun t ht => ?_
  split
  · exact ht
  · split_ifs
    · refine ((Mut.Keeps.gather keeps_pruneChild _).bind fun _ => ?_) t ht
      exact (keeps_deleteBlock hash).logged.bind fun _ => keeps_pure _
    · exact ht

theorem keeps_pruneHeight (height : ℕ) : Mut.Keeps FirstSeen (pruneHeight height) := by
  refine keeps_read_bind fun t ht => ?_
  split
  · exact ht
  · exact Mut.Keeps.gather keeps_pruneBlock _ t ht

theorem keeps_prune (depth : ℕ) : Mut.Keeps FirstSeen (prune depth) := by
  refine keeps_read_bind fun t ht => ?_
  refine ((keeps_lift _).bind fun tipEntry => ?_) t ht
  dsimp only
  split
  · exact keeps_pure _
  · exact Mut.Keeps.gather keeps_pruneHeight _

end BlockTree

namespace BlockTreeService

open BlockTree

variable {σ μ ω : Type} {o : Outside σ μ ω} {s : BlockTreeService σ}
  {name : H256 → Option IrysBlockHeader}

/-! ### Events -/

/-- The service's tree has the invariant. -/
def CacheFirstSeen (s : BlockTreeService σ) : Prop := s.cache.FirstSeen

theorem keeps_onCache {α : Type} {err : TreeError → ServiceError ω} {x : Mut BlockTree TreeError α}
    (hx : Mut.Keeps FirstSeen x) : Mut.Keeps CacheFirstSeen (onCache err x : Call σ ω α) :=
  Mut.Keeps.zoom (J := FirstSeen) (fun _ hs => hs) (fun _ _ _ hp => hp) hx

theorem keeps_onOutside {α : Type} (x : Mut σ ω α) :
    Mut.Keeps CacheFirstSeen (onOutside x : Call σ ω α) := fun _ hs => hs

theorem keeps_note (errors : List TreeError) :
    Mut.Keeps CacheFirstSeen (note errors : Call σ ω Unit) := fun _ hs => hs

theorem keeps_noted {α : Type} {x : Mut BlockTree TreeError α} (hx : Mut.Keeps FirstSeen x) :
    Mut.Keeps CacheFirstSeen (noted x : Call σ ω _) := by
  refine (keeps_onCache hx.attempt).bind fun result => ?_
  cases result with
  | ok a => exact keeps_pure _
  | error e => exact (keeps_note [e]).bind fun _ => keeps_pure _

theorem keeps_onBlockPrevalidated (block : IrysBlockHeader) :
    Mut.Keeps CacheFirstSeen (onBlockPrevalidated o block) := by
  refine keeps_read_bind fun s hs => ?_
  split_ifs with hknown
  · exact hs
  · split
    · exact hs
    · rename_i parentEntry hparent
      cases hsnap : mapErr ServiceError.outside (o.createSnapshots block parentEntry) with
      | error err =>
        rw [run_bind_of_error (run_lift _ _)]
        exact hs
      | ok _ =>
        rw [run_lift_ok_bind]
        -- the tree has not changed since it was read, so the block is new
        have hfresh : s.cache.blocks[block.blockHash]? = none :=
          getBlock_eq_none_iff.mp (Option.not_isSome_iff_eq_none.mp hknown)
        have hstatus : s.cache.getStatus block.blockHash = none := by
          rw [getStatus, hfresh]
          rfl
        have hadd : (onCache (.addBlockFailed block.blockHash) (addBlock block) :
            Call σ ω Unit).run s = (.ok (), { s with cache :=
              (s.cache.place block.blockHash block (.notOnchain .unknown)
                parentEntry).updateLongestChainCache }) := by
          rw [onCache, run_zoom, addBlock, run_read_bind, hstatus, if_neg (by simp),
            addCommon, run_read_bind, hparent]
          rfl
        rw [run_bind_of_ok hadd]
        refine ((keeps_update fun s hs => ?_).bind fun _ => keeps_onOutside _) _ ?_
        · exact firstSeen_markBlockAsValidationScheduled hs
        · exact firstSeen_place hs hparent hfresh

theorem keeps_moveTip (candidate : H256) (newTip : IrysBlockHeader) (split : ReorgSplit) :
    Mut.Keeps CacheFirstSeen (moveTip o candidate newTip split) := by
  refine (keeps_noted (keeps_markTip candidate)).bind fun result => ?_
  split
  · exact keeps_lift _
  · exact keeps_pure _
  · refine keeps_read_bind fun s hs => ?_
    refine ((keeps_lift _).bind fun fcuMarkers => ?_) s hs
    refine (keeps_onCache (keeps_prune _)).bind fun errors => ?_
    refine (keeps_note errors).bind fun _ => ?_
    refine Mut.Keeps.bind ?_ fun _ => keeps_pure _
    rw [rollBack]
    split_ifs
    · exact keeps_onOutside _
    · exact keeps_pure _

theorem keeps_tryMoveTipTo (candidate : H256) :
    Mut.Keeps CacheFirstSeen (tryMoveTipTo o candidate) := by
  refine keeps_read_bind fun s hs => ?_
  refine ((keeps_lift _).bind fun decision => ?_) s hs
  split
  · exact keeps_pure _
  · exact keeps_moveTip _ _ _

theorem keeps_announce {otherwise : Call σ ω Unit} (h : Mut.Keeps CacheFirstSeen otherwise)
    (tipMove : Option (TipMove μ)) : Mut.Keeps CacheFirstSeen (announce o otherwise tipMove) := by
  cases tipMove with
  | none => exact h
  | some m => exact keeps_read_bind fun s hs => hs

theorem keeps_discardAndBroadcast (hash : H256) (kind : DiscardKind) :
    Mut.Keeps CacheFirstSeen (discardAndBroadcast hash kind : Call σ ω Unit) := by
  refine keeps_read_bind fun s hs => ?_
  split
  · exact hs
  · split
    · exact hs
    · refine ((keeps_noted (keeps_removeBlock hash)).bind fun result => ?_) s hs
      split
      · exact keeps_pure _
      · split_ifs
        · exact keeps_lift _
        · exact keeps_pure _

theorem keeps_moveTipAfterDiscard : Mut.Keeps CacheFirstSeen (moveTipAfterDiscard o) := by
  refine keeps_read_bind fun s hs => ?_
  split_ifs
  · exact hs
  · exact hs
  · exact ((keeps_tryMoveTipTo _).bind fun _ => keeps_announce (keeps_pure ()) _) s hs

theorem keeps_onValid (hash : H256) : Mut.Keeps CacheFirstSeen (onValid o hash) := by
  refine keeps_read_bind fun s hs => ?_
  split
  · exact hs
  · exact hs
  · refine ((keeps_onCache (keeps_markBlockAsValid hash).attempt).bind fun result => ?_) s hs
    split
    · exact keeps_pure _
    · refine keeps_read_bind fun s hs => ?_
      split_ifs
      · exact hs
      · exact ((keeps_tryMoveTipTo _).bind fun _ => keeps_announce (keeps_onOutside _) _) s hs

/-- **Every event keeps the heaviest block right**, whatever its outcome. -/
theorem after_firstSeen (hs : s.cache.FirstSeen) (event : Event) :
    (after o s event).cache.FirstSeen := by
  have hkeeps : Mut.Keeps CacheFirstSeen (handle o event) := by
    cases event with
    | prevalidated block => exact keeps_onBlockPrevalidated block
    | valid hash => exact keeps_onValid hash
    | invalid hash =>
      exact (keeps_discardAndBroadcast hash .invalid).bind fun _ => keeps_moveTipAfterDiscard
    | softInternal hash =>
      exact (keeps_discardAndBroadcast hash .softInternal).bind fun _ => keeps_moveTipAfterDiscard
  exact hkeeps s hs

theorem run_firstSeen (hs : s.cache.FirstSeen) (events : List Event) :
    (run o s events).cache.FirstSeen := by
  induction events generalizing s with
  | nil => exact hs
  | cons event events ih => exact ih (after_firstSeen hs event)

end BlockTreeService

namespace BlockTree

theorem firstSeen_new (genesis : IrysBlockHeader) (config : ConsensusConfig) :
    (new genesis config).FirstSeen := by
  have hcases : ∀ {x : H256} {v : ℕ × ℕ}, (new genesis config).standing x = some v →
      x = genesis.blockHash ∧ v = (genesis.cumulativeDiff, 0) := by
    intro x v hv
    obtain ⟨e, he, rfl⟩ := exists_entry_of_standing hv
    rw [getElem?_new] at he
    split_ifs at he with hx
    cases he
    exact ⟨hx.symm, rfl⟩
  have hself : (new genesis config).standing genesis.blockHash =
      some (genesis.cumulativeDiff, 0) := by
    rw [standing, getElem?_new, if_pos rfl]
    rfl
  refine ⟨?_, ?_, ?_⟩
  · intro x d n hx
    obtain ⟨-, hv⟩ := hcases hx
    cases hv
    exact Nat.one_pos
  · intro x y v hx hy
    rw [(hcases hx).1, (hcases hy).1]
  · intro x _
    refine ⟨0, hself, ?_⟩
    intro y d m hy
    obtain ⟨-, hv⟩ := hcases hy
    cases hv
    exact ⟨le_rfl, fun _ => le_rfl⟩

end BlockTree

end Irys
