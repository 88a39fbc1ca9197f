import Irys.Migration.Inclusions
import Irys.Migration.Stores

/-!
# The lookups are exact

Rows of blocks that are gone do exist: the invariant is that no row of a migrated block is ever
missing or overwritten, and the lookups see through the rest.

* `ValidChain.apart` — the later blocks of a chain share no transaction with the migrated ones;
* `HoldsBlocks` — **the database holds a list of blocks**, with one lemma for each transaction;
* `InclusionNode.Recorded` — what holds between any two transactions of a run: the blocks held are
  the lower part of the chain, and a fork that is still to be cleared grew on them too;
* `inclusion_lookups_exact` — in every run the lookups return the height of an inclusion exactly if
  the index holds a block there that lists the transaction, and no transaction fails.
-/

namespace Irys.Inclusion

open List Option

open Irys.Replay (commitmentTxIds)

/-! ### Along a chain -/

namespace ValidChain

variable {net : Network} {chain migrated rest : List IrysBlockHeader}

variable {b : IrysBlockHeader}

theorem height_of_getElem? (h : ValidChain net chain) {i : ℕ} (hb : chain[i]? = some b) :
    b.height = i := by
  have hlt : i < chain.length := lt_length_of_some hb
  have hheights := congrArg (·[i]?) h.heights
  simp only [getElem?_map, hb, getElem?_range hlt, map_some] at hheights
  exact Option.some.inj hheights

section

variable (h : ValidChain net (migrated ++ rest))
include h

theorem height_lt (hb : b ∈ migrated) : b.height < migrated.length := by
  obtain ⟨i, hi⟩ := mem_iff_getElem?.mp hb
  have hlt : i < migrated.length := lt_length_of_some hi
  rw [h.height_of_getElem? (by rw [getElem?_append_left hlt, hi])]
  exact hlt

theorem length_le_height (hb : b ∈ rest) : migrated.length ≤ b.height := by
  obtain ⟨i, hi⟩ := mem_iff_getElem?.mp hb
  have hat : (migrated ++ rest)[migrated.length + i]? = some b := by
    rw [getElem?_append_right (Nat.le_add_right ..), Nat.add_sub_cancel_left, hi]
  rw [h.height_of_getElem? hat]
  exact Nat.le_add_right ..

/-- Of two blocks of a chain, the one below the height of the first part is in the first part. -/
theorem mem_of_height_lt (hb : b ∈ migrated ++ rest) (hlt : b.height < migrated.length) :
    b ∈ migrated := by
  obtain hleft | hright := mem_append.mp hb
  · exact hleft
  · exact absurd (h.length_le_height hright) hlt.not_ge

theorem submitted_of_published {c : IrysBlockHeader} (hc : c ∈ migrated) {id : IrysTransactionId}
    (hid : id ∈ publishTxIds c) : ∃ b ∈ migrated, b.height ≤ c.height ∧ id ∈ termTxIds b := by
  obtain ⟨b, hb, hle, hsubmitted⟩ := h.submittedFirst c (mem_append_left _ hc) id hid
  exact ⟨b, h.mem_of_height_lt hb (hle.trans_lt (h.height_lt hc)), hle, hsubmitted⟩

theorem left (hne : migrated ≠ []) : ValidChain net migrated where
  head := by
    have hhead := h.head
    rw [head?_append_of_ne_nil _ hne] at hhead
    exact hhead
  heights := by
    have hheights := congrArg (take migrated.length) h.heights
    simpa [take_append, take_range] using hheights
  links := (isChain_append.mp h.links).1
  named b hb := h.named b (mem_append_left _ hb)
  submittedOnce := (pairwise_append.mp h.submittedOnce).1
  promotedOnce := (pairwise_append.mp h.promotedOnce).1
  committedOnce := (pairwise_append.mp h.committedOnce).1
  submittedFirst c hc id hid := h.submitted_of_published hc hid
  genesisEmpty := h.genesisEmpty

end

end ValidChain

/-- **A block that shares nothing with the migrated ones**: what they submit or promote it does not
submit, what they promote it does not promote, what they commit it does not commit. -/
structure Apart (net : Network) (migrated : List IrysBlockHeader)
    (block : IrysBlockHeader) : Prop where
  submitted : ∀ b ∈ migrated, ∀ id ∈ termTxIds b, id ∉ termTxIds block
  published : ∀ b ∈ migrated, ∀ id ∈ publishTxIds b,
    id ∉ termTxIds block ∧ id ∉ publishTxIds block
  committed : ∀ b ∈ migrated, ∀ id ∈ includedCommitments net.numBlocksInEpoch b,
    id ∉ includedCommitments net.numBlocksInEpoch block

theorem ValidChain.apart {net : Network} {migrated rest : List IrysBlockHeader}
    (h : ValidChain net (migrated ++ rest)) {block : IrysBlockHeader}
    (hblock : block ∈ rest) : Apart net migrated block where
  submitted b hb id hid := (pairwise_append.mp h.submittedOnce).2.2 b hb block hblock id hid
  published b hb id hid := by
    refine ⟨?_, (pairwise_append.mp h.promotedOnce).2.2 b hb block hblock id hid⟩
    -- a transaction promoted by then was submitted by then, and is not submitted again
    obtain ⟨first, hfirst, -, hsubmitted⟩ := h.submitted_of_published hb hid
    exact (pairwise_append.mp h.submittedOnce).2.2 first hfirst block hblock id hsubmitted
  committed b hb id hid := (pairwise_append.mp h.committedOnce).2.2 b hb block hblock id hid

/-! ### What the database holds -/

/-- **The database holds the migrated blocks**: the index names them, their headers are stored and
their transactions have rows at their heights.  Other rows may exist; the commitment rows among
them never point at a roll-up. -/
structure HoldsBlocks (net : Network) (db : InclusionDb) (migrated : List IrysBlockHeader) :
    Prop where
  index : db.index = migrated.map (·.blockHash)
  headers : ∀ b ∈ migrated, db.headers[b.blockHash]? = some b
  submitted : ∀ b ∈ migrated, ∀ id ∈ termTxIds b,
    ∃ m, db.dataTxs[id]? = some m ∧ m.includedHeight = some b.height
  promoted : ∀ b ∈ migrated, ∀ id ∈ publishTxIds b,
    ∃ m, db.dataTxs[id]? = some m ∧ m.promotedHeight = some b.height
  committed : ∀ b ∈ migrated, ∀ id ∈ includedCommitments net.numBlocksInEpoch b,
    db.commitmentTxs[id]? = some ⟨some b.height⟩
  noRollUp : ∀ (id : IrysTransactionId) (h : ℕ), db.commitmentTxs[id]? = some ⟨some h⟩ →
    isNonGenesisEpochBlock net.numBlocksInEpoch h = false

namespace HoldsBlocks

variable {net : Network} {db : InclusionDb} {migrated rest : List IrysBlockHeader}

section

variable (h : HoldsBlocks net db migrated)
include h

theorem truncate (forkParentHeight : ℕ) :
    HoldsBlocks net (truncate db forkParentHeight)
      (migrated.take (forkParentHeight + 1)) where
  index := by
    show db.index.take (forkParentHeight + 1) = _
    rw [h.index, map_take]
  headers b hb := h.headers b (mem_of_mem_take hb)
  submitted b hb := h.submitted b (mem_of_mem_take hb)
  promoted b hb := h.promoted b (mem_of_mem_take hb)
  committed b hb := h.committed b (mem_of_mem_take hb)
  noRollUp := h.noRollUp

variable {block : IrysBlockHeader}

/-- **Clearing the rows of a block apart** clears no row of a migrated one. -/
theorem clearBlock (hapart : Apart net migrated block) :
    ∃ db', clearBlock net.numBlocksInEpoch db block = .ok db' ∧
      HoldsBlocks net db' migrated := by
  obtain ⟨dataTxs, hdata, hclears⟩ := clearData_spec block.dataLedgers db.dataTxs
  obtain ⟨commitmentTxs, hcommitments, hrows⟩ :=
    clearCommitmentInclusions_spec net.numBlocksInEpoch db.commitmentTxs block
  refine ⟨{ db with dataTxs, commitmentTxs }, ?_, ?_⟩
  · rw [Inclusion.clearBlock, hdata, ok_bind, hcommitments, ok_bind]
    rfl
  · refine ⟨h.index, h.headers, fun b hb id hid => ?_, fun b hb id hid => ?_,
      fun b hb id hid => ?_, fun id height hm => ?_⟩
    · rw [included_iff, (hclears id).trans (if_neg (hapart.submitted b hb id hid))]
      split <;> exact included_iff.mp (h.submitted b hb id hid)
    · obtain ⟨hterm, hpublish⟩ := hapart.published b hb id hid
      rw [promoted_iff, (hclears id).trans ((if_neg hterm).trans (if_neg hpublish)),
        ← promoted_iff]
      exact h.promoted b hb id hid
    · rw [hrows id, if_neg (hapart.committed b hb id hid)]
      exact h.committed b hb id hid
    · rw [hrows id] at hm
      split at hm
      · cases hm
      · exact h.noRollUp id height hm

/-- **The clearing transaction**, over a whole fork. -/
theorem persistMetadata
    {blocksToClear : List IrysBlockHeader}
    (hapart : ∀ block ∈ blocksToClear, Apart net migrated block) :
    ∃ db', persistMetadata net.numBlocksInEpoch db blocksToClear = .ok db' ∧
      HoldsBlocks net db' migrated := by
  obtain ⟨db', hrun, -, hdb'⟩ := foldlM_ok_of_inv
    (I := fun rest db => (∀ block ∈ rest, Apart net migrated block) ∧
      HoldsBlocks net db migrated)
    (fun db block rest hinv => by
      obtain ⟨hall, hdb⟩ := hinv
      rw [forall_mem_cons] at hall
      obtain ⟨db', hclear, hdb'⟩ := hdb.clearBlock hall.1
      exact ⟨db', hclear, hall.2, hdb'⟩) ⟨hapart, h⟩
  exact ⟨db', hrun, hdb'⟩

end

theorem getLast?_index (hindex : db.index = migrated.map (·.blockHash)) (hne : migrated ≠ [])
    (hchain : ValidChain net (migrated ++ block :: rest)) :
    db.index.getLast? = some block.previousBlockHash := by
  have hlast := getLast?_eq_some_getLast hne
  rw [hindex, getLast?_map, hlast, (isChain_append.mp hchain.links).2.2 _ hlast block rfl]
  rfl

section

variable (h : HoldsBlocks net db migrated)
include h

/-- **The next block migrates**: no step of its transaction fails, and its rows are added to those
of the blocks before. -/
theorem persistBlock (hne : migrated ≠ []) (hchain : ValidChain net (migrated ++ block :: rest)) :
    ∃ db', persistBlock net.numBlocksInEpoch db block = .ok db' ∧
      HoldsBlocks net db' (migrated ++ [block]) := by
  have hapart := hchain.apart (mem_cons_self ..)
  have hchain' : ValidChain net ((migrated ++ [block]) ++ rest) := by
    rw [append_assoc]
    exact hchain
  have hmem : block ∈ migrated ++ [block] := mem_append_right _ (mem_singleton_self _)
  have hpublish : ∀ id ∈ publishTxIds block, id ∉ termTxIds block →
      (heights db.dataTxs id).1.isSome = true := by
    intro id hid hterm
    obtain ⟨b, hb, -, hsubmitted⟩ := hchain'.submitted_of_published hmem hid
    obtain hold | hnew := mem_append.mp hb
    · rw [included_iff.mp (h.submitted b hold id hsubmitted)]
      rfl
    · rw [mem_singleton.mp hnew] at hsubmitted
      exact absurd hsubmitted hterm
  obtain ⟨dataTxs, hdata, hwrites⟩ := writeDataLedgerMetadata_spec hpublish
  obtain ⟨commitmentTxs, hcommitments, hcommitted⟩ :=
    persistCommitmentInclusions_spec net.numBlocksInEpoch db.commitmentTxs block
  have hheight : block.height = db.index.length := by
    rw [h.index, length_map]
    exact hchain.height_of_getElem? (by simp)
  have hstores := persistBlock_run hheight (getLast?_index h.index hne hchain)
  refine ⟨⟨⟨db.index ++ [block.blockHash], db.headers.insert block.blockHash block, db.supplyState⟩,
    dataTxs, commitmentTxs⟩, ?_, ?_⟩
  · rw [Inclusion.persistBlock, hdata, ok_bind, hcommitments, ok_bind, Mut.exec_of_ok hstores,
      mapErr_ok, ok_bind]
    rfl
  · refine ⟨by simp [h.index], fun b hb => ?_, fun b hb id hid => ?_, fun b hb id hid => ?_,
      fun b hb id hid => ?_, fun id height hm => ?_⟩
    · rw [Std.TreeMap.getElem?_insert]
      split
      · rename_i heq
        -- a stored header under the block's hash is the block itself
        have hnamed := hchain'.named block (mem_append_left _ hmem)
        rw [Nat.compare_eq_eq.mp heq, hchain'.named b (mem_append_left _ hb)] at hnamed
        exact hnamed.symm
      · rename_i hne
        obtain hold | hnew := mem_append.mp hb
        · exact h.headers b hold
        · rw [mem_singleton.mp hnew] at hne
          exact absurd (Nat.compare_eq_eq.mpr rfl) hne
    · rw [included_iff, hwrites id]
      obtain hold | hnew := mem_append.mp hb
      · exact (if_neg (hapart.submitted b hold id hid)).trans
          (included_iff.mp (h.submitted b hold id hid))
      · cases mem_singleton.mp hnew
        exact if_pos hid
    · rw [promoted_iff, hwrites id]
      obtain hold | hnew := mem_append.mp hb
      · exact (if_neg (hapart.published b hold id hid).2).trans
          (promoted_iff.mp (h.promoted b hold id hid))
      · cases mem_singleton.mp hnew
        exact if_pos hid
    · rw [hcommitted id]
      obtain hold | hnew := mem_append.mp hb
      · exact (if_neg (hapart.committed b hold id hid)).trans (h.committed b hold id hid)
      · cases mem_singleton.mp hnew
        exact if_pos hid
    · rw [hcommitted id] at hm
      split at hm
      · rename_i hid
        cases hm
        exact not_isNonGenesisEpochBlock_of_mem hid
      · exact h.noRollUp id height hm

theorem canonicalHeaderAtHeight (hchain : ValidChain net migrated) (height : ℕ) :
    Irys.canonicalHeaderAtHeight (db.index[·]?) (db.headers[·]?) height =
      .ok migrated[height]? := by
  rw [Irys.canonicalHeaderAtHeight, h.index, getElem?_map]
  cases hb : migrated[height]? with
  | none => rfl
  | some b =>
    rw [map_some]
    dsimp only
    rw [h.headers b (mem_of_getElem? hb)]
    exact if_neg (not_not_intro (hchain.height_of_getElem? hb))

theorem indexedBlock_eq (height : ℕ) : db.indexedBlock height = migrated[height]? := by
  rw [InclusionDb.indexedBlock, h.index, getElem?_map]
  cases hb : migrated[height]? with
  | none => rfl
  | some b => exact h.headers b (mem_of_getElem? hb)

theorem filterMap_index : db.index.filterMap (db.headers[·]?) = migrated := by
  rw [h.index, filterMap_map]
  exact (filterMap_congr h.headers).trans filterMap_some

end

end HoldsBlocks

/-! ### Booting -/

section Boot

variable {net : Network} {genesis : IrysBlockHeader} {db : InclusionDb}
  {migrated rest : List IrysBlockHeader}

theorem backfill_spec
    (hgenesis : canonicalHeaderAtHeight (db.index[·]?) (db.headers[·]?) 0 = .ok (some genesis)) :
    ∃ commitmentTxs, backfillGenesisCommitmentIncludedHeight db =
        .ok { db with commitmentTxs } ∧
      ∀ id : IrysTransactionId, commitmentTxs[id]? =
        if id ∈ commitmentTxIds genesis then some ⟨some 0⟩ else db.commitmentTxs[id]? := by
  obtain ⟨commitmentTxs, hrun, hrows⟩ := (setCommitmentTxIncludedHeight_rewrites 0).batch
    (fun _ _ => ⟨trivial, rfl⟩) (commitmentTxIds genesis) db.commitmentTxs fun _ _ => trivial
  refine ⟨commitmentTxs, ?_, hrows⟩
  rw [backfillGenesisCommitmentIncludedHeight, hgenesis, mapErr_ok, ok_bind]
  dsimp only
  rw [hrun, ok_bind]
  rfl

theorem ValidChain.genesis_height
    (h : ValidChain net migrated) : net.genesis.height = 0 :=
  h.height_of_getElem? (head?_eq_getElem? ▸ h.head)

theorem ValidChain.includedCommitments_genesis
    (h : ValidChain net migrated) :
    includedCommitments net.numBlocksInEpoch net.genesis = commitmentTxIds net.genesis := by
  rw [includedCommitments, h.genesis_height]
  rfl

/-- **A later boot** changes no row: the genesis commitments have theirs. -/
theorem HoldsBlocks.backfill (h : HoldsBlocks net db migrated)
    (hchain : ValidChain net migrated) :
    ∃ db', backfillGenesisCommitmentIncludedHeight db = .ok db' ∧
      HoldsBlocks net db' migrated := by
  have hhead : migrated[0]? = some net.genesis := head?_eq_getElem? ▸ hchain.head
  obtain ⟨commitmentTxs, hrun, hrows⟩ :=
    backfill_spec ((h.canonicalHeaderAtHeight hchain 0).trans (by rw [hhead]))
  have hfirst : ∀ id ∈ commitmentTxIds net.genesis, db.commitmentTxs[id]? = some ⟨some 0⟩ := by
    intro id hid
    rw [← hchain.includedCommitments_genesis] at hid
    rw [h.committed net.genesis (mem_of_getElem? hhead) id hid, hchain.genesis_height]
  have hsame : ∀ id : IrysTransactionId, commitmentTxs[id]? = db.commitmentTxs[id]? := by
    intro id
    rw [hrows id]
    split
    · rename_i hid
      exact (hfirst id hid).symm
    · rfl
  refine ⟨_, hrun, ⟨h.index, h.headers, h.submitted, h.promoted, fun b hb id hid => ?_,
    fun id height hm => ?_⟩⟩
  · exact (hsame id).trans (h.committed b hb id hid)
  · exact h.noRollUp id height ((hsame id).symm.trans hm)

end Boot

/-! ### Runs -/

namespace InclusionNode

variable {net : Network} {node : InclusionNode} {migrated : List IrysBlockHeader}

/-- **Between any two transactions**: the database holds the lower part of the chain the node
follows, and the fork it has still to clear grew on that part too. -/
structure Recorded (net : Network) (node : InclusionNode) (migrated : List IrysBlockHeader) :
    Prop where
  holds : HoldsBlocks net node.db migrated
  nonempty : migrated ≠ []
  valid : ValidChain net node.chain
  above : ∃ rest, node.chain = migrated ++ rest
  orphaned : ∀ old ∈ node.orphaned,
    ∃ rest, ValidChain net (migrated ++ (rest ++ old))

/-- **The first boot.** -/
theorem start_recorded (hchain : ValidChain net [net.genesis]) :
    ∃ first, start net.genesis = .ok first ∧ Recorded net first [net.genesis] ∧
      first.chain = [net.genesis] ∧ first.orphaned = none := by
  let stores := NodeStores.start net.genesis none
  have hgenesis : canonicalHeaderAtHeight (stores.index[·]?) (stores.headers[·]?) 0 =
      .ok (some net.genesis) := by
    have hindexed : stores.index[0]? = some net.genesis.blockHash := rfl
    have hstored : stores.headers[net.genesis.blockHash]? = some net.genesis :=
      Std.TreeMap.getElem?_insert_self
    rw [canonicalHeaderAtHeight, hindexed]
    dsimp only
    rw [hstored]
    exact if_neg (not_not_intro hchain.genesis_height)
  obtain ⟨commitmentTxs, hrun, hrows⟩ := @backfill_spec net.genesis ⟨stores, {}, {}⟩ hgenesis
  refine ⟨_, by rw [start, hrun, ok_bind]; rfl, ⟨?_, cons_ne_nil _ _, hchain, ⟨[], rfl⟩, ?_⟩, rfl,
    rfl⟩
  swap
  · intro old hold
    cases hold
  refine ⟨rfl, fun b hb => ?_, fun b hb id hid => ?_, fun b hb id hid => ?_,
    fun b hb id hid => ?_, fun id height hm => ?_⟩
  · cases mem_singleton.mp hb
    exact Std.TreeMap.getElem?_insert_self
  · rw [mem_singleton.mp hb, hchain.genesisEmpty.1] at hid
    cases hid
  · rw [mem_singleton.mp hb, hchain.genesisEmpty.2] at hid
    cases hid
  · cases mem_singleton.mp hb
    rw [hchain.includedCommitments_genesis] at hid
    rw [hrows id, if_pos hid, hchain.genesis_height]
  · rw [hrows id] at hm
    split at hm
    · cases hm
      rfl
    · rw [Std.TreeMap.getElem?_emptyc] at hm
      cases hm

section

variable (h : Recorded net node migrated)
include h

theorem Recorded.moveTip {forkParentHeight : ℕ} {newFork : List IrysBlockHeader}
    (hvalid : ValidChain net (node.chain.take (forkParentHeight + 1) ++ newFork)) :
    ∃ node', node.step net.numBlocksInEpoch (.moveTip forkParentHeight newFork) = .ok node' ∧
      Recorded net node' (migrated.take (forkParentHeight + 1)) ∧
      node'.chain = node.chain.take (forkParentHeight + 1) ++ newFork := by
  obtain ⟨rest, hrest⟩ := h.above
  have htake : node.chain.take (forkParentHeight + 1) = migrated.take (forkParentHeight + 1) ++
      rest.take (forkParentHeight + 1 - migrated.length) := by
    rw [hrest, take_append]
  -- an index that ends below the fork parent is what its truncation would be
  have hdb : (if node.db.index.length ≤ forkParentHeight + 1 then node.db
      else truncate node.db forkParentHeight) = truncate node.db forkParentHeight := by
    split
    · rename_i hle
      rw [truncate, NodeStores.truncate, take_of_length_le hle]
    · rfl
  refine ⟨_, rfl, ⟨?_, ?_, hvalid, ?_, ?_⟩, rfl⟩
  · show HoldsBlocks net (if _ then _ else _) _
    rw [hdb]
    exact h.holds.truncate forkParentHeight
  · intro hnil
    rw [take_eq_nil_iff] at hnil
    exact hnil.elim (Nat.succ_ne_zero _) h.nonempty
  · refine ⟨rest.take (forkParentHeight + 1 - migrated.length) ++ newFork, ?_⟩
    show node.chain.take (forkParentHeight + 1) ++ newFork = _
    rw [htake, append_assoc]
  · intro old hold
    cases hold
    refine ⟨rest.take (forkParentHeight + 1 - migrated.length), ?_⟩
    rw [← append_assoc, ← htake, take_append_drop]
    exact h.valid

theorem Recorded.persistMetadata :
    ∃ node', node.step net.numBlocksInEpoch .persistMetadata = .ok node' ∧
      Recorded net node' migrated ∧ node'.chain = node.chain ∧ node'.orphaned = none := by
  have hapart : ∀ block ∈ node.orphaned.getD [], Apart net migrated block := by
    intro block hblock
    cases hold : node.orphaned with
    | none =>
      rw [hold] at hblock
      cases hblock
    | some old =>
      rw [hold] at hblock
      obtain ⟨rest, hchain⟩ := h.orphaned old hold
      exact hchain.apart (mem_append_right _ hblock)
  obtain ⟨db', hrun, hdb'⟩ := h.holds.persistMetadata hapart
  refine ⟨{ node with db := db', orphaned := none }, ?_, ⟨hdb', h.nonempty, h.valid, h.above, ?_⟩,
    rfl, rfl⟩
  · rw [step, hrun, ok_bind]
    rfl
  · intro old hold
    cases hold

theorem Recorded.migrate (hcleared : node.orphaned = none) :
    ∃ node', node.step net.numBlocksInEpoch .migrate = .ok node' ∧
      Recorded net node' (node.chain.take (migrated.length + 1)) ∧ node'.chain = node.chain ∧
      node'.orphaned = none := by
  obtain ⟨rest, hrest⟩ := h.above
  have hlength : node.db.index.length = migrated.length := by
    rw [h.holds.index, length_map]
  have hnext : node.chain[node.db.index.length]? = rest.head? := by
    rw [hlength, hrest, getElem?_append_right le_rfl, Nat.sub_self, head?_eq_getElem?]
  cases rest with
  | nil =>
    rw [append_nil] at hrest
    refine ⟨node, ?_, ?_, rfl, hcleared⟩
    · rw [step, hnext]
      rfl
    · rw [hrest, take_of_length_le (Nat.le_succ _)]
      exact h
  | cons block rest =>
    have hchain := h.valid
    rw [hrest] at hchain
    obtain ⟨db', hrun, hdb'⟩ := h.holds.persistBlock h.nonempty hchain
    have htake : node.chain.take (migrated.length + 1) = migrated ++ [block] := by
      rw [hrest, take_length_add_append]
      rfl
    rw [htake]
    refine ⟨{ node with db := db' }, ?_, ⟨hdb', ?_, h.valid, ⟨rest, ?_⟩, ?_⟩, rfl, hcleared⟩
    · rw [step, hnext, head?_cons]
      dsimp only
      rw [hrun, ok_bind]
      rfl
    · exact append_ne_nil_of_right_ne_nil _ (cons_ne_nil _ _)
    · rw [append_assoc]
      exact hrest
    · intro old hold
      rw [hcleared] at hold
      cases hold

theorem Recorded.restart :
    ∃ node', node.step net.numBlocksInEpoch .restart = .ok node' ∧
      Recorded net node' migrated ∧ node'.chain = migrated ∧ node'.orphaned = none := by
  obtain ⟨rest, hrest⟩ := h.above
  have hwhole := h.valid
  rw [hrest] at hwhole
  have hchain := hwhole.left h.nonempty
  obtain ⟨db', hrun, hdb'⟩ := h.holds.backfill hchain
  refine ⟨⟨db', migrated, none⟩, ?_, ⟨hdb', h.nonempty, hchain, ⟨[], (append_nil _).symm⟩, ?_⟩,
    rfl, rfl⟩
  · rw [step, hrun, ok_bind, hdb'.filterMap_index]
    rfl
  · intro old hold
    cases hold

/-- **One event.** -/
theorem Recorded.step {event : InclusionEvent} (hadmits : node.Admits net event) :
    ∃ node' migrated', node.step net.numBlocksInEpoch event = .ok node' ∧
      Recorded net node' migrated' := by
  cases event with
  | moveTip forkParentHeight newFork =>
    obtain ⟨node', hstep, hnode', -⟩ := h.moveTip hadmits
    exact ⟨node', _, hstep, hnode'⟩
  | persistMetadata =>
    obtain ⟨node', hstep, hnode', -⟩ := h.persistMetadata
    exact ⟨node', _, hstep, hnode'⟩
  | migrate =>
    obtain ⟨node', hstep, hnode', -⟩ := h.migrate hadmits
    exact ⟨node', _, hstep, hnode'⟩
  | restart =>
    obtain ⟨node', hstep, hnode', -⟩ := h.restart
    exact ⟨node', _, hstep, hnode'⟩

/-- **Every run.** -/
theorem Recorded.run {events : List InclusionEvent} (hadmits : node.AdmitsAll net events) :
    ∃ node' migrated', node.run net.numBlocksInEpoch events = .ok node' ∧
      Recorded net node' migrated' := by
  obtain ⟨node', hrun, migrated', hnode'⟩ := Along.foldlM
    (I := fun node => ∃ migrated, Recorded net node migrated) (fun node event hnode hadmits => by
      obtain ⟨migrated, h⟩ := hnode
      obtain ⟨node', migrated', hstep, hnode'⟩ := h.step hadmits
      exact ⟨node', hstep, migrated', hnode'⟩) ⟨migrated, h⟩ hadmits
  exact ⟨node', migrated', hrun, hnode'⟩

end

end InclusionNode

/-! ### Lookups -/

section Lookups

variable {net : Network} {db : InclusionDb} {migrated : List IrysBlockHeader}

variable {id : IrysTransactionId} {b : IrysBlockHeader}

theorem mem_ledgers_of_listsIn {ledger : DataLedger} {p : DataLedger → Bool}
    (hp : p ledger = true) (h : Stores.blockIncludesLedgerTx b ledger id = true) :
    id ∈ (b.dataLedgers.filter (p ·.ledgerId)).flatMap (·.txIds) := by
  rw [Stores.blockIncludesLedgerTx, IrysBlockHeader.getDataLedgerTxIdsOrdered, Option.any_map] at h
  obtain ⟨dl, hdl, hid⟩ := (Option.any_eq_true _ _).mp h
  have hledger : (dl.ledgerId == ledger) = true :=
    find?_some (p := fun dl : DataTransactionLedger => dl.ledgerId == ledger) hdl
  refine mem_flatMap.mpr
    ⟨dl, mem_filter.mpr ⟨mem_of_find?_eq_some hdl, ?_⟩, contains_iff_mem.mp hid⟩
  rw [eq_of_beq hledger, hp]

section

variable (h : HoldsBlocks net db migrated) (hchain : ValidChain net migrated)
include h hchain

/-- **A lookup is exact** if every listing has its hint, and the hints stay within `P`. -/
theorem verifiedHeight_exact (maxHeight : ℕ) {lists : IrysBlockHeader → Bool} {hint : Option ℕ}
    {P : ℕ → Prop} (hwithin : ∀ height, hint = some height → P height)
    (hhint : ∀ b ∈ migrated, P b.height → lists b = true → hint = some b.height) :
    ∃ found, verifiedHeight (db.index[·]?) (db.headers[·]?) maxHeight lists hint = .ok found ∧
      ∀ height,
      found = some height ↔ height ≤ maxHeight ∧ P height ∧
        ∃ b, db.indexedBlock height = some b ∧ lists b = true := by
  refine ⟨_, verifiedHeight_eq (h.canonicalHeaderAtHeight hchain) maxHeight lists hint,
    fun height => ?_⟩
  rw [filter_eq_some_iff, Bool.and_eq_true, decide_eq_true_iff, Option.any_eq_true,
    h.indexedBlock_eq]
  constructor
  · intro hfound
    obtain ⟨heq, hmax, b, hb, hlists⟩ := hfound
    exact ⟨hmax, hwithin height heq, b, hb, hlists⟩
  · intro hlisted
    obtain ⟨hmax, hP, b, hb, hlists⟩ := hlisted
    have hheight := hchain.height_of_getElem? hb
    refine ⟨?_, hmax, b, hb, hlists⟩
    rw [← hheight] at hP ⊢
    exact hhint b (mem_of_getElem? hb) hP hlists

theorem canonicalMetadataHeight_exact {picked : Option ℕ} {ledger : DataLedger} (maxHeight : ℕ)
    (hpick : ∀ b ∈ migrated, Stores.blockIncludesLedgerTx b ledger id = true →
      picked = some b.height) :
    ∃ found, canonicalMetadataHeight (db.index[·]?) (db.headers[·]?) id maxHeight picked ledger =
        .ok found ∧ ∀ height, found = some height ↔ height ≤ maxHeight ∧
        ∃ b, db.indexedBlock height = some b ∧
          Stores.blockIncludesLedgerTx b ledger id = true := by
  obtain ⟨found, hfound, hiff⟩ := verifiedHeight_exact h hchain maxHeight
    (P := fun _ => True) (fun _ _ => trivial) (fun b hb _ => hpick b hb)
  refine ⟨found, hfound, fun height => ?_⟩
  rw [hiff height, true_and]

theorem canonicalCommitmentIncludedHeight_exact (id : IrysTransactionId) (maxHeight : ℕ) :
    ∃ found, canonicalCommitmentIncludedHeight db id maxHeight = .ok found ∧ ∀ height,
      found = some height ↔ height ≤ maxHeight ∧
        isNonGenesisEpochBlock net.numBlocksInEpoch height = false ∧
          ∃ b, db.indexedBlock height = some b ∧ (commitmentTxIds b).contains id = true := by
  refine verifiedHeight_exact h hchain maxHeight (fun height hhint => ?_)
    fun b hb hepoch hlists => ?_
  · obtain ⟨⟨included⟩, hm, hheight⟩ := bind_eq_some_iff.mp hhint
    cases hheight
    exact h.noRollUp id height hm
  · have hid : id ∈ includedCommitments net.numBlocksInEpoch b := by
      rw [includedCommitments, if_neg (by rw [hepoch]; exact Bool.false_ne_true)]
      exact contains_iff_mem.mp hlists
    rw [h.committed b hb id hid]
    rfl

end

end Lookups

/-- **Inclusion lookups are exact on the migrated chain.**  In every run of tip moves, clearings,
migrations and restarts no transaction fails — in particular no promotion for a missing inclusion —
and after it every lookup returns a height exactly if it is within the bound and the block that the
index holds there lists the transaction: in its Submit ledger, in its Publish ledger, or among the
commitments of a block that is no roll-up. -/
theorem inclusion_lookups_exact (net : Network) (hgenesis : ValidChain net [net.genesis])
    (events : List InclusionEvent)
    (hadmits : ∀ first ∈ (InclusionNode.start net.genesis).toOption,
      first.AdmitsAll net events) :
    ∃ first node, InclusionNode.start net.genesis = .ok first ∧
      first.run net.numBlocksInEpoch events = .ok node ∧
      ∀ id maxHeight,
        (∃ found, canonicalSubmitHeight node.db id maxHeight = .ok found ∧ ∀ height,
          found = some height ↔ height ≤ maxHeight ∧
            ∃ b, node.db.indexedBlock height = some b ∧
              Stores.blockIncludesLedgerTx b .submit id = true) ∧
        (∃ found, canonicalPromotedHeight node.db id maxHeight = .ok found ∧ ∀ height,
          found = some height ↔ height ≤ maxHeight ∧
            ∃ b, node.db.indexedBlock height = some b ∧
              Stores.blockIncludesLedgerTx b .publish id = true) ∧
        (∃ found, canonicalCommitmentIncludedHeight node.db id maxHeight = .ok found ∧ ∀ height,
          found = some height ↔ height ≤ maxHeight ∧
            isNonGenesisEpochBlock net.numBlocksInEpoch height = false ∧
              ∃ b, node.db.indexedBlock height = some b ∧
                (commitmentTxIds b).contains id = true) := by
  obtain ⟨first, hstart, hfirst, -⟩ := InclusionNode.start_recorded hgenesis
  obtain ⟨node, migrated, hrun, hnode⟩ :=
    hfirst.run (hadmits first (by rw [hstart]; rfl))
  have hvalid := hnode.valid
  obtain ⟨rest, hrest⟩ := hnode.above
  rw [hrest] at hvalid
  have hmigrated := hvalid.left hnode.nonempty
  exact ⟨first, node, hstart, hrun, fun id maxHeight =>
    ⟨canonicalMetadataHeight_exact hnode.holds hmigrated maxHeight fun b hb hlists =>
        included_iff.mp (hnode.holds.submitted b hb id
          (mem_ledgers_of_listsIn (p := (· != .publish)) rfl hlists)),
      canonicalMetadataHeight_exact hnode.holds hmigrated maxHeight fun b hb hlists =>
        promoted_iff.mp (hnode.holds.promoted b hb id
          (mem_ledgers_of_listsIn (p := (· == .publish)) rfl hlists)),
      canonicalCommitmentIncludedHeight_exact hnode.holds hmigrated id maxHeight⟩⟩

section Decidable

variable {net : Network}

instance (chain : List IrysBlockHeader) :
    Decidable (ValidChain net chain) :=
  decidable_of_iff' _ (validChain_iff net chain)

instance (node : InclusionNode) :
    DecidablePred (node.Admits net)
  | .moveTip _ _ => inferInstanceAs (Decidable (ValidChain _ _))
  | .persistMetadata => isTrue trivial
  | .migrate => inferInstanceAs (Decidable (_ = none))
  | .restart => isTrue trivial

end Decidable

/-- A block of the sample chains, by its hash, its parent's hash and what it lists. -/
def inclusionBlock (hash prev height : ℕ) (commitments submits publishes : List ℕ) :
    IrysBlockHeader :=
  ⟨hash, prev, 0, 0, height, 0, 0, [⟨.commitment, commitments⟩],
    [⟨.publish, 0, publishes, 0⟩, ⟨.submit, 0, submits, 0⟩]⟩

/-- A genesis block with a commitment, a fork that submits transaction 7 and promotes it, and one
that submits it a block later. -/
def inclusionBlocks : List IrysBlockHeader :=
  [inclusionBlock 10 0 0 [50] [] [], inclusionBlock 11 10 1 [51] [7] [],
    inclusionBlock 12 11 2 [50, 51] [] [7], inclusionBlock 21 10 1 [] [] [],
    inclusionBlock 22 21 2 [50] [7] []]

/-- The first fork migrates; a reorg rolls the index back and the node crashes before the rows of
the fork are cleared; the second fork migrates over them. -/
def inclusionEvents : List InclusionEvent :=
  let b := inclusionBlocks
  [.moveTip 0 ((b.drop 1).take 2), .persistMetadata, .migrate, .migrate, .moveTip 0 (b.drop 3),
    .restart, .moveTip 0 (b.drop 3), .persistMetadata, .migrate, .migrate]

/-- After the crash a promotion row of the lost fork is left at height 2, where the index now holds
a block that submits the transaction and does not publish it. -/
theorem inclusion_lookups_exact_after_crash :
    ∃ genesis first node, inclusionBlocks.head? = some genesis ∧
      InclusionNode.start genesis = .ok first ∧ first.run 2 inclusionEvents = .ok node ∧
      canonicalPromotedHeight node.db 7 5 = .ok none ∧
      ∃ found, canonicalSubmitHeight node.db 7 5 = .ok found ∧ ∀ height,
        found = some height ↔ height ≤ 5 ∧
          ∃ b, node.db.indexedBlock height = some b ∧
            Stores.blockIncludesLedgerTx b .submit 7 = true := by
  obtain ⟨first, node, hstart, hrun, hlookups⟩ := inclusion_lookups_exact
    ⟨2, fun hash => inclusionBlocks.find? (·.blockHash == hash), inclusionBlock 10 0 0 [50] [] []⟩
    (by decide) inclusionEvents (by decide +kernel)
  obtain ⟨hsubmit, ⟨found, hfound, -⟩, -⟩ := hlookups 7 5
  have heval : ((InclusionNode.start (inclusionBlock 10 0 0 [50] [] []) >>=
      fun first => first.run 2 inclusionEvents).toOption.map
        fun node => (canonicalPromotedHeight node.db 7 5).toOption) = some (some none) := by
    decide +kernel
  rw [hstart, ok_bind, hrun] at heval
  have hnone : (canonicalPromotedHeight node.db 7 5).toOption = some none := Option.some.inj heval
  rw [hfound] at hnone
  cases Option.some.inj hnone
  exact ⟨_, first, node, rfl, hstart, hrun, hfound, hsubmit⟩

end Irys.Inclusion
