import Irys.Migration.Lookups
import Irys.Migration.Runs

/-!
# The moves of the inclusion tables are the node's

`Node.step` moves the tip, rolls the index back and migrates; the events of an `InclusionNode` are
these steps as the rows see them, one transaction each.

* `Tracks` — an inclusion node with the chain and the index of a node;
* `Tracks.leads` — what a step does to the chain, in events that can happen;
* `index_simulated` — every run of safe moves is a run that the exact lookups are about.
-/

namespace Irys.Inclusion

open List Relation

namespace InclusionNode

variable {net : Network} {node node' : InclusionNode} {chain chain' : List IrysBlockHeader}
  {top top' : ℕ}

/-- One event that can happen. -/
def Moves (net : Network) (node node' : InclusionNode) : Prop :=
  ∃ event, node.Admits net event ∧ node.step net.numBlocksInEpoch event = .ok node'

theorem exists_run (h : ReflTransGen (Moves net) node node') :
    ∃ events, node.AdmitsAll net events ∧ node.run net.numBlocksInEpoch events = .ok node' := by
  induction h using ReflTransGen.head_induction_on with
  | refl => exact ⟨[], trivial, rfl⟩
  | @head node mid hmove _ ih =>
    obtain ⟨event, hadmits, hstep⟩ := hmove
    obtain ⟨events, hall, hrun⟩ := ih
    refine ⟨event :: events, ⟨hadmits, fun next hnext => ?_⟩, ?_⟩
    · obtain rfl : mid = next :=
        Option.some.inj ((congrArg Except.toOption hstep).symm.trans hnext)
      exact hall
    · rw [run, foldlM_cons, hstep, ok_bind]
      exact hrun

/-- The node follows the chain, its index ends at `top`, and no fork is left to be cleared. -/
structure Tracks (net : Network) (node : InclusionNode) (chain : List IrysBlockHeader)
    (top : ℕ) : Prop extends recorded : Recorded net node (chain.take (top + 1)) where
  top_lt : top < chain.length
  follows : node.chain = chain
  cleared : node.orphaned = none

section

variable (h : Tracks net node chain top)
include h

theorem Tracks.migrates (k : ℕ) (hlt : top + k < chain.length) :
    ∃ node', ReflTransGen (Moves net) node node' ∧ Tracks net node' chain (top + k) := by
  induction k with
  | zero => exact ⟨node, .refl, h⟩
  | succ k ih =>
    obtain ⟨mid, hmid, ht⟩ := ih (by omega)
    obtain ⟨node', hstep, hrec, hsame, hcleared⟩ := ht.recorded.migrate ht.cleared
    refine ⟨node', hmid.tail ⟨.migrate, ht.cleared, hstep⟩, ?_, hlt, hsame.trans ht.follows,
      hcleared⟩
    rw [ht.follows, length_take_of_le ht.top_lt] at hrec
    exact hrec

/-- **A step of the chain**: the tip moves, the fork it leaves is cleared and the blocks of the
new one migrate; or the node boots. -/
theorem Tracks.leads (hleads : Node.Leads chain top chain' top') (hvalid : ValidChain net chain')
    (hlt : top' < chain'.length) :
    ∃ node', ReflTransGen (Moves net) node node' ∧ Tracks net node' chain' top' := by
  cases hleads with
  | stays => exact ⟨node, .refl, h⟩
  | restarts =>
    obtain ⟨node', hstep, hrec, hsame, hcleared⟩ := h.recorded.restart
    refine ⟨node', .single ⟨.restart, trivial, hstep⟩, ?_, hlt, hsame, hcleared⟩
    rw [take_take, Nat.min_self]
    exact hrec
  | moves fork new hle =>
    have hlow : (chain.take (top + 1)).take (fork + 1) =
        (chain.take (fork + 1) ++ new).take (min top fork + 1) := by
      have := h.top_lt
      rw [take_append_of_le_length (by rw [length_take]; omega), take_take, take_take]
      congr 1
      omega
    have hadmits := hvalid
    rw [← h.follows] at hadmits
    obtain ⟨moved, hmove, hmoved, hchain⟩ := h.recorded.moveTip hadmits
    obtain ⟨cleared, hclear, hrec, hsame, hnone⟩ := hmoved.persistMetadata
    rw [hlow] at hrec
    rw [h.follows] at hchain
    have ht : Tracks net cleared (chain.take (fork + 1) ++ new) (min top fork) :=
      ⟨hrec, hle.trans_lt hlt, hsame.trans hchain, hnone⟩
    obtain ⟨node', hruns, ht'⟩ := ht.migrates (top' - min top fork) (by omega)
    rw [Nat.add_sub_cancel' hle] at ht'
    exact ⟨node', .head ⟨.moveTip fork new, hadmits, hmove⟩
      (.head ⟨.persistMetadata, trivial, hclear⟩ hruns), ht'⟩

end

end InclusionNode

open InclusionNode

section

variable (net : Network) (config : ConsensusConfig) (fullBlockReward : ℕ → Res MigrationError ℕ)
  (createSnapshots : IrysBlockHeader → TreeBlockMetadata → Res MigrationError Unit)

/-- An event that can arrive, whose move is safe and leads to a valid chain. -/
structure ValidStep (node : Node) (event : NodeEvent) : Prop where
  arrives : Node.Arrives net.blockOf fullBlockReward node event
  safe : Node.Safe config node event
  valid : ∀ chain, GenesisChain net.blockOf (blockEmission fullBlockReward) net.genesis chain →
    (let node' := (Node.step config fullBlockReward createSnapshots node event).2
     chain.getLast? = node'.cache.getBlock node'.cache.tip) → ValidChain net chain

variable {net config fullBlockReward createSnapshots}

/-- **Every run of the node is a run of admitted events** over the same index. -/
theorem index_simulated (hdepth : config.blockMigrationDepth < config.blockTreeDepth)
    (hgenesis : ValidChain net [net.genesis])
    (hbelow : net.blockOf net.genesis.previousBlockHash = none) (backfill : Option (Option ℕ))
    {events : List NodeEvent} (hevents : Node.Along config fullBlockReward createSnapshots
      (ValidStep net config fullBlockReward createSnapshots)
      (Node.start net.genesis config backfill) events) :
    ∃ first moves incl, InclusionNode.start net.genesis = .ok first ∧
      first.AdmitsAll net moves ∧ first.run net.numBlocksInEpoch moves = .ok incl ∧
      incl.db.index = (Node.run config fullBlockReward createSnapshots
        (Node.start net.genesis config backfill) events).outside.index := by
  obtain ⟨first, hstart, hfirst, hchain, hnone⟩ := start_recorded hgenesis
  have hholds : Node.Holds net.blockOf fullBlockReward net.genesis config _ _ _ :=
    Node.start_holds hgenesis.genesis_height (hgenesis.named _ (mem_singleton_self _)) hbelow
      backfill
  obtain ⟨incl, chain, top, hmoves, ht, hh⟩ := Along.foldl (I := fun node => ∃ incl chain top,
      ReflTransGen (Moves net) first incl ∧ Tracks net incl chain top ∧
        Node.Holds net.blockOf fullBlockReward net.genesis config node chain top)
    (fun node event hnode hstep => by
      obtain ⟨mid, chain, top, hmid, ht, hh⟩ := hnode
      obtain ⟨-, chain', top', hh', hleads⟩ := hh.step hdepth hbelow hstep.arrives hstep.safe
      obtain ⟨incl, hmoves, ht'⟩ := ht.leads hleads
        (hstep.valid chain' hh'.genesisChain hh'.carries.last) hh'.records.top_lt
      exact ⟨incl, chain', top', hmid.trans hmoves, ht', hh'⟩)
    ⟨first, [net.genesis], 0, .refl, ⟨hfirst, Nat.zero_lt_one, hchain, hnone⟩, hholds⟩ hevents
  obtain ⟨moves, hadmits, hrun⟩ := exists_run hmoves
  refine ⟨first, moves, incl, hstart, hadmits, hrun, ?_⟩
  rw [ht.holds.index, map_take]
  exact hh.records.index.symm

end

end Irys.Inclusion
