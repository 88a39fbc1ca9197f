import Irys.Epoch.Commitments
import Irys.Epoch.Pledges

/-!
# What a commitment snapshot has collected

`add_commitment` files each commitment it keeps in the record of its signer.

* `addCommitment_sound`, `addCommitments_sound` — **every call keeps it**, whatever the answer.
-/

namespace Irys

open List

/-- A commitment of signer `m`, which is a pledge or not. -/
def CommitmentTransaction.Files (m : IrysAddress) (pledge : Bool) (c : CommitmentTransaction) :
    Prop :=
  c.signer = m ∧ c.isPledge = pledge

/-- **The record of a signer is sound.** -/
structure MinerCommitments.Sound (m : IrysAddress) (mc : MinerCommitments) : Prop where
  stake : ∀ tx ∈ mc.stake, tx.Files m false
  pledges : ∀ tx ∈ mc.pledges, tx.Files m true
  pledge_ids : (mc.pledges.map (·.id)).Nodup
  unpledges : ∀ tx ∈ mc.unpledges, tx.Files m false
  unstake : ∀ tx ∈ mc.unstake, tx.Files m false
  update : ∀ tx ∈ mc.updateRewardAddress, tx.Files m false

namespace MinerCommitments

variable {m : IrysAddress} {mc : MinerCommitments} {tx : CommitmentTransaction} {count n : ℕ}

theorem sound_empty (m : IrysAddress) : Sound m .empty := by
  refine ⟨?_, ?_, nodup_nil, ?_, ?_, ?_⟩ <;>
  · intro tx htx
    cases htx

/-! ### The branches -/

section

variable (h : mc.Sound m)
include h

theorem Sound.addStake (htx : tx.Files m false) :
    Sound m { mc with stake := some tx } := by
  refine { h with stake := ?_ }
  intro tx' htx'
  cases htx'
  exact htx

theorem Sound.addPledge (htx : tx.Files m true) :
    Sound m (mc.addPledge tx count n).2 := by
  rw [MinerCommitments.addPledge]
  split
  · exact h
  · split
    · exact h
    · rename_i hnew
      split
      · exact h
      · refine { h with pledges := ?_, pledge_ids := ?_ }
        · intro tx' htx'
          rcases mem_append.mp htx' with htx' | htx'
          · exact h.pledges tx' htx'
          · obtain rfl := mem_singleton.mp htx'
            exact htx
        · rw [map_append]
          refine nodup_append.mpr ⟨h.pledge_ids, by simp, ?_⟩
          intro x hx y hy hxy
          obtain ⟨e, he, rfl⟩ := List.mem_map.mp hx
          obtain rfl : y = tx.id := by simpa using hy
          exact hnew (List.any_eq_true.mpr ⟨e, he, beq_iff_eq.mpr hxy⟩)

theorem Sound.addUnpledge (htx : tx.Files m false) {hash : PartitionHash}
    {owned : Bool} : Sound m (mc.addUnpledge tx count hash owned n).2 := by
  rw [MinerCommitments.addUnpledge]
  split
  · exact h
  · split
    · exact h
    · split
      · exact h
      · refine { h with unpledges := ?_ }
        intro tx' htx'
        rcases mem_append.mp htx' with htx' | htx'
        · exact h.unpledges tx' htx'
        · obtain rfl := mem_singleton.mp htx'
          exact htx

theorem Sound.addUnstake (htx : tx.Files m false) :
    Sound m (mc.addUnstake tx n).2 := by
  rw [MinerCommitments.addUnstake]
  split
  · exact h
  · split
    · exact h
    · split
      · exact h
      · refine { h with unstake := ?_ }
        intro tx' htx'
        cases htx'
        exact htx

theorem Sound.addUpdateRewardAddress (htx : tx.Files m false) :
    Sound m (mc.addUpdateRewardAddress tx).2 := by
  rw [MinerCommitments.addUpdateRewardAddress]
  split
  · exact h
  · split
    · exact h
    · refine { h with update := ?_ }
      intro tx' htx'
      cases htx'
      exact htx

end

/-! ### The parts of a record -/

theorem mem_all : tx ∈ mc.all ↔ tx ∈ mc.stake ∨ tx ∈ mc.pledges ∨ tx ∈ mc.unpledges ∨
    tx ∈ mc.unstake ∨ tx ∈ mc.updateRewardAddress := by
  simp only [all, mem_append, Option.mem_toList, Option.mem_def, or_assoc]

theorem Sound.signer (h : mc.Sound m) (htx : tx ∈ mc.all) : tx.signer = m := by
  rcases mem_all.mp htx with htx | htx | htx | htx | htx
  · exact (h.stake tx htx).1
  · exact (h.pledges tx htx).1
  · exact (h.unpledges tx htx).1
  · exact (h.unstake tx htx).1
  · exact (h.update tx htx).1

theorem Sound.filter_pledges (h : mc.Sound m) : mc.all.filter (·.isPledge) = mc.pledges := by
  have hnone : ∀ l : List CommitmentTransaction, (∀ tx ∈ l, tx.Files m false) →
      l.filter (·.isPledge) = [] := by
    intro l hl
    rw [filter_eq_nil_iff]
    intro tx htx
    rw [(hl tx htx).2]
    exact Bool.false_ne_true
  have hpledges : mc.pledges.filter (·.isPledge) = mc.pledges :=
    filter_eq_self.mpr fun tx htx => (h.pledges tx htx).2
  rw [all, filter_append, filter_append, filter_append, filter_append, hpledges,
    hnone _ fun tx htx => h.stake tx (Option.mem_toList.mp htx), hnone _ h.unpledges,
    hnone _ fun tx htx => h.unstake tx (Option.mem_toList.mp htx),
    hnone _ fun tx htx => h.update tx (Option.mem_toList.mp htx)]
  simp

end MinerCommitments

namespace CommitmentSnapshot

variable {s : EpochSnapshot} {cs : CommitmentSnapshot} {tx : CommitmentTransaction}
  {m : IrysAddress}

/-! ### The snapshot -/

@[simp] theorem miner_empty (m : IrysAddress) : CommitmentSnapshot.empty.miner m = .empty := by
  simp [miner, CommitmentSnapshot.empty]

theorem miner_put (cs : CommitmentSnapshot) (signer m : IrysAddress) (mc : MinerCommitments) :
    (cs.put signer mc).miner m = if m = signer then mc else cs.miner m := by
  by_cases h : m = signer
  · subst h
    simp [miner, put]
  · have h' : ¬ signer = m := fun e => h e.symm
    simp [miner, put, Std.TreeMap.getElem?_insert, h, h']

/-- Every record is sound. -/
def Sound (cs : CommitmentSnapshot) : Prop := ∀ m, (cs.miner m).Sound m

theorem sound_empty : CommitmentSnapshot.empty.Sound := by
  intro m
  rw [miner_empty]
  exact MinerCommitments.sound_empty m

theorem Sound.put (h : cs.Sound) {mc : MinerCommitments} (hmc : mc.Sound m) :
    (cs.put m mc).Sound := by
  intro m'
  rw [miner_put]
  split
  · rename_i hm
    rw [hm]
    exact hmc
  · exact h m'

theorem Sound.addStaked (h : cs.Sound)
    {add : MinerCommitments → CommitmentSnapshotStatus × MinerCommitments}
    (hadd : (add (cs.miner m)).2.Sound m) : (cs.addStaked m s add).2.Sound := by
  rw [CommitmentSnapshot.addStaked]
  split
  · exact h.put hadd
  · exact h

/-- **`add_commitment` keeps the records sound**, whether it accepts the commitment or not. -/
theorem addCommitment_sound (h : cs.Sound) (tx : CommitmentTransaction) :
    (cs.addCommitment tx s).2.Sound := by
  rw [addCommitment]
  have hm := h tx.signer
  have hfiles : tx.Files tx.signer tx.isPledge := ⟨rfl, rfl⟩
  rw [CommitmentTransaction.isPledge] at hfiles
  cases htype : tx.commitmentType with
  | stake =>
    rw [htype] at hfiles
    dsimp only
    split
    · exact h
    · exact h.put (hm.addStake hfiles)
  | pledge count =>
    rw [htype] at hfiles
    exact h.addStaked (hm.addPledge hfiles)
  | unpledge count hash =>
    rw [htype] at hfiles
    exact h.addStaked (hm.addUnpledge hfiles)
  | unstake =>
    rw [htype] at hfiles
    exact h.addStaked (hm.addUnstake hfiles)
  | updateRewardAddress rewardAddress =>
    rw [htype] at hfiles
    exact h.addStaked (hm.addUpdateRewardAddress hfiles)

theorem addCommitments_sound (h : cs.Sound) (txs : List CommitmentTransaction) :
    (cs.addCommitments txs s).Sound := by
  rw [addCommitments]
  induction txs generalizing cs with
  | nil => exact h
  | cons tx txs ih => exact ih (addCommitment_sound h tx)

/-! ### What the next epoch block carries -/

theorem getEpochCommitments_perm (cs : CommitmentSnapshot) :
    cs.getEpochCommitments.Perm (cs.commitments.values.flatMap MinerCommitments.all) :=
  perm_insertionSort _ _

theorem miner_of_getElem? {mc : MinerCommitments} (h : cs.commitments[m]? = some mc) :
    cs.miner m = mc := by
  rw [miner, h]
  rfl

/-- **No signer repeats the id of a pledge.** -/
theorem Sound.pledges_distinct (h : cs.Sound) :
    ((cs.getEpochCommitments.filter (·.isPledge)).map fun c => (c.signer, c.id)).Nodup := by
  refine (((getEpochCommitments_perm cs).filter _).map _).nodup_iff.mpr ?_
  rw [filter_flatMap, map_flatMap]
  refine nodup_flatMap_values Prod.fst ?_ ?_
  · intro m mc hget
    have hmc := miner_of_getElem? hget ▸ h m
    rw [hmc.filter_pledges, List.Nodup, pairwise_map]
    have hids := hmc.pledge_ids
    rw [List.Nodup, pairwise_map] at hids
    exact hids.imp fun hne heq => hne (congrArg Prod.snd heq)
  · intro m mc hget p hp
    obtain ⟨tx, htx, rfl⟩ := List.mem_map.mp hp
    exact (miner_of_getElem? hget ▸ h m).signer (mem_filter.mp htx).1

end CommitmentSnapshot

end Irys
