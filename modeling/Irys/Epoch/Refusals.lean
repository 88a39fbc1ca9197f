import Irys.Epoch.Collected
import Irys.Epoch.Lockstep

/-!
# Refused commitments leave no trace

`add_commitment` creates a record for the signer before it looks at the commitment, so a refusal
may leave an empty record behind.  No call tells an empty record from a missing one.

* `CommitmentSnapshot.Alike` — **two snapshots with the same records**, up to empty ones;
* `addCommitment_at` — every branch works on one record, and keeps it unless it accepts;
* `Alike.addCommitment`, `Alike.answers` — one call keeps snapshots alike, and so does a run.
-/

namespace Irys

open List

/-- **What a branch of `add_commitment` does to the record it works on**: it keeps the record, or
it accepts the commitment into a record that it keeps from then on. -/
def MinerCommitments.Careful
    (add : MinerCommitments → CommitmentSnapshotStatus × MinerCommitments) : Prop :=
  ∀ mc, (add mc).2 = mc ∨ (add mc).1 = .accepted ∧ (add (add mc).2).2 = (add mc).2

namespace MinerCommitments

variable {tx : CommitmentTransaction} {count n : ℕ}

theorem careful_addPledge : Careful (·.addPledge tx count n) := by
  intro mc
  dsimp only
  fun_cases addPledge mc tx count n with
  | case4 hunstake =>
    refine .inr ⟨rfl, ?_⟩
    simp [addPledge, hunstake]
  | case1 | case2 | case3 => exact .inl rfl

theorem careful_addUnpledge {hash : PartitionHash} {owned : Bool}
    (htype : tx.commitmentType = .unpledge count hash) :
    Careful (·.addUnpledge tx count hash owned n) := by
  intro mc
  dsimp only
  fun_cases addUnpledge mc tx count hash owned n with
  | case4 =>
    have hpending : ({ mc with unpledges := mc.unpledges ++ [tx] } : MinerCommitments).hasUnpledge
        hash = true := by
      simp [hasUnpledge, htype]
    refine .inr ⟨rfl, ?_⟩
    simp only [addUnpledge, hpending, if_true]
    split_ifs <;> rfl
  | case1 | case2 | case3 => exact .inl rfl

theorem careful_addUnstake : Careful (·.addUnstake tx n) := by
  intro mc
  dsimp only
  fun_cases addUnstake mc tx n with
  | case4 =>
    refine .inr ⟨rfl, ?_⟩
    simp only [addUnstake, Option.isSome_some, if_true]
    split_ifs <;> rfl
  | case1 | case2 | case3 => exact .inl rfl

theorem careful_addUpdateRewardAddress : Careful (·.addUpdateRewardAddress tx) := by
  intro mc
  dsimp only
  fun_cases addUpdateRewardAddress mc tx with
  | case3 hunstake =>
    refine .inr ⟨rfl, ?_⟩
    simp [addUpdateRewardAddress, hunstake]
  | case1 | case2 => exact .inl rfl

end MinerCommitments

open MinerCommitments

/-- A call on a commitment snapshot, with the epoch snapshot it is made against. -/
inductive CommitmentCall where
  | addCommitment (commitmentTx : CommitmentTransaction) (epochSnapshot : EpochSnapshot)
  | getCommitmentStatus (commitmentTx : CommitmentTransaction) (epochSnapshot : EpochSnapshot)

namespace CommitmentSnapshot

/-- The answers to a sequence of calls. -/
def answers : CommitmentSnapshot → List CommitmentCall → List CommitmentSnapshotStatus
  | _, [] => []
  | cs, .addCommitment tx s :: calls =>
    (cs.addCommitment tx s).1 :: answers (cs.addCommitment tx s).2 calls
  | cs, .getCommitmentStatus tx s :: calls => cs.getCommitmentStatus tx s :: answers cs calls

/-- **The same records**, a missing one counting as an empty one. -/
def Alike (cs cs' : CommitmentSnapshot) : Prop := ∀ signer, cs.miner signer = cs'.miner signer

variable {cs cs' : CommitmentSnapshot} {s : EpochSnapshot} {tx : CommitmentTransaction}
  {signer : IrysAddress} {add : MinerCommitments → CommitmentSnapshotStatus × MinerCommitments}

/-! ### What a call reads -/

theorem getElem?_cases (cs : CommitmentSnapshot) (signer : IrysAddress) :
    cs.commitments[signer]? = some (cs.miner signer) ∨
      cs.commitments[signer]? = none ∧ cs.miner signer = .empty := by
  rw [miner]
  cases cs.commitments[signer]? with
  | none => exact .inr ⟨rfl, rfl⟩
  | some mc => exact .inl rfl

theorem hasStake_eq :
    cs.hasStake signer s = (s.isStaked signer || (cs.miner signer).stake.isSome) := by
  rw [hasStake, miner]
  cases cs.commitments[signer]? <;> rfl

/-- `existing_stake_status` of a signer with a given record. -/
def stakeStatus (tx : CommitmentTransaction) (s : EpochSnapshot) (mc : MinerCommitments) :
    Option CommitmentSnapshotStatus :=
  (if s.isStaked tx.signer then (s.commitmentState.stakeCommitments[tx.signer]?).map (·.id)
    else mc.stake.map (·.id)).map fun id => if id = tx.id then .accepted else .alreadyStaked

theorem existingStakeStatus_eq :
    cs.existingStakeStatus tx s = stakeStatus tx s (cs.miner tx.signer) := by
  rw [existingStakeStatus, miner]
  cases cs.commitments[tx.signer]? <;> rfl

/-- The stake that was just written is found again. -/
theorem stakeStatus_again {mc : MinerCommitments} (h : stakeStatus tx s mc = none) :
    stakeStatus tx s { mc with stake := some tx } = some .accepted := by
  rw [stakeStatus, Option.map_eq_none_iff] at h
  rw [stakeStatus]
  split at h
  · rename_i hstaked
    rw [EpochSnapshot.isStaked, Option.map_eq_none_iff.mp h] at hstaked
    cases hstaked
  · rw [if_neg ‹_›]
    simp

theorem Alike.getCommitmentStatus (h : Alike cs cs') :
    cs.getCommitmentStatus tx s = cs'.getCommitmentStatus tx s := by
  have hstake : cs.hasStake tx.signer s = cs'.hasStake tx.signer s := by
    rw [hasStake_eq, hasStake_eq, h]
  have hexisting : cs.existingStakeStatus tx s = cs'.existingStakeStatus tx s := by
    rw [existingStakeStatus_eq, existingStakeStatus_eq, h]
  have hminer := h tx.signer
  simp only [CommitmentSnapshot.getCommitmentStatus, hstake, hexisting]
  -- every branch answers to a missing record what it answers to an empty one
  obtain hc | ⟨hc, he⟩ := cs.getElem?_cases tx.signer <;>
    obtain hc' | ⟨hc', he'⟩ := cs'.getElem?_cases tx.signer
  · rw [hc, hc', hminer]
  · rw [he'] at hminer
    simp [hc, hc', hminer, MinerCommitments.empty]
  · rw [he] at hminer
    simp [hc, hc', ← hminer, MinerCommitments.empty]
  · rw [hc, hc']

/-! ### What a call writes -/

/-- **A call works on one record** by `add`.  The record may be written even where it stays as it
is. -/
structure CallAt (signer : IrysAddress)
    (add : MinerCommitments → CommitmentSnapshotStatus × MinerCommitments)
    (cs : CommitmentSnapshot) (result : CommitmentSnapshotStatus × CommitmentSnapshot) : Prop where
  status : result.1 = (add (cs.miner signer)).1
  written : result.2 = cs.put signer (add (cs.miner signer)).2 ∨
    result.2 = cs ∧ (add (cs.miner signer)).2 = cs.miner signer

theorem CallAt.miner {result : CommitmentSnapshotStatus × CommitmentSnapshot}
    (h : CallAt signer add cs result) (m : IrysAddress) :
    result.2.miner m = if m = signer then (add (cs.miner signer)).2 else cs.miner m := by
  obtain heq | ⟨heq, hsame⟩ := h.written
  · rw [heq, miner_put]
  · rw [heq, hsame]
    split
    · rw [‹m = signer›]
    · rfl

/-- The branch of `add_commitment` that a commitment takes works on its signer's record, with
care. -/
theorem addCommitment_at (tx : CommitmentTransaction) (s : EpochSnapshot) :
    ∃ add, Careful add ∧ ∀ cs, CallAt tx.signer add cs (cs.addCommitment tx s) := by
  have hstaked : ∀ {add}, Careful add → ∃ add', Careful add' ∧
      ∀ cs, CallAt tx.signer add' cs (cs.addStaked tx.signer s add) := by
    intro add hadd
    refine ⟨fun mc => if s.isStaked tx.signer || mc.stake.isSome then add mc else (.unstaked, mc),
      fun mc => ?_, fun cs => ?_⟩
    · dsimp only
      split
      · refine (hadd mc).imp_right (And.imp_right fun hkept => ?_)
        split
        · exact hkept
        · rfl
      · exact .inl rfl
    · rw [addStaked, hasStake_eq]
      split
      · exact ⟨by rw [if_pos ‹_›], .inl (by rw [if_pos ‹_›])⟩
      · exact ⟨by rw [if_neg ‹_›], .inr ⟨rfl, by rw [if_neg ‹_›]⟩⟩
  simp only [addCommitment]
  cases htype : tx.commitmentType with
  | stake =>
    refine ⟨fun mc => (stakeStatus tx s mc).elim (.accepted, { mc with stake := some tx }) (·, mc),
      fun mc => ?_, fun cs => ?_⟩
    · cases hex : stakeStatus tx s mc with
      | some status => exact .inl (by simp only [hex, Option.elim])
      | none => exact .inr (by simp only [hex, stakeStatus_again hex, Option.elim, and_self])
    · rw [existingStakeStatus_eq]
      cases hex : stakeStatus tx s (cs.miner tx.signer) with
      | some status =>
        exact ⟨by simp only [hex, Option.elim], .inr ⟨rfl, by simp only [hex, Option.elim]⟩⟩
      | none => exact ⟨by simp only [hex, Option.elim], .inl (by simp only [hex, Option.elim])⟩
  | pledge count => exact hstaked careful_addPledge
  | unpledge count hash => exact hstaked (careful_addUnpledge htype)
  | unstake => exact hstaked careful_addUnstake
  | updateRewardAddress => exact hstaked careful_addUpdateRewardAddress

/-- **One call keeps snapshots alike**, and answers the same on both. -/
theorem Alike.addCommitment (h : Alike cs cs') (tx : CommitmentTransaction) (s : EpochSnapshot) :
    (cs.addCommitment tx s).1 = (cs'.addCommitment tx s).1 ∧
      Alike (cs.addCommitment tx s).2 (cs'.addCommitment tx s).2 := by
  obtain ⟨add, -, hat⟩ := addCommitment_at tx s
  refine ⟨by rw [(hat cs).status, (hat cs').status, h], fun m => ?_⟩
  rw [(hat cs).miner, (hat cs').miner, h, h]

/-- **So does a run.** -/
theorem Alike.answers (h : Alike cs cs') (calls : List CommitmentCall) :
    cs.answers calls = cs'.answers calls := by
  induction calls generalizing cs cs' with
  | nil => rfl
  | cons call calls ih =>
    cases call with
    | addCommitment tx s =>
      obtain ⟨hstatus, hnext⟩ := h.addCommitment tx s
      rw [CommitmentSnapshot.answers, CommitmentSnapshot.answers, hstatus, ih hnext]
    | getCommitmentStatus tx s =>
      rw [CommitmentSnapshot.answers, CommitmentSnapshot.answers, h.getCommitmentStatus, ih h]

theorem Alike.getEpochCommitments (h : Alike cs cs') :
    cs.getEpochCommitments = cs'.getEpochCommitments := by
  rw [CommitmentSnapshot.getEpochCommitments, CommitmentSnapshot.getEpochCommitments,
    flatMap_values_congr rfl h]

/-- **Refused commitments leave no trace.**  After a refusal the epoch commitments are what they
were, and any calls that follow are answered as if it had not been made.  A commitment that is
accepted twice in a row changes nothing the second time. -/
theorem refused_commitment_leaves_no_trace (cs : CommitmentSnapshot) (s : EpochSnapshot)
    (tx : CommitmentTransaction) :
    ((cs.addCommitment tx s).1 ≠ .accepted →
      (cs.addCommitment tx s).2.getEpochCommitments = cs.getEpochCommitments ∧
        ∀ calls, (cs.addCommitment tx s).2.answers calls = cs.answers calls) ∧
    ((cs.addCommitment tx s).1 = .accepted →
      ((cs.addCommitment tx s).2.addCommitment tx s).1 = .accepted →
        ∀ m : IrysAddress, ((cs.addCommitment tx s).2.addCommitment tx s).2.commitments[m]? =
          (cs.addCommitment tx s).2.commitments[m]?) := by
  obtain ⟨add, hadd, hat⟩ := addCommitment_at tx s
  constructor
  · intro href
    have halike : Alike (cs.addCommitment tx s).2 cs := by
      intro m
      rw [(hat cs).status] at href
      rw [(hat cs).miner, (hadd _).resolve_right fun hacc => href hacc.1]
      split
      · rw [‹m = tx.signer›]
      · rfl
    exact ⟨halike.getEpochCommitments, halike.answers⟩
  · intro _ _ m
    obtain hput | ⟨hsame, -⟩ := (hat cs).written
    · obtain hput' | ⟨hsame', -⟩ := (hat (cs.addCommitment tx s).2).written
      · -- the record that is written again is the one that is there
        have hkept : (add (add (cs.miner tx.signer)).2).2 = (add (cs.miner tx.signer)).2 := by
          obtain hkept | ⟨-, hkept⟩ := hadd (cs.miner tx.signer)
          · rw [hkept, hkept]
          · exact hkept
        rw [hput', (hat cs).miner, if_pos rfl, hkept, hput]
        simp only [put, Std.TreeMap.getElem?_insert]
        split <;> rfl
      · rw [hsame']
    · rw [hsame, hsame]

/-- A snapshot in which signer 7 has a stake and two pledges. -/
def stakedSnapshot : EpochSnapshot :=
  (EpochSnapshot.new referenceEnv (sampleHeader 0 0 [1, 2, 3]) sampleCommitments
    sampleConfig).toOption.getD (.empty (sampleHeader 0 0 []) sampleConfig)

/-- A sixth pledge after two is refused and leaves an empty record; a stake is accepted, and
accepted again. -/
theorem refused_commitment_leaves_no_trace_pledge_count :
    let refused := empty.addCommitment ⟨9, 7, 0, 0, .pledge 5⟩ stakedSnapshot
    let staked := (empty.addCommitment ⟨9, 8, 0, 0, .stake⟩ stakedSnapshot).2
    refused.1 = .invalidPledgeCount ∧ (7 : IrysAddress) ∈ refused.2.commitments ∧
      (∀ calls, refused.2.answers calls = empty.answers calls) ∧
      ∀ m : IrysAddress, (staked.addCommitment ⟨9, 8, 0, 0, .stake⟩
        stakedSnapshot).2.commitments[m]? = staked.commitments[m]? :=
  ⟨by decide +kernel, by decide +kernel,
    ((refused_commitment_leaves_no_trace empty _ _).1 (by decide +kernel)).2,
    (refused_commitment_leaves_no_trace empty _ _).2 (by decide +kernel) (by decide +kernel)⟩

end CommitmentSnapshot

end Irys
