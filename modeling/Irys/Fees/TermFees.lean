import Irys.Chain.Types
import Irys.Pricing.FixedPoint

/-!
# How a term fee is split

The term fee of a data transaction is split twice.  On inclusion the block producer takes a
percentage and the rest goes to the treasury.  On expiry the treasury's part is shared out among
the miners that stored the data.

* `TermFeeCharges.new` — the split on inclusion.
-/

namespace Irys

open List

/-- `BoundedFee`: a fee in a 256-bit word. -/
structure BoundedFee where
  get : ℕ
  get_lt : get < 2 ^ 256
  deriving DecidableEq

/-- A data transaction with what it pays. -/
structure PaidTransaction extends DataTransactionHeader where
  signer : IrysAddress
  termFee : BoundedFee
  permFee : Option BoundedFee
  deriving DecidableEq

/-- The block producer's percentage of the term fee. -/
structure FeeConfig where
  immediateTxInclusionRewardPercent : ℕ
  deriving DecidableEq

/-- How a split can fail. -/
inductive FeeError where
  | pricing (e : PricingError)
  | producerRewardLargerThanTermFee
  | chargesMismatch (reward treasury termFee : ℕ)
  | noMiners
  | duplicateMiners (unique listed : ℕ)
  | distributionMismatch (distributed treasury : ℕ)
  | missingMinerList (txid : IrysTransactionId)
  | missingPermFee
  deriving DecidableEq

/-- The split of a term fee on inclusion. -/
structure TermFeeCharges where
  blockProducerReward : ℕ
  termFeeTreasury : ℕ
  treasury_lt : termFeeTreasury < 2 ^ 256
  deriving DecidableEq

namespace TermFeeCharges

def new (termFee : BoundedFee) (config : FeeConfig) : Res FeeError TermFeeCharges := do
  let blockProducerReward ← mapErr .pricing
    (mulDiv termFee.get config.immediateTxInclusionRewardPercent precisionScale)
  if blockProducerReward ≤ termFee.get then
    if saturatingAdd 256 blockProducerReward (termFee.get - blockProducerReward) =
        termFee.get then
      .ok ⟨blockProducerReward, termFee.get - blockProducerReward,
        lt_of_le_of_lt (Nat.sub_le _ _) termFee.get_lt⟩
    else fail (.chargesMismatch blockProducerReward (termFee.get - blockProducerReward)
      termFee.get)
  else fail .producerRewardLargerThanTermFee

/-- The shares before the closing check: equal parts, and the remainder to the first miner. -/
def shares (charges : TermFeeCharges) (numMiners : ℕ) : List ℕ :=
  let basePerMinerReward := charges.termFeeTreasury / numMiners
  let remainder := charges.termFeeTreasury - saturatingMul 256 basePerMinerReward numMiners
  let rewards := List.replicate numMiners basePerMinerReward
  if 0 < remainder then rewards.modifyHead (saturatingAdd 256 · remainder) else rewards

/-- `distribution_on_expiry`.  The source's `checked_div` fails on zero miners only, and those
are refused first. -/
def distributionOnExpiry (charges : TermFeeCharges) (miners : List IrysAddress) :
    Res FeeError (List ℕ) :=
  if miners = [] then fail .noMiners
  else if miners.dedup.length = miners.length then
    let rewards := charges.shares miners.length
    let totalDistributed := rewards.foldl (saturatingAdd 256) 0
    if totalDistributed = charges.termFeeTreasury then .ok rewards
    else fail (.distributionMismatch totalDistributed charges.termFeeTreasury)
  else fail (.duplicateMiners miners.dedup.length miners.length)

/-! ### The split on inclusion -/

variable {termFee : BoundedFee} {config : FeeConfig}

theorem saturatingAdd_rest {reward : ℕ} (hle : reward ≤ termFee.get) :
    saturatingAdd 256 reward (termFee.get - reward) = termFee.get := by
  rw [saturatingAdd_of_lt] <;> rw [Nat.add_sub_cancel' hle]
  exact termFee.get_lt

theorem new_ne_chargesMismatch {reward treasury fee : ℕ} :
    new termFee config ≠ fail (.chargesMismatch reward treasury fee) := by
  intro h
  rw [new] at h
  cases hreward : mulDiv termFee.get config.immediateTxInclusionRewardPercent precisionScale with
  | error e =>
    rw [hreward] at h
    cases e <;> cases h
  | ok r =>
    rw [hreward, mapErr_ok, ok_bind] at h
    by_cases hle : r ≤ termFee.get
    · rw [if_pos hle, if_pos (saturatingAdd_rest hle)] at h
      cases h
    · rw [if_neg hle] at h
      cases h

theorem new_isOk (hpercent : config.immediateTxInclusionRewardPercent ≤ precisionScale)
    (hfits : termFee.get * config.immediateTxInclusionRewardPercent < 2 ^ 256) :
    ∃ charges, new termFee config = .ok charges := by
  have hle : termFee.get * config.immediateTxInclusionRewardPercent / precisionScale ≤
      termFee.get := mul_div_le_left hpercent
  rw [new, mulDiv_of_lt hfits (by decide), mapErr_ok, ok_bind, if_pos hle,
    if_pos (saturatingAdd_rest hle)]
  exact ⟨_, rfl⟩

/-! ### The shares on expiry -/

section Shares

variable (charges : TermFeeCharges) {numMiners : ℕ}

theorem shares_eq (hpos : 0 < numMiners) :
    charges.shares numMiners =
      (charges.termFeeTreasury / numMiners + charges.termFeeTreasury % numMiners) ::
        List.replicate (numMiners - 1) (charges.termFeeTreasury / numMiners) := by
  obtain ⟨_, treasury, hlt⟩ := charges
  obtain ⟨n, rfl⟩ : ∃ n, numMiners = n + 1 := ⟨numMiners - 1, by omega⟩
  have hdiv : treasury / (n + 1) * (n + 1) + treasury % (n + 1) = treasury := Nat.div_add_mod' _ _
  have hle : treasury / (n + 1) ≤ treasury / (n + 1) * (n + 1) := Nat.le_mul_of_pos_right _ hpos
  have hrem : treasury - saturatingMul 256 (treasury / (n + 1)) (n + 1) = treasury % (n + 1) := by
    rw [saturatingMul, min_eq_left (by omega)]
    omega
  simp only [shares, hrem, replicate_succ, modifyHead_cons, Nat.add_sub_cancel]
  by_cases hzero : 0 < treasury % (n + 1)
  · rw [if_pos hzero, saturatingAdd_of_lt (by omega)]
  · rw [if_neg hzero, Nat.eq_zero_of_not_pos hzero]
    rfl

theorem length_shares (hpos : 0 < numMiners) : (charges.shares numMiners).length = numMiners := by
  rw [charges.shares_eq hpos, length_cons, length_replicate]
  omega

theorem sum_shares (hpos : 0 < numMiners) :
    (charges.shares numMiners).sum = charges.termFeeTreasury := by
  obtain ⟨n, rfl⟩ : ∃ n, numMiners = n + 1 := ⟨numMiners - 1, by omega⟩
  have hdiv := Nat.div_add_mod' charges.termFeeTreasury (n + 1)
  rw [charges.shares_eq hpos, sum_cons, sum_replicate, smul_eq_mul, Nat.add_sub_cancel]
  rw [Nat.mul_succ, Nat.mul_comm _ n] at hdiv
  omega

theorem foldl_saturatingAdd (l : List ℕ) (acc : ℕ) (h : acc + l.sum < 2 ^ 256) :
    l.foldl (saturatingAdd 256) acc = acc + l.sum := by
  induction l generalizing acc with
  | nil => rfl
  | cons x l ih =>
    rw [sum_cons] at h
    rw [foldl_cons, saturatingAdd_of_lt (by omega), ih (acc + x) (by omega), sum_cons,
      Nat.add_assoc]

/-- **The distribution's own checks never fail** on a list of distinct miners. -/
theorem distributionOnExpiry_eq_ok {miners : List IrysAddress} (hne : miners ≠ [])
    (hnodup : miners.Nodup) :
    charges.distributionOnExpiry miners = .ok (charges.shares miners.length) := by
  have hpos : 0 < miners.length := length_pos_of_ne_nil hne
  have hsum : (charges.shares miners.length).foldl (saturatingAdd 256) 0 =
      charges.termFeeTreasury := by
    have hlt := charges.treasury_lt
    rw [foldl_saturatingAdd _ _ (by rw [charges.sum_shares hpos]; omega),
      charges.sum_shares hpos, Nat.zero_add]
  rw [distributionOnExpiry, if_neg hne, if_pos (by rw [List.Nodup.dedup hnodup])]
  simp only [hsum, if_true]

end Shares

end TermFeeCharges

end Irys
