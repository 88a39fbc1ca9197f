import Irys.Epoch.Lockstep
import Irys.Expiry.Walk
import Irys.Fees.TermFees
import Irys.Lib.Tally

/-!
# Settling expired transactions

When slots of a term ledger expire, the treasury's part of each transaction's term fee is shared
out among the miners that stored it, and the permanent fee of a transaction that was never
promoted goes back to its signer.

* `aggregateBalanceDeltas` — the loop over the expired transactions;
* `creditsOf`, `refundsOf`, `Payable` — what one transaction pays, and when the loop gets past it;
* `settlement_conserves_fees` — the loop pays out what the transactions paid in, no more and no
  less.
-/

namespace Irys

open List

open Std (TreeMap TreeSet)

/-- The bytes of a hash, read little-endian. -/
def fromLeBytes (hash : H256) : ℕ :=
  (be 32 hash).reverse.foldl (fun acc byte => acc * 256 + byte.toNat) 0

/-- What a reward address is due, and the rolling hash of the transactions it is due for. -/
structure Reward where
  amount : ℕ
  rollingHash : ℕ
  deriving DecidableEq

/-- A permanent fee that goes back to its signer. -/
structure Refund where
  txid : IrysTransactionId
  amount : ℕ
  user : IrysAddress
  deriving DecidableEq

/-- One addition to a reward address. -/
structure Credit where
  address : IrysAddress
  reward : Reward
  deriving DecidableEq

/-- What a settlement adds to the balances. -/
structure LedgerExpiryBalanceDelta where
  rewardBalanceIncrement : TreeMap IrysAddress Reward
  userPermFeeRefunds : List Refund

/-- Add a credit to the increments.  The word saturates. -/
def credit (rewards : TreeMap IrysAddress Reward) (c : Credit) : TreeMap IrysAddress Reward :=
  upsert rewards c.address
    (fun current => ⟨saturatingAdd 256 current.amount c.reward.amount,
      current.rollingHash ^^^ c.reward.rollingHash⟩)
    c.reward

namespace LedgerExpiryBalanceDelta

/-- Nothing to pay. -/
def empty : LedgerExpiryBalanceDelta where
  rewardBalanceIncrement := ∅
  userPermFeeRefunds := []

/-- Join the settlement of another ledger. -/
def merge (self other : LedgerExpiryBalanceDelta) : LedgerExpiryBalanceDelta where
  rewardBalanceIncrement :=
    (other.rewardBalanceIncrement.toList.map fun e => (⟨e.1, e.2⟩ : Credit)).foldl credit
      self.rewardBalanceIncrement
  userPermFeeRefunds := self.userPermFeeRefunds ++ other.userPermFeeRefunds

end LedgerExpiryBalanceDelta

/-- The miners of a transaction, each once and in address order (a `BTreeSet`). -/
def uniqueMiners (miners : List IrysAddress) : List IrysAddress :=
  miners.dedup.insertionSort (· ≤ ·)

/-- The credits of one transaction's shares, each to its miner's reward address. -/
def shareCredits (epochSnapshot : EpochSnapshot) (tx : PaidTransaction) (miners : List IrysAddress)
    (shares : List ℕ) : List Credit :=
  (miners.zip shares).map fun (miner, fee) =>
    ⟨epochSnapshot.resolveRewardAddress miner, fee, fromLeBytes tx.id⟩

section Loop

variable (config : FeeConfig) (epochSnapshot : EpochSnapshot) (txToMiners : TxToMiners)
  (expectTxsToBePromoted : Bool) (promotedOnBranch : TreeSet IrysTransactionId)

/-- The miners' part of one transaction.  Without a miner the fee stays in the treasury. -/
def rewardMiners (tx : PaidTransaction) (miners : List IrysAddress)
    (rewards : TreeMap IrysAddress Reward) : Res FeeError (TreeMap IrysAddress Reward) :=
  if miners = [] then .ok rewards
  else do
    let feeCharges ← TermFeeCharges.new tx.termFee config
    let feeDistributionPerMiner ← feeCharges.distributionOnExpiry (uniqueMiners miners)
    .ok ((shareCredits epochSnapshot tx (uniqueMiners miners) feeDistributionPerMiner).foldl
      credit rewards)

/-- The signer's part of one transaction. -/
def refundUser (tx : PaidTransaction) (refunds : List Refund) : Res FeeError (List Refund) :=
  if expectTxsToBePromoted && !promotedOnBranch.contains tx.id then do
    let permFee ← orElseFail .missingPermFee tx.permFee
    .ok (refunds ++ [⟨tx.id, permFee.get, tx.signer⟩])
  else .ok refunds

/-- One round of the loop. -/
def settleTx (delta : LedgerExpiryBalanceDelta) (tx : PaidTransaction) :
    Res FeeError LedgerExpiryBalanceDelta := do
  let miners ← orElseFail (.missingMinerList tx.id) txToMiners[tx.id]?
  let rewards ← rewardMiners config epochSnapshot tx miners delta.rewardBalanceIncrement
  let refunds ← refundUser expectTxsToBePromoted promotedOnBranch tx delta.userPermFeeRefunds
  .ok ⟨rewards, refunds⟩

/-- `compare_tx`: transactions in the order of their ids. -/
def idOrder (a b : PaidTransaction) : Prop := a.id ≤ b.id

instance : DecidableRel idOrder := fun a b => inferInstanceAs (Decidable (a.id ≤ b.id))

instance : Std.Total idOrder := ⟨fun a b => le_total a.id b.id⟩

instance : IsTrans PaidTransaction idOrder := ⟨fun _ _ _ hab hbc => Nat.le_trans hab hbc⟩

def aggregateBalanceDeltas (transactions : List PaidTransaction) :
    Res FeeError LedgerExpiryBalanceDelta :=
  (transactions.insertionSort idOrder).foldlM
    (settleTx config epochSnapshot txToMiners expectTxsToBePromoted promotedOnBranch)
    LedgerExpiryBalanceDelta.empty

/-! ### What one transaction pays -/

section

variable (tx : PaidTransaction)

/-- The miners the map lists for a transaction. -/
def minersOf : List IrysAddress := (txToMiners[tx.id]?).getD []

/-- The treasury's part of a transaction's term fee. -/
def termFeeTreasuryOf : ℕ :=
  match TermFeeCharges.new tx.termFee config with
  | .ok charges => charges.termFeeTreasury
  | .error _ => 0

/-- The credits a transaction makes. -/
def creditsOf : List Credit :=
  match TermFeeCharges.new tx.termFee config with
  | .ok charges =>
    if minersOf txToMiners tx = [] then []
    else shareCredits epochSnapshot tx (uniqueMiners (minersOf txToMiners tx))
      (charges.shares (uniqueMiners (minersOf txToMiners tx)).length)
  | .error _ => []

/-- Whether the signer gets the permanent fee back. -/
def refunds : Bool :=
  expectTxsToBePromoted && !promotedOnBranch.contains tx.id

/-- The refund of a transaction that has one. -/
def refundOf : Refund :=
  ⟨tx.id, (tx.permFee.map (·.get)).getD 0, tx.signer⟩

/-- **When the loop gets past a transaction**: it has a miner list, its fee splits if there is a
miner, and a permanent fee is there to be refunded. -/
structure Payable : Prop where
  listed : (txToMiners[tx.id]?).isSome
  splits : minersOf txToMiners tx ≠ [] → ∃ charges, TermFeeCharges.new tx.termFee config = .ok charges
  refundable : refunds expectTxsToBePromoted promotedOnBranch tx = true → tx.permFee.isSome

end

end Loop

/-! ### Miners and shares -/

theorem uniqueMiners_nodup (miners : List IrysAddress) : (uniqueMiners miners).Nodup :=
  (perm_insertionSort _ _).nodup_iff.mpr (nodup_dedup _)

variable {miners : List IrysAddress}

theorem mem_uniqueMiners {miner : IrysAddress} : miner ∈ uniqueMiners miners ↔ miner ∈ miners := by
  rw [uniqueMiners, mem_insertionSort, mem_dedup]

theorem uniqueMiners_ne_nil (h : miners ≠ []) : uniqueMiners miners ≠ [] := by
  obtain ⟨miner, hmem⟩ := exists_mem_of_ne_nil _ h
  exact ne_nil_of_mem (mem_uniqueMiners.mpr hmem)

theorem sum_shareCredits (s : EpochSnapshot) (tx : PaidTransaction) {shares : List ℕ}
    (h : miners.length = shares.length) :
    ((shareCredits s tx miners shares).map fun c => c.reward.amount).sum = shares.sum := by
  have hsnd : (shareCredits s tx miners shares).map (fun c => c.reward.amount) = shares := by
    rw [shareCredits, List.map_map]
    exact map_snd_zip (le_of_eq h.symm)
  rw [hsnd]

section Settle

variable {config : FeeConfig} {s : EpochSnapshot} {txToMiners : TxToMiners} {expect : Bool}
  {promoted : TreeSet IrysTransactionId}

theorem sum_creditsOf (tx : PaidTransaction) :
    ((creditsOf config s txToMiners tx).map fun c => c.reward.amount).sum =
      if minersOf txToMiners tx = [] then 0 else termFeeTreasuryOf config tx := by
  rw [creditsOf, termFeeTreasuryOf]
  cases TermFeeCharges.new tx.termFee config with
  | error e => simp
  | ok charges =>
    by_cases hnil : minersOf txToMiners tx = []
    · simp [hnil]
    · have hpos := length_pos_of_ne_nil (uniqueMiners_ne_nil hnil)
      simp only [if_neg hnil]
      rw [sum_shareCredits _ _ (charges.length_shares hpos).symm, charges.sum_shares hpos]

/-! ### The loop -/

variable {tx : PaidTransaction}

theorem rewardMiners_eq {rewards : TreeMap IrysAddress Reward} :
    (∀ r, rewardMiners config s tx (minersOf txToMiners tx) rewards = .ok r ↔
      (minersOf txToMiners tx ≠ [] → ∃ charges, TermFeeCharges.new tx.termFee config = .ok charges) ∧
        r = (creditsOf config s txToMiners tx).foldl credit rewards) := by
  intro r
  rw [rewardMiners, creditsOf]
  by_cases hnil : minersOf txToMiners tx = []
  · cases TermFeeCharges.new tx.termFee config <;> simp [hnil, eq_comm]
  · cases TermFeeCharges.new tx.termFee config with
    | error e => simp [hnil, bind_eq_ok]
    | ok charges =>
      simp [hnil, charges.distributionOnExpiry_eq_ok (uniqueMiners_ne_nil hnil)
        (uniqueMiners_nodup _), eq_comm]

theorem refundUser_eq {refunded : List Refund} (r : List Refund) :
    refundUser expect promoted tx refunded = .ok r ↔
      (refunds expect promoted tx = true → tx.permFee.isSome) ∧
        r = refunded ++ ([tx].filter (refunds expect promoted)).map refundOf := by
  rw [refundUser, ← refunds]
  cases hrefund : refunds expect promoted tx with
  | false => simp [hrefund, @eq_comm _ r]
  | true => cases hfee : tx.permFee <;> simp [hrefund, hfee, orElseFail, refundOf, @eq_comm _ r]

/-- **One round**, exactly when the transaction is payable. -/
theorem settleTx_eq {delta : LedgerExpiryBalanceDelta} (delta' : LedgerExpiryBalanceDelta) :
    settleTx config s txToMiners expect promoted delta tx = .ok delta' ↔
      Payable config txToMiners expect promoted tx ∧
        delta' = ⟨(creditsOf config s txToMiners tx).foldl credit delta.rewardBalanceIncrement,
          delta.userPermFeeRefunds ++ ([tx].filter (refunds expect promoted)).map refundOf⟩ := by
  simp only [settleTx, bind_eq_ok, orElseFail_eq_ok]
  have hminers : ∀ miners, txToMiners[tx.id]? = some miners → miners = minersOf txToMiners tx := by
    intro miners hlisted
    rw [minersOf, hlisted, Option.getD_some]
  constructor
  · rintro ⟨miners, hlisted, rewards, hrewards, refunded, hrefunded, h⟩
    cases h
    obtain ⟨hsplits, rfl⟩ := (rewardMiners_eq rewards).mp (hminers _ hlisted ▸ hrewards)
    obtain ⟨hrefundable, rfl⟩ := (refundUser_eq refunded).mp hrefunded
    exact ⟨⟨by rw [hlisted]; rfl, hsplits, hrefundable⟩, rfl⟩
  · rintro ⟨hpay, rfl⟩
    obtain ⟨miners, hlisted⟩ := Option.isSome_iff_exists.mp hpay.listed
    obtain rfl := hminers _ hlisted
    exact ⟨_, hlisted, _, (rewardMiners_eq _).mpr ⟨hpay.splits, rfl⟩, _,
      (refundUser_eq _).mpr ⟨hpay.refundable, rfl⟩, rfl⟩

/-- **The whole loop**: it succeeds exactly when every transaction is payable, and then it has
made every credit and every refund in turn. -/
theorem foldlM_settleTx (txs : List PaidTransaction) (delta delta' : LedgerExpiryBalanceDelta) :
    txs.foldlM (settleTx config s txToMiners expect promoted) delta = .ok delta' ↔
      (∀ tx ∈ txs, Payable config txToMiners expect promoted tx) ∧
        delta' = ⟨(txs.flatMap (creditsOf config s txToMiners)).foldl credit
            delta.rewardBalanceIncrement,
          delta.userPermFeeRefunds ++ (txs.filter (refunds expect promoted)).map refundOf⟩ := by
  induction txs generalizing delta with
  | nil => simp [pure, Except.pure, eq_comm]
  | cons tx txs ih =>
    have happend : ([tx].filter (refunds expect promoted)).map refundOf ++
        (txs.filter (refunds expect promoted)).map refundOf =
        ((tx :: txs).filter (refunds expect promoted)).map refundOf := by
      rw [← map_append, ← filter_append, singleton_append]
    simp only [foldlM_cons, bind_eq_ok, settleTx_eq, ih, and_assoc, exists_and_left,
      exists_eq_left, forall_mem_cons, flatMap_cons, foldl_append, append_assoc, happend]

/-! ### Totals -/

theorem foldl_credit (credits : List Credit) (rewards : TreeMap IrysAddress Reward)
    (hroom : ∀ address, amountAt Reward.amount rewards address +
      addedAt Credit.address (fun c => c.reward.amount) credits address < 2 ^ 256) :
    total Reward.amount (credits.foldl credit rewards) =
        total Reward.amount rewards + (credits.map fun c => c.reward.amount).sum ∧
      ∀ address, amountAt Reward.amount (credits.foldl credit rewards) address =
        amountAt Reward.amount rewards address +
          addedAt Credit.address (fun c => c.reward.amount) credits address := by
  refine foldl_upsert (2 ^ 256) ?_ (fun c => rfl) credits rewards hroom
  intro c current hlt
  exact min_eq_left (by omega)

theorem sum_flatMap_creditsOf (txs : List PaidTransaction) :
    ((txs.flatMap (creditsOf config s txToMiners)).map fun c => c.reward.amount).sum =
      ((txs.filter fun tx => minersOf txToMiners tx ≠ []).map (termFeeTreasuryOf config)).sum := by
  induction txs with
  | nil => rfl
  | cons tx txs ih =>
    rw [flatMap_cons, map_append, sum_append, sum_creditsOf, ih]
    by_cases hnil : minersOf txToMiners tx = []
    · simp [hnil]
    · simp [hnil]

end Settle

theorem merge_spec (a b : LedgerExpiryBalanceDelta)
    (hroom : ∀ address, amountAt Reward.amount a.rewardBalanceIncrement address +
      amountAt Reward.amount b.rewardBalanceIncrement address < 2 ^ 256) :
    total Reward.amount (a.merge b).rewardBalanceIncrement =
        total Reward.amount a.rewardBalanceIncrement +
          total Reward.amount b.rewardBalanceIncrement ∧
      ∀ address, amountAt Reward.amount (a.merge b).rewardBalanceIncrement address =
        amountAt Reward.amount a.rewardBalanceIncrement address +
          amountAt Reward.amount b.rewardBalanceIncrement address := by
  have hadded : ∀ address, addedAt Credit.address (fun c => c.reward.amount)
      (b.rewardBalanceIncrement.toList.map fun e => (⟨e.1, e.2⟩ : Credit)) address =
      amountAt Reward.amount b.rewardBalanceIncrement address := by
    intro address
    rw [← addedAt_toList, addedAt, addedAt, List.filter_map, List.map_map]
    rfl
  obtain ⟨htotal, hat⟩ := foldl_credit
    (b.rewardBalanceIncrement.toList.map fun e => (⟨e.1, e.2⟩ : Credit))
    a.rewardBalanceIncrement (fun address => by rw [hadded]; exact hroom address)
  refine ⟨?_, ?_⟩
  · rw [LedgerExpiryBalanceDelta.merge, htotal, List.map_map]
    rfl
  · intro address
    rw [LedgerExpiryBalanceDelta.merge, hat, hadded]

/-- The sum of a number read off each delta. -/
def sumOver (deltas : List LedgerExpiryBalanceDelta) (f : TreeMap IrysAddress Reward → ℕ) : ℕ :=
  (deltas.map fun d => f d.rewardBalanceIncrement).sum

/-- **Merging any number of ledgers** adds the totals and joins the refunds. -/
theorem foldl_merge (deltas : List LedgerExpiryBalanceDelta) (a : LedgerExpiryBalanceDelta)
    (hroom : ∀ address, amountAt Reward.amount a.rewardBalanceIncrement address +
      sumOver deltas (amountAt Reward.amount · address) < 2 ^ 256) :
    total Reward.amount (deltas.foldl LedgerExpiryBalanceDelta.merge a).rewardBalanceIncrement =
        total Reward.amount a.rewardBalanceIncrement + sumOver deltas (total Reward.amount) ∧
      (deltas.foldl LedgerExpiryBalanceDelta.merge a).userPermFeeRefunds =
        a.userPermFeeRefunds ++ deltas.flatMap (·.userPermFeeRefunds) := by
  induction deltas generalizing a with
  | nil => simp [sumOver]
  | cons d deltas ih =>
    have hcons : ∀ f, sumOver (d :: deltas) f =
        f d.rewardBalanceIncrement + sumOver deltas f := fun f => rfl
    obtain ⟨htotal, hat⟩ := merge_spec a d (fun address => by
      have := hroom address
      rw [hcons] at this
      omega)
    obtain ⟨htotal', hrefunds⟩ := ih (a.merge d) (fun address => by
      have := hroom address
      rw [hcons] at this
      rw [hat]
      omega)
    rw [foldl_cons]
    refine ⟨?_, ?_⟩
    · rw [htotal', htotal, hcons, Nat.add_assoc]
    · rw [hrefunds, LedgerExpiryBalanceDelta.merge, flatMap_cons, append_assoc]

/-- **Settlement conserves fees.**  As long as no reward address's word saturates:

* the loop returns exactly when every transaction is payable, and what it returns adds up to the
  treasury's part of the term fees of the transactions that have a miner;
* the refunds are the permanent fees of the transactions that were not promoted, each once, in the
  order of the ids;
* the checks inside the two splits hold; among the distinct miners of a transaction all but the
  first get one share, and the first gets less than the number of miners on top of it;
* merging the deltas of several ledgers adds their totals and joins their refunds. -/
theorem settlement_conserves_fees (config : FeeConfig) (s : EpochSnapshot)
    (txToMiners : TxToMiners) (expect : Bool) (promoted : TreeSet IrysTransactionId)
    (txs : List PaidTransaction)
    (hroom : ∀ address, addedAt Credit.address (fun c => c.reward.amount)
      (txs.flatMap (creditsOf config s txToMiners)) address < 2 ^ 256) :
    ((∃ delta, aggregateBalanceDeltas config s txToMiners expect promoted txs = .ok delta) ↔
      ∀ tx ∈ txs, Payable config txToMiners expect promoted tx) ∧
    (∀ delta, aggregateBalanceDeltas config s txToMiners expect promoted txs = .ok delta →
      total Reward.amount delta.rewardBalanceIncrement =
          ((txs.filter fun tx => minersOf txToMiners tx ≠ []).map
            (termFeeTreasuryOf config)).sum ∧
        delta.userPermFeeRefunds.Perm
          ((txs.filter (refunds expect promoted)).map refundOf) ∧
        delta.userPermFeeRefunds.Pairwise fun a b => a.txid ≤ b.txid) ∧
    (∀ tx reward treasury fee, TermFeeCharges.new (PaidTransaction.termFee tx) config ≠
      fail (.chargesMismatch reward treasury fee)) ∧
    (∀ (charges : TermFeeCharges) (miners : List IrysAddress), miners ≠ [] →
      ∃ first share, charges.distributionOnExpiry (uniqueMiners miners) =
          .ok (first :: List.replicate ((uniqueMiners miners).length - 1) share) ∧
        share ≤ first ∧ first < share + (uniqueMiners miners).length ∧
        first + ((uniqueMiners miners).length - 1) * share = charges.termFeeTreasury) ∧
    (∀ (a : LedgerExpiryBalanceDelta) (deltas : List LedgerExpiryBalanceDelta),
      (∀ address, amountAt Reward.amount a.rewardBalanceIncrement address +
        sumOver deltas (amountAt Reward.amount · address) < 2 ^ 256) →
      total Reward.amount (deltas.foldl LedgerExpiryBalanceDelta.merge a).rewardBalanceIncrement =
          total Reward.amount a.rewardBalanceIncrement + sumOver deltas (total Reward.amount) ∧
        (deltas.foldl LedgerExpiryBalanceDelta.merge a).userPermFeeRefunds =
          a.userPermFeeRefunds ++ deltas.flatMap (·.userPermFeeRefunds)) := by
  have hperm : (txs.insertionSort idOrder).Perm txs := perm_insertionSort _ _
  have hsorted : (txs.insertionSort idOrder).Pairwise idOrder := pairwise_insertionSort _ _
  refine ⟨?_, ?_, ?_, ?_, ?_⟩
  · constructor
    · rintro ⟨delta, h⟩ tx hmem
      exact ((foldlM_settleTx _ _ _).mp h).1 tx (hperm.mem_iff.mpr hmem)
    · intro hall
      exact ⟨_, (foldlM_settleTx _ _ _).mpr ⟨fun tx hmem => hall tx (hperm.mem_iff.mp hmem), rfl⟩⟩
  · intro delta h
    obtain ⟨-, rfl⟩ := (foldlM_settleTx _ _ _).mp h
    have hcredits := hperm.flatMap_right (creditsOf config s txToMiners)
    obtain ⟨htotal, -⟩ := foldl_credit
      ((txs.insertionSort idOrder).flatMap (creditsOf config s txToMiners)) ∅ (fun address => by
        rw [amountAt_empty, Nat.zero_add, addedAt_perm _ _ hcredits]
        exact hroom address)
    refine ⟨?_, ?_, ?_⟩
    · show total Reward.amount (((txs.insertionSort idOrder).flatMap
        (creditsOf config s txToMiners)).foldl credit ∅) = _
      rw [htotal, total_empty, Nat.zero_add, (hcredits.map _).sum_eq, sum_flatMap_creditsOf]
    · exact (hperm.filter _).map _
    · show (((txs.insertionSort idOrder).filter (refunds expect promoted)).map refundOf).Pairwise _
      rw [pairwise_map]
      exact (hsorted.filter _)
  · intro tx reward treasury fee h
    exact TermFeeCharges.new_ne_chargesMismatch h
  · intro charges miners hne
    have hpos := length_pos_of_ne_nil (uniqueMiners_ne_nil hne)
    have hsum := charges.sum_shares hpos
    have hmod := Nat.mod_lt charges.termFeeTreasury hpos
    refine ⟨charges.termFeeTreasury / (uniqueMiners miners).length +
      charges.termFeeTreasury % (uniqueMiners miners).length,
      charges.termFeeTreasury / (uniqueMiners miners).length, ?_, Nat.le_add_right _ _, ?_, ?_⟩
    · rw [charges.distributionOnExpiry_eq_ok (uniqueMiners_ne_nil hne) (uniqueMiners_nodup _),
        charges.shares_eq hpos]
    · omega
    · rw [charges.shares_eq hpos, sum_cons, sum_replicate, smul_eq_mul] at hsum
      exact hsum
  · intro a deltas hroom'
    exact foldl_merge deltas a hroom'

/-- Two transactions: one stored by three miners and never promoted, one whose miners have left. -/
def twoTransactions : List PaidTransaction :=
  [⟨⟨9, 100⟩, 5, ⟨1003, by decide⟩, some ⟨500, by decide⟩⟩, ⟨⟨4, 50⟩, 6, ⟨77, by decide⟩, none⟩]

/-- The miners of the two transactions; one of them is listed twice. -/
def twoMinerLists : TxToMiners := (∅ : TxToMiners) |>.insert 9 [30, 10, 30, 20] |>.insert 4 []

theorem settlement_conserves_fees_two_transactions :
    (∀ tx ∈ twoTransactions, Payable ⟨50000000000⟩ twoMinerLists true (.ofList [4]) tx) ∧
      ∃ delta, aggregateBalanceDeltas ⟨50000000000⟩
          (EpochSnapshot.empty (sampleHeader 0 0 []) sampleConfig) twoMinerLists true
          (.ofList [4]) twoTransactions = .ok delta ∧
        total Reward.amount delta.rewardBalanceIncrement = 953 := by
  have hpay : ∀ tx ∈ twoTransactions,
      Payable ⟨50000000000⟩ twoMinerLists true (.ofList [4]) tx := by
    refine forall_mem_cons.mpr ⟨?_, forall_mem_singleton.mpr ?_⟩
    · exact ⟨by decide +kernel, fun _ => TermFeeCharges.new_isOk (by decide) (by decide),
        fun _ => rfl⟩
    · exact ⟨by decide +kernel, fun _ => TermFeeCharges.new_isOk (by decide) (by decide),
        by decide +kernel⟩
  obtain ⟨hreturns, htotals, -⟩ := settlement_conserves_fees ⟨50000000000⟩
    (EpochSnapshot.empty (sampleHeader 0 0 []) sampleConfig) twoMinerLists true (.ofList [4])
    twoTransactions fun _ => lt_of_le_of_lt (addedAt_le_sum _ _ _ _) (by decide +kernel)
  obtain ⟨delta, hdelta⟩ := hreturns.mpr hpay
  refine ⟨hpay, delta, hdelta, ?_⟩
  rw [(htotals delta hdelta).1]
  decide +kernel

end Irys
