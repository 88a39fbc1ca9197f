import Irys.Epoch.Lockstep
import Irys.Signing.Header

/-!
# Canonical headers

The validator requires a canonical form of the optional header fields, so that no two headers
share a signature.  It pins the ledger id of a PoA with a path and the expiry of the ledgers that
are active.  It does not look at the VDF difficulties: a header with a next difficulty and no
current one has the same preimage as the header with current difficulty `0`.

* `blockHeaderFieldsAreCanonical`, `validateTermLedgerExpiry`, `ingressProofCountsAreValid` — the
  checks;
* `Unambiguous` — no optional field of the header is blank where the preimage cannot tell;
* `preimage_binds_iff` — a header that passes is the only one with its preimage exactly if it is
  unambiguous;
* `vdf_difficulty_is_malleable` — two headers that pass, with one preimage.
-/

namespace Irys.Signing

open List

/-! ### The checks -/

/-- Why a header is refused. -/
inductive PreValidationError where
  | poaLedgerIdMissing
  | termLedgerExpiryMismatch (ledgerId : UInt32) (expected actual : Option ℕ)
  | ledgerIdInvalid (ledgerId : UInt32)
  | invalidDataLedgersLength (expected got : ℕ)
  | publishLedgerProofCountMismatch (proofCount txCount : ℕ)
  | ingressProofCountMismatch (expected actual : ℕ)
  deriving DecidableEq

def dataLedgerFromU32 (value : UInt32) : Option DataLedger :=
  if value = 0 then some .publish
  else if value = 1 then some .submit
  else if value = 10 then some .oneYear
  else if value = 20 then some .thirtyDay
  else none

/-- The Publish ledger has no expiry. -/
def publishExpiryIsCanonical (dl : DataTransactionLedger) : Except PreValidationError Unit :=
  if dl.ledgerId = 0 ∧ dl.expires.isSome then
    throw (.termLedgerExpiryMismatch dl.ledgerId none (dl.expires.map UInt64.toNat))
  else pure ()

def blockHeaderFieldsAreCanonical (block : IrysBlockHeaderV1) : Except PreValidationError Unit := do
  if (block.poa.txPath.isSome || block.poa.dataPath.isSome) && block.poa.ledgerId.isNone then
    throw .poaLedgerIdMissing
  block.dataLedgers.forM publishExpiryIsCanonical

/-- Compare a ledger's expiry with what it has to be. -/
def expiresIs (dl : DataTransactionLedger) (expected : Option ℕ) :
    Except PreValidationError Unit :=
  if dl.expires.map UInt64.toNat = expected then pure ()
  else throw (.termLedgerExpiryMismatch dl.ledgerId expected (dl.expires.map UInt64.toNat))

section

variable (consensus : ConsensusConfig) (cascadeForEpoch : Bool) (dl : DataTransactionLedger)

/-- The Cascade ledgers are skipped while Cascade is not active in the epoch. -/
def cascadeExpiryIs (length : Cascade → ℕ) : Except PreValidationError Unit :=
  if cascadeForEpoch = false then pure ()
  else
    match consensus.hardforks.cascade with
    | none => throw (.termLedgerExpiryMismatch dl.ledgerId none (dl.expires.map UInt64.toNat))
    | some cascade => expiresIs dl (some (length cascade))

/-- The body of the loop of `validate_term_ledger_expiry`. -/
def termLedgerExpiryIsValid : Except PreValidationError Unit :=
  match dataLedgerFromU32 dl.ledgerId with
  | none => throw (.ledgerIdInvalid dl.ledgerId)
  | some .publish => expiresIs dl none
  | some .submit => expiresIs dl (some consensus.epoch.submitLedgerEpochLength)
  | some .oneYear => cascadeExpiryIs consensus cascadeForEpoch dl Cascade.oneYearEpochLength
  | some .thirtyDay => cascadeExpiryIs consensus cascadeForEpoch dl Cascade.thirtyDayEpochLength

end

def validateTermLedgerExpiry (block : IrysBlockHeaderV1) (consensus : ConsensusConfig)
    (cascadeForEpoch : Bool) : Except PreValidationError Unit :=
  block.dataLedgers.forM (termLedgerExpiryIsValid consensus cascadeForEpoch)

def publishIngressProofCountIsValid (publishLedger : DataTransactionLedger) (publishTxCount : ℕ)
    (numberOfIngressProofsTotal : UInt8) : Except PreValidationError Unit :=
  match publishLedger.proofs with
  | none => pure ()
  | some proofs =>
    let n := numberOfIngressProofsTotal.toNat
    let mismatch := .publishLedgerProofCountMismatch proofs.length publishTxCount
    match checkedMul 64 publishTxCount n with
    | none => throw mismatch
    | some expected =>
      if proofs.length ≠ expected then throw mismatch
      else
        let requiredProofCount := (publishLedger.requiredProofCount.map UInt8.toNat).getD 0
        if requiredProofCount ≠ n then throw (.ingressProofCountMismatch n requiredProofCount)
        else pure ()

/-- The proof count check of `prevalidate_block`: the Publish ledger has to be there, and the body
pairs its transaction ids with transactions. -/
def ingressProofCountsAreValid (block : IrysBlockHeaderV1)
    (numberOfIngressProofsTotalAt : ℕ → UInt8) : Except PreValidationError Unit :=
  match block.dataLedgers.find? (·.ledgerId = 0) with
  | none => throw (.invalidDataLedgersLength 0 block.dataLedgers.length)
  | some publishLedger =>
    publishIngressProofCountIsValid publishLedger publishLedger.txIds.length
      (numberOfIngressProofsTotalAt (block.timestamp.toNat / 1000))

/-- **A header that passes the three checks.** -/
structure Passes (consensus : ConsensusConfig) (cascadeForEpoch : Bool)
    (numberOfIngressProofsTotalAt : ℕ → UInt8) (block : IrysBlockHeaderV1) : Prop where
  canonical : blockHeaderFieldsAreCanonical block = .ok ()
  expiry : validateTermLedgerExpiry block consensus cascadeForEpoch = .ok ()
  proofs : ingressProofCountsAreValid block numberOfIngressProofsTotalAt = .ok ()

/-! ### What the checks give -/

theorem forM_eq_ok {ε α : Type} {f : α → Except ε Unit} {l : List α} :
    l.forM f = .ok () ↔ ∀ x ∈ l, f x = .ok () := by
  induction l with
  | nil => exact ⟨fun _ _ hx => absurd hx (not_mem_nil), fun _ => rfl⟩
  | cons x l ih =>
    show (f x >>= fun _ => l.forM f) = _ ↔ _
    rw [forall_mem_cons, ← ih]
    cases hx : f x with
    | error e => simp [bind, Except.bind]
    | ok u => simp [bind, Except.bind]

theorem canonical_iff {block : IrysBlockHeaderV1} :
    blockHeaderFieldsAreCanonical block = .ok () ↔
      (block.poa.txPath.isSome || block.poa.dataPath.isSome → block.poa.ledgerId.isSome) ∧
        ∀ dl ∈ block.dataLedgers, publishExpiryIsCanonical dl = .ok () := by
  rw [← forM_eq_ok, blockHeaderFieldsAreCanonical]
  by_cases hpath : (block.poa.txPath.isSome || block.poa.dataPath.isSome) = true
  · cases hid : block.poa.ledgerId with
    | none => simp [hpath, throw, throwThe, MonadExceptOf.throw, bind, Except.bind]
    | some id => simp [hpath]
  · simp [hpath]

/-- The ledgers that the expiry check skips. -/
def UncheckedExpiry (cascadeForEpoch : Bool) (dl : DataTransactionLedger) : Prop :=
  cascadeForEpoch = false ∧ (dataLedgerFromU32 dl.ledgerId = some .oneYear ∨
    dataLedgerFromU32 dl.ledgerId = some .thirtyDay)

theorem expiresIs_eq_ok {dl : DataTransactionLedger} {expected : Option ℕ} :
    expiresIs dl expected = .ok () ↔ dl.expires.map UInt64.toNat = expected := by
  rw [expiresIs]
  split
  · rename_i heq
    exact ⟨fun _ => heq, fun _ => rfl⟩
  · rename_i hne
    constructor
    · intro h
      cases h
    · intro h
      exact absurd h hne

/-- **The expiry of a checked ledger is a function of its id.** -/
theorem expires_eq_of_valid {consensus : ConsensusConfig} {cascadeForEpoch : Bool}
    {a b : DataTransactionLedger} (hid : a.ledgerId = b.ledgerId)
    (ha : termLedgerExpiryIsValid consensus cascadeForEpoch a = .ok ())
    (hb : termLedgerExpiryIsValid consensus cascadeForEpoch b = .ok ()) :
    UncheckedExpiry cascadeForEpoch a ∨ a.expires = b.expires := by
  have hsame : ∀ {expected : Option ℕ}, expiresIs a expected = .ok () →
      expiresIs b expected = .ok () → a.expires = b.expires := by
    intro expected hea heb
    rw [expiresIs_eq_ok] at hea heb
    exact Option.map_injective (fun _ _ => UInt64.toNat_inj.mp) (hea.trans heb.symm)
  have hcascade : ∀ {length : Cascade → ℕ},
      cascadeExpiryIs consensus cascadeForEpoch a length = .ok () →
        cascadeExpiryIs consensus cascadeForEpoch b length = .ok () →
          cascadeForEpoch = false ∨ a.expires = b.expires := by
    intro length hea heb
    rw [cascadeExpiryIs] at hea heb
    by_cases hoff : cascadeForEpoch = false
    · exact .inl hoff
    · rw [if_neg hoff] at hea heb
      cases hconfig : consensus.hardforks.cascade with
      | none =>
        rw [hconfig] at hea
        cases hea
      | some cascade =>
        rw [hconfig] at hea heb
        exact .inr (hsame hea heb)
  rw [termLedgerExpiryIsValid] at ha hb
  rw [← hid] at hb
  cases hledger : dataLedgerFromU32 a.ledgerId with
  | none =>
    rw [hledger] at ha
    cases ha
  | some ledger =>
    rw [hledger] at ha hb
    cases ledger with
    | publish => exact .inr (hsame ha hb)
    | submit => exact .inr (hsame ha hb)
    | oneYear => exact (hcascade ha hb).imp_left fun hoff => ⟨hoff, .inl hledger⟩
    | thirtyDay => exact (hcascade ha hb).imp_left fun hoff => ⟨hoff, .inr hledger⟩

/-! ### Ambiguity -/

/-- **No optional field of the header is blank where the preimage cannot tell**: the VDF
difficulty before a next difficulty, and the expiry of an unchecked ledger before its proofs. -/
structure Unambiguous (cascadeForEpoch : Bool) (block : IrysBlockHeaderV1) : Prop where
  vdf : Blank block.vdfLimiterInfo.vdfDifficulty → block.vdfLimiterInfo.nextVdfDifficulty = none
  ledgers : ∀ dl ∈ block.dataLedgers, UncheckedExpiry cascadeForEpoch dl → Blank dl.expires →
    dl.proofs = none ∧ dl.requiredProofCount = none

/-- The other blank value. -/
def otherBlank (x : Option UInt64) : Option UInt64 := if x = none then some 0 else none

theorem blank_otherBlank (x : Option UInt64) : Blank (otherBlank x) := by
  rw [otherBlank]
  split
  · exact .inr rfl
  · exact .inl rfl

theorem otherBlank_ne {x : Option UInt64} : otherBlank x ≠ x := by
  rw [otherBlank]
  split
  · rename_i hnone
    rw [hnone]
    decide
  · rename_i hne
    exact fun h => hne h.symm

variable {ε : Type} {consensus : ConsensusConfig} {cascadeForEpoch : Bool}
  {numberOfIngressProofsTotalAt : ℕ → UInt8} {a b block : IrysBlockHeaderV1} {bytes : List UInt8}

/-- **The preimage binds an unambiguous header.** -/
theorem covered_eq_of_unambiguous
    (ha : Passes consensus cascadeForEpoch numberOfIngressProofsTotalAt a)
    (hb : Passes consensus cascadeForEpoch numberOfIngressProofsTotalAt b)
    (hun : Unambiguous cascadeForEpoch a) (h : a.toRlp = b.toRlp) : a.covered = b.covered := by
  obtain ⟨hpoaA, -⟩ := canonical_iff.mp ha.canonical
  obtain ⟨hpoaB, -⟩ := canonical_iff.mp hb.canonical
  apply IrysBlockHeaderV1.covered_eq h (PoaData.toRlp_inj hpoaA hpoaB)
  · -- the expiry is known from the id, or from the preimage
    apply map_eq_of_map_eq
    intro dl hdl dl' hdl' heq
    obtain ⟨hrest, hexpires⟩ := DataTransactionLedger.toRlp_inj heq
    have hid : dl.ledgerId = dl'.ledgerId := by
      have hcov := congrArg DataTransactionLedger.ledgerId hrest
      exact hcov
    have hknown : dl.expires = dl'.expires := by
      rcases hexpires with hsame | ⟨hblank, -, hlater⟩
      · exact hsame
      · rcases expires_eq_of_valid hid (forM_eq_ok.mp ha.expiry dl hdl)
          (forM_eq_ok.mp hb.expiry dl' hdl') with hunchecked | hsame
        · obtain ⟨hproofs, hcount⟩ := hun.ledgers dl hdl hunchecked hblank
          rw [hproofs, hcount] at hlater
          cases hlater
        · exact hsame
    rw [← hrest, ← hknown]
    rfl
  · intro heq
    obtain ⟨hrest, hdiff⟩ := VDFLimiterInfo.toRlp_inj heq
    rcases hdiff with hsame | ⟨hblank, -, hlater⟩
    · rw [← hrest, ← hsame]
    · rw [hun.vdf hblank] at hlater
      cases hlater

/-- A header with the other blank VDF difficulty. -/
def swapDifficulty (block : IrysBlockHeaderV1) : IrysBlockHeaderV1 :=
  { block with
    vdfLimiterInfo :=
      { block.vdfLimiterInfo with
        vdfDifficulty := otherBlank block.vdfLimiterInfo.vdfDifficulty } }

/-- **A blank difficulty can be swapped** before a next difficulty. -/
theorem toRlp_swapDifficulty (hblank : Blank block.vdfLimiterInfo.vdfDifficulty)
    (hnext : block.vdfLimiterInfo.nextVdfDifficulty ≠ none) :
    (swapDifficulty block).toRlp = block.toRlp := by
  have hne : Rlp.trailing [block.vdfLimiterInfo.nextVdfDifficulty.map u64] ≠ [] := by
    intro hnil
    have hnone := Rlp.trailing_eq_nil_iff.mp hnil _ (mem_cons_self ..)
    exact hnext (Option.map_eq_none_iff.mp hnone)
  have htail := trailing_blank (blank_otherBlank block.vdfLimiterInfo.vdfDifficulty) hblank hne
  have hvdf : (swapDifficulty block).vdfLimiterInfo.toRlp = block.vdfLimiterInfo.toRlp :=
    congrArg (fun items => Rlp.list (_ ++ items)) htail
  rw [IrysBlockHeaderV1.toRlp, hvdf]
  rfl

theorem covered_swapDifficulty : (swapDifficulty block).covered ≠ block.covered := by
  intro h
  exact otherBlank_ne (congrArg (fun b => b.vdfLimiterInfo.vdfDifficulty) h)

/-- A ledger with the other blank expiry. -/
def swapExpiry (dl : DataTransactionLedger) : DataTransactionLedger :=
  { dl with expires := otherBlank dl.expires }

/-- **A blank expiry can be swapped** before proofs or a proof count. -/
theorem toRlp_swapExpiry {dl : DataTransactionLedger} (hblank : Blank dl.expires)
    (hlater : ¬ (dl.proofs = none ∧ dl.requiredProofCount = none)) :
    (swapExpiry dl).toRlp = dl.toRlp := by
  refine congrArg (fun items => Rlp.list (_ ++ items))
    (trailing_blank (blank_otherBlank dl.expires) hblank ?_)
  · intro hnil
    have hnone := Rlp.trailing_eq_nil_iff.mp hnil
    apply hlater
    constructor
    · exact Option.map_eq_none_iff.mp (hnone _ (mem_cons_self ..))
    · exact Option.map_eq_none_iff.mp (hnone _ (mem_cons_of_mem _ (mem_cons_self ..)))

/-- **A swapped expiry passes** where the ledger is unchecked. -/
theorem Passes.swapExpiry {before after : List DataTransactionLedger} {dl : DataTransactionLedger}
    (hpass : Passes consensus cascadeForEpoch numberOfIngressProofsTotalAt block)
    (hsplit : block.dataLedgers = before ++ dl :: after)
    (hunchecked : UncheckedExpiry cascadeForEpoch dl) :
    Passes consensus cascadeForEpoch numberOfIngressProofsTotalAt
      { block with dataLedgers := before ++ swapExpiry dl :: after } := by
  have hpublish : dl.ledgerId ≠ 0 := by
    intro hzero
    rcases hunchecked.2 with hledger | hledger <;>
      (rw [hzero] at hledger; simp [dataLedgerFromU32] at hledger)
  have hmember : ∀ {x : DataTransactionLedger}, x ∈ before ++ Signing.swapExpiry dl :: after →
      x ∈ block.dataLedgers ∨ x = Signing.swapExpiry dl := by
    intro x hx
    rw [hsplit]
    rcases mem_append.mp hx with hx | hx
    · exact .inl (mem_append_left _ hx)
    · rcases mem_cons.mp hx with hx | hx
      · exact .inr hx
      · exact .inl (mem_append_right _ (mem_cons_of_mem _ hx))
  refine ⟨?_, ?_, ?_⟩
  · obtain ⟨hpoa, hledgers⟩ := canonical_iff.mp hpass.canonical
    refine canonical_iff.mpr ⟨hpoa, ?_⟩
    intro x hx
    rcases hmember hx with hx | rfl
    · exact hledgers x hx
    · exact if_neg fun h => hpublish h.1
  · rw [validateTermLedgerExpiry, forM_eq_ok]
    intro x hx
    rcases hmember hx with hx | rfl
    · exact forM_eq_ok.mp hpass.expiry x hx
    · show termLedgerExpiryIsValid _ _ (Signing.swapExpiry dl) = _
      rw [termLedgerExpiryIsValid]
      show (match dataLedgerFromU32 dl.ledgerId with
        | none => _ | some .publish => _ | some .submit => _ | some .oneYear => _
        | some .thirtyDay => _) = _
      obtain ⟨hoff, hledger | hledger⟩ := hunchecked
      · rw [hledger]
        exact if_pos hoff
      · rw [hledger]
        exact if_pos hoff
  · have hfind : (before ++ Signing.swapExpiry dl :: after).find? (·.ledgerId = 0) =
        block.dataLedgers.find? (·.ledgerId = 0) := by
      rw [hsplit, find?_append, find?_append, find?_cons_of_neg, find?_cons_of_neg]
      · rw [decide_eq_true_eq]
        exact hpublish
      · rw [decide_eq_true_eq]
        exact hpublish
    have hproofs := hpass.proofs
    rw [ingressProofCountsAreValid] at hproofs ⊢
    rw [hfind]
    cases hpub : block.dataLedgers.find? (·.ledgerId = 0) with
    | none =>
      rw [hpub] at hproofs
      cases hproofs
    | some publishLedger =>
      rw [hpub] at hproofs
      exact hproofs

/-! ### The result -/

theorem encodeForSigning_congr (h : a.toRlp = b.toRlp) :
    (a.encodeForSigning : Res ε _) = b.encodeForSigning := by
  rw [IrysBlockHeaderV1.encodeForSigning, IrysBlockHeaderV1.encodeForSigning, h]

/-- **When headers are not malleable.**  A header that passes the checks is the only one with its
signing preimage, in every covered field, exactly if it is unambiguous. -/
theorem preimage_binds_iff
    (hpass : Passes consensus cascadeForEpoch numberOfIngressProofsTotalAt block)
    (hbytes : (block.encodeForSigning : Res ε _) = .ok bytes) :
    (∀ other, Passes consensus cascadeForEpoch numberOfIngressProofsTotalAt other →
        (other.encodeForSigning : Res ε _) = .ok bytes → other.covered = block.covered) ↔
      Unambiguous cascadeForEpoch block := by
  constructor
  · intro hbinds
    constructor
    · intro hblank
      by_contra hnext
      have hsame := toRlp_swapDifficulty hblank hnext
      exact covered_swapDifficulty (hbinds (swapDifficulty block)
        ⟨hpass.canonical, hpass.expiry, hpass.proofs⟩
        ((encodeForSigning_congr hsame).trans hbytes))
    · intro dl hdl hunchecked hblank
      by_contra hlater
      obtain ⟨before, after, hsplit⟩ := append_of_mem hdl
      have hsame : ({ block with dataLedgers := before ++ swapExpiry dl :: after } :
          IrysBlockHeaderV1).toRlp = block.toRlp := by
        rw [IrysBlockHeaderV1.toRlp, IrysBlockHeaderV1.toRlp, hsplit, map_append,
          map_append, map_cons, map_cons, toRlp_swapExpiry hblank hlater]
      have hcovered := hbinds _ (hpass.swapExpiry hsplit hunchecked)
        ((encodeForSigning_congr hsame).trans hbytes)
      have hledgers := congrArg IrysBlockHeaderV1.dataLedgers hcovered
      rw [IrysBlockHeaderV1.covered, IrysBlockHeaderV1.covered] at hledgers
      dsimp only at hledgers
      rw [hsplit, map_append, map_append, append_cancel_left_eq, map_cons,
        map_cons, List.cons.injEq] at hledgers
      exact otherBlank_ne (congrArg DataTransactionLedger.expires hledgers.1)
  · intro hun other hother hsame
    exact (covered_eq_of_unambiguous hpass hother hun
      (toRlp_eq_of_encodeForSigning hbytes hsame)).symm

/-! ### Two headers with one preimage -/

/-- A header with the given VDF difficulties, zero elsewhere, with the Publish and the Submit
ledger. -/
def sampleSigned (vdfDifficulty nextVdfDifficulty : Option UInt64) : IrysBlockHeaderV1 :=
  let zero : H256 := Vector.replicate 32 0
  { blockHash := zero
    signature := Vector.replicate 65 0
    height := 1
    diff := 0
    cumulativeDiff := 0
    solutionHash := zero
    lastDiffTimestamp := 0
    previousSolutionHash := zero
    lastEpochHash := zero
    chunkHash := zero
    previousBlockHash := zero
    previousCumulativeDiff := 0
    poa := ⟨0, zero, some ⟨[7]⟩, none, none, none⟩
    rewardAddress := Vector.replicate 20 0
    rewardAmount := 0
    minerAddress := Vector.replicate 20 0
    timestamp := 0
    systemLedgers := []
    dataLedgers := [⟨0, zero, [], 0, none, none, none⟩, ⟨1, zero, [], 0, some 1, none, none⟩]
    evmBlockHash := zero
    vdfLimiterInfo := ⟨zero, 1, zero, zero, zero, [zero], [zero], vdfDifficulty, nextVdfDifficulty⟩
    oracleIrysPrice := 0
    emaIrysPrice := 0
    treasury := 0 }

theorem sampleSigned_passes (vdfDifficulty nextVdfDifficulty : Option UInt64) :
    Passes sampleConfig.toConsensusConfig true (fun _ => 10)
      (sampleSigned vdfDifficulty nextVdfDifficulty) :=
  ⟨rfl, rfl, rfl⟩

theorem sampleSigned_fits : (sampleSigned none (some 1)).toRlp.encode.length < 2 ^ 64 ∧
    (sampleSigned none none).toRlp.encode.length < 2 ^ 64 := by
  decide +kernel

/-- The header without VDF difficulties is unambiguous, so it is the only one with its preimage. -/
theorem preimage_binds_iff_no_difficulty : ∃ bytes,
    ((sampleSigned none none).encodeForSigning : EpochRes _) = .ok bytes ∧
      Unambiguous true (sampleSigned none none) ∧
      ∀ other, Passes sampleConfig.toConsensusConfig true (fun _ => 10) other →
        (other.encodeForSigning : EpochRes _) = .ok bytes →
          other.covered = (sampleSigned none none).covered := by
  have hbytes : ((sampleSigned none none).encodeForSigning : EpochRes _) =
      .ok (sampleSigned none none).toRlp.encode :=
    congrArg expect (if_pos sampleSigned_fits.2)
  have hun : Unambiguous true (sampleSigned none none) := by
    refine ⟨fun _ => rfl, ?_⟩
    intro dl _ hunchecked
    exact absurd hunchecked.1 (by decide)
  exact ⟨_, hbytes, hun, (preimage_binds_iff (sampleSigned_passes none none) hbytes).mpr hun⟩

/-- **One preimage for two headers.**  With a next difficulty present, no difficulty and
difficulty `0` are signed alike, and both headers pass. -/
theorem vdf_difficulty_is_malleable : ∃ bytes,
    Passes sampleConfig.toConsensusConfig true (fun _ => 10) (sampleSigned none (some 1)) ∧
      Passes sampleConfig.toConsensusConfig true (fun _ => 10) (sampleSigned (some 0) (some 1)) ∧
      ((sampleSigned none (some 1)).encodeForSigning : EpochRes _) = .ok bytes ∧
      ((sampleSigned (some 0) (some 1)).encodeForSigning : EpochRes _) = .ok bytes ∧
      (sampleSigned none (some 1)).covered ≠ (sampleSigned (some 0) (some 1)).covered := by
  have hbytes : ((sampleSigned none (some 1)).encodeForSigning : EpochRes _) =
      .ok (sampleSigned none (some 1)).toRlp.encode :=
    congrArg expect (if_pos sampleSigned_fits.1)
  have hsame : (sampleSigned (some 0) (some 1)).toRlp = (sampleSigned none (some 1)).toRlp :=
    @toRlp_swapDifficulty (sampleSigned none (some 1)) (.inl rfl) (by decide)
  refine ⟨_, sampleSigned_passes _ _, sampleSigned_passes _ _, hbytes,
    (encodeForSigning_congr hsame).trans hbytes, ?_⟩
  intro h
  exact @covered_swapDifficulty (sampleSigned none (some 1)) h.symm

end Irys.Signing
