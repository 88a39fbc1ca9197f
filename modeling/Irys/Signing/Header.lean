import Irys.Chain.Types
import Irys.Lib.Rlp

/-!
# The signing preimage of a block header

A block is signed over the RLP encoding of its header.  Three of the header's structs end in
optional fields, which the encoding writes as trailing items: what follows the last present field
is left out, and an absent field before it is written as the empty string, which is also how the
integer `0` is written.
-/

namespace Irys.Signing

open Rlp (uint trailing)

/-! ### Fields -/

/-- A 32-byte hash. -/
abbrev H256 := Vector UInt8 32

/-- A 20-byte address. -/
abbrev IrysAddress := Vector UInt8 20

/-- A recoverable signature: `r`, `s` and the parity byte. -/
abbrev IrysSignature := Vector UInt8 65

/-- A byte string, serialized as a newtype around a list of bytes. -/
structure Base64 where
  bytes : List UInt8
  deriving DecidableEq

/-- An ingress proof of a promoted transaction. -/
structure IngressProof where
  signature : IrysSignature
  dataRoot : H256
  proof : H256
  chainId : UInt64
  anchor : H256
  deriving DecidableEq

/-- The recall chunk of a block. -/
structure PoaData where
  partitionChunkOffset : UInt32
  partitionHash : H256
  chunk : Option Base64
  ledgerId : Option UInt32
  txPath : Option Base64
  dataPath : Option Base64
  deriving DecidableEq

/-- A data ledger of a block. -/
structure DataTransactionLedger where
  ledgerId : UInt32
  txRoot : H256
  txIds : List H256
  totalChunks : UInt64
  expires : Option UInt64
  proofs : Option (List IngressProof)
  requiredProofCount : Option UInt8
  deriving DecidableEq

/-- A system ledger of a block. -/
structure SystemTransactionLedger where
  ledgerId : UInt32
  txIds : List H256
  deriving DecidableEq

/-- The VDF steps of a block. -/
structure VDFLimiterInfo where
  output : H256
  globalStepNumber : UInt64
  seed : H256
  nextSeed : H256
  prevOutput : H256
  lastStepCheckpoints : List H256
  steps : List H256
  vdfDifficulty : Option UInt64
  nextVdfDifficulty : Option UInt64
  deriving DecidableEq

/-- **A block header.**  `U256` amounts are 256-bit words, timestamps are 128-bit. -/
structure IrysBlockHeaderV1 where
  blockHash : H256
  signature : IrysSignature
  height : UInt64
  diff : BitVec 256
  cumulativeDiff : BitVec 256
  solutionHash : H256
  lastDiffTimestamp : BitVec 128
  previousSolutionHash : H256
  lastEpochHash : H256
  chunkHash : H256
  previousBlockHash : H256
  previousCumulativeDiff : BitVec 256
  poa : PoaData
  rewardAddress : IrysAddress
  rewardAmount : BitVec 256
  minerAddress : IrysAddress
  timestamp : BitVec 128
  systemLedgers : List SystemTransactionLedger
  dataLedgers : List DataTransactionLedger
  evmBlockHash : H256
  vdfLimiterInfo : VDFLimiterInfo
  oracleIrysPrice : BitVec 256
  emaIrysPrice : BitVec 256
  treasury : BitVec 256
  deriving DecidableEq

/-! ### Serialization -/

/-- An array of bytes. -/
def fixed {n : ℕ} (bytes : Vector UInt8 n) : Rlp := .str bytes.toList

def u8 (x : UInt8) : Rlp := uint 1 x.toNat

def u32 (x : UInt32) : Rlp := uint 4 x.toNat

def u64 (x : UInt64) : Rlp := uint 8 x.toNat

def u128 (x : BitVec 128) : Rlp := uint 16 x.toNat

def u256 (x : BitVec 256) : Rlp := uint 32 x.toNat

/-- A newtype around a vector: a struct of one field, which is a list. -/
def wrapped (items : List Rlp) : Rlp := .list [.list items]

/-- `encode_rlp_version`: the version becomes the first item of the list. -/
def encodeRlpVersion (version : UInt8) (fields : List Rlp) : Rlp := .list (u8 version :: fields)

def Base64.toRlp (b : Base64) : Rlp := wrapped (b.bytes.map u8)

def h256List (hashes : List H256) : Rlp := wrapped (hashes.map fixed)

/-- The signature of a proof is not serialized. -/
def IngressProof.toRlp (p : IngressProof) : Rlp :=
  encodeRlpVersion 1 [fixed p.dataRoot, fixed p.proof, u64 p.chainId, fixed p.anchor]

def PoaData.toRlp (p : PoaData) : Rlp :=
  .list ([u32 p.partitionChunkOffset, fixed p.partitionHash] ++
    trailing [p.chunk.map Base64.toRlp, p.ledgerId.map u32, p.txPath.map Base64.toRlp,
      p.dataPath.map Base64.toRlp])

def DataTransactionLedger.toRlp (dl : DataTransactionLedger) : Rlp :=
  .list ([u32 dl.ledgerId, fixed dl.txRoot, h256List dl.txIds, u64 dl.totalChunks] ++
    trailing [dl.expires.map u64, dl.proofs.map fun ps => wrapped (ps.map IngressProof.toRlp),
      dl.requiredProofCount.map u8])

def SystemTransactionLedger.toRlp (l : SystemTransactionLedger) : Rlp :=
  .list [u32 l.ledgerId, h256List l.txIds]

def VDFLimiterInfo.toRlp (v : VDFLimiterInfo) : Rlp :=
  .list ([fixed v.output, u64 v.globalStepNumber, fixed v.seed, fixed v.nextSeed,
      fixed v.prevOutput, h256List v.lastStepCheckpoints, h256List v.steps] ++
    trailing [v.vdfDifficulty.map u64, v.nextVdfDifficulty.map u64])

/-- The header's fields in order; `block_hash` and `signature` are skipped. -/
def IrysBlockHeaderV1.toRlp (h : IrysBlockHeaderV1) : Rlp :=
  encodeRlpVersion 1
    [u64 h.height, u256 h.diff, u256 h.cumulativeDiff, fixed h.solutionHash,
      u128 h.lastDiffTimestamp, fixed h.previousSolutionHash, fixed h.lastEpochHash,
      fixed h.chunkHash, fixed h.previousBlockHash, u256 h.previousCumulativeDiff, h.poa.toRlp,
      fixed h.rewardAddress, u256 h.rewardAmount, fixed h.minerAddress, u128 h.timestamp,
      .list (h.systemLedgers.map SystemTransactionLedger.toRlp),
      .list (h.dataLedgers.map DataTransactionLedger.toRlp), fixed h.evmBlockHash,
      h.vdfLimiterInfo.toRlp, u256 h.oracleIrysPrice, u256 h.emaIrysPrice, u256 h.treasury]

/-- **The signing preimage.**  Lengths are 64-bit and are added with overflow checks. -/
def IrysBlockHeaderV1.encodeForSigning {ε : Type} (h : IrysBlockHeaderV1) : Res ε (List UInt8) :=
  expect (if h.toRlp.encode.length < 2 ^ 64 then some h.toRlp.encode else none)

/-! ### What the preimage covers -/

/-- A proof without the field that is skipped. -/
def IngressProof.covered (p : IngressProof) : IngressProof :=
  { p with signature := Vector.replicate 65 0 }

def DataTransactionLedger.covered (dl : DataTransactionLedger) : DataTransactionLedger :=
  { dl with proofs := dl.proofs.map fun ps => ps.map IngressProof.covered }

/-- **The fields covered by the preimage**: the skipped ones are blanked. -/
def IrysBlockHeaderV1.covered (h : IrysBlockHeaderV1) : IrysBlockHeaderV1 :=
  { h with
    blockHash := Vector.replicate 32 0
    signature := Vector.replicate 65 0
    dataLedgers := h.dataLedgers.map DataTransactionLedger.covered }

/-! ### Field by field -/

theorem fixed_inj {n : ℕ} {a b : Vector UInt8 n} (h : fixed a = fixed b) : a = b := by
  rw [fixed, fixed, Rlp.str.injEq] at h
  exact Vector.toList_inj.mp h

theorem u8_inj {a b : UInt8} (h : u8 a = u8 b) : a = b :=
  UInt8.toNat_inj.mp (Rlp.uint_inj a.toNat_lt b.toNat_lt h)

theorem u32_inj {a b : UInt32} (h : u32 a = u32 b) : a = b :=
  UInt32.toNat_inj.mp (Rlp.uint_inj a.toNat_lt b.toNat_lt h)

theorem u64_inj {a b : UInt64} (h : u64 a = u64 b) : a = b :=
  UInt64.toNat_inj.mp (Rlp.uint_inj a.toNat_lt b.toNat_lt h)

theorem u128_inj {a b : BitVec 128} (h : u128 a = u128 b) : a = b :=
  BitVec.eq_of_toNat_eq (Rlp.uint_inj a.isLt b.isLt h)

theorem u256_inj {a b : BitVec 256} (h : u256 a = u256 b) : a = b :=
  BitVec.eq_of_toNat_eq (Rlp.uint_inj a.isLt b.isLt h)

theorem wrapped_inj {items items' : List Rlp} (h : wrapped items = wrapped items') :
    items = items' := by
  rw [wrapped, wrapped, Rlp.list.injEq, List.cons.injEq, Rlp.list.injEq] at h
  exact h.1

theorem encodeRlpVersion_inj {v : UInt8} {fields fields' : List Rlp}
    (h : encodeRlpVersion v fields = encodeRlpVersion v fields') : fields = fields' := by
  rw [encodeRlpVersion, encodeRlpVersion, Rlp.list.injEq, List.cons.injEq] at h
  exact h.2

theorem Base64.toRlp_inj {a b : Base64} (h : a.toRlp = b.toRlp) : a = b := by
  have hbytes := (List.map_injective_iff.mpr fun _ _ => u8_inj) (wrapped_inj h)
  cases a
  cases b
  exact congrArg Base64.mk hbytes

theorem h256List_inj {a b : List H256} (h : h256List a = h256List b) : a = b :=
  (List.map_injective_iff.mpr fun _ _ => fixed_inj) (wrapped_inj h)

theorem SystemTransactionLedger.toRlp_inj {a b : SystemTransactionLedger}
    (h : a.toRlp = b.toRlp) : a = b := by
  rw [toRlp, toRlp, Rlp.list.injEq, List.cons.injEq, List.cons.injEq] at h
  cases a
  cases b
  rw [mk.injEq]
  exact ⟨u32_inj h.1, h256List_inj h.2.1⟩

theorem IngressProof.covered_eq {a b : IngressProof} (h : a.toRlp = b.toRlp) :
    a.covered = b.covered := by
  have hfields := encodeRlpVersion_inj h
  simp only [List.cons.injEq] at hfields
  obtain ⟨hroot, hproof, hchain, hanchor, -⟩ := hfields
  rw [covered, covered, fixed_inj hroot, fixed_inj hproof, u64_inj hchain, fixed_inj hanchor]

variable {α : Type} {rest rest' : List (Option Rlp)} {a b : Option UInt64}

/-- Lists that look alike through `f` look alike through what `f` determines. -/
theorem map_eq_of_map_eq {β γ : Type} {f : α → β} {g : α → γ} {l l' : List α}
    (hfg : ∀ a ∈ l, ∀ b ∈ l', f a = f b → g a = g b) (h : l.map f = l'.map f) :
    l.map g = l'.map g := by
  induction l generalizing l' with
  | nil =>
    cases l' with
    | nil => rfl
    | cons b l' => cases h
  | cons a l ih =>
    cases l' with
    | nil => cases h
    | cons b l' =>
      rw [List.map_cons, List.map_cons, List.cons.injEq] at h
      rw [List.map_cons, List.map_cons, List.cons.injEq]
      refine ⟨hfg a (List.mem_cons_self ..) b (List.mem_cons_self ..) h.1, ih ?_ h.2⟩
      intro x hx y hy
      exact hfg x (List.mem_cons_of_mem _ hx) y (List.mem_cons_of_mem _ hy)

theorem proofs_covered_eq {a b : Option (List IngressProof)}
    (h : a.map (fun ps => wrapped (ps.map IngressProof.toRlp)) =
      b.map (fun ps => wrapped (ps.map IngressProof.toRlp))) :
    a.map (fun ps => ps.map IngressProof.covered) =
      b.map (fun ps => ps.map IngressProof.covered) := by
  cases a with
  | none =>
    cases b with
    | none => rfl
    | some qs => cases h
  | some ps =>
    cases b with
    | none => cases h
    | some qs =>
      have hitems := wrapped_inj (Option.some.inj h)
      exact congrArg some (map_eq_of_map_eq (fun _ _ _ _ => IngressProof.covered_eq) hitems)

/-! ### Optional fields -/

theorem trailing_cons_inj_of_list {f : α → Rlp} (hf : ∀ x, ∃ items, f x = .list items)
    {a b : Option α}
    (h : trailing (a.map f :: rest) = trailing (b.map f :: rest')) :
    trailing rest = trailing rest' ∧ a.map f = b.map f := by
  obtain ⟨hrest, heq | ⟨ha, hb, -⟩⟩ := Rlp.trailing_cons_inj h
  · exact ⟨hrest, heq⟩
  · have hnone : ∀ o : Option α, (o.map f).getD (.str []) = .str [] → o = none := by
      intro o ho
      cases o with
      | none => rfl
      | some x =>
        obtain ⟨items, hitems⟩ := hf x
        rw [Option.map_some, Option.getD_some, hitems] at ho
        cases ho
    rw [hnone a ha, hnone b hb]
    exact ⟨hrest, rfl⟩

/-- **The values that an optional integer cannot be told from**: absent, and zero. -/
def Blank (x : Option UInt64) : Prop := x = none ∨ x = some 0

instance (x : Option UInt64) : Decidable (Blank x) := inferInstanceAs (Decidable (_ ∨ _))

theorem u64_zero : u64 0 = .str [] := (Rlp.uint_eq_empty_iff (by decide)).mpr rfl

theorem blank_of_getD {x : Option UInt64} (h : (x.map u64).getD (.str []) = .str []) : Blank x := by
  cases x with
  | none => exact .inl rfl
  | some n =>
    rw [Option.map_some, Option.getD_some, ← u64_zero] at h
    rw [u64_inj h]
    exact .inr rfl

theorem trailing_cons_inj_u64
    (h : trailing (a.map u64 :: rest) = trailing (b.map u64 :: rest')) :
    trailing rest = trailing rest' ∧ (a = b ∨ (Blank a ∧ Blank b ∧ trailing rest ≠ [])) := by
  obtain ⟨hrest, heq | ⟨ha, hb, hne⟩⟩ := Rlp.trailing_cons_inj h
  · exact ⟨hrest, .inl (Option.map_injective (fun _ _ => u64_inj) heq)⟩
  · exact ⟨hrest, .inr ⟨blank_of_getD ha, blank_of_getD hb, hne⟩⟩

theorem trailing_blank (ha : Blank a) (hb : Blank b) (hne : trailing rest ≠ []) :
    trailing (a.map u64 :: rest) = trailing (b.map u64 :: rest) := by
  have hall : ∀ {x : Option UInt64}, Blank x →
      trailing (x.map u64 :: rest) = trailing (none :: rest) := by
    intro x hx
    rcases hx with rfl | rfl
    · rfl
    · rw [Option.map_some, u64_zero, Rlp.trailing_none_eq_some hne]
  rw [hall ha, hall hb]

/-! ### Struct by struct -/

theorem base64_list (b : Base64) : ∃ items, b.toRlp = .list items := ⟨_, rfl⟩

/-- **A PoA is known** if its ledger id is there whenever a path is. -/
theorem PoaData.toRlp_inj {a b : PoaData}
    (ha : a.txPath.isSome || a.dataPath.isSome → a.ledgerId.isSome)
    (hb : b.txPath.isSome || b.dataPath.isSome → b.ledgerId.isSome)
    (h : a.toRlp = b.toRlp) : a = b := by
  rw [toRlp, toRlp, Rlp.list.injEq] at h
  simp only [List.cons_append, List.nil_append, List.cons.injEq] at h
  obtain ⟨hoffset, hhash, htail⟩ := h
  obtain ⟨htail, hchunk⟩ := trailing_cons_inj_of_list base64_list htail
  obtain ⟨htail, hledger⟩ := Rlp.trailing_cons_inj htail
  obtain ⟨htail', htx⟩ := trailing_cons_inj_of_list base64_list htail
  obtain ⟨-, hdata⟩ := trailing_cons_inj_of_list base64_list htail'
  have hmap : ∀ {x y : Option Base64}, x.map Base64.toRlp = y.map Base64.toRlp → x = y :=
    fun heq => Option.map_injective (fun _ _ => Base64.toRlp_inj) heq
  have hid : a.ledgerId = b.ledgerId := by
    rcases hledger with heq | ⟨hza, hzb, hne⟩
    · exact Option.map_injective (fun _ _ => u32_inj) heq
    · -- a path is present, so both ids are, and both are zero
      have hpath : a.txPath.isSome || a.dataPath.isSome := by
        by_contra hnone
        apply hne
        rw [Rlp.trailing_eq_nil_iff]
        simp only [Bool.or_eq_true, not_or, Bool.not_eq_true, Option.isSome_eq_false_iff,
          Option.isNone_iff_eq_none] at hnone
        simp [hnone.1, hnone.2]
      obtain ⟨m, hm⟩ := Option.isSome_iff_exists.mp (ha hpath)
      rw [hmap htx, hmap hdata] at hpath
      obtain ⟨n, hn⟩ := Option.isSome_iff_exists.mp (hb hpath)
      rw [hm, Option.map_some, Option.getD_some] at hza
      rw [hn, Option.map_some, Option.getD_some] at hzb
      rw [hm, hn, u32_inj (hza.trans hzb.symm)]
  cases a
  cases b
  rw [PoaData.mk.injEq]
  exact ⟨u32_inj hoffset, fixed_inj hhash, hmap hchunk, hid, hmap htx, hmap hdata⟩

/-- **A ledger is known up to its expiry**, which is known unless it is blank with a later field
present. -/
theorem DataTransactionLedger.toRlp_inj {a b : DataTransactionLedger} (h : a.toRlp = b.toRlp) :
    { a.covered with expires := b.expires } = b.covered ∧
      (a.expires = b.expires ∨ (Blank a.expires ∧ Blank b.expires ∧
        (a.proofs.isSome || a.requiredProofCount.isSome) = true)) := by
  rw [toRlp, toRlp, Rlp.list.injEq] at h
  simp only [List.cons_append, List.nil_append, List.cons.injEq] at h
  obtain ⟨hid, hroot, hids, htotal, htail⟩ := h
  obtain ⟨htail, hexpires⟩ := trailing_cons_inj_u64 htail
  obtain ⟨htail', hproofs⟩ := trailing_cons_inj_of_list
    (fun ps => ⟨_, rfl⟩) htail
  obtain ⟨-, hcount⟩ := Rlp.trailing_cons_inj htail'
  have hcount : a.requiredProofCount = b.requiredProofCount := by
    rcases hcount with heq | ⟨-, -, hne⟩
    · exact Option.map_injective (fun _ _ => u8_inj) heq
    · exact absurd rfl hne
  constructor
  · rw [covered, covered, u32_inj hid, fixed_inj hroot, h256List_inj hids, u64_inj htotal, hcount,
      proofs_covered_eq hproofs]
  · rcases hexpires with heq | ⟨ha, hb, hne⟩
    · exact .inl heq
    · refine .inr ⟨ha, hb, ?_⟩
      by_contra hnone
      apply hne
      rw [Rlp.trailing_eq_nil_iff]
      simp only [Bool.or_eq_true, not_or, Bool.not_eq_true, Option.isSome_eq_false_iff,
        Option.isNone_iff_eq_none] at hnone
      simp [hnone.1, hnone.2]

/-- **The VDF info is known up to the difficulty**, which is known unless it is blank with a next
difficulty present. -/
theorem VDFLimiterInfo.toRlp_inj {a b : VDFLimiterInfo} (h : a.toRlp = b.toRlp) :
    { a with vdfDifficulty := b.vdfDifficulty } = b ∧
      (a.vdfDifficulty = b.vdfDifficulty ∨
        (Blank a.vdfDifficulty ∧ Blank b.vdfDifficulty ∧ a.nextVdfDifficulty.isSome = true)) := by
  rw [toRlp, toRlp, Rlp.list.injEq] at h
  simp only [List.cons_append, List.nil_append, List.cons.injEq] at h
  obtain ⟨hout, hstep, hseed, hnext, hprev, hpoints, hsteps, htail⟩ := h
  obtain ⟨htail, hdiff⟩ := trailing_cons_inj_u64 htail
  have hnextDiff : a.nextVdfDifficulty = b.nextVdfDifficulty := by
    obtain ⟨-, heq | ⟨-, -, hne⟩⟩ := trailing_cons_inj_u64 htail
    · exact heq
    · exact absurd rfl hne
  constructor
  · rw [fixed_inj hout, u64_inj hstep, fixed_inj hseed, fixed_inj hnext, fixed_inj hprev,
      h256List_inj hpoints, h256List_inj hsteps, hnextDiff]
  · rcases hdiff with heq | ⟨ha, hb, hne⟩
    · exact .inl heq
    · refine .inr ⟨ha, hb, ?_⟩
      cases hopt : a.nextVdfDifficulty with
      | none =>
        rw [hopt] at hne
        exact absurd rfl hne
      | some n => rfl

/-! ### The header -/

theorem toRlp_eq_of_encodeForSigning {ε : Type} {a b : IrysBlockHeaderV1} {bytes : List UInt8}
    (ha : (a.encodeForSigning : Res ε _) = .ok bytes)
    (hb : (b.encodeForSigning : Res ε _) = .ok bytes) : a.toRlp = b.toRlp := by
  rw [IrysBlockHeaderV1.encodeForSigning, expect_eq_ok, Option.ite_none_right_eq_some] at ha hb
  obtain ⟨hfit, ha⟩ := ha
  obtain ⟨-, hb⟩ := hb
  exact Rlp.encode_inj hfit (Option.some.inj (ha.trans hb.symm))

/-- **Headers with the same items agree in every covered field**, if their PoAs, their ledgers and
their VDF difficulties do. -/
theorem IrysBlockHeaderV1.covered_eq {a b : IrysBlockHeaderV1} (h : a.toRlp = b.toRlp)
    (hpoa : a.poa.toRlp = b.poa.toRlp → a.poa = b.poa)
    (hledgers : a.dataLedgers.map DataTransactionLedger.toRlp =
        b.dataLedgers.map DataTransactionLedger.toRlp →
      a.dataLedgers.map DataTransactionLedger.covered =
        b.dataLedgers.map DataTransactionLedger.covered)
    (hvdf : a.vdfLimiterInfo.toRlp = b.vdfLimiterInfo.toRlp →
      a.vdfLimiterInfo = b.vdfLimiterInfo) : a.covered = b.covered := by
  have hfields := encodeRlpVersion_inj h
  simp only [List.cons.injEq, Rlp.list.injEq] at hfields
  obtain ⟨h₁, h₂, h₃, h₄, h₅, h₆, h₇, h₈, h₉, h₁₀, h₁₁, h₁₂, h₁₃, h₁₄, h₁₅, h₁₆, h₁₇, h₁₈, h₁₉,
    h₂₀, h₂₁, h₂₂, -⟩ := hfields
  have hsystem : a.systemLedgers = b.systemLedgers :=
    (List.map_injective_iff.mpr fun _ _ => SystemTransactionLedger.toRlp_inj) h₁₆
  rw [covered, covered, u64_inj h₁, u256_inj h₂, u256_inj h₃, fixed_inj h₄, u128_inj h₅,
    fixed_inj h₆, fixed_inj h₇, fixed_inj h₈, fixed_inj h₉, u256_inj h₁₀, hpoa h₁₁, fixed_inj h₁₂,
    u256_inj h₁₃, fixed_inj h₁₄, u128_inj h₁₅, hsystem, hledgers h₁₇, fixed_inj h₁₈, hvdf h₁₉,
    u256_inj h₂₀, u256_inj h₂₁, u256_inj h₂₂]

end Irys.Signing
