import Irys.Ledger.Turn
import Irys.Lib.Keyed

/-!
# The ledgers of an epoch snapshot

`Ledgers` holds the permanent Publish ledger and a list of term ledgers: Submit, and from
Cascade on OneYear and ThirtyDay.  Its operations name a ledger by id and panic on an id that is
not active.
-/

namespace Irys

/-- `PermanentLedger`: always the Publish ledger. -/
abbrev PermanentLedger := LedgerCore

/-- A ledger whose slots live for `epochLength` epochs. -/
structure TermLedger extends LedgerCore where
  ledgerId : DataLedger
  epochLength : ℕ
  numBlocksInEpoch : ℕ
  deriving DecidableEq

/-- A partition of a slot that expired. -/
structure ExpiringPartitionInfo where
  partitionHash : PartitionHash
  ledgerId : DataLedger
  slotIndex : ℕ
  deriving DecidableEq

variable {ε : Type}

namespace TermLedger

/-- A term ledger with no slots. -/
def new (ledger : DataLedger) (config : ConsensusConfig) (epochLength : ℕ) : TermLedger :=
  { slots := [], numPartitionsPerSlot := config.numPartitionsPerSlot, ledgerId := ledger,
    epochLength, numBlocksInEpoch := config.epoch.numBlocksInEpoch }

section

variable (t : TermLedger)

/-- The same ledger with other slots. -/
def withCore (core : LedgerCore) : TermLedger := { t with toLedgerCore := core }

/-- A term ledger without its slots: which one it is and how long its slots live. -/
def frame : DataLedger × ℕ × ℕ := (t.ledgerId, t.epochLength, t.numBlocksInEpoch)

@[simp] theorem withCore_ledgerId (core : LedgerCore) :
    (t.withCore core).ledgerId = t.ledgerId := rfl

@[simp] theorem withCore_frame (core : LedgerCore) :
    (t.withCore core).frame = t.frame := rfl

/-- The slot lifetime in blocks; panics when it overflows. -/
def minBlocks : Res ε ℕ := expect (checkedMul 64 t.epochLength t.numBlocksInEpoch)

/-- The slots that newly expire at a height. -/
def getExpiredSlotIndexes (epochHeight : ℕ) (cascade : Bool)
    (totalChunks chunksPerSlot : ℕ) : Res ε (List ℕ) := do
  let minBlocks ← t.minBlocks
  return (expiringSlots t.slots minBlocks epochHeight cascade totalChunks chunksPerSlot).map (·.2)

/-- The slots expired as of a height, earlier ones included. -/
def getAllExpiredSlotIndexes (epochHeight : ℕ) (cascade : Bool)
    (totalChunks chunksPerSlot : ℕ) : Res ε (List ℕ) := do
  let minBlocks ← t.minBlocks
  return allExpiredSlotIndexes t.slots minBlocks epochHeight cascade totalChunks chunksPerSlot

/-- Mark the newly expired slots and return their indexes. -/
def expireOldSlots (epochHeight : ℕ) (cascade : Bool)
    (totalChunks chunksPerSlot : ℕ) : Res ε (TermLedger × List ℕ) := do
  let expired ← t.getExpiredSlotIndexes epochHeight cascade totalChunks chunksPerSlot
  return ({ t with slots := markExpired t.slots expired }, expired)

end

end TermLedger

/-- The permanent ledger and the term ledgers. -/
structure Ledgers where
  perm : PermanentLedger
  term : List TermLedger
  publishLedgerEpochLength : Option ℕ
  numBlocksInEpoch : ℕ
  deriving DecidableEq

namespace Ledgers

/-- The two term ledgers that Cascade brings. -/
def cascadeLedgers (config : ConsensusConfig) (cascade : Cascade) : List TermLedger :=
  [TermLedger.new .oneYear config cascade.oneYearEpochLength,
    TermLedger.new .thirtyDay config cascade.thirtyDayEpochLength]

/-- The ledgers at genesis. -/
def new (config : ConsensusConfig) (cascade : Bool) : Ledgers :=
  let submit := TermLedger.new .submit config config.epoch.submitLedgerEpochLength
  { perm := { slots := [], numPartitionsPerSlot := config.numPartitionsPerSlot }
    term := submit ::
      match cascade, config.hardforks.cascade with
      | true, some c => cascadeLedgers config c
      | _, _ => []
    publishLedgerEpochLength := config.epoch.publishLedgerEpochLength
    numBlocksInEpoch := config.epoch.numBlocksInEpoch }

section

variable (L : Ledgers)

/-- Add the Cascade term ledgers, once. -/
def activateCascade (config : ConsensusConfig) : Ledgers :=
  if L.term.any (·.ledgerId == .oneYear) then L
  else
    match config.hardforks.cascade with
    | some c => { L with term := L.term ++ cascadeLedgers config c }
    | none => L

/-- The ids of the ledgers that are active. -/
def activeLedgers : List DataLedger := .publish :: L.term.map (·.ledgerId)

/-- `Index`: the ledger behind an id; `none` is the source's panic. -/
def get? : DataLedger → Option LedgerCore
  | .publish => some L.perm
  | ledger => (L.term.find? (·.ledgerId == ledger)).map (·.toLedgerCore)

/-- `IndexMut`: write the ledger behind an id. -/
def set? (ledger : DataLedger) (core : LedgerCore) : Option Ledgers :=
  match ledger with
  | .publish => some { L with perm := core }
  | ledger =>
    (updateFirst (·.ledgerId == ledger) (·.withCore core) L.term).map
      fun term => { L with term }

/-- Write one slot of a ledger; `none` where the source's index panics. -/
def modifySlot? (ledger : DataLedger) (slotIndex : ℕ)
    (f : LedgerSlot → LedgerSlot) : Option Ledgers :=
  match L.get? ledger with
  | none => none
  | some core =>
    if slotIndex < core.slots.length then
      L.set? ledger { core with slots := core.slots.modify slotIndex f }
    else none

/-- Put a partition into a slot. -/
def pushPartitionToSlot (ledger : DataLedger) (slotIndex : ℕ)
    (partitionHash : PartitionHash) : Res ε Ledgers :=
  expect (L.modifySlot? ledger slotIndex fun slot =>
    { slot with partitions := slot.partitions ++ [partitionHash] })

/-- Take a partition out of a slot. -/
def removePartitionFromSlot (ledger : DataLedger) (slotIndex : ℕ)
    (partitionHash : PartitionHash) : Res ε Ledgers :=
  expect (L.modifySlot? ledger slotIndex fun slot =>
    { slot with partitions := slot.partitions.filter (· != partitionHash) })

/-- `touch_filled_slots` on the ledger behind an id.  The early return comes before the lookup. -/
def touch (ledger : DataLedger) (prevTotal newTotal chunksPerSlot height : ℕ)
    (refreshLastHeight : Bool) : Res ε Ledgers := do
  if newTotal ≤ prevTotal ∨ chunksPerSlot = 0 then return L
  let core ← expect (L.get? ledger)
  expect (L.set? ledger { core with
    slots := touchFilledSlots core.slots prevTotal newTotal chunksPerSlot height refreshLastHeight })

/-! ### Expiry -/

/-- The perm slots that expire at a height: none unless Publish has a lifetime. -/
def getPermExpiringSlots (epochHeight : ℕ) (cascade : Bool)
    (totalChunks chunksPerSlot : ℕ) : Res ε (List (ℕ × List PartitionHash × DataLedger)) :=
  match L.publishLedgerEpochLength with
  | none => .ok []
  | some epochLength => do
    let minBlocks ← expect (checkedMul 64 epochLength L.numBlocksInEpoch)
    return (expiringSlots L.perm.slots minBlocks epochHeight cascade totalChunks
      chunksPerSlot).map fun p => (p.2, p.1.partitions, .publish)

end

/-- The partitions of an expired slot, as they are reported. -/
def infosOf (ledger : DataLedger) (slotIndex : ℕ) (partitions : List PartitionHash) :
    List ExpiringPartitionInfo :=
  partitions.map fun partitionHash => { partitionHash, ledgerId := ledger, slotIndex }

/-- The partitions of the slot at an index. -/
def partitionsAt (slots : List LedgerSlot) (slotIndex : ℕ) : List PartitionHash :=
  (slots[slotIndex]?.map (·.partitions)).getD []

/-- The term-ledger loop of `expire_partitions`. -/
def expireTerms (epochHeight : ℕ) (cascade : Bool) (totalChunks : DataLedger → ℕ)
    (chunksPerSlot : ℕ) : List TermLedger → Res ε (List TermLedger × List ExpiringPartitionInfo)
  | [] => .ok ([], [])
  | t :: ts => do
    let (t', expired) ← t.expireOldSlots epochHeight cascade (totalChunks t.ledgerId)
      chunksPerSlot
    let infos := expired.flatMap fun i => infosOf t.ledgerId i (partitionsAt t'.slots i)
    let (ts', rest) ← expireTerms epochHeight cascade totalChunks chunksPerSlot ts
    return (t' :: ts', infos ++ rest)

/-- Mark every slot that expires at a height and report its partitions. -/
def expirePartitions (L : Ledgers) (epochHeight : ℕ) (cascade : Bool)
    (totalChunks : DataLedger → ℕ) (chunksPerSlot : ℕ) :
    Res ε (Ledgers × List ExpiringPartitionInfo) := do
  let permSlots ← L.getPermExpiringSlots epochHeight cascade (totalChunks .publish) chunksPerSlot
  let perm := { L.perm with slots := markExpired L.perm.slots (permSlots.map (·.1)) }
  let permInfos := permSlots.flatMap fun (i, partitions, ledger) => infosOf ledger i partitions
  let (term, termInfos) ← expireTerms epochHeight cascade totalChunks chunksPerSlot L.term
  return ({ L with perm, term }, permInfos ++ termInfos)

/-- The term-ledger loop of `get_expiring_slots`. -/
def expiringTermSlots (epochHeight : ℕ) (cascade : Bool) (totalChunks : DataLedger → ℕ)
    (chunksPerSlot : ℕ) : List TermLedger → Res ε (List (DataLedger × ℕ × List PartitionHash))
  | [] => .ok []
  | t :: ts => do
    let expired ← t.getExpiredSlotIndexes epochHeight cascade (totalChunks t.ledgerId)
      chunksPerSlot
    let rest ← expiringTermSlots epochHeight cascade totalChunks chunksPerSlot ts
    return (expired.map fun i => (t.ledgerId, i, partitionsAt t.slots i)) ++ rest

/-- All slots that would expire at a height, with their partitions. -/
def getExpiringSlots (L : Ledgers) (epochHeight : ℕ) (cascade : Bool)
    (totalChunks : DataLedger → ℕ) (chunksPerSlot : ℕ) :
    Res ε (List (DataLedger × ℕ × List PartitionHash)) := do
  let permSlots ← L.getPermExpiringSlots epochHeight cascade (totalChunks .publish) chunksPerSlot
  let termSlots ← expiringTermSlots epochHeight cascade totalChunks chunksPerSlot L.term
  return (permSlots.map fun (i, partitions, ledger) => (ledger, i, partitions)) ++ termSlots

/-- The inclusive expired set of a term ledger; panics on an id that is not an active term
ledger. -/
def getAllExpiredTermSlotIndexes (L : Ledgers) (ledger : DataLedger) (epochHeight : ℕ)
    (cascade : Bool) (totalChunks chunksPerSlot : ℕ) : Res ε (List ℕ) := do
  let t ← expect (L.term.find? (·.ledgerId == ledger))
  t.getAllExpiredSlotIndexes epochHeight cascade totalChunks chunksPerSlot

/-- `expiry_frontier_for`: the lowest slot that has not expired, `0` if there is none; panics on
an inactive ledger. -/
def expiryFrontierFor (L : Ledgers) (ledger : DataLedger) : Res ε ℕ := do
  let core ← expect (L.get? ledger)
  return (core.slots.findIdx? fun slot => !slot.isExpired).getD 0

/-! ### Reading back a write -/

/-- The ids of the term ledgers. -/
def termIds (L : Ledgers) : List DataLedger := L.term.map (·.ledgerId)

/-- **The term ledgers of any snapshot**: Submit alone, or Submit with the two Cascade ledgers. -/
def Shape (L : Ledgers) : Prop :=
  L.termIds = [.submit] ∨ L.termIds = [.submit, .oneYear, .thirtyDay]

variable {L L' : Ledgers} {ledger : DataLedger} {core : LedgerCore}

theorem Shape.nodup (h : L.Shape) : L.activeLedgers.Nodup := by
  rw [activeLedgers]
  change (DataLedger.publish :: L.termIds).Nodup
  rcases h with h | h <;> rw [h] <;> decide

theorem get?_term (h : ledger ≠ .publish) :
    L.get? ledger = (L.term.find? (·.ledgerId == ledger)).map (·.toLedgerCore) := by
  cases ledger <;> first | rfl | exact absurd rfl h

theorem set?_term (h : ledger ≠ .publish) :
    L.set? ledger core =
      (updateFirst (·.ledgerId == ledger) (·.withCore core) L.term).map
        fun term => { L with term } := by
  cases ledger <;> first | rfl | exact absurd rfl h

/-- The ledger behind an id is the permanent one or the first term ledger of that id. -/
theorem get?_cases (h : L.get? ledger = some core) : ledger = .publish ∧ core = L.perm ∨
    ledger ≠ .publish ∧ ∃ t, L.term.find? (·.ledgerId == ledger) = some t ∧
      t.ledgerId = ledger ∧ core = t.toLedgerCore := by
  by_cases hp : ledger = .publish
  · subst hp
    cases h
    exact .inl ⟨rfl, rfl⟩
  · rw [get?_term hp] at h
    obtain ⟨t, ht, rfl⟩ := Option.map_eq_some_iff.mp h
    exact .inr ⟨hp, t, ht, by simpa using List.find?_some ht, rfl⟩

theorem set?_cases (h : L.set? ledger core = some L') :
    ledger = .publish ∧ L' = { L with perm := core } ∨
      ledger ≠ .publish ∧ ∃ term, updateFirst (·.ledgerId == ledger) (·.withCore core) L.term =
        some term ∧ L' = { L with term } := by
  by_cases hp : ledger = .publish
  · subst hp
    cases h
    exact .inl ⟨rfl, rfl⟩
  · rw [set?_term hp] at h
    obtain ⟨term, hterm, rfl⟩ := Option.map_eq_some_iff.mp h
    exact .inr ⟨hp, term, hterm, rfl⟩

theorem get?_isSome_iff : (L.get? ledger).isSome = true ↔ ledger ∈ L.activeLedgers := by
  by_cases h : ledger = .publish
  · subst h
    simp [get?, activeLedgers]
  · rw [get?_term h, Option.isSome_map, List.find?_isSome, activeLedgers]
    simp [h]

theorem mem_activeLedgers_iff : ledger ∈ L.activeLedgers ↔ ∃ core, L.get? ledger = some core := by
  rw [← get?_isSome_iff, Option.isSome_iff_exists]

section

variable (h : L.set? ledger core = some L')
include h

theorem get?_set?_self : L'.get? ledger = some core := by
  obtain ⟨rfl, rfl⟩ | ⟨hp, term, hterm, rfl⟩ := set?_cases h
  · rfl
  · have hfind := find?_updateFirst_self (fun t => t.withCore_ledgerId core) hterm
    rw [get?_term hp, hfind, Option.map_map]
    have hmem : ledger ∈ L.activeLedgers :=
      List.mem_cons_of_mem _ (updateFirst_isSome_iff.mp (by rw [hterm]; rfl))
    rw [← get?_isSome_iff, get?_term hp, Option.isSome_map] at hmem
    obtain ⟨t, ht⟩ := Option.isSome_iff_exists.mp hmem
    rw [ht]
    rfl

theorem get?_set?_of_ne {other : DataLedger}
    (hne : other ≠ ledger) : L'.get? other = L.get? other := by
  obtain ⟨rfl, rfl⟩ | ⟨hp, term, hterm, rfl⟩ := set?_cases h
  · rw [get?_term hne, get?_term hne]
  · by_cases ho : other = .publish
    · subst ho
      rfl
    · have hfind := find?_updateFirst_of_ne (fun t => t.withCore_ledgerId core) hne hterm
      rw [get?_term ho, get?_term ho, hfind]

/-! ### What a write keeps -/

/-- Everything but the slots: which ledgers there are and how long their slots live. -/
def frame (L : Ledgers) : List (DataLedger × ℕ × ℕ) × Option ℕ × ℕ :=
  (L.term.map TermLedger.frame, L.publishLedgerEpochLength, L.numBlocksInEpoch)

theorem frame_set? : L'.frame = L.frame := by
  obtain ⟨rfl, rfl⟩ | ⟨hp, term, hterm, rfl⟩ := set?_cases h
  · rfl
  · simp [frame, map_updateFirst TermLedger.frame hterm (fun t _ => t.withCore_frame core)]

end

theorem frame_eq_iff : L'.frame = L.frame ↔
    L'.term.map TermLedger.frame = L.term.map TermLedger.frame ∧
      L'.publishLedgerEpochLength = L.publishLedgerEpochLength ∧
      L'.numBlocksInEpoch = L.numBlocksInEpoch := by
  rw [frame, frame, Prod.mk.injEq, Prod.mk.injEq]

theorem termIds_eq_of_frame (h : L'.frame = L.frame) : L'.termIds = L.termIds := by
  have hterm := congrArg (fun f => f.1.map Prod.fst) h
  simpa [frame, termIds, TermLedger.frame, Function.comp_def] using hterm

theorem activeLedgers_eq_of_frame (h : L'.frame = L.frame) :
    L'.activeLedgers = L.activeLedgers := by
  rw [activeLedgers, activeLedgers]
  exact congrArg _ (termIds_eq_of_frame h)

theorem Shape.of_frame (h : L'.frame = L.frame) (hs : L.Shape) : L'.Shape := by
  rw [Shape, termIds_eq_of_frame h]
  exact hs

/-- The slot lifetime of a ledger in blocks. -/
def lifetime (L : Ledgers) : DataLedger → Option ℕ
  | .publish => L.publishLedgerEpochLength.map (· * L.numBlocksInEpoch)
  | ledger =>
    (L.term.find? (·.ledgerId == ledger)).map fun t => t.epochLength * t.numBlocksInEpoch

theorem lifetime_term (h : ledger ≠ .publish) :
    L.lifetime ledger =
      (L.term.find? (·.ledgerId == ledger)).map fun t => t.epochLength * t.numBlocksInEpoch := by
  cases ledger <;> first | rfl | exact absurd rfl h

theorem lifetime_eq_of_frame (h : L'.frame = L.frame) (ledger : DataLedger) :
    L'.lifetime ledger = L.lifetime ledger := by
  obtain ⟨h1, h2, h3⟩ := frame_eq_iff.mp h
  by_cases hp : ledger = .publish
  · subst hp
    simp only [lifetime, h2, h3]
  · have hlife : ∀ M : Ledgers, M.lifetime ledger =
        ((M.term.map TermLedger.frame).find? (·.1 == ledger)).map fun f => f.2.1 * f.2.2 := by
      intro M
      rw [lifetime_term hp, List.find?_map, Option.map_map]
      rfl
    rw [hlife, hlife, h1]

end Ledgers

end Irys
