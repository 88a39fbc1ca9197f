import Irys.Lib.Machine
import Mathlib.Data.List.TakeWhile

/-!
# Recursive length prefix

The RLP serialization: an item is a byte string or a list of items, written behind a header that
tells its kind and its length.
-/

namespace Irys

open List

/-- An RLP item. -/
inductive Rlp where
  | str (bytes : List UInt8)
  | list (items : List Rlp)

namespace Rlp

/-- The bytes of a number without leading zeros. -/
def trimmed (w n : ℕ) : List UInt8 := (be w n).dropWhile (· == 0)

/-- The header of an item of length `n`: `base` is `0x80` for a string and `0xc0` for a list.
Lengths are 64-bit. -/
def header (base n : ℕ) : List UInt8 :=
  if n < 56 then [UInt8.ofNat (base + n)]
  else UInt8.ofNat (base + 55 + (trimmed 8 n).length) :: trimmed 8 n

/-- A string: a single byte below `0x80` is its own encoding. -/
def encodeStr (bytes : List UInt8) : List UInt8 :=
  match bytes with
  | [b] => if b < 0x80 then [b] else header 0x80 1 ++ [b]
  | bytes => header 0x80 bytes.length ++ bytes

mutual

/-- **The encoding of an item.** -/
def encode : Rlp → List UInt8
  | .str bytes => encodeStr bytes
  | .list items => header 0xc0 (encodeAll items).length ++ encodeAll items

/-- The encodings of items, one after another. -/
def encodeAll : List Rlp → List UInt8
  | [] => []
  | item :: items => encode item ++ encodeAll items

end

example : encode (.list [.str [], .str [1], .str [0x80]]) = [0xc4, 0x80, 1, 0x81, 0x80] := by
  decide

/-! ### Numbers -/

theorem dropWhile_zero_inj {l l' : List UInt8} (hlen : l.length = l'.length)
    (h : l.dropWhile (· == 0) = l'.dropWhile (· == 0)) : l = l' := by
  have hzeros : ∀ m : List UInt8, m.takeWhile (· == 0) =
      List.replicate (m.length - (m.dropWhile (· == 0)).length) 0 := by
    intro m
    have hsplit := congrArg List.length (takeWhile_append_dropWhile (p := (· == 0)) (l := m))
    rw [length_append] at hsplit
    rw [eq_replicate_iff]
    refine ⟨by omega, ?_⟩
    intro b hb
    have hzero : (b == 0) = true := mem_takeWhile_imp (p := (· == 0)) hb
    exact beq_iff_eq.mp hzero
  rw [← takeWhile_append_dropWhile (p := (· == 0)) (l := l), hzeros l, h, hlen, ← hzeros l',
    takeWhile_append_dropWhile]

variable {w n base : ℕ} {r r' : List UInt8} {rest : List (Option Rlp)}

theorem trimmed_inj {m : ℕ} (hm : m < 256 ^ w) (hn : n < 256 ^ w) (h : trimmed w m = trimmed w n) :
    m = n := by
  apply be_inj hm hn
  exact dropWhile_zero_inj (by rw [be_length, be_length]) h

theorem trimmed_zero (w : ℕ) : trimmed w 0 = [] := by
  rw [trimmed, dropWhile_eq_nil_iff]
  intro b hb
  induction w with
  | zero => cases hb
  | succ w ih =>
    rw [be, mem_cons] at hb
    rcases hb with rfl | hb
    · simp
    · exact ih hb

theorem length_trimmed_le (w n : ℕ) : (trimmed w n).length ≤ w := by
  have hle := (dropWhile_suffix (l := be w n) (· == 0)).length_le
  rwa [be_length] at hle

theorem length_trimmed_pos (hn : n < 256 ^ w) (hpos : 0 < n) : 0 < (trimmed w n).length := by
  rw [length_pos_iff]
  intro hnil
  rw [← trimmed_zero w] at hnil
  have := trimmed_inj hn (by positivity) hnil
  omega

/-- **An unsigned integer** of `w` bytes. -/
def uint (w n : ℕ) : Rlp := .str (trimmed w n)

theorem uint_inj {m : ℕ} (hm : m < 256 ^ w) (hn : n < 256 ^ w) (h : uint w m = uint w n) :
    m = n := by
  rw [uint, uint, Rlp.str.injEq] at h
  exact trimmed_inj hm hn h

theorem uint_eq_empty_iff (hn : n < 256 ^ w) : uint w n = .str [] ↔ n = 0 := by
  rw [uint, Rlp.str.injEq]
  constructor
  · intro h
    rw [← trimmed_zero w] at h
    exact trimmed_inj hn (by positivity) h
  · intro h
    rw [h, trimmed_zero]

/-! ### Encodings are self-delimiting -/

/-- The first byte of a header, as a number. -/
def lead (base n : ℕ) : ℕ := if n < 56 then base + n else base + 55 + (trimmed 8 n).length

/-- The rest of a header. -/
def sizeBytes (n : ℕ) : List UInt8 := if n < 56 then [] else trimmed 8 n

theorem header_eq (base n : ℕ) : header base n = UInt8.ofNat (lead base n) :: sizeBytes n := by
  rw [header, lead, sizeBytes]
  split <;> rfl

theorem lead_bounds (base n : ℕ) : base ≤ lead base n ∧ lead base n < base + 64 := by
  have hle := length_trimmed_le 8 n
  rw [lead]
  split <;> omega

/-- The two bases of headers. -/
def IsBase (base : ℕ) : Prop := base = 0x80 ∨ base = 0xc0

theorem toNat_lead (hbase : IsBase base) : (UInt8.ofNat (lead base n)).toNat = lead base n := by
  have hb := lead_bounds base n
  rw [UInt8.toNat_ofNat']
  apply Nat.mod_eq_of_lt
  rcases hbase with rfl | rfl <;> omega

/-- **A header tells kind and length.** -/
theorem header_append_inj {base' n' : ℕ} (hbase : IsBase base) (hbase' : IsBase base')
    (hn : n < 2 ^ 64) (hn' : n' < 2 ^ 64) (h : header base n ++ r = header base' n' ++ r') :
    base = base' ∧ n = n' ∧ r = r' := by
  rw [header_eq, header_eq, cons_append, cons_append, List.cons.injEq] at h
  obtain ⟨hhead, htail⟩ := h
  have hlead : lead base n = lead base' n' := by
    rw [← toNat_lead hbase, hhead, toNat_lead hbase']
  have hsame : base = base' := by
    have h₁ := lead_bounds base n
    have h₂ := lead_bounds base' n'
    rcases hbase with rfl | rfl <;> rcases hbase' with rfl | rfl <;> omega
  subst hsame
  refine ⟨rfl, ?_⟩
  have hfit : n < 256 ^ 8 := by omega
  have hfit' : n' < 256 ^ 8 := by omega
  rw [lead, lead] at hlead
  rw [sizeBytes, sizeBytes] at htail
  by_cases hshort : n < 56
  · rw [if_pos hshort] at hlead htail
    have hshort' : n' < 56 := by
      by_contra hlong
      have := length_trimmed_pos hfit' (by omega)
      rw [if_neg hlong] at hlead
      omega
    rw [if_pos hshort'] at hlead htail
    exact ⟨by omega, htail⟩
  · rw [if_neg hshort] at hlead htail
    have hpos := length_trimmed_pos hfit (by omega)
    have hlong' : ¬ n' < 56 := by
      intro hshort'
      rw [if_pos hshort'] at hlead
      omega
    rw [if_neg hlong'] at hlead htail
    obtain ⟨hbytes, hrest⟩ := append_inj htail (by omega)
    exact ⟨trimmed_inj hfit hfit' hbytes, hrest⟩

/-- A string is one byte below `0x80`, or it is behind a header. -/
theorem encodeStr_cases (bytes : List UInt8) :
    (∃ b, bytes = [b] ∧ b.toNat < 0x80 ∧ encodeStr bytes = [b]) ∨
      encodeStr bytes = header 0x80 bytes.length ++ bytes := by
  unfold encodeStr
  split
  · rename_i b
    by_cases hb : b < 0x80
    · rw [if_pos hb]
      exact .inl ⟨b, rfl, hb, rfl⟩
    · rw [if_neg hb]
      exact .inr rfl
  · exact .inr rfl

/-- No header starts with a byte below `0x80`. -/
theorem header_ne_byte (hbase : IsBase base) {b : UInt8} (hb : b.toNat < 0x80) :
    header base n ++ r ≠ [b] ++ r' := by
  intro h
  rw [header_eq, cons_append, cons_append, List.cons.injEq] at h
  have hlead := toNat_lead (n := n) hbase
  rw [h.1] at hlead
  have := lead_bounds base n
  rcases hbase with rfl | rfl <;> omega

theorem length_le_encodeStr (bytes : List UInt8) : bytes.length ≤ (encodeStr bytes).length := by
  rcases encodeStr_cases bytes with ⟨b, rfl, -, h⟩ | h
  · rw [h]
  · rw [h, length_append]
    omega

theorem encodeStr_append_inj {bytes bytes' : List UInt8}
    (hfit : (encodeStr bytes).length < 2 ^ 64) (hfit' : (encodeStr bytes').length < 2 ^ 64)
    (h : encodeStr bytes ++ r = encodeStr bytes' ++ r') : bytes = bytes' ∧ r = r' := by
  have hlen := (length_le_encodeStr bytes).trans_lt hfit
  have hlen' := (length_le_encodeStr bytes').trans_lt hfit'
  rcases encodeStr_cases bytes with ⟨b, rfl, hb, henc⟩ | henc
  · rcases encodeStr_cases bytes' with ⟨b', rfl, hb', henc'⟩ | henc'
    · rw [henc, henc'] at h
      exact append_inj h rfl
    · rw [henc, henc', append_assoc] at h
      exact absurd h.symm (header_ne_byte (.inl rfl) hb)
  · rcases encodeStr_cases bytes' with ⟨b', rfl, hb', henc'⟩ | henc'
    · rw [henc, henc', append_assoc] at h
      exact absurd h (header_ne_byte (.inl rfl) hb')
    · rw [henc, henc', append_assoc, append_assoc] at h
      obtain ⟨-, hsame, hrest⟩ := header_append_inj (.inl rfl) (.inl rfl) hlen hlen' h
      exact append_inj hrest hsame

theorem encodeStr_ne_list {bytes : List UInt8} (hfit : (encodeStr bytes).length < 2 ^ 64)
    (hn : n < 2 ^ 64) : encodeStr bytes ++ r ≠ header 0xc0 n ++ r' := by
  intro h
  rcases encodeStr_cases bytes with ⟨b, -, hb, henc⟩ | henc
  · rw [henc] at h
    exact header_ne_byte (.inr rfl) hb h.symm
  · rw [henc, append_assoc] at h
    have hlen := (length_le_encodeStr bytes).trans_lt hfit
    have hbase := (header_append_inj (.inl rfl) (.inr rfl) hlen hn h).1
    omega

theorem encode_ne_nil (item : Rlp) : encode item ≠ [] := by
  cases item with
  | str bytes =>
    rw [encode]
    rcases encodeStr_cases bytes with ⟨b, -, -, h⟩ | h
    · simp [h]
    · simp [h, header_eq]
  | list items => simp [encode, header_eq]

mutual

/-- **Encodings are self-delimiting.** -/
theorem encode_append_inj : ∀ (item item' : Rlp) {r r' : List UInt8},
    (encode item).length < 2 ^ 64 → (encode item').length < 2 ^ 64 →
      encode item ++ r = encode item' ++ r' → item = item' ∧ r = r'
  | .str bytes, .str bytes', r, r', hfit, hfit', h => by
    rw [encode] at hfit hfit' h
    rw [encode] at h
    obtain ⟨rfl, hrest⟩ := encodeStr_append_inj hfit hfit' h
    exact ⟨rfl, hrest⟩
  | .str bytes, .list items', r, r', hfit, hfit', h => by
    rw [encode, length_append] at hfit'
    rw [encode] at hfit
    rw [encode, encode, append_assoc] at h
    exact absurd h (encodeStr_ne_list hfit (by omega))
  | .list items, .str bytes', r, r', hfit, hfit', h => by
    rw [encode, length_append] at hfit
    rw [encode] at hfit'
    rw [encode, encode, append_assoc] at h
    exact absurd h.symm (encodeStr_ne_list hfit' (by omega))
  | .list items, .list items', r, r', hfit, hfit', h => by
    rw [encode, length_append] at hfit hfit'
    rw [encode, encode, append_assoc, append_assoc] at h
    obtain ⟨-, hlen, hrest⟩ := header_append_inj (.inr rfl) (.inr rfl) (by omega)
      (by omega) h
    obtain ⟨hitems, hr⟩ := append_inj hrest hlen
    exact ⟨congrArg Rlp.list (encodeAll_inj items items' (by omega) (by omega) hitems), hr⟩

theorem encodeAll_inj : ∀ (items items' : List Rlp), (encodeAll items).length < 2 ^ 64 →
    (encodeAll items').length < 2 ^ 64 → encodeAll items = encodeAll items' → items = items'
  | [], [], _, _, _ => rfl
  | [], item' :: items', _, _, h => by
    rw [encodeAll, encodeAll] at h
    exact absurd (append_eq_nil_iff.mp h.symm).1 (encode_ne_nil item')
  | item :: items, [], _, _, h => by
    rw [encodeAll, encodeAll] at h
    exact absurd (append_eq_nil_iff.mp h).1 (encode_ne_nil item)
  | item :: items, item' :: items', hfit, hfit', h => by
    rw [encodeAll, length_append] at hfit hfit'
    rw [encodeAll, encodeAll] at h
    obtain ⟨hitem, hrest⟩ := encode_append_inj item item' (by omega) (by omega) h
    rw [hitem, encodeAll_inj items items' (by omega) (by omega) hrest]

end

/-- **Items with the same encoding are the same.** -/
theorem encode_inj {item item' : Rlp} (hfit : (encode item).length < 2 ^ 64)
    (h : encode item = encode item') : item = item' := by
  have happend : encode item ++ [] = encode item' ++ [] := by rw [h]
  exact (encode_append_inj item item' hfit (h ▸ hfit) happend).1

/-! ### Optional items -/

/-- **Optional items at the end of a list.**  An absent item is the empty string if a later one is
present, and left out otherwise. -/
def trailing : List (Option Rlp) → List Rlp
  | [] => []
  | some item :: rest => item :: trailing rest
  | none :: rest =>
    match trailing rest with
    | [] => []
    | items => .str [] :: items

theorem trailing_eq_nil_iff {items : List (Option Rlp)} :
    trailing items = [] ↔ ∀ item ∈ items, item = none := by
  induction items with
  | nil => simp [trailing]
  | cons item items ih =>
    cases item with
    | some item => simp [trailing]
    | none =>
      rw [forall_mem_cons, ← ih, trailing]
      split
      · rename_i hnil
        simp [hnil]
      · rename_i hne
        simp only [reduceCtorEq, true_and, false_iff]
        exact hne

theorem trailing_none_of_nil (h : trailing rest = []) : trailing (none :: rest) = [] := by
  rw [trailing, h]

theorem trailing_none (h : trailing rest ≠ []) :
    trailing (none :: rest) = .str [] :: trailing rest := by
  rw [trailing]
  split
  · rename_i hnil
    exact absurd hnil h
  · rfl

theorem trailing_none_eq_some (h : trailing rest ≠ []) :
    trailing (none :: rest) = trailing (some (.str []) :: rest) := by
  rw [trailing_none h, trailing]

/-- **What the written items tell.**  The rest is known, and the first item is known unless it is
absent or the empty string, with a later one present. -/
theorem trailing_cons_inj {item item' : Option Rlp} {rest' : List (Option Rlp)}
    (h : trailing (item :: rest) = trailing (item' :: rest')) :
    trailing rest = trailing rest' ∧
      (item = item' ∨ (item.getD (.str []) = .str [] ∧ item'.getD (.str []) = .str [] ∧
        trailing rest ≠ [])) := by
  cases item with
  | none =>
    cases item' with
    | none =>
      refine ⟨?_, .inl rfl⟩
      by_cases hnil : trailing rest = []
      · by_cases hnil' : trailing rest' = []
        · rw [hnil, hnil']
        · rw [trailing_none_of_nil hnil, trailing_none hnil'] at h
          cases h
      · by_cases hnil' : trailing rest' = []
        · rw [trailing_none hnil, trailing_none_of_nil hnil'] at h
          cases h
        · rw [trailing_none hnil, trailing_none hnil', List.cons.injEq] at h
          exact h.2
    | some x =>
      by_cases hnil : trailing rest = []
      · rw [trailing_none_of_nil hnil, trailing] at h
        cases h
      · rw [trailing_none hnil, trailing, List.cons.injEq] at h
        exact ⟨h.2, .inr ⟨rfl, h.1.symm, hnil⟩⟩
  | some x =>
    cases item' with
    | none =>
      by_cases hnil : trailing rest' = []
      · rw [trailing_none_of_nil hnil, trailing] at h
        cases h
      · rw [trailing_none hnil, trailing, List.cons.injEq] at h
        exact ⟨h.2, .inr ⟨h.1, rfl, h.2 ▸ hnil⟩⟩
    | some y =>
      rw [trailing, trailing, List.cons.injEq] at h
      exact ⟨h.2, .inl (congrArg some h.1)⟩

end Rlp

end Irys
