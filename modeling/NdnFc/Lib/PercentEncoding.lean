import Mathlib.Data.List.Basic
import Mathlib.Tactic.IntervalCases

/-!
# Hexadecimal and percent encoding

Bytes written as text. `PercentEncoding.escape` keeps letters, digits and the characters `-._~` and
writes any other byte as `%` and two hexadecimal digits; `unescape` copies what is not an escape.
`PercentEncoding.toHex` writes every byte as two digits.
-/

namespace PercentEncoding

open List

variable (upperCase : Bool)

/-- The hexadecimal digit of a number below 16. -/
def hexDigit (n : ℕ) : Char :=
  if n < 10 then Char.ofNat (48 + n) else Char.ofNat ((if upperCase then 55 else 87) + n)

def hexValue (c : Char) : Option ℕ :=
  if '0' ≤ c ∧ c ≤ '9' then some (c.toNat - 48)
  else if 'A' ≤ c ∧ c ≤ 'F' then some (c.toNat - 55)
  else if 'a' ≤ c ∧ c ≤ 'f' then some (c.toNat - 87)
  else none

def isUnreserved (c : Char) : Bool :=
  ('a' ≤ c && c ≤ 'z') || ('A' ≤ c && c ≤ 'Z') || ('0' ≤ c && c ≤ '9') ||
    c == '-' || c == '.' || c == '_' || c == '~'

variable (b : UInt8)

def charOf : Char := Char.ofNat b.toNat

def byteOf (c : Char) : UInt8 := UInt8.ofNat c.toNat

def hexByte (b : UInt8) : List Char :=
  [hexDigit upperCase (b.toNat / 16), hexDigit upperCase (b.toNat % 16)]

def escapeByte : List Char :=
  if isUnreserved (charOf b) then [charOf b] else '%' :: hexByte true b

def escape (bytes : List UInt8) : List Char :=
  bytes.flatMap escapeByte

/-- A `%` that is not followed by two hexadecimal digits is copied with the two characters after it;
one near the end is copied alone. -/
def unescape : List Char → List UInt8
  | [] => []
  | [c] => [byteOf c]
  | [c, d] => [byteOf c, byteOf d]
  | c :: d :: e :: rest =>
    if c = '%' then
      match hexValue d, hexValue e with
      | some hi, some lo => UInt8.ofNat (hi * 16 + lo) :: unescape rest
      | _, _ => byteOf c :: byteOf d :: byteOf e :: unescape rest
    else byteOf c :: unescape (d :: e :: rest)

def toHex (bytes : List UInt8) : List Char :=
  bytes.flatMap (hexByte upperCase)

/-- The bytes of a hexadecimal text of even length. -/
def fromHex : List Char → Option (List UInt8)
  | [] => some []
  | [_] => none
  | d :: e :: rest => do
    let hi ← hexValue d
    let lo ← hexValue e
    let bytes ← fromHex rest
    some (UInt8.ofNat (hi * 16 + lo) :: bytes)

/-! ### Digits -/

theorem hexValue_hexDigit {n : ℕ} (h : n < 16) : hexValue (hexDigit upperCase n) = some n := by
  cases upperCase <;> interval_cases n <;> rfl

theorem isUnreserved_hexDigit {n : ℕ} (h : n < 16) :
    isUnreserved (hexDigit upperCase n) = true := by
  cases upperCase <;> interval_cases n <;> rfl

theorem byteOf_charOf : byteOf (charOf b) = b := by
  have hvalid : b.toNat.isValidChar := by
    have := b.toNat_lt
    exact .inl (by omega)
  have hnat : (Char.ofNat b.toNat).toNat = b.toNat := by
    rw [Char.ofNat, dif_pos hvalid]
    rfl
  rw [byteOf, charOf, hnat, UInt8.ofNat_toNat]

theorem ofNat_div_mod : UInt8.ofNat (b.toNat / 16 * 16 + b.toNat % 16) = b := by
  rw [Nat.div_add_mod', UInt8.ofNat_toNat]

theorem div_lt : b.toNat / 16 < 16 := by
  have := b.toNat_lt
  omega

/-! ### Percent encoding -/

variable {c : Char}

theorem unescape_cons_of_ne (h : c ≠ '%') (rest : List Char) :
    unescape (c :: rest) = byteOf c :: unescape rest := by
  match rest with
  | [] => rfl
  | [_] => rfl
  | _ :: _ :: _ => rw [unescape, if_neg h]

theorem unescape_hexByte (b : UInt8) (rest : List Char) :
    unescape ('%' :: hexByte true b ++ rest) = b :: unescape rest := by
  simp only [hexByte, cons_append, nil_append]
  rw [unescape, if_pos rfl, hexValue_hexDigit true (div_lt b),
    hexValue_hexDigit true (Nat.mod_lt _ (by decide))]
  exact congrArg (· :: unescape rest) (ofNat_div_mod b)

theorem unescape_escapeByte (b : UInt8) (rest : List Char) :
    unescape (escapeByte b ++ rest) = b :: unescape rest := by
  unfold escapeByte
  split
  next h =>
    have hne : charOf b ≠ '%' := by
      intro he
      rw [he] at h
      exact absurd h (by decide)
    rw [singleton_append, unescape_cons_of_ne hne, byteOf_charOf]
  next => exact unescape_hexByte b rest

theorem unescape_escape (bytes : List UInt8) : unescape (escape bytes) = bytes := by
  induction bytes with
  | nil => rfl
  | cons b bytes ih =>
    rw [escape, flatMap_cons, unescape_escapeByte]
    exact congrArg (b :: ·) ih

theorem isUnreserved_of_mem_hexByte {upperCase : Bool} {b : UInt8} (h : c ∈ hexByte upperCase b) :
    isUnreserved c = true := by
  rcases mem_pair.mp h with rfl | rfl
  · exact isUnreserved_hexDigit upperCase (div_lt b)
  · exact isUnreserved_hexDigit upperCase (Nat.mod_lt _ (by decide))

theorem isUnreserved_or_eq_of_mem_escape {bytes : List UInt8} (h : c ∈ escape bytes) :
    isUnreserved c = true ∨ c = '%' := by
  obtain ⟨b, -, hc⟩ := mem_flatMap.mp h
  unfold escapeByte at hc
  split at hc
  next hb =>
    rw [mem_singleton.mp hc]
    exact .inl hb
  next =>
    rcases mem_cons.mp hc with rfl | hc
    · exact .inr rfl
    · exact .inl (isUnreserved_of_mem_hexByte hc)

/-! ### Hexadecimal text -/

theorem isUnreserved_of_mem_toHex {upperCase : Bool} {bytes : List UInt8}
    (h : c ∈ toHex upperCase bytes) : isUnreserved c = true := by
  obtain ⟨b, -, hc⟩ := mem_flatMap.mp h
  exact isUnreserved_of_mem_hexByte hc

theorem fromHex_toHex (upperCase : Bool) (bytes : List UInt8) :
    fromHex (toHex upperCase bytes) = some bytes := by
  induction bytes with
  | nil => rfl
  | cons b bytes ih =>
    have hcons : toHex upperCase (b :: bytes) = hexDigit upperCase (b.toNat / 16) ::
        hexDigit upperCase (b.toNat % 16) :: toHex upperCase bytes := rfl
    rw [hcons, fromHex, hexValue_hexDigit upperCase (div_lt b),
      hexValue_hexDigit upperCase (Nat.mod_lt _ (by decide)), ih]
    exact congrArg (fun b => some (b :: bytes)) (ofNat_div_mod b)

end PercentEncoding
