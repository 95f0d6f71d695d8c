import NdnFc.Lib.BigEndian
import NdnFc.Lib.Fallible
import NdnFc.Tlv.Types

/-!
# Numbers of the TLV encoding

`ndn-cxx/encoding/tlv.hpp`, lines 390 to 540. A VAR-NUMBER takes one, three, five or nine bytes,
the first of them announcing the size; a nonNegativeInteger takes one, two, four or eight bytes.
The readers accept longer encodings than the writers produce.
-/

namespace NdnFc.Tlv

open Fallible BigEndian

def sizeOfVarNumber (number : ℕ) : ℕ :=
  if number < 253 then 1 else if number < 2 ^ 16 then 3 else if number < 2 ^ 32 then 5 else 9

def writeVarNumber (number : ℕ) : Bytes :=
  if number < 253 then [UInt8.ofNat number]
  else if number < 2 ^ 16 then 253 :: ofNat 2 number
  else if number < 2 ^ 32 then 254 :: ofNat 4 number
  else 255 :: ofNat 8 number

/-- `readNumber`: the first `size` bytes as a number. -/
def readNumber (size : ℕ) (bytes : Bytes) : Option (ℕ × Bytes) :=
  if bytes.length < size then none
  else some (toNat (bytes.take size), bytes.drop size)

def readVarNumber : Bytes → Except String (ℕ × Bytes)
  | [] => throw "Empty buffer during TLV parsing"
  | first :: rest =>
    if first < 253 then pure (first.toNat, rest)
    else
      let size := if first = 253 then 2 else if first = 254 then 4 else 8
      match readNumber size rest with
      | none => throw "Insufficient data during TLV parsing"
      | some result => pure result

/-- How many bytes follow the first byte of a VAR-NUMBER, read from that byte. -/
def octetsAfter (first : UInt8) : ℕ :=
  if first < 253 then 0 else if first = 253 then 2 else if first = 254 then 4 else 8

/-- How many bytes follow the first byte of the VAR-NUMBER at the front of a buffer. -/
def firstOctets : Bytes → ℕ
  | [] => 0
  | first :: _ => octetsAfter first

/-- The first byte of a number that is encoded with a number of bytes after the first. -/
def leadOctet (octets number : ℕ) : ℕ :=
  if octets = 0 then number else if octets = 2 then 253 else if octets = 4 then 254 else 255

/-- A number encoded with a number of bytes after the first. -/
def varNumberIn (octets number : ℕ) : Bytes :=
  UInt8.ofNat (leadOctet octets number) :: ofNat octets number

/-- A number can be encoded with a number of bytes after the first. -/
inductive FitsIn : ℕ → ℕ → Prop
  | first {number : ℕ} (h : number < 253) : FitsIn 0 number
  | after {octets number : ℕ} (hoctets : octets = 2 ∨ octets = 4 ∨ octets = 8)
      (h : number < 256 ^ octets) : FitsIn octets number

def readType (bytes : Bytes) : Except String (ℕ × Bytes) := do
  let (type, rest) ← readVarNumber bytes
  if type = invalid ∨ 2 ^ 32 ≤ type then throw ("Illegal TLV-TYPE " ++ toString type)
  else pure (type, rest)

def sizeOfNonNegativeInteger (integer : ℕ) : ℕ :=
  if integer < 2 ^ 8 then 1 else if integer < 2 ^ 16 then 2 else if integer < 2 ^ 32 then 4 else 8

def writeNonNegativeInteger (integer : ℕ) : Bytes :=
  ofNat (sizeOfNonNegativeInteger integer) integer

/-- `readNonNegativeInteger` on the whole value of an element. -/
def readNonNegativeInteger (value : Bytes) : Except String ℕ :=
  if value.length = 1 ∨ value.length = 2 ∨ value.length = 4 ∨ value.length = 8 then
    pure (toNat value)
  else
    throw ("Invalid length " ++ toString value.length ++ " for nonNegativeInteger")

/-- A non-negative integer as a signed 64-bit count of milliseconds. -/
def toMilliseconds (integer : ℕ) : ℤ :=
  if integer < 2 ^ 63 then integer else integer - 2 ^ 64

/-- A signed 64-bit count of milliseconds as a non-negative integer. -/
def ofMilliseconds (count : ℤ) : ℕ :=
  (count % 2 ^ 64).toNat

theorem toMilliseconds_ofMilliseconds {count : ℤ} (hle : -2 ^ 63 ≤ count) (hlt : count < 2 ^ 63) :
    toMilliseconds (ofMilliseconds count) = count := by
  unfold toMilliseconds ofMilliseconds
  split <;> omega

variable {integer number octets : ℕ} {rest bytes : Bytes}

theorem toMilliseconds_of_lt (h : integer < 2 ^ 63) : toMilliseconds integer = integer :=
  if_pos h

theorem toMilliseconds_neg (h : 2 ^ 63 ≤ integer) (hlt : integer < 2 ^ 64) :
    toMilliseconds integer < 0 := by
  rw [toMilliseconds, if_neg (by omega)]
  omega

theorem toMilliseconds_mem (h : integer < 2 ^ 64) :
    -2 ^ 63 ≤ toMilliseconds integer ∧ toMilliseconds integer < 2 ^ 63 := by
  unfold toMilliseconds
  split <;> omega

theorem toNat_of_readNonNegativeInteger {value : Bytes}
    (h : readNonNegativeInteger value = .ok integer) :
    toNat value = integer ∧ integer < 2 ^ 64 := by
  unfold readNonNegativeInteger at h
  split at h
  next hlength =>
    cases h
    refine ⟨rfl, (toNat_lt value).trans_le ?_⟩
    calc 256 ^ value.length ≤ 256 ^ 8 := Nat.pow_le_pow_right (by decide) (by omega)
      _ = 2 ^ 64 := by decide
  next => cases h

theorem ofMilliseconds_lt (count : ℤ) : ofMilliseconds count < 2 ^ 64 := by
  unfold ofMilliseconds
  omega

theorem length_writeVarNumber (number : ℕ) :
    (writeVarNumber number).length = sizeOfVarNumber number := by
  unfold writeVarNumber sizeOfVarNumber
  split_ifs <;> simp

theorem sizeOfVarNumber_le (number : ℕ) : sizeOfVarNumber number ≤ 9 := by
  unfold sizeOfVarNumber
  split_ifs <;> decide

theorem sizeOfVarNumber_of_lt (h : number < 2 ^ 16) :
    sizeOfVarNumber number = if number < 253 then 1 else 3 := by
  rw [sizeOfVarNumber, if_pos h]

@[simp] theorem length_varNumberIn (octets number : ℕ) :
    (varNumberIn octets number).length = octets + 1 := by
  simp [varNumberIn]

theorem readNumber_ofNat {size : ℕ} (h : number < 256 ^ size) (rest : Bytes) :
    readNumber size (ofNat size number ++ rest) = some (number, rest) := by
  have hlen : ¬ (ofNat size number ++ rest).length < size := by simp
  rw [readNumber, if_neg hlen, List.take_left' (by simp), List.drop_left' (by simp),
    toNat_ofNat_of_lt h]

theorem readVarNumber_varNumberIn (h : FitsIn octets number) (rest : Bytes) :
    readVarNumber (varNumberIn octets number ++ rest) = .ok (number, rest) := by
  cases h with
  | first h =>
    have hnat : (UInt8.ofNat number).toNat = number :=
      UInt8.toNat_ofNat_of_lt (by omega : number < 256)
    have hfirst : UInt8.ofNat number < 253 := by
      rw [UInt8.lt_iff_toNat_lt, hnat]
      exact h
    simp [varNumberIn, leadOctet, ofNat, readVarNumber, hfirst, hnat]
  | after hoctets h =>
    have hread := readNumber_ofNat h rest
    rcases hoctets with rfl | rfl | rfl <;> simp [varNumberIn, leadOctet, readVarNumber, hread]

theorem exists_varNumberIn_eq (h : number < 2 ^ 64) :
    ∃ octets, FitsIn octets number ∧ writeVarNumber number = varNumberIn octets number := by
  unfold writeVarNumber
  split_ifs with h1 h2 h3
  · exact ⟨0, .first h1, rfl⟩
  · exact ⟨2, .after (by simp) (by omega), rfl⟩
  · exact ⟨4, .after (by simp) (by omega), rfl⟩
  · exact ⟨8, .after (by simp) (by omega), rfl⟩

theorem readVarNumber_writeVarNumber (h : number < 2 ^ 64) (rest : Bytes) :
    readVarNumber (writeVarNumber number ++ rest) = .ok (number, rest) := by
  obtain ⟨octets, hfits, hwrite⟩ := exists_varNumberIn_eq h
  rw [hwrite, readVarNumber_varNumberIn hfits]

theorem rest_of_readVarNumber_writeVarNumber {length : ℕ} {rest' : Bytes}
    (h : readVarNumber (writeVarNumber number ++ rest) = .ok (length, rest')) : rest' = rest := by
  by_cases hnumber : number < 2 ^ 64
  · rw [readVarNumber_writeVarNumber hnumber] at h
    cases h
    rfl
  · rw [writeVarNumber, if_neg (by omega), if_neg (by omega), if_neg (by omega)] at h
    have hread : readNumber 8 (ofNat 8 number ++ rest) =
        some (toNat (ofNat 8 number), rest) := by
      simp [readNumber]
    simp [readVarNumber, hread] at h
    exact h.2.symm

theorem readType_writeVarNumber {type : ℕ} (hpos : 0 < type) (h : type < 2 ^ 32) (rest : Bytes) :
    readType (writeVarNumber type ++ rest) = .ok (type, rest) := by
  have hno : ¬ (type = invalid ∨ 2 ^ 32 ≤ type) := by
    simp only [invalid]
    omega
  rw [readType, readVarNumber_writeVarNumber (by omega), ok_bind]
  exact if_neg hno

theorem length_writeNonNegativeInteger (integer : ℕ) :
    (writeNonNegativeInteger integer).length = sizeOfNonNegativeInteger integer := by
  simp [writeNonNegativeInteger]

theorem length_writeNonNegativeInteger_le (integer : ℕ) :
    (writeNonNegativeInteger integer).length ≤ 8 := by
  rw [length_writeNonNegativeInteger, sizeOfNonNegativeInteger]
  split_ifs <;> omega

theorem readNonNegativeInteger_write (h : integer < 2 ^ 64) :
    readNonNegativeInteger (writeNonNegativeInteger integer) = .ok integer := by
  have hlen := length_writeNonNegativeInteger integer
  have hsize : sizeOfNonNegativeInteger integer = 1 ∨ sizeOfNonNegativeInteger integer = 2 ∨
      sizeOfNonNegativeInteger integer = 4 ∨ sizeOfNonNegativeInteger integer = 8 := by
    unfold sizeOfNonNegativeInteger
    split_ifs <;> simp
  have hfit : integer < 256 ^ sizeOfNonNegativeInteger integer := by
    unfold sizeOfNonNegativeInteger
    split_ifs <;> omega
  rw [readNonNegativeInteger, hlen, if_pos hsize, writeNonNegativeInteger,
    toNat_ofNat_of_lt hfit]
  rfl

/-! ### What the readers consume

A reader takes a non-empty front part of its input and its result does not depend on what
follows that part. -/

theorem leadOctet_octetsAfter {first : UInt8} (h : ¬ first < 253) (number : ℕ) :
    UInt8.ofNat (leadOctet (octetsAfter first) number) = first := by
  rw [octetsAfter, if_neg h]
  split_ifs with h253 h254
  · exact h253.symm
  · exact h254.symm
  · have hlt := first.toNat_lt
    rw [UInt8.lt_iff_toNat_lt] at h
    rw [← UInt8.toNat_inj] at h253 h254 ⊢
    simp only [UInt8.reduceToNat] at h h253 h254
    simp [leadOctet]
    omega

theorem varNumberIn_of_readVarNumber {bytes rest : Bytes}
    (h : readVarNumber bytes = .ok (number, rest)) :
    FitsIn (firstOctets bytes) number ∧
      bytes = varNumberIn (firstOctets bytes) number ++ rest := by
  cases bytes with
  | nil => simp [readVarNumber] at h
  | cons first tail =>
    rw [firstOctets]
    simp only [readVarNumber] at h
    split at h
    next hlt =>
      cases h
      have hoctets : octetsAfter first = 0 := if_pos hlt
      have hnumber : first.toNat < 253 := UInt8.lt_iff_toNat_lt.mp hlt
      rw [hoctets]
      exact ⟨.first hnumber, by simp [varNumberIn, leadOctet, ofNat]⟩
    next hge =>
      have hsize : octetsAfter first = if first = 253 then 2 else if first = 254 then 4 else 8 :=
        if_neg hge
      rw [← hsize] at h
      by_cases hlen : tail.length < octetsAfter first
      · simp [readNumber, hlen] at h
      · simp only [readNumber, if_neg hlen, Fallible.pure_eq_ok, Except.ok.injEq,
          Prod.mk.injEq] at h
        obtain ⟨rfl, rfl⟩ := h
        have htake : (tail.take (octetsAfter first)).length = octetsAfter first := by
          simp; omega
        have hbound := toNat_lt (tail.take (octetsAfter first))
        rw [htake] at hbound
        have hoctets : octetsAfter first = 2 ∨ octetsAfter first = 4 ∨ octetsAfter first = 8 := by
          rw [hsize]; split_ifs <;> simp
        refine ⟨.after hoctets hbound, ?_⟩
        rw [varNumberIn, leadOctet_octetsAfter hge]
        have hback := ofNat_toNat (tail.take (octetsAfter first))
        rw [htake] at hback
        rw [hback, List.cons_append, List.take_append_drop]

theorem FitsIn.lt (h : FitsIn octets number) : number < 2 ^ 64 := by
  cases h with
  | first h => omega
  | after hoctets h => rcases hoctets with rfl | rfl | rfl <;> omega

theorem FitsIn.sizeOfVarNumber_le (h : FitsIn octets number) :
    sizeOfVarNumber number ≤ octets + 1 := by
  unfold sizeOfVarNumber
  cases h with
  | first h => rw [if_pos h]
  | after hoctets h => rcases hoctets with rfl | rfl | rfl <;> split_ifs <;> omega

section

variable (h : readVarNumber bytes = .ok (number, rest))

include h

theorem readVarNumber_split :
    ∃ front, bytes = front ++ rest ∧ front ≠ [] ∧
      ∀ rest', readVarNumber (front ++ rest') = .ok (number, rest') := by
  obtain ⟨hfits, hbytes⟩ := varNumberIn_of_readVarNumber h
  exact ⟨_, hbytes, by simp [varNumberIn], readVarNumber_varNumberIn hfits⟩

theorem readVarNumber_lt : number < 2 ^ 64 :=
  (varNumberIn_of_readVarNumber h).1.lt

theorem sizeOfVarNumber_add_le : sizeOfVarNumber number + rest.length ≤ bytes.length := by
  obtain ⟨hfits, hbytes⟩ := varNumberIn_of_readVarNumber h
  have hsize := hfits.sizeOfVarNumber_le
  rw [hbytes, List.length_append, length_varNumberIn]
  omega

end

theorem readType_split {type : ℕ} (h : readType bytes = .ok (type, rest)) :
    0 < type ∧ type < 2 ^ 32 ∧ ∃ front, bytes = front ++ rest ∧ front ≠ [] ∧
      ∀ rest', readType (front ++ rest') = .ok (type, rest') := by
  unfold readType at h
  obtain ⟨⟨t, r⟩, hread, h⟩ := bind_eq_ok_iff.mp h
  dsimp only at h
  split at h
  next => cases h
  next hok =>
    cases h
    obtain ⟨front, hf, hne, hany⟩ := readVarNumber_split hread
    refine ⟨?_, ?_, front, hf, hne, fun rest' => ?_⟩
    · exact Nat.pos_of_ne_zero fun h0 => hok (.inl h0)
    · exact Nat.lt_of_not_le fun hle => hok (.inr hle)
    · rw [readType, hany rest', ok_bind]
      exact if_neg hok

end NdnFc.Tlv
