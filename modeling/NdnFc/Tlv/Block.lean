import NdnFc.Lib.Framing
import NdnFc.Tlv.Number

/-!
# TLV elements

A `Block` is one TLV element with the bytes of its header as they stand on the wire
(`ndn-cxx/encoding/block.cpp`), and the proof that the header reads back to its type and length. A
block made from a type and a value has the minimal header; one cut out of a packet keeps its own.
-/

namespace NdnFc

open List Fallible

namespace Tlv

/-- TLV-TYPE and TLV-LENGTH at the front of a buffer, and what follows them. -/
def readHeader (bytes : Bytes) : Except String (ℕ × ℕ × Bytes) := do
  let (type, rest) ← readType bytes
  let (length, rest) ← readVarNumber rest
  pure (type, length, rest)

/-- The minimal header of an element. -/
def encodeHeader (type length : ℕ) : Bytes :=
  writeVarNumber type ++ writeVarNumber length

/-- The minimal encoding of an element (`prependByteArrayBlock`). -/
def encodeElement (type : ℕ) (value : Bytes) : Bytes :=
  encodeHeader type value.length ++ value

theorem readHeader_encodeHeader {type length : ℕ} (hpos : 0 < type) (htype : type < 2 ^ 32)
    (hlength : length < 2 ^ 64) (rest : Bytes) :
    readHeader (encodeHeader type length ++ rest) = .ok (type, length, rest) := by
  rw [encodeHeader, append_assoc, readHeader, readType_writeVarNumber hpos htype,
    ok_bind]
  simp only [readVarNumber_writeVarNumber hlength, ok_bind, pure_eq_ok]

theorem readHeader_split {bytes rest : Bytes} {type length : ℕ}
    (h : readHeader bytes = .ok (type, length, rest)) :
    0 < type ∧ type < 2 ^ 32 ∧ ∃ front, bytes = front ++ rest ∧ front ≠ [] ∧
      ∀ rest', readHeader (front ++ rest') = .ok (type, length, rest') := by
  unfold readHeader at h
  obtain ⟨⟨t, r⟩, ht, h⟩ := bind_eq_ok_iff.mp h
  obtain ⟨⟨l, r'⟩, hl, h⟩ := bind_eq_ok_iff.mp h
  cases h
  obtain ⟨hpos, hlt, front₁, rfl, hne, hany₁⟩ := readType_split ht
  obtain ⟨front₂, rfl, -, hany₂⟩ := readVarNumber_split hl
  refine ⟨hpos, hlt, front₁ ++ front₂, by simp, by simp [hne], fun rest' => ?_⟩
  rw [append_assoc, readHeader, hany₁, ok_bind]
  simp only [hany₂, ok_bind, pure_eq_ok]

theorem data_pos : 0 < data := by decide

theorem data_lt : data < 2 ^ 32 := by decide

theorem genericNameComponent_pos : 0 < genericNameComponent := by decide

theorem genericNameComponent_lt : genericNameComponent < 2 ^ 32 := by decide

theorem applicationParameters_pos : 0 < applicationParameters := by decide

theorem applicationParameters_lt : applicationParameters < 2 ^ 32 := by decide

end Tlv

structure Block where
  type : ℕ
  value : Bytes
  header : Bytes
  readHeader_header : ∀ rest, Tlv.readHeader (header ++ rest) = .ok (type, value.length, rest)

namespace Block

variable {b : Block} {type : ℕ} {value bytes rest : Bytes} {bs : List Block}

@[ext]
theorem ext {a b : Block} (ht : a.type = b.type) (hv : a.value = b.value)
    (hh : a.header = b.header) : a = b := by
  cases a; cases b; cases ht; cases hv; cases hh; rfl

instance : DecidableEq Block := fun a b =>
  decidable_of_iff (a.type = b.type ∧ a.value = b.value ∧ a.header = b.header)
    ⟨fun h => ext h.1 h.2.1 h.2.2, fun h => by simp [h]⟩

def wire (b : Block) : Bytes :=
  b.header ++ b.value

def size (b : Block) : ℕ :=
  b.wire.length

/-- `operator==`: the header bytes are not compared. -/
def equals (a b : Block) : Bool :=
  a.type == b.type && a.value == b.value

theorem type_pos (b : Block) : 0 < b.type :=
  (Tlv.readHeader_split (b.readHeader_header [])).1

theorem type_lt (b : Block) : b.type < 2 ^ 32 :=
  (Tlv.readHeader_split (b.readHeader_header [])).2.1

theorem header_ne_nil (b : Block) : b.header ≠ [] := by
  obtain ⟨-, -, front, hf, hne, -⟩ := Tlv.readHeader_split (b.readHeader_header [])
  rw [append_nil, append_nil] at hf
  rwa [hf]

theorem wire_ne_nil (b : Block) : b.wire ≠ [] := by
  simp [wire, b.header_ne_nil]

theorem length_value_lt (b : Block) : b.value.length < 2 ^ 64 := by
  have h := b.readHeader_header []
  unfold Tlv.readHeader at h
  obtain ⟨⟨type, rest⟩, -, h⟩ := bind_eq_ok_iff.mp h
  obtain ⟨⟨length, rest'⟩, hlength, h⟩ := bind_eq_ok_iff.mp h
  simp only [pure_eq_ok, Except.ok.injEq, Prod.mk.injEq] at h
  rw [← h.2.1]
  exact Tlv.readVarNumber_lt hlength

/-- The element of a type and value, with the minimal header. -/
def make (type : ℕ) (value : Bytes) (hpos : 0 < type) (htype : type < 2 ^ 32)
    (hvalue : value.length < 2 ^ 64) : Block where
  type := type
  value := value
  header := Tlv.encodeHeader type value.length
  readHeader_header := Tlv.readHeader_encodeHeader hpos htype hvalue

section

variable (type : ℕ) (value : Bytes) (hpos : 0 < type) (htype : type < 2 ^ 32)
  (hvalue : value.length < 2 ^ 64)

include hpos htype hvalue

@[simp] theorem type_make : (make type value hpos htype hvalue).type = type := rfl

@[simp] theorem value_make : (make type value hpos htype hvalue).value = value := rfl

@[simp] theorem wire_make :
    (make type value hpos htype hvalue).wire = Tlv.encodeElement type value := rfl

end

/-- The element as `Block::encode` writes it into the buffer of its parent, with the minimal header. -/
def reencode (b : Block) : Block :=
  make b.type b.value b.type_pos b.type_lt b.length_value_lt

theorem size_make (type : ℕ) (value : Bytes) (hpos : 0 < type) (htype : type < 2 ^ 32)
    (hvalue : value.length < 2 ^ 64) :
    (make type value hpos htype hvalue).size =
      Tlv.sizeOfVarNumber type + Tlv.sizeOfVarNumber value.length + value.length := by
  simp [size, Tlv.encodeElement, Tlv.encodeHeader, Tlv.length_writeVarNumber, Nat.add_assoc]

theorem size_reencode (b : Block) :
    b.reencode.size =
      Tlv.sizeOfVarNumber b.type + Tlv.sizeOfVarNumber b.value.length + b.value.length :=
  size_make _ _ _ _ _

theorem exists_readVarNumber (b : Block) : ∃ rest,
    Tlv.readVarNumber b.header = .ok (b.type, rest) ∧
      Tlv.readVarNumber rest = .ok (b.value.length, []) := by
  have h := b.readHeader_header []
  rw [append_nil, Tlv.readHeader] at h
  obtain ⟨⟨type, rest⟩, htype, h⟩ := bind_eq_ok_iff.mp h
  obtain ⟨⟨length, rest'⟩, hlength, h⟩ := bind_eq_ok_iff.mp h
  cases h
  rw [Tlv.readType] at htype
  obtain ⟨⟨number, rest''⟩, hnumber, htype⟩ := bind_eq_ok_iff.mp htype
  dsimp only at htype
  split at htype
  · cases htype
  · cases htype
    exact ⟨_, hnumber, hlength⟩

theorem le_length_header (b : Block) :
    Tlv.sizeOfVarNumber b.type + Tlv.sizeOfVarNumber b.value.length ≤ b.header.length := by
  obtain ⟨rest, htype, hlength⟩ := b.exists_readVarNumber
  have hsize := Tlv.sizeOfVarNumber_add_le htype
  have hsize' := Tlv.sizeOfVarNumber_add_le hlength
  omega

theorem size_reencode_le (b : Block) : b.reencode.size ≤ b.size := by
  have h := b.le_length_header
  rw [size_reencode, size, wire, length_append]
  omega

def makeEmptyBlock (type : ℕ) (hpos : 0 < type) (htype : type < 2 ^ 32) : Block :=
  make type [] hpos htype (by decide)

/-! ### Elements in a buffer -/

/-- `Block(buffer)`: the buffer holds exactly one element. -/
def ofBytes (bytes : Bytes) : Except String Block :=
  if bytes = [] then .error "Buffer is empty"
  else
    match h : Tlv.readHeader bytes with
    | .error e => .error e
    | .ok (type, length, rest) =>
      if hlen : length = rest.length then
        .ok ⟨type, rest, bytes.take (bytes.length - rest.length), by
          obtain ⟨-, -, front, rfl, -, hany⟩ := Tlv.readHeader_split h
          rw [length_append, Nat.add_sub_cancel, take_left' rfl, ← hlen]
          exact hany⟩
      else .error "TLV-LENGTH does not match buffer size"

def makeBinaryBlock (type : ℕ) (value : Bytes) : Except String Block :=
  ofBytes (Tlv.encodeElement type value)

/-- `blockFromValue`: the value is itself one element. -/
def blockFromValue (b : Block) : Except String Block :=
  if b.value = [] then throw "Cannot construct block from empty TLV-VALUE" else ofBytes b.value

/-- `readNonNegativeInteger` of an element. -/
def readNonNegativeInteger (b : Block) : Except String ℕ :=
  Tlv.readNonNegativeInteger b.value

/-- `readNonNegativeIntegerAs`, for an unsigned type with the given greatest value. -/
def readNonNegativeIntegerAs (b : Block) (max : ℕ) : Except String ℕ := do
  let integer ← b.readNonNegativeInteger
  if max < integer then
    throw ("Value in TLV element of type " ++ toString b.type ++ " is too large")
  else pure integer

theorem ofBytes_wire (b : Block) : ofBytes b.wire = .ok b := by
  have hread : Tlv.readHeader b.wire = .ok (b.type, b.value.length, b.value) :=
    b.readHeader_header b.value
  unfold ofBytes
  rw [if_neg b.wire_ne_nil]
  split
  next e he => rw [hread] at he; cases he
  next type length rest h =>
    rw [hread] at h
    cases h
    rw [dif_pos rfl]
    congr 1
    exact ext rfl rfl (by simp [wire])

section

variable (hpos : 0 < type) (htype : type < 2 ^ 32)

include hpos htype

theorem makeBinaryBlock_eq_make (hvalue : value.length < 2 ^ 64) :
    makeBinaryBlock type value = .ok (make type value hpos htype hvalue) :=
  ofBytes_wire (make type value hpos htype hvalue)

theorem length_lt_of_ofBytes_encodeElement (h : ofBytes (Tlv.encodeElement type value) = .ok b) :
    value.length < 2 ^ 64 := by
  unfold ofBytes at h
  split at h
  next => cases h
  next hne =>
    split at h
    next => cases h
    next t length rest hread =>
      split at h
      next hlen =>
        rw [Tlv.encodeElement, Tlv.encodeHeader, append_assoc, Tlv.readHeader,
          Tlv.readType_writeVarNumber hpos htype, ok_bind] at hread
        obtain ⟨⟨l, r⟩, hl, hread⟩ := bind_eq_ok_iff.mp hread
        cases hread
        rw [← Tlv.rest_of_readVarNumber_writeVarNumber hl, ← hlen]
        exact Tlv.readVarNumber_lt hl
      next => cases h

theorem ofBytes_encodeElement_eq_ok_iff :
    ofBytes (Tlv.encodeElement type value) = .ok b ↔
      ∃ h : value.length < 2 ^ 64, b = make type value hpos htype h := by
  constructor
  · intro h
    have hlen := length_lt_of_ofBytes_encodeElement hpos htype h
    rw [show ofBytes _ = _ from makeBinaryBlock_eq_make hpos htype hlen] at h
    cases h
    exact ⟨hlen, rfl⟩
  · rintro ⟨hlen, rfl⟩
    exact makeBinaryBlock_eq_make hpos htype hlen

theorem type_of_ofBytes_encodeElement (h : ofBytes (Tlv.encodeElement type value) = .ok b) :
    b.type = type := by
  obtain ⟨-, rfl⟩ := (ofBytes_encodeElement_eq_ok_iff hpos htype).mp h
  rfl

end

/-! ### Sub-elements -/

/-- The element at the front of a buffer and what follows it. The argument is the text for an element
that is longer than the buffer. -/
def readElement (tooLong : ℕ → String) (bytes : Bytes) : Except String (Block × Bytes) :=
  match h : Tlv.readHeader bytes with
  | .error e => .error e
  | .ok (type, length, rest) =>
    if hlen : rest.length < length then .error (tooLong type)
    else
      .ok (⟨type, rest.take length, bytes.take (bytes.length - rest.length), by
        obtain ⟨-, -, front, rfl, -, hany⟩ := Tlv.readHeader_split h
        have hl : (rest.take length).length = length := by simp; omega
        rw [length_append, Nat.add_sub_cancel, take_left' rfl, hl]
        exact hany⟩, rest.drop length)

/-- The element at the front of a TLV-VALUE, and what follows it. -/
def readSubElement (bytes : Bytes) : Except String (Block × Bytes) :=
  readElement (fun type => "TLV-LENGTH of sub-element of type " ++ toString type ++
    " exceeds TLV-VALUE boundary of parent block") bytes

/-- `Block(buf, bufSize)`: the element at the front of the buffer; bytes after it are ignored. -/
def ofBuffer (bytes : Bytes) : Except String Block := do
  let (block, _) ← readElement (fun _ => "Not enough bytes in the buffer to fully parse TLV") bytes
  pure block

/-- `fromBuffer(buf, bufSize)`: the element at the front of the buffer, if all of it is there. Its
readers fail where those of the constructors throw. -/
def fromBuffer (bytes : Bytes) : Option Block :=
  match readElement (fun _ => "") bytes with
  | .ok (block, _) => some block
  | .error _ => none

/-- The loop of `parse`. The first argument bounds the number of elements. -/
def parseLoop : ℕ → Bytes → Except String (List Block)
  | _, [] => .ok []
  | 0, _ :: _ => .error ""
  | fuel + 1, byte :: bytes => do
    let (element, rest) ← readSubElement (byte :: bytes)
    let elements ← parseLoop fuel rest
    pure (element :: elements)

/-- `parse`: the sub-elements of a TLV-VALUE. An element takes at least one byte, so the bound of
the loop is never reached. -/
def parse (value : Bytes) : Except String (List Block) :=
  parseLoop value.length value

/-- The loop of `parse` when it throws: the elements it leaves in the block. An element that exceeds
the value clears them; a malformed header does not. -/
def parseLeftoverLoop : ℕ → Bytes → List Block → List Block
  | _, [], elements => elements
  | 0, _ :: _, elements => elements
  | fuel + 1, byte :: bytes, elements =>
    match Tlv.readHeader (byte :: bytes), readSubElement (byte :: bytes) with
    | .error _, _ => elements
    | .ok _, .error _ => []
    | .ok _, .ok (element, rest) => parseLeftoverLoop fuel rest (elements ++ [element])

/-- The sub-elements that a block holds after its `parse` has thrown. -/
def parseLeftover (value : Bytes) : List Block :=
  parseLeftoverLoop value.length value []

theorem readElement_wire_append (tooLong : ℕ → String) (b : Block) (rest : Bytes) :
    readElement tooLong (b.wire ++ rest) = .ok (b, rest) := by
  have hread : Tlv.readHeader (b.wire ++ rest) = .ok (b.type, b.value.length, b.value ++ rest) := by
    rw [wire, append_assoc]
    exact b.readHeader_header _
  unfold readElement
  split
  next e he => rw [hread] at he; cases he
  next type length rest' h =>
    rw [hread] at h
    cases h
    have hlen : ¬ (b.value ++ rest).length < b.value.length := by simp
    rw [dif_neg hlen]
    congr 2
    · refine ext rfl ?_ ?_ <;> simp [wire]
    · simp

theorem readSubElement_wire_append (b : Block) (rest : Bytes) :
    readSubElement (b.wire ++ rest) = .ok (b, rest) :=
  readElement_wire_append _ b rest

theorem ofBuffer_wire (b : Block) : ofBuffer b.wire = .ok b := by
  have hread := readElement_wire_append (fun _ => "Not enough bytes in the buffer to fully parse TLV")
    b []
  rw [append_nil] at hread
  rw [ofBuffer, hread]
  rfl

theorem wire_append_of_readElement {tooLong : ℕ → String}
    (h : readElement tooLong bytes = .ok (b, rest)) : b.wire ++ rest = bytes := by
  unfold readElement at h
  split at h
  next => cases h
  next type length rest' hread =>
    split at h
    next => cases h
    next hlen =>
      cases h
      obtain ⟨-, -, front, rfl, -, -⟩ := Tlv.readHeader_split hread
      simp [wire]

theorem wire_append_of_readSubElement (h : readSubElement bytes = .ok (b, rest)) :
    b.wire ++ rest = bytes :=
  wire_append_of_readElement h

theorem fromBuffer_eq_some_iff : fromBuffer bytes = some b ↔ b.wire <+: bytes := by
  unfold fromBuffer
  constructor
  · intro h
    split at h
    next block rest hread =>
      cases h
      exact ⟨rest, wire_append_of_readElement hread⟩
    next => cases h
  · rintro ⟨rest, rfl⟩
    rw [readElement_wire_append]

theorem eq_of_isPrefix {a : Block} (h : a.wire <+: b.wire) : a = b := by
  have hself : fromBuffer b.wire = some b := fromBuffer_eq_some_iff.mpr prefix_rfl
  exact Option.some.inj ((fromBuffer_eq_some_iff.mpr h).symm.trans hself)

/-- TLV elements as a stream format. -/
def framing : Framing UInt8 Block where
  wire := wire
  read bytes := (fromBuffer bytes).map fun b => (b, bytes.drop b.size)
  read_eq_some_iff := by
    intro bytes b rest
    simp only [Option.map_eq_some_iff, fromBuffer_eq_some_iff, Prod.mk.injEq]
    constructor
    · rintro ⟨b, ⟨rest, rfl⟩, rfl, rfl⟩
      simp [size]
    · rintro rfl
      exact ⟨b, prefix_append _ _, rfl, by simp [size]⟩
  wire_ne_nil := wire_ne_nil

theorem read_framing (bytes : Bytes) :
    framing.read bytes = (fromBuffer bytes).map fun b => (b, bytes.drop b.size) := rfl

theorem size_pos (b : Block) : 0 < b.size :=
  length_pos_iff.mpr b.wire_ne_nil

theorem fromBuffer_of_splits_nil (h : framing.Splits bytes [] rest) : fromBuffer bytes = none := by
  simpa [read_framing] using (Framing.splits_nil_iff.mp h).2

theorem fromBuffer_of_splits_cons (h : framing.Splits bytes (b :: bs) rest) :
    fromBuffer bytes = some b ∧ framing.Splits (bytes.drop b.size) bs rest ∧
      b.size ≤ bytes.length := by
  have hbytes : bytes = b.wire ++ (bs.flatMap wire ++ rest) := by
    rw [← append_assoc]
    exact h.1
  refine ⟨?_, ⟨?_, h.2⟩, ?_⟩
  · rw [fromBuffer_eq_some_iff, hbytes]
    exact prefix_append _ _
  · rw [hbytes]
    exact drop_left
  · rw [hbytes, length_append]
    exact Nat.le_add_right _ _

theorem parseLoop_flatMap_wire (bs : List Block) {fuel : ℕ} (h : bs.length ≤ fuel) :
    parseLoop fuel (bs.flatMap wire) = .ok bs := by
  induction bs generalizing fuel with
  | nil => cases fuel <;> rfl
  | cons b bs ih =>
    obtain ⟨fuel, rfl⟩ : ∃ f, fuel = f + 1 := ⟨fuel - 1, by simp at h; omega⟩
    obtain ⟨byte, bytes, hb⟩ := exists_cons_of_ne_nil b.wire_ne_nil
    have hread := readSubElement_wire_append b (bs.flatMap wire)
    rw [flatMap_cons]
    rw [hb, cons_append] at hread ⊢
    rw [parseLoop, hread, ok_bind]
    simp only [ih (by simpa using h), ok_bind, pure_eq_ok]

theorem length_le_length_flatMap_wire (bs : List Block) : bs.length ≤ (bs.flatMap wire).length := by
  induction bs with
  | nil => simp
  | cons b bs ih =>
    have := length_pos_iff.mpr b.wire_ne_nil
    simp only [length_cons, flatMap_cons, length_append]
    omega

theorem parse_flatMap_wire (bs : List Block) : parse (bs.flatMap wire) = .ok bs :=
  parseLoop_flatMap_wire bs (length_le_length_flatMap_wire bs)

theorem parse_flatMap_encode {α : Type*} {l : List α} {encode : α → Bytes} {P : α → Block → Prop}
    (h : ∀ a ∈ l, ∃ b : Block, b.wire = encode a ∧ P a b) :
    ∃ bs, parse (l.flatMap encode) = .ok bs ∧ List.Forall₂ P l bs := by
  suffices ∃ bs : List Block, bs.flatMap wire = l.flatMap encode ∧ List.Forall₂ P l bs by
    obtain ⟨bs, hbs, hP⟩ := this
    exact ⟨bs, by rw [← hbs, parse_flatMap_wire], hP⟩
  induction l with
  | nil => exact ⟨[], rfl, .nil⟩
  | cons a l ih =>
    obtain ⟨b, hb, hP⟩ := h a mem_cons_self
    obtain ⟨bs, hbs, hPs⟩ := ih fun a' ha' => h a' (mem_cons_of_mem a ha')
    exact ⟨b :: bs, by rw [flatMap_cons, flatMap_cons, hb, hbs], .cons hP hPs⟩

theorem flatMap_wire_of_parseLoop {fuel : ℕ} (h : parseLoop fuel bytes = .ok bs) :
    bs.flatMap wire = bytes := by
  induction fuel generalizing bytes bs with
  | zero => cases bytes <;> simp_all [parseLoop]
  | succ fuel ih =>
    cases bytes with
    | nil => simp_all [parseLoop]
    | cons byte bytes =>
      rw [parseLoop] at h
      obtain ⟨⟨b, rest⟩, hread, h⟩ := bind_eq_ok_iff.mp h
      obtain ⟨elements, hrest, h⟩ := bind_eq_ok_iff.mp h
      cases h
      rw [flatMap_cons, ih hrest, wire_append_of_readSubElement hread]

theorem flatMap_wire_of_parse (h : parse bytes = .ok bs) : bs.flatMap wire = bytes :=
  flatMap_wire_of_parseLoop h

/-! ### Calls of `parse` on one block -/

/-- A call of `parse` on a block that holds the given sub-elements: its result, and the sub-elements
afterwards. -/
def parseElements (value : Bytes) (elements : List Block) : Except String Unit × List Block :=
  if elements ≠ [] ∨ value = [] then (.ok (), elements)
  else
    match parse value with
    | .ok elements => (.ok (), elements)
    | .error e => (.error e, parseLeftover value)

/-- The first call finds sub-elements that make up the value; or it throws and leaves none, and a
second call throws too. -/
def ParsesAllOrNothing (value : Bytes) : Prop :=
  let (result, elements) := parseElements value []
  result = .ok () ∧ elements.flatMap wire = value ∨
    Raises result ∧ elements = [] ∧ Raises (parseElements value elements).1

theorem readSubElement_ne_ok (h : framing.read rest = none) (found : Block × Bytes) :
    readSubElement rest ≠ .ok found := by
  intro hread
  have hsome := fromBuffer_eq_some_iff.mpr ⟨_, wire_append_of_readSubElement hread⟩
  rw [read_framing, hsome] at h
  cases h

theorem parseLeftoverLoop_eq (hne : rest ≠ []) (hread : framing.read rest = none) {fuel : ℕ}
    (hfuel : bs.length < fuel) (elements : List Block) :
    parseLeftoverLoop fuel (bs.flatMap wire ++ rest) elements =
      match Tlv.readHeader rest with
      | .error _ => elements ++ bs
      | .ok _ => [] := by
  induction fuel generalizing bs elements with
  | zero => exact absurd hfuel (Nat.not_lt_zero _)
  | succ fuel ih =>
    cases bs with
    | nil =>
      obtain ⟨byte, bytes, rfl⟩ := exists_cons_of_ne_nil hne
      rw [flatMap_nil, nil_append, append_nil, parseLeftoverLoop]
      cases hheader : Tlv.readHeader (byte :: bytes) with
      | error => rfl
      | ok header =>
        cases hsub : readSubElement (byte :: bytes) with
        | error => rfl
        | ok found => exact absurd hsub (readSubElement_ne_ok hread found)
    | cons b bs =>
      obtain ⟨byte, bytes, hbytes⟩ := exists_cons_of_ne_nil b.wire_ne_nil
      have hheader := b.readHeader_header (b.value ++ (bs.flatMap wire ++ rest))
      have hsub := readSubElement_wire_append b (bs.flatMap wire ++ rest)
      rw [← append_assoc, ← wire, hbytes, cons_append] at hheader
      rw [hbytes, cons_append] at hsub
      rw [flatMap_cons, append_assoc, hbytes, cons_append, parseLeftoverLoop, hheader, hsub]
      dsimp only
      rw [ih (Nat.lt_of_succ_lt_succ hfuel), append_assoc, singleton_append]

theorem parseElements_nil (value : Bytes) : parseElements value [] =
    match parse value with
    | .ok elements => (.ok (), elements)
    | .error e => (.error e, parseLeftover value) := by
  cases value with
  | nil => rfl
  | cons byte bytes => exact if_neg (by simp)

theorem parseLeftover_eq_nil_iff (h : framing.Splits bytes bs rest) (hne : rest ≠ []) :
    parseLeftover bytes = [] ↔ bs = [] ∨ ∃ header, Tlv.readHeader rest = .ok header := by
  have hbytes : bytes = bs.flatMap wire ++ rest := h.1
  have hfuel : bs.length < bytes.length := by
    have hpos := length_pos_of_ne_nil hne
    have hle := length_le_length_flatMap_wire bs
    rw [hbytes, length_append]
    omega
  rw [parseLeftover, show parseLeftoverLoop bytes.length bytes [] = _ by
    nth_rewrite 2 [hbytes]
    exact parseLeftoverLoop_eq hne h.2 hfuel []]
  cases Tlv.readHeader rest <;> simp

/-- Parsing is all or nothing exactly when the complete elements at the front of the value are none
or all of it, or what follows them begins with a well-formed type and length. -/
theorem parsesAllOrNothing_iff (value : Bytes) :
    ParsesAllOrNothing value ↔ ∀ elements rest, framing.Splits value elements rest →
      elements = [] ∨ rest = [] ∨ ∃ header, Tlv.readHeader rest = .ok header := by
  rw [ParsesAllOrNothing, parseElements_nil]
  cases hparse : parse value with
  | ok elements =>
    have hvalue : elements.flatMap wire = value := flatMap_wire_of_parse hparse
    have hsplits : framing.Splits value elements [] :=
      ⟨by rw [append_nil]; exact hvalue.symm, framing.read_nil⟩
    exact iff_of_true (.inl ⟨rfl, hvalue⟩) fun _ rest h => .inr (.inl (h.unique hsplits).2)
  | error e =>
    have hne : ∀ {elements rest}, framing.Splits value elements rest → rest ≠ [] := by
      rintro elements rest h rfl
      have hvalue : value = elements.flatMap wire := by rw [h.1, append_nil]; rfl
      rw [hvalue, parse_flatMap_wire] at hparse
      cases hparse
    constructor
    · rintro (⟨h, -⟩ | ⟨-, hnil, -⟩) elements rest hsplits
      · cases h
      · exact ((parseLeftover_eq_nil_iff hsplits (hne hsplits)).mp hnil).imp_right .inr
    · intro h
      obtain ⟨elements, rest, hsplits⟩ := framing.exists_splits value
      have hnil : parseLeftover value = [] := (parseLeftover_eq_nil_iff hsplits (hne hsplits)).mpr
        ((h elements rest hsplits).imp_right fun h => h.resolve_left (hne hsplits))
      refine .inr ⟨raises_error e, hnil, ?_⟩
      rw [hnil, parseElements_nil, hparse]
      exact raises_error e

theorem not_parsesAllOrNothing : ¬ ParsesAllOrNothing [8, 0, 253] := by
  rintro (⟨h, -⟩ | ⟨-, h, -⟩)
  · cases h
  · exact absurd h (by decide)

end Block

/-- A block handed to a packet decoder: an element with its encoding, or a type with sub-elements
that have not been encoded together. -/
inductive PacketBlock where
  | encoded (block : Block)
  | unencoded (type : ℕ) (elements : List Block)
deriving DecidableEq

namespace PacketBlock

def type : PacketBlock → ℕ
  | encoded block => block.type
  | unencoded type _ => type

def parse : PacketBlock → Except String (List Block)
  | encoded block => Block.parse block.value
  | unencoded _ elements => .ok elements

/-- The encoding, when `hasWire` holds. -/
def wire : PacketBlock → Option Block
  | encoded block => some block
  | unencoded _ _ => none

end PacketBlock

end NdnFc
