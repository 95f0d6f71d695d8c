import NdnFc.Lib.OrderedList
import NdnFc.Tlv.Block

/-!
# NDNLPv2 packets

An LpPacket element (`ndn-cxx/lp/packet.cpp`) has its fields as sub-elements, in a fixed order of
locations and TLV-TYPEs. A packet carries the proofs of this order and that only repeatable fields
are repeated. Field declarations (`ndn-cxx/lp/field-decl.hpp`, `fields.hpp`) say how values are
encoded; those for link fragmentation are given, the others only by their traits.
-/

namespace NdnFc

open BigEndian List

namespace Lp

/-! ### TLV-TYPEs and fields -/

abbrev lpPacket : ℕ := 100
abbrev fragment : ℕ := 80
abbrev sequence : ℕ := 81
abbrev fragIndex : ℕ := 82
abbrev fragCount : ℕ := 83
abbrev pitToken : ℕ := 98
abbrev nack : ℕ := 800
abbrev nextHopFaceId : ℕ := 816
abbrev incomingFaceId : ℕ := 817
abbrev cachePolicy : ℕ := 820
abbrev congestionMark : ℕ := 832
abbrev ack : ℕ := 836
abbrev txSequence : ℕ := 840
abbrev nonDiscovery : ℕ := 844
abbrev prefixAnnouncement : ℕ := 848

/-- Where a field stands in a packet. -/
inductive FieldLocation where
  | header
  | fragment
deriving DecidableEq

/-- `getLocationSortOrder` -/
def FieldLocation.sortOrder : FieldLocation → ℕ
  | header => 1
  | fragment => 2

/-- The static members of a field declaration. -/
structure FieldTraits where
  location : FieldLocation
  tlvType : ℕ
  isRepeatable : Bool
deriving DecidableEq

def fieldSet : List FieldTraits :=
  [⟨.fragment, fragment, false⟩, ⟨.header, sequence, false⟩, ⟨.header, fragIndex, false⟩,
    ⟨.header, fragCount, false⟩, ⟨.header, pitToken, false⟩, ⟨.header, nack, false⟩,
    ⟨.header, nextHopFaceId, false⟩, ⟨.header, incomingFaceId, false⟩,
    ⟨.header, cachePolicy, false⟩, ⟨.header, congestionMark, false⟩, ⟨.header, ack, true⟩,
    ⟨.header, txSequence, false⟩, ⟨.header, nonDiscovery, false⟩,
    ⟨.header, prefixAnnouncement, false⟩]

/-- The parts of `FieldInfo` that are read from the field set. A type that is not in the set counts
as a header that cannot be repeated. -/
def fieldInfo (type : ℕ) : FieldTraits :=
  (fieldSet.find? fun traits => traits.tlvType == type).getD ⟨.header, type, false⟩

theorem fieldInfo_of_mem {traits : FieldTraits} (h : traits ∈ fieldSet) :
    fieldInfo traits.tlvType = traits := by
  revert traits
  decide

theorem mem_fieldSet_bounds {traits : FieldTraits} (h : traits ∈ fieldSet) :
    0 < traits.tlvType ∧ traits.tlvType < 2 ^ 32 := by
  revert traits
  decide

/-- The order of fields, `compareFieldSortOrder`. -/
def compareFieldSortOrder (a b : Block) : Ordering :=
  compareLex (compareOn fun b => (fieldInfo b.type).location.sortOrder)
    (compareOn fun b => b.type) a b

instance : Std.TransCmp compareFieldSortOrder :=
  inferInstanceAs (Std.TransCmp (compareLex _ _))

/-- `FieldDecl`: the traits of a field, the encoding of its value and the decoder of its element. -/
structure FieldDecl (V : Type) extends FieldTraits where
  mem_fieldSet : toFieldTraits ∈ fieldSet
  encode : V → Bytes
  decode : Block → Except String V

/-- A field whose value is a 64-bit integer in eight bytes. -/
def decodeUInt64 (wire : Block) : Except String UInt64 :=
  if wire.value.length = 8 then .ok (UInt64.ofNat (toNat wire.value))
  else .error ("NDNLP field of TLV-TYPE " ++ toString wire.type ++ " must contain a 64-bit integer")

/-- A field whose value is a byte range. -/
def decodeRange (wire : Block) : Except String Bytes :=
  if wire.value = [] then
    .error ("NDNLP field of TLV-TYPE " ++ toString wire.type ++ " cannot be empty")
  else .ok wire.value

def sequenceField : FieldDecl UInt64 :=
  ⟨⟨.header, sequence, false⟩, by decide, fun n => ofNat 8 n.toNat, decodeUInt64⟩

def fragIndexField : FieldDecl ℕ :=
  ⟨⟨.header, fragIndex, false⟩, by decide, Tlv.writeNonNegativeInteger,
    Block.readNonNegativeInteger⟩

def fragCountField : FieldDecl ℕ :=
  ⟨⟨.header, fragCount, false⟩, by decide, Tlv.writeNonNegativeInteger,
    Block.readNonNegativeInteger⟩

def fragmentField : FieldDecl Bytes :=
  ⟨⟨.fragment, fragment, false⟩, by decide, id, decodeRange⟩

namespace FieldDecl

variable {V : Type}

/-- The element that a field declaration makes for a value. -/
def element (f : FieldDecl V) (value : V) (h : (f.encode value).length < 2 ^ 64) : Block :=
  Block.make f.tlvType (f.encode value) (mem_fieldSet_bounds f.mem_fieldSet).1
    (mem_fieldSet_bounds f.mem_fieldSet).2 h

/-- The value can be encoded and decodes to itself. -/
def RoundTrips (f : FieldDecl V) (value : V) : Prop :=
  ∃ h : (f.encode value).length < 2 ^ 64, f.decode (f.element value h) = .ok value

end FieldDecl

theorem roundTrips_sequence (n : UInt64) : sequenceField.RoundTrips n := by
  have hlen : (ofNat 8 n.toNat).length = 8 := length_ofNat 8 n.toNat
  have hlt : (sequenceField.encode n).length < 2 ^ 64 := hlen.trans_lt (by decide)
  refine ⟨hlt, ?_⟩
  have hdecode : decodeUInt64 (sequenceField.element n hlt) =
      .ok (UInt64.ofNat (toNat (ofNat 8 n.toNat))) :=
    if_pos hlen
  rw [toNat_ofNat_of_lt n.toNat_lt, UInt64.ofNat_toNat] at hdecode
  exact hdecode

theorem length_writeNonNegativeInteger_lt (n : ℕ) :
    (Tlv.writeNonNegativeInteger n).length < 2 ^ 64 :=
  (Tlv.length_writeNonNegativeInteger_le n).trans_lt (by decide)

theorem roundTrips_fragIndex {n : ℕ} (h : n < 2 ^ 64) : fragIndexField.RoundTrips n :=
  ⟨length_writeNonNegativeInteger_lt n, Tlv.readNonNegativeInteger_write h⟩

theorem roundTrips_fragCount {n : ℕ} (h : n < 2 ^ 64) : fragCountField.RoundTrips n :=
  ⟨length_writeNonNegativeInteger_lt n, Tlv.readNonNegativeInteger_write h⟩

theorem roundTrips_fragment {bytes : Bytes} (hne : bytes ≠ []) (hlt : bytes.length < 2 ^ 64) :
    fragmentField.RoundTrips bytes :=
  ⟨hlt, if_neg hne⟩

/-! ### Packets -/

/-- `lp::Packet`: its fields, and the encoding it was decoded from as long as no field was
changed. -/
structure Packet where
  elements : List Block
  wire : Option Block
  ordered : OrderedList.Ordered compareFieldSortOrder elements
  noRepeat : elements.Pairwise fun a b => a.type = b.type → (fieldInfo a.type).isRepeatable = true
  parse_wire : ∀ b ∈ wire, b.type = lpPacket ∧ Block.parse b.value = .ok elements

namespace Packet

variable {p : Packet} {f : FieldDecl V} {value : V}

@[ext]
theorem ext {q : Packet} (he : p.elements = q.elements) (hw : p.wire = q.wire) : p = q := by
  cases p; cases q; cases he; cases hw; rfl

instance : DecidableEq Packet := fun p q =>
  decidable_of_iff (p.elements = q.elements ∧ p.wire = q.wire)
    ⟨fun h => ext h.1 h.2, fun h => by simp [h]⟩

def empty : Packet where
  elements := []
  wire := none
  ordered := .nil
  noRepeat := .nil
  parse_wire := by simp

def elementsOf (type : ℕ) (p : Packet) : List Block :=
  p.elements.filter fun b => b.type == type

variable {V : Type}

def count (f : FieldDecl V) (p : Packet) : ℕ :=
  (p.elementsOf f.tlvType).length

def has (f : FieldDecl V) (p : Packet) : Bool :=
  0 < p.count f

def get (f : FieldDecl V) (p : Packet) (index : ℕ) : Except String V :=
  match (p.elementsOf f.tlvType)[index]? with
  | some element => f.decode element
  | none => .error "lp::Packet::get: index out of range"

def insert (block : Block) (p : Packet)
    (h : ∀ b ∈ p.elements, b.type = block.type → (fieldInfo block.type).isRepeatable = true) :
    Packet where
  elements := OrderedList.insert compareFieldSortOrder block p.elements
  wire := none
  ordered := p.ordered.insert block
  noRepeat := by
    refine (OrderedList.perm_insert block p.elements).symm.pairwise ?_ ?_
    · exact List.pairwise_cons.mpr ⟨fun b hb he => h b hb he.symm, p.noRepeat⟩
    · intro a b hab he
      exact he ▸ hab he.symm
  parse_wire := by simp

def clear (f : FieldDecl V) (p : Packet) : Packet where
  elements := p.elements.filter fun b => b.type != f.tlvType
  wire := none
  ordered := p.ordered.filter _
  noRepeat := p.noRepeat.filter _
  parse_wire := by simp

theorem has_of_mem {b : Block} (hb : b ∈ p.elements) (ht : b.type = f.tlvType) :
    p.has f = true := by
  have hmem : b ∈ p.elementsOf f.tlvType := mem_filter.mpr ⟨hb, by simpa using ht⟩
  exact decide_eq_true (length_pos_of_mem hmem)

def add (f : FieldDecl V) (value : V) (p : Packet) : Except String Packet :=
  if hf : f.isRepeatable = false ∧ p.has f = true then
    .error "lp::Packet::add: field cannot be repeated"
  else
    match h : Block.makeBinaryBlock f.tlvType (f.encode value) with
    | .error e => .error e
    | .ok block => .ok (p.insert block fun b hb ht => by
        obtain ⟨hpos, hlt⟩ := mem_fieldSet_bounds f.mem_fieldSet
        have htype : block.type = f.tlvType := Block.type_of_ofBytes_encodeElement hpos hlt h
        have hhas : p.has f = true := has_of_mem hb (ht.trans htype)
        rw [htype, fieldInfo_of_mem f.mem_fieldSet]
        simpa [hhas] using hf)

def set (f : FieldDecl V) (value : V) (p : Packet) : Except String Packet :=
  (p.clear f).add f value

/-- `m_wire.encode()`: the element of the whole packet. When it has no encoding, that of its fields is
written anew. -/
def encode (p : Packet) : Except String Block :=
  match p.wire with
  | some wire => .ok wire
  | none => Block.makeBinaryBlock lpPacket ((p.elements.map Block.reencode).flatMap Block.wire)

/-- The network packet of a Fragment that stands alone. The source takes the first sub-element of
the Fragment, of which there is none if the Fragment is empty. -/
def bareNetworkPacket (element : Block) : Except String Block := do
  match ← Block.parse element.value with
  | netPkt :: _ => pure netPkt
  | [] => throw ""

/-- `wireEncode`: a packet with no field but the Fragment is sent as the bare network packet. -/
def wireEncode (p : Packet) : Except String Block :=
  match p.elements with
  | [element] => if element.type = fragment then bareNetworkPacket element else p.encode
  | _ => p.encode

/-! ### Elements of a type after an operation -/

theorem has_eq_false_iff : p.has f = false ↔ p.elementsOf f.tlvType = [] := by
  rw [has, count, decide_eq_false_iff_not, length_pos_iff, not_not]

theorem elementsOf_clear_self (f : FieldDecl V) (p : Packet) :
    (p.clear f).elementsOf f.tlvType = [] := by
  simp [clear, elementsOf, filter_filter]

theorem elementsOf_clear_of_ne {type : ℕ} (h : type ≠ f.tlvType) (p : Packet) :
    (p.clear f).elementsOf type = p.elementsOf type := by
  rw [clear, elementsOf, elementsOf, filter_filter]
  refine filter_congr fun b _ => ?_
  by_cases hb : b.type = type <;> simp [hb, h]

/-- The field occurs once and its value reads back as `value`. -/
def Holds (f : FieldDecl V) (value : V) (p : Packet) : Prop :=
  ∃ b, p.elementsOf f.tlvType = [b] ∧ f.decode b = .ok value

theorem Holds.has_eq_true (h : p.Holds f value) : p.has f = true := by
  obtain ⟨b, hb, -⟩ := h
  rw [has, count, hb]
  rfl

theorem Holds.get_eq_ok (h : p.Holds f value) : p.get f 0 = .ok value := by
  obtain ⟨b, hb, hdecode⟩ := h
  rw [get, hb]
  exact hdecode

theorem Holds.congr {q : Packet} (h : p.Holds f value)
    (hq : q.elementsOf f.tlvType = p.elementsOf f.tlvType) : q.Holds f value := by
  unfold Holds
  rwa [hq]

theorem add_eq_ok (habsent : p.has f = false) (hvalue : f.RoundTrips value) :
    ∃ q, p.add f value = .ok q ∧ q.Holds f value ∧
      ∀ type, type ≠ f.tlvType → q.elementsOf type = p.elementsOf type := by
  obtain ⟨hlt, hdecode⟩ := hvalue
  have hmake : Block.makeBinaryBlock f.tlvType (f.encode value) = .ok (f.element value hlt) :=
    Block.makeBinaryBlock_eq_make _ _ hlt
  unfold add
  rw [dif_neg (by simp [habsent])]
  split
  next e he => rw [hmake] at he; cases he
  next block hblock =>
    obtain rfl : f.element value hlt = block := by
      rw [hmake] at hblock
      exact Except.ok.inj hblock
    refine ⟨_, rfl, ⟨_, ?_, hdecode⟩, fun type ht => ?_⟩
    · exact OrderedList.filter_insert_of_pos (by simp [FieldDecl.element])
        (has_eq_false_iff.mp habsent)
    · exact OrderedList.filter_insert_of_neg (by simpa [FieldDecl.element] using ht.symm)

theorem set_eq_ok (p : Packet) (hvalue : f.RoundTrips value) :
    ∃ q, p.set f value = .ok q ∧ q.Holds f value ∧
      ∀ type, type ≠ f.tlvType → q.elementsOf type = p.elementsOf type := by
  obtain ⟨q, hq, hself, hother⟩ :=
    add_eq_ok (has_eq_false_iff.mpr (elementsOf_clear_self f p)) hvalue
  exact ⟨q, hq, hself, fun type ht => (hother type ht).trans (elementsOf_clear_of_ne ht p)⟩

end Packet

end Lp

end NdnFc
