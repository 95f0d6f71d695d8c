import NdnFc.Packet.DataRoundTrip
import NdnFc.Packet.SignatureInfoCodec

/-!
# Equality of Data packets

`operator==` compares two `Data` objects field by field (`ndn-cxx/data.cpp`), without the Function
and with blocks by type and value. It is compared with the equality of encodings, for signed packets
built with the setters.
-/

namespace NdnFc

open List

namespace Block

/-- The comparison of blocks that may be invalid. -/
def equalsOption : Option Block → Option Block → Bool
  | none, none => true
  | some a, some b => a.equals b
  | _, _ => false

theorem equals_refl (a : Block) : a.equals a := by
  simp [equals]

theorem equalsOption_refl (a : Option Block) : equalsOption a a := by
  cases a with
  | none => rfl
  | some a => exact a.equals_refl

theorem flatMap_wire_inj {bs bs' : List Block} (h : bs.flatMap wire = bs'.flatMap wire) :
    bs = bs' := by
  have hparse := parse_flatMap_wire bs
  rw [h, parse_flatMap_wire] at hparse
  exact (Except.ok.inj hparse).symm

theorem wire_inj {a b : Block} (h : a.wire = b.wire) : a = b :=
  eq_of_isPrefix (h ▸ prefix_rfl)

theorem eq_of_encodeElement_eq {type : ℕ} {value value' : Bytes} (hpos : 0 < type)
    (htype : type < 2 ^ 32) (hlen : (Tlv.encodeElement type value).length < 2 ^ 64)
    (h : Tlv.encodeElement type value = Tlv.encodeElement type value') : value = value' := by
  have hlen' := h ▸ hlen
  simp only [Tlv.encodeElement, length_append] at hlen hlen'
  have hmake : make type value hpos htype (by omega) = make type value' hpos htype (by omega) :=
    wire_inj h
  exact congrArg Block.value hmake

end Block

namespace Name

theorem eq_of_wireEncode_eq {name name' : Name} (h : name.wireEncode = name'.wireEncode)
    (hlen : name.wireEncode.length < 2 ^ 64) : name = name' := by
  have hlen' : name'.wireEncode.length < 2 ^ 64 := h ▸ hlen
  simp only [wireEncode, Tlv.encodeElement, length_append] at hlen hlen'
  have hblock : name.toBlock (by omega) = name'.toBlock (by omega) := Block.wire_inj h
  have hname := ofBlock_toBlock name (by omega)
  rw [hblock, ofBlock_toBlock] at hname
  exact (Except.ok.inj hname).symm

end Name

namespace KeyLocator

theorem equals_refl (locator : KeyLocator) : locator.equals locator := by
  cases locator <;> simp [equals, Block.equals_refl]

theorem eq_of_wireEncode_eq {locator locator' : KeyLocator} {block : Block}
    (hc : locator.Constructible) (hc' : locator'.Constructible)
    (h : locator.wireEncode = .ok block.wire) (h' : locator'.wireEncode = .ok block.wire)
    (hlen : block.wire.length < 2 ^ 64) : locator = locator' := by
  have hread : ∀ {l : KeyLocator}, l.Constructible → l.wireEncode = .ok block.wire →
      ofBlock block = .ok l := by
    intro l hl hencode
    have hsupported := hl.isSupported hencode
    rw [wireEncode_of_isSupported hsupported] at hencode
    have hvalue : l.encodeValue.length < 2 ^ 64 := by
      rw [← Except.ok.inj hencode, Tlv.encodeElement, length_append] at hlen
      omega
    have hblock : l.toBlock hvalue = block := Block.wire_inj (Except.ok.inj hencode)
    rw [← hblock]
    exact ofBlock_toBlock hsupported hvalue
  have heq := hread hc h
  rw [hread hc' h'] at heq
  exact (Except.ok.inj heq).symm

end KeyLocator

namespace SignatureInfo

/-- `operator==`: signature type, key locator and the additional elements. -/
def equals (s t : SignatureInfo) : Bool :=
  s.type == t.type && equalLocators s.keyLocator t.keyLocator &&
    s.otherTlvs.isEqv t.otherTlvs Block.equals

theorem equalLocators_refl (locator : Option KeyLocator) : equalLocators locator locator := by
  cases locator with
  | none => rfl
  | some locator => exact locator.equals_refl

theorem isEqv_refl (blocks : List Block) : blocks.isEqv blocks Block.equals := by
  induction blocks with
  | nil => rfl
  | cons block blocks ih => rw [isEqv, block.equals_refl, ih]; rfl

theorem typeBlock_inj {type type' : UInt16} (h : typeBlock type = typeBlock type') :
    type = type' := by
  have hvalue : Tlv.writeNonNegativeInteger type.toNat = Tlv.writeNonNegativeInteger type'.toNat :=
    congrArg Block.value h
  have hlt : ∀ t : UInt16, t.toNat < 2 ^ 64 := fun t => t.toNat_lt.trans (by decide)
  have hread := Tlv.readNonNegativeInteger_write (hlt type)
  rw [hvalue, Tlv.readNonNegativeInteger_write (hlt type')] at hread
  exact UInt16.toNat_inj.mp (Except.ok.inj hread).symm

/-- The elements between the signature type and the additional ones: that of the locator. -/
inductive LocatorBlocks : Option KeyLocator → List Block → Prop
  | absent : LocatorBlocks none []
  | present {locator : KeyLocator} {block : Block} (h : locator.wireEncode = .ok block.wire) :
    LocatorBlocks (some locator) [block]

theorem exists_elements_of_encode_eq_ok {s : SignatureInfo} {kind : Kind} {bytes : Bytes}
    (hconstructible : ∀ locator, s.keyLocator = some locator → locator.Constructible)
    (h : s.encode kind = .ok bytes) (hlen : bytes.length < 2 ^ 64) :
    ∃ type locators, s.type = some type ∧ LocatorBlocks s.keyLocator locators ∧
      bytes = Tlv.encodeElement kind.tlvType
        ((typeBlock type :: (locators ++ s.otherTlvs)).flatMap Block.wire) := by
  unfold encode at h
  split at h
  · cases h
  next type htype =>
    obtain ⟨locatorBytes, hlocator, h⟩ := Fallible.bind_eq_ok_iff.mp h
    cases h
    cases hnone : s.keyLocator with
    | none =>
      rw [hnone] at hlocator
      cases hlocator
      exact ⟨type, [], htype, .absent, by simp [typeBlock]⟩
    | some locator =>
      rw [hnone] at hlocator
      have hencode : locator.wireEncode = .ok locatorBytes := hlocator
      have hsupported := (hconstructible locator hnone).isSupported hencode
      rw [KeyLocator.wireEncode_of_isSupported hsupported] at hencode
      cases hencode
      have hvalue : locator.encodeValue.length < 2 ^ 64 := by
        simp only [Tlv.encodeElement, length_append] at hlen
        omega
      exact ⟨type, [locator.toBlock hvalue], htype, .present hlocator,
        by simp [typeBlock, KeyLocator.toBlock]⟩

/-- The locator of the first is encoded like the first additional element of the second, which has
no locator. -/
def MistakesLocator (s t : SignatureInfo) : Prop :=
  ∃ locator block, s.keyLocator = some locator ∧ t.keyLocator = none ∧
    locator.wireEncode = .ok block.wire ∧ t.otherTlvs = block :: s.otherTlvs

theorem LocatorBlocks.append_eq_iff {s t : SignatureInfo} {locators locators' : List Block}
    (hs : ∀ locator, s.keyLocator = some locator → locator.Constructible)
    (ht : ∀ locator, t.keyLocator = some locator → locator.Constructible)
    (h : LocatorBlocks s.keyLocator locators) (h' : LocatorBlocks t.keyLocator locators')
    (hlen : ∀ block ∈ locators, block.wire.length < 2 ^ 64) :
    locators ++ s.otherTlvs = locators' ++ t.otherTlvs ↔
      s.keyLocator = t.keyLocator ∧ s.otherTlvs = t.otherTlvs ∨
        MistakesLocator s t ∨ MistakesLocator t s := by
  have hmistakes : ∀ {s t : SignatureInfo} {locator : KeyLocator} {block : Block},
      s.keyLocator = some locator → t.keyLocator = none → locator.wireEncode = .ok block.wire →
      (t.otherTlvs = block :: s.otherTlvs ↔ MistakesLocator s t) := by
    intro s t locator block hs ht hencode
    refine ⟨fun h => ⟨locator, block, hs, ht, hencode, h⟩, ?_⟩
    rintro ⟨locator', block', hs', -, hencode', h⟩
    rw [hs] at hs'
    cases hs'
    rw [hencode] at hencode'
    rw [h, Block.wire_inj (Except.ok.inj hencode')]
  generalize hl : s.keyLocator = l at h
  generalize hl' : t.keyLocator = l' at h'
  cases h with
  | absent =>
    cases h' with
    | absent => simp [MistakesLocator, hl, hl']
    | present hencode =>
      rw [nil_append, singleton_append, hmistakes hl' hl hencode]
      simp [MistakesLocator, hl]
  | present hencode =>
    cases h' with
    | absent =>
      rw [nil_append, singleton_append, eq_comm, hmistakes hl hl' hencode]
      simp [MistakesLocator, hl']
    | @present locator' block' hencode' =>
      have hno : ¬ MistakesLocator s t ∧ ¬ MistakesLocator t s := by
        simp [MistakesLocator, hl, hl']
      simp only [singleton_append, cons.injEq, hno.1, hno.2, or_false, Option.some.injEq]
      refine and_congr_left' ⟨?_, ?_⟩
      · rintro rfl
        exact KeyLocator.eq_of_wireEncode_eq (hs _ hl) (ht _ hl') hencode hencode'
          (hlen _ mem_cons_self)
      · rintro rfl
        rw [hencode] at hencode'
        exact Block.wire_inj (Except.ok.inj hencode')

end SignatureInfo

namespace Data

/-- `operator==`. The encodings of the MetaInfos have the same type. -/
def equals (d e : DataFields) : Bool :=
  d.name == e.name && d.metaInfo.encodeValue == e.metaInfo.encodeValue &&
    Block.equalsOption d.content e.content && d.signatureInfo.equals e.signatureInfo &&
    Block.equalsOption d.signatureValue e.signatureValue

/-- A signed packet and its encoding. The key locator is one that the setters of `KeyLocator` can
make. -/
structure Signed (d : Data) (wire : Block) : Prop where
  signatureValue : d.signatureValue ≠ none
  keyLocator : ∀ locator, d.signatureInfo.keyLocator = some locator → locator.Constructible
  encoded : ∃ d', wireEncode.run d = .ok wire d'
  length_lt : ∀ bytes, encode d.toDataFields = .ok bytes → bytes.length < 2 ^ 64

/-- The elements of the encoding of a packet. -/
structure Parts (d : Data) (wire : Block) where
  name : Block
  function : Block
  metaInfo : Block
  info : Block
  value : Block
  type : UInt16
  locators : List Block
  wire_name : name.wire = d.name.wireEncode
  wire_function : function.wire = d.function.wireEncode
  wire_metaInfo : metaInfo.wire = d.metaInfo.wireEncode
  type_eq : d.signatureInfo.type = some type
  locators_eq : SignatureInfo.LocatorBlocks d.signatureInfo.keyLocator locators
  wire_info : info.wire = Tlv.encodeElement Tlv.signatureInfo
    ((SignatureInfo.typeBlock type :: (locators ++ d.signatureInfo.otherTlvs)).flatMap Block.wire)
  value_eq : d.signatureValue = some value
  length_lt : wire.wire.length < 2 ^ 64
  wire_eq : wire.wire = Tlv.encodeElement Tlv.data
    ((name :: function :: metaInfo :: (d.content.toList ++ [info, value])).flatMap Block.wire)

variable {d : Data} {wire : Block}

theorem Signed.exists_parts (hd : d.wire = none) (h : d.Signed wire) : Nonempty (Parts d wire) := by
  obtain ⟨value, hvalue⟩ := Option.ne_none_iff_exists'.mp h.signatureValue
  obtain ⟨d', hencoded⟩ := h.encoded
  rw [wireEncode, Method.run_get_bind, hd] at hencoded
  obtain ⟨bytes, hbytes, hencoded⟩ := Method.run_ofExcept_bind_eq_ok_iff.mp hencoded
  obtain ⟨wire', hwire, hencoded⟩ := Method.run_ofExcept_bind_eq_ok_iff.mp hencoded
  obtain ⟨_, _, -, hencoded⟩ := Method.run_bind_eq_ok_iff.mp hencoded
  cases hencoded
  have hlen := h.length_lt bytes hbytes
  unfold encode at hbytes
  split at hbytes
  · cases hbytes
  obtain ⟨infoBytes, hinfo, hbytes⟩ := Fallible.bind_eq_ok_iff.mp hbytes
  have hbytes : bytes = Tlv.encodeElement Tlv.data (d.name.wireEncode ++ (d.function.wireEncode ++
      (d.metaInfo.wireEncode ++ (d.content.toList.flatMap Block.wire ++
        (infoBytes ++ value.wire))))) := by
    rw [hvalue, encodeBlock] at hbytes
    cases hbytes
    cases d.content <;> simp
  have hlens : d.name.encodeComponents.length < 2 ^ 64 ∧
      d.function.encodeComponents.length < 2 ^ 64 ∧ d.metaInfo.encodeValue.length < 2 ^ 64 ∧
      infoBytes.length < 2 ^ 64 ∧ (d.name.wireEncode ++ (d.function.wireEncode ++
      (d.metaInfo.wireEncode ++ (d.content.toList.flatMap Block.wire ++
        (infoBytes ++ value.wire))))).length < 2 ^ 64 := by
    simp only [hbytes, Name.wireEncode, MetaInfo.wireEncode, Tlv.encodeElement,
      length_append] at hlen ⊢
    omega
  obtain ⟨hname, hfunction, hmeta, hinfoLen, hall⟩ := hlens
  obtain ⟨type, locators, htype, hlocators, hinfoBytes⟩ :=
    SignatureInfo.exists_elements_of_encode_eq_ok h.keyLocator hinfo hinfoLen
  have hinfoValue : ((SignatureInfo.typeBlock type ::
      (locators ++ d.signatureInfo.otherTlvs)).flatMap Block.wire).length < 2 ^ 64 := by
    rw [hinfoBytes, Tlv.encodeElement, length_append] at hinfoLen
    omega
  have hwire : wire.wire = bytes := by
    rw [hbytes] at hwire ⊢
    have hmake := Block.makeBinaryBlock_eq_make (by decide : 0 < Tlv.data) (by decide) hall
    rw [Block.makeBinaryBlock, hwire] at hmake
    rw [Except.ok.inj hmake]
    rfl
  exact ⟨{
    name := d.name.toBlock hname
    function := d.function.toBlock hfunction
    metaInfo := d.metaInfo.toBlock hmeta
    info := .make Tlv.signatureInfo _ (by decide) (by decide) hinfoValue
    value := value
    type := type
    locators := locators
    wire_name := rfl
    wire_function := rfl
    wire_metaInfo := rfl
    type_eq := htype
    locators_eq := hlocators
    wire_info := rfl
    value_eq := hvalue
    length_lt := hwire ▸ hlen
    wire_eq := by
      rw [hwire, hbytes, hinfoBytes]
      simp only [flatMap_cons, flatMap_append, flatMap_nil, append_nil,
        Name.wire_toBlock]
      rfl }⟩

theorem Parts.length_parts_lt (p : Parts d wire) :
    d.name.wireEncode.length < 2 ^ 64 ∧ d.function.wireEncode.length < 2 ^ 64 ∧
      d.metaInfo.wireEncode.length < 2 ^ 64 ∧ p.info.wire.length < 2 ^ 64 := by
  have hwire := p.length_lt
  rw [p.wire_eq] at hwire
  simp only [Tlv.encodeElement, flatMap_cons, flatMap_append, length_append,
    p.wire_name, p.wire_function, p.wire_metaInfo] at hwire
  omega

theorem Parts.length_locator_lt (p : Parts d wire) (block : Block) (h : block ∈ p.locators) :
    block.wire.length < 2 ^ 64 := by
  have hinfo := p.length_parts_lt.2.2.2
  obtain ⟨front, back, heq⟩ := append_of_mem h
  rw [p.wire_info, heq] at hinfo
  simp only [Tlv.encodeElement, flatMap_cons, flatMap_append, length_append] at hinfo
  omega

/-- The fields outside the locator and the additional elements agree, as far as they are encoded. -/
structure SameElsewhere (d e : DataFields) : Prop where
  name : d.name = e.name
  function : d.function = e.function
  metaInfo : d.metaInfo.encodeValue = e.metaInfo.encodeValue
  content : d.content = e.content
  type : d.signatureInfo.type = e.signatureInfo.type
  signatureValue : d.signatureValue = e.signatureValue

theorem Parts.wire_eq_iff {e : Data} {w v : Block} (p : Parts d w) (q : Parts e v) :
    w.wire = v.wire ↔ SameElsewhere d.toDataFields e.toDataFields ∧
      p.locators ++ d.signatureInfo.otherTlvs = q.locators ++ e.signatureInfo.otherTlvs := by
  constructor
  · intro h
    have hlen := p.length_lt
    rw [p.wire_eq] at hlen h
    rw [q.wire_eq] at h
    have hlist := Block.flatMap_wire_inj
      (Block.eq_of_encodeElement_eq (by decide) (by decide) hlen h)
    simp only [cons.injEq] at hlist
    obtain ⟨hname, hfunction, hmeta, hrest⟩ := hlist
    obtain ⟨hcontent, hinfo, hvalue⟩ : d.content = e.content ∧ p.info = q.info ∧
        p.value = q.value := by
      cases hd : d.content <;> cases he : e.content <;> simp_all
    obtain ⟨hnameLen, hfunctionLen, hmetaLen, hinfoLen⟩ := p.length_parts_lt
    have hwireName := congrArg Block.wire hname
    have hwireFunction := congrArg Block.wire hfunction
    have hwireMeta := congrArg Block.wire hmeta
    have hwireInfo := congrArg Block.wire hinfo
    rw [p.wire_name, q.wire_name] at hwireName
    rw [p.wire_function, q.wire_function] at hwireFunction
    rw [p.wire_metaInfo, q.wire_metaInfo] at hwireMeta
    rw [p.wire_info] at hinfoLen
    rw [p.wire_info, q.wire_info] at hwireInfo
    have helements := Block.flatMap_wire_inj
      (Block.eq_of_encodeElement_eq (by decide) (by decide) hinfoLen hwireInfo)
    obtain ⟨htype, helements⟩ := cons.inj helements
    refine ⟨⟨Name.eq_of_wireEncode_eq hwireName hnameLen,
      Name.eq_of_wireEncode_eq hwireFunction hfunctionLen,
      Block.eq_of_encodeElement_eq (by decide) (by decide) hmetaLen hwireMeta, hcontent, ?_, ?_⟩,
      helements⟩
    · rw [p.type_eq, q.type_eq, SignatureInfo.typeBlock_inj htype]
    · rw [p.value_eq, q.value_eq, hvalue]
  · rintro ⟨h, hlocators⟩
    have hname : p.name = q.name := Block.wire_inj (by rw [p.wire_name, q.wire_name, h.name])
    have hfunction : p.function = q.function :=
      Block.wire_inj (by rw [p.wire_function, q.wire_function, h.function])
    have hmeta : p.metaInfo = q.metaInfo := Block.wire_inj (by
      rw [p.wire_metaInfo, q.wire_metaInfo, MetaInfo.wireEncode, MetaInfo.wireEncode, h.metaInfo])
    have htype : p.type = q.type :=
      Option.some.inj (p.type_eq.symm.trans (h.type.trans q.type_eq))
    have hinfo : p.info = q.info := Block.wire_inj (by
      rw [p.wire_info, q.wire_info, hlocators, htype])
    have hvalue : p.value = q.value :=
      Option.some.inj (p.value_eq.symm.trans (h.signatureValue.trans q.value_eq))
    rw [p.wire_eq, q.wire_eq, hname, hfunction, hmeta, hinfo, hvalue, h.content]

/-- The fields that `operator==` looks at agree, blocks by type and value. -/
structure Compared (d e : DataFields) : Prop where
  name : d.name = e.name
  metaInfo : d.metaInfo.encodeValue = e.metaInfo.encodeValue
  content : Block.equalsOption d.content e.content
  type : d.signatureInfo.type = e.signatureInfo.type
  keyLocator : SignatureInfo.equalLocators d.signatureInfo.keyLocator e.signatureInfo.keyLocator
  otherTlvs : d.signatureInfo.otherTlvs.isEqv e.signatureInfo.otherTlvs Block.equals
  signatureValue : Block.equalsOption d.signatureValue e.signatureValue

theorem equals_iff {d e : DataFields} : equals d e ↔ Compared d e := by
  simp only [equals, SignatureInfo.equals, Bool.and_eq_true, beq_iff_eq]
  constructor
  · rintro ⟨⟨⟨⟨hname, hmeta⟩, hcontent⟩, ⟨htype, hlocator⟩, hother⟩, hvalue⟩
    exact ⟨hname, hmeta, hcontent, htype, hlocator, hother, hvalue⟩
  · intro h
    exact ⟨⟨⟨⟨h.name, h.metaInfo⟩, h.content⟩, ⟨h.type, h.keyLocator⟩, h.otherTlvs⟩,
      h.signatureValue⟩

/-- The Functions agree, and the blocks agree with their headers. -/
structure SameBytes (d e : DataFields) : Prop where
  function : d.function = e.function
  content : d.content = e.content
  keyLocator : d.signatureInfo.keyLocator = e.signatureInfo.keyLocator
  otherTlvs : d.signatureInfo.otherTlvs = e.signatureInfo.otherTlvs
  signatureValue : d.signatureValue = e.signatureValue

/-- One packet has a key locator where the other has an additional element with the same bytes. -/
def Confused (d e : DataFields) : Prop :=
  SameElsewhere d e ∧ (d.signatureInfo.MistakesLocator e.signatureInfo ∨
    e.signatureInfo.MistakesLocator d.signatureInfo)

theorem wire_eq_iff {e : Data} {w v : Block} (hd : d.wire = none) (he : e.wire = none)
    (hw : d.Signed w) (hv : e.Signed v) : w.wire = v.wire ↔
      SameElsewhere d.toDataFields e.toDataFields ∧
          d.signatureInfo.keyLocator = e.signatureInfo.keyLocator ∧
          d.signatureInfo.otherTlvs = e.signatureInfo.otherTlvs ∨
        Confused d.toDataFields e.toDataFields := by
  obtain ⟨p⟩ := hw.exists_parts hd
  obtain ⟨q⟩ := hv.exists_parts he
  rw [p.wire_eq_iff q, SignatureInfo.LocatorBlocks.append_eq_iff hw.keyLocator hv.keyLocator
    p.locators_eq q.locators_eq p.length_locator_lt, Confused, ← and_or_left]

theorem Confused.not_compared {d e : DataFields} (h : Confused d e) : ¬ Compared d e := by
  intro hcompared
  have hlocators := hcompared.keyLocator
  rcases h.2 with ⟨_, _, hd, he, -⟩ | ⟨_, _, he, hd, -⟩
  all_goals
    rw [hd, he] at hlocators
    cases hlocators

/-- For two signed packets built with the setters, `operator==` agrees with equality of the
encodings if and only if packets that agree where it looks have the same Function and the same bytes
in the compared blocks, and no key locator is confused with an additional element. -/
theorem equals_iff_wire_eq_iff [Sha256] {d e : Data} (hd : d.Built) (he : e.Built) {w v : Block}
    (hw : d.Signed w) (hv : e.Signed v) :
    (equals d.toDataFields e.toDataFields ↔ w.wire = v.wire) ↔
      (Compared d.toDataFields e.toDataFields → SameBytes d.toDataFields e.toDataFields) ∧
        ¬ Confused d.toDataFields e.toDataFields := by
  rw [equals_iff, wire_eq_iff hd.wellFormed.wire he.wellFormed.wire hw hv]
  constructor
  · intro h
    refine ⟨fun hcompared => ?_, fun hconfused => hconfused.not_compared (h.mpr (.inr hconfused))⟩
    rcases h.mp hcompared with ⟨hsame, hlocator, hother⟩ | hconfused
    · exact ⟨hsame.function, hsame.content, hlocator, hother, hsame.signatureValue⟩
    · exact absurd hcompared hconfused.not_compared
  · rintro ⟨hbytes, hconfused⟩
    constructor
    · intro h
      have hsame := hbytes h
      exact .inl ⟨⟨h.name, hsame.function, h.metaInfo, hsame.content, h.type,
        hsame.signatureValue⟩, hsame.keyLocator, hsame.otherTlvs⟩
    · rintro (⟨hsame, hlocator, hother⟩ | h)
      · exact ⟨hsame.name, hsame.metaInfo, hsame.content ▸ Block.equalsOption_refl _, hsame.type,
          hlocator ▸ SignatureInfo.equalLocators_refl _, hother ▸ SignatureInfo.isEqv_refl _,
          hsame.signatureValue ▸ Block.equalsOption_refl _⟩
      · exact absurd h hconfused

/-- The packet `/A` with a Function of one component, signed without a key locator. -/
def functionSample (function : Component) : Data :=
  Method.after (setFunction [function]) (signedSample (SignatureInfo.create 0 none))

theorem built_functionSample [Sha256] (function : Component) : (functionSample function).Built := by
  have hcall : (Op.setFunction [function]).call.run (signedSample (SignatureInfo.create 0 none)) =
      .ok () (functionSample function) := rfl
  refine .step (built_signedSample _) ?_ hcall
  trivial

theorem signed_functionSample {function : Component} {d' : Data}
    (hencode : wireEncode.run (functionSample function) = .ok wire d')
    (hlen : (encode (functionSample function).toDataFields).toOption.all fun bytes => decide
      (bytes.length < 2 ^ 64)) : (functionSample function).Signed wire := by
  refine ⟨?_, ?_, ⟨d', hencode⟩, ?_⟩
  · intro h
    cases h
  · intro locator h
    cases h
  · intro bytes hbytes
    rw [hbytes] at hlen
    exact of_decide_eq_true hlen

set_option maxRecDepth 4000 in
/-- Two packets that differ in their Function only are equal for `operator==`. -/
theorem equals_otherFunction : ∃ _ : Sha256, ∃ w v,
    (functionSample (.generic [70])).Built ∧ (functionSample (.generic [71])).Built ∧
    (functionSample (.generic [70])).Signed w ∧ (functionSample (.generic [71])).Signed v ∧
    equals (functionSample (.generic [70])).toDataFields
      (functionSample (.generic [71])).toDataFields ∧ w.wire ≠ v.wire := by
  obtain ⟨w, d', hw⟩ : ∃ w d', wireEncode.run (functionSample (.generic [70])) = .ok w d' :=
    ⟨_, _, rfl⟩
  obtain ⟨v, e', hv⟩ : ∃ v e', wireEncode.run (functionSample (.generic [71])) = .ok v e' :=
    ⟨_, _, rfl⟩
  have hsw := signed_functionSample hw (by decide)
  have hsv := signed_functionSample hv (by decide)
  let _ := Sha256.constant
  refine ⟨Sha256.constant, w, v, built_functionSample _, built_functionSample _, hsw, hsv,
    by decide, fun h => ?_⟩
  rcases (wire_eq_iff rfl rfl hsw hsv).mp h with ⟨hsame, -⟩ | ⟨hsame, -⟩
  all_goals exact absurd hsame.function (by decide)

set_option maxRecDepth 4000 in
/-- A packet equals itself in both comparisons. -/
theorem equals_sameFunction : ∃ w, (functionSample (.generic [70])).Signed w ∧
    (equals (functionSample (.generic [70])).toDataFields
      (functionSample (.generic [70])).toDataFields ↔ w.wire = w.wire) := by
  obtain ⟨w, d', hw⟩ : ∃ w d', wireEncode.run (functionSample (.generic [70])) = .ok w d' :=
    ⟨_, _, rfl⟩
  have hsigned := signed_functionSample hw (by decide)
  let _ := Sha256.constant
  have hbuilt := built_functionSample (.generic [70])
  refine ⟨w, hsigned, (equals_iff_wire_eq_iff hbuilt hbuilt hsigned hsigned).mpr ⟨fun _ => ?_, ?_⟩⟩
  · exact ⟨rfl, rfl, rfl, rfl, rfl⟩
  · rintro ⟨-, ⟨_, _, hlocator, -⟩ | ⟨_, _, hlocator, -⟩⟩
    all_goals cases hlocator

end Data

end NdnFc
