import NdnFc.Name.Wire

/-!
# SignatureInfo and KeyLocator

The description of a signature (`ndn-cxx/signature-info.cpp`) and the locator of the key it can be
verified with (`ndn-cxx/key-locator.cpp`). A `SignatureInfo` is encoded as an element of one of two
types, for Data and for Interests, and remembers its encoding.
-/

namespace NdnFc

open Block List

/-- A KeyLocator: nothing, a name, the digest of a key, or an element of another type. -/
inductive KeyLocator where
  | empty
  | name (name : Name)
  | keyDigest (digest : Block)
  | unsupported (type : ℕ)
deriving DecidableEq

namespace KeyLocator

def wireEncode : KeyLocator → Except String Bytes
  | empty => pure (Tlv.encodeElement Tlv.keyLocator [])
  | name n => pure (Tlv.encodeElement Tlv.keyLocator n.wireEncode)
  | keyDigest digest => pure (Tlv.encodeElement Tlv.keyLocator digest.wire)
  | unsupported type => throw ("Unsupported KeyLocator type " ++ toString type)

/-- `KeyLocator(wire)`. Only the first sub-element is looked at. -/
def ofBlock (wire : Block) : Except String KeyLocator :=
  if wire.type ≠ Tlv.keyLocator then throw (Tlv.unexpectedType "KeyLocator" wire.type)
  else do
    let elements ← parse wire.value
    match elements with
    | [] => pure empty
    | element :: _ =>
      if element.type = Tlv.name then do
        let n ← Name.ofBlock element
        pure (name n)
      else if element.type = Tlv.keyDigest then pure (keyDigest element)
      else pure (unsupported element.type)

/-- The locators that have an encoding: a key digest is an element of its type. -/
def IsSupported : KeyLocator → Prop
  | empty => True
  | name _ => True
  | keyDigest digest => digest.type = Tlv.keyDigest
  | unsupported _ => False

def encodeValue : KeyLocator → Bytes
  | empty => []
  | name n => n.wireEncode
  | keyDigest digest => digest.wire
  | unsupported _ => []

theorem wireEncode_of_isSupported {locator : KeyLocator} (h : locator.IsSupported) :
    locator.wireEncode = .ok (Tlv.encodeElement Tlv.keyLocator locator.encodeValue) := by
  cases locator with
  | unsupported type => exact h.elim
  | _ => rfl

def toBlock (locator : KeyLocator) (h : locator.encodeValue.length < 2 ^ 64) : Block :=
  .make Tlv.keyLocator locator.encodeValue (by decide) (by decide) h

theorem ofBlock_toBlock {locator : KeyLocator} (hsupported : locator.IsSupported)
    (h : locator.encodeValue.length < 2 ^ 64) : ofBlock (locator.toBlock h) = .ok locator := by
  rw [ofBlock, toBlock, type_make, if_neg (not_not.mpr rfl), value_make]
  cases locator with
  | empty => rfl
  | name n =>
    have hn : n.encodeComponents.length < 2 ^ 64 := by
      simp only [encodeValue, Name.wireEncode, Tlv.encodeElement, length_append] at h
      omega
    have hparse : parse (encodeValue (name n)) = .ok [n.toBlock hn] := by
      rw [← parse_flatMap_wire, flatMap_singleton]
      rfl
    rw [hparse, Fallible.ok_bind]
    dsimp only
    rw [Name.type_toBlock, if_pos rfl, Name.ofBlock_toBlock]
    rfl
  | keyDigest digest =>
    have htype : digest.type = Tlv.keyDigest := hsupported
    have hparse : parse (encodeValue (keyDigest digest)) = .ok [digest] := by
      rw [← parse_flatMap_wire, flatMap_singleton]
      rfl
    rw [hparse, Fallible.ok_bind]
    dsimp only
    rw [htype, if_neg (by decide), if_pos rfl]
    rfl
  | unsupported type => exact hsupported.elim

end KeyLocator

/-- `fromUnixTimestamp`: a point of the system clock in nanoseconds since the epoch, which are counted
in 64 bits. -/
def fromUnixTimestamp (milliseconds : ℤ) : ℤ :=
  (milliseconds * 10 ^ 6).bmod (2 ^ 64)

/-- A SignatureInfo: SignatureType (none for an invalid one), KeyLocator, the elements after them
and the remembered encoding. -/
structure SignatureInfo where
  type : Option UInt16
  keyLocator : Option KeyLocator
  otherTlvs : List Block
  wire : Option Block
deriving DecidableEq

namespace SignatureInfo

/-- `SignatureInfo::Type` -/
inductive Kind where
  | data
  | interest
deriving DecidableEq, Repr

/-- The TLV-TYPE of an encoded SignatureInfo. -/
def Kind.tlvType : Kind → ℕ
  | data => Tlv.signatureInfo
  | interest => Tlv.interestSignatureInfo

/-- `SignatureInfo()`: an invalid SignatureInfo. -/
def empty : SignatureInfo where
  type := none
  keyLocator := none
  otherTlvs := []
  wire := none

/-- `SignatureInfo(type, keyLocator)` -/
def create (type : UInt16) (keyLocator : Option KeyLocator) : SignatureInfo :=
  { empty with type := some type, keyLocator }

variable (s : SignatureInfo)

/-- `operator bool` -/
def isValid : Bool :=
  s.type.isSome

/-- `addCustomTlv`: an element of the same type is replaced, unless it is equal. -/
def addCustomTlv (block : Block) (s : SignatureInfo) : SignatureInfo :=
  match s.otherTlvs.findIdx? fun b => b.type == block.type with
  | none => { s with otherTlvs := s.otherTlvs ++ [block], wire := none }
  | some index =>
    if (s.otherTlvs[index]?).any fun b => b.equals block then s
    else { s with otherTlvs := s.otherTlvs.set index block, wire := none }

def findOtherTlv (type : ℕ) (s : SignatureInfo) : Option Block :=
  s.otherTlvs.find? fun b => b.type == type

/-- The number in an additional element. -/
def readOtherTlv (type : ℕ) (s : SignatureInfo) : Except String (Option ℕ) :=
  match s.findOtherTlv type with
  | none => pure none
  | some element => some <$> element.readNonNegativeInteger

def getTime : Except String (Option ℤ) := do
  let milliseconds ← s.readOtherTlv Tlv.signatureTime
  pure (milliseconds.map fun count => fromUnixTimestamp (Tlv.toMilliseconds count))

def getSeqNum : Except String (Option ℕ) :=
  s.readOtherTlv Tlv.signatureSeqNum

def getNonce : Option Bytes :=
  (s.findOtherTlv Tlv.signatureNonce).map value

/-- The KeyLocator of an encoded SignatureInfo, if there is one. -/
def encodeKeyLocator : Option KeyLocator → Except String Bytes
  | none => pure []
  | some locator => locator.wireEncode

/-- `wireEncode(encoder, type)`: the remembered encoding is not used. -/
def encode (s : SignatureInfo) (kind : Kind) : Except String Bytes :=
  match s.type with
  | none => throw "Cannot encode invalid SignatureInfo"
  | some type => do
    let locator ← encodeKeyLocator s.keyLocator
    pure (Tlv.encodeElement kind.tlvType
      (Tlv.encodeElement Tlv.signatureType (Tlv.writeNonNegativeInteger type.toNat) ++
        locator ++ s.otherTlvs.flatMap Block.wire))

/-- The block that `wireEncode(type)` returns: the remembered encoding whatever its type, and a new
one when there is none. -/
def encodedBlock (kind : Kind) : Except String Block :=
  match s.wire with
  | some wire => pure wire
  | none => do
    let bytes ← s.encode kind
    ofBytes bytes

def wireEncode (kind : Kind) : EStateM String SignatureInfo Block := do
  let s ← get
  let wire ← Method.ofExcept (s.encodedBlock kind)
  set { s with wire := some wire }
  pure wire

/-- The loop of `wireDecode`. The number is that of the last element in the required order. -/
def decodeElements : ℕ → List Block → EStateM String SignatureInfo Unit
  | _, [] => pure ()
  | last, element :: rest =>
    if element.type = Tlv.signatureType then
      if 0 < last then throw "SignatureType element is repeated or out-of-order"
      else do
        let type ← Method.ofExcept (element.readNonNegativeIntegerAs (2 ^ 16 - 1))
        modify ({ · with type := some (UInt16.ofNat type) })
        decodeElements 1 rest
    else if element.type = Tlv.keyLocator then
      if 1 < last then throw "KeyLocator element is repeated or out-of-order"
      else do
        modify ({ · with keyLocator := none })
        let locator ← Method.ofExcept (KeyLocator.ofBlock element)
        modify ({ · with keyLocator := some locator })
        decodeElements 2 rest
    else if element.type = Tlv.signatureNonce ∧ element.value.length < 1 then
      throw "SignatureNonce element cannot be empty"
    -- ValidityPeriod is kept although its type is critical
    else if element.type ≠ Tlv.validityPeriod ∧ Tlv.isCriticalType element.type then
      throw ("Unrecognized element of critical type " ++ toString element.type)
    else do
      modify fun s => { s with otherTlvs := s.otherTlvs ++ [element] }
      decodeElements last rest

def wireDecode (wire : Block) (kind : Kind) : EStateM String SignatureInfo Unit := do
  set { empty with wire := some wire }
  let elements ← Method.ofExcept (parse wire.value)
  if wire.type ≠ kind.tlvType then throw (Tlv.unexpectedType "SignatureInfo" wire.type)
  else do
    decodeElements 0 elements
    let s ← get
    if s.isValid then pure () else throw "Missing SignatureType in SignatureInfo"

/-! ### Reading back what was encoded -/

/-- The additional elements that the decoder lets pass: those of a non-critical type and validity
periods, unless they are an empty nonce. -/
def IsReadable (element : Block) : Prop :=
  (element.type = Tlv.validityPeriod ∨ Tlv.isCriticalType element.type = false) ∧
    (element.type = Tlv.signatureNonce → element.value ≠ [])

instance (element : Block) : Decidable (IsReadable element) :=
  inferInstanceAs (Decidable (_ ∧ _))

/-- A SignatureInfo whose parts the encoder and the decoder both accept. -/
structure Transmissible : Prop where
  isValid : s.isValid = true
  keyLocator : ∀ locator, s.keyLocator = some locator → locator.IsSupported
  otherTlvs : ∀ element ∈ s.otherTlvs, IsReadable element

theorem run_decodeElements_otherTlvs {elements : List Block}
    (h : ∀ element ∈ elements, IsReadable element) (last : ℕ) (s : SignatureInfo) :
    (decodeElements last elements).run s = .ok () { s with otherTlvs := s.otherTlvs ++ elements } := by
  induction elements generalizing s with
  | nil =>
    rw [append_nil]
    rfl
  | cons element rest ih =>
    obtain ⟨hcritical, hnonce⟩ := h element mem_cons_self
    have hne : ∀ type, ¬ (type = Tlv.validityPeriod ∨ Tlv.isCriticalType type = false) →
        element.type ≠ type := by
      rintro _ hnot rfl
      exact hnot hcritical
    have hempty : ¬ (element.type = Tlv.signatureNonce ∧ element.value.length < 1) := by
      rintro ⟨ht, hlt⟩
      exact hnonce ht (length_eq_zero_iff.mp (by omega))
    have haccept : ¬ (element.type ≠ Tlv.validityPeriod ∧
        Tlv.isCriticalType element.type = true) := by
      rintro ⟨hv, hc⟩
      rcases hcritical with ht | ht
      · exact hv ht
      · rw [ht] at hc
        cases hc
    rw [decodeElements, if_neg (hne _ (by decide)), if_neg (hne _ (by decide)), if_neg hempty,
      if_neg haccept, Method.run_modify_bind, ih fun e he => h e (mem_cons_of_mem element he)]
    simp

def typeBlock (type : UInt16) : Block :=
  .make Tlv.signatureType (Tlv.writeNonNegativeInteger type.toNat) (by decide) (by decide)
    ((Tlv.length_writeNonNegativeInteger_le _).trans_lt (by decide))

theorem run_decodeElements_type (type : UInt16) (rest : List Block) (s : SignatureInfo) :
    (decodeElements 0 (typeBlock type :: rest)).run s =
      (decodeElements 1 rest).run { s with type := some type } := by
  have hlt : type.toNat < 2 ^ 16 := type.toNat_lt
  have hread : (typeBlock type).readNonNegativeIntegerAs (2 ^ 16 - 1) = .ok type.toNat := by
    rw [readNonNegativeIntegerAs, readNonNegativeInteger, typeBlock, value_make,
      Tlv.readNonNegativeInteger_write (by omega), Fallible.ok_bind, if_neg (by omega)]
    rfl
  have htype : (typeBlock type).type = Tlv.signatureType := rfl
  rw [decodeElements, if_pos htype, if_neg (by decide), hread]
  change (decodeElements 1 rest).run { s with type := some (UInt16.ofNat type.toNat) } = _
  rw [UInt16.ofNat_toNat]

theorem run_decodeElements_keyLocator {locator : KeyLocator} (hsupported : locator.IsSupported)
    (h : locator.encodeValue.length < 2 ^ 64) (rest : List Block) (s : SignatureInfo) :
    (decodeElements 1 (locator.toBlock h :: rest)).run s =
      (decodeElements 2 rest).run { s with keyLocator := some locator } := by
  have htype : (locator.toBlock h).type = Tlv.keyLocator := rfl
  rw [decodeElements, if_neg (by rw [htype]; decide), if_pos htype, if_neg (by decide),
    KeyLocator.ofBlock_toBlock hsupported]
  rfl

variable {s : SignatureInfo}

theorem exists_elements_of_encode (hs : s.Transmissible) {kind : Kind} {bytes : Bytes}
    (hencode : s.encode kind = .ok bytes) (hlen : bytes.length < 2 ^ 64) :
    ∃ elements : List Block, bytes = Tlv.encodeElement kind.tlvType (elements.flatMap Block.wire) ∧
      ∀ wire, (decodeElements 0 elements).run { empty with wire } = .ok () { s with wire } := by
  obtain ⟨type, htype⟩ : ∃ type, s.type = some type := Option.isSome_iff_exists.mp hs.isValid
  rw [encode, htype] at hencode
  obtain ⟨locatorBytes, hlocator, hencode⟩ := Fallible.bind_eq_ok_iff.mp hencode
  cases hencode
  cases hnone : s.keyLocator with
  | none =>
    rw [hnone] at hlocator
    cases hlocator
    refine ⟨typeBlock type :: s.otherTlvs, by simp [typeBlock], fun wire => ?_⟩
    rw [run_decodeElements_type, run_decodeElements_otherTlvs hs.otherTlvs]
    simp [empty, htype]
  | some locator =>
    have hsupported := hs.keyLocator locator hnone
    rw [hnone, encodeKeyLocator, KeyLocator.wireEncode_of_isSupported hsupported] at hlocator
    cases hlocator
    have hvalue : locator.encodeValue.length < 2 ^ 64 := by
      simp only [Tlv.encodeElement, length_append] at hlen
      omega
    refine ⟨typeBlock type :: locator.toBlock hvalue :: s.otherTlvs,
      by simp [typeBlock, KeyLocator.toBlock], fun wire => ?_⟩
    rw [run_decodeElements_type, run_decodeElements_keyLocator hsupported,
      run_decodeElements_otherTlvs hs.otherTlvs]
    simp [empty, htype]

theorem Transmissible.exists_encode (hs : s.Transmissible) (kind : Kind) :
    ∃ bytes, s.encode kind = .ok bytes := by
  obtain ⟨type, htype⟩ : ∃ type, s.type = some type := Option.isSome_iff_exists.mp hs.isValid
  rw [encode, htype]
  cases hnone : s.keyLocator with
  | none => exact ⟨_, rfl⟩
  | some locator =>
    rw [encodeKeyLocator, KeyLocator.wireEncode_of_isSupported (hs.keyLocator locator hnone)]
    exact ⟨_, rfl⟩

theorem exists_toBlock (hs : s.Transmissible) {kind : Kind} {bytes : Bytes}
    (hencode : s.encode kind = .ok bytes) (hlen : bytes.length < 2 ^ 64) :
    ∃ block : Block, block.wire = bytes ∧ block.type = kind.tlvType ∧
      ∀ s', (wireDecode block kind).run s' = .ok () { s with wire := some block } := by
  obtain ⟨elements, rfl, hdecode⟩ := exists_elements_of_encode hs hencode hlen
  have hvalue : (elements.flatMap Block.wire).length < 2 ^ 64 := by
    simp only [Tlv.encodeElement, length_append] at hlen
    omega
  obtain ⟨hpos, hlt⟩ : 0 < kind.tlvType ∧ kind.tlvType < 2 ^ 32 := by cases kind <;> decide
  refine ⟨.make kind.tlvType (elements.flatMap Block.wire) hpos hlt hvalue, rfl, rfl, fun s' => ?_⟩
  rw [wireDecode]
  refine Method.run_bind_eq_ok_iff.mpr ⟨⟨⟩, _, EStateM.run_set _ _, ?_⟩
  rw [value_make, parse_flatMap_wire]
  refine Method.run_ofExcept_bind_eq_ok_iff.mpr ⟨_, rfl, ?_⟩
  rw [type_make, if_neg (not_not.mpr rfl)]
  refine Method.run_bind_eq_ok_iff.mpr ⟨(), _, hdecode _, ?_⟩
  have hvalid : s.isValid = true := hs.isValid
  rw [Method.run_get_bind]
  exact (congrArg (fun m => EStateM.run m _) (if_pos hvalid)).trans rfl

end SignatureInfo

end NdnFc
