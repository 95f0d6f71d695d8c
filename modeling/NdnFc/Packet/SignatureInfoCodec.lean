import NdnFc.Lib.Run
import NdnFc.Packet.SignatureInfo

/-!
# Encoding a SignatureInfo as two kinds of element

A `SignatureInfo` has one cached encoding for the two kinds of element that it can be encoded as
(`ndn-cxx/signature-info.cpp`). The cache is returned whatever its kind, and a decoding sets it
before it looks at the element.
-/

namespace NdnFc

open Fallible Method

namespace KeyLocator

/-- `operator==` -/
def equals : KeyLocator → KeyLocator → Bool
  | empty, empty => true
  | name n, name n' => n == n'
  | keyDigest digest, keyDigest digest' => digest.equals digest'
  | unsupported type, unsupported type' => type == type'
  | _, _ => false

/-- What the setters and the decoder make: a key digest is an element of its type. -/
def Constructible : KeyLocator → Prop
  | keyDigest digest => digest.type = Tlv.keyDigest
  | _ => True

theorem constructible_of_ofBlock {wire : Block} {locator : KeyLocator}
    (h : ofBlock wire = .ok locator) : locator.Constructible := by
  unfold ofBlock at h
  split at h
  · cases h
  obtain ⟨elements, -, h⟩ := bind_eq_ok_iff.mp h
  split at h
  · cases h
    trivial
  split at h
  · obtain ⟨n, -, h⟩ := bind_eq_ok_iff.mp h
    cases h
    trivial
  split at h
  next htype =>
    cases h
    exact htype
  next =>
    cases h
    trivial

theorem Constructible.isSupported {locator : KeyLocator} (h : locator.Constructible) {bytes : Bytes}
    (hencode : locator.wireEncode = .ok bytes) : locator.IsSupported := by
  cases locator with
  | unsupported type => cases hencode
  | keyDigest digest => exact h
  | _ => trivial

end KeyLocator

namespace SignatureInfo

/-! ### Setters -/

def setSignatureType (type : UInt16) (s : SignatureInfo) : SignatureInfo :=
  if s.type = some type then s else { s with type := some type, wire := none }

/-- The comparison of optional locators. -/
def equalLocators : Option KeyLocator → Option KeyLocator → Bool
  | none, none => true
  | some locator, some locator' => locator.equals locator'
  | _, _ => false

def setKeyLocator (keyLocator : Option KeyLocator) (s : SignatureInfo) : SignatureInfo :=
  if equalLocators keyLocator s.keyLocator then s else { s with keyLocator, wire := none }

def removeCustomTlv (type : ℕ) (s : SignatureInfo) : SignatureInfo :=
  if s.otherTlvs.any fun b => b.type == type then
    { s with otherTlvs := s.otherTlvs.filter fun b => b.type != type, wire := none }
  else s

/-- `setValidityPeriod`, for the element of a validity period. -/
def setValidityPeriod (validityPeriod : Option {b : Block // b.type = Tlv.validityPeriod})
    (s : SignatureInfo) : SignatureInfo :=
  match validityPeriod with
  | none => s.removeCustomTlv Tlv.validityPeriod
  | some block => s.addCustomTlv block.1

/-- An element with a value is added, or removed when there is none. -/
def setTlv (type : ℕ) (value : Option Bytes) : EStateM String SignatureInfo Unit :=
  match value with
  | none => modify (removeCustomTlv type)
  | some value => do
    let block ← Method.ofExcept (Block.makeBinaryBlock type value)
    modify (addCustomTlv block)

def setNonce (nonce : Option Bytes) : EStateM String SignatureInfo Unit :=
  setTlv Tlv.signatureNonce nonce

/-- `setTime`, in milliseconds since the epoch (`toUnixTimestamp`). -/
def setTime (time : Option ℤ) : EStateM String SignatureInfo Unit :=
  setTlv Tlv.signatureTime (time.map fun t => Tlv.writeNonNegativeInteger (Tlv.ofMilliseconds t))

def setSeqNum (seqNum : Option UInt64) : EStateM String SignatureInfo Unit :=
  setTlv Tlv.signatureSeqNum (seqNum.map fun n => Tlv.writeNonNegativeInteger n.toNat)

/-- `wireDecode` of a block that may have no encoding. -/
def wireDecodePacket (wire : PacketBlock) (kind : Kind) : EStateM String SignatureInfo Unit := do
  set { empty with wire := wire.wire }
  let elements ← Method.ofExcept wire.parse
  if wire.type ≠ kind.tlvType then throw (Tlv.unexpectedType "SignatureInfo" wire.type)
  else do
    decodeElements 0 elements
    let s ← get
    if s.isValid then pure () else throw "Missing SignatureType in SignatureInfo"

/-! ### What the decoder leaves -/

/-- The parts that the decoder has let pass. -/
structure Admitted (s : SignatureInfo) : Prop where
  keyLocator : ∀ locator, s.keyLocator = some locator → locator.Constructible
  otherTlvs : ∀ element ∈ s.otherTlvs, IsReadable element

theorem isReadable_of_not {element : Block}
    (hnonce : ¬ (element.type = Tlv.signatureNonce ∧ element.value.length < 1))
    (hcritical : ¬ (element.type ≠ Tlv.validityPeriod ∧ Tlv.isCriticalType element.type)) :
    IsReadable element := by
  refine ⟨?_, fun htype hnil => hnonce ⟨htype, by simp [hnil]⟩⟩
  by_cases htype : element.type = Tlv.validityPeriod
  · exact .inl htype
  · exact .inr (Bool.eq_false_iff.mpr fun h => hcritical ⟨htype, h⟩)

theorem preserves_admitted_decodeElements (last : ℕ) (elements : List Block) :
    Preserves Admitted (decodeElements last elements) := by
  induction elements generalizing last with
  | nil => exact preserves_pure ()
  | cons element rest ih =>
    unfold decodeElements
    split
    · split
      · exact preserves_throw _
      · refine (preserves_ofExcept _).bind fun type => ?_
        exact (Method.preserves_modify fun s hs => ⟨hs.1, hs.2⟩).bind fun _ => ih 1
    split
    · split
      · exact preserves_throw _
      · refine (Method.preserves_modify fun s hs => ⟨by simp, hs.2⟩).bind fun _ => ?_
        cases hlocator : KeyLocator.ofBlock element with
        | error e => exact preserves_throw e
        | ok locator =>
          refine (Method.preserves_modify fun s hs => ⟨fun l hl => ?_, hs.2⟩).bind fun _ => ih 2
          cases hl
          exact KeyLocator.constructible_of_ofBlock hlocator
    split
    · exact preserves_throw _
    split
    · exact preserves_throw _
    next hnonce hcritical =>
      refine (Method.preserves_modify fun s hs => ⟨hs.1, fun e he => ?_⟩).bind fun _ => ih last
      rcases List.mem_append.mp he with he | he
      · exact hs.2 e he
      · rw [List.mem_singleton.mp he]
        exact isReadable_of_not hnonce hcritical

theorem admitted_after_wireDecodePacket (wire : PacketBlock) (kind : Kind) (s : SignatureInfo) :
    Admitted (after (wireDecodePacket wire kind) s) := by
  unfold wireDecodePacket
  refine (?_ : Preserves Admitted (do
    let elements ← Method.ofExcept wire.parse
    _ : EStateM String SignatureInfo Unit)) _ ⟨by simp [empty], by simp [empty]⟩
  refine (preserves_ofExcept _).bind fun elements => ?_
  split
  · exact preserves_throw _
  · refine (preserves_admitted_decodeElements 0 elements).bind fun _ => ?_
    refine preserves_get_bind fun s hs => ?_
    split <;> exact hs

theorem keeps_wire_decodeElements (last : ℕ) (elements : List Block) :
    Keeps (fun s : SignatureInfo => s.wire) (decodeElements last elements) := by
  induction elements generalizing last with
  | nil => exact keeps_pure ()
  | cons element rest ih =>
    unfold decodeElements
    refine .ite (.ite (keeps_throw _) ?_) (.ite (.ite (keeps_throw _) ?_)
      (.ite (keeps_throw _) (.ite (keeps_throw _) ?_)))
    · exact .bind (keeps_ofExcept _) fun _ =>
        .bind (keeps_modify (by intros; rfl)) fun _ => ih 1
    · exact .bind (keeps_modify (by intros; rfl)) fun _ =>
        .bind (keeps_ofExcept _) fun _ =>
        .bind (keeps_modify (by intros; rfl)) fun _ => ih 2
    · exact .bind (keeps_modify (by intros; rfl)) fun _ => ih last

theorem wire_after_wireDecodePacket (wire : PacketBlock) (kind : Kind) (s : SignatureInfo) :
    (after (wireDecodePacket wire kind) s).wire = wire.wire := by
  unfold wireDecodePacket
  refine (?_ : Keeps (fun s : SignatureInfo => s.wire) (do
    let elements ← Method.ofExcept wire.parse
    _ : EStateM String SignatureInfo Unit)) { empty with wire := wire.wire }
  refine .bind (keeps_ofExcept _) fun elements => .ite (keeps_throw _) ?_
  refine .bind (keeps_wire_decodeElements 0 elements) fun _ => .bind keeps_get fun _ => ?_
  exact .ite (keeps_pure ()) (keeps_throw _)

/-! ### Runs -/

/-- The calls that can change an object or its cache. -/
inductive Call where
  | setSignatureType (type : UInt16)
  | setKeyLocator (keyLocator : Option {l : KeyLocator // l.Constructible})
  | setValidityPeriod (validityPeriod : Option {b : Block // b.type = Tlv.validityPeriod})
  | setNonce (nonce : Option Bytes)
  | setTime (time : Option ℤ)
  | setSeqNum (seqNum : Option UInt64)
  | addCustomTlv (block : Block)
  | removeCustomTlv (type : ℕ)
  | wireEncode (kind : Kind)
  | wireDecode (wire : PacketBlock) (kind : Kind)

def Call.run : Call → EStateM String SignatureInfo Unit
  | setSignatureType type => modify (SignatureInfo.setSignatureType type)
  | setKeyLocator keyLocator => modify (SignatureInfo.setKeyLocator (keyLocator.map Subtype.val))
  | setValidityPeriod validityPeriod => modify (SignatureInfo.setValidityPeriod validityPeriod)
  | setNonce nonce => SignatureInfo.setNonce nonce
  | setTime time => SignatureInfo.setTime time
  | setSeqNum seqNum => SignatureInfo.setSeqNum seqNum
  | addCustomTlv block => modify (SignatureInfo.addCustomTlv block)
  | removeCustomTlv type => modify (SignatureInfo.removeCustomTlv type)
  | wireEncode kind => do let _ ← SignatureInfo.wireEncode kind
  | wireDecode wire kind => wireDecodePacket wire kind

def step (s : SignatureInfo) (call : Call) : SignatureInfo :=
  after call.run s

/-- The objects that the constructors without a block make. An object that is constructed from a
block is the empty one after a decoding. -/
inductive Constructed : SignatureInfo → Prop
  | empty : Constructed .empty
  | create (type : UInt16) (keyLocator : Option {l : KeyLocator // l.Constructible}) :
    Constructed (.create type (keyLocator.map Subtype.val))

/-- Where a cached encoding comes from: a decoding, which may have thrown, or the encoding of the
fields as one of the kinds. -/
structure Inv (s : SignatureInfo) : Prop where
  keyLocator : ∀ locator, s.keyLocator = some locator → locator.Constructible
  wire : ∀ wire, s.wire = some wire →
    (∃ kind, ∀ s₀, after (wireDecode wire kind) s₀ = s) ∨
    ∃ kind bytes, s.encode kind = .ok bytes ∧ Block.ofBytes bytes = .ok wire

variable {s : SignatureInfo} {kind : Kind}

theorem inv_of_wire_none (hwire : s.wire = none)
    (h : ∀ locator, s.keyLocator = some locator → locator.Constructible) : s.Inv :=
  ⟨h, by simp [hwire]⟩

theorem Constructed.inv (h : Constructed s) : s.Inv := by
  cases h with
  | empty => exact inv_of_wire_none rfl fun locator hlocator => by cases hlocator
  | create type keyLocator =>
    refine inv_of_wire_none rfl fun locator hlocator => ?_
    obtain ⟨l, -, rfl⟩ := Option.map_eq_some_iff.mp hlocator
    exact l.2

theorem Inv.addCustomTlv (hs : s.Inv) (block : Block) : (s.addCustomTlv block).Inv := by
  unfold SignatureInfo.addCustomTlv
  split
  · exact inv_of_wire_none rfl hs.keyLocator
  · split
    · exact hs
    · exact inv_of_wire_none rfl hs.keyLocator

theorem Inv.removeCustomTlv (hs : s.Inv) (type : ℕ) : (s.removeCustomTlv type).Inv := by
  unfold SignatureInfo.removeCustomTlv
  split
  · exact inv_of_wire_none rfl hs.keyLocator
  · exact hs

theorem preserves_inv_setTlv (type : ℕ) (value : Option Bytes) :
    Preserves Inv (setTlv type value) := by
  unfold setTlv
  split
  · exact Method.preserves_modify fun s hs => hs.removeCustomTlv type
  · exact (preserves_ofExcept _).bind fun block =>
      Method.preserves_modify fun s hs => hs.addCustomTlv block

theorem Inv.wireEncode (hs : s.Inv) (kind : Kind) :
    (after (wireEncode kind) s).Inv := by
  unfold SignatureInfo.wireEncode
  rw [after_get_bind]
  cases hblock : s.encodedBlock kind with
  | error e => exact hs
  | ok wire =>
    refine ⟨hs.keyLocator, fun w hw => ?_⟩
    cases hw
    unfold encodedBlock at hblock
    split at hblock
    next w hcached =>
      cases hblock
      have heq : { s with wire := some wire } = s := by rw [← hcached]
      exact heq.symm ▸ hs.wire wire hcached
    next =>
      obtain ⟨bytes, hbytes, hblock⟩ := bind_eq_ok_iff.mp hblock
      exact .inr ⟨kind, bytes, hbytes, hblock⟩

theorem inv_after_wireDecodePacket (wire : PacketBlock) (kind : Kind) (s : SignatureInfo) :
    (after (wireDecodePacket wire kind) s).Inv := by
  refine ⟨(admitted_after_wireDecodePacket wire kind s).keyLocator, fun w hw => ?_⟩
  rw [wire_after_wireDecodePacket] at hw
  cases wire with
  | encoded block =>
    cases hw
    exact .inl ⟨kind, fun _ => rfl⟩
  | unencoded type elements => cases hw

theorem Inv.step (hs : s.Inv) (call : Call) : (s.step call).Inv := by
  cases call with
  | setSignatureType type =>
    change (SignatureInfo.setSignatureType type s).Inv
    unfold setSignatureType
    split
    · exact hs
    · exact inv_of_wire_none rfl hs.keyLocator
  | setKeyLocator keyLocator =>
    change (SignatureInfo.setKeyLocator (keyLocator.map Subtype.val) s).Inv
    unfold setKeyLocator
    split
    · exact hs
    · refine inv_of_wire_none rfl fun locator hlocator => ?_
      obtain ⟨l, -, rfl⟩ := Option.map_eq_some_iff.mp hlocator
      exact l.2
  | setValidityPeriod validityPeriod =>
    change (SignatureInfo.setValidityPeriod validityPeriod s).Inv
    unfold setValidityPeriod
    split
    · exact hs.removeCustomTlv Tlv.validityPeriod
    · exact hs.addCustomTlv _
  | setNonce nonce => exact preserves_inv_setTlv Tlv.signatureNonce nonce s hs
  | setTime time => exact preserves_inv_setTlv Tlv.signatureTime _ s hs
  | setSeqNum seqNum => exact preserves_inv_setTlv Tlv.signatureSeqNum _ s hs
  | addCustomTlv block => exact hs.addCustomTlv block
  | removeCustomTlv type => exact hs.removeCustomTlv type
  | wireEncode kind =>
    rw [SignatureInfo.step, Call.run, after_bind_pure]
    exact hs.wireEncode kind
  | wireDecode wire kind => exact inv_after_wireDecodePacket wire kind s

/-! ### The codec -/

/-- Two objects describe the same signature. -/
structure SameInfo (r s : SignatureInfo) : Prop where
  type : r.type = s.type
  keyLocator : r.keyLocator = s.keyLocator
  validityPeriod : r.findOtherTlv Tlv.validityPeriod = s.findOtherTlv Tlv.validityPeriod
  nonce : r.getNonce = s.getNonce
  time : r.getTime = s.getTime
  seqNum : r.getSeqNum = s.getSeqNum
  otherTlvs : r.otherTlvs = s.otherTlvs

/-- `wireEncode` returns an element of the kind, from which every object is decoded to one that
describes the same signature. -/
def RoundTrips (s : SignatureInfo) (kind : Kind) : Prop :=
  ∃ wire s', (wireEncode kind).run s = .ok wire s' ∧ wire.type = kind.tlvType ∧
    ∀ u, ∃ r, (wireDecode wire kind).run u = .ok () r ∧ SameInfo r s

/-- There is a signature type, the decoder lets the additional elements pass, and a cached encoding
is acceptable for the kind; without one, the locator is supported. -/
def Encodable (s : SignatureInfo) (kind : Kind) : Prop :=
  s.isValid ∧ (∀ element ∈ s.otherTlvs, IsReadable element) ∧
    match s.wire with
    | some wire => wire.type = kind.tlvType ∧
        ∃ r, (wireDecode wire kind).run .empty = .ok () r
    | none => ∀ locator, s.keyLocator = some locator → locator.IsSupported

theorem Kind.tlvType_inj {kind' : Kind} (h : kind.tlvType = kind'.tlvType) : kind = kind' := by
  cases kind <;> cases kind' <;> first | rfl | exact absurd h (by decide)

theorem run_wireEncode_eq_ok_iff {s' : SignatureInfo} {wire : Block} :
    (wireEncode kind).run s = .ok wire s' ↔
      s.encodedBlock kind = .ok wire ∧ s' = { s with wire := some wire } := by
  unfold wireEncode
  rw [run_get_bind]
  cases s.encodedBlock kind with
  | error e => simp
  | ok block =>
    constructor
    · intro h
      cases h
      exact ⟨rfl, rfl⟩
    · rintro ⟨h, rfl⟩
      cases h
      rfl

theorem isValid_of_wireDecode {wire : Block} {u r : SignatureInfo}
    (h : (wireDecode wire kind).run u = .ok () r) :
    r.isValid ∧ wire.type = kind.tlvType ∧ Admitted r := by
  have hadmitted : Admitted (after (wireDecode wire kind) u) :=
    admitted_after_wireDecodePacket (.encoded wire) kind u
  rw [after_of_run_ok h] at hadmitted
  obtain ⟨_, _, -, h⟩ := run_bind_eq_ok_iff.mp h
  obtain ⟨elements, -, h⟩ := run_ofExcept_bind_eq_ok_iff.mp h
  obtain ⟨htype, h⟩ := run_ite_throw_eq_ok_iff.mp h
  obtain ⟨_, t, -, h⟩ := run_bind_eq_ok_iff.mp h
  rw [run_get_bind] at h
  split at h
  next hvalid =>
    cases h
    exact ⟨hvalid, not_not.mp htype, hadmitted⟩
  next => cases h

theorem isValid_after_wireDecode_of_ne {wire : Block} (h : wire.type ≠ kind.tlvType)
    (s : SignatureInfo) :
    (after (wireDecode wire kind) s).isValid = false := by
  change (after (do
    let elements ← Method.ofExcept (Block.parse wire.value)
    _ : EStateM String SignatureInfo Unit) { empty with wire := some wire }).isValid = false
  cases Block.parse wire.value with
  | error e => rfl
  | ok elements =>
    rw [ofExcept_ok_bind, if_pos h]
    rfl

theorem Inv.isSupported (hs : s.Inv) {bytes : Bytes} (h : s.encode kind = .ok bytes)
    (locator : KeyLocator) (hlocator : s.keyLocator = some locator) :
    locator.IsSupported := by
  unfold encode at h
  split at h
  · cases h
  · obtain ⟨locatorBytes, hencode, -⟩ := bind_eq_ok_iff.mp h
    rw [hlocator] at hencode
    exact (hs.keyLocator locator hlocator).isSupported hencode

theorem Transmissible.exists_decoded (hs : s.Transmissible) {bytes : Bytes}
    (hencode : s.encode kind = .ok bytes) (hlen : bytes.length < 2 ^ 64) :
    ∃ wire, Block.ofBytes bytes = .ok wire ∧ wire.type = kind.tlvType ∧
      ∀ u, (wireDecode wire kind).run u = .ok () { s with wire := some wire } := by
  obtain ⟨block, hwire, htype, hdecode⟩ := exists_toBlock hs hencode hlen
  exact ⟨block, hwire ▸ Block.ofBytes_wire block, htype, hdecode⟩

theorem RoundTrips.encodable (hs : s.Inv) (h : s.RoundTrips kind) : s.Encodable kind := by
  obtain ⟨wire, s', hencode, htype, hdecode⟩ := h
  obtain ⟨r, hr, hsame⟩ := hdecode .empty
  obtain ⟨hvalid, -, hadmitted⟩ := isValid_of_wireDecode hr
  refine ⟨?_, fun element helement => hadmitted.otherTlvs element (hsame.otherTlvs ▸ helement), ?_⟩
  · rw [isValid, hsame.type] at hvalid
    exact hvalid
  have hblock := (run_wireEncode_eq_ok_iff.mp hencode).1
  rw [encodedBlock] at hblock
  cases hcached : s.wire with
  | some w =>
    rw [hcached] at hblock
    cases hblock
    exact ⟨htype, r, hr⟩
  | none =>
    rw [hcached] at hblock
    obtain ⟨bytes, hbytes, -⟩ := bind_eq_ok_iff.mp hblock
    exact hs.isSupported hbytes

theorem Encodable.roundTrips (hs : s.Inv)
    (hsize : ∀ kind bytes, s.encode kind = .ok bytes → bytes.length < 2 ^ 64) (h : s.Encodable kind) :
    s.RoundTrips kind := by
  obtain ⟨hvalid, hreadable, hwire⟩ := h
  cases hcached : s.wire with
  | none =>
    rw [hcached] at hwire
    have htransmissible : s.Transmissible := ⟨hvalid, hwire, hreadable⟩
    obtain ⟨bytes, hbytes⟩ := htransmissible.exists_encode kind
    obtain ⟨wire, hblock, htype, hdecode⟩ :=
      htransmissible.exists_decoded hbytes (hsize kind bytes hbytes)
    refine ⟨wire, _, run_wireEncode_eq_ok_iff.mpr ⟨?_, rfl⟩, htype, fun u =>
      ⟨_, hdecode u, ⟨rfl, rfl, rfl, rfl, rfl, rfl, rfl⟩⟩⟩
    rw [encodedBlock, hcached]
    exact bind_eq_ok_iff.mpr ⟨bytes, hbytes, hblock⟩
  | some wire =>
    rw [hcached] at hwire
    obtain ⟨htype, r, hr⟩ := hwire
    have hencode : (wireEncode kind).run s = .ok wire { s with wire := some wire } :=
      run_wireEncode_eq_ok_iff.mpr ⟨by rw [encodedBlock, hcached]; rfl, rfl⟩
    refine ⟨wire, _, hencode, htype, ?_⟩
    rcases hs.wire wire hcached with ⟨kind', hafter⟩ | ⟨kind', bytes, hbytes, hblock⟩
    · by_cases hkind : kind' = kind
      · subst hkind
        obtain rfl : r = s := (after_of_run_ok hr).symm.trans (hafter .empty)
        -- the decoder does not look at the previous object
        exact fun u => ⟨r, hr, ⟨rfl, rfl, rfl, rfl, rfl, rfl, rfl⟩⟩
      · have hne : wire.type ≠ kind'.tlvType := fun h =>
          hkind (Kind.tlvType_inj (h.symm.trans htype))
        rw [← hafter .empty, isValid_after_wireDecode_of_ne hne] at hvalid
        cases hvalid
    · have htransmissible : s.Transmissible := ⟨hvalid, hs.isSupported hbytes, hreadable⟩
      obtain ⟨wire', hblock', htype', hdecode⟩ :=
        htransmissible.exists_decoded hbytes (hsize kind' bytes hbytes)
      rw [hblock] at hblock'
      cases hblock'
      obtain rfl := Kind.tlvType_inj (htype.symm.trans htype')
      exact fun u => ⟨_, hdecode u, ⟨rfl, rfl, rfl, rfl, rfl, rfl, rfl⟩⟩

/-- After every sequence of calls, an object is decoded from its encoding as either kind exactly
when it has a signature type, readable additional elements, and a cached encoding acceptable for
this kind or, without one, a supported locator. -/
theorem roundTrips_run_iff {init : SignatureInfo} (hinit : Constructed init) (calls : List Call)
    (kind : Kind) (hsize : ∀ kind bytes, (Run.run step init calls).encode kind = .ok bytes →
      bytes.length < 2 ^ 64) :
    (Run.run step init calls).RoundTrips kind ↔ (Run.run step init calls).Encodable kind := by
  have hinv := Run.invariant Inv (fun s call hs => hs.step call) hinit.inv calls
  exact ⟨RoundTrips.encodable hinv, Encodable.roundTrips hinv hsize⟩

/-- An object that has been encoded for Data is encoded for an Interest as the same element. -/
theorem not_roundTrips_otherKind : Constructed (create 0 none) ∧
    ¬ (Run.run step (create 0 none) [.wireEncode .data]).RoundTrips .interest := by
  refine ⟨.create 0 none, ?_⟩
  rintro ⟨wire, s', hencode, htype, -⟩
  cases hencode
  exact absurd htype (by decide)

/-- With a nonce it is decoded from its encoding for an Interest. -/
theorem roundTrips_nonce :
    (Run.run step (create 0 none) [.setNonce (some [1, 2, 3, 4])]).RoundTrips .interest := by
  have hcreate : Constructed (create 0 none) := .create 0 none
  refine (roundTrips_run_iff hcreate _ _ fun kind bytes hencode => ?_).mpr ?_
  · cases hencode
    cases kind <;> decide
  · refine ⟨rfl, fun element helement => ?_, fun locator hlocator => ?_⟩
    · rw [List.mem_singleton.mp helement]
      decide
    · cases hlocator

end SignatureInfo

end NdnFc
