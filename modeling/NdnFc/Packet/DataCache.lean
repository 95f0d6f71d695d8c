import NdnFc.Lib.Run
import NdnFc.Packet.Data

/-!
# Coherence of the caches of a Data object

The encoding and the full name that a `Data` object caches have to describe its fields. This module
follows them through every sequence of calls, including calls that throw.
-/

namespace NdnFc

namespace Data

open Method

/-! ### Runs -/

/-- The public operations that can change the object or its caches. -/
inductive Op where
  | setName (name : Name)
  | setFunction (function : Name)
  | setMetaInfo (metaInfo : MetaInfo)
  | setContent (block : Option Block)
  | setContentValue (value : Option Bytes)
  | setContent2 (value : Bytes)
  | unsetContent
  | setSignatureInfo (signatureInfo : SignatureInfo)
  | setSignatureValue (value : Option Bytes)
  | setContentType (type : UInt32)
  | setFreshnessPeriod (freshnessPeriod : ℤ)
  | setFinalBlock (finalBlockId : Option Component)
  | wireEncode
  | wireEncodeSigned (unsigned : Bytes) (signatureValue : Block)
  | wireDecode (wire : PacketBlock)
  | getFullName

/-! ### Coherence of the caches -/

/-- The calls of the decoder that keep the caches coherent: those refused for the type, those that
succeed, and those that fail on a packet without encoding and without a full name in the end. -/
def DecodeKeepsCoherence (d : Data) (wire : PacketBlock) : Prop :=
  wire.type ≠ Tlv.data ∨ Decodable wire ∨
    wire.wire = none ∧ (d.fullName = [] ∨ NamesReadable wire)

variable {d : Data}

theorem decodeKeepsCoherence_encoded_iff {wire : Block} (h : wire.type = Tlv.data) :
    d.DecodeKeepsCoherence (.encoded wire) ↔ Decodable (.encoded wire) := by
  simp [DecodeKeepsCoherence, PacketBlock.type, PacketBlock.wire, h]

/-- The calls after which the caches are coherent again, when they were before. -/
def Op.KeepsCoherence (d : Data) : Op → Prop
  | setFunction _ => d.fullName = []
  | setContent2 _ => d.fullName = []
  | wireDecode wire => d.DecodeKeepsCoherence wire
  | wireEncode => d.wire = none → ∀ wire, d.encodedBlock = .ok wire → Decodable (.encoded wire)
  | wireEncodeSigned unsigned signatureValue =>
    ∀ wire, Block.makeBinaryBlock Tlv.data (unsigned ++ signatureValue.wire) = .ok wire →
      Decodable (.encoded wire)
  | _ => True

/-- The objects that the two constructors make. -/
def Constructed (d : Data) : Prop :=
  (∃ name, d = create name) ∨ ∃ wire, ofBlock wire = .ok d

variable [Sha256]

/-- The call of an operation, without its result. -/
def Op.call : Op → EStateM String Data Unit
  | setName name => Data.setName name
  | setFunction function => Data.setFunction function
  | setMetaInfo metaInfo => Data.setMetaInfo metaInfo
  | setContent block => Data.setContent block
  | setContentValue value => Data.setContentValue value
  | setContent2 value => Data.setContent2 value
  | unsetContent => Data.unsetContent
  | setSignatureInfo signatureInfo => Data.setSignatureInfo signatureInfo
  | setSignatureValue value => Data.setSignatureValue value
  | setContentType type => Data.setContentType type
  | setFreshnessPeriod freshnessPeriod => Data.setFreshnessPeriod freshnessPeriod
  | setFinalBlock finalBlockId => Data.setFinalBlock finalBlockId
  | wireEncode => do let _ ← Data.wireEncode
  | wireEncodeSigned unsigned signatureValue => do
    let _ ← Data.wireEncodeSigned unsigned signatureValue
  | wireDecode wire => Data.wireDecode wire
  | getFullName => do let _ ← Data.getFullName

def step (d : Data) (op : Op) : Data :=
  after op.call d

/-- The caches describe the fields: a full name comes with the encoding it was computed from, and
the encoding decodes to the fields. -/
structure Coherent (d : Data) : Prop where
  fullName : d.fullName ≠ [] → ∃ wire, d.wire = some wire ∧
    d.fullName = d.name ++ [Name.implicitDigest (Sha256.digest wire.wire)]
  wire : ∀ wire, d.wire = some wire →
    ∃ e, ofBlock (.encoded wire) = .ok e ∧ e.toDataFields = d.toDataFields

theorem coherent_of_caches_eq (h : d.caches = (none, [])) : d.Coherent := by
  obtain ⟨hwire, hfull⟩ := Prod.mk.inj h
  exact ⟨fun hne => absurd hfull hne, fun wire hw => by rw [hwire] at hw; cases hw⟩

theorem coherent_iff_of_wire_none (h : d.wire = none) : d.Coherent ↔ d.fullName = [] := by
  refine ⟨fun hd => ?_, fun hfull => coherent_of_caches_eq (Prod.ext h hfull)⟩
  by_contra hne
  obtain ⟨wire, hw, -⟩ := hd.fullName hne
  rw [h] at hw
  cases hw

theorem coherent_of_ofBlock {wire : PacketBlock} (h : ofBlock wire = .ok d) : d.Coherent := by
  have hafter : after (wireDecode wire) (create []) = d :=
    after_of_run_ok (toExcept_eq_ok_iff.mp h)
  have hcaches := (caches_after_wireDecode (Decodable.type_eq ⟨d, h⟩) (create [])).1
    (Decodable.namesReadable ⟨d, h⟩)
  rw [hafter] at hcaches
  obtain ⟨hwire, hfull⟩ := Prod.mk.inj hcaches
  refine ⟨fun hne => absurd hfull hne, fun w hw => ?_⟩
  -- an encoded packet is its own encoding
  cases wire with
  | encoded block =>
    rw [hwire] at hw
    cases hw
    exact ⟨d, h, rfl⟩
  | unencoded type elements =>
    rw [hwire] at hw
    cases hw

theorem coherent_after_wireDecode_iff (hd : d.Coherent) (wire : PacketBlock) :
    (after (wireDecode wire) d).Coherent ↔ d.DecodeKeepsCoherence wire := by
  by_cases htype : wire.type = Tlv.data
  case neg =>
    rw [wireDecode, if_pos htype, after_throw]
    exact ⟨fun _ => .inl htype, fun _ => hd⟩
  by_cases hdec : Decodable wire
  case pos =>
    refine ⟨fun _ => .inr (.inl hdec), fun _ => ?_⟩
    obtain ⟨e, he⟩ := hdec
    rw [after_of_run_ok (run_wireDecode_of_ofBlock he d)]
    exact coherent_of_ofBlock he
  have hkeeps : d.DecodeKeepsCoherence wire ↔
      wire.wire = none ∧ (d.fullName = [] ∨ NamesReadable wire) := by
    simp [DecodeKeepsCoherence, htype, hdec]
  rw [hkeeps]
  obtain ⟨hyes, hno⟩ := caches_after_wireDecode htype d
  have hwire : (after (wireDecode wire) d).wire = wire.wire := by
    by_cases h : NamesReadable wire
    · exact (Prod.mk.inj (hyes h)).1
    · exact (Prod.mk.inj (hno h)).1
  cases wire with
  | encoded block =>
    -- the object now holds an encoding that the decoder refuses
    refine ⟨fun hc => ?_, fun h => by cases h.1⟩
    obtain ⟨e, he, -⟩ := hc.wire block hwire
    exact absurd ⟨e, he⟩ hdec
  | unencoded type elements =>
    rw [coherent_iff_of_wire_none hwire]
    by_cases h : NamesReadable (.unencoded type elements)
    · simp [h, (Prod.mk.inj (hyes h)).2, PacketBlock.wire]
    · simp [h, (Prod.mk.inj (hno h)).2, PacketBlock.wire]

theorem coherent_resetWire (d : Data) : d.resetWire.Coherent :=
  coherent_of_caches_eq rfl

theorem coherent_after_ofExcept_resetWire (hd : d.Coherent) {α : Type} (x : Except String α)
    (f : α → Data → Data) :
    (after (do let a ← ofExcept x; modify fun d => resetWire (f a d)) d).Coherent := by
  cases x with
  | ok a => exact coherent_resetWire _
  | error e => exact hd

theorem coherent_after_setMetaInfoField (hd : d.Coherent) {α : Type} [DecidableEq α]
    (field : MetaInfo → α) (value : α) (setter : EStateM String MetaInfo Unit)
    (hsetter : ∀ m e m', setter.run m = .error e m' → m' = m) :
    (after (setMetaInfoField field value setter) d).Coherent := by
  rw [setMetaInfoField, after_get_bind]
  split
  · exact hd
  · cases h : setter.run d.metaInfo with
    | ok u m =>
      rw [after_bind_of_ok (s := d) (run_zoom_eq_ok_iff.mpr ⟨m, h, rfl⟩)]
      exact coherent_resetWire _
    | error e m =>
      rw [after_bind_of_error (s := d) (run_zoom_of_error h), hsetter _ _ _ h]
      exact hd

theorem coherent_step_iff (hd : d.Coherent) (op : Op) :
    (d.step op).Coherent ↔ op.KeepsCoherence d := by
  unfold step
  cases op with
  | setName name =>
    simp only [Op.call, setName, after_modify, Op.KeepsCoherence, iff_true]
    split
    · exact hd
    · exact coherent_resetWire _
  | setFunction function => exact coherent_iff_of_wire_none rfl
  | setMetaInfo metaInfo => exact iff_of_true (coherent_resetWire _) trivial
  | setContent block =>
    refine iff_of_true ?_ trivial
    cases block with
    | none => exact hd
    | some block =>
      simp only [Op.call, setContent]
      split
      · exact coherent_resetWire _
      · exact coherent_after_ofExcept_resetWire hd _ _
  | setContentValue value =>
    refine iff_of_true ?_ trivial
    cases value with
    | none => exact hd
    | some value => exact coherent_after_ofExcept_resetWire hd _ _
  | setContent2 value =>
    simp only [Op.call, setContent2, after_modify_bind, Op.KeepsCoherence]
    cases Block.makeBinaryBlock Tlv.content value with
    | ok content | error e => exact coherent_iff_of_wire_none rfl
  | unsetContent | setSignatureInfo signatureInfo => exact iff_of_true (coherent_resetWire _) trivial
  | setSignatureValue value =>
    refine iff_of_true ?_ trivial
    cases value with
    | none => exact hd
    | some value => exact coherent_after_ofExcept_resetWire hd _ _
  | setContentType type =>
    refine iff_of_true (coherent_after_setMetaInfoField hd _ _ _ fun m e m' h => ?_) trivial
    cases h
  | setFreshnessPeriod freshnessPeriod =>
    refine iff_of_true (coherent_after_setMetaInfoField hd _ _ _ fun m e m' h => ?_) trivial
    unfold MetaInfo.setFreshnessPeriod at h
    split at h
    · cases h; rfl
    · cases h
  | setFinalBlock finalBlockId =>
    refine iff_of_true (coherent_after_setMetaInfoField hd _ _ _ fun m e m' h => ?_) trivial
    cases h
  | wireEncode =>
    simp only [Op.call, after_bind_pure, after_wireEncode, Op.KeepsCoherence]
    cases hwire : d.wire with
    | some wire => simpa using hd
    | none =>
      cases hblock : d.encodedBlock with
      | error e => simpa using hd
      | ok block =>
        have htype := type_of_encodedBlock hblock
        simp [coherent_after_wireDecode_iff hd, decodeKeepsCoherence_encoded_iff htype]
  | wireEncodeSigned unsigned signatureValue =>
    simp only [Op.call, after_bind_pure, wireEncodeSigned, Op.KeepsCoherence]
    cases hblock : Block.makeBinaryBlock Tlv.data (unsigned ++ signatureValue.wire) with
    | error e => simpa using hd
    | ok block =>
      have htype : block.type = Tlv.data :=
        Block.type_of_ofBytes_encodeElement (by decide) (by decide) hblock
      rw [ofExcept_ok_bind, after_bind_pure, coherent_after_wireDecode_iff hd,
        decodeKeepsCoherence_encoded_iff htype]
      simp
  | wireDecode wire => exact coherent_after_wireDecode_iff hd wire
  | getFullName =>
    refine iff_of_true ?_ trivial
    rw [Op.call, after_bind_pure, getFullName, after_get_bind]
    split
    · exact hd
    · split
      next => exact hd
      next wire hwire => exact ⟨fun _ => ⟨wire, hwire, rfl⟩, hd.wire⟩

theorem Constructed.coherent (h : d.Constructed) : d.Coherent := by
  obtain ⟨name, rfl⟩ | ⟨wire, h⟩ := h
  · exact coherent_of_caches_eq rfl
  · exact coherent_of_ofBlock h

/-- In every run from a constructed object, the caches are coherent in all states that are reached
exactly when each call of the run keeps them so. -/
theorem coherent_throughout_iff {d : Data} (hd : d.Constructed) (ops : List Op) :
    (∀ front, front <+: ops → (Run.run step d front).Coherent) ↔
      Run.Meets step (fun d op => op.KeepsCoherence d) d ops :=
  Run.invariant_iff_meets Coherent (fun _ op hd => coherent_step_iff hd op) hd.coherent

/-- Signing an object that has a name: a signature without key, and its value. -/
def signOps : List Op :=
  [.setSignatureInfo (.create 0 none), .setSignatureValue (some [1]), .wireEncode]

omit [Sha256] in
set_option maxRecDepth 4000 in
/-- Two ways to lose coherence: a new Function leaves the old full name, and a packet that cannot be
decoded is kept as the encoding. -/
theorem not_coherent_throughout : ∃ _ : Sha256, ∃ name function : Name, ∃ block : Block,
    (create name).Constructed ∧
    ¬ (Run.run step (create name) (signOps ++ [.getFullName, .setFunction function])).Coherent ∧
    ¬ (Run.run step (create name) [.wireDecode (.encoded block)]).Coherent := by
  let _ := Sha256.constant
  refine ⟨Sha256.constant, [.generic [65]], [.generic [66]],
    .make Tlv.data [] (by decide) (by decide) (by decide), .inl ⟨_, rfl⟩, ?_, ?_⟩
  · rw [coherent_iff_of_wire_none (by decide)]
    decide
  · intro h
    obtain ⟨e, he, -⟩ := h.wire _ rfl
    cases he

omit [Sha256] in
set_option maxRecDepth 4000 in
/-- A run that signs a packet, asks for its full name and renames it keeps the caches coherent. -/
theorem coherent_throughout_signed : ∃ _ : Sha256, ∃ name other : Name,
    (create name).Constructed ∧
      ∀ front, front <+: signOps ++ [.getFullName, .setName other] →
        (Run.run step (create name) front).Coherent := by
  let _ := Sha256.constant
  have hd : (create [.generic [65]]).Constructed := .inl ⟨_, rfl⟩
  refine ⟨Sha256.constant, [.generic [65]], [.generic [66]], hd,
    (coherent_throughout_iff hd _).mpr ⟨trivial, trivial, ?_, trivial, trivial, trivial⟩⟩
  intro _ wire h
  have hall : (encodedBlock (Run.run step (create [.generic [65]]) (signOps.take 2))).toOption.all
      fun wire => decide (Decodable (.encoded wire)) := by decide
  rw [show encodedBlock (Run.run step (create [.generic [65]]) (signOps.take 2)) = .ok wire from h]
    at hall
  exact of_decide_eq_true hall

/-- The packet that the tables of the forwarder see of a Data object with an encoding. -/
def packet (d : Data) (wire : Block) : DataPacket where
  name := d.name
  function := d.function
  freshnessPeriod := d.metaInfo.freshnessPeriod
  wire := wire.wire

end Data

end NdnFc
