import NdnFc.Packet.Interest
import NdnFc.Packet.MetaInfo
import NdnFc.Packet.SignatureInfo

/-!
# Data packets

A `Data` object holds the fields of a packet and caches its encoding and full name
(`ndn-cxx/data.cpp`). Most setters drop both caches; `setFunction` and `setContent2`, which can be
called on a constant object, drop the encoding only. The decoder replaces the encoding first and may
throw afterwards.
-/

namespace NdnFc

open Method

structure DataFields where
  name : Name
  function : Name
  metaInfo : MetaInfo
  content : Option Block
  signatureInfo : SignatureInfo
  signatureValue : Option Block
deriving DecidableEq

/-- A Data object: the fields, the encoding if there is one, and the full name, empty when it has
not been computed. -/
structure Data extends DataFields where
  wire : Option Block
  fullName : Name
deriving DecidableEq

namespace Data

variable (d : Data)

/-- The bytes that `getContent` gives access to. -/
def contentValue : Bytes :=
  match d.content with
  | some content => content.value
  | none => []

/-! ### Constructor, encoder and decoder -/

def create (name : Name) : Data where
  name := name
  function := []
  metaInfo := .empty
  content := none
  signatureInfo := .empty
  signatureValue := none
  wire := none
  fullName := []

/-- `prependBlock`. An invalid block is written as an element of type 0 with no value. -/
def encodeBlock : Option Block → Bytes
  | some block => block.wire
  | none => [0, 0]

def encode (d : DataFields) : Except String Bytes :=
  if !d.signatureInfo.isValid then throw "Requested wire format, but Data has not been signed"
  else do
    let signatureInfo ← d.signatureInfo.encode .data
    let content := match d.content with
      | some content => content.wire
      | none => []
    pure (Tlv.encodeElement Tlv.data
      (d.name.wireEncode ++ d.function.wireEncode ++ d.metaInfo.wireEncode ++ content ++
        signatureInfo ++ encodeBlock d.signatureValue))

/-- `wireEncode(encoder, true)`: the unsigned portion only. -/
def encodeUnsigned (d : DataFields) : Except String Bytes := do
  let signatureInfo ← d.signatureInfo.encode .data
  let content := match d.content with
    | some content => content.wire
    | none => []
  pure (d.name.wireEncode ++ d.function.wireEncode ++ d.metaInfo.wireEncode ++ content ++
    signatureInfo)

/-- The Name and Function elements at the front of a packet: the name decoded from the first
element, and the elements after it. -/
def decodeName (missing : String) (part : Data → Name) (put : Name → Data → Data) :
    List Block → EStateM String Data (List Block)
  | [] => throw missing
  | element :: rest =>
    if element.type ≠ Tlv.name then throw missing
    else do
      zoom part put (Name.wireDecode element)
      pure rest

/-- The part of `wireDecode` that reads Name and Function. -/
def decodeNames (elements : List Block) : EStateM String Data (List Block) := do
  let elements ← decodeName "Name element is missing or out of order"
    (fun d => d.name) (fun name d => { d with name }) elements
  decodeName "Function element is missing or out of order"
    (fun d => d.function) (fun function d => { d with function }) elements

/-- The assignments of `wireDecode` between the names and the other elements. -/
def resetFields : Data :=
  { d with
    metaInfo := .empty, content := none, signatureInfo := .empty, signatureValue := none,
    fullName := [] }

/-- The loop of `wireDecode`. The number is that of the last recognised element in the order of the
packet format. -/
def decodeElements : ℕ → List Block → EStateM String Data Unit
  | _, [] => pure ()
  | last, element :: rest =>
    if element.type = Tlv.metaInfo then
      if 2 ≤ last then throw "MetaInfo element is out of order"
      else do
        zoom (fun d => d.metaInfo) (fun metaInfo d => { d with metaInfo })
          (MetaInfo.wireDecode element)
        decodeElements 2 rest
    else if element.type = Tlv.content then
      if 3 ≤ last then throw "Content element is out of order"
      else do
        modify ({ · with content := some element })
        decodeElements 3 rest
    else if element.type = Tlv.signatureInfo then
      if 4 ≤ last then throw "SignatureInfo element is out of order"
      else do
        zoom (fun d => d.signatureInfo) (fun signatureInfo d => { d with signatureInfo })
          (SignatureInfo.wireDecode element .data)
        decodeElements 4 rest
    else if element.type = Tlv.signatureValue then
      if 5 ≤ last then throw "SignatureValue element is out of order"
      else do
        modify ({ · with signatureValue := some element })
        decodeElements 5 rest
    else if Tlv.isCriticalType element.type then
      throw ("Unrecognized element of critical type " ++ toString element.type)
    else decodeElements last rest

/-- The part of `wireDecode` after the names. -/
def decodeRest (elements : List Block) : EStateM String Data Unit := do
  decodeElements 1 elements
  let d ← get
  if !d.signatureInfo.isValid then throw "SignatureInfo element is missing"
  else if d.signatureValue = none then throw "SignatureValue element is missing"
  else pure ()

def wireDecode (wire : PacketBlock) : EStateM String Data Unit :=
  if wire.type ≠ Tlv.data then throw (Tlv.unexpectedType "Data" wire.type)
  else do
    modify ({ · with wire := wire.wire })
    let elements ← Method.ofExcept wire.parse
    let elements ← decodeNames elements
    modify resetFields
    decodeRest elements

/-- `Data(wire)`: when the decoder throws there is no object. -/
def ofBlock (wire : PacketBlock) : Except String Data :=
  toExcept (wireDecode wire) (create [])

/-- `wireEncode()`. What was encoded is decoded again into the same object. -/
def wireEncode : EStateM String Data Block := do
  let d ← get
  match d.wire with
  | some wire => pure wire
  | none => do
    let bytes ← Method.ofExcept (encode d.toDataFields)
    let wire ← Method.ofExcept (Block.ofBytes bytes)
    wireDecode (.encoded wire)
    pure wire

/-- `wireEncode(encoder, signatureValue)`: the unsigned portion is in the encoder already. -/
def wireEncodeSigned (unsigned : Bytes) (signatureValue : Block) : EStateM String Data Block := do
  let wire ← Method.ofExcept (Block.makeBinaryBlock Tlv.data (unsigned ++ signatureValue.wire))
  wireDecode (.encoded wire)
  pure wire

/-- The signed range of an encoding: its value up to the element before the SignatureValue. -/
def signedRange (wire : Block) : Except String Bytes := do
  let elements ← Block.parse wire.value
  pure ((elements.takeWhile fun element => element.type != Tlv.signatureValue).flatMap Block.wire)

/-- `extractSignedRanges`: there is one range. -/
def extractSignedRanges : EStateM String Data (List Bytes) := do
  let wire ← wireEncode
  let range ← Method.ofExcept (signedRange wire)
  pure [range]

/-! ### Accessors and setters -/

def getFullName [Sha256] : EStateM String Data Name := do
  let d ← get
  if d.fullName ≠ [] then pure d.fullName
  else
    match d.wire with
    | none => throw "Cannot compute full name because Data has no wire encoding (not signed)"
    | some wire => do
      let fullName := d.name ++ [Name.implicitDigest (Sha256.digest wire.wire)]
      set { d with fullName }
      pure fullName

def resetWire : Data :=
  { d with wire := none, fullName := [] }

def setName (name : Name) : EStateM String Data Unit :=
  modify fun d => if name = d.name then d else resetWire { d with name }

/-- `setFunction`: the full name is not dropped. -/
def setFunction (function : Name) : EStateM String Data Unit :=
  modify ({ · with function, wire := none })

def setMetaInfo (metaInfo : MetaInfo) : EStateM String Data Unit :=
  modify fun d => resetWire { d with metaInfo }

/-- `setContent(block)`, where no block stands for an invalid one. A block of another type becomes
the only sub-element of Content. -/
def setContent : Option Block → EStateM String Data Unit
  | none => throw "Content block must be valid"
  | some block => do
    let content ← if block.type = Tlv.content then pure block
      else Method.ofExcept (Block.makeBinaryBlock Tlv.content block.wire)
    modify fun d => resetWire { d with content := some content }

/-- `setContent(value, length)` and `setContent(value)`, where no value stands for a null
pointer. -/
def setContentValue : Option Bytes → EStateM String Data Unit
  | none => throw "Content buffer cannot be nullptr"
  | some value => do
    let content ← Method.ofExcept (Block.makeBinaryBlock Tlv.content value)
    modify fun d => resetWire { d with content := some content }

/-- `setContent2`: the full name is not dropped. -/
def setContent2 (value : Bytes) : EStateM String Data Unit := do
  modify ({ · with wire := none })
  let content ← Method.ofExcept (Block.makeBinaryBlock Tlv.content value)
  modify ({ · with content := some content })

def unsetContent : EStateM String Data Unit :=
  modify fun d => resetWire { d with content := none }

def setSignatureInfo (signatureInfo : SignatureInfo) : EStateM String Data Unit :=
  modify fun d => resetWire { d with signatureInfo }

/-- `setSignatureValue`, where no value stands for a null pointer. -/
def setSignatureValue : Option Bytes → EStateM String Data Unit
  | none => throw "SignatureValue buffer cannot be nullptr"
  | some value => do
    let signatureValue ← Method.ofExcept (Block.makeBinaryBlock Tlv.signatureValue value)
    modify fun d => resetWire { d with signatureValue := some signatureValue }

/-- The setters of single MetaInfo fields: nothing happens when the field has the value already. -/
def setMetaInfoField {α : Type} [DecidableEq α] (field : MetaInfo → α) (value : α)
    (setter : EStateM String MetaInfo Unit) : EStateM String Data Unit := do
  let d ← get
  if value = field d.metaInfo then pure ()
  else do
    zoom (fun d => d.metaInfo) (fun metaInfo d => { d with metaInfo }) setter
    modify resetWire

def setContentType (type : UInt32) : EStateM String Data Unit :=
  setMetaInfoField (fun m => m.type) type (MetaInfo.setType type)

def setFreshnessPeriod (freshnessPeriod : ℤ) : EStateM String Data Unit :=
  setMetaInfoField (fun m => m.freshnessPeriod) freshnessPeriod
    (MetaInfo.setFreshnessPeriod freshnessPeriod)

def setFinalBlock (finalBlockId : Option Component) : EStateM String Data Unit :=
  setMetaInfoField (fun m => m.finalBlockId) finalBlockId (MetaInfo.setFinalBlock finalBlockId)

/-! ### What the decoder leaves behind -/

variable {put : Name → Data → Data} {elements rest : List Block} {part : Data → Name}
  {missing : String}

theorem run_decodeName_eq_ok_iff {d d' : Data} :
    (decodeName missing part put elements).run d = .ok rest d' ↔
      ∃ element name, elements = element :: rest ∧ element.type = Tlv.name ∧
        Name.ofBlock element = .ok name ∧ d' = put name d := by
  cases elements with
  | nil => simp [decodeName]
  | cons element rest₀ =>
    rw [decodeName]
    by_cases htype : element.type = Tlv.name
    · rw [if_neg (not_not.mpr htype), run_bind_eq_ok_iff]
      simp only [run_zoom_eq_ok_iff, Name.run_wireDecode_eq_ok_iff, EStateM.run_pure,
        EStateM.Result.ok.injEq, List.cons.injEq]
      constructor
      · rintro ⟨-, -, ⟨name, ⟨ht, hn⟩, rfl⟩, rfl, rfl⟩
        exact ⟨element, name, ⟨rfl, rfl⟩, ht, hn, rfl⟩
      · rintro ⟨_, name, ⟨rfl, rfl⟩, ht, hn, rfl⟩
        exact ⟨⟨⟩, _, ⟨name, ⟨ht, hn⟩, rfl⟩, rfl, rfl⟩
    · simp only [ne_eq, htype, not_false_eq_true, if_true, run_throw, reduceCtorEq, false_iff]
      rintro ⟨_, name, h, ht, -⟩
      cases h
      exact htype ht

/-- The elements of a packet begin with a Name and a Function that decode. -/
def NamesDecode (elements : List Block) (name function : Name) (rest : List Block) : Prop :=
  ∃ n f, elements = n :: f :: rest ∧ n.type = Tlv.name ∧ f.type = Tlv.name ∧
    Name.ofBlock n = .ok name ∧ Name.ofBlock f = .ok function

theorem run_decodeNames_eq_ok_iff {d d' : Data} :
    (decodeNames elements).run d = .ok rest d' ↔
      ∃ name function, NamesDecode elements name function rest ∧
        d' = { d with name, function } := by
  simp only [decodeNames, run_bind_eq_ok_iff, run_decodeName_eq_ok_iff, NamesDecode]
  constructor
  · rintro ⟨_, _, ⟨n, name, rfl, hn, hname, rfl⟩, f, function, rfl, hf, hfunction, rfl⟩
    exact ⟨name, function, ⟨n, f, rfl, hn, hf, hname, hfunction⟩, rfl⟩
  · rintro ⟨name, function, ⟨n, f, rfl, hn, hf, hname, hfunction⟩, rfl⟩
    exact ⟨f :: rest, _, ⟨n, name, rfl, hn, hname, rfl⟩, f, function, rfl, hf, hfunction, rfl⟩

/-- The caches. The decoder of the elements after the names does not touch them. -/
def caches : Option Block × Name :=
  (d.wire, d.fullName)

theorem keeps_caches_decodeName (hput : ∀ name d, (put name d).caches = d.caches)
    (elements : List Block) :
    Keeps caches (decodeName missing part put elements) := by
  cases elements with
  | nil => exact keeps_throw _
  | cons element rest =>
    refine .ite (keeps_throw _) (.bind (keeps_zoom hput _) fun _ => ?_)
    exact keeps_pure _

theorem keeps_caches_decodeNames (elements : List Block) : Keeps caches (decodeNames elements) :=
  .bind (keeps_caches_decodeName (by intros; rfl) _)
    fun _ => keeps_caches_decodeName (by intros; rfl) _

theorem keeps_caches_decodeElements (last : ℕ) (elements : List Block) :
    Keeps caches (decodeElements last elements) := by
  induction elements generalizing last with
  | nil => exact keeps_pure _
  | cons element rest ih =>
    rw [decodeElements]
    refine .ite (.ite (keeps_throw _) (.bind (keeps_zoom (by intros; rfl) _)
      fun _ => ih 2)) (.ite (.ite (keeps_throw _) (.bind (keeps_modify (by intros; rfl))
      fun _ => ih 3)) (.ite (.ite (keeps_throw _) (.bind (keeps_zoom
      (by intros; rfl) _) fun _ => ih 4)) (.ite (.ite (keeps_throw _) (.bind
      (keeps_modify (by intros; rfl)) fun _ => ih 5)) (.ite (keeps_throw _) (ih last)))))

theorem keeps_caches_decodeRest (elements : List Block) : Keeps caches (decodeRest elements) :=
  .bind (keeps_caches_decodeElements 1 elements) fun _ =>
    .bind (fun _ => rfl) fun _ =>
      .ite (keeps_throw _) (.ite (keeps_throw _) (keeps_pure _))

/-- The object from which the elements after the names are decoded. Nothing of the previous object
is left in it. -/
def decodeStart (wire : PacketBlock) (name function : Name) : Data :=
  { create name with function, wire := wire.wire }

variable {wire : PacketBlock}

theorem run_wireDecode_eq_ok_iff {d d' : Data} :
    (wireDecode wire).run d = .ok () d' ↔
      wire.type = Tlv.data ∧ ∃ elements name function rest, wire.parse = .ok elements ∧
        NamesDecode elements name function rest ∧
        (decodeRest rest).run (decodeStart wire name function) = .ok () d' := by
  unfold wireDecode
  by_cases htype : wire.type = Tlv.data
  · rw [if_neg (not_not.mpr htype)]
    rw [run_modify_bind]
    simp only [run_bind_eq_ok_iff (m := Method.ofExcept _),
      run_bind_eq_ok_iff (m := decodeNames _), run_modify_bind,
      run_ofExcept_eq_ok_iff, run_decodeNames_eq_ok_iff, htype, true_and]
    constructor
    · rintro ⟨elements, _, ⟨hparse, rfl⟩, rest, _, ⟨name, function, hnames, rfl⟩, hrest⟩
      exact ⟨elements, name, function, rest, hparse, hnames, hrest⟩
    · rintro ⟨elements, name, function, rest, hparse, hnames, hrest⟩
      exact ⟨elements, _, ⟨hparse, rfl⟩, rest, _, ⟨name, function, hnames, rfl⟩, hrest⟩
  · simp [htype]

/-- The Name and the Function of a packet can be decoded. -/
def NamesReadable (wire : PacketBlock) : Prop :=
  ∃ elements name function rest, wire.parse = .ok elements ∧
    NamesDecode elements name function rest

theorem caches_after_wireDecode (htype : wire.type = Tlv.data) (d : Data) :
    (NamesReadable wire → caches (Method.after (wireDecode wire) d) = (wire.wire, [])) ∧
    (¬ NamesReadable wire → caches (Method.after (wireDecode wire) d) = (wire.wire, d.fullName)) := by
  rw [wireDecode, if_neg (not_not.mpr htype), after_modify_bind]
  cases hparse : wire.parse with
  | error e =>
    refine ⟨?_, fun _ => rfl⟩
    rintro ⟨elements, _, _, _, h, -⟩
    rw [hparse] at h
    cases h
  | ok elements =>
    rw [ofExcept_ok_bind]
    cases hnames : (decodeNames elements).run { d with wire := wire.wire } with
    | ok rest d' =>
      rw [after_bind_of_ok hnames, after_modify_bind, keeps_caches_decodeRest]
      obtain ⟨name, function, h, rfl⟩ := run_decodeNames_eq_ok_iff.mp hnames
      exact ⟨fun _ => rfl, fun hno => absurd ⟨elements, name, function, rest, hparse, h⟩ hno⟩
    | error e d' =>
      have hkeep := keeps_caches_decodeNames elements { d with wire := wire.wire }
      rw [after_of_run_error hnames] at hkeep
      rw [after_bind_of_error hnames]
      refine ⟨?_, fun _ => hkeep⟩
      rintro ⟨elements', name, function, rest, h, h'⟩
      rw [hparse] at h
      cases h
      have hok : (decodeNames elements).run { d with wire := wire.wire } = .ok rest _ :=
        run_decodeNames_eq_ok_iff.mpr ⟨name, function, h', rfl⟩
      rw [hnames] at hok
      cases hok

def Decodable (wire : PacketBlock) : Prop :=
  ∃ d, ofBlock wire = .ok d

instance (wire : PacketBlock) : Decidable (Decodable wire) :=
  decidable_of_iff ((ofBlock wire).isOk = true) <| by
    unfold Decodable
    cases ofBlock wire <;> simp [Except.isOk, Except.toBool]

theorem run_wireDecode_of_ofBlock {e : Data} (h : ofBlock wire = .ok e) (d : Data) :
    (wireDecode wire).run d = .ok () e := by
  have hrun := toExcept_eq_ok_iff.mp h
  rw [run_wireDecode_eq_ok_iff] at hrun ⊢
  exact hrun

theorem Decodable.namesReadable (h : Decodable wire) : NamesReadable wire := by
  obtain ⟨d, hd⟩ := h
  obtain ⟨-, elements, name, function, rest, hparse, hnames, -⟩ :=
    run_wireDecode_eq_ok_iff.mp (toExcept_eq_ok_iff.mp hd)
  exact ⟨elements, name, function, rest, hparse, hnames⟩

theorem Decodable.type_eq (h : Decodable wire) : wire.type = Tlv.data := by
  obtain ⟨d, hd⟩ := h
  exact (run_wireDecode_eq_ok_iff.mp (toExcept_eq_ok_iff.mp hd)).1

/-- The block that `wireEncode` decodes into an object without encoding. -/
def encodedBlock : Except String Block := do
  let bytes ← encode d.toDataFields
  Block.ofBytes bytes

theorem type_of_encodedBlock {d : Data} {wire : Block} (h : d.encodedBlock = .ok wire) :
    wire.type = Tlv.data := by
  obtain ⟨bytes, hbytes, hwire⟩ := Fallible.bind_eq_ok_iff.mp h
  unfold encode at hbytes
  split at hbytes
  · cases hbytes
  · obtain ⟨signatureInfo, -, hbytes⟩ := Fallible.bind_eq_ok_iff.mp hbytes
    cases hbytes
    exact Block.type_of_ofBytes_encodeElement (by decide) (by decide) hwire

theorem after_wireEncode :
    Method.after wireEncode d =
      match d.wire, d.encodedBlock with
      | none, .ok wire => Method.after (wireDecode (.encoded wire)) d
      | _, _ => d := by
  rw [wireEncode, after_get_bind]
  cases d.wire with
  | some wire => rfl
  | none =>
    change Method.after (Method.ofExcept (encode d.toDataFields) >>= _) d = _
    rw [encodedBlock]
    cases encode d.toDataFields with
    | error e => rfl
    | ok bytes =>
      rw [ofExcept_ok_bind, Fallible.ok_bind]
      cases Block.ofBytes bytes with
      | error e => rfl
      | ok wire => rw [ofExcept_ok_bind, after_bind_pure]

end Data

end NdnFc
