import NdnFc.Packet.Interest
import NdnFc.Packet.SignatureInfo

/-!
# Interest objects

An Interest object holds the fields of an Interest and its encoding when it is known
(`ndn-cxx/interest.cpp`). The parameters are the ApplicationParameters element and the elements
after it. Name and Function are two elements of the same type at the front, and fields with their
default value are not encoded.
-/

namespace NdnFc

namespace Interest

/-! ### The digest of the parameters -/

/-- The result of `findParametersDigestComponent`: no digest component (-1), several (-2), or the
index of the only one. -/
inductive DigestIndex where
  | absent
  | several
  | only (index : ℕ)
deriving DecidableEq, Repr

def findParametersDigestComponent (name : Name) : DigestIndex :=
  match name.findIdx? Component.isParametersSha256Digest with
  | none => .absent
  | some index =>
    if (name.drop (index + 1)).any Component.isParametersSha256Digest then .several
    else .only index

def hasApplicationParameters (i : Interest) : Bool :=
  !i.parameters.isEmpty

section

variable [Sha256] (i : Interest)

/-- `computeParametersDigest`: the digest of the parameters as they are encoded. -/
def computeParametersDigest : Bytes :=
  Sha256.digest (i.parameters.flatMap Block.wire)

def isParametersDigestValid : Bool :=
  match findParametersDigestComponent i.name with
  | .absent => !i.hasApplicationParameters
  | .several => false
  | .only index =>
    i.hasApplicationParameters &&
      (i.name[index]?).any fun c => c.value == i.computeParametersDigest

/-- The component made by `Component::fromParametersSha256Digest`. -/
def parametersDigest : Component :=
  ⟨Tlv.parametersSha256DigestComponent, i.computeParametersDigest, by decide, by decide⟩

def addOrReplaceParametersDigestComponent : Interest :=
  match findParametersDigestComponent i.name with
  | .absent => { i with name := i.name ++ [i.parametersDigest] }
  | .several => i
  | .only index => { i with name := i.name.set index i.parametersDigest }

end

/-! ### Encoder -/

variable (i : Interest)

/-- The elements of an encoded Interest after Name and Function and before the parameters. -/
def encodeOptional (nonce : Nonce) : Bytes :=
  (if i.canBePrefix then Tlv.encodeElement Tlv.canBePrefix [] else []) ++
  (if i.mustBeFresh then Tlv.encodeElement Tlv.mustBeFresh [] else []) ++
  (if i.forwardingHint.dels = [] then []
    else Tlv.encodeElement Tlv.forwardingHint i.forwardingHint.encodeValue) ++
  Tlv.encodeElement Tlv.nonce nonce.1 ++
  (if i.interestLifetime = defaultInterestLifetime then []
    else Tlv.encodeElement Tlv.interestLifetime
      (Tlv.writeNonNegativeInteger (Tlv.ofMilliseconds i.interestLifetime))) ++
  (match i.hopLimit with
    | none => []
    | some hopLimit => Tlv.encodeElement Tlv.hopLimit [hopLimit])

def encodeValue (nonce : Nonce) : Bytes :=
  i.name.wireEncode ++ i.function.wireEncode ++ i.encodeOptional nonce ++
    i.parameters.flatMap Block.wire

/-- `wireEncode(encoder)`, for an Interest whose nonce has been set or generated. -/
def encode (nonce : Nonce) : Except String Bytes :=
  match findParametersDigestComponent i.name, i.hasApplicationParameters with
  | .absent, true =>
    throw "Interest with parameters must have a ParametersSha256DigestComponent"
  | .several, false =>
    throw "Interest without parameters must not have a ParametersSha256DigestComponent"
  | .only _, false =>
    throw "Interest without parameters must not have a ParametersSha256DigestComponent"
  | _, _ => pure (Tlv.encodeElement Tlv.interest (i.encodeValue nonce))

/-- An Interest object: the fields and the encoding if there is one. -/
structure Object extends Interest where
  wire : Option Block
deriving DecidableEq

namespace Object

/-! ### Decoder -/

/-- The part of `wireDecode` that reads the Name, into a temporary object first. -/
def decodeName : List Block → EStateM String Object (List Block)
  | [] => throw "Name element is missing or out of order"
  | element :: rest =>
    if element.type ≠ Tlv.name then throw "Name element is missing or out of order"
    else do
      let name ← Method.ofExcept (Name.ofBlock element)
      if name = [] then throw "Name has zero name components"
      else if findParametersDigestComponent name = .several then
        throw "Name has more than one ParametersSha256DigestComponent"
      else do
        modify ({ · with name })
        pure rest

/-- The part of `wireDecode` that reads the Function. -/
def decodeFunction : List Block → EStateM String Object (List Block)
  | [] => throw "Function element is missing or out of order"
  | element :: rest =>
    if element.type ≠ Tlv.name then throw "Function element is missing or out of order"
    else do
      let function ← Method.ofExcept (Name.ofBlock element)
      modify ({ · with function })
      pure rest

/-- The assignments of `wireDecode` between the names and the other elements. -/
def resetFields (i : Object) : Object :=
  { i with
    canBePrefix := false, mustBeFresh := false, forwardingHint := .empty, nonce := none,
    interestLifetime := defaultInterestLifetime, hopLimit := none, parameters := [] }

/-- The loop of `wireDecode`. The number is that of the last recognised element in the order of the
packet format. -/
def decodeElements : ℕ → List Block → EStateM String Object Unit
  | _, [] => pure ()
  | last, element :: rest =>
    if element.type = Tlv.canBePrefix then
      if 2 ≤ last then throw "CanBePrefix element is out of order"
      else if element.value ≠ [] then throw "CanBePrefix element has non-zero TLV-LENGTH"
      else do
        modify ({ · with canBePrefix := true })
        decodeElements 2 rest
    else if element.type = Tlv.mustBeFresh then
      if 3 ≤ last then throw "MustBeFresh element is out of order"
      else if element.value ≠ [] then throw "MustBeFresh element has non-zero TLV-LENGTH"
      else do
        modify ({ · with mustBeFresh := true })
        decodeElements 3 rest
    else if element.type = Tlv.forwardingHint then
      if 4 ≤ last then throw "ForwardingHint element is out of order"
      else do
        Method.zoom (fun i => i.forwardingHint) (fun forwardingHint i => { i with forwardingHint })
          (DelegationList.wireDecode element true)
        decodeElements 4 rest
    else if element.type = Tlv.nonce then
      if 5 ≤ last then throw "Nonce element is out of order"
      else if h : element.value.length = 4 then do
        modify ({ · with nonce := some ⟨element.value, h⟩ })
        decodeElements 5 rest
      else throw "Nonce element is malformed"
    else if element.type = Tlv.interestLifetime then
      if 6 ≤ last then throw "InterestLifetime element is out of order"
      else do
        let count ← Method.ofExcept element.readNonNegativeInteger
        modify ({ · with interestLifetime := Tlv.toMilliseconds count })
        decodeElements 6 rest
    else if element.type = Tlv.hopLimit then
      -- HopLimit is not critical: out of order it is ignored
      if 7 ≤ last then decodeElements last rest
      else
        match element.value with
        | [hopLimit] => do
          modify ({ · with hopLimit := some hopLimit })
          decodeElements 7 rest
        | _ => throw "HopLimit element is malformed"
    else if element.type = Tlv.applicationParameters then
      -- nor is ApplicationParameters
      if 8 ≤ last then decodeElements last rest
      else do
        modify fun i => { i with parameters := i.parameters ++ [element] }
        decodeElements 8 rest
    else if Tlv.isCriticalType element.type then
      throw ("Unrecognized element of critical type " ++ toString element.type)
    else do
      -- elements after ApplicationParameters belong to the parameters
      modify fun i =>
        if i.hasApplicationParameters then { i with parameters := i.parameters ++ [element] } else i
      decodeElements last rest

variable [Sha256]

/-- `wireDecode`. The first argument is `s_autoCheckParametersDigest`. -/
def wireDecode (autoCheckParametersDigest : Bool) (wire : PacketBlock) :
    EStateM String Object Unit :=
  if wire.type ≠ Tlv.interest then throw (Tlv.unexpectedType "Interest" wire.type)
  else do
    modify ({ · with wire := wire.wire })
    let elements ← Method.ofExcept wire.parse
    let elements ← decodeName elements
    let elements ← decodeFunction elements
    modify resetFields
    decodeElements 1 elements
    let i ← get
    if autoCheckParametersDigest && !i.isParametersDigestValid then
      throw "ParametersSha256DigestComponent does not match the SHA-256 of Interest parameters"
    else pure ()

omit [Sha256] in
/-- The fields of an object before any is set. -/
def default : Object :=
  { ofName [] [] with wire := none }

variable (autoCheckParametersDigest : Bool)

/-- `Interest(wire)`: when the decoder throws there is no object. -/
def ofBlock (wire : PacketBlock) : Except String Object :=
  Method.toExcept (wireDecode autoCheckParametersDigest wire) default

/-- `wireEncode()`. The nonce `fresh` is the one that is generated when none is set. What was
encoded is decoded again into the same object. -/
def wireEncode (fresh : Nonce) : EStateM String Object Block := do
  let i ← get
  match i.wire with
  | some wire => pure wire
  | none => do
    let nonce := i.nonce.getD fresh
    let bytes ← Method.ofExcept (i.encode nonce)
    modify ({ · with nonce := some nonce })
    let wire ← Method.ofExcept (Block.ofBytes bytes)
    wireDecode autoCheckParametersDigest (.encoded wire)
    pure wire

/-! ### Setters -/

def setName (name : Name) : EStateM String Object Unit :=
  if findParametersDigestComponent name = .several then
    throw "Name cannot have more than one ParametersSha256DigestComponent"
  else modify fun i =>
    if name = i.name then i
    else
      let named := { i.toInterest with name }
      { (if named.hasApplicationParameters then named.addOrReplaceParametersDigestComponent
          else named) with wire := none }

section

omit [Sha256]

def setFunction (function : Name) : EStateM String Object Unit :=
  modify ({ · with function, wire := none })

def setCanBePrefix (canBePrefix : Bool) : EStateM String Object Unit :=
  modify ({ · with canBePrefix, wire := none })

def setMustBeFresh (mustBeFresh : Bool) : EStateM String Object Unit :=
  modify ({ · with mustBeFresh, wire := none })

def setForwardingHint (forwardingHint : DelegationList) : EStateM String Object Unit :=
  modify ({ · with forwardingHint, wire := none })

def setNonce (nonce : Option Nonce) : EStateM String Object Unit :=
  modify fun i => if nonce = i.nonce then i else { i with nonce, wire := none }

def setInterestLifetime (lifetime : Int64) : EStateM String Object Unit :=
  if lifetime.toInt < 0 then throw "InterestLifetime must be >= 0"
  else modify fun i =>
    if lifetime.toInt = i.interestLifetime then i
    else { i with interestLifetime := lifetime.toInt, wire := none }

def setHopLimit (hopLimit : Option UInt8) : EStateM String Object Unit :=
  modify fun i => if hopLimit = i.hopLimit then i else { i with hopLimit, wire := none }

def setApplicationParametersInternal (parameters : Block) (i : Interest) : Interest :=
  { i with
    parameters := if i.parameters = [] then [parameters] else i.parameters.set 0 parameters }

end

/-- The end of every setter of a parameter. -/
def finishParameters (i : Interest) : Object :=
  { i.addOrReplaceParametersDigestComponent with wire := none }

/-- `setApplicationParameters(block)`, where no block stands for an invalid one. A block of another
type becomes the only sub-element of ApplicationParameters. -/
def setApplicationParameters : Option Block → EStateM String Object Unit
  | none => throw "ApplicationParameters block must be valid"
  | some block => do
    let parameters ← if block.type = Tlv.applicationParameters then pure block
      else Method.ofExcept (Block.makeBinaryBlock Tlv.applicationParameters block.wire)
    modify fun i => finishParameters (setApplicationParametersInternal parameters i.toInterest)

/-- `setApplicationParameters(value, length)` and `setApplicationParameters(value)`, where no value
stands for a null pointer. -/
def setApplicationParametersValue : Option Bytes → EStateM String Object Unit
  | none => throw "ApplicationParameters buffer cannot be nullptr"
  | some value => do
    let parameters ← Method.ofExcept (Block.makeBinaryBlock Tlv.applicationParameters value)
    modify fun i => finishParameters (setApplicationParametersInternal parameters i.toInterest)

omit [Sha256] in
def unsetApplicationParameters : EStateM String Object Unit :=
  modify fun i =>
    { i with
      parameters := []
      name := match findParametersDigestComponent i.name with
        | .only index => i.name.eraseIdx index
        | _ => i.name
      wire := none }

omit [Sha256] in
/-- The position of the first parameter of a type, `findFirstParameter`. -/
def findFirstParameter (i : Interest) (type : ℕ) : Option ℕ :=
  i.parameters.findIdx? fun b => b.type == type

/-- Replace the parameter of the type of `block`, or insert it at `position` when there is none. An
equal one is left alone. -/
def putParameter (block : Block) (type position : ℕ) (i : Object) : Object :=
  match findFirstParameter i.toInterest type with
  | some index =>
    if (i.parameters[index]?).any fun b => b.equals block then i
    else finishParameters { i.toInterest with parameters := i.parameters.set index block }
  | none => finishParameters { i.toInterest with parameters := i.parameters.insertIdx position block }

/-- `setSignatureInfo`. An empty ApplicationParameters element is added before the info is encoded,
and a new info stands before the signature value if there is one. -/
def setSignatureInfo (info : SignatureInfo) : EStateM String Object Unit := do
  modify fun i =>
    if i.parameters = [] then
      { i with parameters := [.makeEmptyBlock Tlv.applicationParameters (by decide) (by decide)] }
    else i
  let encodedInfo ← Method.ofExcept (info.encodedBlock .interest)
  modify fun i =>
    putParameter encodedInfo Tlv.interestSignatureInfo
      ((findFirstParameter i.toInterest Tlv.interestSignatureValue).getD i.parameters.length) i

/-- `setSignatureValue`, where no value stands for a null pointer. A new value stands after the
first signature info. -/
def setSignatureValue : Option Bytes → EStateM String Object Unit
  | none => throw "InterestSignatureValue buffer cannot be nullptr"
  | some value => do
    let i ← get
    match findFirstParameter i.toInterest Tlv.interestSignatureInfo with
    | none => throw "InterestSignatureInfo must be present to set InterestSignatureValue"
    | some index => do
      let valueBlock ← Method.ofExcept (Block.makeBinaryBlock Tlv.interestSignatureValue value)
      modify (putParameter valueBlock Tlv.interestSignatureValue (index + 1))

end Object

end Interest

end NdnFc
