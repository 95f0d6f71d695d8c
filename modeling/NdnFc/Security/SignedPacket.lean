import NdnFc.Name.Uri
import NdnFc.Packet.Data
import NdnFc.Packet.InterestWire

/-!
# Signed packets and their key locators

An Interest with an InterestSignatureInfo among its parameters has the signature format of version
0.3, any other that of version 0.2, with SignatureInfo and SignatureValue as the last two components
of the Name. `getKeyLocatorName` (`ndn-cxx/security/validation-policy.cpp`) reports a packet without
a usable key locator and returns an empty name; the caller has to look at the outcome.
-/

namespace NdnFc

namespace SignatureInfo

/-- `SignatureInfo(wire, type)` -/
def ofBlock (wire : Block) (kind : Kind) : Except String SignatureInfo :=
  Method.toExcept (wireDecode wire kind) empty

abbrev digestSha256 : UInt16 := 0

end SignatureInfo

def Interest.getSignatureInfo (i : Interest) : Except String (Option SignatureInfo) :=
  match i.parameters.find? fun b => b.type == Tlv.interestSignatureInfo with
  | none => pure none
  | some block => some <$> SignatureInfo.ofBlock block .interest

namespace Security

/-! ### Errors -/

/-- `ValidationError::Code` -/
inductive ErrorCode where
  | invalidSignature
  | noSignature
  | cannotRetrieveCert
  | expiredCert
  | loopDetected
  | malformedCert
  | exceededDepthLimit
  | invalidKeyLocator
  | policyError
  | implementationError
deriving DecidableEq, Repr

structure ValidationError where
  code : ErrorCode
  info : String
deriving DecidableEq, Repr

/-- How a check ends without a result: an exception leaves it, or it has reported a failure. -/
inductive Refusal where
  | thrown (what : String)
  | failed (error : ValidationError)
deriving DecidableEq, Repr

/-- The failure is reported. -/
def Refusal.report {α : Type} : Except ValidationError α → Except Refusal α
  | .ok a => .ok a
  | .error e => .error (.failed e)

/-- The exception is not caught. -/
def Refusal.propagate {α : Type} : Except String α → Except Refusal α
  | .ok a => .ok a
  | .error e => .error (.thrown e)

@[simp] theorem Refusal.report_eq_ok_iff {α : Type} {x : Except ValidationError α} {a : α} :
    report x = .ok a ↔ x = .ok a := by
  cases x <;> simp [report]

@[simp] theorem Refusal.propagate_eq_ok_iff {α : Type} {x : Except String α} {a : α} :
    propagate x = .ok a ↔ x = .ok a := by
  cases x <;> simp [propagate]

/-- A name in the text of an error. -/
def uri (env : Option Bool) (name : Name) : String :=
  String.ofList (name.toUri env .envOrAlternate)

/-! ### Names of keys -/

/-- The component with the given characters. -/
def textComponent (text : List Char) : Component :=
  .generic (text.map PercentEncoding.byteOf)

/-- `/localhost/identity` -/
def localhostIdentity : Name :=
  [textComponent ['l', 'o', 'c', 'a', 'l', 'h', 'o', 's', 't'],
    textComponent ['i', 'd', 'e', 'n', 't', 'i', 't', 'y']]

/-- `SigningInfo::getDigestSha256Identity` -/
def digestSha256Identity : Name :=
  localhostIdentity ++
    [textComponent ['d', 'i', 'g', 'e', 's', 't', '-', 's', 'h', 'a', '2', '5', '6']]

/-- `SigningInfo::getHmacIdentity` -/
def hmacIdentity : Name :=
  localhostIdentity ++ [textComponent ['h', 'm', 'a', 'c']]

def keyComponent : Component :=
  textComponent ['K', 'E', 'Y']

/-- The number of components of a certificate name from `KEY` on, `-KEY_COMPONENT_OFFSET`. -/
abbrev keyComponentOffset : ℕ := 4

/-- The component `i` places before the end of a name. -/
def fromEnd (name : Name) (i : ℕ) : Option Component :=
  if i ≤ name.length then name[name.length - i]? else none

/-- `extractIdentityNameFromKeyLocator`: the name in front of the last `KEY` among the last four
components. -/
def extractIdentityNameFromKeyLocator (env : Option Bool) (keyLocator : Name) :
    Except String Name :=
  if keyLocator = digestSha256Identity ∨ keyLocator = hmacIdentity then pure keyLocator
  else
    match [1, 2, 3, keyComponentOffset].find? fun i => fromEnd keyLocator i == some keyComponent with
    | some i => pure (keyLocator.take (keyLocator.length - i))
    | none =>
      throw ("KeyLocator name `" ++ uri env keyLocator ++
        "` does not respect the naming conventions")

/-! ### The key of a packet -/

inductive SignedInterestFormat where
  | v02
  | v03
deriving DecidableEq, Repr

/-- The number of components that a signature of version 0.2 takes, `signed_interest::MIN_SIZE`. -/
abbrev signedInterestMinSize : ℕ := 2

/-- An Interest with the SignatureInfo among its parameters, which decides the format. -/
structure SignedInterest where
  interest : Interest
  signatureInfo : Option SignatureInfo
  getSignatureInfo_eq : interest.getSignatureInfo = .ok signatureInfo

/-- The name of the key in a SignatureInfo. -/
def keyLocatorName (si : SignatureInfo) : Except ValidationError Name :=
  if si.type = some SignatureInfo.digestSha256 then pure digestSha256Identity
  else
    match si.keyLocator with
    | none => throw ⟨.invalidKeyLocator, "KeyLocator is missing"⟩
    | some (.name name) => pure name
    | some _ => throw ⟨.invalidKeyLocator, "KeyLocator type is not Name"⟩

/-- The SignatureInfo in the name of a signed Interest of version 0.2. -/
def signatureInfoOfName (name : Name) : Except ValidationError SignatureInfo :=
  if name.length < signedInterestMinSize then
    throw ⟨.invalidKeyLocator, "Invalid signed Interest: name too short"⟩
  else
    match decode with
    | .ok si => pure si
    | .error e => throw ⟨.invalidKeyLocator, "Invalid signed Interest: " ++ e⟩
where
  /-- `blockFromValue` of the component before the last, and its decoding. -/
  decode : Except String SignatureInfo := do
    let value := ((fromEnd name 2).map Component.value).getD []
    if value = [] then throw "Cannot construct block from empty TLV-VALUE"
    else do
      let block ← Block.ofBytes value
      SignatureInfo.ofBlock block .data

namespace SignedInterest

/-- The Interest as it is tagged by `Validator::validate`; a SignatureInfo that cannot be decoded is
thrown as an error. -/
def ofInterest (interest : Interest) : Except String SignedInterest :=
  match h : interest.getSignatureInfo with
  | .ok signatureInfo => .ok ⟨interest, signatureInfo, h⟩
  | .error e => .error e

def format (i : SignedInterest) : SignedInterestFormat :=
  if i.signatureInfo.isSome then .v03 else .v02

/-- The SignatureInfo of either format. -/
def anySignatureInfo (i : SignedInterest) : Except ValidationError SignatureInfo :=
  match i.signatureInfo with
  | some si => pure si
  | none => signatureInfoOfName i.interest.name

def keyLocatorName (i : SignedInterest) : Except ValidationError Name := do
  let si ← i.anySignatureInfo
  Security.keyLocatorName si

end SignedInterest

end Security

end NdnFc
