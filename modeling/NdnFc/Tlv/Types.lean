import Mathlib.Data.Nat.Notation

/-!
# TLV-TYPE numbers

The byte strings and the assigned TLV-TYPE numbers of the packet format
(`ndn-cxx/encoding/tlv.hpp`, lines 62 to 181). Interests and Data carry their Function as a second
element of type `Tlv.name`; the number 32 that the header assigns to `Function` is not used by
the encoders.
-/

namespace NdnFc

abbrev Bytes := List UInt8

def maxNdnPacketSize : ℕ := 8800

namespace Tlv

abbrev invalid : ℕ := 0
abbrev interest : ℕ := 5
abbrev data : ℕ := 6
abbrev name : ℕ := 7
abbrev genericNameComponent : ℕ := 8
abbrev implicitSha256DigestComponent : ℕ := 1
abbrev parametersSha256DigestComponent : ℕ := 2
abbrev canBePrefix : ℕ := 33
abbrev mustBeFresh : ℕ := 18
abbrev forwardingHint : ℕ := 30
abbrev nonce : ℕ := 10
abbrev interestLifetime : ℕ := 12
abbrev hopLimit : ℕ := 34
abbrev applicationParameters : ℕ := 36
abbrev interestSignatureInfo : ℕ := 44
abbrev interestSignatureValue : ℕ := 46
abbrev metaInfo : ℕ := 20
abbrev content : ℕ := 21
abbrev signatureInfo : ℕ := 22
abbrev signatureValue : ℕ := 23
abbrev contentType : ℕ := 24
abbrev freshnessPeriod : ℕ := 25
abbrev finalBlockId : ℕ := 26
abbrev signatureType : ℕ := 27
abbrev keyLocator : ℕ := 28
abbrev keyDigest : ℕ := 29
abbrev signatureNonce : ℕ := 38
abbrev signatureTime : ℕ := 40
abbrev signatureSeqNum : ℕ := 42
abbrev linkDelegation : ℕ := 31
abbrev linkPreference : ℕ := 30

abbrev validityPeriod : ℕ := 253

abbrev nameComponentMin : ℕ := 1
abbrev nameComponentMax : ℕ := 65535

abbrev segmentNameComponent : ℕ := 33
abbrev byteOffsetNameComponent : ℕ := 34
abbrev versionNameComponent : ℕ := 35
abbrev timestampNameComponent : ℕ := 36
abbrev sequenceNumNameComponent : ℕ := 37

/-- Whether a TLV-TYPE is critical: a decoder must refuse an unrecognised element of such a
type. -/
def isCriticalType (type : ℕ) : Bool :=
  type ≤ 31 || type % 2 == 1

/-- The text of `tlv::Error(expectedType, actualType)`. -/
def unexpectedType (expectedType : String) (actualType : ℕ) : String :=
  "Expecting " ++ expectedType ++ " element, but TLV has type " ++ toString actualType

end Tlv

end NdnFc
