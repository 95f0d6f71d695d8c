import NdnFc.Lib.SortedTable
import NdnFc.Security.SignedPacket

/-!
# Certificates and the stores of certificates

A certificate is a Data with the name and the content of a key. Trust anchors and verified
certificates are sorted by name (`ndn-cxx/security/trust-anchor-container.cpp`,
`certificate-cache.cpp`). The verification of signatures (`verification-helpers.cpp`) and the
validity period of a certificate are parameters.
-/

namespace NdnFc.Security

abbrev contentTypeKey : UInt32 := 2

/-- A Data that the constructor of `Certificate` accepts. -/
structure Certificate where
  data : Data
  isValidName : fromEnd data.name keyComponentOffset = some keyComponent
  contentType_eq : data.metaInfo.type = contentTypeKey
  freshnessPeriod_nonneg : 0 ≤ data.metaInfo.freshnessPeriod
  contentValue_ne : data.contentValue ≠ []

namespace Certificate

/-- `getName` -/
abbrev name (c : Certificate) : Name := c.data.name

/-- `getPublicKey` -/
def publicKey (c : Certificate) : Bytes := c.data.contentValue

/-- The certificate as a Data packet. It was received or loaded, so it has an encoding. -/
def toPacket (c : Certificate) : DataPacket where
  name := c.name
  function := c.data.function
  freshnessPeriod := c.data.metaInfo.freshnessPeriod
  wire := (c.data.wire.map Block.wire).getD []

theorem ext_data {c d : Certificate} (h : c.data = d.data) : c = d := by
  cases c
  cases d
  cases h
  rfl

instance : DecidableEq Certificate := fun c d =>
  decidable_of_iff (c.data = d.data) ⟨ext_data, congrArg data⟩

end Certificate

/-- A certificate of the key with the given identifier. -/
def sampleCertificate (keyId : UInt8) : Certificate where
  data := { Data.create [keyComponent, .generic [keyId], .generic [], .generic []] with
    metaInfo := { MetaInfo.empty with type := contentTypeKey }
    content := (Block.ofBytes [21, 1, keyId]).toOption }
  isValidName := rfl
  contentType_eq := rfl
  freshnessPeriod_nonneg := le_rfl
  contentValue_ne := List.cons_ne_nil _ _

/-! ### Verification -/

inductive Packet where
  | data (data : Data)
  | interest (interest : SignedInterest)

namespace Packet

def name : Packet → Name
  | data d => d.name
  | interest i => i.interest.name

/-- The SignatureInfo that `parse` finds. With an InterestSignatureInfo but no
InterestSignatureValue, an Interest is read as one of version 0.2. -/
def parsedInfo : Packet → Option SignatureInfo
  | data d => some d.signatureInfo
  | interest i =>
    if i.signatureInfo.isSome ∧
        (i.interest.parameters.any fun b => b.type == Tlv.interestSignatureValue) then
      i.signatureInfo
    else (signatureInfoOfName i.interest.name).toOption

/-- The packet says that its signature is a digest. -/
def IsDigestSigned (packet : Packet) : Prop :=
  packet.parsedInfo.bind SignatureInfo.type = some SignatureInfo.digestSha256

instance (packet : Packet) : Decidable packet.IsDigestSigned :=
  inferInstanceAs (Decidable (_ = _))

end Packet

/-- What the cryptographic library and the parser of dates compute: whether a signature is valid
under a public key, whether it is the digest of the signed ranges, and the validity period of a
certificate. -/
structure Backend where
  verifyWithKey : Packet → Bytes → Bool
  verifyDigest : Packet → Bool
  getValidityPeriod : SignatureInfo → Except String (ℤ × ℤ)

namespace Backend

def verifySignature (backend : Backend) (packet : Packet) : Option Certificate → Bool
  | some certificate => backend.verifyWithKey packet certificate.publicKey
  | none => decide packet.IsDigestSigned && backend.verifyDigest packet

/-- The certificate is verified with the key of another. -/
def Issues (backend : Backend) (issuer certificate : Certificate) : Prop :=
  backend.verifySignature (.data certificate.data) (some issuer) = true

instance (backend : Backend) (issuer certificate : Certificate) :
    Decidable (backend.Issues issuer certificate) :=
  inferInstanceAs (Decidable (_ = true))

end Backend

/-! ### Stores -/

/-- The first certificate from the lower bound of the requested name on that matches the request,
as long as the requested name is a prefix. -/
def findByInterest [Sha256] {α : Type} (certificate : α → Certificate) (request : Interest)
    (l : List α) : Option α :=
  ((l.drop (SortedTable.lowerBound
      (fun a => Name.compare (certificate a).name request.name == .lt) l)).takeWhile
    fun a => request.name.isPrefixOf (certificate a).name).find?
    fun a => request.matchesData (certificate a).toPacket

theorem mem_of_findByInterest [Sha256] {α : Type} {certificate : α → Certificate}
    {request : Interest} {l : List α} {a : α} (h : findByInterest certificate request l = some a) :
    a ∈ l :=
  List.drop_subset _ _ ((List.takeWhile_sublist _).subset (List.mem_of_find?_eq_some h))

namespace TrustAnchors

def add (certificate : Certificate) (anchors : List Certificate) : List Certificate :=
  SortedTable.emplace (fun c d => Name.compare c.name d.name) certificate anchors

def remove (certName : Name) (anchors : List Certificate) : List Certificate :=
  anchors.filter fun c => c.name ≠ certName

/-- `TrustAnchorContainer::find`, when the dynamic groups have been refreshed. -/
def find [Sha256] (request : Interest) (anchors : List Certificate) : Option Certificate :=
  findByInterest id request anchors

end TrustAnchors

namespace CertificateCache

structure Entry where
  cert : Certificate
  removalTime : ℤ

/-- `insert`, at a time of the system clock. A certificate that has expired is not added. -/
def insert (maxLifetime system : ℤ) (notAfter : ℤ) (cert : Certificate) (entries : List Entry) :
    List Entry :=
  if notAfter < system then entries
  else SortedTable.emplace (fun a b => Name.compare a.cert.name b.cert.name)
    ⟨cert, min notAfter (system + maxLifetime)⟩ entries

def refresh (system : ℤ) (entries : List Entry) : List Entry :=
  entries.filter fun entry => system ≤ entry.removalTime

/-- `find`, after `refresh`. -/
def find [Sha256] (request : Interest) (entries : List Entry) : Option Certificate :=
  (findByInterest Entry.cert request entries).map Entry.cert

theorem mem_of_mem_insert {maxLifetime system notAfter : ℤ} {cert : Certificate}
    {entries : List Entry} {entry : Entry}
    (h : entry ∈ insert maxLifetime system notAfter cert entries) :
    entry.cert = cert ∨ entry ∈ entries := by
  unfold insert at h
  split_ifs at h
  · exact .inr h
  · rcases SortedTable.mem_of_mem_emplace h with rfl | hmem
    · exact .inl rfl
    · exact .inr hmem

end CertificateCache

end NdnFc.Security
