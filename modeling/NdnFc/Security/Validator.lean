import NdnFc.Security.Certificate

/-!
# The validator

A validation (`ndn-cxx/security/validator.cpp`, `validation-state.cpp`) begins with the policy,
which asks for the certificate of the key. A certificate that is neither a trust anchor nor verified
is fetched, and the policy is asked about it. When a trusted one is found, the certificates are
verified from it down to the packet. A request for the digest identity is answered by verifying the
digest of the original packet.
-/

namespace NdnFc.Security

open List

/-- `ValidationState`. The certificate that was added last is in front. -/
structure ValidationState where
  packet : Packet
  certificateChain : List Certificate
  seenCertificateNames : List Name

def ValidationState.init (packet : Packet) : ValidationState :=
  ⟨packet, [], []⟩

/-- A call of the success or of the failure callback. -/
inductive Report where
  | success
  | failure (error : ValidationError)
deriving DecidableEq

/-- The trust anchors and the cache of verified certificates. -/
structure Store where
  anchors : List Certificate
  verified : List CertificateCache.Entry

/-- The lifetime of a verified certificate in the cache. -/
abbrev verifiedLifetime : ℤ := 60 * 60 * 10 ^ 9

/-- `CertificateRequest(name)`: the constructor of Interest throws when the name has several digests of
parameters. -/
def certificateRequest (name : Name) : Except String Interest :=
  if Interest.findParametersDigestComponent name = .several then
    throw "Name cannot have more than one ParametersSha256DigestComponent"
  else pure { Interest.ofName name [] with canBePrefix := true }

variable {request : Interest} {store : Store} {system : ℤ} {backend : Backend}

theorem name_of_certificateRequest {name : Name} (h : certificateRequest name = .ok request) :
    request.name = name := by
  unfold certificateRequest at h
  split_ifs at h
  cases h
  rfl

/-- What a request leads to: a report, or a certificate has to be fetched. -/
inductive Next where
  | report (report : Report)
  | fetch (request : Interest)

/-- `verifyCertificateChain`: what is left of the chain, and the certificate that was verified last
or the one that failed. -/
def verifyCertificateChain (backend : Backend) :
    Certificate → List Certificate → List Certificate × Except Certificate Certificate
  | trusted, [] => ([], .ok trusted)
  | trusted, certificate :: rest =>
    if backend.Issues trusted certificate then
      let (verified, last) := verifyCertificateChain backend certificate rest
      (certificate :: verified, last)
    else ([], .error certificate)

/-- The kind of a packet in the text of an error. -/
def Packet.kind : Packet → String
  | .data _ => "data"
  | .interest _ => "interest"

def verifyOriginalPacket (backend : Backend) (env : Option Bool) (packet : Packet)
    (trustedCert : Option Certificate) : Report :=
  if backend.verifySignature packet trustedCert then .success
  else .failure ⟨.invalidSignature,
    "Invalid signature of " ++ packet.kind ++ " `" ++ uri env packet.name ++ "`"⟩

namespace Store

/-- `findTrustedCert`. The cache is refreshed when no trust anchor is found. -/
def findTrustedCert [Sha256] (system : ℤ) (request : Interest) (store : Store) :
    Option Certificate × Store :=
  match TrustAnchors.find request store.anchors with
  | some anchor => (some anchor, store)
  | none =>
    let verified := CertificateCache.refresh system store.verified
    (CertificateCache.find request verified, { store with verified })

/-- `cacheVerifiedCertificate`. The validity period was read when the certificate was fetched. -/
def cacheVerifiedCertificate (backend : Backend) (system : ℤ) (store : Store)
    (certificate : Certificate) : Store :=
  match backend.getValidityPeriod certificate.data.signatureInfo with
  | .error _ => store
  | .ok (_, notAfter) =>
    { store with
      verified := CertificateCache.insert verifiedLifetime system notAfter certificate
        store.verified }

end Store

/-- The state, the certificates in the store and what is to be done after a request. -/
structure Requested where
  state : ValidationState
  store : Store
  next : Next

/-- The end of a request for which a trusted certificate was found. -/
def verifyFrom (backend : Backend) (env : Option Bool) (system : ℤ) (trusted : Certificate)
    (store : Store) (state : ValidationState) : Requested :=
  let (verified, last) := verifyCertificateChain backend trusted state.certificateChain
  { state := { state with certificateChain := verified }
    store := verified.foldl (Store.cacheVerifiedCertificate backend system) store
    next := .report <| match last with
      | .ok certificate => verifyOriginalPacket backend env state.packet (some certificate)
      | .error certificate => .failure ⟨.invalidSignature,
          "Invalid signature of certificate `" ++ uri env certificate.name ++ "`"⟩ }

def requestCertificate [Sha256] (backend : Backend) (env : Option Bool) (maxDepth : ℕ) (system : ℤ)
    (request : Interest) (store : Store) (state : ValidationState) : Requested :=
  if maxDepth ≤ state.certificateChain.length then
    ⟨state, store, .report (.failure ⟨.exceededDepthLimit,
      "Exceeded validation depth limit (" ++ toString maxDepth ++ ")"⟩)⟩
  else if request.name = digestSha256Identity then
    ⟨state, store, .report (verifyOriginalPacket backend env state.packet none)⟩
  else if request.name ∈ state.seenCertificateNames then
    ⟨state, store, .report (.failure ⟨.loopDetected,
      "Validation loop detected for certificate `" ++ uri env request.name ++ "`"⟩)⟩
  else
    let state := { state with seenCertificateNames := request.name :: state.seenCertificateNames }
    match store.findTrustedCert system request with
    | (some trusted, store) => verifyFrom backend env system trusted store state
    | (none, store) => ⟨state, store, .fetch request⟩

/-! ### What is trusted -/

/-- The certificate is a trust anchor or in the cache of verified certificates. -/
def Store.Trusts (store : Store) (certificate : Certificate) : Prop :=
  certificate ∈ store.anchors ∨ ∃ entry ∈ store.verified, entry.cert = certificate

theorem mem_verified_of_findTrustedCert [Sha256] {store' : Store} {found : Option Certificate}
    (h : store.findTrustedCert system request = (found, store')) :
    (∀ certificate ∈ found, store.Trusts certificate) ∧ store'.anchors = store.anchors ∧
      ∀ entry ∈ store'.verified, entry ∈ store.verified := by
  unfold Store.findTrustedCert at h
  split at h
  · rename_i anchor hanchor
    cases h
    refine ⟨?_, rfl, fun entry hentry => hentry⟩
    rintro certificate ⟨⟩
    exact .inl (mem_of_findByInterest hanchor)
  · cases h
    refine ⟨?_, rfl, fun entry hentry => (mem_filter.mp hentry).1⟩
    intro certificate hfound
    obtain ⟨entry, hentry, rfl⟩ := Option.map_eq_some_iff.mp hfound
    exact .inr ⟨entry, (mem_filter.mp (mem_of_findByInterest hentry)).1, rfl⟩

variable {entry : CertificateCache.Entry}

@[simp] theorem anchors_cacheVerifiedCertificate (backend : Backend) (system : ℤ) (store : Store)
    (certificate : Certificate) :
    (store.cacheVerifiedCertificate backend system certificate).anchors = store.anchors := by
  unfold Store.cacheVerifiedCertificate
  split <;> rfl

theorem mem_of_mem_foldl_cache {certificates : List Certificate}
    (h : entry ∈ (certificates.foldl (Store.cacheVerifiedCertificate backend system) store).verified) :
    entry.cert ∈ certificates ∨ entry ∈ store.verified := by
  induction certificates generalizing store with
  | nil => exact .inr h
  | cons certificate rest ih =>
    rcases ih h with hrest | hstore
    · exact .inl (mem_cons_of_mem _ hrest)
    · unfold Store.cacheVerifiedCertificate at hstore
      split at hstore
      · exact .inr hstore
      · exact (CertificateCache.mem_of_mem_insert hstore).imp_left (by rintro rfl; exact mem_cons_self)

theorem anchors_foldl_cache (backend : Backend) (system : ℤ) (certificates : List Certificate)
    (store : Store) :
    (certificates.foldl (Store.cacheVerifiedCertificate backend system) store).anchors =
      store.anchors := by
  induction certificates generalizing store with
  | nil => rfl
  | cons certificate rest ih => rw [foldl_cons, ih, anchors_cacheVerifiedCertificate]

/-! ### Chains -/

theorem verifyCertificateChain_spec {trusted : Certificate} {chain verified : List Certificate}
    {last : Except Certificate Certificate}
    (h : verifyCertificateChain backend trusted chain = (verified, last)) :
    (trusted :: verified).IsChain backend.Issues ∧ verified <+: chain ∧
      ∀ certificate, last = .ok certificate →
        verified = chain ∧ (trusted :: chain).getLast? = some certificate := by
  induction chain generalizing trusted verified with
  | nil =>
    cases h
    simp
  | cons certificate rest ih =>
    rw [verifyCertificateChain] at h
    split_ifs at h with hissues
    · cases hrest : verifyCertificateChain backend certificate rest with
      | mk verified' last' =>
        rw [hrest] at h
        cases h
        obtain ⟨hchain, hfront, hok⟩ := ih hrest
        refine ⟨.cons_cons hissues hchain, cons_prefix_cons.mpr ⟨rfl, hfront⟩, ?_⟩
        intro c hc
        obtain ⟨hwhole, hlast⟩ := hok c hc
        exact ⟨by rw [hwhole], by rw [getLast?_cons_cons, hlast]⟩
    · cases h
      simp

/-- Why a request is answered by success: the digest identity was requested and the digest is valid,
or the chain of the state leads from a trusted certificate to one whose key verifies the packet. -/
inductive SuccessReason (backend : Backend) (maxDepth : ℕ) (request : Interest) (store : Store)
    (state : ValidationState) : Prop where
  | digest (hrequest : request.name = digestSha256Identity)
      (hverify : backend.verifySignature state.packet none = true)
  | chain {trusted last : Certificate} (htrusted : store.Trusts trusted)
      (hdepth : state.certificateChain.length < maxDepth)
      (hchain : (trusted :: state.certificateChain).IsChain backend.Issues)
      (hlast : (trusted :: state.certificateChain).getLast? = some last)
      (hverify : backend.verifySignature state.packet (some last) = true)

theorem success_of_verifyOriginalPacket {env : Option Bool} {packet : Packet}
    {trustedCert : Option Certificate}
    (h : verifyOriginalPacket backend env packet trustedCert = .success) :
    backend.verifySignature packet trustedCert = true := by
  unfold verifyOriginalPacket at h
  split_ifs at h with hverify
  exact hverify

/-- What a request does to the state and to the store. -/
structure RequestedSpec (backend : Backend) (maxDepth : ℕ) (request : Interest) (store : Store)
    (state : ValidationState) (requested : Requested) : Prop where
  packet_eq : requested.state.packet = state.packet
  chain_front : requested.state.certificateChain <+: state.certificateChain
  anchors_eq : requested.store.anchors = store.anchors
  cached : ∀ entry ∈ requested.store.verified, entry ∈ store.verified ∨
    ∃ trusted verified, store.Trusts trusted ∧ (trusted :: verified).IsChain backend.Issues ∧
      verified <+: state.certificateChain ∧ entry.cert ∈ verified
  success : requested.next = .report .success →
    SuccessReason backend maxDepth request store state

theorem verifyFrom_spec {env : Option Bool} {maxDepth : ℕ} {trusted : Certificate} {store' : Store}
    {state state' : ValidationState} (htrusted : store.Trusts trusted)
    (hanchors : store'.anchors = store.anchors)
    (hverified : ∀ entry ∈ store'.verified, entry ∈ store.verified)
    (hpacket : state'.packet = state.packet)
    (hchain : state'.certificateChain = state.certificateChain)
    (hdepth : state.certificateChain.length < maxDepth) :
    RequestedSpec backend maxDepth request store state
      (verifyFrom backend env system trusted store' state') := by
  cases hverify : verifyCertificateChain backend trusted state'.certificateChain with
  | mk verified last =>
    obtain ⟨hissues, hfront, hok⟩ := verifyCertificateChain_spec hverify
    rw [hchain] at hfront hok
    simp only [verifyFrom, hverify]
    constructor
    · exact hpacket
    · exact hfront
    · rw [anchors_foldl_cache, hanchors]
    · intro entry hentry
      rcases mem_of_mem_foldl_cache hentry with hmem | hmem
      · exact .inr ⟨trusted, verified, htrusted, hissues, hfront, hmem⟩
      · exact .inl (hverified entry hmem)
    · intro hreport
      cases last with
      | error certificate => simp at hreport
      | ok certificate =>
        obtain ⟨rfl, hlast⟩ := hok certificate rfl
        have hpacketVerified := success_of_verifyOriginalPacket (Next.report.inj hreport)
        exact .chain htrusted hdepth hissues hlast (hpacket ▸ hpacketVerified)

theorem requestCertificate_spec [Sha256] (backend : Backend) (env : Option Bool) (maxDepth : ℕ)
    (system : ℤ) (request : Interest) (store : Store) (state : ValidationState) :
    RequestedSpec backend maxDepth request store state
      (requestCertificate backend env maxDepth system request store state) := by
  unfold requestCertificate
  split_ifs with hdepth hdigest hseen
  · exact ⟨rfl, prefix_refl _, rfl, fun _ h => .inl h, by simp⟩
  · refine ⟨rfl, prefix_refl _, rfl, fun _ h => .inl h, fun h => ?_⟩
    exact .digest hdigest (success_of_verifyOriginalPacket (Next.report.inj h))
  · exact ⟨rfl, prefix_refl _, rfl, fun _ h => .inl h, by simp⟩
  · cases hfind : store.findTrustedCert system request with
    | mk found store' =>
      obtain ⟨hfound, hanchors, hverified⟩ := mem_verified_of_findTrustedCert hfind
      cases found with
      | some trusted =>
        exact verifyFrom_spec (hfound trusted rfl) hanchors hverified rfl rfl (not_le.mp hdepth)
      | none =>
        exact ⟨rfl, prefix_refl _, hanchors, fun entry h => .inl (hverified entry h), by simp⟩

end NdnFc.Security
