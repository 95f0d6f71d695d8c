import Mathlib.Data.List.Chain
import NdnFc.Lib.Run
import NdnFc.Security.Validator

/-!
# Chains of trust

Many validations run at the same time. The policy and the certificate fetcher answer when and how
they like. A report of success is justified by a chain of certificates from a trusted one to the
packet, each accepted by the policy, or by the digest of the packet when the policy asked for the
digest identity. The validator also verifies the digest of the original packet when the policy asks
for it about a certificate.
-/

namespace NdnFc.Security

open List

/-- A validation with the certificates that the policy has been asked about and the requests that
have been given to the fetcher. -/
structure Validation extends ValidationState where
  checking : List Certificate
  fetching : List Interest

/-- A validator with its validations, oldest first. The last fields record which certificates have
been trust anchors and which the policy has accepted. -/
structure Validator where
  maxDepth : ℕ
  system : ℤ
  store : Store
  validations : List Validation
  everAnchors : List Certificate
  accepted : List Certificate

namespace Validator

/-- What happens at a validator: the policy continues a validation of the packet or of a
certificate, with or without a request, the fetcher continues with a certificate, or one of them
fails. -/
inductive Event where
  | setSystemClock (system : ℤ)
  | setMaxDepth (maxDepth : ℕ)
  | loadAnchor (certificate : Certificate)
  | removeAnchor (certName : Name)
  | resetAnchors
  | resetVerifiedCertificates
  | validate (packet : Packet)
  | continueOriginal (id : ℕ) (request : Option Interest)
  | fetched (id : ℕ) (certificate : Certificate)
  | continueCertificate (id : ℕ) (certificate : Certificate) (request : Option Interest)
  | fail (id : ℕ) (error : ValidationError)

section

variable [Sha256] (backend : Backend) (env : Option Bool)

omit [Sha256] in
/-- The outcome of a request is stored. -/
def finishRequest (v : Validator) (id : ℕ) (validation : Validation) (requested : Requested) :
    Validator × Option (ℕ × Report) :=
  match requested.next with
  | .report report =>
    ({ v with
      store := requested.store
      validations := v.validations.set id { validation with toValidationState := requested.state } },
      some (id, report))
  | .fetch interest =>
    ({ v with
      store := requested.store
      validations := v.validations.set id
        { validation with
          toValidationState := requested.state
          fetching := interest :: validation.fetching } },
      none)

variable (v : Validator)

/-- The request of a validation, with the validation as it is when the request is made. -/
def request (id : ℕ) (validation : Validation) (interest : Interest) :
    Validator × Option (ℕ × Report) :=
  v.finishRequest id validation (requestCertificate backend env v.maxDepth v.system interest v.store
    validation.toValidationState)

/-- `validate(cert, state)` up to the policy. -/
def validateCertificate (id : ℕ) (validation : Validation)
    (certificate : Certificate) : Validator × Option (ℕ × Report) :=
  match backend.getValidityPeriod certificate.data.signatureInfo with
  | .error _ => (v, none)
  | .ok (notBefore, notAfter) =>
    if notBefore ≤ v.system ∧ v.system ≤ notAfter then
      ({ v with
        validations := v.validations.set id
          { validation with checking := certificate :: validation.checking } }, none)
    else
      (v, some (id, .failure ⟨.expiredCert,
        "Retrieved certificate is not yet valid or expired `" ++ uri env certificate.name ++ "`"⟩))

/-- The policy continues `validate(cert, state)`. -/
def acceptCertificate (id : ℕ) (validation : Validation)
    (certificate : Certificate) : Option Interest → Validator × Option (ℕ × Report)
  | none =>
    (v, some (id, .failure ⟨.policyError, "Validation policy is not allowed to designate `" ++
      uri env certificate.name ++ "` as a trust anchor"⟩))
  | some interest =>
    request backend env { v with accepted := certificate :: v.accepted } id
      { validation with certificateChain := certificate :: validation.certificateChain } interest

/-- One event, with the report that it makes. -/
def handle : Event → Validator × Option (ℕ × Report)
  | .setSystemClock system => ({ v with system }, none)
  | .setMaxDepth maxDepth => ({ v with maxDepth }, none)
  | .loadAnchor certificate =>
    ({ v with
      store := { v.store with anchors := TrustAnchors.add certificate v.store.anchors }
      everAnchors := certificate :: v.everAnchors }, none)
  | .removeAnchor certName =>
    ({ v with store := { v.store with anchors := TrustAnchors.remove certName v.store.anchors } },
      none)
  | .resetAnchors => ({ v with store := { v.store with anchors := [] } }, none)
  | .resetVerifiedCertificates => ({ v with store := { v.store with verified := [] } }, none)
  | .validate packet =>
    ({ v with
      validations := v.validations ++
        [{ ValidationState.init packet with checking := [], fetching := [] }] }, none)
  | .continueOriginal id interest =>
    match v.validations[id]?, interest with
    | none, _ => (v, none)
    -- `bypassValidation`
    | some _, none => (v, some (id, .success))
    | some validation, some interest => v.request backend env id validation interest
  | .fetched id certificate =>
    match v.validations[id]? with
    | none => (v, none)
    | some validation =>
      if validation.fetching = [] then (v, none)
      else v.validateCertificate backend env id validation certificate
  | .continueCertificate id certificate interest =>
    match v.validations[id]? with
    | none => (v, none)
    | some validation =>
      if certificate ∈ validation.checking then
        v.acceptCertificate backend env id validation certificate interest
      else (v, none)
  | .fail id error => (v, some (id, .failure error))

def step (event : Event) : Validator :=
  (v.handle backend env event).1

/-- No validation has started and there are no certificates. -/
def init (maxDepth : ℕ) (system : ℤ) : Validator :=
  ⟨maxDepth, system, ⟨[], []⟩, [], [], []⟩

/-! ### The property -/

omit [Sha256] in
/-- A certificate that the policy has accepted and that is verified with the key of another. -/
def Link (accepted : List Certificate) (issuer certificate : Certificate) : Prop :=
  backend.Issues issuer certificate ∧ certificate ∈ accepted

/-- When an event reports success, the policy has asked for the digest identity about the packet,
which is signed with its digest; or at most `maxDepth` certificates, accepted by the policy and each
verified with the key before, lead from a trusted one to one whose key verifies the packet. -/
def Justified (v : Validator) (event : Event) : Prop :=
  ∀ id, (v.handle backend env event).2 = some (id, .success) →
    ∃ validation, v.validations[id]? = some validation ∧
      ((validation.packet.IsDigestSigned ∧ backend.verifyDigest validation.packet = true ∧
          ∃ request : Interest, event = .continueOriginal id (some request) ∧
            request.name = digestSha256Identity) ∨
        ∃ (trusted : Certificate) (chain : List Certificate) (last : Certificate),
          v.store.Trusts trusted ∧ chain.length ≤ v.maxDepth ∧
            (trusted :: chain).IsChain (Link backend (v.step backend env event).accepted) ∧
            (trusted :: chain).getLast? = some last ∧
            backend.verifySignature validation.packet (some last) = true)

section

omit [Sha256]

/-- Every certificate in the cache has a chain of accepted and verified certificates from one that
has been a trust anchor. -/
def CacheSound (v : Validator) : Prop :=
  ∀ entry ∈ v.store.verified, ∃ anchor ∈ v.everAnchors,
    Relation.ReflTransGen (Link backend v.accepted) anchor entry.cert

/-- The policy does not bypass the original packet. -/
def NoBypass : Event → Prop
  | .continueOriginal _ request => request ≠ none
  | _ => True

/-- The policy does not ask for the digest identity about a certificate while the original packet is
signed with its digest. -/
def DigestForOriginal (v : Validator) : Event → Prop
  | .continueCertificate id _ (some request) => request.name = digestSha256Identity →
    ∀ validation ∈ v.validations[id]?, backend.verifySignature validation.packet none = false
  | _ => True

/-! ### The invariant -/

/-- The chains that are being collected consist of accepted certificates, and the cache is sound. -/
structure Inv (v : Validator) : Prop where
  anchors : ∀ anchor ∈ v.store.anchors, anchor ∈ v.everAnchors
  chains : ∀ validation ∈ v.validations, ∀ certificate ∈ validation.certificateChain,
    certificate ∈ v.accepted
  cache : v.CacheSound backend

end

variable {backend env}

section

omit [Sha256]

theorem isChain_link {accepted : List Certificate} {trusted : Certificate}
    {chain : List Certificate} (h : (trusted :: chain).IsChain backend.Issues)
    (haccepted : ∀ certificate ∈ chain, certificate ∈ accepted) :
    (trusted :: chain).IsChain (Link backend accepted) :=
  h.imp_of_mem_tail_imp fun _ certificate _ hmem hissues => ⟨hissues, haccepted certificate hmem⟩

theorem reflTransGen_of_isChain {r : Certificate → Certificate → Prop} {trusted certificate : Certificate}
    {chain : List Certificate} (h : (trusted :: chain).IsChain r) (hmem : certificate ∈ chain) :
    Relation.ReflTransGen r trusted certificate := by
  have hchain : (trusted :: chain).IsChain (Relation.ReflTransGen r) :=
    h.imp fun _ _ hr => .single hr
  exact hchain.rel_cons hmem

end

namespace Inv

variable {v : Validator}

section

omit [Sha256]

theorem reachable_of_trusts (h : Inv backend v) {trusted : Certificate}
    (htrusted : v.store.Trusts trusted) :
    ∃ anchor ∈ v.everAnchors, Relation.ReflTransGen (Link backend v.accepted) anchor trusted := by
  rcases htrusted with hanchor | ⟨entry, hentry, rfl⟩
  · exact ⟨trusted, h.anchors trusted hanchor, .refl⟩
  · exact h.cache entry hentry

theorem accept (h : Inv backend v) (certificate : Certificate) :
    Inv backend { v with accepted := certificate :: v.accepted } where
  anchors := h.anchors
  chains := fun validation hvalidation c hc =>
    mem_cons_of_mem _ (h.chains validation hvalidation c hc)
  cache := by
    intro entry hentry
    obtain ⟨anchor, hanchor, hpath⟩ := h.cache entry hentry
    exact ⟨anchor, hanchor,
      Relation.ReflTransGen.mono (fun _ _ hlink => ⟨hlink.1, mem_cons_of_mem _ hlink.2⟩) _ _
        hpath⟩

theorem setValidation (h : Inv backend v) (id : ℕ) {validation : Validation}
    (haccepted : ∀ certificate ∈ validation.certificateChain, certificate ∈ v.accepted) :
    Inv backend { v with validations := v.validations.set id validation } where
  anchors := h.anchors
  chains := by
    intro w hw
    rcases mem_or_eq_of_mem_set hw with hw | rfl
    · exact h.chains w hw
    · exact haccepted
  cache := h.cache

theorem setStore (h : Inv backend v) {state : ValidationState} {interest : Interest}
    {requested : Requested}
    (hspec : RequestedSpec backend v.maxDepth interest v.store state requested)
    (haccepted : ∀ certificate ∈ state.certificateChain, certificate ∈ v.accepted) :
    Inv backend { v with store := requested.store } where
  anchors := fun anchor hanchor => h.anchors anchor (hspec.anchors_eq ▸ hanchor)
  chains := h.chains
  cache := by
    intro entry hentry
    rcases hspec.cached entry hentry with hmem | ⟨trusted, verified, htrusted, hchain, hfront, hmem⟩
    · exact h.cache entry hmem
    · obtain ⟨anchor, hanchor, hpath⟩ := h.reachable_of_trusts htrusted
      have hlinks := isChain_link hchain fun c hc => haccepted c (hfront.subset hc)
      exact ⟨anchor, hanchor, hpath.trans (reflTransGen_of_isChain hlinks hmem)⟩

end

theorem request (h : Inv backend v) (id : ℕ) {validation : Validation} (interest : Interest)
    (haccepted : ∀ certificate ∈ validation.certificateChain, certificate ∈ v.accepted) :
    Inv backend (v.request backend env id validation interest).1 := by
  have hspec := requestCertificate_spec backend env v.maxDepth v.system interest v.store
    validation.toValidationState
  have hstore := h.setStore hspec haccepted
  have hleft := fun certificate hmem => haccepted certificate (hspec.chain_front.subset hmem)
  unfold Validator.request finishRequest
  split
  all_goals exact hstore.setValidation id hleft

theorem step (h : Inv backend v) (event : Event) : Inv backend (v.step backend env event) := by
  unfold Validator.step
  cases event with
  | setSystemClock system | setMaxDepth maxDepth => exact ⟨h.anchors, h.chains, h.cache⟩
  | loadAnchor certificate =>
    refine ⟨?_, h.chains, ?_⟩
    · intro anchor hanchor
      rcases SortedTable.mem_of_mem_emplace hanchor with rfl | hmem
      · exact mem_cons_self
      · exact mem_cons_of_mem _ (h.anchors anchor hmem)
    · intro entry hentry
      obtain ⟨anchor, hanchor, hpath⟩ := h.cache entry hentry
      exact ⟨anchor, mem_cons_of_mem _ hanchor, hpath⟩
  | removeAnchor certName =>
    exact ⟨fun anchor hanchor => h.anchors anchor (mem_filter.mp hanchor).1, h.chains, h.cache⟩
  | resetAnchors => exact ⟨by simp [handle], h.chains, h.cache⟩
  | resetVerifiedCertificates => exact ⟨h.anchors, h.chains, by simp [handle, CacheSound]⟩
  | validate packet =>
    refine ⟨h.anchors, forall_mem_append.mpr ⟨h.chains, ?_⟩, h.cache⟩
    simp [ValidationState.init]
  | continueOriginal id interest =>
    simp only [handle]
    split
    · exact h
    · exact h
    · rename_i validation interest hvalidation
      exact h.request id interest (h.chains validation (mem_of_getElem? hvalidation))
  | fetched id certificate =>
    simp only [handle]
    split
    · exact h
    · rename_i validation hvalidation
      have hchain := h.chains validation (mem_of_getElem? hvalidation)
      unfold validateCertificate
      split_ifs
      · exact h
      · split
        · exact h
        · split_ifs
          · exact h.setValidation id hchain
          · exact h
  | continueCertificate id certificate interest =>
    simp only [handle]
    split
    · exact h
    · rename_i validation hvalidation
      split_ifs
      · cases interest with
        | none => exact h
        | some interest =>
          have hchain := h.chains validation (mem_of_getElem? hvalidation)
          exact (h.accept certificate).request id interest
            (forall_mem_cons.mpr ⟨mem_cons_self, fun c hc =>
              mem_cons_of_mem _ (hchain c hc)⟩)
      · exact h
  | fail id error => exact h

end Inv

/-! ### Reports of success -/

variable {v : Validator}

theorem reason_of_request {id id' : ℕ} {validation : Validation} {interest : Interest}
    (h : (v.request backend env id validation interest).2 = some (id', .success)) :
    id' = id ∧ SuccessReason backend v.maxDepth interest v.store validation.toValidationState := by
  have hspec := requestCertificate_spec backend env v.maxDepth v.system interest v.store
    validation.toValidationState
  unfold request finishRequest at h
  split at h
  · rename_i report hreport
    obtain ⟨rfl, rfl⟩ : id = id' ∧ report = .success := by simpa using h
    exact ⟨rfl, hspec.success hreport⟩
  · simp at h

theorem accepted_request (v : Validator) (id : ℕ) (validation : Validation) (interest : Interest) :
    (v.request backend env id validation interest).1.accepted = v.accepted := by
  unfold request finishRequest
  split <;> rfl

variable {request : Option Interest}

theorem Inv.justified_continueOriginal (h : Inv backend v) (id : ℕ) (hbypass : request ≠ none) :
    Justified backend env v (.continueOriginal id request) := by
  intro id' hreport
  cases hvalidation : v.validations[id]? with
  | none => simp [handle, hvalidation] at hreport
  | some validation =>
    cases request with
    | none => exact absurd rfl hbypass
    | some interest =>
      simp only [handle, hvalidation] at hreport
      obtain ⟨rfl, hreason⟩ := reason_of_request hreport
      refine ⟨validation, hvalidation, ?_⟩
      cases hreason with
      | digest hrequest hverify =>
        obtain ⟨hsigned, hvalid⟩ : _ ∧ _ := by simpa [Backend.verifySignature] using hverify
        exact .inl ⟨hsigned, hvalid, interest, rfl, hrequest⟩
      | @chain trusted last htrusted hdepth hchain hlast hverify =>
        have haccepted := h.chains validation (mem_of_getElem? hvalidation)
        refine .inr ⟨trusted, validation.certificateChain, last, htrusted, hdepth.le, ?_, hlast,
          hverify⟩
        simp only [Validator.step, handle, hvalidation, accepted_request]
        exact isChain_link hchain haccepted

theorem Inv.justified_continueCertificate (h : Inv backend v) (id : ℕ) (certificate : Certificate)
    (hdigest : DigestForOriginal backend v (.continueCertificate id certificate request)) :
    Justified backend env v (.continueCertificate id certificate request) := by
  intro id' hreport
  cases hvalidation : v.validations[id]? with
  | none => simp [handle, hvalidation] at hreport
  | some validation =>
    by_cases hchecking : certificate ∈ validation.checking
    · cases request with
      | none => simp [handle, hvalidation, hchecking, acceptCertificate] at hreport
      | some interest =>
        simp only [handle, hvalidation, if_pos hchecking, acceptCertificate] at hreport
        obtain ⟨rfl, hreason⟩ := reason_of_request hreport
        refine ⟨validation, hvalidation, ?_⟩
        cases hreason with
        | digest hrequest hverify =>
          have hrefused := hdigest hrequest validation hvalidation
          exact absurd hverify (by simp [hrefused])
        | @chain trusted last htrusted hdepth hchain hlast hverify =>
          have haccepted := h.chains validation (mem_of_getElem? hvalidation)
          refine .inr ⟨trusted, certificate :: validation.certificateChain, last, htrusted,
            hdepth.le, ?_, hlast, hverify⟩
          simp only [Validator.step, handle, hvalidation, if_pos hchecking, acceptCertificate,
            accepted_request]
          exact isChain_link hchain (forall_mem_cons.mpr
            ⟨mem_cons_self, fun c hc => mem_cons_of_mem _ (haccepted c hc)⟩)
    · simp [handle, hvalidation, hchecking] at hreport

theorem justified_fetched (v : Validator) (id : ℕ) (certificate : Certificate) :
    Justified backend env v (.fetched id certificate) := by
  intro id' hreport
  simp only [handle, validateCertificate] at hreport
  split at hreport
  · simp at hreport
  · split_ifs at hreport
    · split at hreport
      · simp at hreport
      · split_ifs at hreport
        simp at hreport

theorem Inv.justified (h : Inv backend v) {event : Event} (hbypass : NoBypass event)
    (hdigest : DigestForOriginal backend v event) : Justified backend env v event := by
  cases event with
  | continueOriginal id request => exact h.justified_continueOriginal id hbypass
  | continueCertificate id certificate request =>
    exact h.justified_continueCertificate id certificate hdigest
  | fetched id certificate => exact justified_fetched v id certificate
  | _ => simp [Justified, handle]

omit [Sha256] in
theorem inv_init (maxDepth : ℕ) (system : ℤ) : Inv backend (init maxDepth system) := by
  constructor <;> simp [init, CacheSound]

/-- While the policy bypasses no original packet and asks for the digest identity about no
certificate of a packet signed with its digest, every success is justified and the cache of verified
certificates is sound. -/
theorem justified_of_digestForOriginal (backend : Backend) (env : Option Bool) (maxDepth : ℕ)
    (system : ℤ) (events : List Event)
    (hevents : Run.Meets (step backend env)
      (fun v event => NoBypass event ∧ DigestForOriginal backend v event)
      (init maxDepth system) events) :
    Run.Meets (step backend env) (Justified backend env) (init maxDepth system) events ∧
      (Run.run (step backend env) (init maxDepth system) events).CacheSound backend := by
  constructor
  · refine Run.meets_of_meets (Inv backend) ?_ (inv_init maxDepth system) hevents
    intro v event hinv hevent
    exact ⟨hinv.step event, hinv.justified hevent.1 hevent.2⟩
  · have hinv : Inv backend (Run.run (step backend env) (init maxDepth system) events) :=
      Run.invariant (Inv backend) (fun v event hinv => hinv.step event) (inv_init maxDepth system)
        events
    exact hinv.cache

/-! ### Examples -/

omit [Sha256] in
def sampleRequest (name : Name) : Interest :=
  { Interest.ofName name [] with canBePrefix := true }

omit [Sha256] in
/-- A Data that is signed with its digest. -/
def sampleDigestData : Data :=
  { Data.create [.generic [1]] with signatureInfo := .create SignatureInfo.digestSha256 none }

end

/-- A packet is validated with a certificate that a trust anchor has signed. -/
theorem justified_two_certificates : ∃ (_ : Sha256) (backend : Backend) (events : List Event)
    (last : Event),
    ((Run.run (step backend none) (init 25 0) events).handle backend none last).2 =
        some (0, .success) ∧
      Run.Meets (step backend none) (Justified backend none) (init 25 0) (events ++ [last]) ∧
      (Run.run (step backend none) (init 25 0) (events ++ [last])).CacheSound backend := by
  let _ := Sha256.constant
  refine ⟨Sha256.constant, ⟨fun _ _ => true, fun _ => true, fun _ => .ok (0, 0)⟩,
    [.loadAnchor (sampleCertificate 1), .validate (.data (Data.create [.generic [1]])),
      .continueOriginal 0 (some (sampleRequest (sampleCertificate 2).name)),
      .fetched 0 (sampleCertificate 2)],
    .continueCertificate 0 (sampleCertificate 2) (some (sampleRequest (sampleCertificate 1).name)),
    by decide, justified_of_digestForOriginal _ none 25 0 _ ?_⟩
  refine ⟨⟨trivial, trivial⟩, ⟨trivial, trivial⟩, ⟨Option.some_ne_none _, trivial⟩,
    ⟨trivial, trivial⟩, ⟨trivial, fun hdigest => ?_⟩, trivial⟩
  exact absurd hdigest (by decide)

/-- The policy asks for the certificate of the key of a packet signed with its digest, and for the
digest identity about the fetched certificate. Success is reported although nothing is trusted. -/
theorem not_justified : ∃ (_ : Sha256) (backend : Backend) (events : List Event),
    (∀ event ∈ events, NoBypass event) ∧
      ¬ Run.Meets (step backend none) (Justified backend none) (init 25 0) events := by
  let _ := Sha256.constant
  refine ⟨Sha256.constant, ⟨fun _ _ => false, fun _ => true, fun _ => .ok (0, 0)⟩,
    [.validate (.data sampleDigestData),
      .continueOriginal 0 (some (sampleRequest (sampleCertificate 7).name)),
      .fetched 0 (sampleCertificate 7),
      .continueCertificate 0 (sampleCertificate 7) (some (sampleRequest digestSha256Identity))],
    by simp [NoBypass], ?_⟩
  rintro ⟨-, -, -, hjustified, -⟩
  obtain ⟨validation, hvalidation, ⟨-, -, request, hevent, -⟩ | ⟨trusted, _, _, htrusted, -⟩⟩ :=
    hjustified 0 (by decide)
  · cases hevent
  · rcases htrusted with hanchor | ⟨entry, hentry, -⟩
    · exact absurd hanchor not_mem_nil
    · exact absurd hentry not_mem_nil

end Validator

end NdnFc.Security
