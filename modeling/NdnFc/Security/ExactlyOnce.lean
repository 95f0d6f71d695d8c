import NdnFc.Security.Policy

/-!
# One report for each validation

`Validator::validate` (`ndn-cxx/security/validator.cpp`) runs the policy on a packet and on fetched
certificates. When the validation is over and no callback has been called, the destructor of its
state calls the failure callback (`validation-state.cpp`).
-/

namespace NdnFc.Security.Validate

inductive Original where
  | data (data : Data)
  | interest (interest : Interest)

/-- The time and the certificates when a step of a validation is made. -/
structure Stage where
  steady : ℤ
  system : ℤ
  store : Store

/-- What the fetcher does with a request: it continues with a certificate, at a later stage, or it
fails. -/
inductive Answer where
  | fetched (stage : Stage) (certificate : Certificate)
  | failed (error : ValidationError)

/-- A validator apart from its certificates. -/
structure Config where
  backend : Backend
  env : Option Bool
  maxDepth : ℕ
  policy : Policy

section

variable [Sha256] (config : Config) (stage : Stage)

/-- A request for a certificate. When the certificate has to be fetched, the rest of the validation
is given. -/
def request (state : ValidationState) (interest : Interest)
    (rest : ValidationState → Reporting Unit) : Reporting Unit :=
  let requested := requestCertificate config.backend config.env config.maxDepth stage.system interest
    stage.store state
  match requested.next with
  | .report report => modify fun reports => reports ++ [report]
  | .fetch _ => rest requested.state

/-- What happens after a certificate has to be fetched. The state is released when the fetcher has
no more answers, or throws at a validity period. -/
def awaitCertificate (state : ValidationState) : List Answer → Reporting Unit
  | [] => pure ()
  | .failed error :: _ => fail error
  | .fetched stage certificate :: answers =>
    match config.backend.getValidityPeriod certificate.data.signatureInfo with
    | .error _ => pure ()
    | .ok (notBefore, notAfter) =>
      if notBefore ≤ stage.system ∧ stage.system ≤ notAfter then do
        match ← config.policy.checkPolicyData config.env certificate.data with
        | none => pure ()
        | some none =>
          fail ⟨.policyError, "Validation policy is not allowed to designate `" ++
            uri config.env certificate.name ++ "` as a trust anchor"⟩
        | some (some interest) =>
          request config stage
            { state with certificateChain := certificate :: state.certificateChain } interest
            fun state => awaitCertificate state answers
      else
        fail ⟨.expiredCert, "Retrieved certificate is not yet valid or expired `" ++
          uri config.env certificate.name ++ "`"⟩

/-- The continuation that `validate` gives to the policy. -/
def continueValidation (packet : Packet) (answers : List Answer) :
    Continuation → Reporting Unit
  | none => pure ()
  -- `bypassValidation`
  | some none => modify fun reports => reports ++ [.success]
  | some (some interest) =>
    request config stage (.init packet) interest fun state => awaitCertificate config state answers

/-- `validate`, with everything that follows from it. -/
def validate (answers : List Answer) : Original → Reporting Unit
  | .data data => do
    let continuation ← config.policy.checkPolicyData config.env data
    continueValidation config stage (.data data) answers continuation
  | .interest interest => do
    let i ← Method.ofExcept (SignedInterest.ofInterest interest)
    let continuation ← config.policy.checkPolicyInterest config.env stage.steady stage.system i
    continueValidation config stage (.interest i) answers continuation

variable (validation : Reporting Unit)

/-- The reports after the state has been destroyed. -/
def reportsOf : Except String (List Report) :=
  match validation.run [] with
  | .error e _ => .error e
  | .ok _ [] => .ok [.failure ⟨.implementationError,
      "Validator/policy did not invoke success or failure callback"⟩]
  | .ok _ (report :: reports) => .ok (report :: reports)

/-- Nothing is thrown and exactly one report is made. -/
def ExactlyOnce : Prop :=
  ∃ report, reportsOf validation = .ok [report]

/-! ### The condition -/

/-- The policy is safe for the packet. -/
def Safe : Original → Prop
  | .data data => config.policy.SafeForData config.env data
  | .interest interest => ∃ i, SignedInterest.ofInterest interest = .ok i ∧
    config.policy.SafeForInterest config.env stage.steady stage.system i

/-- The policy is safe for every certificate that is valid at some time. -/
def SafeForCertificates : Prop :=
  ∀ certificate : Certificate, ∀ notBefore notAfter : ℤ, notBefore ≤ notAfter →
    config.backend.getValidityPeriod certificate.data.signatureInfo = .ok (notBefore, notAfter) →
      config.policy.SafeForData config.env certificate.data

/-- The policy accepts the packet with the key of the given name. -/
def Accepts (klName : Name) : Original → Prop
  | .data data => config.policy.AcceptsData config.env data klName
  | .interest interest => ∃ i, SignedInterest.ofInterest interest = .ok i ∧
    config.policy.AcceptsInterest config.env stage.steady stage.system i klName

/-- The certificate for the original packet has to be fetched. -/
def Missing (interest : Interest) : Prop :=
  0 < config.maxDepth ∧ interest.name ≠ digestSha256Identity ∧
    (stage.store.findTrustedCert stage.system interest).1 = none

variable {config}

theorem request_cases (config : Config) (stage : Stage) (packet : Packet) (interest : Interest) :
    (¬Missing config stage interest ∧ ∃ report, ∀ rest,
        request config stage (.init packet) interest rest =
          modify fun reports => reports ++ [report]) ∨
      (Missing config stage interest ∧ ∃ state, ∀ rest,
        request config stage (.init packet) interest rest = rest state) := by
  unfold request requestCertificate Missing
  split_ifs with hdepth hdigest hseen
  · exact .inl ⟨fun h => absurd hdepth (not_le.mpr h.1), _, fun _ => rfl⟩
  · exact .inl ⟨fun h => h.2.1 hdigest, _, fun _ => rfl⟩
  · exact absurd hseen List.not_mem_nil
  · cases hfind : stage.store.findTrustedCert stage.system interest with
    | mk found store =>
      cases found with
      | some trusted => exact .inl ⟨by simp, _, fun _ => rfl⟩
      | none => exact .inr ⟨⟨not_le.mp hdepth, hdigest, rfl⟩, _, fun _ => rfl⟩

section

omit [Sha256]

theorem exactlyOnce_modify (report : Report) :
    ExactlyOnce (modify fun reports => reports ++ [report]) :=
  ⟨report, rfl⟩

end

/-- How a validation goes on after a check of the policy: it ends when the policy does not continue,
and a bypass makes a report. -/
structure Resumes (k : Continuation → Reporting Unit) : Prop where
  stopped : k none = pure ()
  bypassed : ∃ report, k (some none) = modify fun reports => reports ++ [report]

omit [Sha256] in
theorem Resumes.exactlyOnce {m : Reporting Continuation} {k : Continuation → Reporting Unit}
    (hk : Resumes k) (hproper : Proper (m.run []))
    (hasked : ∀ interest, m.run [] = .ok (some (some interest)) [] →
      ExactlyOnce (k (some (some interest)))) : ExactlyOnce (m >>= k) := by
  unfold ExactlyOnce reportsOf
  rw [EStateM.run_bind]
  cases hrun : m.run [] with
  | error e reports => simp [hrun, Proper] at hproper
  | ok continuation reports =>
    rw [hrun] at hproper
    rcases continuation with _ | _ | interest
    · obtain ⟨report, rfl⟩ := List.length_eq_one_iff.mp hproper
      exact ⟨report, by simp [hk.stopped]⟩
    · obtain rfl : reports = [] := hproper
      obtain ⟨report, hreport⟩ := hk.bypassed
      exact ⟨report, by simp [hreport]⟩
    · obtain rfl : reports = [] := hproper
      exact hasked interest hrun

omit [Sha256] in
theorem Resumes.not_exactlyOnce {m : Reporting Continuation} {k : Continuation → Reporting Unit}
    (hk : Resumes k) (himproper : Improper (m.run [])) : ¬ExactlyOnce (m >>= k) := by
  rintro ⟨report, h⟩
  unfold reportsOf at h
  rw [EStateM.run_bind] at h
  cases hrun : m.run [] with
  | error e reports => simp [hrun] at h
  | ok continuation reports =>
    rw [hrun] at h himproper
    rcases continuation with _ | _ | interest
    · match reports, himproper with
      | _ :: _ :: _, _ => simp [hk.stopped] at h
    · obtain ⟨report', hreport⟩ := hk.bypassed
      match reports, himproper with
      | _ :: _, _ => simp [hreport] at h
    · exact himproper

/-! ### After a fetch -/

theorem exactlyOnce_request {stage : Stage} {state : ValidationState} {interest : Interest}
    {rest : ValidationState → Reporting Unit} (h : ∀ state, ExactlyOnce (rest state)) :
    ExactlyOnce (request config stage state interest rest) := by
  rw [request]
  split
  · exact exactlyOnce_modify _
  · exact h _

theorem exactlyOnce_awaitCertificate (hsafe : SafeForCertificates config) (answers : List Answer)
    (state : ValidationState) : ExactlyOnce (awaitCertificate config state answers) := by
  induction answers generalizing state with
  | nil => exact ⟨_, rfl⟩
  | cons answer answers ih =>
    cases answer with
    | failed error => exact exactlyOnce_modify _
    | fetched stage certificate =>
      rw [awaitCertificate]
      cases hperiod : config.backend.getValidityPeriod certificate.data.signatureInfo with
      | error e => exact ⟨_, rfl⟩
      | ok period =>
        obtain ⟨notBefore, notAfter⟩ := period
        dsimp only
        split_ifs with hvalid
        · have hdata := hsafe certificate notBefore notAfter (hvalid.1.trans hvalid.2) hperiod
          refine Resumes.exactlyOnce ⟨rfl, _, rfl⟩ (Policy.settles_checkPolicyData.decides.1 hdata) ?_
          intro interest _
          exact exactlyOnce_request fun state => ih state
        · exact exactlyOnce_modify _

theorem exists_answers_not_exactlyOnce (hbad : ¬SafeForCertificates config)
    (state : ValidationState) :
    ∃ answers, ¬ExactlyOnce (awaitCertificate config state answers) := by
  unfold SafeForCertificates at hbad
  push Not at hbad
  obtain ⟨certificate, notBefore, notAfter, hle, hperiod, hdata⟩ := hbad
  refine ⟨[.fetched ⟨0, notBefore, ⟨[], []⟩⟩ certificate], ?_⟩
  rw [awaitCertificate, hperiod]
  dsimp only
  rw [if_pos ⟨le_rfl, hle⟩]
  exact Resumes.not_exactlyOnce ⟨rfl, _, rfl⟩ (Policy.settles_checkPolicyData.decides.2 hdata)

/-! ### The whole validation -/

theorem exactlyOnce_check_iff (config : Config) (stage : Stage) (packet : Packet)
    {condition : Prop} {accepts : Name → Prop} {m : Reporting Continuation}
    (hm : Settles condition
      (fun interest => ∃ klName, accepts klName ∧ certificateRequest klName = .ok interest)
      (m.run [])) :
    (∀ answers, ExactlyOnce (m >>= continueValidation config stage packet answers)) ↔
      condition ∧ ∀ klName interest, accepts klName → certificateRequest klName = .ok interest →
        Missing config stage interest → SafeForCertificates config := by
  constructor
  · intro h
    have hcondition : condition := by
      by_contra hnot
      exact Resumes.not_exactlyOnce ⟨rfl, _, rfl⟩ (hm.decides.2 hnot) (h [])
    refine ⟨hcondition, fun klName interest haccepts hrequest hmissing => ?_⟩
    have hrun := (hm.request hcondition interest).mpr ⟨klName, haccepts, hrequest⟩
    by_contra hbad
    rcases request_cases config stage packet interest with ⟨hnot, -⟩ | ⟨-, state, hstate⟩
    · exact hnot hmissing
    · obtain ⟨answers, hanswers⟩ := exists_answers_not_exactlyOnce hbad state
      have honce := h answers
      simp only [ExactlyOnce, reportsOf, EStateM.run_bind, hrun, continueValidation, hstate] at honce
      exact hanswers honce
  · rintro ⟨hcondition, hfetch⟩ answers
    refine Resumes.exactlyOnce ⟨rfl, _, rfl⟩ (hm.decides.1 hcondition) ?_
    intro interest hrun
    obtain ⟨klName, haccepts, hrequest⟩ := (hm.request hcondition interest).mp hrun
    rcases request_cases config stage packet interest
      with ⟨-, report, hreport⟩ | ⟨hmissing, state, hstate⟩
    · rw [continueValidation, hreport]
      exact exactlyOnce_modify report
    · rw [continueValidation, hstate]
      exact exactlyOnce_awaitCertificate (hfetch klName interest haccepts hrequest hmissing)
        answers state

/-- Whatever the fetcher answers, a validation throws nothing and makes exactly one report, exactly
when the policy is safe for the packet and, if a certificate has to be fetched, for every
certificate that is valid at some time. -/
theorem exactlyOnce_iff (config : Config) (stage : Stage) (original : Original) :
    (∀ answers, ExactlyOnce (validate config stage answers original)) ↔
      Safe config stage original ∧ ∀ klName interest, Accepts config stage klName original →
        certificateRequest klName = .ok interest → Missing config stage interest →
          SafeForCertificates config := by
  cases original with
  | data data =>
    exact exactlyOnce_check_iff config stage _ Policy.settles_checkPolicyData
  | interest interest =>
    simp only [validate, Safe, Accepts]
    cases SignedInterest.ofInterest interest with
    | error e =>
      refine iff_of_false (fun h => ?_) (by simp)
      obtain ⟨report, hreport⟩ := h []
      cases hreport
    | ok i =>
      simp only [Except.ok.injEq, exists_eq_left', Method.ofExcept_ok_bind]
      exact exactlyOnce_check_iff config stage _
        (Policy.settles_checkPolicyInterest config.env stage.steady stage.system i _)

end

/-! ### Examples -/

/-- A policy with one rule for all packets and one checker, for signatures with an elliptic curve. -/
def samplePolicy (kind : CheckerKind) : PolicyConfig :=
  ⟨false, [⟨[], [⟨3, kind⟩]⟩], [⟨[], [⟨3, kind⟩]⟩]⟩

/-- A Data that is signed with the key of the given name. -/
def sampleKeyData (klName : Name) : Data :=
  { Data.create [] with signatureInfo := .create 3 (some (.name klName)) }

/-- A checker for a relation of names throws when the name of the key has no `KEY`. A policy for
signed Interests reports a missing key and then a missing timestamp. -/
theorem not_exactlyOnce : ∃ (_ : Sha256) (backend : Backend),
    ¬ExactlyOnce (validate
        ⟨backend, none, 25, .config (samplePolicy (.nameRelation [] .isPrefixOf))⟩ ⟨0, 0, ⟨[], []⟩⟩ []
        (.data (sampleKeyData []))) ∧
      ¬ExactlyOnce (validate
        ⟨backend, none, 25, .signedInterest .default [] (.config (samplePolicy .sigTypeOnly))⟩
        ⟨0, 0, ⟨[], []⟩⟩ [] (.interest (CommandInterest.sampleCommand [27, 1, 3]))) := by
  let _ := Sha256.constant
  refine ⟨Sha256.constant, ⟨fun _ _ => true, fun _ => true, fun _ => .ok (0, 0)⟩, ?_, ?_⟩
  all_goals
    rintro ⟨report, hreport⟩
    cases hreport

end NdnFc.Security.Validate
