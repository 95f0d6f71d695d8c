import NdnFc.Lib.Run
import NdnFc.Security.CommandInterest
import NdnFc.Security.Validator

/-!
# Authorization of management commands

The command authenticator (`NFD-FC/daemon/mgmt/command-authenticator.cpp`) has a validator for each
management module. The configuration makes certificates trust anchors of modules; `certfile any`
replaces a validator by one that accepts every Interest. A command Interest signed with a digest has
the digest identity as its key, and is accepted without any trust anchor.
-/

namespace NdnFc.Security.CommandAuthenticator

open List Method KeyedList Option

open CommandInterest (LastTimestampRecord cleanup insertNewRecord parseCommandInterest timestampError)

/-- The records of the policy for command Interests and the certificates of a validator. -/
structure AnchorValidator where
  queue : List LastTimestampRecord
  store : Store

/-- The validator of a module, which accepts every Interest after `certfile any`. -/
inductive ModuleValidator where
  | acceptAll
  | anchored (validator : AnchorValidator)

/-- `m_validators`: the modules that have been declared, with no validator before the first
configuration. -/
abbrev Validators := List (String × Option ModuleValidator)

/-! ### Configuration -/

structure ConfigEntry where
  key : String
  certfile : Option String
  privileges : Option (List String)

/-- Who is authorized by an entry. -/
inductive Signer where
  | any
  | certificate (certificate : Certificate)

/-- The configuration file: the loader of certificates and the path of a certificate file. -/
structure ConfigFile where
  load : String → Option Certificate
  path : String → String

variable (file : ConfigFile)

/-- The signer of the entry with the given index. -/
def ConfigFile.signer (index : ℕ) (certfile : String) : Except String Signer :=
  if certfile = "any" then pure .any
  else
    match file.load (file.path certfile) with
    | some certificate => pure (.certificate certificate)
    | none => throw ("cannot load certfile " ++ file.path certfile ++ " for authorize[" ++
        toString index ++ "]")

/-- The validator of a module after a privilege was granted. -/
def Signer.grant : Signer → Option ModuleValidator → Option ModuleValidator
  | any, _ => some .acceptAll
  | certificate c, some (.anchored validator) =>
    some (.anchored { validator with
      store := { validator.store with anchors := TrustAnchors.add c validator.store.anchors } })
  | certificate _, validator => validator

def processPrivilege (isDryRun : Bool) (signer : Signer) (index : ℕ) (module : String) :
    EStateM String Validators Unit := do
  let validators ← get
  if (get? Prod.fst validators module).isNone then
    throw ("unknown module '" ++ module ++ "' under authorize[" ++ toString index ++ "]")
  else if isDryRun then pure ()
  else set (update Prod.fst validators module fun entry => (entry.1, signer.grant entry.2))

def processEntry (isDryRun : Bool) (index : ℕ) (entry : ConfigEntry) :
    EStateM String Validators Unit :=
  if entry.key ≠ "authorize" then
    throw ("'" ++ entry.key ++ "' section is not permitted under 'authorizations'")
  else
    match entry.certfile with
    | none => throw ("'certfile' is missing under authorize[" ++ toString index ++ "]")
    | some certfile => do
      let signer ← Method.ofExcept (file.signer index certfile)
      match entry.privileges with
      | none => throw ("'privileges' is missing under authorize[" ++ toString index ++ "]")
      | some privileges => forM privileges (processPrivilege isDryRun signer index)

def processEntries (file : ConfigFile) (isDryRun : Bool) :
    ℕ → List ConfigEntry → EStateM String Validators Unit
  | _, [] => pure ()
  | index, entry :: rest => do
    processEntry file isDryRun index entry
    processEntries file isDryRun (index + 1) rest

def AnchorValidator.empty : AnchorValidator :=
  ⟨[], ⟨[], []⟩⟩

def resetValidators (validators : Validators) : Validators :=
  validators.map fun entry => (entry.1, some (.anchored .empty))

def processConfig (isDryRun : Bool) (config : List ConfigEntry) :
    EStateM String Validators Unit := do
  modify (if isDryRun then id else resetValidators)
  if config.isEmpty then throw "'authorize' is missing under 'authorizations'"
  else processEntries file isDryRun 0 config

/-- The entry grants a privilege for the module. -/
def ConfigEntry.Grants (entry : ConfigEntry) (module : String) : Prop :=
  module ∈ entry.privileges.getD []

instance (entry : ConfigEntry) (module : String) : Decidable (entry.Grants module) :=
  inferInstanceAs (Decidable (_ ∈ _))

/-- The certificates that a configuration authorizes for a module. -/
def authorized (config : List ConfigEntry) (module : String) : List Certificate :=
  (config.filter fun entry => entry.Grants module).filterMap fun entry =>
    entry.certfile.bind fun certfile => file.load (file.path certfile)

/-! ### Authorization -/

/-- What the authorization callback does. -/
inductive Reply where
  | accept (signer : String)
  | reject (silent : Bool)
  | thrown (what : String)
deriving DecidableEq

/-- The reply to a failed validation. -/
def rejectReply (name : Name) (error : ValidationError) : Reply :=
  .reject (error.code = .noSignature ∨ error.code = .invalidKeyLocator ∨
    error.code = .policyError ∧ name.length < CommandInterest.minSize)

abbrev maxDepth : ℕ := 25

/-- The end of a request when certificates are not fetched. -/
def finishOffline (env : Option Bool) : Next → Except Refusal Unit
  | .report .success => pure ()
  | .report (.failure error) => throw (.failed error)
  | .fetch request => throw (.failed ⟨.cannotRetrieveCert,
      "Cannot fetch certificate " ++ uri env request.name ++ " in offline mode"⟩)

section

variable [Sha256] (backend : Backend) (env : Option Bool) (steady system : ℤ)

/-- `CommandAuthenticatorValidationPolicy::checkPolicy` and what follows: the certificate of the key
is a trust anchor or cannot be had. -/
def checkSigner (i : SignedInterest) : EStateM Refusal AnchorValidator Name := do
  let klName ← Method.ofExcept (Refusal.report i.keyLocatorName)
  let request ← Method.ofExcept (Refusal.propagate (certificateRequest klName))
  let validator ← get
  let requested := requestCertificate backend env maxDepth system request validator.store
    (.init (.interest i))
  set { validator with store := requested.store }
  Method.ofExcept (finishOffline env requested.next)
  pure klName

/-- The validation of a command Interest. -/
def checkCommand (interest : Interest) : EStateM Refusal AnchorValidator Name := do
  let i ← Method.ofExcept (Refusal.propagate (SignedInterest.ofInterest interest))
  let command ← Method.ofExcept (parseCommandInterest env i)
  modify fun validator => { validator with queue := cleanup .default steady validator.queue }
  let validator ← get
  match timestampError env .default system validator.queue command.1 command.2 with
  | some error => throw (.failed error)
  | none => do
    let klName ← checkSigner backend env system i
    modify fun validator =>
      { validator with queue := insertNewRecord steady command.1 command.2 validator.queue }
    pure klName

/-- The authorization callback of a module with the given validator. -/
def authorize (interest : Interest) : Option ModuleValidator → Reply × Option ModuleValidator
  | none => (.reject false, none)
  | some .acceptAll =>
    match SignedInterest.ofInterest interest with
    | .error what => (.thrown what, some .acceptAll)
    | .ok _ => (.accept "*", some .acceptAll)
  | some (.anchored validator) =>
    match (checkCommand backend env steady system interest).run validator with
    | .ok klName validator => (.accept (uri env klName), some (.anchored validator))
    | .error (.failed error) validator =>
      (rejectReply interest.name error, some (.anchored validator))
    | .error (.thrown what) validator => (.thrown what, some (.anchored validator))

end

/-- The validator after one call of the callback, at the given times of the steady and the system
clock. -/
def step [Sha256] (backend : Backend) (env : Option Bool) (validator : Option ModuleValidator)
    (call : ℤ × ℤ × Interest) : Option ModuleValidator :=
  (authorize backend env call.1 call.2.1 call.2.2 validator).2

/-! ### When a command is accepted -/

variable {u : Unit} {allowed : Certificate → Prop} {index : ℕ} {isDryRun : Bool} {module : String}
  {validators validators' : Validators} {config : List ConfigEntry} {file : ConfigFile}
  {env : Option Bool}

theorem success_of_finishOffline {next : Next} (h : finishOffline env next = .ok u) :
    next = .report .success := by
  unfold finishOffline at h
  split at h
  · rfl
  · cases h
  · cases h

section

variable [Sha256] (backend : Backend) (env : Option Bool) (steady system : ℤ)

/-- The trust anchors are the given ones and no other certificate is trusted. -/
def AnchorValidator.TrustsOnly (anchors : List Certificate) (validator : AnchorValidator) : Prop :=
  validator.store = ⟨anchors, []⟩

theorem store_requestCertificate (request : Interest) (packet : Packet)
    (anchors : List Certificate) :
    (requestCertificate backend env maxDepth system request ⟨anchors, []⟩ (.init packet)).store =
      ⟨anchors, []⟩ := by
  have hspec := requestCertificate_spec backend env maxDepth system request ⟨anchors, []⟩
    (.init packet)
  generalize requestCertificate backend env maxDepth system request ⟨anchors, []⟩ (.init packet) =
    requested at hspec
  have hempty : requested.store.verified = [] := by
    refine eq_nil_iff_forall_not_mem.mpr fun entry hentry => ?_
    rcases hspec.cached entry hentry with hmem | ⟨_, verified, -, -, hfront, hmem⟩
    · exact not_mem_nil hmem
    · exact not_mem_nil (hfront.subset hmem)
  have hanchors := hspec.anchors_eq
  cases hstore : requested.store with
  | mk anchors' verified =>
    rw [hstore] at hempty hanchors
    obtain rfl : verified = [] := hempty
    obtain rfl : anchors' = anchors := hanchors
    rfl

theorem preserves_checkSigner (i : SignedInterest) (anchors : List Certificate) :
    Preserves (AnchorValidator.TrustsOnly anchors) (checkSigner backend env system i) := by
  refine (preserves_ofExcept _).bind fun klName => ?_
  refine (preserves_ofExcept _).bind fun request => preserves_get_bind ?_
  rintro ⟨queue, store⟩ (rfl : store = ⟨anchors, []⟩)
  have hstore := store_requestCertificate backend env system request (.interest i) anchors
  generalize requestCertificate backend env maxDepth system request ⟨anchors, []⟩
    (.init (.interest i)) = requested at hstore ⊢
  have hfinish : Preserves (AnchorValidator.TrustsOnly anchors)
      (do Method.ofExcept (finishOffline env requested.next); pure klName) :=
    (preserves_ofExcept _).bind fun _ => preserves_pure klName
  exact hfinish ⟨queue, requested.store⟩ hstore

theorem preserves_checkCommand (interest : Interest) (anchors : List Certificate) :
    Preserves (AnchorValidator.TrustsOnly anchors)
      (checkCommand backend env steady system interest) := by
  refine (preserves_ofExcept _).bind fun i => ?_
  refine (preserves_ofExcept _).bind fun command => ?_
  refine Preserves.bind (preserves_modify ?_) fun _ => preserves_get_bind ?_
  · exact fun _ hvalidator => hvalidator
  · intro validator hvalidator
    split
    · exact hvalidator
    · refine Preserves.bind (preserves_checkSigner backend env system i anchors) ?_ validator
        hvalidator
      intro klName
      refine Preserves.bind (preserves_modify ?_) fun _ => preserves_pure klName
      exact fun _ hvalidator => hvalidator

variable {anchors : List Certificate} {validator : AnchorValidator} {i : SignedInterest}

theorem exists_run_step (hvalidator : validator.TrustsOnly anchors)
    (calls : List (ℤ × ℤ × Interest)) :
    ∃ validator', Run.run (step backend env) (some (.anchored validator)) calls =
        some (.anchored validator') ∧ validator'.TrustsOnly anchors := by
  induction calls generalizing validator with
  | nil => exact ⟨validator, rfl, hvalidator⟩
  | cons call calls ih =>
    have hstep : step backend env (some (.anchored validator)) call = some (.anchored
        (Method.after (checkCommand backend env call.1 call.2.1 call.2.2) validator)) := by
      simp only [step, authorize, Method.after]
      split <;> simp [*]
    rw [Run.run_cons, hstep]
    exact ih (preserves_checkCommand backend env call.1 call.2.1 call.2.2 anchors validator
      hvalidator)

variable {backend env steady system} {validator' : AnchorValidator}

theorem verified_of_run_checkSigner (hvalidator : validator.TrustsOnly anchors) {klName : Name}
    (h : (checkSigner backend env system i).run validator = .ok klName validator') :
    i.keyLocatorName = .ok klName ∧
      ((klName = digestSha256Identity ∧ backend.verifySignature (.interest i) none = true) ∨
        ∃ certificate ∈ anchors, backend.verifySignature (.interest i) (some certificate) = true) := by
  obtain ⟨klName', hkl, h⟩ := run_ofExcept_bind_eq_ok_iff.mp h
  obtain ⟨request, hrequest, h⟩ := run_ofExcept_bind_eq_ok_iff.mp h
  rw [run_get_bind] at h
  obtain ⟨queue, store⟩ := validator
  obtain rfl : store = ⟨anchors, []⟩ := hvalidator
  have hspec := requestCertificate_spec backend env maxDepth system request ⟨anchors, []⟩
    (.init (.interest i))
  generalize requestCertificate backend env maxDepth system request ⟨anchors, []⟩
    (.init (.interest i)) = requested at hspec h
  simp only [run_set_bind] at h
  obtain ⟨_, hfinish, h⟩ := run_ofExcept_bind_eq_ok_iff.mp h
  obtain rfl : klName' = klName := (EStateM.Result.ok.inj h).1
  refine ⟨Refusal.report_eq_ok_iff.mp hkl, ?_⟩
  cases hspec.success (success_of_finishOffline hfinish) with
  | digest hname hverify =>
    rw [name_of_certificateRequest (Refusal.propagate_eq_ok_iff.mp hrequest)] at hname
    exact .inl ⟨hname, hverify⟩
  | @chain trusted last htrusted _ _ hlast hverify =>
    obtain rfl : trusted = last := by simpa [ValidationState.init] using hlast
    rcases htrusted with hanchor | ⟨entry, hentry, -⟩
    · exact .inr ⟨trusted, hanchor, hverify⟩
    · exact absurd hentry not_mem_nil

theorem verified_of_run_checkCommand {interest : Interest}
    (hvalidator : validator.TrustsOnly anchors) {klName : Name}
    (h : (checkCommand backend env steady system interest).run validator = .ok klName validator') :
    ∃ i timestamp, SignedInterest.ofInterest interest = .ok i ∧
      parseCommandInterest env i = .ok (klName, timestamp) ∧
      ((klName = digestSha256Identity ∧ backend.verifySignature (.interest i) none = true) ∨
        ∃ certificate ∈ anchors, backend.verifySignature (.interest i) (some certificate) = true) := by
  obtain ⟨i, hi, h⟩ := run_ofExcept_bind_eq_ok_iff.mp h
  obtain ⟨⟨keyName, timestamp⟩, hparsed, h⟩ := run_ofExcept_bind_eq_ok_iff.mp h
  rw [run_modify_bind, run_get_bind] at h
  split at h
  · simp at h
  · obtain ⟨klName', validator'', hsigner, h⟩ := run_bind_eq_ok_iff.mp h
    obtain rfl : klName' = klName := (EStateM.Result.ok.inj h).1
    have hclean : AnchorValidator.TrustsOnly anchors
        { validator with queue := cleanup .default steady validator.queue } := hvalidator
    obtain ⟨hkl, hverified⟩ := verified_of_run_checkSigner hclean hsigner
    have hsame := CommandInterest.keyLocatorName_of_parseCommandInterest hparsed
    obtain rfl : keyName = klName' := Except.ok.inj (hsame.symm.trans hkl)
    exact ⟨i, timestamp, Refusal.propagate_eq_ok_iff.mp hi, hparsed, hverified⟩

theorem run_checkSigner_of_digest (hkl : i.keyLocatorName = .ok digestSha256Identity)
    (hverify : backend.verifySignature (.interest i) none = true) (validator : AnchorValidator) :
    (checkSigner backend env system i).run validator = .ok digestSha256Identity validator := by
  obtain ⟨request, hrequest⟩ : ∃ request, certificateRequest digestSha256Identity = .ok request :=
    ⟨_, rfl⟩
  have hname := name_of_certificateRequest hrequest
  have hrequested : requestCertificate backend env maxDepth system request validator.store
      (.init (.interest i)) = ⟨.init (.interest i), validator.store, .report .success⟩ := by
    simp [requestCertificate, ValidationState.init, hname, verifyOriginalPacket, hverify]
  refine run_ofExcept_bind_eq_ok_iff.mpr ⟨_, Refusal.report_eq_ok_iff.mpr hkl, ?_⟩
  refine run_ofExcept_bind_eq_ok_iff.mpr ⟨_, Refusal.propagate_eq_ok_iff.mpr hrequest, ?_⟩
  simp only [run_get_bind, hrequested, run_set_bind]
  exact run_ofExcept_bind_eq_ok_iff.mpr ⟨(), rfl, rfl⟩

theorem exists_run_checkCommand_of_digest (steady : ℤ) {interest : Interest} {timestamp : ℤ}
    (hi : SignedInterest.ofInterest interest = .ok i)
    (hparsed : parseCommandInterest env i = .ok (digestSha256Identity, timestamp))
    (hverify : backend.verifySignature (.interest i) none = true) (store : Store) :
    ∃ validator, (checkCommand backend env steady timestamp interest).run ⟨[], store⟩ =
      .ok digestSha256Identity validator := by
  have htimestamp : timestampError env .default timestamp [] digestSha256Identity timestamp = none := by
    have hgrace : 0 ≤ CommandInterest.Options.default.grace := by decide
    exact CommandInterest.timestampError_eq_none_iff.mpr
      ⟨by omega, by omega, by simp [get?]⟩
  have hsigner : (checkSigner backend env timestamp i).run ⟨[], store⟩ =
      .ok digestSha256Identity ⟨[], store⟩ :=
    run_checkSigner_of_digest (CommandInterest.keyLocatorName_of_parseCommandInterest hparsed)
      hverify _
  refine ⟨⟨insertNewRecord steady digestSha256Identity timestamp [], store⟩,
    run_ofExcept_bind_eq_ok_iff.mpr ⟨i, Refusal.propagate_eq_ok_iff.mpr hi, ?_⟩⟩
  refine run_ofExcept_bind_eq_ok_iff.mpr ⟨_, hparsed, ?_⟩
  simp only [run_modify_bind, run_get_bind, cleanup, htimestamp]
  exact run_bind_eq_ok_iff.mpr ⟨_, _, hsigner, rfl⟩

end

/-! ### What a configuration leads to -/

def validatorOf (module : String) (validators : Validators) : Option (Option ModuleValidator) :=
  (get? Prod.fst validators module).map Prod.snd

/-- The module has a validator without records that trusts only allowed certificates. -/
def IsAnchored (allowed : Certificate → Prop) (module : String) (validators : Validators) : Prop :=
  ∃ anchors, (∀ certificate ∈ anchors, allowed certificate) ∧
    validatorOf module validators = some (some (.anchored ⟨[], ⟨anchors, []⟩⟩))

/-- The signer of a privilege is an allowed certificate. -/
def Signer.Allowed (allowed : Certificate → Prop) : Signer → Prop
  | any => False
  | certificate c => allowed c

theorem validatorOf_update (signer : Signer) (module granted : String) (validators : Validators) :
    validatorOf module (update Prod.fst validators granted fun entry =>
        (entry.1, signer.grant entry.2)) =
      if module = granted then (validatorOf granted validators).map signer.grant
      else validatorOf module validators := by
  have hkey : ∀ entry : String × Option ModuleValidator,
      Prod.fst ((fun entry => (entry.1, signer.grant entry.2)) entry) = Prod.fst entry :=
    fun _ => rfl
  rw [validatorOf, get?_update hkey]
  split_ifs
  · simp [validatorOf, Function.comp_def]
  · rfl

section

variable (h : IsAnchored allowed module validators)

include h

theorem isAnchored_processPrivilege {granted : String} {signer : Signer}
    (hsigner : granted = module → signer.Allowed allowed)
    (hrun : (processPrivilege isDryRun signer index granted).run validators = .ok u validators') :
    IsAnchored allowed module validators' := by
  unfold processPrivilege at hrun
  rw [run_get_bind] at hrun
  split_ifs at hrun
  · simp at hrun
  · cases hrun
    exact h
  · cases hrun
    obtain ⟨anchors, hanchors, hget⟩ := h
    unfold IsAnchored
    rw [validatorOf_update]
    split_ifs with hsame
    · subst hsame
      cases signer with
      | any => exact (hsigner rfl).elim
      | certificate c =>
        refine ⟨TrustAnchors.add c anchors, ?_, by simp [hget, Signer.grant]⟩
        intro certificate hmem
        rcases SortedTable.mem_of_mem_emplace hmem with rfl | hmem
        · exact hsigner rfl
        · exact hanchors certificate hmem
    · exact ⟨anchors, hanchors, hget⟩

theorem isAnchored_forM {signer : Signer} {privileges : List String}
    (hsigner : module ∈ privileges → signer.Allowed allowed)
    (hrun : (forM privileges (processPrivilege isDryRun signer index)).run validators = .ok u validators') :
    IsAnchored allowed module validators' := by
  induction privileges generalizing validators with
  | nil =>
    cases hrun
    exact h
  | cons granted privileges ih =>
    rw [forM_cons] at hrun
    obtain ⟨_, validators'', hfirst, hrest⟩ := run_bind_eq_ok_iff.mp hrun
    refine ih (isAnchored_processPrivilege h (fun hsame => ?_) hfirst) (fun hmem => ?_) hrest
    · exact hsigner (hsame ▸ mem_cons_self)
    · exact hsigner (mem_cons_of_mem _ hmem)

/-- The entry grants no privilege for the module to `certfile any`. -/
def ConfigEntry.NotAny (entry : ConfigEntry) (module : String) : Prop :=
  entry.certfile = some "any" → ¬ entry.Grants module

omit h in
theorem mem_authorized_iff {certificate : Certificate} :
    certificate ∈ authorized file config module ↔ ∃ entry ∈ config, entry.Grants module ∧
      ∃ certfile, entry.certfile = some certfile ∧ file.load (file.path certfile) = some certificate := by
  simp only [authorized, mem_filterMap, mem_filter, decide_eq_true_eq,
    bind_eq_some_iff, and_assoc]

theorem isAnchored_processEntry {entry : ConfigEntry} (hany : entry.NotAny module)
    (hallowed : ∀ certificate ∈ authorized file [entry] module, allowed certificate)
    (hrun : (processEntry file isDryRun index entry).run validators = .ok u validators') :
    IsAnchored allowed module validators' := by
  unfold processEntry at hrun
  split_ifs at hrun with hkey
  · simp at hrun
  · split at hrun
    · simp at hrun
    · rename_i certfile hcertfile
      obtain ⟨signer, hsigner, hrun⟩ := run_ofExcept_bind_eq_ok_iff.mp hrun
      split at hrun
      · simp at hrun
      · rename_i privileges hprivileges
        refine isAnchored_forM h (fun hmem => ?_) hrun
        have hgrants : entry.Grants module := by
          rw [ConfigEntry.Grants, hprivileges]
          exact hmem
        unfold ConfigFile.signer at hsigner
        split_ifs at hsigner with hisAny
        · exact absurd hgrants (hany (hisAny ▸ hcertfile))
        · split at hsigner
          · rename_i certificate hload
            cases hsigner
            exact hallowed certificate (mem_authorized_iff.mpr
              ⟨entry, mem_singleton_self _, hgrants, certfile, hcertfile, hload⟩)
          · cases hsigner

theorem isAnchored_processEntries (hany : ∀ entry ∈ config, entry.NotAny module)
    (hallowed : ∀ certificate ∈ authorized file config module, allowed certificate)
    (hrun : (processEntries file isDryRun index config).run validators = .ok u validators') :
    IsAnchored allowed module validators' := by
  induction config generalizing index validators with
  | nil =>
    cases hrun
    exact h
  | cons entry rest ih =>
    obtain ⟨_, validators'', hfirst, hrest⟩ := run_bind_eq_ok_iff.mp hrun
    have hsub : ∀ part : List ConfigEntry, (∀ e ∈ part, e ∈ entry :: rest) →
        ∀ certificate ∈ authorized file part module, allowed certificate := by
      intro part hpart certificate hmem
      obtain ⟨e, he, hgrants⟩ := mem_authorized_iff.mp hmem
      exact hallowed certificate (mem_authorized_iff.mpr ⟨e, hpart e he, hgrants⟩)
    have hanchored := isAnchored_processEntry h (hany entry mem_cons_self)
      (hsub [entry] (by simp)) hfirst
    exact ih hanchored (fun e he => hany e (mem_cons_of_mem _ he))
      (hsub rest fun e he => mem_cons_of_mem _ he) hrest

end

theorem isAnchored_processConfig (hdeclared : (validatorOf module validators).isSome)
    (hany : ∀ entry ∈ config, entry.NotAny module)
    (hrun : (processConfig file false config).run validators = .ok u validators') :
    IsAnchored (· ∈ authorized file config module) module validators' := by
  simp only [processConfig, run_modify_bind, Bool.false_eq_true, if_false] at hrun
  split_ifs at hrun
  · simp at hrun
  · refine isAnchored_processEntries ⟨[], by simp, ?_⟩ hany (fun _ h => h) hrun
    obtain ⟨validator, hvalidator⟩ := isSome_iff_exists.mp hdeclared
    obtain ⟨entry, hget, -⟩ := map_eq_some_iff.mp hvalidator
    rw [validatorOf, resetValidators, get?, find?_map]
    change Option.map _ (Option.map _ (get? Prod.fst validators module)) = _
    rw [hget]
    rfl

/-! ### Soundness -/

/-- Whatever commands came before and whatever the clocks say, the callback accepts the Interest only
if its signature verifies with an authorized certificate. -/
def Sound [Sha256] (backend : Backend) (env : Option Bool) (allowed : List Certificate)
    (validator : Option ModuleValidator) (interest : Interest) : Prop :=
  ∀ (calls : List (ℤ × ℤ × Interest)) (steady system : ℤ) (signer : String),
    (authorize backend env steady system interest
        (Run.run (step backend env) validator calls)).1 = .accept signer →
      ∃ i, SignedInterest.ofInterest interest = .ok i ∧ ∃ certificate ∈ allowed,
        backend.verifySignature (.interest i) (some certificate) = true

/-- The Interest is a command Interest whose key is the digest identity and whose digest is valid. -/
def IsDigestCommand (backend : Backend) (env : Option Bool) (i : SignedInterest) : Prop :=
  (∃ timestamp, parseCommandInterest env i = .ok (digestSha256Identity, timestamp)) ∧
    backend.verifySignature (.interest i) none = true

theorem authorize_anchored_eq_accept_iff [Sha256] {backend : Backend} {steady system : ℤ}
    {interest : Interest} {validator : AnchorValidator} {signer : String} :
    (authorize backend env steady system interest (some (.anchored validator))).1 = .accept signer ↔
      ∃ klName validator', (checkCommand backend env steady system interest).run validator =
        .ok klName validator' ∧ uri env klName = signer := by
  simp only [authorize]
  split
  · simp [*]
  · simp [*, rejectReply]
  · simp [*]

/-- Without `certfile any`, the callback is sound for exactly the Interests that have no valid
digest as their signature or also verify with an authorized certificate. -/
theorem authorize_sound_iff [Sha256] (backend : Backend) (env : Option Bool) (file : ConfigFile)
    (config : List ConfigEntry) (module : String) {validators validators' : Validators}
    {validator : Option ModuleValidator}
    (hdeclared : (validatorOf module validators).isSome)
    (hconfig : (processConfig file false config).run validators = .ok () validators')
    (hany : ∀ entry ∈ config, entry.NotAny module)
    (hvalidator : validatorOf module validators' = some validator) (interest : Interest) :
    Sound backend env (authorized file config module) validator interest ↔
      ∀ i, SignedInterest.ofInterest interest = .ok i → IsDigestCommand backend env i →
        ∃ certificate ∈ authorized file config module,
          backend.verifySignature (.interest i) (some certificate) = true := by
  obtain ⟨anchors, hanchors, hget⟩ := isAnchored_processConfig hdeclared hany hconfig
  obtain rfl := some.inj (hvalidator.symm.trans hget)
  constructor
  · rintro hsound i hi ⟨⟨timestamp, hparsed⟩, hverify⟩
    obtain ⟨validator', hrun⟩ := exists_run_checkCommand_of_digest 0 hi hparsed hverify
      ⟨anchors, []⟩
    obtain ⟨i', hi', hcertificate⟩ := hsound [] 0 timestamp _
      (authorize_anchored_eq_accept_iff.mpr ⟨_, _, hrun, rfl⟩)
    obtain rfl : i = i' := Except.ok.inj (hi.symm.trans hi')
    exact hcertificate
  · intro h calls steady system signer haccept
    obtain ⟨validator', hrun, htrusts⟩ := exists_run_step backend env
      (rfl : AnchorValidator.TrustsOnly anchors ⟨[], ⟨anchors, []⟩⟩) calls
    rw [hrun] at haccept
    obtain ⟨klName, validator'', hcheck, -⟩ := authorize_anchored_eq_accept_iff.mp haccept
    obtain ⟨i, timestamp, hi, hparsed, ⟨rfl, hdigest⟩ | ⟨certificate, hmem, hverify⟩⟩ :=
      verified_of_run_checkCommand htrusts hcheck
    · exact ⟨i, hi, h i hi ⟨⟨timestamp, hparsed⟩, hdigest⟩⟩
    · exact ⟨i, hi, certificate, hanchors certificate hmem, hverify⟩

/-! ### Examples -/

/-- A configuration that authorizes one certificate for the module `fib`. -/
def sampleConfig : List ConfigEntry :=
  [⟨"authorize", some "fib.ndncert", some ["fib"]⟩]

/-- Every certificate file holds the same certificate. -/
def sampleFile : ConfigFile :=
  ⟨fun _ => some (sampleCertificate 1), id⟩

def sampleValidator : AnchorValidator :=
  ⟨[], ⟨[sampleCertificate 1], []⟩⟩

theorem run_processConfig_sampleConfig :
    (processConfig sampleFile false sampleConfig).run [("fib", none)] =
      .ok () [("fib", some (.anchored sampleValidator))] := by
  rfl

/-- A command Interest that names the key of the certificate. -/
def keyCommand (milliseconds : UInt8) : Interest :=
  CommandInterest.sampleCommand
    [27, 1, 3, 28, 14, 7, 12, 8, 3, 75, 69, 89, 8, 1, 1, 8, 0, 8, 0, 40, 1, milliseconds]

set_option maxRecDepth 4000 in
/-- A command Interest that is signed with the key of the certificate is accepted, and the callback is
sound for it. -/
theorem authorize_sound_keyCommand : ∃ (_ : Sha256) (backend : Backend),
    (authorize backend none 0 0 (keyCommand 7) (some (.anchored sampleValidator))).1 =
        .accept "/KEY/%01/.../..." ∧
      Sound backend none (authorized sampleFile sampleConfig "fib") (some (.anchored sampleValidator))
        (keyCommand 7) := by
  let _ := Sha256.constant
  refine ⟨Sha256.constant, ⟨fun _ _ => true, fun _ => false, fun _ => .ok (0, 0)⟩, by decide, ?_⟩
  refine (authorize_sound_iff _ none sampleFile sampleConfig "fib" (by decide)
    run_processConfig_sampleConfig ?_ rfl _).mpr fun i _ hdigest => ?_
  · exact forall_mem_singleton.mpr fun hany => absurd hany (by decide)
  · exact ⟨sampleCertificate 1, by decide, rfl⟩

set_option maxRecDepth 4000 in
/-- A command Interest with a digest as its signature is accepted although no key verifies it. -/
theorem not_authorize_sound : ∃ (_ : Sha256) (backend : Backend) (validators' : Validators)
    (validator : Option ModuleValidator),
    (processConfig sampleFile false sampleConfig).run [("fib", none)] = .ok () validators' ∧
      (∀ entry ∈ sampleConfig, entry.NotAny "fib") ∧
      validatorOf "fib" validators' = some validator ∧
      ¬ Sound backend none (authorized sampleFile sampleConfig "fib") validator
        (CommandInterest.digestCommand 7) := by
  let _ := Sha256.constant
  refine ⟨Sha256.constant, ⟨fun _ _ => false, fun _ => true, fun _ => .ok (0, 0)⟩,
    _, some (.anchored sampleValidator), run_processConfig_sampleConfig, ?_, rfl, fun hsound => ?_⟩
  · exact forall_mem_singleton.mpr fun hany => absurd hany (by decide)
  · obtain ⟨_, _, _, _, hverify⟩ := hsound [] 0 0 "/localhost/identity/digest-sha256" (by decide)
    cases hverify

end NdnFc.Security.CommandAuthenticator
