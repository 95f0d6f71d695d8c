import NdnFc.Security.CommandInterest
import NdnFc.Security.PolicyConfig

/-!
# Policies inside policies

The policies for signed and for command Interests check the replay protection and leave the rest to
an inner policy, the innermost being made from rules. `ValidationPolicySignedInterest`
(`ndn-cxx/security/validation-policy-signed-interest.cpp`) does not look whether the key could be
told: its checks go on with the empty name.
-/

namespace NdnFc.Security

namespace SignedInterestPolicy

/-- `Options`, with durations in nanoseconds. -/
structure Options where
  shouldValidateTimestamps : Bool
  timestampGracePeriod : ℤ
  shouldValidateSeqNums : Bool
  shouldValidateNonces : Bool
  maxNonceRecordCount : ℤ
  maxRecordCount : ℤ

def Options.default : Options where
  shouldValidateTimestamps := true
  timestampGracePeriod := 2 * 60 * 10 ^ 9
  shouldValidateSeqNums := false
  shouldValidateNonces := true
  maxNonceRecordCount := 1000
  maxRecordCount := 1000

/-- The grace period that the constructor stores. -/
def Options.grace (options : Options) : ℤ :=
  max options.timestampGracePeriod 0

structure LastInterestRecord where
  keyName : Name
  timestamp : Option ℤ
  seqNum : Option ℕ
  observedNonces : List Bytes
  lastRefreshed : ℤ

structure Replay where
  keyName : Name
  timestamp : Option ℤ
  seqNum : Option ℕ
  nonce : Option Bytes

section

variable (env : Option Bool) (record : Option LastInterestRecord) (replay : Replay)

/-- The check of the timestamp, at a time of the system clock. -/
def timestampError (grace system : ℤ) : Option String :=
  match replay.timestamp with
  | none => some "Timestamp is required by policy but is not present"
  | some timestamp =>
    if grace < |system - timestamp| then
      some ("Timestamp is outside the grace period for key " ++ uri env replay.keyName)
    else if (record.bind LastInterestRecord.timestamp).any (timestamp ≤ ·) then
      some ("Timestamp is reordered for key " ++ uri env replay.keyName)
    else none

def seqNumError : Option String :=
  match replay.seqNum with
  | none => some "Sequence number is required by policy but is not present"
  | some seqNum =>
    if (record.bind LastInterestRecord.seqNum).any (seqNum ≤ ·) then
      some ("Sequence number is reordered for key " ++ uri env replay.keyName)
    else none

def nonceError : Option String :=
  match replay.nonce with
  | none => some "Nonce is required by policy but is not present"
  | some nonce =>
    if record.any (nonce ∈ ·.observedNonces) then
      some ("Nonce matches previously-seen nonce for key " ++ uri env replay.keyName)
    else none

end

/-- The checks of `checkIncomingInterest`, in their order. -/
def recordError (env : Option Bool) (options : Options) (system : ℤ)
    (records : List LastInterestRecord) (replay : Replay) : Option ValidationError :=
  let record := KeyedList.get? LastInterestRecord.keyName records replay.keyName
  let timestamp :=
    if options.shouldValidateTimestamps then
      timestampError env record replay options.grace system
    else none
  let seqNum := if options.shouldValidateSeqNums then seqNumError env record replay else none
  let nonce := if options.shouldValidateNonces then nonceError env record replay else none
  (timestamp <|> seqNum <|> nonce).map fun info => ⟨.policyError, info⟩

/-- `checkIncomingInterest`. What is recorded after success does not matter for the validation of
this Interest. -/
def checkIncomingInterest (env : Option Bool) (options : Options) (system : ℤ)
    (records : List LastInterestRecord) (si : SignatureInfo) : Reporting Bool := do
  let keyName ← getKeyLocatorName (keyLocatorName si)
  let timestamp ← Method.ofExcept si.getTime
  let seqNum ← Method.ofExcept si.getSeqNum
  match recordError env options system records ⟨keyName, timestamp, seqNum, si.getNonce⟩ with
  | some error => do
    fail error
    pure false
  | none => pure true

end SignedInterestPolicy

/-! ### Policies -/

open SignedInterestPolicy hiding Options timestampError
open CommandInterest (cleanup parseCommandInterest)

/-- A policy with the records that it has when a validation starts. -/
inductive Policy where
  | config (policy : PolicyConfig)
  | commandInterest (options : CommandInterest.Options)
      (queue : List CommandInterest.LastTimestampRecord) (inner : Policy)
  | signedInterest (options : SignedInterestPolicy.Options)
      (records : List LastInterestRecord) (inner : Policy)

namespace Policy

section

variable (env : Option Bool)

/-- `checkPolicy(data, state, continueValidation)` -/
def checkPolicyData (data : Data) : Policy → Reporting Continuation
  | config policy => policy.checkPolicy env (.data data)
  | commandInterest _ _ inner => checkPolicyData data inner
  | signedInterest _ _ inner => checkPolicyData data inner

/-- `checkPolicy(interest, state, continueValidation)`, at a time of the two clocks. -/
def checkPolicyInterest (steady system : ℤ) (i : SignedInterest) : Policy → Reporting Continuation
  | config policy => policy.checkPolicy env (.interest i)
  | commandInterest options queue inner =>
    match parseCommandInterest env i with
    | .error (.thrown e) => throw e
    | .error (.failed error) => do
      fail error
      pure none
    | .ok command => do
      let reports ← get
      if hasFailed reports then pure none
      else
        match CommandInterest.timestampError env options system
            (cleanup options steady queue) command.1 command.2 with
        | some error => do
          fail error
          pure none
        | none => checkPolicyInterest steady system i inner
  | signedInterest options records inner => do
    let reports ← get
    if hasFailed reports then pure none
    else
      match i.signatureInfo with
      | none => checkPolicyInterest steady system i inner
      | some si => do
        if ← checkIncomingInterest env options system records si then
          checkPolicyInterest steady system i inner
        else pure none

/-! ### Safety -/

/-- The rules of the innermost policy can be applied to the Data. -/
def SafeForData (data : Data) : Policy → Prop
  | config policy => policy.Safe env (.data data)
  | commandInterest _ _ inner => SafeForData data inner
  | signedInterest _ _ inner => SafeForData data inner

/-- The outermost policy is one for signed Interests. -/
def IsSignedInterest : Policy → Prop
  | signedInterest _ _ _ => True
  | _ => False

/-- No policy on the way of an Interest throws, and a policy for signed Interests can tell the key,
or its own checks do not fail and the inner policy is one for signed Interests too. -/
def SafeForInterest (steady system : ℤ) (i : SignedInterest) : Policy → Prop
  | config policy => policy.Safe env (.interest i)
  | commandInterest options queue inner =>
    match parseCommandInterest env i with
    | .error (.thrown _) => False
    | .error (.failed _) => True
    | .ok command =>
      CommandInterest.timestampError env options system
          (cleanup options steady queue) command.1 command.2 = none →
        SafeForInterest steady system i inner
  | signedInterest options records inner =>
    match i.signatureInfo with
    | none => SafeForInterest steady system i inner
    | some si =>
      ∃ timestamp seqNum, si.getTime = .ok timestamp ∧ si.getSeqNum = .ok seqNum ∧
        match keyLocatorName si with
        | .ok keyName =>
          recordError env options system records
              ⟨keyName, timestamp, seqNum, si.getNonce⟩ = none →
            SafeForInterest steady system i inner
        | .error _ =>
          recordError env options system records
              ⟨[], timestamp, seqNum, si.getNonce⟩ = none ∧
            inner.IsSignedInterest

/-! ### What a policy asks for -/

/-- The innermost policy accepts the Data with the key of the given name. -/
def AcceptsData (data : Data) (klName : Name) : Policy → Prop
  | config policy => policy.Accepts env (.data data) klName
  | commandInterest _ _ inner => AcceptsData data klName inner
  | signedInterest _ _ inner => AcceptsData data klName inner

/-- The checks of all policies pass, and the innermost accepts the Interest with the key of the given
name. -/
def AcceptsInterest (steady system : ℤ) (i : SignedInterest) (klName : Name) : Policy → Prop
  | config policy => policy.Accepts env (.interest i) klName
  | commandInterest options queue inner =>
    (∃ command, parseCommandInterest env i = .ok command ∧
      CommandInterest.timestampError env options system
        (cleanup options steady queue) command.1 command.2 = none) ∧
      AcceptsInterest steady system i klName inner
  | signedInterest options records inner =>
    (∀ si, i.signatureInfo = some si → ∃ keyName timestamp seqNum,
      keyLocatorName si = .ok keyName ∧ si.getTime = .ok timestamp ∧ si.getSeqNum = .ok seqNum ∧
        recordError env options system records
          ⟨keyName, timestamp, seqNum, si.getNonce⟩ = none) ∧
      AcceptsInterest steady system i klName inner

variable {env} {policy : Policy} {i : SignedInterest} {si : SignatureInfo} {steady system : ℤ}

theorem settles_checkPolicyData {data : Data} :
    Settles (policy.SafeForData env data)
      (fun interest =>
        ∃ klName, policy.AcceptsData env data klName ∧ certificateRequest klName = .ok interest)
      ((policy.checkPolicyData env data).run []) := by
  induction policy with
  | config policy => exact PolicyConfig.settles_checkPolicy
  | commandInterest _ _ inner ih => exact ih
  | signedInterest _ _ inner ih => exact ih

theorem keyLocatorName_of_signatureInfo (h : i.signatureInfo = some si) :
    i.keyLocatorName = keyLocatorName si := by
  rw [SignedInterest.keyLocatorName, SignedInterest.anySignatureInfo, h]
  rfl

theorem settles_checkPolicyInterest_of_failed {error : ValidationError}
    (hkey : i.keyLocatorName = .error error) :
    Settles policy.IsSignedInterest (fun _ => False)
      ((policy.checkPolicyInterest env steady system i).run [.failure error]) := by
  cases policy with
  | signedInterest options records inner => exact .of_proper trivial rfl (by simp [checkPolicyInterest, hasFailed])
  | commandInterest options queue inner =>
    refine .of_improper id ?_
    rw [checkPolicyInterest]
    cases hparse : parseCommandInterest env i with
    | error refusal =>
      cases refusal with
      | thrown e => exact trivial
      | failed error => exact Nat.one_lt_two
    | ok command =>
      have hname := CommandInterest.keyLocatorName_of_parseCommandInterest hparse
      rw [hkey] at hname
      cases hname
  | config policy =>
    refine .of_improper id ?_
    rw [checkPolicyInterest, PolicyConfig.checkPolicy, PolicyConfig.keyLocatorName, hkey]
    split_ifs
    · exact List.cons_ne_nil _ _
    · exact Nat.one_lt_two

variable {options : SignedInterestPolicy.Options} {records : List LastInterestRecord}

theorem settles_signedInterest {inner : Policy} {requests : Interest → Prop}
    (hsi : i.signatureInfo = some si)
    (ih : Settles (inner.SafeForInterest env steady system i) requests
      ((inner.checkPolicyInterest env steady system i).run [])) :
    Settles (∃ timestamp seqNum, si.getTime = .ok timestamp ∧ si.getSeqNum = .ok seqNum ∧
        match keyLocatorName si with
        | .ok keyName =>
          recordError env options system records
              ⟨keyName, timestamp, seqNum, si.getNonce⟩ = none →
            inner.SafeForInterest env steady system i
        | .error _ =>
          recordError env options system records
              ⟨[], timestamp, seqNum, si.getNonce⟩ = none ∧
            inner.IsSignedInterest)
      (fun interest => (∃ keyName timestamp seqNum, keyLocatorName si = .ok keyName ∧
        si.getTime = .ok timestamp ∧ si.getSeqNum = .ok seqNum ∧
          recordError env options system records
            ⟨keyName, timestamp, seqNum, si.getNonce⟩ = none) ∧ requests interest)
      ((do
        if ← checkIncomingInterest env options system records si then
          inner.checkPolicyInterest env steady system i
        else pure none : Reporting Continuation).run []) := by
  rw [checkIncomingInterest]
  cases htime : si.getTime with
  | error e =>
    refine .of_improper (by simp) ?_
    cases keyLocatorName si <;> exact trivial
  | ok timestamp =>
    cases hseqNum : si.getSeqNum with
    | error e =>
      refine .of_improper (by simp) ?_
      cases keyLocatorName si <;> exact trivial
    | ok seqNum =>
      simp only [Except.ok.injEq, exists_and_left, exists_eq_left']
      cases hkey : keyLocatorName si with
      | ok keyName =>
        cases hrecord : recordError env options system records
          ⟨keyName, timestamp, seqNum, si.getNonce⟩ with
        | none => simpa [getKeyLocatorName, hrecord] using ih
        | some error =>
          simp only [getKeyLocatorName, Method.ofExcept_ok_bind, pure_bind, hrecord]
          exact .of_proper (by simp) rfl (by simp [fail, hrecord, -bind_pure_comp])
      | error keyError =>
        cases hrecord : recordError env options system records
          ⟨[], timestamp, seqNum, si.getNonce⟩ with
        | none =>
          have hinner : Settles inner.IsSignedInterest (fun _ => False)
              ((inner.checkPolicyInterest env steady system i).run [.failure keyError]) :=
            settles_checkPolicyInterest_of_failed ((keyLocatorName_of_signatureInfo hsi).trans hkey)
          simpa [getKeyLocatorName, hrecord, fail] using hinner
        | some error =>
          refine .of_improper (by simp) ?_
          simp only [getKeyLocatorName, Method.ofExcept_ok_bind, bind_assoc, pure_bind, hrecord]
          exact Nat.one_lt_two

variable (env) in
theorem settles_checkPolicyInterest (steady system : ℤ) (i : SignedInterest) (policy : Policy) :
    Settles (policy.SafeForInterest env steady system i)
      (fun interest => ∃ klName, policy.AcceptsInterest env steady system i klName ∧
        certificateRequest klName = .ok interest)
      ((policy.checkPolicyInterest env steady system i).run []) := by
  induction policy with
  | config policy => exact PolicyConfig.settles_checkPolicy
  | commandInterest options queue inner ih =>
    simp only [SafeForInterest, checkPolicyInterest, AcceptsInterest, and_assoc, exists_and_left]
    cases parseCommandInterest env i with
    | error refusal =>
      cases refusal with
      | thrown e => exact .of_improper id trivial
      | failed error => exact .of_proper trivial rfl (by simp [fail, -bind_pure_comp])
    | ok command =>
      cases htimestamp : CommandInterest.timestampError env options system
        (cleanup options steady queue) command.1 command.2 with
      | none => simpa [htimestamp, hasFailed] using ih
      | some error =>
        simp only [htimestamp]
        exact .of_proper (by simp) rfl (by simp [hasFailed, fail, htimestamp, -bind_pure_comp])
  | signedInterest options records inner ih =>
    simp only [SafeForInterest, checkPolicyInterest, AcceptsInterest, and_assoc, exists_and_left]
    cases hsi : i.signatureInfo with
    | none => simpa [hasFailed] using ih
    | some si => simpa [hasFailed, and_assoc] using settles_signedInterest hsi ih

end

end Policy

end NdnFc.Security
