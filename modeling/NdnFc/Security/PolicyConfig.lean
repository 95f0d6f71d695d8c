import NdnFc.Security.Validator

/-!
# The policy that is made from rules

`ValidationPolicyConfig` (`ndn-cxx/security/validation-policy-config.cpp`, `validator-config`) has
rules. The first rule with a filter that matches decides: one of its checkers has to accept the
names of the packet and of its key. Regular expressions are parameters. A policy is a method of the
list of failures reported so far, and returns whether it continues and with which request.
-/

namespace NdnFc.Security

open Fallible

/-! ### Reports -/

/-- A computation that may make reports and throw. -/
abbrev Reporting := EStateM String (List Report)

def fail (error : ValidationError) : Reporting Unit :=
  modify fun reports => reports ++ [.failure error]

/-- The last report was a failure, `!state->getOutcome()`. -/
def hasFailed (reports : List Report) : Bool :=
  reports.getLast?.any fun
    | .failure _ => true
    | .success => false

/-- `getKeyLocatorName`: a failure is reported and an empty name returned. -/
def getKeyLocatorName : Except ValidationError Name → Reporting Name
  | .ok name => pure name
  | .error error => do
    fail error
    pure []

/-! ### Names -/

inductive NameRelation where
  | equal
  | isPrefixOf
  | isStrictPrefixOf
deriving DecidableEq

namespace NameRelation

/-- `checkNameRelation` -/
def check : NameRelation → Name → Name → Bool
  | equal, name1, name2 => name1 == name2
  | isPrefixOf, name1, name2 => name1.isPrefixOf name2
  | isStrictPrefixOf, name1, name2 => name1.isPrefixOf name2 && decide (name1.length < name2.length)

def text : NameRelation → String
  | equal => "equal"
  | isPrefixOf => "is-prefix-of"
  | isStrictPrefixOf => "is-strict-prefix-of"

end NameRelation

/-- A regular expression for names: its text, whether a name matches, and the name made of the
match. -/
structure Regex where
  expr : String
  isMatch : Name → Except String Bool
  expand : Name → Except String Name

/-- The name of a packet without the components of its signature, or why there are none. -/
def Packet.signedName : Packet → Except String Name
  | .data d => .ok d.name
  | .interest i =>
    match i.format with
    | .v03 =>
      if (i.interest.name.getLast?).any Component.isParametersSha256Digest then
        .ok i.interest.name.dropLast
      else .error "ParametersSha256DigestComponent missing"
    | .v02 =>
      if i.interest.name.length < signedInterestMinSize then .error "name too short"
      else .ok (i.interest.name.take (i.interest.name.length - signedInterestMinSize))

/-! ### Filters and checkers -/

/-- `RelationNameFilter` and `RegexNameFilter`. -/
inductive Filter where
  | relationName (name : Name) (relation : NameRelation)
  | regexName (regex : Regex)

def Filter.matchName : Filter → Name → Except String Bool
  | relationName name relation, name2 => .ok (relation.check name name2)
  | regexName regex, name => regex.isMatch name

/-- `Filter::match` -/
def Filter.isMatch (filter : Filter) (packet : Packet) : Except String Bool :=
  match packet.signedName with
  | .error _ => .ok false
  | .ok name => filter.matchName name

/-- The kinds of checkers: `Checker` itself, `NameRelationChecker`, `RegexChecker` and
`HyperRelationChecker`. -/
inductive CheckerKind where
  | sigTypeOnly
  | nameRelation (name : Name) (relation : NameRelation)
  | regex (regex : Regex)
  | hyperRelation (pRegex kRegex : Regex) (relation : NameRelation)

/-- A checker with the signature type that it requires. -/
structure Checker where
  sigType : UInt16
  kind : CheckerKind

/-- `SignatureTypeValue` in the text of an error. -/
def sigTypeText (sigType : UInt16) : String :=
  if sigType = 0 then "DigestSha256"
  else if sigType = 1 then "SignatureSha256WithRsa"
  else if sigType = 3 then "SignatureSha256WithEcdsa"
  else if sigType = 4 then "SignatureHmacWithSha256"
  else if sigType = 200 then "NullSignature"
  else "Unknown(" ++ toString sigType.toNat ++ ")"

section

variable (env : Option Bool)

/-- `checkNames`: nothing when the names are accepted, else the reason. -/
def CheckerKind.checkNames (pktName klName : Name) : CheckerKind → Except String (Option String)
  | sigTypeOnly => pure none
  | nameRelation name relation => do
    let identity ← extractIdentityNameFromKeyLocator env klName
    if relation.check name identity then pure none
    else pure (some ("identity " ++ uri env identity ++ " and packet name do not satisfy " ++
      relation.text ++ " relation"))
  | .regex re => do
    if ← re.isMatch klName then pure none
    else pure (some ("KeyLocator does not match regex " ++ re.expr))
  | hyperRelation pRegex kRegex relation => do
    if !(← pRegex.isMatch pktName) then
      pure (some ("packet name does not match p-regex " ++ pRegex.expr))
    else if !(← kRegex.isMatch klName) then
      pure (some ("KeyLocator does not match k-regex " ++ kRegex.expr))
    else do
      let kExpand ← kRegex.expand klName
      let pExpand ← pRegex.expand pktName
      if relation.check kExpand pExpand then pure none
      else pure (some ("expanded names " ++ uri env kExpand ++ " and " ++ uri env pExpand ++
        " do not satisfy " ++ relation.text ++ " relation"))

def Checker.check (checker : Checker) (packet : Packet) (sigType : UInt16) (klName : Name) :
    Except String (Option String) :=
  if sigType ≠ checker.sigType then
    pure (some ("signature type does not match the checker " ++ sigTypeText sigType ++ " != " ++
      sigTypeText checker.sigType))
  else
    match packet.signedName with
    | .error reason => pure (some reason)
    | .ok pktName => checker.kind.checkNames env pktName klName

/-- `Rule`, with the type of packet given by the list in which it stands. -/
structure Rule where
  filters : List Filter
  checkers : List Checker

/-- The loop of `Rule::match`. -/
def anyFilter (packet : Packet) : List Filter → Except String Bool
  | [] => pure false
  | filter :: rest => do
    if ← filter.isMatch packet then pure true else anyFilter packet rest

/-- `Rule::match` -/
def Rule.isMatch (rule : Rule) (packet : Packet) : Except String Bool :=
  if rule.filters.isEmpty then pure true else anyFilter packet rule.filters

/-- The loop of `Rule::check`: nothing when a checker accepts, else the reasons of all checkers. -/
def runCheckers (packet : Packet) (sigType : UInt16) (klName : Name) :
    List Checker → Except String (Option (List String))
  | [] => pure (some [])
  | checker :: rest => do
    match ← checker.check env packet sigType klName with
    | none => pure none
    | some reason => do
      let reasons ← runCheckers packet sigType klName rest
      pure (reasons.map (reason :: ·))

/-- The text of the error of a rule none of whose checkers accepts. -/
def rejection (packet : Packet) (klName : Name) (reasons : List String) : String :=
  "Packet " ++ uri env packet.name ++ " (KeyLocator=" ++ uri env klName ++
    ") cannot pass any checker." ++
    String.join (reasons.mapIdx fun i reason => "\nChecker " ++ toString i ++ ": " ++ reason)

def Rule.check (rule : Rule) (packet : Packet) (sigType : UInt16) (klName : Name) :
    Reporting Bool := do
  match ← Method.ofExcept (runCheckers env packet sigType klName rule.checkers) with
  | none => pure true
  | some reasons => do
    fail ⟨.policyError, rejection env packet klName reasons⟩
    pure false

/-! ### The policy -/

/-- `ValidationPolicyConfig` -/
structure PolicyConfig where
  shouldBypass : Bool
  dataRules : List Rule
  interestRules : List Rule

/-- How a policy continues: not at all, without a request, or with one. -/
abbrev Continuation := Option (Option Interest)

namespace PolicyConfig

/-- What follows when a rule matches. -/
def applyRule (packet : Packet) (sigType : UInt16) (klName : Name) (rule : Rule) :
    Reporting Continuation := do
  if ← rule.check env packet sigType klName then do
    let request ← Method.ofExcept (certificateRequest klName)
    pure (some (some request))
  else pure none

/-- The loop over the rules. The type of the signature is needed when a rule matches. -/
def applyRules (packet : Packet) (sigType : Except ValidationError UInt16) (klName : Name) :
    List Rule → Reporting Continuation
  | [] => do
    fail ⟨.policyError, "No rule matched for " ++ packet.kind ++ " `" ++ uri env packet.name ++ "`"⟩
    pure none
  | rule :: rest => do
    if ← Method.ofExcept (rule.isMatch packet) then
      match sigType with
      | .error error => do
        fail error
        pure none
      | .ok sigType => applyRule env packet sigType klName rule
    else applyRules packet sigType klName rest

/-- The rules for a packet. -/
def rules (policy : PolicyConfig) : Packet → List Rule
  | .data _ => policy.dataRules
  | .interest _ => policy.interestRules

/-- The type of the signature of a packet, as an unsigned number of 16 bits. -/
def sigType : Packet → Except ValidationError UInt16
  | .data d => .ok (d.signatureInfo.type.getD 0xFFFF)
  | .interest i => do
    let si ← i.anySignatureInfo
    pure (si.type.getD 0xFFFF)

/-- The name of the key of a packet, or the error that is reported. -/
def keyLocatorName : Packet → Except ValidationError Name
  | .data d => Security.keyLocatorName d.signatureInfo
  | .interest i => i.keyLocatorName

def checkPolicy (policy : PolicyConfig) (packet : Packet) : Reporting Continuation :=
  if policy.shouldBypass then pure (some none)
  else do
    let klName ← getKeyLocatorName (keyLocatorName packet)
    let reports ← get
    if hasFailed reports then pure none
    else applyRules env packet (sigType packet) klName (policy.rules packet)

end PolicyConfig

/-! ### What throws -/

variable {env}

/-- A name of a key in which `extractIdentityNameFromKeyLocator` finds an identity. -/
def IsConventional (klName : Name) : Prop :=
  (klName = digestSha256Identity ∨ klName = hmacIdentity) ∨
    ∃ i ∈ [1, 2, 3, keyComponentOffset], fromEnd klName i = some keyComponent

variable {klName : Name} {packet : Packet} {sigType : UInt16}

theorem raises_extractIdentityName_iff :
    Fallible.Raises (extractIdentityNameFromKeyLocator env klName) ↔ ¬IsConventional klName := by
  unfold extractIdentityNameFromKeyLocator IsConventional
  split_ifs with hspecial
  · simp [hspecial]
  · split
    · rename_i i hfind
      have hmem := List.mem_of_find?_eq_some hfind
      have hkey := List.find?_some hfind
      simp only [pure_eq_ok, not_raises_ok, false_iff, not_not]
      exact .inr ⟨i, hmem, by simpa using hkey⟩
    · rename_i hfind
      have hnone : ∀ i ∈ [1, 2, 3, keyComponentOffset], fromEnd klName i ≠ some keyComponent := by
        simpa using hfind
      simp only [throw_eq_error, raises_error, true_iff]
      rintro (h | ⟨i, hi, hkey⟩)
      · exact hspecial h
      · exact hnone i hi hkey

def CheckerKind.Raises (pktName klName : Name) : CheckerKind → Prop
  | sigTypeOnly => False
  | nameRelation _ _ => ¬IsConventional klName
  | .regex re => Fallible.Raises (re.isMatch klName)
  | hyperRelation pRegex kRegex _ =>
    Fallible.Raises (pRegex.isMatch pktName) ∨ pRegex.isMatch pktName = .ok true ∧
      (Fallible.Raises (kRegex.isMatch klName) ∨ kRegex.isMatch klName = .ok true ∧
        (Fallible.Raises (kRegex.expand klName) ∨ Fallible.Raises (pRegex.expand pktName)))

theorem CheckerKind.raises_checkNames_iff {kind : CheckerKind} {pktName : Name} :
    Fallible.Raises (kind.checkNames env pktName klName) ↔ kind.Raises pktName klName := by
  cases kind with
  | sigTypeOnly => simp [checkNames, Raises]
  | nameRelation name relation =>
    simp [checkNames, Raises, raises_bind_iff, raises_extractIdentityName_iff]
  | regex re => simp [checkNames, Raises, raises_bind_iff]
  | hyperRelation pRegex kRegex relation =>
    rw [checkNames, raises_bind_iff, Raises]
    refine or_congr_right ?_
    cases pRegex.isMatch pktName with
    | error e => simp
    | ok isMatch =>
      cases isMatch with
      | false => simp
      | true =>
        simp only [Except.ok.injEq, exists_eq_left', Bool.not_true, Bool.false_eq_true, if_false,
          true_and, raises_bind_iff]
        refine or_congr_right ?_
        cases kRegex.isMatch klName with
        | error e => simp
        | ok isMatch =>
          cases isMatch with
          | false => simp
          | true =>
            cases kRegex.expand klName <;> simp [raises_bind_iff]

def Checker.Raises (checker : Checker) (packet : Packet) (sigType : UInt16) (klName : Name) : Prop :=
  sigType = checker.sigType ∧
    ∃ pktName, packet.signedName = .ok pktName ∧ checker.kind.Raises pktName klName

theorem Checker.raises_check_iff {checker : Checker} :
    Fallible.Raises (checker.check env packet sigType klName) ↔
      checker.Raises packet sigType klName := by
  unfold check Raises
  split_ifs with htype
  · simp [htype]
  · have heq : sigType = checker.sigType := not_not.mp htype
    cases packet.signedName with
    | error reason => simp
    | ok pktName => simp [heq, CheckerKind.raises_checkNames_iff]

variable (env) in
/-- No checker throws before one accepts. -/
def CheckersSafe (packet : Packet) (sigType : UInt16) (klName : Name) : List Checker → Prop
  | [] => True
  | checker :: rest => ¬checker.Raises packet sigType klName ∧
    (checker.check env packet sigType klName = .ok none ∨ CheckersSafe packet sigType klName rest)

theorem raises_runCheckers_iff {checkers : List Checker} :
    Fallible.Raises (runCheckers env packet sigType klName checkers) ↔
      ¬CheckersSafe env packet sigType klName checkers := by
  induction checkers with
  | nil => simp [runCheckers, CheckersSafe]
  | cons checker rest ih =>
    rw [runCheckers, CheckersSafe, raises_bind_iff, ← @Checker.raises_check_iff env]
    cases checker.check env packet sigType klName with
    | error e => simp
    | ok result =>
      cases result with
      | none => simp
      | some reason => simp [raises_bind_iff, ih]

def Filter.Raises (packet : Packet) : Filter → Prop
  | relationName _ _ => False
  | regexName regex =>
    ∃ name, packet.signedName = .ok name ∧ Fallible.Raises (regex.isMatch name)

theorem Filter.raises_isMatch_iff {filter : Filter} :
    Fallible.Raises (filter.isMatch packet) ↔ filter.Raises packet := by
  cases filter <;> rw [isMatch, Raises] <;> cases packet.signedName <;> simp [matchName]

/-- No filter throws before one matches. -/
def FiltersSafe (packet : Packet) : List Filter → Prop
  | [] => True
  | filter :: rest =>
    ¬filter.Raises packet ∧ (filter.isMatch packet = .ok true ∨ FiltersSafe packet rest)

theorem raises_anyFilter_iff {filters : List Filter} :
    Fallible.Raises (anyFilter packet filters) ↔ ¬FiltersSafe packet filters := by
  induction filters with
  | nil => simp [anyFilter, FiltersSafe]
  | cons filter rest ih =>
    rw [anyFilter, FiltersSafe, raises_bind_iff, ← Filter.raises_isMatch_iff]
    cases filter.isMatch packet with
    | error e => simp
    | ok isMatch => cases isMatch <;> simp [ih]

variable {rule : Rule}

theorem Rule.raises_isMatch_iff :
    Fallible.Raises (rule.isMatch packet) ↔ ¬FiltersSafe packet rule.filters := by
  unfold isMatch
  split_ifs with hempty
  · rw [List.isEmpty_iff.mp hempty]
    simp [FiltersSafe]
  · exact raises_anyFilter_iff

/-! ### How a check ends -/

/-- A check that began without a report has made one and does not continue, or it has made none
and continues. -/
def Proper : EStateM.Result String (List Report) Continuation → Prop
  | .ok none reports => reports.length = 1
  | .ok (some _) reports => reports = []
  | .error _ _ => False

/-- A check that began without a report has thrown, has made several, or bypasses the validation
after a report. -/
def Improper : EStateM.Result String (List Report) Continuation → Prop
  | .ok none reports => 1 < reports.length
  | .ok (some none) reports => reports ≠ []
  | .ok (some (some _)) _ => False
  | .error _ _ => True

/-- A condition that decides how a check ends. -/
def Decides (condition : Prop) (result : EStateM.Result String (List Report) Continuation) : Prop :=
  (condition → Proper result) ∧ (¬condition → Improper result)

/-- A condition that decides how a check ends, with the requests that the check can end with when
the condition holds. -/
structure Settles (condition : Prop) (requests : Interest → Prop)
    (result : EStateM.Result String (List Report) Continuation) : Prop where
  decides : Decides condition result
  request : condition → ∀ interest, result = .ok (some (some interest)) [] ↔ requests interest

variable {result : EStateM.Result String (List Report) Continuation} {condition : Prop}
  {requests : Interest → Prop}

theorem Settles.of_proper (hc : condition) (h : Proper result)
    (hrequest : ∀ interest, result = .ok (some (some interest)) [] ↔ requests interest) :
    Settles condition requests result :=
  ⟨⟨fun _ => h, fun hnot => absurd hc hnot⟩, fun _ => hrequest⟩

theorem Settles.of_improper (hc : ¬condition) (h : Improper result) :
    Settles condition requests result :=
  ⟨⟨fun hcondition => absurd hcondition hc, fun _ => h⟩, fun hcondition => absurd hcondition hc⟩

namespace PolicyConfig

variable (env) in
/-- No filter throws before a rule matches, no checker of it before one accepts, and a request can
then be made for the name of the key. -/
def RulesSafe (packet : Packet) (sigType : UInt16) (klName : Name) : List Rule → Prop
  | [] => True
  | rule :: rest => FiltersSafe packet rule.filters ∧
    if rule.isMatch packet = .ok true then
      CheckersSafe env packet sigType klName rule.checkers ∧
        ((∃ checker ∈ rule.checkers, checker.check env packet sigType klName = .ok none) →
          Interest.findParametersDigestComponent klName ≠ .several)
    else RulesSafe packet sigType klName rest

variable (env) in
/-- A checker of the first rule that matches accepts. -/
def RulesAccept (packet : Packet) (sigType : UInt16) (klName : Name) : List Rule → Prop
  | [] => False
  | rule :: rest =>
    if rule.isMatch packet = .ok true then
      ∃ checker ∈ rule.checkers, checker.check env packet sigType klName = .ok none
    else RulesAccept packet sigType klName rest

end PolicyConfig

theorem runCheckers_eq_none_iff {checkers : List Checker}
    (h : CheckersSafe env packet sigType klName checkers) :
    runCheckers env packet sigType klName checkers = .ok none ↔
      ∃ checker ∈ checkers, checker.check env packet sigType klName = .ok none := by
  induction checkers with
  | nil => simp [runCheckers]
  | cons checker rest ih =>
    obtain ⟨hchecker, hrest⟩ := h
    rw [← @Checker.raises_check_iff env, not_raises_iff] at hchecker
    obtain ⟨result, hresult⟩ := hchecker
    rw [runCheckers, List.exists_mem_cons_iff]
    cases result with
    | none => simp [hresult]
    | some reason =>
      have hsafe : CheckersSafe env packet sigType klName rest := by simpa [hresult] using hrest
      rw [hresult, ok_bind, ← ih hsafe]
      cases runCheckers env packet sigType klName rest with
      | error e => simp
      | ok reasons => cases reasons <;> simp

namespace PolicyConfig

variable {klName : Name} {packet : Packet} {sigType : UInt16}

theorem settles_applyRule :
    Settles (CheckersSafe env packet sigType klName rule.checkers ∧
        ((∃ checker ∈ rule.checkers, checker.check env packet sigType klName = .ok none) →
          Interest.findParametersDigestComponent klName ≠ .several))
      (fun interest =>
        (∃ checker ∈ rule.checkers, checker.check env packet sigType klName = .ok none) ∧
          certificateRequest klName = .ok interest)
      ((applyRule env packet sigType klName rule).run []) := by
  rw [applyRule, Rule.check]
  by_cases hcheckers : CheckersSafe env packet sigType klName rule.checkers
  · rw [← runCheckers_eq_none_iff hcheckers, certificateRequest]
    obtain ⟨result, hresult⟩ :=
      not_raises_iff.mp (raises_runCheckers_iff.not_left.mpr hcheckers)
    rw [hresult]
    cases result with
    | some reasons =>
      exact .of_proper ⟨hcheckers, by simp⟩ rfl (by simp [fail, -bind_pure_comp])
    | none =>
      by_cases hseveral : Interest.findParametersDigestComponent klName = .several
      · refine .of_improper (fun h => h.2 rfl hseveral) ?_
        rw [if_pos hseveral]
        exact trivial
      · rw [if_neg hseveral]
        exact .of_proper ⟨hcheckers, fun _ => hseveral⟩ rfl (by simp [-bind_pure_comp])
  · obtain ⟨e, he⟩ := raises_runCheckers_iff.mpr hcheckers
    rw [he]
    exact .of_improper (fun h => hcheckers h.1) trivial

theorem settles_applyRules {rules : List Rule} :
    Settles (RulesSafe env packet sigType klName rules)
      (fun interest =>
        RulesAccept env packet sigType klName rules ∧ certificateRequest klName = .ok interest)
      ((applyRules env packet (.ok sigType) klName rules).run []) := by
  induction rules with
  | nil => exact .of_proper trivial rfl (by simp [applyRules, RulesAccept, fail, -bind_pure_comp])
  | cons rule rest ih =>
    rw [RulesSafe, RulesAccept, applyRules]
    cases hmatch : rule.isMatch packet with
    | error e =>
      have hfilters := Rule.raises_isMatch_iff.mp ⟨e, hmatch⟩
      exact .of_improper (fun h => hfilters h.1) trivial
    | ok isMatch =>
      have hfilters : FiltersSafe packet rule.filters := by
        by_contra hbad
        have hraises := Rule.raises_isMatch_iff.mpr hbad
        simp [hmatch] at hraises
      cases isMatch with
      | false => simpa [hfilters] using ih
      | true => simpa [hfilters] using settles_applyRule

variable (env) in
/-- The policy bypasses the validation, cannot tell the key of the packet, or has rules that can be
applied. -/
def Safe (policy : PolicyConfig) (packet : Packet) : Prop :=
  policy.shouldBypass = true ∨ ∀ klName sigType, keyLocatorName packet = .ok klName →
    PolicyConfig.sigType packet = .ok sigType →
      RulesSafe env packet sigType klName (policy.rules packet)

variable (env) in
/-- The rules accept the packet with the key of the given name. -/
def Accepts (policy : PolicyConfig) (packet : Packet) (klName : Name) : Prop :=
  policy.shouldBypass = false ∧ keyLocatorName packet = .ok klName ∧
    ∃ sigType, PolicyConfig.sigType packet = .ok sigType ∧
      RulesAccept env packet sigType klName (policy.rules packet)

theorem exists_sigType (h : keyLocatorName packet = .ok klName) :
    ∃ sigType, PolicyConfig.sigType packet = .ok sigType := by
  cases packet with
  | data d => exact ⟨_, rfl⟩
  | interest i =>
    obtain ⟨si, hsi, -⟩ := bind_eq_ok_iff.mp h
    exact ⟨si.type.getD 0xFFFF, by rw [sigType, hsi]; rfl⟩

theorem settles_checkPolicy {policy : PolicyConfig} :
    Settles (policy.Safe env packet)
      (fun interest =>
        ∃ klName, policy.Accepts env packet klName ∧ certificateRequest klName = .ok interest)
      ((policy.checkPolicy env packet).run []) := by
  unfold checkPolicy Accepts
  split_ifs with hbypass
  · exact .of_proper (.inl hbypass) rfl (by simp [hbypass])
  · cases hkey : keyLocatorName packet with
    | error error =>
      exact .of_proper (.inr (by simp [hkey])) rfl (by simp [getKeyLocatorName, fail, hasFailed])
    | ok klName =>
      obtain ⟨sigType, hsigType⟩ := exists_sigType hkey
      have hsafe : policy.Safe env packet ↔
          RulesSafe env packet sigType klName (policy.rules packet) := by
        simp [Safe, hbypass, hkey, hsigType]
      rw [hsafe]
      simpa [hbypass, hsigType, getKeyLocatorName, hasFailed] using settles_applyRules

end PolicyConfig

end

end NdnFc.Security
