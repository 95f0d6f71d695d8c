import NdnFc.Packet.InterestWire

/-!
# Interests built with the setters

The setters of an Interest object keep the digest component of its name up to date with the
parameters, and keep the parameters in the order ApplicationParameters, then the elements of the
signature. This is what the encoder and the decoder rely on.
-/

namespace NdnFc

namespace Interest

open List Method

/-! ### The digest component of a name -/

variable {name : Name}

theorem findParametersDigestComponent_eq_absent_iff :
    findParametersDigestComponent name = .absent ↔
      ∀ c ∈ name, c.isParametersSha256Digest = false := by
  unfold findParametersDigestComponent
  split
  next h => simpa [findIdx?_eq_none_iff] using h
  next index h =>
    have hmem := findIdx?_eq_some_iff_getElem.mp h
    obtain ⟨hlt, hc, -⟩ := hmem
    constructor
    · split <;> simp
    · intro hall
      rw [hall _ (getElem_mem hlt)] at hc
      cases hc

theorem findParametersDigestComponent_eq_only_iff {index : ℕ} :
    findParametersDigestComponent name = .only index ↔
      ∃ front c back, name = front ++ c :: back ∧ front.length = index ∧
        c.isParametersSha256Digest = true ∧ (∀ c' ∈ front, c'.isParametersSha256Digest = false) ∧
        ∀ c' ∈ back, c'.isParametersSha256Digest = false := by
  unfold findParametersDigestComponent
  constructor
  · intro h
    split at h
    next => cases h
    next k hk =>
      obtain ⟨hlt, hc, hfront⟩ := findIdx?_eq_some_iff_getElem.mp hk
      split at h
      next => cases h
      next hback =>
        obtain rfl := DigestIndex.only.inj h
        refine ⟨name.take k, name[k], name.drop (k + 1), ?_, by simp; omega, hc, ?_, ?_⟩
        · rw [getElem_cons_drop, take_append_drop]
        · intro c' hc'
          obtain ⟨j, hj, rfl⟩ := getElem_of_mem hc'
          have hjk : j < k := by simp at hj; omega
          simpa using hfront j hjk
        · simpa using hback
  · rintro ⟨front, c, back, rfl, rfl, hc, hfront, hback⟩
    have hk : (front ++ c :: back).findIdx? Component.isParametersSha256Digest
        = some front.length := by
      rw [findIdx?_append, findIdx?_eq_none_iff.mpr hfront]
      simp [findIdx?_cons, hc]
    rw [hk]
    simpa using hback

variable [Sha256]

theorem isParametersSha256Digest_parametersDigest (i : Interest) :
    i.parametersDigest.isParametersSha256Digest = true := by
  simp [parametersDigest, Component.isParametersSha256Digest, computeParametersDigest,
    Sha256.length_digest]

theorem isParametersDigestValid_addOrReplace {i : Interest}
    (hseveral : findParametersDigestComponent i.name ≠ .several)
    (hparams : i.hasApplicationParameters = true) :
    i.addOrReplaceParametersDigestComponent.isParametersDigestValid = true ∧
      findParametersDigestComponent i.addOrReplaceParametersDigestComponent.name ≠ .several ∧
      findParametersDigestComponent i.addOrReplaceParametersDigestComponent.name ≠ .absent := by
  have hdigest := i.isParametersSha256Digest_parametersDigest
  suffices ∃ front back, i.addOrReplaceParametersDigestComponent =
      { i with name := front ++ i.parametersDigest :: back } ∧
      (∀ c ∈ front, c.isParametersSha256Digest = false) ∧
      ∀ c ∈ back, c.isParametersSha256Digest = false by
    obtain ⟨front, back, heq, hfront, hback⟩ := this
    have honly : findParametersDigestComponent (front ++ i.parametersDigest :: back) =
        .only front.length :=
      findParametersDigestComponent_eq_only_iff.mpr
        ⟨front, _, back, rfl, rfl, hdigest, hfront, hback⟩
    rw [heq]
    refine ⟨?_, by rw [honly]; simp, by rw [honly]; simp⟩
    rw [isParametersDigestValid, honly]
    simp only [hasApplicationParameters] at hparams
    simp [hasApplicationParameters, hparams, parametersDigest, computeParametersDigest]
  cases hfind : findParametersDigestComponent i.name with
  | absent =>
    refine ⟨i.name, [], ?_, findParametersDigestComponent_eq_absent_iff.mp hfind, by simp⟩
    simp [addOrReplaceParametersDigestComponent, hfind]
  | several => exact absurd hfind hseveral
  | only index =>
    obtain ⟨front, c, back, hname, hlen, hc, hfront, hback⟩ :=
      findParametersDigestComponent_eq_only_iff.mp hfind
    refine ⟨front, back, ?_, hfront, hback⟩
    rw [addOrReplaceParametersDigestComponent, hfind, ← hlen]
    simp [hname]


/-! ### Interests built with the setters -/

omit [Sha256] in
/-- The parameters that the setters make: ApplicationParameters, then elements of the signature. -/
def ParameterTypes : List Block → Prop
  | [] => True
  | first :: rest => first.type = Tlv.applicationParameters ∧
    ∀ b ∈ rest, b.type = Tlv.interestSignatureInfo ∨ b.type = Tlv.interestSignatureValue

/-- What the setters keep true of an Interest. -/
structure WellFormed (i : Interest) : Prop where
  not_several : findParametersDigestComponent i.name ≠ .several
  lifetime_nonneg : 0 ≤ i.interestLifetime
  lifetime_lt : i.interestLifetime < 2 ^ 63
  parameterTypes : ParameterTypes i.parameters
  digest_valid : i.parameters ≠ [] → i.isParametersDigestValid = true

namespace Object

inductive Op where
  | setName (name : Name)
  | setFunction (function : Name)
  | setCanBePrefix (canBePrefix : Bool)
  | setMustBeFresh (mustBeFresh : Bool)
  | setForwardingHint (forwardingHint : DelegationList)
  | setNonce (nonce : Option Nonce)
  | setInterestLifetime (lifetime : Int64)
  | setHopLimit (hopLimit : Option UInt8)
  | setApplicationParameters (block : Option Block)
  | setApplicationParametersValue (value : Option Bytes)
  | unsetApplicationParameters
  | setSignatureInfo (info : SignatureInfo)
  | setSignatureValue (value : Option Bytes)

def Op.call : Op → EStateM String Object Unit
  | setName name => Object.setName name
  | setFunction function => Object.setFunction function
  | setCanBePrefix canBePrefix => Object.setCanBePrefix canBePrefix
  | setMustBeFresh mustBeFresh => Object.setMustBeFresh mustBeFresh
  | setForwardingHint forwardingHint => Object.setForwardingHint forwardingHint
  | setNonce nonce => Object.setNonce nonce
  | setInterestLifetime lifetime => Object.setInterestLifetime lifetime
  | setHopLimit hopLimit => Object.setHopLimit hopLimit
  | setApplicationParameters block => Object.setApplicationParameters block
  | setApplicationParametersValue value => Object.setApplicationParametersValue value
  | unsetApplicationParameters => Object.unsetApplicationParameters
  | setSignatureInfo info => Object.setSignatureInfo info
  | setSignatureValue value => Object.setSignatureValue value

omit [Sha256] in
/-- A SignatureInfo that remembers an encoding remembers one for Interests. -/
def Op.InfoForInterest : Op → Prop
  | setSignatureInfo info =>
    ∀ wire, info.wire = some wire → wire.type = Tlv.interestSignatureInfo
  | _ => True

/-- Interests constructed from a name and a lifetime and by calls of setters that return. -/
inductive Built : Object → Prop where
  | create {name : Name} {lifetime : Int64} {i j : Object}
      (hname : (setName name).run default = .ok () i)
      (hlifetime : (setInterestLifetime lifetime).run i = .ok () j) : Built j
  | step {i j : Object} {op : Op} (hi : Built i) (hinfo : op.InfoForInterest)
      (hcall : op.call.run i = .ok () j) : Built j

omit [Sha256] in
theorem type_of_encodedBlock {info : SignatureInfo} {wire : Block}
    (hinfo : ∀ wire, info.wire = some wire → wire.type = Tlv.interestSignatureInfo)
    (h : info.encodedBlock .interest = .ok wire) : wire.type = Tlv.interestSignatureInfo := by
  unfold SignatureInfo.encodedBlock at h
  split at h
  next w hw =>
    cases h
    exact hinfo _ hw
  next =>
    obtain ⟨bytes, hbytes, hwire⟩ := Fallible.bind_eq_ok_iff.mp h
    unfold SignatureInfo.encode at hbytes
    split at hbytes
    next => cases hbytes
    next =>
      obtain ⟨locator, -, hbytes⟩ := Fallible.bind_eq_ok_iff.mp hbytes
      cases hbytes
      exact Block.type_of_ofBytes_encodeElement (by decide) (by decide) hwire

/-! ### What a setter does -/

omit [Sha256] in
/-- A predicate of lifetime and parameters that the setters keep, for signature elements as `T`
says, which replace one of their type or go behind the first parameter. -/
structure KeptBySetters (P : ℤ → List Block → Prop) (T : Block → Prop) : Prop where
  lifetime : ∀ {t l} (lifetime : Int64), P t l → 0 ≤ lifetime.toInt → P lifetime.toInt l
  nil : ∀ {t l}, P t l → P t []
  first : ∀ {t l b}, P t l → b.type = Tlv.applicationParameters → P t (b :: l.tail)
  set : ∀ {t l b type index}, P t l → T b → type ≠ Tlv.applicationParameters →
    l.findIdx? (fun c => c.type == type) = some index → P t (l.set index b)
  insertIdx : ∀ {t l b position}, P t l → T b → l ≠ [] →
    (0 < position ∨ position =
      (l.findIdx? fun c => c.type == Tlv.interestSignatureValue).getD l.length) →
    P t (l.insertIdx position b)

/-- A new object without encoding, whose digest is valid if it was before. -/
structure Renewed (P : ℤ → List Block → Prop) (i j : Object) : Prop where
  not_several : findParametersDigestComponent j.name ≠ .several
  kept : P j.interestLifetime j.parameters
  digest_valid : (i.parameters ≠ [] → i.isParametersDigestValid = true) →
    j.parameters ≠ [] → j.isParametersDigestValid = true
  wire : j.wire = none

variable {P : ℤ → List Block → Prop} {T : Block → Prop} {i : Object}

theorem renewed_of_eq {j : Object} (hseveral : findParametersDigestComponent i.name ≠ .several)
    (hkept : P j.interestLifetime j.parameters) (hname : j.name = i.name)
    (hparameters : j.parameters = i.parameters) (hwire : j.wire = none) : Renewed P i j := by
  have hvalid : j.isParametersDigestValid = i.isParametersDigestValid := by
    simp only [isParametersDigestValid, hasApplicationParameters, computeParametersDigest, hname,
      hparameters]
  refine ⟨hname ▸ hseveral, hkept, fun h hne => ?_, hwire⟩
  rw [hvalid]
  exact h (hparameters ▸ hne)

theorem renewed_finishParameters {k : Interest}
    (hseveral : findParametersDigestComponent k.name ≠ .several)
    (hkept : P k.interestLifetime k.parameters) (hne : k.parameters ≠ []) :
    Renewed P i (finishParameters k) := by
  obtain ⟨hvalid, hseveral', -⟩ := isParametersDigestValid_addOrReplace hseveral
    (by simpa [hasApplicationParameters] using hne)
  have hfields : k.addOrReplaceParametersDigestComponent.interestLifetime = k.interestLifetime ∧
      k.addOrReplaceParametersDigestComponent.parameters = k.parameters := by
    unfold addOrReplaceParametersDigestComponent
    split <;> exact ⟨rfl, rfl⟩
  refine ⟨hseveral', ?_, fun _ _ => hvalid, rfl⟩
  change P k.addOrReplaceParametersDigestComponent.interestLifetime
    k.addOrReplaceParametersDigestComponent.parameters
  rwa [hfields.1, hfields.2]

section

variable (hP : KeptBySetters P T) (hseveral : findParametersDigestComponent i.name ≠ .several)
  (hi : P i.interestLifetime i.parameters)

include hP hseveral hi

theorem renewed_setApplicationParametersInternal {parameters : Block}
    (htype : parameters.type = Tlv.applicationParameters) :
    Renewed P i (finishParameters (setApplicationParametersInternal parameters i.toInterest)) := by
  have heq : (setApplicationParametersInternal parameters i.toInterest).parameters =
      parameters :: i.parameters.tail := by
    unfold setApplicationParametersInternal
    cases i.parameters <;> rfl
  refine renewed_finishParameters hseveral ?_ (by rw [heq]; exact cons_ne_nil _ _)
  rw [heq]
  exact hP.first hi htype

theorem putParameter_eq_or_renewed {j : Object} (hne : i.parameters ≠ []) {block : Block}
    {type position : ℕ} (hblock : T block) (htype : type ≠ Tlv.applicationParameters)
    (hposition : 0 < position ∨ position =
      (findFirstParameter i.toInterest Tlv.interestSignatureValue).getD i.parameters.length) :
    (putParameter block type position i = i ∧ (findFirstParameter i.toInterest type).isSome) ∨
      Renewed P j (putParameter block type position i) := by
  unfold putParameter
  split
  next index hindex =>
    split
    · exact .inl ⟨rfl, by rw [hindex]; rfl⟩
    · exact .inr (renewed_finishParameters hseveral (hP.set hi hblock htype hindex)
        (by simpa using hne))
  next =>
    refine .inr (renewed_finishParameters hseveral (hP.insertIdx hi hblock hne hposition) ?_)
    have hle := length_le_length_insertIdx (l := i.parameters) (x := block) (i := position)
    exact ne_nil_of_length_pos (lt_of_lt_of_le (length_pos_of_ne_nil hne) hle)

omit [Sha256] hP hseveral hi in
theorem eraseIdx_not_several {index : ℕ} (h : findParametersDigestComponent name = .only index) :
    findParametersDigestComponent (name.eraseIdx index) ≠ .several := by
  obtain ⟨front, c, back, rfl, rfl, -, hfront, hback⟩ :=
    findParametersDigestComponent_eq_only_iff.mp h
  have habsent : findParametersDigestComponent ((front ++ c :: back).eraseIdx front.length) =
      .absent := by
    rw [findParametersDigestComponent_eq_absent_iff, eraseIdx_append_of_length_le le_rfl]
    intro c' hc'
    rcases mem_append.mp hc' with hc' | hc'
    · exact hfront c' hc'
    · exact hback c' (by simpa using hc')
  rw [habsent]
  simp

omit hP hseveral hi in
theorem after_setSignatureInfo_of_error {info : SignatureInfo}
    (h : ¬ ∃ block, info.encodedBlock .interest = .ok block) :
    after (setSignatureInfo info) i =
      if i.parameters = [] then
        { i with parameters := [.makeEmptyBlock Tlv.applicationParameters
            Tlv.applicationParameters_pos Tlv.applicationParameters_lt] }
      else i := by
  cases hencode : info.encodedBlock .interest with
  | ok block => exact absurd ⟨block, hencode⟩ h
  | error e => rw [setSignatureInfo, after_modify_bind, hencode]; rfl

variable (hvalue : ∀ b : Block, b.type = Tlv.interestSignatureValue → T b)

include hvalue

theorem after_signature_eq_or_renewed :
    (∀ info block, info.encodedBlock .interest = .ok block → T block →
      after (setSignatureInfo info) i = i ∨
        Renewed P i (after (setSignatureInfo info) i)) ∧
    ∀ value, after (setSignatureValue value) i = i ∨
      Renewed P i (after (setSignatureValue value) i) := by
  constructor
  · intro info block hencode hblock
    rw [setSignatureInfo, after_modify_bind, hencode, ofExcept_ok_bind,
      after_modify]
    split
    next hnil =>
      -- the empty ApplicationParameters element is signed together with the new info
      have hfirst := hP.first hi (b := .makeEmptyBlock Tlv.applicationParameters
        Tlv.applicationParameters_pos Tlv.applicationParameters_lt) rfl
      rw [hnil] at hfirst
      let k : Object := { i with parameters := [.makeEmptyBlock Tlv.applicationParameters
        Tlv.applicationParameters_pos Tlv.applicationParameters_lt] }
      exact .inr ((putParameter_eq_or_renewed (i := k) hP hseveral hfirst (cons_ne_nil _ _) hblock
        (by decide) (.inr rfl)).resolve_left fun h => Bool.false_ne_true h.2)
    next hne =>
      exact (putParameter_eq_or_renewed hP hseveral hi hne hblock (by decide) (.inr rfl)).imp_left
        And.left
  · intro value
    cases value with
    | none => exact .inl rfl
    | some value =>
      rw [setSignatureValue, after_get_bind]
      split
      · exact .inl rfl
      next index hindex =>
        cases hmake : Block.makeBinaryBlock Tlv.interestSignatureValue value with
        | error e => exact .inl rfl
        | ok valueBlock =>
          have hne : i.parameters ≠ [] := by
            intro hnil
            rw [findFirstParameter, hnil] at hindex
            cases hindex
          have htype := Block.type_of_ofBytes_encodeElement (by decide) (by decide) hmake
          exact (putParameter_eq_or_renewed hP hseveral hi hne (hvalue _ htype) (by decide)
            (.inl index.succ_pos)).imp_left And.left

theorem Op.after_eq_or_renewed {op : Op} (hop : ∀ info, op = .setSignatureInfo info →
      ∃ block, info.encodedBlock .interest = .ok block ∧ T block) :
    after op.call i = i ∨ Renewed P i (after op.call i) := by
  cases op with
  | setName name =>
    rw [Op.call, Object.setName]
    split
    · exact .inl rfl
    next hname =>
      rw [after_modify]
      split
      · exact .inl rfl
      · dsimp only
        split
        next hparams =>
          exact .inr (renewed_finishParameters hname hi
            (by simpa [hasApplicationParameters] using hparams))
        next hparams =>
          refine .inr ⟨hname, hi, fun _ hne => absurd ?_ hparams, rfl⟩
          simpa [hasApplicationParameters] using hne
  | setFunction function
  | setCanBePrefix canBePrefix
  | setMustBeFresh mustBeFresh
  | setForwardingHint forwardingHint => exact .inr (renewed_of_eq hseveral hi rfl rfl rfl)
  | setNonce | setHopLimit =>
    simp only [Op.call, Object.setNonce, Object.setHopLimit, after_modify]
    split
    · exact .inl rfl
    · exact .inr (renewed_of_eq hseveral hi rfl rfl rfl)
  | setInterestLifetime lifetime =>
    rw [Op.call, Object.setInterestLifetime]
    split
    · exact .inl rfl
    next hnonneg =>
      rw [after_modify]
      split
      · exact .inl rfl
      · exact .inr (renewed_of_eq hseveral (hP.lifetime lifetime hi (not_lt.mp hnonneg)) rfl rfl rfl)
  | setApplicationParameters block =>
    cases block with
    | none => exact .inl rfl
    | some block =>
      rw [Op.call, Object.setApplicationParameters]
      split
      next htype => exact .inr (renewed_setApplicationParametersInternal hP hseveral hi htype)
      next =>
        cases hmake : Block.makeBinaryBlock Tlv.applicationParameters block.wire with
        | error e => exact .inl rfl
        | ok parameters =>
          exact .inr (renewed_setApplicationParametersInternal hP hseveral hi
            (Block.type_of_ofBytes_encodeElement (by decide) (by decide) hmake))
  | setApplicationParametersValue value =>
    cases value with
    | none => exact .inl rfl
    | some value =>
      rw [Op.call, Object.setApplicationParametersValue]
      cases hmake : Block.makeBinaryBlock Tlv.applicationParameters value with
      | error e => exact .inl rfl
      | ok parameters =>
        exact .inr (renewed_setApplicationParametersInternal hP hseveral hi
          (Block.type_of_ofBytes_encodeElement (by decide) (by decide) hmake))
  | unsetApplicationParameters =>
    refine .inr ⟨?_, hP.nil hi, fun _ hne => absurd rfl hne, rfl⟩
    rw [Op.call, Object.unsetApplicationParameters, after_modify]
    dsimp only
    split
    next index hfind => exact eraseIdx_not_several hfind
    next => exact hseveral
  | setSignatureInfo info =>
    obtain ⟨block, hencode, hblock⟩ := hop info rfl
    exact (after_signature_eq_or_renewed hP hseveral hi hvalue).1 info block hencode hblock
  | setSignatureValue value => exact (after_signature_eq_or_renewed hP hseveral hi hvalue).2 value

end

/-! ### Built objects -/

omit [Sha256] in
theorem keptBySetters_parameterTypes :
    KeptBySetters (fun t l => (0 ≤ t ∧ t < 2 ^ 63) ∧ ParameterTypes l) fun b =>
      b.type = Tlv.interestSignatureInfo ∨ b.type = Tlv.interestSignatureValue where
  lifetime lifetime h hnonneg := ⟨⟨hnonneg, lifetime.toInt_lt⟩, h.2⟩
  nil h := ⟨h.1, trivial⟩
  first {t l b} h hb := by
    refine ⟨h.1, hb, ?_⟩
    cases l with
    | nil => simp
    | cons first rest => exact h.2.2
  set {t l b type index} h hb htype hfind := by
    refine ⟨h.1, ?_⟩
    cases l with
    | nil => cases hfind
    | cons first rest =>
      have hfirst : (first.type == type) = false := by
        rw [h.2.1, beq_eq_false_iff_ne]
        exact htype.symm
      rw [findIdx?_cons, hfirst, if_neg Bool.false_ne_true] at hfind
      obtain ⟨k, -, rfl⟩ := Option.map_eq_some_iff.mp hfind
      refine ⟨h.2.1, fun c hc => ?_⟩
      rcases mem_or_eq_of_mem_set hc with hc | rfl
      · exact h.2.2 c hc
      · exact hb
  insertIdx {t l b position} h hb hne hposition := by
    refine ⟨h.1, ?_⟩
    cases l with
    | nil => exact absurd rfl hne
    | cons first rest =>
      have hpos : 0 < position := by
        rcases hposition with hpos | rfl
        · exact hpos
        · -- a signature value is never the first parameter
          cases hfind : rest.findIdx? fun c => c.type == Tlv.interestSignatureValue <;>
            simp [findIdx?_cons, h.2.1, hfind]
      obtain ⟨k, rfl⟩ : ∃ k, position = k + 1 := ⟨position - 1, by omega⟩
      rw [insertIdx_succ_cons]
      refine ⟨h.2.1, fun c hc => ?_⟩
      rcases eq_or_mem_of_mem_insertIdx hc with rfl | hc
      · exact hb
      · exact h.2.2 c hc

/-- The invariant of the objects that the setters build. -/
def Good (i : Object) : Prop :=
  i.WellFormed ∧ i.wire = none

theorem Op.good (op : Op) {i j : Object} (hi : i.Good) (hinfo : op.InfoForInterest)
    (hcall : op.call.run i = .ok () j) : j.Good := by
  have hw := hi.1
  have hop : ∀ info, op = .setSignatureInfo info → ∃ block,
      info.encodedBlock .interest = .ok block ∧
        (block.type = Tlv.interestSignatureInfo ∨ block.type = Tlv.interestSignatureValue) := by
    rintro info rfl
    simp only [Op.call] at hcall
    obtain ⟨block, hencode, -⟩ := run_ofExcept_bind_eq_ok_iff.mp hcall
    exact ⟨block, hencode, .inl (type_of_encodedBlock hinfo hencode)⟩
  rw [← after_of_run_ok hcall]
  rcases op.after_eq_or_renewed keptBySetters_parameterTypes hw.not_several
    ⟨⟨hw.lifetime_nonneg, hw.lifetime_lt⟩, hw.parameterTypes⟩ (fun _ => .inr) hop with hsame | h
  · rwa [hsame]
  · obtain ⟨⟨hnonneg, hlt⟩, htypes⟩ := h.kept
    exact ⟨⟨h.not_several, hnonneg, hlt, htypes, h.digest_valid hw.digest_valid⟩, h.wire⟩

theorem Built.good {i : Object} (h : i.Built) : i.Good := by
  induction h with
  | create hname hlifetime =>
    have hdefault : default.Good :=
      ⟨⟨by decide, by decide, by decide, trivial, fun hne => absurd rfl hne⟩, rfl⟩
    exact Op.good (.setInterestLifetime _) (Op.good (.setName _) hdefault trivial hname) trivial
      hlifetime
  | step _ hinfo hcall ih => exact Op.good _ ih hinfo hcall

end Object

end Interest

end NdnFc
