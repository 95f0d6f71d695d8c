import NdnFc.Lib.Run
import NdnFc.Packet.InterestDecode
import NdnFc.Packet.InterestSetters

/-!
# The digest of the parameters through every sequence of calls

The Name of an Interest with parameters has a component with their digest, which the setters renew
(`ndn-cxx/interest.cpp`) and the decoder checks. `setSignatureInfo` adds an empty
ApplicationParameters element before it encodes the info, which may throw.
-/

namespace NdnFc

namespace Interest

open List

variable [Sha256]

/-- There is at most one digest component, and with parameters there is exactly one, which is their
digest. -/
structure DigestUpToDate (i : Interest) : Prop where
  atMostOne : (i.name.filter Component.isParametersSha256Digest).length ≤ 1
  valid : i.parameters ≠ [] → ∃ c, i.name.filter Component.isParametersSha256Digest = [c] ∧
    c.value = Sha256.digest (i.parameters.flatMap Block.wire)

variable {name : Name}

section

omit [Sha256]

theorem filter_eq_of_only {index : ℕ} (h : findParametersDigestComponent name = .only index) :
    ∃ c, name[index]? = some c ∧ name.filter Component.isParametersSha256Digest = [c] := by
  obtain ⟨front, c, back, rfl, rfl, hc, hfront, hback⟩ :=
    findParametersDigestComponent_eq_only_iff.mp h
  refine ⟨c, by simp, ?_⟩
  rw [filter_append, filter_cons_of_pos hc, filter_eq_nil_iff.mpr (by simpa),
    filter_eq_nil_iff.mpr (by simpa), nil_append]

theorem filter_eq_of_absent (h : findParametersDigestComponent name = .absent) :
    name.filter Component.isParametersSha256Digest = [] :=
  filter_eq_nil_iff.mpr (by simpa using findParametersDigestComponent_eq_absent_iff.mp h)

theorem two_le_length_filter_of_several (h : findParametersDigestComponent name = .several) :
    2 ≤ (name.filter Component.isParametersSha256Digest).length := by
  unfold findParametersDigestComponent at h
  split at h
  · cases h
  next index hindex =>
    obtain ⟨hlt, hc, -⟩ := findIdx?_eq_some_iff_getElem.mp hindex
    split at h
    next hany =>
      obtain ⟨c, hmem, hc'⟩ := any_eq_true.mp hany
      have hpos : 0 < ((name.drop (index + 1)).filter Component.isParametersSha256Digest).length :=
        length_pos_of_mem (mem_filter.mpr ⟨hmem, hc'⟩)
      rw [← take_append_drop index name, drop_eq_getElem_cons hlt, filter_append,
        filter_cons_of_pos hc, length_append, length_cons]
      omega
    next => cases h

theorem length_filter_le_one_iff :
    (name.filter Component.isParametersSha256Digest).length ≤ 1 ↔
      findParametersDigestComponent name ≠ .several := by
  constructor
  · intro h hseveral
    have htwo := two_le_length_filter_of_several hseveral
    omega
  · intro h
    cases hfind : findParametersDigestComponent name with
    | absent => simp [filter_eq_of_absent hfind]
    | several => exact absurd hfind h
    | only index =>
      obtain ⟨c, -, hfilter⟩ := filter_eq_of_only hfind
      simp [hfilter]

end

theorem digestUpToDate_iff {i : Interest} : i.DigestUpToDate ↔
    findParametersDigestComponent i.name ≠ .several ∧
      (i.parameters ≠ [] → i.isParametersDigestValid = true) := by
  rw [← length_filter_le_one_iff]
  have hvalid : i.parameters ≠ [] → (i.isParametersDigestValid = true ↔
      ∃ c, i.name.filter Component.isParametersSha256Digest = [c] ∧
        c.value = Sha256.digest (i.parameters.flatMap Block.wire)) := by
    intro hne
    have hparams : i.hasApplicationParameters = true := by
      simpa [hasApplicationParameters] using hne
    rw [isParametersDigestValid, hparams]
    cases hfind : findParametersDigestComponent i.name with
    | absent => simp [filter_eq_of_absent hfind]
    | several =>
      have htwo := two_le_length_filter_of_several hfind
      refine iff_of_false (by simp) ?_
      rintro ⟨c, hc, -⟩
      rw [hc] at htwo
      exact absurd htwo (by simp)
    | only index =>
      obtain ⟨c, hc, hfilter⟩ := filter_eq_of_only hfind
      simp [hc, hfilter, computeParametersDigest]
  constructor
  · intro h
    exact ⟨h.atMostOne, fun hne => (hvalid hne).mpr (h.valid hne)⟩
  · rintro ⟨hone, h⟩
    exact ⟨hone, fun hne => (hvalid hne).mp (h hne)⟩

namespace Object

/-! ### Calls -/

/-- The setters, which may throw, and decodings with the check of the digest. -/
inductive DigestCall where
  | set (op : Op)
  | wireDecode (wire : PacketBlock)

/-- The object after a call. A decoding that throws does not count. -/
def digestStep (i : Object) : DigestCall → Object
  | .set op => Method.after op.call i
  | .wireDecode wire =>
    match (wireDecode true wire).run i with
    | .ok _ j => j
    | .error _ _ => i

omit [Sha256] in
/-- The object in which `setSignatureInfo` encodes the info. -/
def withEmptyParameters (i : Object) : Object :=
  { i with parameters := [.makeEmptyBlock Tlv.applicationParameters
      Tlv.applicationParameters_pos Tlv.applicationParameters_lt] }

/-- The calls that keep the digest up to date. When `setSignatureInfo` throws without parameters,
the name must have the digest of empty ApplicationParameters by chance. -/
def DigestCall.KeepsDigest (i : Object) : DigestCall → Prop
  | set (.setSignatureInfo info) => i.parameters ≠ [] ∨
      (∃ block, info.encodedBlock .interest = .ok block) ∨
      i.withEmptyParameters.isParametersDigestValid = true
  | _ => True

/-! ### One call -/

variable {i : Object}

theorem digestUpToDate_set (hi : i.DigestUpToDate) {op : Op}
    (hop : ∀ info, op = .setSignatureInfo info → ∃ block, info.encodedBlock .interest = .ok block) :
    (Method.after op.call i).DigestUpToDate := by
  obtain ⟨hseveral, hvalid⟩ := digestUpToDate_iff.mp hi
  have hall : KeptBySetters (fun _ _ => True) fun _ => True := by constructor <;> simp
  rcases op.after_eq_or_renewed hall hseveral trivial (fun _ _ => trivial)
    (fun info h => (hop info h).imp fun _ hblock => ⟨hblock, trivial⟩) with hsame | h
  · rwa [hsame]
  · exact digestUpToDate_iff.mpr ⟨h.not_several, h.digest_valid hvalid⟩

theorem digestUpToDate_setSignatureInfo_iff (hi : i.DigestUpToDate) {info : SignatureInfo}
    (h : ¬ ∃ block, info.encodedBlock .interest = .ok block) :
    (Method.after (setSignatureInfo info) i).DigestUpToDate ↔
      (DigestCall.set (.setSignatureInfo info)).KeepsDigest i := by
  have hseveral := (digestUpToDate_iff.mp hi).1
  rw [after_setSignatureInfo_of_error h, DigestCall.KeepsDigest]
  split
  next hnil =>
    rw [digestUpToDate_iff]
    simp [hnil, hseveral, h, withEmptyParameters]
  next hne => simp [hne, hi]

theorem digestUpToDate_of_wireDecode {wire : PacketBlock} {j : Object}
    (h : (wireDecode true wire).run i = .ok () j) : j.DigestUpToDate := by
  obtain ⟨-, elements, name, function, rest, -, hnames, hloop, hvalid⟩ :=
    run_wireDecode_eq_ok_iff.mp h
  have hname : j.name = name := (kept_of_run_decodeElements hloop).1
  exact digestUpToDate_iff.mpr ⟨hname ▸ hnames.not_several, fun _ => hvalid rfl⟩

theorem digestUpToDate_step_iff (hi : i.DigestUpToDate) (call : DigestCall) :
    (i.digestStep call).DigestUpToDate ↔ call.KeepsDigest i := by
  cases call with
  | wireDecode wire =>
    refine iff_of_true ?_ trivial
    dsimp only [digestStep]
    split
    next h => exact digestUpToDate_of_wireDecode h
    next => exact hi
  | set op =>
    by_cases hop : ∀ info, op = .setSignatureInfo info →
        ∃ block, info.encodedBlock .interest = .ok block
    · refine iff_of_true (digestUpToDate_set hi hop) ?_
      cases op with
      | setSignatureInfo info => exact .inr (.inl (hop info rfl))
      | _ => trivial
    · simp only [not_forall] at hop
      obtain ⟨info, rfl, herror⟩ := hop
      exact digestUpToDate_setSignatureInfo_iff hi herror

/-! ### Runs -/

/-- The digest is up to date throughout a run exactly when every `setSignatureInfo` on an Interest
without parameters has an info that can be encoded, or finds the digest of empty
ApplicationParameters in the name. -/
theorem digestUpToDate_throughout_iff (calls : List DigestCall) :
    (∀ front, front <+: calls → (Run.run digestStep default front).DigestUpToDate) ↔
      Run.Meets digestStep DigestCall.KeepsDigest default calls := by
  have hdefault : default.DigestUpToDate := ⟨by simp [default, ofName], by simp [default, ofName]⟩
  exact Run.invariant_iff_meets (fun i : Object => DigestUpToDate i.toInterest)
    (fun i call hi => digestUpToDate_step_iff hi call) hdefault

omit [Sha256] in
/-- A SignatureInfo without signature type cannot be encoded, and the call leaves an Interest with
parameters and without a digest. -/
theorem not_digestUpToDate_invalidInfo : ∃ _ : Sha256, ¬ ∀ front,
    front <+: [.set (.setName [.generic [65]]), .set (.setSignatureInfo .empty)] →
      (Run.run digestStep default front).DigestUpToDate := by
  let _ := Sha256.constant
  refine ⟨Sha256.constant, fun h => ?_⟩
  have hvalid := (digestUpToDate_iff.mp (h _ prefix_rfl)).2 (by decide)
  exact absurd hvalid (by decide)

end Object

end Interest

end NdnFc
