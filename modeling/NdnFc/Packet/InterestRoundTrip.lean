import NdnFc.Packet.InterestDecode
import NdnFc.Packet.InterestSetters

/-!
# Round trip of Interests

An Interest that was built with the setters is decoded from its own encoding. Each part of the
encoding takes the loop of the decoder one stage further (`Interest.Object.Stage`), until the digest
of the parameters is checked.
-/

namespace NdnFc

namespace Interest

namespace Object

open Method Block List

/-! ### The elements of an encoded Interest -/

variable (i : Interest)

def canBePrefixBlocks : List Block :=
  if i.canBePrefix then [.makeEmptyBlock Tlv.canBePrefix (by decide) (by decide)] else []

def mustBeFreshBlocks : List Block :=
  if i.mustBeFresh then [.makeEmptyBlock Tlv.mustBeFresh (by decide) (by decide)] else []

def forwardingHintBlocks (hint : DelegationList) (h : hint.encodeValue.length < 2 ^ 64) :
    List Block :=
  if hint.dels = [] then [] else [hint.toBlock h]

def nonceBlock (nonce : Nonce) : Block :=
  .make Tlv.nonce nonce.1 (by decide) (by decide) (by rw [nonce.2]; decide)

def interestLifetimeBlocks : List Block :=
  if i.interestLifetime = defaultInterestLifetime then []
  else [.make Tlv.interestLifetime
    (Tlv.writeNonNegativeInteger (Tlv.ofMilliseconds i.interestLifetime)) (by decide) (by decide)
    ((Tlv.length_writeNonNegativeInteger_le _).trans_lt (by decide))]

def hopLimitBlocks : List Block :=
  match i.hopLimit with
  | none => []
  | some hopLimit => [.make Tlv.hopLimit [hopLimit] (by decide) (by decide) (by simp)]

/-- The elements between the names and the parameters. -/
def optionalBlocks (nonce : Nonce)
    (h : i.forwardingHint.encodeValue.length < 2 ^ 64) : List Block :=
  canBePrefixBlocks i ++ (mustBeFreshBlocks i ++ (forwardingHintBlocks i.forwardingHint h ++
    ([nonceBlock nonce] ++ (interestLifetimeBlocks i ++ hopLimitBlocks i))))

theorem flatMap_wire_optionalBlocks (nonce : Nonce)
    (h : i.forwardingHint.encodeValue.length < 2 ^ 64) :
    (optionalBlocks i nonce h).flatMap Block.wire = i.encodeOptional nonce := by
  unfold optionalBlocks canBePrefixBlocks mustBeFreshBlocks forwardingHintBlocks nonceBlock
    interestLifetimeBlocks hopLimitBlocks encodeOptional
  simp only [flatMap_append, apply_ite (flatMap Block.wire), append_assoc]
  cases i.hopLimit <;> simp [makeEmptyBlock, DelegationList.toBlock]

/-! ### Decoding what was encoded -/

/-- Some elements take the loop of the decoder from one object to another. The bounds are on the
number of the last recognised element before and after. -/
def Stage (blocks : List Block) (bound bound' : ℕ) (s t : Object) : Prop :=
  ∀ last < bound, ∀ rest, ∃ last' < bound',
    (decodeElements last (blocks ++ rest)).run s = (decodeElements last' rest).run t

variable {s t : Object} {blocks : List Block} {i : Interest}

theorem Stage.trans {blocks₁ blocks₂ : List Block} {n m k : ℕ} {u : Object}
    (h₁ : Stage blocks₁ n m s t) (h₂ : Stage blocks₂ m k t u) :
    Stage (blocks₁ ++ blocks₂) n k s u := by
  intro last hlast rest
  obtain ⟨last₁, hlast₁, hrun₁⟩ := h₁ last hlast (blocks₂ ++ rest)
  obtain ⟨last₂, hlast₂, hrun₂⟩ := h₂ last₁ hlast₁ rest
  exact ⟨last₂, hlast₂, by rw [append_assoc, hrun₁, hrun₂]⟩

theorem Stage.nil {n m : ℕ} (h : n ≤ m) (hs : s = t) : Stage [] n m s t :=
  fun last hlast _ => ⟨last, by omega, by rw [hs, nil_append]⟩

theorem Stage.singleton {b : Block} {n m : ℕ} (h : n < m)
    (hreads : ∀ last < n, Reads b last s n t) : Stage [b] n m s t :=
  fun last hlast rest => ⟨n, h, (hreads last hlast).run_decodeElements rest⟩

theorem stage_canBePrefix (i : Interest) (hs : s.canBePrefix = false) :
    Stage (canBePrefixBlocks i) 2 3 s { s with canBePrefix := i.canBePrefix } := by
  unfold canBePrefixBlocks
  split
  next hflag =>
    rw [hflag]
    exact .singleton (by omega) fun last hlast => .canBePrefix rfl hlast rfl
  next hflag =>
    rw [Bool.not_eq_true] at hflag
    exact .nil (by omega) (by rw [hflag, ← hs])

theorem stage_mustBeFresh (i : Interest) (hs : s.mustBeFresh = false) :
    Stage (mustBeFreshBlocks i) 3 4 s { s with mustBeFresh := i.mustBeFresh } := by
  unfold mustBeFreshBlocks
  split
  next hflag =>
    rw [hflag]
    exact .singleton (by omega) fun last hlast => .mustBeFresh rfl hlast rfl
  next hflag =>
    rw [Bool.not_eq_true] at hflag
    exact .nil (by omega) (by rw [hflag, ← hs])

theorem stage_forwardingHint (hint : DelegationList) (hlen : hint.encodeValue.length < 2 ^ 64)
    (hs : s.forwardingHint = .empty) :
    Stage (forwardingHintBlocks hint hlen) 4 5 s { s with forwardingHint := hint.sort } := by
  unfold forwardingHintBlocks
  split
  next hdels => exact .nil (by omega) (by rw [DelegationList.sort_nil hdels, ← hs])
  next hdels =>
    exact .singleton (by omega) fun last hlast =>
      .forwardingHint rfl hlast (hint.run_wireDecode_toBlock hlen hdels _)

theorem stage_nonce (nonce : Nonce) (s : Object) :
    Stage [nonceBlock nonce] 5 6 s { s with nonce := some nonce } :=
  .singleton (by omega) fun last hlast => .nonce rfl hlast nonce.2

theorem stage_interestLifetime (i : Interest) (hle : -2 ^ 63 ≤ i.interestLifetime)
    (hlt : i.interestLifetime < 2 ^ 63) (hs : s.interestLifetime = defaultInterestLifetime) :
    Stage (interestLifetimeBlocks i) 6 7 s { s with interestLifetime := i.interestLifetime } := by
  unfold interestLifetimeBlocks
  split
  next hdefault => exact .nil (by omega) (by rw [hdefault, ← hs])
  next =>
    refine .singleton (by omega) fun last hlast => ?_
    conv => arg 5; rw [← Tlv.toMilliseconds_ofMilliseconds hle hlt]
    exact .interestLifetime rfl hlast
      (Tlv.readNonNegativeInteger_write (Tlv.ofMilliseconds_lt i.interestLifetime))

theorem stage_hopLimit (i : Interest) (hs : s.hopLimit = none) :
    Stage (hopLimitBlocks i) 7 8 s { s with hopLimit := i.hopLimit } := by
  unfold hopLimitBlocks
  split
  next hnone => exact .nil (by omega) (by rw [hnone, ← hs])
  next limit hsome =>
    rw [hsome]
    exact .singleton (by omega) fun last hlast => .hopLimit rfl hlast rfl

/-- The object that the decoder has when it comes to the parameters. -/
def beforeParameters (i : Interest) (nonce : Nonce) (s : Object) : Object :=
  { s with
    canBePrefix := i.canBePrefix, mustBeFresh := i.mustBeFresh,
    forwardingHint := i.forwardingHint.sort, nonce := some nonce,
    interestLifetime := i.interestLifetime, hopLimit := i.hopLimit, parameters := [] }

theorem stage_optional (i : Interest) (nonce : Nonce) (hle : -2 ^ 63 ≤ i.interestLifetime)
    (hlt : i.interestLifetime < 2 ^ 63) (hlen : i.forwardingHint.encodeValue.length < 2 ^ 64)
    (s : Object) :
    Stage (optionalBlocks i nonce hlen) 2 8 (resetFields s) (beforeParameters i nonce s) :=
  (stage_canBePrefix i rfl).trans <| (stage_mustBeFresh i rfl).trans <|
    (stage_forwardingHint i.forwardingHint hlen rfl).trans <|
    (stage_nonce nonce _).trans <| (stage_interestLifetime i hle hlt rfl).trans <|
    stage_hopLimit i rfl

/-! ### The parameters -/

/-- The parameters begin with the ApplicationParameters element. -/
def BeginsWithParameters (blocks : List Block) : Prop :=
  ∀ b ∈ blocks.head?, b.type = Tlv.applicationParameters

/-- An element after ApplicationParameters that the decoder does not take for one that is out of
order. -/
def isKept (b : Block) : Bool :=
  b.type != Tlv.hopLimit && b.type != Tlv.applicationParameters

def readParameters : List Block → List Block
  | [] => []
  | first :: rest => first :: rest.filter isKept

theorem isKept_eq_true_iff {b : Block} :
    isKept b = true ↔ b.type ≠ Tlv.hopLimit ∧ b.type ≠ Tlv.applicationParameters := by
  simp [isKept]

theorem run_decodeElements_nil {last : ℕ} : (decodeElements last []).run s = .ok () t ↔ t = s := by
  rw [decodeElements, EStateM.run_pure, EStateM.Result.ok.injEq]
  exact ⟨fun h => h.2.symm, fun h => ⟨rfl, h.symm⟩⟩

theorem reads_after_parameters_iff {b : Block} {s' : Object} (hs : s.parameters ≠ []) {last : ℕ} :
    Reads b 8 s last s' ↔ Tlv.isCriticalType b.type = false ∧ last = 8 ∧
      s' = { s with parameters := s.parameters ++ [b].filter isKept } := by
  have hparams : s.hasApplicationParameters = true := by
    simpa [hasApplicationParameters] using hs
  constructor
  · intro h
    cases h with
    | outOfOrder htype =>
      rcases htype with ⟨htype, -⟩ | ⟨htype, -⟩ <;> simp [isKept, htype] <;> decide
    | other htype htype' hcritical =>
      have hkept : isKept b = true := isKept_eq_true_iff.mpr ⟨htype, htype'⟩
      simp [hkept, hcritical, hparams]
    | _ => omega
  · rintro ⟨hcritical, rfl, rfl⟩
    by_cases hkept : b.type = Tlv.hopLimit ∨ b.type = Tlv.applicationParameters
    · have hfilter : [b].filter isKept = [] := by
        rcases hkept with h | h <;> simp [isKept, h]
      rw [hfilter, append_nil]
      exact .outOfOrder (hkept.imp (fun h => ⟨h, by omega⟩) fun h => ⟨h, le_rfl⟩)
    · obtain ⟨hhop, happ⟩ := not_or.mp hkept
      have hfilter : [b].filter isKept = [b] := by simp [isKept, hhop, happ]
      have hreads : Reads b 8 s 8 _ := .other hhop happ hcritical
      rw [if_pos hparams] at hreads
      rwa [hfilter]

theorem run_decodeElements_after_parameters_iff (hs : s.parameters ≠ []) :
    (decodeElements 8 blocks).run s = .ok () t ↔
      (∀ b ∈ blocks, Tlv.isCriticalType b.type = false) ∧
        t = { s with parameters := s.parameters ++ blocks.filter isKept } := by
  induction blocks generalizing s with
  | nil =>
    rw [run_decodeElements_nil, filter_nil, append_nil]
    simp
  | cons b blocks ih =>
    have hne : s.parameters ++ [b].filter isKept ≠ [] := by simp [hs]
    have happend : s.parameters ++ (b :: blocks).filter isKept =
        s.parameters ++ [b].filter isKept ++ blocks.filter isKept := by
      rw [append_assoc, ← filter_append, singleton_append]
    rw [happend]
    simp only [run_decodeElements_cons, reads_after_parameters_iff hs]
    constructor
    · rintro ⟨_, _, ⟨hcritical, rfl, rfl⟩, h⟩
      obtain ⟨hrest, rfl⟩ := (ih hne).mp h
      exact ⟨forall_mem_cons.mpr ⟨hcritical, hrest⟩, rfl⟩
    · rintro ⟨hall, rfl⟩
      obtain ⟨hcritical, hrest⟩ := forall_mem_cons.mp hall
      exact ⟨8, _, ⟨hcritical, rfl, rfl⟩, (ih hne).mpr ⟨hrest, rfl⟩⟩

theorem run_decodeElements_parameters_iff {last : ℕ} (hblocks : BeginsWithParameters blocks)
    (hlast : last < 8) (hs : s.parameters = []) :
    (decodeElements last blocks).run s = .ok () t ↔
      (∀ b ∈ blocks.tail, Tlv.isCriticalType b.type = false) ∧
        t = { s with parameters := readParameters blocks } := by
  cases blocks with
  | nil =>
    have hsame : { s with parameters := readParameters [] } = s := by rw [readParameters, ← hs]
    rw [hsame, run_decodeElements_nil]
    simp
  | cons first rest =>
    have hfirst : first.type = Tlv.applicationParameters := hblocks first rfl
    have hreads : Reads first last s 8 { s with parameters := s.parameters ++ [first] } :=
      .applicationParameters hfirst hlast
    rw [hreads.run_decodeElements, run_decodeElements_after_parameters_iff (by simp), hs]
    rfl

/-- The fields that an encoded Interest decodes to: a nonce is there, and the forwarding hint is
sorted. -/
def decodedFields (i : Interest) (nonce : Nonce) : Interest :=
  { i with nonce := some nonce, forwardingHint := i.forwardingHint.sort }

/-- The fields after encoding and decoding. -/
def readBack (i : Interest) (nonce : Nonce) : Interest :=
  { decodedFields i nonce with parameters := readParameters i.parameters }

theorem namesDecode_toBlock_iff {name function name' function' : Name} {rest rest' : List Block}
    (hname : name.encodeComponents.length < 2 ^ 64)
    (hfunction : function.encodeComponents.length < 2 ^ 64)
    (hseveral : findParametersDigestComponent name ≠ .several) :
    NamesDecode (name.toBlock hname :: function.toBlock hfunction :: rest) name' function' rest' ↔
      name ≠ [] ∧ name' = name ∧ function' = function ∧ rest' = rest := by
  constructor
  · rintro ⟨⟨n, f, heq, -, -, hn, hf⟩, hne, -⟩
    cases heq
    rw [Name.ofBlock_toBlock] at hn hf
    cases hn
    cases hf
    exact ⟨hne, rfl, rfl, rfl⟩
  · rintro ⟨hne, rfl, rfl, rfl⟩
    exact ⟨⟨_, _, rfl, Name.type_toBlock _ _, Name.type_toBlock _ _, Name.ofBlock_toBlock _ _,
      Name.ofBlock_toBlock _ _⟩, hne, hseveral⟩

variable [Sha256]

theorem isParametersDigestValid_of_wellFormed (hw : i.WellFormed)
    (hdigest : i.parameters = [] → findParametersDigestComponent i.name = .absent) :
    i.isParametersDigestValid = true := by
  by_cases hparams : i.parameters = []
  · simp [isParametersDigestValid, hdigest hparams, hasApplicationParameters, hparams]
  · exact hw.digest_valid hparams

/-- The Interests whose encoding the decoder accepts. -/
structure Readable (autoCheck : Bool) (i : Interest) : Prop where
  name_ne_nil : i.name ≠ []
  not_critical : ∀ b ∈ i.parameters.tail, Tlv.isCriticalType b.type = false
  digest_valid : autoCheck = true →
    isParametersDigestValid { i with parameters := readParameters i.parameters } = true

theorem run_wireDecode_encoded_iff (hle : -2 ^ 63 ≤ i.interestLifetime)
    (hlt : i.interestLifetime < 2 ^ 63) (hseveral : findParametersDigestComponent i.name ≠ .several)
    (hparameters : BeginsWithParameters i.parameters) (nonce : Nonce)
    (hlen : (i.encodeValue nonce).length < 2 ^ 64) (autoCheck : Bool) (s t : Object) :
    let wire := make Tlv.interest (i.encodeValue nonce) (by decide) (by decide) hlen
    (wireDecode autoCheck (.encoded wire)).run s = .ok () t ↔
      Readable autoCheck i ∧ t = { readBack i nonce with wire := some wire } := by
  intro wire
  have hlens : i.name.encodeComponents.length < 2 ^ 64 ∧
      i.function.encodeComponents.length < 2 ^ 64 ∧ (i.encodeOptional nonce).length < 2 ^ 64 := by
    simp only [encodeValue, Name.wireEncode, Tlv.encodeElement, length_append] at hlen
    omega
  obtain ⟨hname, hfunction, hoptional⟩ := hlens
  have hhint : i.forwardingHint.encodeValue.length < 2 ^ 64 := by
    by_cases hdels : i.forwardingHint.dels = []
    · simp [DelegationList.encodeValue, hdels]
    · simp only [encodeOptional, if_neg hdels, Tlv.encodeElement, length_append] at hoptional
      omega
  have hparse : PacketBlock.parse (.encoded wire) =
      .ok (i.name.toBlock hname :: i.function.toBlock hfunction ::
        (optionalBlocks i nonce hhint ++ i.parameters)) := by
    change parse (i.encodeValue nonce) = _
    rw [← parse_flatMap_wire]
    simp only [flatMap_cons, flatMap_append, Name.wire_toBlock,
      flatMap_wire_optionalBlocks, encodeValue, append_assoc]
  obtain ⟨last, hlast, hstage⟩ := stage_optional i nonce hle hlt hhint
    (decodeStart (.encoded wire) i.name i.function) 1 (by omega) i.parameters
  have hloop := hstage.symm ▸ run_decodeElements_parameters_iff (t := t) hparameters hlast
    (rfl : (beforeParameters i nonce (decodeStart (.encoded wire) i.name i.function)).parameters = [])
  rw [run_wireDecode_eq_ok_iff]
  constructor
  · rintro ⟨-, elements, name, function, rest, h, hnames, hrun, hcheck⟩
    rw [hparse] at h
    cases h
    obtain ⟨hne, rfl, rfl, rfl⟩ := (namesDecode_toBlock_iff hname hfunction hseveral).mp hnames
    obtain ⟨hcritical, rfl⟩ := hloop.mp hrun
    exact ⟨⟨hne, hcritical, hcheck⟩, rfl⟩
  · rintro ⟨hread, rfl⟩
    refine ⟨rfl, _, _, _, _, hparse, ?_, hloop.mpr ⟨hread.not_critical, rfl⟩, hread.digest_valid⟩
    exact (namesDecode_toBlock_iff hname hfunction hseveral).mpr
      ⟨hread.name_ne_nil, rfl, rfl, rfl⟩

omit [Sha256] in
theorem readParameters_of_parameterTypes (h : ParameterTypes blocks) :
    readParameters blocks = blocks := by
  cases blocks with
  | nil => rfl
  | cons first rest =>
    rw [readParameters, filter_eq_self.mpr]
    intro b hb
    rw [isKept_eq_true_iff]
    rcases h.2 b hb with htype | htype <;> rw [htype] <;> decide

omit [Sha256] in
theorem beginsWithParameters_of_parameterTypes (h : ParameterTypes blocks) :
    BeginsWithParameters blocks := by
  cases blocks with
  | nil => simp [BeginsWithParameters]
  | cons first rest => simpa [BeginsWithParameters] using h.1

section

variable (hw : i.WellFormed) (hne : i.name ≠ [])
  (hdigest : i.parameters = [] → findParametersDigestComponent i.name = .absent)

include hw hne hdigest

theorem readable_of_wellFormed (autoCheck : Bool) : Readable autoCheck i := by
  refine ⟨hne, fun b hb => ?_, fun _ => ?_⟩
  · have htypes := hw.parameterTypes
    cases hl : i.parameters with
    | nil =>
      rw [hl] at hb
      cases hb
    | cons first rest =>
      rw [hl] at hb htypes
      rcases htypes.2 b hb with htype | htype <;> rw [htype] <;> decide
  · rw [readParameters_of_parameterTypes hw.parameterTypes]
    exact isParametersDigestValid_of_wellFormed hw hdigest

theorem run_wireDecode_encoded (nonce : Nonce) (hlen : (i.encodeValue nonce).length < 2 ^ 64)
    (autoCheck : Bool) (s : Object) :
    let wire := make Tlv.interest (i.encodeValue nonce) (by decide) (by decide) hlen
    (wireDecode autoCheck (.encoded wire)).run s =
      .ok () { decodedFields i nonce with wire := some wire } := by
  intro wire
  have hlifetime := hw.lifetime_nonneg
  have hback : readBack i nonce = decodedFields i nonce := by
    rw [readBack, readParameters_of_parameterTypes hw.parameterTypes]
    rfl
  rw [← hback]
  exact (run_wireDecode_encoded_iff (by omega) hw.lifetime_lt hw.not_several
    (beginsWithParameters_of_parameterTypes hw.parameterTypes) nonce hlen autoCheck s _).mpr
    ⟨readable_of_wellFormed hw hne hdigest autoCheck, rfl⟩

end

theorem encode_of_wellFormed (hw : i.WellFormed)
    (hdigest : i.parameters = [] → findParametersDigestComponent i.name = .absent) (nonce : Nonce) :
    i.encode nonce = .ok (Tlv.encodeElement Tlv.interest (i.encodeValue nonce)) := by
  unfold encode
  cases hparams : i.parameters with
  | nil => simp [hdigest hparams, hasApplicationParameters, hparams]
  | cons first rest =>
    have hyes : i.hasApplicationParameters = true := by simp [hasApplicationParameters, hparams]
    have hvalid := hw.digest_valid (by simp [hparams])
    cases hfind : findParametersDigestComponent i.name with
    | absent => simp [isParametersDigestValid, hfind, hyes] at hvalid
    | several => exact absurd hfind hw.not_several
    | only index => simp [hyes]

/-- Encode an object, and construct another one from what was encoded. -/
def roundTrip (autoCheck : Bool) (fresh : Nonce) (i : Object) : Except String Object :=
  match (wireEncode autoCheck fresh).run i with
  | .ok wire _ => ofBlock autoCheck (.encoded wire)
  | .error e _ => .error e

/-- An Interest built with the setters that has a name, with a parameters digest only together with
parameters, is decoded from its encoding with the same fields, but for a generated nonce and a
sorted forwarding hint. -/
theorem roundTrip_eq {i : Object} (hi : i.Built) (hne : i.name ≠ [])
    (hdigest : i.parameters = [] → findParametersDigestComponent i.name = .absent)
    (autoCheck : Bool) (fresh : Nonce)
    (hlen : (i.encodeValue (i.nonce.getD fresh)).length < 2 ^ 64) :
    ∃ j, roundTrip autoCheck fresh i = .ok j ∧
      j.toInterest = { i.toInterest with
        nonce := some (i.nonce.getD fresh), forwardingHint := i.forwardingHint.sort } := by
  obtain ⟨hw, hwire⟩ := hi.good
  have hbytes := encode_of_wellFormed hw hdigest (i.nonce.getD fresh)
  have hblock := makeBinaryBlock_eq_make (by decide : 0 < Tlv.interest) (by decide) hlen
  have hdecode := run_wireDecode_encoded hw hne hdigest (i.nonce.getD fresh) hlen autoCheck
  dsimp only at hdecode
  generalize make Tlv.interest (i.encodeValue (i.nonce.getD fresh)) _ _ hlen = wire
    at hblock hdecode
  let j : Object := { decodedFields i.toInterest (i.nonce.getD fresh) with wire := some wire }
  have hencode : (wireEncode autoCheck fresh).run i = .ok wire j := by
    rw [wireEncode, run_get_bind, hwire]
    refine run_ofExcept_bind_eq_ok_iff.mpr ⟨_, hbytes, ?_⟩
    rw [run_modify_bind]
    refine run_ofExcept_bind_eq_ok_iff.mpr ⟨wire, hblock, ?_⟩
    exact run_bind_eq_ok_iff.mpr ⟨(), j, hdecode _, rfl⟩
  refine ⟨j, ?_, rfl⟩
  rw [roundTrip, hencode]
  exact toExcept_eq_ok_iff.mpr (hdecode default)

theorem built_ofName {name : Name} (h : findParametersDigestComponent name ≠ .several)
    (hint : DelegationList) :
    Built { ofName name [] with forwardingHint := hint, wire := none } := by
  have hname : (setName name).run default = .ok () { ofName name [] with wire := none } := by
    rw [setName, if_neg h, EStateM.run_modify]
    by_cases hnil : name = []
    · subst hnil
      rfl
    · rw [if_neg (show name ≠ default.name from hnil)]
      rfl
  have hlifetime : (setInterestLifetime 4000).run { ofName name [] with wire := none } =
      .ok () { ofName name [] with wire := none } := rfl
  have hhint : (Op.setForwardingHint hint).call.run { ofName name [] with wire := none } =
      .ok () { ofName name [] with forwardingHint := hint, wire := none } := rfl
  have hinfo : (Op.setForwardingHint hint).InfoForInterest := trivial
  exact .step (.create hname hlifetime) hinfo hhint

omit [Sha256] in
/-- A hint with two delegations in the order of insertion. -/
def unsortedHint : DelegationList where
  isSorted := false
  dels := [⟨2, [.generic [65]]⟩, ⟨1, [.generic [66]]⟩]
  ordered := by simp

omit [Sha256] in
/-- A name with a parameters digest but no parameters is not encoded, and the delegations of an
unsorted forwarding hint come back sorted. -/
theorem not_roundTrip_built : ∃ _ : Sha256, ∃ (i k : Object) (fresh : Nonce),
    i.Built ∧ i.name ≠ [] ∧ (∀ j, roundTrip true fresh i ≠ .ok j) ∧
    k.Built ∧ k.name ≠ [] ∧
      ∀ j, roundTrip true fresh k = .ok j → j.forwardingHint.dels ≠ k.forwardingHint.dels := by
  let _ := Sha256.constant
  let digest : Component :=
    ⟨Tlv.parametersSha256DigestComponent, List.replicate digestSize 0, by decide, by decide⟩
  refine ⟨Sha256.constant, { ofName [.generic [65], digest] [] with wire := none },
    { ofName [.generic [65]] [] with forwardingHint := unsortedHint, wire := none },
    ⟨[0, 0, 0, 0], rfl⟩, built_ofName (by decide) .empty, by simp [ofName], ?_,
    built_ofName (by decide) unsortedHint, by simp [ofName], ?_⟩
  · intro j hj
    cases hj
  · intro j hj
    have hdels : (roundTrip true ⟨[0, 0, 0, 0], rfl⟩ { ofName [.generic [65]] [] with
        forwardingHint := unsortedHint, wire := none }).toOption.map
          (fun j => j.forwardingHint.dels) = some unsortedHint.dels.reverse := by decide
    rw [hj] at hdels
    rw [show j.forwardingHint.dels = _ from Option.some.inj hdels]
    decide

/-- The Interest /A with one byte of ApplicationParameters. -/
def withParameters : Object :=
  Method.after (setApplicationParametersValue (some [1]))
    { ofName [.generic [65]] [] with forwardingHint := .empty, wire := none }

omit [Sha256] in
/-- An Interest with parameters comes back as it was, with a nonce. -/
theorem roundTrip_withParameters : ∃ _ : Sha256, ∃ (j : Object) (fresh : Nonce),
    withParameters.Built ∧ withParameters.name ≠ [] ∧ withParameters.parameters ≠ [] ∧
      roundTrip true fresh withParameters = .ok j ∧
      j.toInterest = { withParameters.toInterest with nonce := some fresh } := by
  let _ := Sha256.constant
  have hcall : (Op.setApplicationParametersValue (some [1])).call.run
      { ofName [.generic [65]] [] with forwardingHint := .empty, wire := none } =
        .ok () withParameters := rfl
  have hinfo : (Op.setApplicationParametersValue (some [1])).InfoForInterest := trivial
  have hbuilt : withParameters.Built := .step (built_ofName (by decide) .empty) hinfo hcall
  obtain ⟨j, hj, hfields⟩ := roundTrip_eq hbuilt (by decide)
    (fun h => absurd h (by decide)) true ⟨[0, 0, 0, 0], rfl⟩ (by decide)
  exact ⟨Sha256.constant, j, ⟨[0, 0, 0, 0], rfl⟩, hbuilt, by decide, by decide, hj, hfields⟩

end Object

end Interest

end NdnFc
