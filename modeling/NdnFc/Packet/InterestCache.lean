import NdnFc.Packet.InterestDigest
import NdnFc.Packet.InterestRoundTrip
import NdnFc.Sfc.HeadRemoval

/-!
# Coherence of the cached encoding of an Interest

An Interest object keeps its encoding (`ndn-cxx/interest.cpp`). The setters drop it when they change
a field; `wireEncode` decodes what it has encoded into the same object. The decoder takes the new
encoding first, and keeps it when it throws.
-/

namespace NdnFc

namespace Interest

namespace Object

open Method

/-! ### Operations -/

/-- `getNonce`. The nonce `fresh` is the one that is generated when none is set. -/
def getNonce (fresh : Nonce) : EStateM String Object Nonce := do
  let i ← get
  match i.nonce with
  | some nonce => pure nonce
  | none => do
    modify ({ · with nonce := some fresh, wire := none })
    pure fresh

/-- The public operations that can change the object or its encoding. -/
inductive CacheOp where
  | set (op : Op)
  | removeHeadFunction (env : Option Bool)
  | getNonce (fresh : Nonce)
  | refreshNonce (fresh : Nonce → Nonce)
  | wireEncode (fresh : Nonce)
  | wireDecode (wire : PacketBlock)

variable [Sha256] {autoCheck : Bool} {i : Object} (autoCheckParametersDigest : Bool)

/-- The call of an operation, without its result. -/
def CacheOp.call : CacheOp → EStateM String Object Unit
  | set op => op.call
  | removeHeadFunction env => Object.removeHeadFunction env
  | getNonce fresh => do let _ ← Object.getNonce fresh
  | refreshNonce fresh => Object.refreshNonce fresh
  | wireEncode fresh => do let _ ← Object.wireEncode autoCheckParametersDigest fresh
  | wireDecode wire => Object.wireDecode autoCheckParametersDigest wire

/-- The object after an operation, which may have thrown. -/
def cacheStep (i : Object) (op : CacheOp) : Object :=
  after (op.call autoCheckParametersDigest) i

def Decodable (wire : PacketBlock) : Prop :=
  ∃ j, ofBlock autoCheckParametersDigest wire = .ok j

omit [Sha256] in
/-- The encoder does not throw: there is a digest component exactly when there are parameters, and
the length fits into 64 bits. -/
structure Encodable (i : Interest) (nonce : Nonce) : Prop where
  digest_iff : findParametersDigestComponent i.name = .absent ↔ i.parameters = []
  length_lt : (i.encodeValue nonce).length < 2 ^ 64

/-- The calls after which the encoding is coherent again, when it was before. -/
def CacheOp.KeepsCoherence (autoCheckParametersDigest : Bool) (i : Object) : CacheOp → Prop
  | set (.setSignatureInfo info) => i.wire = none ∨ i.parameters ≠ [] ∨
      ∃ block, info.encodedBlock .interest = .ok block
  | wireEncode fresh => i.wire = none → Encodable i.toInterest (i.nonce.getD fresh) →
      Readable autoCheckParametersDigest i.toInterest
  | wireDecode wire => wire.type ≠ Tlv.interest ∨ wire.wire = none ∨
      Decodable autoCheckParametersDigest wire
  | _ => True

/-! ### What every operation keeps true -/

section

omit [Sha256]

/-- There are never two digest components, the lifetime is a signed 64-bit number, and the
parameters begin with the ApplicationParameters element. -/
structure FieldInv (i : Interest) : Prop where
  not_several : findParametersDigestComponent i.name ≠ .several
  lifetime_ge : -2 ^ 63 ≤ i.interestLifetime
  lifetime_lt : i.interestLifetime < 2 ^ 63
  parameters : BeginsWithParameters i.parameters

theorem FieldInv.congr {i j : Interest} (h : FieldInv i) (hname : j.name = i.name)
    (hlifetime : j.interestLifetime = i.interestLifetime)
    (hparameters : j.parameters = i.parameters) : FieldInv j :=
  ⟨hname ▸ h.not_several, hlifetime ▸ h.lifetime_ge, hlifetime ▸ h.lifetime_lt,
    hparameters ▸ h.parameters⟩

theorem fieldInv_ofName {name : Name} (h : findParametersDigestComponent name ≠ .several)
    (function : Name) : FieldInv (ofName name function) :=
  ⟨h, by simp [ofName, defaultInterestLifetime], by simp [ofName, defaultInterestLifetime],
    by simp [BeginsWithParameters, ofName]⟩

/-! ### Setters -/

theorem keptBySetters_beginsWithParameters :
    KeptBySetters (fun t l => (-2 ^ 63 ≤ t ∧ t < 2 ^ 63) ∧ BeginsWithParameters l) fun _ => True where
  lifetime lifetime h _ := ⟨⟨lifetime.le_toInt, lifetime.toInt_lt⟩, h.2⟩
  nil h := ⟨h.1, by simp [BeginsWithParameters]⟩
  first h hb := ⟨h.1, by simpa [BeginsWithParameters] using hb⟩
  set {t l b type index} h _ htype hfind := by
    refine ⟨h.1, ?_⟩
    cases l with
    | nil => exact h.2
    | cons first rest =>
      have hfirst : (first.type == type) = false := by
        rw [h.2 first rfl, beq_eq_false_iff_ne]
        exact htype.symm
      rw [List.findIdx?_cons, hfirst, if_neg Bool.false_ne_true] at hfind
      obtain ⟨k, -, rfl⟩ := Option.map_eq_some_iff.mp hfind
      exact h.2
  insertIdx {t l b position} h _ hne hposition := by
    refine ⟨h.1, ?_⟩
    cases l with
    | nil => exact absurd rfl hne
    | cons first rest =>
      have hpos : 0 < position := by
        rcases hposition with hpos | rfl
        · exact hpos
        · cases hfind : rest.findIdx? fun c => c.type == Tlv.interestSignatureValue <;>
            simp [List.findIdx?_cons, h.2 first rfl, hfind]
      obtain ⟨k, rfl⟩ : ∃ k, position = k + 1 := ⟨position - 1, by omega⟩
      exact h.2

/-- The second object is the first, or a new one without encoding. -/
def Renews (i j : Object) : Prop :=
  j = i ∨ FieldInv j.toInterest ∧ j.wire = none

theorem Renews.fieldInv {j : Object} (h : Renews i j) (hi : FieldInv i.toInterest) :
    FieldInv j.toInterest := by
  rcases h with rfl | h
  · exact hi
  · exact h.1

end

theorem Renews.coherent {j : Object} (h : Renews i j) (hi : i.Coherent autoCheck) :
    j.Coherent autoCheck := by
  rcases h with rfl | ⟨-, hwire⟩
  · exact hi
  · intro wire hw
    rw [hwire] at hw
    cases hw

theorem renews_set (hi : FieldInv i.toInterest) {op : Op}
    (hop : ∀ info, op = .setSignatureInfo info → ∃ block, info.encodedBlock .interest = .ok block) :
    Renews i (after op.call i) := by
  refine (op.after_eq_or_renewed keptBySetters_beginsWithParameters hi.not_several
    ⟨⟨hi.lifetime_ge, hi.lifetime_lt⟩, hi.parameters⟩ (fun _ _ => trivial) fun info h =>
      (hop info h).imp fun _ hblock => ⟨hblock, trivial⟩).imp_right fun h => ?_
  obtain ⟨⟨hge, hlt⟩, hbegins⟩ := h.kept
  exact ⟨⟨h.not_several, hge, hlt, hbegins⟩, h.wire⟩

/-! ### The nonce and the Function -/

section

omit [Sha256]

theorem renews_getNonce (hi : FieldInv i.toInterest) (fresh : Nonce) :
    Renews i (after (getNonce fresh) i) := by
  rw [getNonce, after_get_bind]
  split
  · exact .inl rfl
  · exact .inr ⟨hi.congr rfl rfl rfl, rfl⟩

theorem renews_refreshNonce (hi : FieldInv i.toInterest) (fresh : Nonce → Nonce) :
    Renews i (after (refreshNonce fresh) i) := by
  rw [refreshNonce, after_modify]
  split
  · exact .inl rfl
  · exact .inr ⟨hi.congr rfl rfl rfl, rfl⟩

theorem renews_removeHeadFunction (hi : FieldInv i.toInterest) (env : Option Bool) :
    Renews i (after (removeHeadFunction env) i) := by
  rw [removeHeadFunction, after_get_bind]
  cases i.function.removeHead env with
  | error e => exact .inl rfl
  | ok function => exact .inr ⟨hi.congr rfl rfl rfl, rfl⟩

/-! ### Decoder and encoder -/

theorem FieldInv.reads {element : Block} {last last' : ℕ} {s s' : Object}
    (h : Reads element last s last' s')
    (hs : FieldInv s.toInterest ∧ (last < 8 → s.parameters = [])) :
    FieldInv s'.toInterest ∧ (last' < 8 → s'.parameters = []) := by
  obtain ⟨hinv, hnil⟩ := hs
  cases h with
  | canBePrefix | mustBeFresh
  | forwardingHint | nonce | hopLimit => exact ⟨hinv.congr rfl rfl rfl, fun _ => hnil (by omega)⟩
  | interestLifetime _ _ hcount =>
    obtain ⟨hle, hlt⟩ := Tlv.toMilliseconds_mem (Tlv.toNat_of_readNonNegativeInteger hcount).2
    exact ⟨⟨hinv.not_several, hle, hlt, hinv.parameters⟩, fun _ => hnil (by omega)⟩
  | applicationParameters htype hlast =>
    refine ⟨⟨hinv.not_several, hinv.lifetime_ge, hinv.lifetime_lt, ?_⟩, fun h => absurd h (by omega)⟩
    simpa [hnil hlast, BeginsWithParameters] using htype
  | outOfOrder => exact ⟨hinv, hnil⟩
  | other =>
    split
    next hparams =>
      have hne : s.parameters ≠ [] := by simpa [hasApplicationParameters] using hparams
      refine ⟨⟨hinv.not_several, hinv.lifetime_ge, hinv.lifetime_lt, ?_⟩,
        fun h => absurd (hnil h) hne⟩
      obtain ⟨first, rest, hl⟩ := List.exists_cons_of_ne_nil hne
      have hbegins := hinv.parameters
      simpa [hl, BeginsWithParameters] using hbegins
    next => exact ⟨hinv, hnil⟩

variable (elements : List Block)

theorem preserves_fieldInv_decodeName :
    Preserves (fun i : Object => FieldInv i.toInterest) (decodeName elements) := by
  cases elements with
  | nil => exact preserves_throw _
  | cons element rest =>
    rw [decodeName]
    split
    · exact preserves_throw _
    refine .bind (preserves_ofExcept _) fun name => ?_
    split
    · exact preserves_throw _
    split
    · exact preserves_throw _
    next hseveral =>
      refine .bind (preserves_modify fun i hi => ?_) fun _ => preserves_pure _
      exact ⟨hseveral, hi.lifetime_ge, hi.lifetime_lt, hi.parameters⟩

theorem preserves_fieldInv_decodeFunction :
    Preserves (fun i : Object => FieldInv i.toInterest) (decodeFunction elements) := by
  cases elements with
  | nil => exact preserves_throw _
  | cons element rest =>
    rw [decodeFunction]
    split
    · exact preserves_throw _
    · exact .bind (preserves_ofExcept _) fun name =>
        .bind (preserves_modify fun i hi => hi.congr rfl rfl rfl) fun _ =>
        preserves_pure _

end

theorem preserves_fieldInv_wireDecode (wire : PacketBlock) :
    Preserves (fun i : Object => FieldInv i.toInterest) (wireDecode autoCheck wire) := by
  rw [wireDecode]
  split
  · exact preserves_throw _
  refine .bind (preserves_modify fun i hi => hi.congr rfl rfl rfl) fun _ => ?_
  refine .bind (preserves_ofExcept _) fun elements => ?_
  refine .bind (preserves_fieldInv_decodeName _) fun elements => ?_
  refine .bind (preserves_fieldInv_decodeFunction _) fun elements => ?_
  intro i hi
  rw [after_modify_bind]
  -- from here on the parameters are those that the loop has read
  have hreset : FieldInv (resetFields i).toInterest :=
    (fieldInv_ofName hi.not_several i.function).congr rfl rfl rfl
  have hloop : FieldInv (after (decodeElements 1 elements) (resetFields i)).toInterest :=
    after_decodeElements_of (fun last s => FieldInv s.toInterest ∧ (last < 8 → s.parameters = []))
      (fun s => FieldInv s.toInterest) FieldInv.reads (fun _ hs => hs.1.congr rfl rfl rfl)
      ⟨hreset, fun _ => rfl⟩
  rw [after_bind_of_keeps]
  · exact hloop
  · exact fun _ => .bind keeps_get fun _ => .ite (keeps_throw _) (keeps_pure _)

theorem coherent_after_wireDecode_iff (hi : i.Coherent autoCheck) (wire : PacketBlock) :
    (after (wireDecode autoCheck wire) i).Coherent autoCheck ↔
      wire.type ≠ Tlv.interest ∨ wire.wire = none ∨ Decodable autoCheck wire := by
  by_cases htype : wire.type = Tlv.interest
  case neg =>
    rw [wireDecode, if_pos htype, after_throw]
    exact iff_of_true hi (.inl htype)
  have hwire : (after (wireDecode autoCheck wire) i).wire = wire.wire :=
    wire_after_wireDecode htype
  simp only [htype, ne_eq, not_true_eq_false, false_or]
  cases wire with
  | unencoded type elements =>
    refine iff_of_true (fun w hw => ?_) (.inl rfl)
    rw [hwire] at hw
    cases hw
  | encoded block =>
    constructor
    · intro h
      obtain ⟨e, he, -⟩ := h block hwire
      exact .inr ⟨e, he⟩
    · rintro (h | ⟨e, he⟩)
      · cases h
      · have hrun := overwrites_wireDecode (toExcept_eq_ok_iff.mp he) i
        rw [after_of_run_ok hrun] at hwire ⊢
        intro w hw
        rw [hwire] at hw
        cases hw
        exact ⟨e, he, rfl⟩

omit [Sha256] in
theorem encode_eq_ok_iff {i : Interest} (hseveral : findParametersDigestComponent i.name ≠ .several)
    {nonce : Nonce} {bytes : Bytes} : i.encode nonce = .ok bytes ↔
      (findParametersDigestComponent i.name = .absent ↔ i.parameters = []) ∧
        bytes = Tlv.encodeElement Tlv.interest (i.encodeValue nonce) := by
  unfold encode hasApplicationParameters
  cases hfind : findParametersDigestComponent i.name with
  | several => exact absurd hfind hseveral
  | absent | only index => cases i.parameters <;> simp [eq_comm]

theorem after_wireEncode_of_encodable (hwire : i.wire = none)
    (hseveral : findParametersDigestComponent i.name ≠ .several) {fresh : Nonce}
    (h : Encodable i.toInterest (i.nonce.getD fresh)) :
    after (wireEncode autoCheck fresh) i =
      after (wireDecode autoCheck (.encoded (.make Tlv.interest
        (i.encodeValue (i.nonce.getD fresh)) (by decide) (by decide) h.length_lt)))
        { i with nonce := some (i.nonce.getD fresh) } := by
  rw [wireEncode, after_get_bind, hwire]
  simp only [(encode_eq_ok_iff hseveral).mpr ⟨h.digest_iff, rfl⟩, ofExcept_ok_bind,
    after_modify_bind]
  rw [show Block.ofBytes _ = _ from
    Block.makeBinaryBlock_eq_make (by decide) (by decide) h.length_lt, ofExcept_ok_bind,
    after_bind_pure, hwire]

theorem renews_wireEncode_of_not_encodable (hi : FieldInv i.toInterest) (hwire : i.wire = none)
    {fresh : Nonce} (h : ¬ Encodable i.toInterest (i.nonce.getD fresh)) :
    Renews i (after (wireEncode autoCheck fresh) i) := by
  rw [wireEncode, after_get_bind, hwire]
  dsimp only
  cases hencode : i.encode (i.nonce.getD fresh) with
  | error e => exact .inl rfl
  | ok bytes =>
    obtain ⟨hdigest, rfl⟩ := (encode_eq_ok_iff hi.not_several).mp hencode
    rw [ofExcept_ok_bind, after_modify_bind]
    cases hblock : Block.ofBytes
        (Tlv.encodeElement Tlv.interest (i.encodeValue (i.nonce.getD fresh))) with
    | error e => exact .inr ⟨hi.congr rfl rfl rfl, hwire⟩
    | ok block =>
      have hlen := Block.length_lt_of_ofBytes_encodeElement (by decide) (by decide) hblock
      exact absurd ⟨hdigest, hlen⟩ h

theorem decodable_encoded_iff {k : Interest} (hk : FieldInv k) (nonce : Nonce)
    (hlen : (k.encodeValue nonce).length < 2 ^ 64) :
    Decodable autoCheck (.encoded (.make Tlv.interest (k.encodeValue nonce) (by decide) (by decide)
      hlen)) ↔ Readable autoCheck k := by
  have hrun := run_wireDecode_encoded_iff hk.lifetime_ge hk.lifetime_lt hk.not_several hk.parameters
    nonce hlen autoCheck default
  constructor
  · rintro ⟨j, hj⟩
    exact ((hrun j).mp (toExcept_eq_ok_iff.mp hj)).1
  · intro hread
    exact ⟨_, toExcept_eq_ok_iff.mpr ((hrun _).mpr ⟨hread, rfl⟩)⟩

theorem fieldInv_after_wireEncode (hi : FieldInv i.toInterest) (fresh : Nonce) :
    FieldInv (after (wireEncode autoCheck fresh) i).toInterest := by
  cases hwire : i.wire with
  | some wire =>
    rw [wireEncode, after_get_bind, hwire]
    exact hi
  | none =>
    by_cases h : Encodable i.toInterest (i.nonce.getD fresh)
    · rw [after_wireEncode_of_encodable hwire hi.not_several h]
      exact preserves_fieldInv_wireDecode _ _ (hi.congr rfl rfl rfl)
    · exact (renews_wireEncode_of_not_encodable hi hwire h).fieldInv hi

theorem coherent_after_wireEncode_iff (hinv : FieldInv i.toInterest) (hi : i.Coherent autoCheck)
    (fresh : Nonce) : (after (wireEncode autoCheck fresh) i).Coherent autoCheck ↔
      (i.wire = none → Encodable i.toInterest (i.nonce.getD fresh) →
        Readable autoCheck i.toInterest) := by
  cases hwire : i.wire with
  | some wire =>
    rw [wireEncode, after_get_bind, hwire]
    exact iff_of_true hi (by simp)
  | none =>
    by_cases h : Encodable i.toInterest (i.nonce.getD fresh)
    · have hnonce : Coherent autoCheck { i with nonce := some (i.nonce.getD fresh) } := by
        intro w hw
        rw [show i.wire = some w from hw] at hwire
        cases hwire
      rw [after_wireEncode_of_encodable hwire hinv.not_several h,
        coherent_after_wireDecode_iff hnonce, decodable_encoded_iff hinv]
      simp [PacketBlock.type, PacketBlock.wire, h]
    · refine iff_of_true ?_ fun _ henc => absurd henc h
      exact (renews_wireEncode_of_not_encodable hinv hwire h).coherent hi

/-! ### Runs -/

theorem FieldInv.step (hi : FieldInv i.toInterest) (op : CacheOp) :
    FieldInv (i.cacheStep autoCheck op).toInterest := by
  unfold cacheStep
  cases op with
  | removeHeadFunction env => exact (renews_removeHeadFunction hi env).fieldInv hi
  | refreshNonce fresh => exact (renews_refreshNonce hi fresh).fieldInv hi
  | wireDecode wire => exact preserves_fieldInv_wireDecode wire i hi
  | getNonce fresh =>
    rw [CacheOp.call, after_bind_pure]
    exact (renews_getNonce hi fresh).fieldInv hi
  | wireEncode fresh =>
    rw [CacheOp.call, after_bind_pure]
    exact fieldInv_after_wireEncode hi fresh
  | set op =>
    by_cases hop : ∀ info, op = .setSignatureInfo info →
        ∃ block, info.encodedBlock .interest = .ok block
    · exact (renews_set hi hop).fieldInv hi
    · simp only [not_forall] at hop
      obtain ⟨info, rfl, herror⟩ := hop
      rw [CacheOp.call, Op.call, after_setSignatureInfo_of_error herror]
      split
      · exact ⟨hi.not_several, hi.lifetime_ge, hi.lifetime_lt, fun b hb => by cases hb; rfl⟩
      · exact hi

theorem coherent_withEmptyParameters_iff (hi : i.Coherent autoCheck) (hnil : i.parameters = []) :
    i.withEmptyParameters.Coherent autoCheck ↔ i.wire = none := by
  constructor
  · intro h
    rw [Option.eq_none_iff_forall_ne_some]
    intro wire hwire
    obtain ⟨e, he, heq⟩ := h wire hwire
    obtain ⟨e', he', heq'⟩ := hi wire hwire
    rw [he] at he'
    cases he'
    have hparams := congrArg parameters (heq.symm.trans heq')
    rw [hnil] at hparams
    cases hparams
  · intro hwire w hw
    rw [show i.wire = some w from hw] at hwire
    cases hwire

theorem coherent_cacheStep_iff (hinv : FieldInv i.toInterest) (hi : i.Coherent autoCheck)
    (op : CacheOp) : (i.cacheStep autoCheck op).Coherent autoCheck ↔
      op.KeepsCoherence autoCheck i := by
  unfold cacheStep
  cases op with
  | removeHeadFunction env =>
    exact iff_of_true ((renews_removeHeadFunction hinv env).coherent hi) trivial
  | refreshNonce fresh => exact iff_of_true ((renews_refreshNonce hinv fresh).coherent hi) trivial
  | wireDecode wire => exact coherent_after_wireDecode_iff hi wire
  | getNonce fresh =>
    rw [CacheOp.call, after_bind_pure]
    exact iff_of_true ((renews_getNonce hinv fresh).coherent hi) trivial
  | wireEncode fresh =>
    rw [CacheOp.call, after_bind_pure]
    exact coherent_after_wireEncode_iff hinv hi fresh
  | set op =>
    by_cases hop : ∀ info, op = .setSignatureInfo info →
        ∃ block, info.encodedBlock .interest = .ok block
    · refine iff_of_true ((renews_set hinv hop).coherent hi) ?_
      cases op with
      | setSignatureInfo info => exact .inr (.inr (hop info rfl))
      | _ => trivial
    · simp only [not_forall] at hop
      obtain ⟨info, rfl, herror⟩ := hop
      rw [CacheOp.KeepsCoherence, CacheOp.call, Op.call, after_setSignatureInfo_of_error herror]
      split
      next hnil =>
        rw [← withEmptyParameters, coherent_withEmptyParameters_iff hi hnil]
        simp [hnil, herror]
      next hne => exact iff_of_true hi (.inr (.inl hne))

/-- In every run from a new Interest, a cached encoding is coherent in all states that are reached
exactly when each call of the run keeps it so. -/
theorem wire_coherent_throughout_iff (autoCheck : Bool) (ops : List CacheOp) :
    (∀ front, front <+: ops → (Run.run (cacheStep autoCheck) default front).Coherent autoCheck) ↔
      Run.Meets (cacheStep autoCheck) (CacheOp.KeepsCoherence autoCheck) default ops := by
  have hdefault : default.Coherent autoCheck := by
    intro wire h
    cases h
  exact Run.invariant_iff_meets_of (fun i : Object => FieldInv i.toInterest) (Coherent autoCheck)
    (fun _ op hi => hi.step op) (fun _ op hinv hi => coherent_cacheStep_iff hinv hi op)
    (fieldInv_ofName (by decide) []) hdefault

omit [Sha256] in
/-- Three ways to lose coherence: a packet that cannot be decoded is kept as the encoding, also one
just encoded without name, and a SignatureInfo that cannot be encoded leaves an
ApplicationParameters element. -/
theorem not_coherent_interest : ∃ _ : Sha256, ∃ (fresh : Nonce) (block : Block),
    ¬ (Run.run (cacheStep true) default [.wireEncode fresh]).Coherent true ∧
    ¬ (Run.run (cacheStep true) default [.wireDecode (.encoded block)]).Coherent true ∧
    ¬ (Run.run (cacheStep true) default [.set (.setName [.generic [65]]), .wireEncode fresh,
      .set (.setSignatureInfo .empty)]).Coherent true := by
  let _ := Sha256.constant
  let fresh : Nonce := ⟨[0, 0, 0, 0], rfl⟩
  let block := Block.make Tlv.interest [] (by decide) (by decide) (by decide)
  refine ⟨Sha256.constant, fresh, block, ?_, ?_, ?_⟩
  · intro h
    have hmeets := (coherent_cacheStep_iff (i := default) (fieldInv_ofName (by decide) [])
      (by intro w hw; cases hw) (.wireEncode fresh)).mp h
    exact (hmeets rfl ⟨by decide, by decide⟩).name_ne_nil rfl
  · intro h
    obtain ⟨e, he, -⟩ := h _ rfl
    cases he
  · intro h
    have hparameters : ((Run.run (cacheStep true) default [.set (.setName [.generic [65]]),
        .wireEncode fresh, .set (.setSignatureInfo .empty)]).wire.any fun wire =>
          (ofBlock true (.encoded wire)).toOption.all fun e => e.parameters.isEmpty) = true := by
      decide
    obtain ⟨wire, hwire, hall⟩ := (Option.any_eq_true _ _).mp hparameters
    obtain ⟨e, he, heq⟩ := h wire hwire
    rw [he, Except.toOption, Option.all_some, heq] at hall
    exact absurd hall (by decide)

end Object

end Interest

end NdnFc
