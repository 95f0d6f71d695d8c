import NdnFc.Packet.MetaInfo

/-!
# MetaInfo objects with their cached encoding

A `MetaInfo` object keeps its encoding (`ndn-cxx/meta-info.cpp`); the setters drop it. `wireDecode`
assigns ContentType, FreshnessPeriod and FinalBlockId, but adds the application-defined elements to
those that the object has.
-/

namespace NdnFc

namespace MetaInfo

open Method List

/-! ### What the decoder reads -/

def readContentType (elements : List Block) : Except String UInt32 :=
  match (takeElement Tlv.contentType elements).1 with
  | some element => do
    let type ← element.readNonNegativeIntegerAs (2 ^ 32 - 1)
    pure (UInt32.ofNat type)
  | none => pure contentTypeBlob

def readFreshnessPeriod (elements : List Block) : Except String ℤ :=
  match (takeElement Tlv.freshnessPeriod elements).1 with
  | some element => do
    let count ← element.readNonNegativeInteger
    pure (Tlv.toMilliseconds count)
  | none => pure defaultFreshnessPeriod

def readFinalBlock (elements : List Block) : Except String (Option Component) :=
  match (takeElement Tlv.finalBlockId elements).1 with
  | some element => do
    let block ← element.blockFromValue
    let component ← Component.ofBlockChecked block
    pure (some component)
  | none => pure none

variable {elements rest : List Block} {s t m : MetaInfo}

theorem run_decodeContentType_eq_ok_iff :
    (decodeContentType elements).run s = .ok rest t ↔
      ∃ type, readContentType elements = .ok type ∧
        rest = (takeElement Tlv.contentType elements).2 ∧ t = { s with type } := by
  unfold decodeContentType readContentType
  rcases takeElement Tlv.contentType elements with ⟨_ | element, rest'⟩
  · simp [eq_comm, -bind_pure_comp]
  · dsimp only
    cases element.readNonNegativeIntegerAs (2 ^ 32 - 1) <;>
      simp [eq_comm, -bind_pure_comp]

theorem run_decodeFreshnessPeriod_eq_ok_iff :
    (decodeFreshnessPeriod elements).run s = .ok rest t ↔
      ∃ freshnessPeriod, readFreshnessPeriod elements = .ok freshnessPeriod ∧
        rest = (takeElement Tlv.freshnessPeriod elements).2 ∧ t = { s with freshnessPeriod } := by
  unfold decodeFreshnessPeriod readFreshnessPeriod
  rcases takeElement Tlv.freshnessPeriod elements with ⟨_ | element, rest'⟩
  · simp [eq_comm, -bind_pure_comp]
  · dsimp only
    cases element.readNonNegativeInteger <;>
      simp [eq_comm, -bind_pure_comp]

theorem run_decodeFinalBlock_eq_ok_iff :
    (decodeFinalBlock elements).run s = .ok rest t ↔
      ∃ finalBlockId, readFinalBlock elements = .ok finalBlockId ∧
        rest = (takeElement Tlv.finalBlockId elements).2 ∧ t = { s with finalBlockId } := by
  unfold decodeFinalBlock readFinalBlock
  rcases takeElement Tlv.finalBlockId elements with ⟨_ | element, rest'⟩
  · simp [eq_comm, -bind_pure_comp]
  · dsimp only
    cases element.blockFromValue with
    | error e => simp
    | ok block =>
      cases hcomponent : Component.ofBlockChecked block <;>
        simp [hcomponent, eq_comm, -bind_pure_comp]

/-- The elements after the fields, which are kept as application-defined ones. -/
def afterFields (elements : List Block) : List Block :=
  (takeElement Tlv.finalBlockId (takeElement Tlv.freshnessPeriod
    (takeElement Tlv.contentType elements).2).2).2

/-- `wireDecode`, once the elements are there. -/
def decodeFields (elements : List Block) : EStateM String MetaInfo Unit := do
  let elements ← decodeContentType elements
  let elements ← decodeFreshnessPeriod elements
  let elements ← decodeFinalBlock elements
  modify fun m => { m with appMetaInfo := m.appMetaInfo ++ elements }

theorem wireDecode_eq (wire : Block) : wireDecode wire = (do
    let elements ← Method.ofExcept (Block.parse wire.value)
    decodeFields elements) := rfl

/-- What a new object reads from the elements. -/
structure Reads (elements : List Block) (m : MetaInfo) : Prop where
  type : readContentType elements = .ok m.type
  freshnessPeriod :
    readFreshnessPeriod (takeElement Tlv.contentType elements).2 = .ok m.freshnessPeriod
  finalBlockId : readFinalBlock (takeElement Tlv.freshnessPeriod
    (takeElement Tlv.contentType elements).2).2 = .ok m.finalBlockId
  appMetaInfo : m.appMetaInfo = afterFields elements

theorem run_decodeFields_eq_ok_iff : (decodeFields elements).run s = .ok () t ↔
    ∃ m, Reads elements m ∧ t = { m with appMetaInfo := s.appMetaInfo ++ m.appMetaInfo } := by
  simp only [decodeFields, run_bind_eq_ok_iff, run_decodeContentType_eq_ok_iff,
    run_decodeFreshnessPeriod_eq_ok_iff, run_decodeFinalBlock_eq_ok_iff]
  constructor
  · rintro ⟨_, _, ⟨type, htype, rfl, rfl⟩, _, _, ⟨period, hperiod, rfl, rfl⟩, _, _,
      ⟨final, hfinal, rfl, rfl⟩, h⟩
    cases h
    exact ⟨⟨type, period, final, afterFields elements⟩, ⟨htype, hperiod, hfinal, rfl⟩, rfl⟩
  · rintro ⟨m, hm, rfl⟩
    refine ⟨_, _, ⟨m.type, hm.type, rfl, rfl⟩, _, _, ⟨m.freshnessPeriod, hm.freshnessPeriod, rfl,
      rfl⟩, _, _, ⟨m.finalBlockId, hm.finalBlockId, rfl, rfl⟩, ?_⟩
    rw [hm.appMetaInfo]
    rfl

theorem Reads.unique {m' : MetaInfo} (h : Reads elements m) (h' : Reads elements m') : m = m' := by
  have htype := h.type.symm.trans h'.type
  have hperiod := h.freshnessPeriod.symm.trans h'.freshnessPeriod
  have hfinal := h.finalBlockId.symm.trans h'.finalBlockId
  have happ := h.appMetaInfo.trans h'.appMetaInfo.symm
  cases m
  cases m'
  simp_all

theorem Reads.accepted (h : Reads elements m) (c : Component) (hc : m.finalBlockId = some c) :
    c.Accepted := by
  have hfinal := h.finalBlockId
  rw [hc, readFinalBlock] at hfinal
  split at hfinal
  · obtain ⟨block, -, hfinal⟩ := Fallible.bind_eq_ok_iff.mp hfinal
    obtain ⟨c', hcreate, hfinal⟩ := Fallible.bind_eq_ok_iff.mp hfinal
    cases hfinal
    obtain ⟨htype, hvalue, hle, hcheck⟩ := Component.create_eq_ok_iff.mp hcreate
    exact Component.accepted_iff.mpr ⟨htype ▸ hle, by rw [htype, hvalue, hcheck]⟩
  · cases hfinal

theorem Reads.inRange (h : Reads elements m) :
    -2 ^ 63 ≤ m.freshnessPeriod ∧ m.freshnessPeriod < 2 ^ 63 := by
  have hperiod := h.freshnessPeriod
  rw [readFreshnessPeriod] at hperiod
  split at hperiod
  · obtain ⟨count, hcount, hperiod⟩ := Fallible.bind_eq_ok_iff.mp hperiod
    have hlt := (Tlv.toNat_of_readNonNegativeInteger hcount).2
    rw [← Except.ok.inj hperiod, Tlv.toMilliseconds]
    split <;> omega
  · rw [← Except.ok.inj hperiod]
    decide

theorem takeElement_suffix (type : ℕ) (elements : List Block) :
    (takeElement type elements).2 <:+ elements := by
  unfold takeElement
  split
  · exact suffix_rfl
  · split
    · exact suffix_cons _ _
    · exact suffix_rfl

theorem takeElement_snd_eq_iff {type : ℕ} :
    (takeElement type elements).2 = elements ↔ ∀ e ∈ elements.head?, e.type ≠ type := by
  cases elements with
  | nil => simp [takeElement]
  | cons e es =>
    rw [takeElement]
    split <;> simp [*]

theorem takeElement_snd_eq_iff_of_suffix {type : ℕ} {front : List Block}
    (h : front <:+ elements) : (takeElement type front).2 = elements ↔
      front = elements ∧ ∀ e ∈ elements.head?, e.type ≠ type := by
  constructor
  · intro heq
    have hfront : front = elements :=
      h.eq_of_length_le (heq ▸ (takeElement_suffix type front).length_le)
    rw [hfront] at heq
    exact ⟨hfront, takeElement_snd_eq_iff.mp heq⟩
  · rintro ⟨rfl, hne⟩
    exact takeElement_snd_eq_iff.mpr hne

theorem takeElement_contentTypeBlocks (m : MetaInfo) (rest : List Block) :
    (takeElement Tlv.contentType (contentTypeBlocks m ++ rest)).2 =
      if m.type = contentTypeBlob then (takeElement Tlv.contentType rest).2 else rest := by
  unfold contentTypeBlocks
  split
  · rfl
  · rw [singleton_append, takeElement, Block.type_make, if_pos rfl]

theorem takeElement_freshnessPeriodBlocks (m : MetaInfo) (rest : List Block) :
    (takeElement Tlv.freshnessPeriod (freshnessPeriodBlocks m ++ rest)).2 =
      if m.freshnessPeriod = defaultFreshnessPeriod then (takeElement Tlv.freshnessPeriod rest).2
      else rest := by
  unfold freshnessPeriodBlocks
  split
  · rfl
  · rw [singleton_append, takeElement, Block.type_make, if_pos rfl]

theorem afterFields_blocks_eq_iff (m : MetaInfo)
    (h : ∀ c, m.finalBlockId = some c → c.wireEncode.length < 2 ^ 64) :
    afterFields (blocks m h) = m.appMetaInfo ↔ m.Unambiguous := by
  rw [afterFields, blocks, takeElement_contentTypeBlocks]
  constructor
  · intro hafter e he hnone
    have hfinal : finalBlockIdBlocks m h ++ m.appMetaInfo = m.appMetaInfo := by
      unfold finalBlockIdBlocks
      split
      · rfl
      · simp_all
    rw [hfinal] at hafter
    by_cases hperiod : m.freshnessPeriod = defaultFreshnessPeriod
    · have hblocks : freshnessPeriodBlocks m = [] := if_pos hperiod
      rw [hblocks, nil_append] at hafter
      -- what is read before is taken from the application-defined elements
      have hfront : (if m.type = contentTypeBlob then
          (takeElement Tlv.contentType m.appMetaInfo).2 else m.appMetaInfo) <:+ m.appMetaInfo := by
        split
        · exact takeElement_suffix _ _
        · exact suffix_rfl
      obtain ⟨hafter, hfinalBlock⟩ := (takeElement_snd_eq_iff_of_suffix
        ((takeElement_suffix _ _).trans hfront)).mp hafter
      obtain ⟨hafter, hfreshness⟩ := (takeElement_snd_eq_iff_of_suffix hfront).mp hafter
      refine ⟨hfinalBlock e he, fun _ => ⟨hfreshness e he, fun htype => ?_⟩⟩
      rw [if_pos htype] at hafter
      exact takeElement_snd_eq_iff.mp hafter e he
    · have hhead : (takeElement Tlv.contentType (freshnessPeriodBlocks m ++ m.appMetaInfo)).2 =
          freshnessPeriodBlocks m ++ m.appMetaInfo := by
        refine takeElement_snd_eq_iff.mpr fun element helement => ?_
        rw [freshnessPeriodBlocks, if_neg hperiod] at helement
        cases helement
        exact (by decide : Tlv.freshnessPeriod ≠ Tlv.contentType)
      rw [hhead, ite_self, takeElement_freshnessPeriodBlocks, if_neg hperiod] at hafter
      exact ⟨takeElement_snd_eq_iff.mp hafter e he, fun hdefault => absurd hdefault hperiod⟩
  · intro hm
    rw [ite_eq_right_iff.mpr fun hdefault =>
        takeElement_snd_eq_iff.mpr (hm.head_ne_contentType hdefault),
      takeElement_freshnessPeriodBlocks, ite_eq_right_iff.mpr fun hdefault =>
        takeElement_snd_eq_iff.mpr (hm.head_ne_freshnessPeriod hdefault)]
    unfold finalBlockIdBlocks
    split
    next hnone => exact takeElement_snd_eq_iff.mpr fun e he => (hm e he hnone).1
    next => rw [singleton_append, takeElement, finalBlock, Block.type_make, if_pos rfl]

theorem reads_blocks_iff {m : MetaInfo} (hrange : -2 ^ 63 ≤ m.freshnessPeriod ∧
    m.freshnessPeriod < 2 ^ 63) (hlen : m.encodeValue.length < 2 ^ 64) :
    Reads (blocks m (length_finalBlockId_lt hlen)) m ↔
      (∀ c, m.finalBlockId = some c → c.Accepted) ∧ m.Unambiguous := by
  constructor
  · intro h
    exact ⟨h.accepted, (afterFields_blocks_eq_iff m _).mp h.appMetaInfo.symm⟩
  · rintro ⟨haccepted, hm⟩
    have hrun := run_wireDecode_toBlock_of_unambiguous hm hrange.1 hrange.2 haccepted hlen .empty
    obtain ⟨elements, hparse, hrun⟩ := run_ofExcept_bind_eq_ok_iff.mp hrun
    rw [parse_toBlock hlen] at hparse
    cases hparse
    obtain ⟨r, hr, heq⟩ := run_decodeFields_eq_ok_iff.mp hrun
    have heq : m = r := heq
    exact heq ▸ hr

/-! ### Objects -/

/-- The fields and the cached encoding. -/
structure Object extends MetaInfo where
  wire : Option Block

namespace Object

def create : Object :=
  ⟨.empty, none⟩

/-- The setters drop the encoding when they return, except when there is no element to remove. -/
def dropsWire (m : Object) : Op → Bool
  | .removeAppMetaInfo tlvType => m.appMetaInfo.any fun block => block.type == tlvType
  | _ => true

/-- A call of a setter. -/
def set (op : Op) : EStateM String Object Unit := do
  let m ← get
  Method.zoom toMetaInfo (fun fields m => { m with toMetaInfo := fields }) op.call
  if m.dropsWire op then modify ({ · with wire := none })

def wireEncode : EStateM String Object Block := do
  match (← get).wire with
  | some wire => pure wire
  | none =>
    let wire ← Method.ofExcept (Block.makeBinaryBlock Tlv.metaInfo (← get).encodeValue)
    modify ({ · with wire := some wire })
    pure wire

def wireDecode (wire : PacketBlock) : EStateM String Object Unit := do
  modify ({ · with wire := wire.wire })
  let elements ← Method.ofExcept wire.parse
  Method.zoom toMetaInfo (fun fields m => { m with toMetaInfo := fields })
    (decodeFields elements)

variable {m' : Object} {m : Object} {wire : PacketBlock}

theorem run_wireDecode_eq_ok_iff :
    (wireDecode wire).run m = .ok () m' ↔ ∃ elements r, wire.parse = .ok elements ∧
      Reads elements r ∧
      m' = ⟨{ r with appMetaInfo := m.appMetaInfo ++ r.appMetaInfo }, wire.wire⟩ := by
  rw [wireDecode, run_modify_bind, run_ofExcept_bind_eq_ok_iff]
  simp only [run_zoom_eq_ok_iff, run_decodeFields_eq_ok_iff]
  constructor
  · rintro ⟨elements, hparse, _, ⟨r, hr, rfl⟩, rfl⟩
    exact ⟨elements, r, hparse, hr, rfl⟩
  · rintro ⟨elements, r, hparse, hr, rfl⟩
    exact ⟨elements, hparse, _, ⟨r, hr, rfl⟩, rfl⟩

/-- The calls that change an object or its cache and return. -/
inductive Call where
  | set (op : Op)
  | wireEncode
  | wireDecode (wire : PacketBlock)

def Call.run : Call → EStateM String Object Unit
  | set op => Object.set op
  | wireEncode => do let _ ← Object.wireEncode
  | wireDecode wire => Object.wireDecode wire

/-- The objects that calls make which return. A setter that throws changes nothing. -/
inductive Reachable : Object → Prop
  | create : Reachable .create
  | call {m m' : Object} {call : Call} : Reachable m → call.run.run m = .ok () m' → Reachable m'

/-- What calls maintain: the freshness period is a signed 64-bit number, and a cached encoding is one
that the object was decoded from or the encoding of its fields. -/
structure Inv (m : Object) : Prop where
  inRange : -2 ^ 63 ≤ m.freshnessPeriod ∧ m.freshnessPeriod < 2 ^ 63
  wire : ∀ wire, m.wire = some wire →
    (∃ elements r front, Block.parse wire.value = .ok elements ∧ Reads elements r ∧
      m.toMetaInfo = { r with appMetaInfo := front ++ r.appMetaInfo }) ∨
    Block.makeBinaryBlock Tlv.metaInfo m.encodeValue = .ok wire

theorem inv_create : Inv .create :=
  ⟨by decide, by simp [create]⟩

theorem inRange_of_call {m m' : MetaInfo} {op : Op} (h : op.call.run m = .ok () m')
    (hm : -2 ^ 63 ≤ m.freshnessPeriod ∧ m.freshnessPeriod < 2 ^ 63) :
    -2 ^ 63 ≤ m'.freshnessPeriod ∧ m'.freshnessPeriod < 2 ^ 63 := by
  cases op with
  | setFreshnessPeriod freshnessPeriod =>
    obtain ⟨hneg, h⟩ := run_ite_throw_eq_ok_iff.mp h
    cases h
    exact ⟨le_trans (by decide) (not_lt.mp hneg), freshnessPeriod.toInt_lt⟩
  | setAppMetaInfo info =>
    simp only [Op.call, setAppMetaInfo] at h
    split at h
    · cases h
      exact hm
    · cases h
  | addAppMetaInfo block =>
    simp only [Op.call, addAppMetaInfo] at h
    split at h
    · cases h
      exact hm
    · cases h
  | setType type | setFinalBlock finalBlockId | removeAppMetaInfo tlvType =>
    cases h
    exact hm

theorem Inv.set (hm : m.Inv) {op : Op} (h : (set op).run m = .ok () m') : m'.Inv := by
  rw [Object.set, run_get_bind] at h
  obtain ⟨_, _, hzoom, h⟩ := run_bind_eq_ok_iff.mp h
  obtain ⟨fields, hcall, rfl⟩ := run_zoom_eq_ok_iff.mp hzoom
  have hrange := inRange_of_call hcall hm.inRange
  split at h
  next =>
    cases h
    exact ⟨hrange, by simp⟩
  next hkeeps =>
    cases h
    -- there was nothing to remove
    cases op with
    | removeAppMetaInfo tlvType =>
      cases hcall
      have hsame : m.appMetaInfo.eraseP (fun block => block.type == tlvType) = m.appMetaInfo :=
        eraseP_of_forall_not (by simpa [dropsWire] using hkeeps)
      have heq : ({ m with appMetaInfo :=
          m.appMetaInfo.eraseP fun block => block.type == tlvType } : Object) = m := by
        rw [hsame]
      exact heq.symm ▸ hm
    | _ => exact absurd rfl hkeeps

theorem Inv.wireEncode (hm : m.Inv) {wire : Block} (h : wireEncode.run m = .ok wire m') :
    m'.Inv := by
  rw [Object.wireEncode, run_get_bind] at h
  split at h
  · cases h
    exact hm
  · rw [run_get_bind] at h
    obtain ⟨wire', hwire, h⟩ := run_ofExcept_bind_eq_ok_iff.mp h
    cases h
    refine ⟨hm.inRange, fun w hw => .inr ?_⟩
    cases hw
    exact hwire

theorem inv_of_wireDecode (h : (wireDecode wire).run m = .ok () m') : m'.Inv := by
  obtain ⟨elements, r, hparse, hr, rfl⟩ := run_wireDecode_eq_ok_iff.mp h
  refine ⟨hr.inRange, fun w hw => .inl ?_⟩
  cases wire with
  | encoded block =>
    cases hw
    exact ⟨elements, r, m.appMetaInfo, hparse, hr, rfl⟩
  | unencoded type elements => cases hw

theorem Reachable.inv (h : m.Reachable) : m.Inv := by
  induction h with
  | create => exact inv_create
  | @call m m' call _ hcall ih =>
    cases call with
    | set op => exact ih.set hcall
    | wireEncode =>
      obtain ⟨_, _, hencode, h⟩ := run_bind_eq_ok_iff.mp hcall
      cases h
      exact ih.wireEncode hencode
    | wireDecode wire => exact inv_of_wireDecode hcall

/-! ### The codec -/

/-- After a decoding that returns, nothing of the previous object is left: a new object would have
become the same. -/
def DependsOnWire (t : Object) : Prop :=
  ∀ wire t', (wireDecode wire).run t = .ok () t' →
    (wireDecode wire).run .create = .ok () t'

/-- The encoding of the first object is decoded into the second, which then has its fields. -/
def RoundTrips (m t : Object) : Prop :=
  ∃ wire m' t', wireEncode.run m = .ok wire m' ∧
    (wireDecode (.encoded wire)).run t = .ok () t' ∧ t'.toMetaInfo = m.toMetaInfo

/-- The application-defined elements are those that a decoder finds in the encoding. -/
def OwnElements (m : Object) : Prop :=
  match m.wire with
  | some wire => ∀ elements, Block.parse wire.value = .ok elements →
      m.appMetaInfo = afterFields elements
  | none => m.Unambiguous

theorem dependsOnWire_iff {t : Object} : t.DependsOnWire ↔ t.appMetaInfo = [] := by
  constructor
  · intro h
    -- an element without sub-elements
    have hreads : Reads [] .empty := ⟨rfl, rfl, rfl, rfl⟩
    have hrun := h (.unencoded Tlv.metaInfo []) _
      (run_wireDecode_eq_ok_iff.mpr ⟨[], .empty, rfl, hreads, rfl⟩)
    obtain ⟨elements, r, hparse, hr, heq⟩ := run_wireDecode_eq_ok_iff.mp hrun
    cases hparse
    obtain rfl := hr.unique hreads
    have happ := congrArg (fun m : Object => m.appMetaInfo) heq
    simpa [create, empty] using happ
  · intro happ wire t' h
    obtain ⟨elements, r, hparse, hr, rfl⟩ := run_wireDecode_eq_ok_iff.mp h
    refine run_wireDecode_eq_ok_iff.mpr ⟨elements, r, hparse, hr, ?_⟩
    rw [happ]
    rfl

theorem run_wireEncode (m : Object) (hlen : m.encodeValue.length < 2 ^ 64) : ∃ wire m',
    wireEncode.run m = .ok wire m' ∧
      (m.wire = some wire ∨ m.wire = none ∧ wire = m.toBlock hlen) := by
  have hmake := Block.makeBinaryBlock_eq_make (by decide : 0 < Tlv.metaInfo) (by decide) hlen
  unfold wireEncode
  rw [run_get_bind]
  split
  next wire hwire => exact ⟨wire, m, rfl, .inl hwire⟩
  next hnone =>
    rw [run_get_bind, hmake]
    exact ⟨_, _, rfl, .inr ⟨hnone, rfl⟩⟩

theorem roundTrips_iff_reads {m t : Object} {wire : Block}
    (hwire : wireEncode.run m = .ok wire m') (ht : t.appMetaInfo = []) :
    RoundTrips m t ↔ ∃ elements, Block.parse wire.value = .ok elements ∧
      Reads elements m.toMetaInfo := by
  constructor
  · rintro ⟨wire', _, t', hwire', h, heq⟩
    rw [hwire] at hwire'
    cases hwire'
    obtain ⟨elements, r, hparse, hr, rfl⟩ := run_wireDecode_eq_ok_iff.mp h
    rw [ht] at heq
    have heq : r = m.toMetaInfo := heq
    exact ⟨elements, hparse, heq ▸ hr⟩
  · rintro ⟨elements, hparse, hreads⟩
    refine ⟨wire, m', _, hwire, run_wireDecode_eq_ok_iff.mpr ⟨elements, _, hparse, hreads, rfl⟩, ?_⟩
    rw [ht]
    rfl

theorem roundTrips_iff {m t : Object} (hm : m.Inv) (hlen : m.encodeValue.length < 2 ^ 64)
    (ht : t.appMetaInfo = []) :
    RoundTrips m t ↔ (∀ c, m.finalBlockId = some c → c.Accepted) ∧ m.OwnElements := by
  obtain ⟨wire, m', hencode, hcases⟩ := run_wireEncode m hlen
  rw [roundTrips_iff_reads hencode ht, OwnElements]
  rcases hcases with hcached | ⟨hnone, rfl⟩
  · rw [hcached]
    rcases hm.wire wire hcached with ⟨elements, r, front, hparse, hr, hfields⟩ | hmake
    · simp only [hparse, Except.ok.injEq, exists_eq_left', forall_eq']
      refine ⟨fun h => ⟨h.accepted, h.appMetaInfo⟩, ?_⟩
      rintro ⟨-, happ⟩
      rw [hfields] at happ ⊢
      exact ⟨hr.type, hr.freshnessPeriod, hr.finalBlockId, happ⟩
    · rw [Block.makeBinaryBlock_eq_make (by decide) (by decide) hlen] at hmake
      obtain rfl : m.toBlock hlen = wire := Except.ok.inj hmake
      simp only [parse_toBlock hlen, Except.ok.injEq, exists_eq_left', forall_eq']
      rw [reads_blocks_iff hm.inRange hlen, eq_comm, afterFields_blocks_eq_iff]
  · rw [hnone, parse_toBlock hlen, ← reads_blocks_iff hm.inRange hlen]
    simp

/-- For every object that calls make, decoded into another from its encoding: the second gets the
fields of the first and nothing of it survives exactly when it has no application-defined elements,
the final block is accepted, and the application-defined elements of the first are those of its
encoding. -/
theorem codec_iff {m : Object} (hm : m.Reachable) (hlen : m.encodeValue.length < 2 ^ 64)
    (t : Object) : t.DependsOnWire ∧ RoundTrips m t ↔
      t.appMetaInfo = [] ∧ (∀ c, m.finalBlockId = some c → c.Accepted) ∧ m.OwnElements := by
  rw [dependsOnWire_iff]
  exact and_congr_right fun ht => roundTrips_iff hm.inv hlen ht

/-- An application-defined element without value. -/
def sampleElement : Block :=
  .makeEmptyBlock 200 (by decide) (by decide)

def sampleObject : Object :=
  ⟨{ empty with appMetaInfo := [sampleElement] }, none⟩

theorem reachable_sampleObject : sampleObject.Reachable := by
  have h : (Call.set (.addAppMetaInfo sampleElement)).run.run .create = .ok () sampleObject := by rfl
  exact .call .create h

/-- Decoding into the object keeps its element, and decoding its own encoding doubles the element. -/
theorem not_codec_sampleObject : ¬ sampleObject.DependsOnWire ∧
    ¬ RoundTrips sampleObject sampleObject := by
  refine ⟨fun h => absurd (dependsOnWire_iff.mp h) (by decide), ?_⟩
  rintro ⟨wire, m', t', hencode, hdecode, heq⟩
  cases hencode
  cases hdecode
  exact absurd heq (by decide)

/-- Into a new object it is decoded. -/
theorem codec_create : DependsOnWire .create ∧ RoundTrips sampleObject .create :=
  (codec_iff reachable_sampleObject (by decide) .create).mpr
    ⟨rfl, by simp [sampleObject, empty], by
      rintro element helement -
      cases helement
      decide⟩

end Object

end MetaInfo

end NdnFc
