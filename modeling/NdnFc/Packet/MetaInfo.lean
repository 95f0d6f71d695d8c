import NdnFc.Name.Wire

/-!
# MetaInfo

The description of a Data packet's content (`ndn-cxx/meta-info.cpp`). The decoder reads ContentType,
FreshnessPeriod and FinalBlockId where they stand in this order, and keeps what follows as
application-defined elements.
-/

namespace NdnFc

open Method Block List

/-- The fields of a MetaInfo. The freshness period is in milliseconds. -/
structure MetaInfo where
  type : UInt32
  freshnessPeriod : ℤ
  finalBlockId : Option Component
  appMetaInfo : List Block
deriving DecidableEq

namespace MetaInfo

abbrev contentTypeBlob : UInt32 := 0

abbrev defaultFreshnessPeriod : ℤ := 0

def empty : MetaInfo where
  type := contentTypeBlob
  freshnessPeriod := defaultFreshnessPeriod
  finalBlockId := none
  appMetaInfo := []

def setType (type : UInt32) : EStateM String MetaInfo Unit :=
  modify ({ · with type })

def setFreshnessPeriod (freshnessPeriod : ℤ) : EStateM String MetaInfo Unit :=
  if freshnessPeriod < 0 then throw "FreshnessPeriod must be >= 0"
  else modify ({ · with freshnessPeriod })

def setFinalBlock (finalBlockId : Option Component) : EStateM String MetaInfo Unit :=
  modify ({ · with finalBlockId })

/-- The text for an application-defined element of a type outside the range for applications. -/
abbrev appMetaInfoError : String :=
  "AppMetaInfo block has type outside the application range [128, 252]"

/-- The types for application-defined elements. -/
def IsAppMetaInfo (block : Block) : Prop :=
  128 ≤ block.type ∧ block.type ≤ 252

instance (block : Block) : Decidable (IsAppMetaInfo block) :=
  inferInstanceAs (Decidable (_ ∧ _))

def setAppMetaInfo (info : List Block) : EStateM String MetaInfo Unit :=
  if ∀ block ∈ info, IsAppMetaInfo block then modify ({ · with appMetaInfo := info })
  else throw appMetaInfoError

def addAppMetaInfo (block : Block) : EStateM String MetaInfo Unit :=
  if IsAppMetaInfo block then modify fun m => { m with appMetaInfo := m.appMetaInfo ++ [block] }
  else throw appMetaInfoError

/-- `removeAppMetaInfo`: the first element of the type is erased. -/
def removeAppMetaInfo (tlvType : ℕ) : EStateM String MetaInfo Unit :=
  modify fun m => { m with appMetaInfo := m.appMetaInfo.eraseP fun block => block.type == tlvType }

/-- The sub-elements of an encoded MetaInfo. Fields with their default value are left out. -/
def encodeValue (m : MetaInfo) : Bytes :=
  (if m.type = contentTypeBlob then []
    else Tlv.encodeElement Tlv.contentType (Tlv.writeNonNegativeInteger m.type.toNat)) ++
  (if m.freshnessPeriod = defaultFreshnessPeriod then []
    else Tlv.encodeElement Tlv.freshnessPeriod
      (Tlv.writeNonNegativeInteger (Tlv.ofMilliseconds m.freshnessPeriod))) ++
  (match m.finalBlockId with
    | none => []
    | some c => Tlv.encodeElement Tlv.finalBlockId c.wireEncode) ++
  m.appMetaInfo.flatMap wire

def wireEncode (m : MetaInfo) : Bytes :=
  Tlv.encodeElement Tlv.metaInfo m.encodeValue

/-- The first element when it has the given type, and what follows it. -/
def takeElement (type : ℕ) : List Block → Option Block × List Block
  | [] => (none, [])
  | element :: rest => if element.type = type then (some element, rest) else (none, element :: rest)

/-- The part of `wireDecode` that reads ContentType. -/
def decodeContentType (elements : List Block) : EStateM String MetaInfo (List Block) :=
  match takeElement Tlv.contentType elements with
  | (some element, rest) => do
    let type ← Method.ofExcept (element.readNonNegativeIntegerAs (2 ^ 32 - 1))
    modify ({ · with type := UInt32.ofNat type })
    pure rest
  | (none, rest) => do
    modify ({ · with type := contentTypeBlob })
    pure rest

/-- The part of `wireDecode` that reads FreshnessPeriod. -/
def decodeFreshnessPeriod (elements : List Block) : EStateM String MetaInfo (List Block) :=
  match takeElement Tlv.freshnessPeriod elements with
  | (some element, rest) => do
    let count ← Method.ofExcept element.readNonNegativeInteger
    modify ({ · with freshnessPeriod := Tlv.toMilliseconds count })
    pure rest
  | (none, rest) => do
    modify ({ · with freshnessPeriod := defaultFreshnessPeriod })
    pure rest

/-- The part of `wireDecode` that reads FinalBlockId. The optional field is empty while its new
value is constructed. -/
def decodeFinalBlock (elements : List Block) : EStateM String MetaInfo (List Block) :=
  match takeElement Tlv.finalBlockId elements with
  | (some element, rest) => do
    let block ← Method.ofExcept element.blockFromValue
    modify ({ · with finalBlockId := none })
    let component ← Method.ofExcept (Component.ofBlockChecked block)
    modify ({ · with finalBlockId := some component })
    pure rest
  | (none, rest) => do
    modify ({ · with finalBlockId := none })
    pure rest

/-- `wireDecode`. The application-defined elements are added to those already there. -/
def wireDecode (wire : Block) : EStateM String MetaInfo Unit := do
  let elements ← Method.ofExcept (parse wire.value)
  let elements ← decodeContentType elements
  let elements ← decodeFreshnessPeriod elements
  let elements ← decodeFinalBlock elements
  modify fun m => { m with appMetaInfo := m.appMetaInfo ++ elements }

/-! ### Objects made with the setters -/

inductive Op where
  | setType (type : UInt32)
  | setFreshnessPeriod (freshnessPeriod : Int64)
  | setFinalBlock (finalBlockId : Option Component)
  | setAppMetaInfo (info : List Block)
  | addAppMetaInfo (block : Block)
  | removeAppMetaInfo (tlvType : ℕ)

def Op.call : Op → EStateM String MetaInfo Unit
  | setType type => MetaInfo.setType type
  | setFreshnessPeriod freshnessPeriod => MetaInfo.setFreshnessPeriod freshnessPeriod.toInt
  | setFinalBlock finalBlockId => MetaInfo.setFinalBlock finalBlockId
  | setAppMetaInfo info => MetaInfo.setAppMetaInfo info
  | addAppMetaInfo block => MetaInfo.addAppMetaInfo block
  | removeAppMetaInfo tlvType => MetaInfo.removeAppMetaInfo tlvType

/-- A MetaInfo that was made with the default constructor and calls of the setters that return. -/
inductive Built : MetaInfo → Prop
  | empty : Built empty
  | step {m m' : MetaInfo} {op : Op} : Built m → op.call.run m = .ok () m' → Built m'

/-- What the setters maintain: the freshness period is a non-negative 64-bit number, and the
application-defined elements are in their range. -/
structure WellFormed (m : MetaInfo) : Prop where
  freshnessPeriod_nonneg : 0 ≤ m.freshnessPeriod
  freshnessPeriod_lt : m.freshnessPeriod < 2 ^ 63
  appMetaInfo : ∀ block ∈ m.appMetaInfo, IsAppMetaInfo block

theorem wellFormed_empty : WellFormed .empty :=
  ⟨le_rfl, by decide, by simp [empty]⟩

variable {m : MetaInfo} {rest : List Block}

theorem WellFormed.setFreshnessPeriod {m' : MetaInfo} (hm : m.WellFormed) {freshnessPeriod : ℤ}
    (hlt : freshnessPeriod < 2 ^ 63)
    (h : (setFreshnessPeriod freshnessPeriod).run m = .ok () m') : m'.WellFormed := by
  unfold MetaInfo.setFreshnessPeriod at h
  split at h
  next => cases h
  next hneg =>
    cases h
    exact ⟨not_lt.mp hneg, hlt, hm.appMetaInfo⟩

theorem WellFormed.step {m' : MetaInfo} (hm : m.WellFormed) {op : Op}
    (h : op.call.run m = .ok () m') : m'.WellFormed := by
  cases op with
  | setType type =>
    cases h
    exact ⟨hm.1, hm.2, hm.3⟩
  | setFreshnessPeriod freshnessPeriod =>
    exact hm.setFreshnessPeriod freshnessPeriod.toInt_lt h
  | setFinalBlock finalBlockId =>
    cases h
    exact ⟨hm.1, hm.2, hm.3⟩
  | setAppMetaInfo info =>
    simp only [Op.call, setAppMetaInfo] at h
    split at h
    next hinfo =>
      cases h
      exact ⟨hm.1, hm.2, hinfo⟩
    next => cases h
  | addAppMetaInfo block =>
    simp only [Op.call, addAppMetaInfo] at h
    split at h
    next hblock =>
      cases h
      refine ⟨hm.1, hm.2, fun b hb => ?_⟩
      rcases mem_append.mp hb with hb | hb
      · exact hm.appMetaInfo b hb
      · rw [mem_singleton.mp hb]
        exact hblock
    next => cases h
  | removeAppMetaInfo tlvType =>
    cases h
    exact ⟨hm.1, hm.2, fun b hb => hm.appMetaInfo b (mem_of_mem_eraseP hb)⟩

theorem Built.wellFormed (h : m.Built) : m.WellFormed := by
  induction h with
  | empty => exact wellFormed_empty
  | step _ hcall ih => exact ih.step hcall

/-! ### Reading back what was encoded -/

def contentTypeBlocks (m : MetaInfo) : List Block :=
  if m.type = contentTypeBlob then []
  else [.make Tlv.contentType (Tlv.writeNonNegativeInteger m.type.toNat) (by decide) (by decide)
    ((Tlv.length_writeNonNegativeInteger_le _).trans_lt (by decide))]

def freshnessPeriodBlocks (m : MetaInfo) : List Block :=
  if m.freshnessPeriod = defaultFreshnessPeriod then []
  else [.make Tlv.freshnessPeriod
    (Tlv.writeNonNegativeInteger (Tlv.ofMilliseconds m.freshnessPeriod)) (by decide) (by decide)
    ((Tlv.length_writeNonNegativeInteger_le _).trans_lt (by decide))]

def finalBlock (c : Component) (h : c.wireEncode.length < 2 ^ 64) : Block :=
  .make Tlv.finalBlockId c.wireEncode (by decide) (by decide) h

theorem takeElement_of_head_ne {type : ℕ} {elements : List Block}
    (h : ∀ element ∈ elements.head?, element.type ≠ type) :
    takeElement type elements = (none, elements) := by
  cases elements with
  | nil => rfl
  | cons element rest => rw [takeElement, if_neg (h element rfl)]

theorem run_decodeContentType (m : MetaInfo)
    (h : m.type = contentTypeBlob → ∀ element ∈ rest.head?, element.type ≠ Tlv.contentType)
    (s : MetaInfo) :
    (decodeContentType (contentTypeBlocks m ++ rest)).run s =
      .ok rest { s with type := m.type } := by
  unfold contentTypeBlocks
  split
  next hdefault =>
    rw [nil_append, decodeContentType, takeElement_of_head_ne (h hdefault), hdefault]
    rfl
  next =>
    have hlt : m.type.toNat < 2 ^ 32 := m.type.toNat_lt
    have hread : readNonNegativeIntegerAs (.make Tlv.contentType
        (Tlv.writeNonNegativeInteger m.type.toNat) (by decide) (by decide)
        ((Tlv.length_writeNonNegativeInteger_le _).trans_lt (by decide))) (2 ^ 32 - 1) =
        .ok m.type.toNat := by
      rw [readNonNegativeIntegerAs, readNonNegativeInteger, value_make,
        Tlv.readNonNegativeInteger_write (by omega), Fallible.ok_bind, if_neg (by omega)]
      rfl
    rw [singleton_append, decodeContentType, takeElement, type_make, if_pos rfl]
    dsimp only
    rw [hread]
    change EStateM.Result.ok rest { s with type := UInt32.ofNat m.type.toNat } = _
    rw [UInt32.ofNat_toNat]

theorem run_decodeFreshnessPeriod (hle : -2 ^ 63 ≤ m.freshnessPeriod)
    (hlt : m.freshnessPeriod < 2 ^ 63)
    (h : m.freshnessPeriod = defaultFreshnessPeriod → ∀ element ∈ rest.head?, element.type ≠
      Tlv.freshnessPeriod) (s : MetaInfo) :
    (decodeFreshnessPeriod (freshnessPeriodBlocks m ++ rest)).run s =
      .ok rest { s with freshnessPeriod := m.freshnessPeriod } := by
  unfold freshnessPeriodBlocks
  split
  next hdefault =>
    rw [nil_append, decodeFreshnessPeriod, takeElement_of_head_ne (h hdefault), hdefault]
    rfl
  next =>
    rw [singleton_append, decodeFreshnessPeriod, takeElement, type_make, if_pos rfl]
    dsimp only
    rw [readNonNegativeInteger, value_make,
      Tlv.readNonNegativeInteger_write (Tlv.ofMilliseconds_lt m.freshnessPeriod)]
    conv_rhs => rw [← Tlv.toMilliseconds_ofMilliseconds hle hlt]
    rfl

theorem run_decodeFinalBlock_some {c : Component} (hc : c.Accepted)
    (hlen : c.wireEncode.length < 2 ^ 64) (rest : List Block) (s : MetaInfo) :
    (decodeFinalBlock (finalBlock c hlen :: rest)).run s =
      .ok rest { s with finalBlockId := some c } := by
  have hvalue : c.value.length < 2 ^ 64 := c.length_value_le_length_wireEncode.trans_lt hlen
  have hne : (finalBlock c hlen).value ≠ [] := (c.toBlock hvalue).wire_ne_nil
  have hblock : (finalBlock c hlen).blockFromValue = .ok (c.toBlock hvalue) := by
    rw [blockFromValue, if_neg hne]
    exact ofBytes_wire (c.toBlock hvalue)
  have hcomponent : Component.ofBlockChecked (c.toBlock hvalue) = .ok c := hc
  rw [decodeFinalBlock, takeElement, finalBlock, type_make, if_pos rfl]
  dsimp only
  rw [← finalBlock, hblock]
  refine run_ofExcept_bind_eq_ok_iff.mpr ⟨_, rfl, ?_⟩
  rw [run_modify_bind, hcomponent]
  rfl

def finalBlockIdBlocks (m : MetaInfo) (h : ∀ c, m.finalBlockId = some c → c.wireEncode.length < 2 ^ 64) :
    List Block :=
  match hm : m.finalBlockId with
  | none => []
  | some c => [finalBlock c (h c hm)]

/-- The first application-defined element is not taken for a field that is left out before it. -/
def Unambiguous (m : MetaInfo) : Prop :=
  ∀ element ∈ m.appMetaInfo.head?, m.finalBlockId = none →
    element.type ≠ Tlv.finalBlockId ∧ (m.freshnessPeriod = defaultFreshnessPeriod →
      element.type ≠ Tlv.freshnessPeriod ∧
        (m.type = contentTypeBlob → element.type ≠ Tlv.contentType))

theorem WellFormed.unambiguous (hm : m.WellFormed) : m.Unambiguous := by
  intro element helement _
  have hle := (hm.appMetaInfo element (mem_of_mem_head? helement)).1
  have hne : ∀ type, type < 128 → element.type ≠ type := fun type hlt => by omega
  exact ⟨hne _ (by decide), fun _ => ⟨hne _ (by decide), fun _ => hne _ (by decide)⟩⟩

theorem run_decodeFinalBlock (hm : m.Unambiguous)
    (haccepted : ∀ c, m.finalBlockId = some c → c.Accepted)
    (h : ∀ c, m.finalBlockId = some c → c.wireEncode.length < 2 ^ 64) (s : MetaInfo) :
    (decodeFinalBlock (finalBlockIdBlocks m h ++ m.appMetaInfo)).run s =
      .ok m.appMetaInfo { s with finalBlockId := m.finalBlockId } := by
  unfold finalBlockIdBlocks
  split
  next hnone =>
    rw [nil_append, decodeFinalBlock, takeElement_of_head_ne fun element helement =>
      (hm element helement hnone).1, hnone]
    rfl
  next c hsome =>
    rw [singleton_append, run_decodeFinalBlock_some (haccepted c hsome), hsome]

def blocks (m : MetaInfo) (h : ∀ c, m.finalBlockId = some c → c.wireEncode.length < 2 ^ 64) :
    List Block :=
  contentTypeBlocks m ++ (freshnessPeriodBlocks m ++ (finalBlockIdBlocks m h ++ m.appMetaInfo))

theorem flatMap_wire_blocks (m : MetaInfo)
    (h : ∀ c, m.finalBlockId = some c → c.wireEncode.length < 2 ^ 64) :
    (blocks m h).flatMap wire = m.encodeValue := by
  have hfinal : (finalBlockIdBlocks m h).flatMap wire =
      match m.finalBlockId with
      | none => []
      | some c => Tlv.encodeElement Tlv.finalBlockId c.wireEncode := by
    unfold finalBlockIdBlocks
    split
    next hnone => rw [hnone]; rfl
    next c hsome => simp [hsome, finalBlock]
  unfold blocks contentTypeBlocks freshnessPeriodBlocks encodeValue
  simp [apply_ite (flatMap wire), hfinal]

def toBlock (m : MetaInfo) (h : m.encodeValue.length < 2 ^ 64) : Block :=
  .make Tlv.metaInfo m.encodeValue (by decide) (by decide) h

variable {h : ∀ c, m.finalBlockId = some c → c.wireEncode.length < 2 ^ 64}

theorem Unambiguous.head_ne_freshnessPeriod (hm : m.Unambiguous)
    (hdefault : m.freshnessPeriod = defaultFreshnessPeriod) :
    ∀ element ∈ (finalBlockIdBlocks m h ++ m.appMetaInfo).head?,
      element.type ≠ Tlv.freshnessPeriod := by
  intro element helement
  unfold finalBlockIdBlocks at helement
  split at helement
  next hnone => exact ((hm element helement hnone).2 hdefault).1
  next =>
    cases helement
    exact (by decide : Tlv.finalBlockId ≠ Tlv.freshnessPeriod)

theorem Unambiguous.head_ne_contentType (hm : m.Unambiguous) (hdefault : m.type = contentTypeBlob) :
    ∀ element ∈ (freshnessPeriodBlocks m ++ (finalBlockIdBlocks m h ++ m.appMetaInfo)).head?,
      element.type ≠ Tlv.contentType := by
  intro element helement
  unfold freshnessPeriodBlocks finalBlockIdBlocks at helement
  split at helement
  next hfreshness =>
    split at helement
    next hnone => exact ((hm element helement hnone).2 hfreshness).2 hdefault
    next =>
      cases helement
      exact (by decide : Tlv.finalBlockId ≠ Tlv.contentType)
  next =>
    cases helement
    exact (by decide : Tlv.freshnessPeriod ≠ Tlv.contentType)

theorem length_finalBlockId_lt (hlen : m.encodeValue.length < 2 ^ 64) (c : Component)
    (hc : m.finalBlockId = some c) : c.wireEncode.length < 2 ^ 64 := by
  rw [encodeValue, hc] at hlen
  simp only [Tlv.encodeElement, length_append] at hlen
  omega

theorem parse_toBlock (hlen : m.encodeValue.length < 2 ^ 64) :
    parse (m.toBlock hlen).value = .ok (blocks m (length_finalBlockId_lt hlen)) := by
  rw [toBlock, value_make, ← flatMap_wire_blocks m (length_finalBlockId_lt hlen),
    parse_flatMap_wire]

theorem run_wireDecode_toBlock_of_unambiguous (hm : m.Unambiguous)
    (hle : -2 ^ 63 ≤ m.freshnessPeriod) (hlt : m.freshnessPeriod < 2 ^ 63)
    (haccepted : ∀ c, m.finalBlockId = some c → c.Accepted) (hlen : m.encodeValue.length < 2 ^ 64)
    (s : MetaInfo) :
    (wireDecode (m.toBlock hlen)).run s =
      .ok () { m with appMetaInfo := s.appMetaInfo ++ m.appMetaInfo } := by
  rw [wireDecode, parse_toBlock hlen]
  refine run_ofExcept_bind_eq_ok_iff.mpr ⟨_, rfl, ?_⟩
  refine run_bind_eq_ok_iff.mpr
    ⟨_, _, run_decodeContentType m hm.head_ne_contentType _, ?_⟩
  refine run_bind_eq_ok_iff.mpr
    ⟨_, _, run_decodeFreshnessPeriod hle hlt hm.head_ne_freshnessPeriod _, ?_⟩
  refine run_bind_eq_ok_iff.mpr ⟨_, _, run_decodeFinalBlock hm haccepted _ _, ?_⟩
  rfl

theorem run_wireDecode_toBlock (hm : m.WellFormed)
    (haccepted : ∀ c, m.finalBlockId = some c → c.Accepted) (hlen : m.encodeValue.length < 2 ^ 64) :
    (wireDecode (m.toBlock hlen)).run .empty = .ok () m :=
  run_wireDecode_toBlock_of_unambiguous hm.unambiguous
    (le_trans (by decide) hm.freshnessPeriod_nonneg) hm.freshnessPeriod_lt haccepted hlen .empty

end MetaInfo

end NdnFc
