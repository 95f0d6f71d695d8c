import NdnFc.Name.Uri
import NdnFc.Packet.Data
import NdnFc.Packet.InterestWire

/-!
# Function applications

A function application (`NDN-FC-skeleton/sfc_function.cpp`) asks upstream for the same content with
the head of the Function removed (`Interest::removeHeadFunction`, `ndn-cxx/interest.cpp`), applies
its program, and publishes the result with its own name in front of the Function of the Data. Names
are copied through their texts.
-/

namespace NdnFc

open List Method Fallible

/-- What becomes of a component that is written as text and read back, in the default format. -/
def Component.throughUri (env : Option Bool) (c : Component) : Except String Component :=
  fromEscapedString (c.toUri env .envOrAlternate)

namespace Name

/-- The first component is erased from a text, with the slash after it if there is one. -/
def eraseHead (str : List Char) : List Char :=
  str.take 1 ++ ((str.drop 1).dropWhile (· != '/')).drop 1

/-- The Function that `removeHeadFunction` sets. -/
def removeHead (env : Option Bool) (function : Name) : Except String Name :=
  let str := function.toUri env .envOrAlternate
  ofUri (if function.isEmpty then str else eraseHead str)

theorem eraseHead_intercalate {part : List Char} {parts : List (List Char)} (h : '/' ∉ part) :
    eraseHead ('/' :: ['/'].intercalate (part :: parts)) = '/' :: ['/'].intercalate parts := by
  have hpart : ∀ c ∈ part, (c != '/') = true := by
    intro c hc
    rw [bne_iff_ne]
    rintro rfl
    exact h hc
  have hdrop : ∀ text, (part ++ (['/'] ++ text)).dropWhile (· != '/') = '/' :: text := by
    intro text
    rw [dropWhile_append_of_pos hpart]
    rfl
  rw [eraseHead, take_succ_cons, take_zero, drop_succ_cons, drop_zero]
  cases parts with
  | nil =>
    have hnil : part.dropWhile (· != '/') = [] := dropWhile_eq_nil_iff.mpr hpart
    simp [hnil]
  | cons next parts =>
    rw [intercalate_cons_cons, append_assoc, hdrop]
    rfl

theorem removeHead_eq (env : Option Bool) (function : Name) :
    function.removeHead env = function.tail.mapM (Component.throughUri env) := by
  cases function with
  | nil => rfl
  | cons c function =>
    rw [removeHead, isEmpty_cons, if_neg (by decide), toUri_eq, map_cons,
      eraseHead_intercalate (c.slash_notMem_toUri env _),
      ofUri_cons_intercalate fun part hpart => toUri_parts hpart, mapM_map]
    rfl

theorem mapM_throughUri_eq_self_iff {env : Option Bool} {name : Name} :
    name.mapM (Component.throughUri env) = .ok name ↔
      ∀ c ∈ name, c.UriStable env .envOrAlternate := by
  rw [mapM_eq_ok_iff, forall₂_same]
  rfl

end Name

namespace Interest.Object

def removeHeadFunction (env : Option Bool) : EStateM String Object Unit := do
  let i ← get
  let function ← Method.ofExcept (i.function.removeHead env)
  setFunction function

/-- `refreshNonce`, where `fresh` is a nonce that differs from the old one. -/
def refreshNonce (fresh : Nonce → Nonce) : EStateM String Object Unit :=
  modify fun i =>
    match i.nonce with
    | none => i
    | some nonce => { i with nonce := some (fresh nonce), wire := none }

end Interest.Object

/-- `Component::fromSegment`, in the typed convention. -/
def Component.fromSegment (segment : ℕ) : Component :=
  ⟨Tlv.segmentNameComponent, Tlv.writeNonNegativeInteger segment, by decide, by decide⟩

namespace Sfc

/-! ### Segmentation -/

/-- `signatureSize`, `DEFAULT_KEY_LOCATOR_SIZE` and `DEFAULT_SAFETY_OFFSET` -/
def reservedSize : ℤ := 32 + 256 + 10

/-- `freeSpaceForContent`: a difference of unsigned sizes, converted to an `int`. -/
def freeSpaceForContent (maxSegmentSize bytesOccupied : ℕ) : ℤ :=
  ((maxSegmentSize : ℤ) - bytesOccupied - reservedSize).bmod (2 ^ 32)

/-- The parts of a file that are read into a buffer of the given size. The first argument bounds
their number. -/
def readParts (size : ℕ) : ℕ → Bytes → List Bytes
  | 0, _ => []
  | _, [] => []
  | fuel + 1, byte :: bytes =>
    (byte :: bytes).take size :: readParts size fuel ((byte :: bytes).drop size)

/-- The final block and the signature of a segment. -/
def finishSegment (signatureInfo : SignatureInfo) (signatureValue : Data → Bytes)
    (finalBlockId : Component) (data : Data) : Except String Data :=
  toExcept
    (do
      Data.setFinalBlock (some finalBlockId)
      Data.setSignatureInfo signatureInfo
      let signed ← get
      Data.setSignatureValue (some (signatureValue signed)))
    data

/-- The loops that `populateStore` of a producer and of a function application share. A negative
space for content gives no buffer. The source loops on an empty buffer, which counts as a failure
here. An empty file gives no segment. -/
def segmentFile (freeSpaceForContent : ℤ) (makeSegment : ℕ → Bytes → Except String Data)
    (finishSegment : Component → Data → Except String Data) (file : Bytes) :
    Except String (List Data) :=
  if freeSpaceForContent < 0 then throw "cannot create std::vector larger than max_size()"
  else if freeSpaceForContent = 0 then throw ""
  else do
    let parts := readParts freeSpaceForContent.toNat file.length file
    let segments ← parts.zipIdx.mapM fun part => makeSegment part.2 part.1
    segments.mapM (finishSegment (Component.fromSegment (segments.length - 1)))

structure Func.Options where
  freshnessPeriod : ℤ := 10000
  maxSegmentSize : ℕ := 2048
  isQuiet : Bool := false

/-- A function application: the name it is registered under, its options, the environment it runs in
and how it signs. -/
structure Func where
  funcName : Name
  options : Func.Options
  env : Option Bool
  signatureInfo : SignatureInfo
  signatureValue : Data → Bytes

namespace Func

/-- The Interest that `onInterest` expresses for the first segment. -/
def forwardInterest (f : Func) (fresh : Nonce → Nonce) (interest : Interest.Object) :
    Except String Interest.Object :=
  toExcept (do Interest.Object.removeHeadFunction f.env; Interest.Object.refreshNonce fresh)
    interest

/-- `funcname` of `populateStore`: the Function of the segments it makes. -/
def funcname (f : Func) (executedFunction : Name) : Except String Name := do
  let funcname ← Name.ofUri (f.funcName.toUri f.env .envOrAlternate)
  pure (funcname ++ executedFunction)

def makeSegment (f : Func) (name funcname : Name) (segment : ℕ) (part : Bytes) :
    Except String Data :=
  toExcept
    (do
      Data.setFunction funcname
      Data.setFreshnessPeriod f.options.freshnessPeriod
      Data.setContentValue (some part))
    (Data.create (name ++ [Component.fromSegment segment]))

/-- `populateStore` for the content name `name` and a file with the given bytes. -/
def populateStore (f : Func) (name : Name) (file : Bytes) (executedFunction : Name) :
    Except String (List Data) := do
  let funcname ← f.funcname executedFunction
  segmentFile
    (freeSpaceForContent f.options.maxSegmentSize
      (name.wireEncode.length + funcname.wireEncode.length))
    (f.makeSegment name funcname) (finishSegment f.signatureInfo f.signatureValue) file

/-! ### The names of the segments -/

theorem keeps_names_setMetaInfoField {α : Type} [DecidableEq α] (field : MetaInfo → α) (value : α)
    (setter : EStateM String MetaInfo Unit) :
    Keeps (fun d : Data => (d.name, d.function)) (Data.setMetaInfoField field value setter) := by
  refine keeps_get.bind fun d => Keeps.ite (keeps_pure _) ?_
  exact (keeps_zoom (by intros; rfl) setter).bind fun _ => keeps_modify (by intros; rfl)

theorem names_of_makeSegment {f : Func} {name funcname : Name} {segment : ℕ} {part : Bytes}
    {data : Data} (h : f.makeSegment name funcname segment part = .ok data) :
    (data.name, data.function) = (name ++ [Component.fromSegment segment], funcname) := by
  -- the Function is set first, and the other setters leave it alone
  have hkeeps : Keeps (fun d : Data => (d.name, d.function)) (do
      Data.setFreshnessPeriod f.options.freshnessPeriod
      Data.setContentValue (some part)) := by
    refine (keeps_names_setMetaInfoField _ _ _).bind fun _ => ?_
    exact (keeps_ofExcept _).bind fun _ => keeps_modify (by intros; rfl)
  exact hkeeps.of_toExcept h

theorem names_of_finishSegment {signatureInfo : SignatureInfo} {signatureValue : Data → Bytes}
    {finalBlockId : Component} {data data' : Data}
    (h : finishSegment signatureInfo signatureValue finalBlockId data = .ok data') :
    (data'.name, data'.function) = (data.name, data.function) := by
  have hkeeps : Keeps (fun d : Data => (d.name, d.function)) (do
      Data.setFinalBlock (some finalBlockId)
      Data.setSignatureInfo signatureInfo
      let signed ← get
      Data.setSignatureValue (some (signatureValue signed))) := by
    refine (keeps_names_setMetaInfoField _ _ _).bind fun _ => ?_
    refine (keeps_modify (by intros; rfl)).bind fun _ => keeps_get.bind fun signed => ?_
    exact (keeps_ofExcept _).bind fun _ => keeps_modify (by intros; rfl)
  exact hkeeps.of_toExcept h

theorem names_of_mem_populateStore {f : Func} {name : Name} {file : Bytes}
    {executedFunction : Name} {store : List Data}
    (h : f.populateStore name file executedFunction = .ok store) :
    ∃ label, f.funcname executedFunction = .ok label ∧ ∀ data ∈ store, data.function = label ∧
      ∃ segment, data.name = name ++ [Component.fromSegment segment] := by
  unfold populateStore at h
  obtain ⟨label, hlabel, h⟩ := bind_eq_ok_iff.mp h
  refine ⟨label, hlabel, fun data hdata => ?_⟩
  unfold segmentFile at h
  split_ifs at h
  obtain ⟨segments, hsegments, h⟩ := bind_eq_ok_iff.mp h
  obtain ⟨segment, hmem, hfinish⟩ := exists_of_mem_mapM h hdata
  obtain ⟨part, -, hmake⟩ := exists_of_mem_mapM hsegments hmem
  have hnames := (names_of_finishSegment hfinish).trans (names_of_makeSegment hmake)
  exact ⟨congrArg Prod.snd hnames, part.2, congrArg Prod.fst hnames⟩

theorem function_of_forwardInterest {f : Func} {fresh : Nonce → Nonce}
    {interest forwarded : Interest.Object}
    (h : f.forwardInterest fresh interest = .ok forwarded) :
    interest.function.removeHead f.env = .ok forwarded.function := by
  rw [forwardInterest, toExcept_eq_ok_iff, run_bind_eq_ok_iff] at h
  obtain ⟨_, i, hremove, hnonce⟩ := h
  rw [Interest.Object.removeHeadFunction, run_get_bind,
    run_ofExcept_bind_eq_ok_iff] at hremove
  obtain ⟨function, hfunction, hset⟩ := hremove
  cases hset
  cases hnonce
  rw [hfunction]
  dsimp only
  split <;> rfl

end Func

end Sfc

end NdnFc
