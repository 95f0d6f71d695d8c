import NdnFc.Sfc.Func

/-!
# Producers and the segments they publish

A producer (`NDN-FC-skeleton/sfc_producer.cpp`, lines 78 to 153) cuts a file into segments as a
function application does, but without a Function.
-/

namespace NdnFc

namespace Sfc

open List Method Fallible

structure Producer.Options where
  freshnessPeriod : ℤ := 10000
  maxSegmentSize : ℕ := 2048

/-- A producer: its options and how it signs. -/
structure Producer where
  options : Producer.Options
  signatureInfo : SignatureInfo
  signatureValue : Data → Bytes

namespace Producer

def makeSegment (p : Producer) (name : Name) (segment : ℕ) (part : Bytes) : Except String Data :=
  Method.toExcept
    (do
      Data.setFreshnessPeriod p.options.freshnessPeriod
      Data.setContentValue (some part))
    (Data.create (name ++ [Component.fromSegment segment]))

/-- `populateStore` for the content name `name` and a file with the given bytes. -/
def populateStore (p : Producer) (name : Name) (file : Bytes) : Except String (List Data) :=
  segmentFile (freeSpaceForContent p.options.maxSegmentSize name.wireEncode.length)
    (p.makeSegment name) (finishSegment p.signatureInfo p.signatureValue) file

end Producer

/-! ### The parts of a file -/

variable {size : ℕ}

theorem flatten_readParts (hsize : 0 < size) (fuel : ℕ) (file : Bytes) (hfuel : file.length ≤ fuel) :
    (readParts size fuel file).flatten = file := by
  fun_induction readParts size fuel file with
  | case1 file => simpa using (length_eq_zero_iff.mp (Nat.le_zero.mp hfuel)).symm
  | case2 => rfl
  | case3 fuel byte bytes ih =>
    rw [flatten_cons, ih (by simp at hfuel ⊢; omega), take_append_drop]

theorem length_le_of_mem_readParts {fuel : ℕ} {file part : Bytes}
    (h : part ∈ readParts size fuel file) : part.length ≤ size := by
  fun_induction readParts size fuel file with
  | case1 => cases h
  | case2 => cases h
  | case3 fuel byte bytes ih =>
    rcases mem_cons.mp h with rfl | h
    · simp
    · exact ih h

theorem length_readParts_le (hsize : 0 < size) (fuel : ℕ) (file : Bytes) :
    (readParts size fuel file).length ≤ file.length := by
  fun_induction readParts size fuel file with
  | case1 => simp
  | case2 => simp
  | case3 fuel byte bytes ih =>
    simp only [length_cons, length_drop] at ih ⊢
    omega

theorem length_readParts_le_one_iff (hsize : 0 < size) (file : Bytes) :
    (readParts size file.length file).length ≤ 1 ↔ file.length ≤ size := by
  cases file with
  | nil => simp [readParts]
  | cons byte bytes =>
    rw [length_cons, readParts, length_cons]
    cases hrest : (byte :: bytes).drop size with
    | nil =>
      have hle := drop_eq_nil_iff.mp hrest
      have hnil : readParts size bytes.length [] = [] := by
        cases bytes.length <;> rfl
      rw [hnil]
      simpa using hle
    | cons byte' bytes' =>
      have hlength := congrArg List.length hrest
      simp only [length_drop, length_cons] at hlength
      obtain ⟨fuel, hfuel⟩ : ∃ fuel, bytes.length = fuel + 1 := ⟨bytes.length - 1, by omega⟩
      rw [hfuel, readParts, length_cons]
      omega

theorem readParts_eq_nil_iff (hsize : 0 < size) (file : Bytes) :
    readParts size file.length file = [] ↔ file = [] := by
  constructor
  · intro h
    rw [← flatten_readParts hsize file.length file le_rfl, h]
    rfl
  · rintro rfl
    rfl

/-! ### The published segments -/

/-- The segment of the given number: its name, its content and the number of the last segment. -/
structure IsSegment (name : Name) (last segment : ℕ) (part : Bytes) (data : Data) : Prop where
  name_eq : data.name = name ++ [Component.fromSegment segment]
  content_eq : data.contentValue = part
  final_eq : data.metaInfo.finalBlockId = some (Component.fromSegment last)

/-- The segments of a list of parts, in order. -/
structure IsStore (name : Name) (parts : List Bytes) (store : List Data) : Prop where
  length_eq : store.length = parts.length
  isSegment : ∀ segment data, store[segment]? = some data → ∃ part, parts[segment]? = some part ∧
    IsSegment name (store.length - 1) segment part data

/-- The part of a segment that is set before it is signed. -/
def body (data : Data) : Name × Option Block :=
  (data.name, data.content)

def unsignedSegment (name label : Name) (freshnessPeriod : ℤ) (signatureInfo : SignatureInfo)
    (last segment : ℕ) (part : Bytes) : Data where
  name := name ++ [Component.fromSegment segment]
  function := label
  metaInfo := { MetaInfo.empty with
    freshnessPeriod, finalBlockId := some (Component.fromSegment last) }
  content := (Block.makeBinaryBlock Tlv.content part).toOption
  signatureInfo := signatureInfo
  signatureValue := none
  wire := none
  fullName := []

def signedSegment (signatureValue : Data → Bytes) (unsigned : Data) : Data :=
  { unsigned with signatureValue :=
      (Block.makeBinaryBlock Tlv.signatureValue (signatureValue unsigned)).toOption }

/-- The signed segments of the parts of a file. -/
def signedSegments (name label : Name) (freshnessPeriod : ℤ) (signatureInfo : SignatureInfo)
    (signatureValue : Data → Bytes) (parts : List Bytes) : List Data :=
  parts.zipIdx.map fun part => signedSegment signatureValue (unsignedSegment name label
    freshnessPeriod signatureInfo (parts.length - 1) part.2 part.1)

/-- The bytes of the signatures fit into a block. -/
def SignatureFits (signatureValue : Data → Bytes) : Prop :=
  ∀ data, (signatureValue data).length < 2 ^ 64

theorem freeSpaceForContent_lt (maxSegmentSize bytesOccupied : ℕ) :
    freeSpaceForContent maxSegmentSize bytesOccupied < 2 ^ 32 := by
  have := Int.bmod_lt (x := (maxSegmentSize : ℤ) - bytesOccupied - reservedSize)
    (m := 2 ^ 32) (by decide)
  rw [freeSpaceForContent]
  omega

section

variable {name label : Name} {freshnessPeriod : ℤ} {signatureInfo : SignatureInfo}
  {signatureValue : Data → Bytes} {last segment : ℕ} {part : Bytes}

theorem run_setFields (hperiod : 0 ≤ freshnessPeriod) (hpart : part.length < 2 ^ 64) :
    (do
      Data.setFreshnessPeriod freshnessPeriod
      Data.setContentValue (some part) : EStateM String Data Unit).run
        { Data.create name with function := label } =
      .ok () { Data.create name with
        function := label
        metaInfo := { MetaInfo.empty with freshnessPeriod }
        content := (Block.makeBinaryBlock Tlv.content part).toOption } := by
  have hblock : Block.makeBinaryBlock Tlv.content part = .ok _ :=
    Block.makeBinaryBlock_eq_make (by decide) (by decide) hpart
  have hset : (MetaInfo.setFreshnessPeriod freshnessPeriod).run MetaInfo.empty =
      .ok () { MetaInfo.empty with freshnessPeriod } := by
    rw [MetaInfo.setFreshnessPeriod, if_neg (not_lt.mpr hperiod)]
    rfl
  have hfresh : (Data.setFreshnessPeriod freshnessPeriod).run
      { Data.create name with function := label } =
      .ok () { Data.create name with
        function := label, metaInfo := { MetaInfo.empty with freshnessPeriod } } := by
    rw [Data.setFreshnessPeriod, Data.setMetaInfoField, run_get_bind]
    split_ifs with hdefault
    · rw [hdefault]
      rfl
    · exact run_bind_eq_ok_iff.mpr
        ⟨(), _, run_zoom_eq_ok_iff.mpr ⟨_, hset, rfl⟩, rfl⟩
  refine run_bind_eq_ok_iff.mpr ⟨(), _, hfresh, ?_⟩
  refine run_ofExcept_bind_eq_ok_iff.mpr ⟨_, hblock, ?_⟩
  rw [hblock]
  rfl

theorem finishSegment_eq (hsignature : SignatureFits signatureValue) :
    finishSegment signatureInfo signatureValue (Component.fromSegment last)
      { unsignedSegment name label freshnessPeriod .empty last segment part with
        metaInfo := { MetaInfo.empty with freshnessPeriod } } =
      .ok (signedSegment signatureValue
        (unsignedSegment name label freshnessPeriod signatureInfo last segment part)) := by
  have hblock : Block.makeBinaryBlock Tlv.signatureValue _ = .ok _ :=
    Block.makeBinaryBlock_eq_make (by decide) (by decide) (hsignature
      (unsignedSegment name label freshnessPeriod signatureInfo last segment part))
  refine toExcept_eq_ok_iff.mpr (run_bind_eq_ok_iff.mpr
    ⟨(), unsignedSegment name label freshnessPeriod .empty last segment part, rfl, ?_⟩)
  refine run_ofExcept_bind_eq_ok_iff.mpr ⟨_, hblock, ?_⟩
  rw [signedSegment, hblock]
  rfl

theorem segmentFile_eq {space : ℤ} (hspace : 0 < space) (hspace' : space < 2 ^ 32)
    (hsignature : SignatureFits signatureValue) {make : ℕ → Bytes → Except String Data}
    (hmake : ∀ segment part, part.length < 2 ^ 64 → make segment part =
      .ok { unsignedSegment name label freshnessPeriod .empty 0 segment part with
        metaInfo := { MetaInfo.empty with freshnessPeriod } }) (file : Bytes) :
    segmentFile space make (finishSegment signatureInfo signatureValue) file =
      .ok (signedSegments name label freshnessPeriod signatureInfo signatureValue
        (readParts space.toNat file.length file)) := by
  rw [segmentFile, if_neg (by omega), if_neg (by omega)]
  set parts := readParts space.toNat file.length file with hparts
  have hmade : (parts.zipIdx.mapM fun part => make part.2 part.1) =
      .ok (parts.zipIdx.map fun part =>
        { unsignedSegment name label freshnessPeriod .empty 0 part.2 part.1 with
          metaInfo := { MetaInfo.empty with freshnessPeriod } }) := by
    refine mapM_eq_ok_iff.mpr (forall₂_map_right_iff.mpr
      (forall₂_same.mpr fun part hpart => hmake part.2 part.1 ?_))
    have := length_le_of_mem_readParts (fst_mem_of_mem_zipIdx hpart)
    omega
  refine bind_eq_ok_iff.mpr ⟨_, hmade, mapM_eq_ok_iff.mpr ?_⟩
  rw [length_map, length_zipIdx]
  refine forall₂_map_left_iff.mpr (forall₂_map_right_iff.mpr
    (forall₂_same.mpr fun part _ => ?_))
  exact finishSegment_eq hsignature

theorem isSegment_of_body {data : Data} (hpart : part.length < 2 ^ 64)
    (hbody : body data = (name ++ [Component.fromSegment segment],
      (Block.makeBinaryBlock Tlv.content part).toOption))
    (hfinal : data.metaInfo.finalBlockId = some (Component.fromSegment last)) :
    IsSegment name last segment part data := by
  obtain ⟨hname, hcontent⟩ := Prod.ext_iff.mp hbody
  refine ⟨hname, ?_, hfinal⟩
  change data.content = _ at hcontent
  rw [Data.contentValue, hcontent, Block.makeBinaryBlock_eq_make (by decide) (by decide) hpart]
  rfl

theorem isStore_signedSegments {parts : List Bytes} (h : ∀ part ∈ parts, part.length < 2 ^ 64) :
    IsStore name parts
      (signedSegments name label freshnessPeriod signatureInfo signatureValue parts) where
  length_eq := by rw [signedSegments, length_map, length_zipIdx]
  isSegment segment data hdata := by
    rw [signedSegments, length_map, length_zipIdx]
    rw [signedSegments, getElem?_map, getElem?_zipIdx, Nat.zero_add, Option.map_map] at hdata
    obtain ⟨part, hpart, rfl⟩ := Option.map_eq_some_iff.mp hdata
    exact ⟨part, hpart, isSegment_of_body (h part (mem_of_getElem? hpart)) rfl rfl⟩

theorem Producer.populateStore_eq {p : Producer} (hperiod : 0 ≤ p.options.freshnessPeriod)
    (hsignature : SignatureFits p.signatureValue)
    (hspace : 0 < freeSpaceForContent p.options.maxSegmentSize name.wireEncode.length)
    (file : Bytes) :
    p.populateStore name file = .ok (signedSegments name [] p.options.freshnessPeriod
      p.signatureInfo p.signatureValue (readParts (freeSpaceForContent p.options.maxSegmentSize
        name.wireEncode.length).toNat file.length file)) := by
  refine segmentFile_eq hspace (freeSpaceForContent_lt _ _) hsignature (fun segment part hpart => ?_)
    file
  exact toExcept_eq_ok_iff.mpr (run_setFields hperiod hpart)

theorem Func.populateStore_eq {f : Func} {executedFunction : Name}
    (hlabel : f.funcname executedFunction = .ok label)
    (hperiod : 0 ≤ f.options.freshnessPeriod) (hsignature : SignatureFits f.signatureValue)
    (hspace : 0 < freeSpaceForContent f.options.maxSegmentSize
      (name.wireEncode.length + label.wireEncode.length)) (file : Bytes) :
    f.populateStore name file executedFunction = .ok (signedSegments name label
      f.options.freshnessPeriod f.signatureInfo f.signatureValue
      (readParts (freeSpaceForContent f.options.maxSegmentSize
        (name.wireEncode.length + label.wireEncode.length)).toNat file.length file)) := by
  refine bind_eq_ok_iff.mpr ⟨label, hlabel, ?_⟩
  refine segmentFile_eq hspace (freeSpaceForContent_lt _ _) hsignature (fun segment part hpart => ?_)
    file
  exact toExcept_eq_ok_iff.mpr (run_bind_eq_ok_iff.mpr
    ⟨(), { Data.create (name ++ [Component.fromSegment segment]) with function := label }, rfl,
      run_setFields hperiod hpart⟩)

end

end Sfc

end NdnFc
