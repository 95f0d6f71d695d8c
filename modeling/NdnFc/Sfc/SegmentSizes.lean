import NdnFc.Sfc.ContentTransfer

/-!
# The sizes of segments

The space for content in a segment is the requested packet size less the content name, the Function
and a fixed reserve (`NDN-FC-skeleton/sfc_producer.cpp`, lines 78 to 153, and `sfc_function.cpp`,
lines 236 to 298), in unsigned arithmetic converted to an `int`. The reserve stands for the key
locator, a signature of 32 bytes and ten more bytes, and all other fields have to fit into it.
-/

namespace NdnFc.Sfc

open List Fallible

/-! ### The loop that reads a file -/

/-- The loop of `populateStore` over an open file: the non-empty parts that are read into a buffer
of the given size. There is no result when the turns are used up. A file that could not be opened is
like an empty one. -/
def readLoop (size : ℕ) : ℕ → Bytes → Option (List Bytes)
  | 0, _ => none
  | turns + 1, rest =>
    -- a read that is cut short sets the bits that `good` tests
    if rest.length < size then some (if rest = [] then [] else [rest])
    else (readLoop size turns (rest.drop size)).map fun parts =>
      if size = 0 then parts else rest.take size :: parts

theorem readLoop_zero (turns : ℕ) (file : Bytes) : readLoop 0 turns file = none := by
  induction turns generalizing file with
  | zero => rfl
  | succ turns ih => simp [readLoop, ih]

variable {size : ℕ} {file : Bytes} {fuel : ℕ}

section

variable (hsize : 0 < size) (hfuel : file.length ≤ fuel)

include hsize hfuel

theorem getElem?_readParts (i : ℕ) :
    (readParts size fuel file)[i]? =
      if i * size < file.length then some ((file.drop (i * size)).take size) else none := by
  induction fuel generalizing file i with
  | zero =>
    obtain rfl : file = [] := length_eq_zero_iff.mp (Nat.le_zero.mp hfuel)
    simp [readParts]
  | succ fuel ih =>
    cases file with
    | nil => simp [readParts]
    | cons byte bytes =>
      rw [readParts]
      cases i with
      | zero => simp
      | succ i =>
        have hdrop : ((byte :: bytes).drop size).length ≤ fuel := by
          simp only [length_drop, length_cons] at hfuel ⊢
          omega
        rw [getElem?_cons_succ, ih hdrop, drop_drop, length_drop]
        have hiff : i * size < (byte :: bytes).length - size ↔
            (i + 1) * size < (byte :: bytes).length := by
          rw [Nat.add_mul, Nat.one_mul]
          omega
        rw [Nat.add_mul, Nat.one_mul, Nat.add_comm size] at *
        simp only [hiff]

theorem length_readParts : (readParts size fuel file).length = (file.length + size - 1) / size := by
  refine eq_of_forall_lt_iff fun i => ?_
  have hpart := getElem?_readParts hsize hfuel i
  rw [Nat.lt_iff_add_one_le (n := (file.length + size - 1) / size),
    Nat.le_div_iff_mul_le hsize, Nat.add_mul, Nat.one_mul]
  split_ifs at hpart with hlt
  · refine iff_of_true (List.getElem?_eq_some_iff.mp hpart).1 ?_
    omega
  · rw [List.getElem?_eq_none_iff] at hpart
    refine iff_of_false (by omega) ?_
    omega

theorem readParts_congr_fuel : readParts size fuel file = readParts size file.length file := by
  refine ext_getElem? fun i => ?_
  rw [getElem?_readParts hsize hfuel, getElem?_readParts hsize le_rfl]

end

theorem readLoop_eq (hsize : 0 < size) {turns : ℕ} (hturns : file.length < turns) :
    readLoop size turns file = some (readParts size file.length file) := by
  induction turns generalizing file with
  | zero => omega
  | succ turns ih =>
    rw [readLoop]
    cases file with
    | nil => rw [length_nil, if_pos hsize, if_pos rfl, readParts]
    | cons byte bytes =>
      have hlength : (byte :: bytes).length = bytes.length + 1 := length_cons
      by_cases hshort : (byte :: bytes).length < size
      · have hrest : (byte :: bytes).drop size = [] := drop_eq_nil_iff.mpr hshort.le
        rw [if_pos hshort, if_neg (cons_ne_nil byte bytes), hlength, readParts, hrest,
          take_of_length_le hshort.le, readParts_congr_fuel hsize (Nat.zero_le _)]
        rfl
      · have hdrop : ((byte :: bytes).drop size).length ≤ bytes.length := by
          rw [length_drop]
          omega
        rw [if_neg hshort, ih (by omega), Option.map_some, if_neg hsize.ne', hlength, readParts,
          readParts_congr_fuel hsize hdrop]

theorem exists_readLoop_iff :
    (∃ turns parts, readLoop size turns file = some parts) ↔ 0 < size := by
  constructor
  · rintro ⟨turns, parts, h⟩
    rcases Nat.eq_zero_or_pos size with rfl | hsize
    · rw [readLoop_zero] at h
      cases h
    · exact hsize
  · intro hsize
    exact ⟨file.length + 1, _, readLoop_eq hsize (Nat.lt_succ_self _)⟩

/-! ### The space for content -/

theorem freeSpaceForContent_bounds_iff {maxSegmentSize bytesOccupied : ℕ}
    (hmax : 1 ≤ maxSegmentSize) (hmax' : maxSegmentSize ≤ 8800) :
    (0 < freeSpaceForContent maxSegmentSize bytesOccupied ∧
      freeSpaceForContent maxSegmentSize bytesOccupied ≤ maxSegmentSize) ↔
    (bytesOccupied + 298) % 2 ^ 32 < maxSegmentSize := by
  rw [freeSpaceForContent, reservedSize, Int.bmod_def]
  split_ifs <;> omega

theorem freeSpaceForContent_eq {maxSegmentSize bytesOccupied : ℕ} (hmax : maxSegmentSize ≤ 8800)
    (h : (bytesOccupied + 298) % 2 ^ 32 < maxSegmentSize) :
    freeSpaceForContent maxSegmentSize bytesOccupied =
      ((maxSegmentSize - (bytesOccupied + 298) % 2 ^ 32 : ℕ) : ℤ) := by
  rw [freeSpaceForContent, reservedSize, Int.bmod_def]
  split_ifs <;> omega

/-! ### The signed segments -/

/-- The length of an element with a value of the given length. -/
def elementLength (type length : ℕ) : ℕ :=
  Tlv.sizeOfVarNumber type + Tlv.sizeOfVarNumber length + length

theorem length_encodeElement (type : ℕ) (value : Bytes) :
    (Tlv.encodeElement type value).length = elementLength type value.length := by
  simp [Tlv.encodeElement, Tlv.encodeHeader, elementLength, Tlv.length_writeVarNumber,
    Nat.add_assoc]

/-- The length of a Data packet whose content, SignatureInfo and signature have the given lengths.
-/
def signedLength (d : DataFields) (contentLength infoLength signatureLength : ℕ) : ℕ :=
  elementLength Tlv.data
    (d.name.wireEncode.length + d.function.wireEncode.length + d.metaInfo.wireEncode.length +
      elementLength Tlv.content contentLength + infoLength +
      elementLength Tlv.signatureValue signatureLength)

theorem isValid_of_encode {signatureInfo : SignatureInfo} {kind : SignatureInfo.Kind} {info : Bytes}
    (h : signatureInfo.encode kind = .ok info) : signatureInfo.isValid = true := by
  unfold SignatureInfo.encode at h
  rw [SignatureInfo.isValid]
  split at h
  next => cases h
  next htype => rw [htype, Option.isSome_some]

theorem exists_encode {d : DataFields} {part value info : Bytes} (hpart : part.length < 2 ^ 64)
    (hvalue : value.length < 2 ^ 64)
    (hcontent : d.content = (Block.makeBinaryBlock Tlv.content part).toOption)
    (hsignature : d.signatureValue = (Block.makeBinaryBlock Tlv.signatureValue value).toOption)
    (hinfo : d.signatureInfo.encode .data = .ok info) :
    ∃ bytes, Data.encode d = .ok bytes ∧
      bytes.length = signedLength d part.length info.length value.length := by
  rw [Block.makeBinaryBlock_eq_make (by decide) (by decide) hpart] at hcontent
  rw [Block.makeBinaryBlock_eq_make (by decide) (by decide) hvalue] at hsignature
  have hwire : Data.encodeBlock d.signatureValue = Tlv.encodeElement Tlv.signatureValue value := by
    rw [hsignature]
    rfl
  rw [Data.encode, isValid_of_encode hinfo, if_neg (by decide), hinfo, ok_bind, hcontent,
    hwire]
  refine ⟨_, rfl, ?_⟩
  simp only [Except.toOption, Block.wire_make, length_encodeElement, length_append,
    signedLength]

namespace Publisher

/-! ### What a publisher needs -/

def maxSegmentSize : Publisher → ℕ
  | .producer p => p.options.maxSegmentSize
  | .func f _ => f.options.maxSegmentSize

def freshnessPeriod : Publisher → ℤ
  | .producer p => p.options.freshnessPeriod
  | .func f _ => f.options.freshnessPeriod

def signatureInfo : Publisher → SignatureInfo
  | .producer p => p.signatureInfo
  | .func f _ => f.signatureInfo

def signatureValue : Publisher → Data → Bytes
  | .producer p => p.signatureValue
  | .func f _ => f.signatureValue

def label : Publisher → Except String Name
  | .producer _ => pure []
  | .func f executedFunction => f.funcname executedFunction

variable (publisher : Publisher)

/-- The bytes that the names of a segment are counted with. A producer does not count its empty
Function. -/
def bytesOccupied (name label : Name) : ℕ :=
  match publisher with
  | .producer _ => name.wireEncode.length
  | .func _ _ => name.wireEncode.length + label.wireEncode.length

/-- The size of the buffer when there is room for content. -/
def bufferSize (name label : Name) : ℕ :=
  publisher.maxSegmentSize - (publisher.bytesOccupied name label + 298) % 2 ^ 32

/-- The segment of the given number of a file that is cut to the size of the buffer, before it is
signed. -/
def segmentOf (name label : Name) (file : Bytes) (i : ℕ) : Data :=
  let size := publisher.bufferSize name label
  unsignedSegment name label publisher.freshnessPeriod publisher.signatureInfo
    ((file.length + size - 1) / size - 1) i ((file.drop (i * size)).take size)

/-- The file is read to its end through a buffer that is not empty and not larger than a packet, and
no signed segment exceeds the packet size. -/
def Progresses (name : Name) (file : Bytes) : Prop :=
  ∃ space, publisher.payloadSize name = .ok space ∧ 0 < space ∧ space ≤ publisher.maxSegmentSize ∧
    (∃ turns parts, readLoop space.toNat turns file = some parts) ∧
    ∃ store, publisher.populateStore name file = .ok store ∧ ∀ data ∈ store,
      ∃ bytes, Data.encode data.toDataFields = .ok bytes ∧ bytes.length ≤ publisher.maxSegmentSize

/-- The Function of the segments can be read from its text, names and reserve leave some of the
packet size, and every segment fits with a SignatureInfo of the given length and the signature. -/
def HasRoom (name : Name) (file : Bytes) (infoLength : ℕ) : Prop :=
  ∃ label, publisher.label = .ok label ∧
    (publisher.bytesOccupied name label + 298) % 2 ^ 32 < publisher.maxSegmentSize ∧
    ∀ i, i * publisher.bufferSize name label < file.length →
      signedLength (publisher.segmentOf name label file i).toDataFields
        (min (publisher.bufferSize name label)
          (file.length - i * publisher.bufferSize name label))
        infoLength (publisher.signatureValue (publisher.segmentOf name label file i)).length ≤
      publisher.maxSegmentSize

section

variable {publisher : Publisher} {name label : Name} {file : Bytes}

theorem payloadSize_eq_ok_iff {space : ℤ} : publisher.payloadSize name = .ok space ↔
    ∃ label, publisher.label = .ok label ∧
      space =
        freeSpaceForContent publisher.maxSegmentSize (publisher.bytesOccupied name label) := by
  cases publisher with
  | producer p =>
    constructor
    · rintro ⟨⟩
      exact ⟨[], rfl, rfl⟩
    · rintro ⟨_, -, rfl⟩
      rfl
  | func f executedFunction =>
    refine bind_eq_ok_iff.trans (exists_congr fun label => and_congr_right fun _ => ?_)
    rw [pure_eq_ok, Except.ok.injEq]
    exact eq_comm

theorem IsConfigured.signatureFits (h : publisher.IsConfigured) :
    SignatureFits publisher.signatureValue := by
  cases publisher with
  | producer p | func f executedFunction => exact h.2

theorem populateStore_eq (hconf : publisher.IsConfigured) (hlabel : publisher.label = .ok label)
    {space : ℤ} (hspace : 0 < space)
    (heq : space =
      freeSpaceForContent publisher.maxSegmentSize (publisher.bytesOccupied name label))
    (file : Bytes) :
    publisher.populateStore name file =
      .ok (signedSegments name label publisher.freshnessPeriod publisher.signatureInfo
        publisher.signatureValue (readParts space.toNat file.length file)) := by
  subst heq
  cases publisher with
  | producer p =>
    cases hlabel
    exact Producer.populateStore_eq hconf.1 hconf.2 hspace file
  | func f executedFunction => exact Func.populateStore_eq hlabel hconf.1 hconf.2 hspace file

theorem fits_populateStore_iff (hconf : publisher.IsConfigured) {info : Bytes}
    (hinfo : publisher.signatureInfo.encode .data = .ok info)
    (hlabel : publisher.label = .ok label) (hmax : publisher.maxSegmentSize ≤ 8800)
    (hroom : (publisher.bytesOccupied name label + 298) % 2 ^ 32 < publisher.maxSegmentSize) :
    (∃ store, publisher.populateStore name file = .ok store ∧ ∀ data ∈ store,
      ∃ bytes, Data.encode data.toDataFields = .ok bytes ∧
        bytes.length ≤ publisher.maxSegmentSize) ↔
    ∀ i, i * publisher.bufferSize name label < file.length →
      signedLength (publisher.segmentOf name label file i).toDataFields
        (min (publisher.bufferSize name label)
          (file.length - i * publisher.bufferSize name label))
        info.length (publisher.signatureValue (publisher.segmentOf name label file i)).length ≤
      publisher.maxSegmentSize := by
  set size := publisher.bufferSize name label
  have hsize : 0 < size := Nat.sub_pos_of_lt hroom
  have hstore := populateStore_eq hconf hlabel (Int.natCast_pos.mpr hsize)
    (freeSpaceForContent_eq hmax hroom).symm file
  rw [Int.toNat_natCast, signedSegments, length_readParts hsize le_rfl] at hstore
  have hpart : ∀ i, i * size < file.length →
      (readParts size file.length file)[i]? = some ((file.drop (i * size)).take size) := by
    intro i hi
    rw [getElem?_readParts hsize le_rfl, if_pos hi]
  -- the bytes of each segment
  have hencode : ∀ i, ∃ bytes,
      Data.encode (signedSegment publisher.signatureValue
        (publisher.segmentOf name label file i)).toDataFields = .ok bytes ∧
      bytes.length = signedLength (publisher.segmentOf name label file i).toDataFields
        (min size (file.length - i * size)) info.length
        (publisher.signatureValue (publisher.segmentOf name label file i)).length := by
    intro i
    have hle : size ≤ 8800 := (Nat.sub_le _ _).trans hmax
    have hlt : ((file.drop (i * size)).take size).length < 2 ^ 64 := by
      rw [length_take]
      omega
    have hcontent : (signedSegment publisher.signatureValue
        (publisher.segmentOf name label file i)).content = (Block.makeBinaryBlock Tlv.content
          ((file.drop (i * size)).take size)).toOption := by
      simp only [signedSegment, segmentOf, unsignedSegment, size]
    have hvalue := hconf.signatureFits (publisher.segmentOf name label file i)
    obtain ⟨bytes, hbytes, hlength⟩ := exists_encode hlt hvalue hcontent rfl hinfo
    rw [length_take, length_drop, signedLength, signedSegment] at hlength
    exact ⟨bytes, hbytes, hlength⟩
  constructor
  · rintro ⟨store, hstore', hfits⟩ i hi
    obtain rfl := Except.ok.inj (hstore.symm.trans hstore')
    obtain ⟨bytes, hbytes, hlength⟩ := hencode i
    obtain ⟨bytes', hbytes', hle⟩ := hfits _ (mem_map.mpr
      ⟨(_, i), mem_zipIdx_iff_getElem?.mpr (hpart i hi), rfl⟩)
    obtain rfl := Except.ok.inj (hbytes.symm.trans hbytes')
    rwa [← hlength]
  · intro hall
    refine ⟨_, hstore, fun data hdata => ?_⟩
    obtain ⟨⟨part, i⟩, hmem, rfl⟩ := mem_map.mp hdata
    have hget : (readParts size file.length file)[i]? = some part :=
      mem_zipIdx_iff_getElem?.mp hmem
    rw [getElem?_readParts hsize le_rfl] at hget
    split_ifs at hget with hi
    obtain rfl := Option.some.inj hget
    obtain ⟨bytes, hbytes, hlength⟩ := hencode i
    exact ⟨bytes, hbytes, hlength.trans_le (hall i hi)⟩

end

/-- A producer with the given packet size that signs with 32 bytes and names its key with one
component of the given number of bytes. -/
def sizedProducer (maxSegmentSize keyLength : ℕ) : Publisher :=
  .producer ⟨{ maxSegmentSize }, .create 3 (some (.name [.generic (List.replicate keyLength 107)])),
    fun _ => List.replicate 32 0⟩

theorem isConfigured_sizedProducer (maxSegmentSize keyLength : ℕ) :
    (sizedProducer maxSegmentSize keyLength).IsConfigured :=
  ⟨Int.natCast_nonneg 10000, fun _ => by simp⟩

end Publisher

end NdnFc.Sfc
