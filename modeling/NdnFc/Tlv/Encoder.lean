import NdnFc.Lib.ByteOrder
import NdnFc.Lib.Run
import NdnFc.Tlv.Number

/-!
# Writers and readers of TLV numbers

`ndn-cxx` writes a number in front of what an `Encoder` holds, behind it
(`ndn-cxx/encoding/encoder.cpp`), or to a stream (`encoding/tlv.hpp`), and reads it with
`ReadNumberSlow` or `ReadNumberFast`. The writers and the fast reader copy the memory of a converted
integer; the slow reader shifts bytes. An encoder is a buffer in which the encoding lies between two
positions.
-/

namespace NdnFc

open List BigEndian

open ByteOrder (Host)

/-! ### Encoders -/

/-- `Encoder`: the encoding lies in the buffer from `front` (`m_begin`) to `back` (`m_end`). -/
structure Encoder where
  buffer : Bytes
  front : ℕ
  back : ℕ
  front_le : front ≤ back
  back_le : back ≤ buffer.length

namespace Encoder

/-- The encoding that the encoder holds. -/
def content (e : Encoder) : Bytes :=
  (e.buffer.take e.back).drop e.front

/-- `Encoder(totalReserve, reserveFromBack)` -/
def new (totalReserve reserveFromBack : ℕ) : Encoder :=
  let position := totalReserve - if reserveFromBack < totalReserve then reserveFromBack else 0
  ⟨replicate totalReserve 0, position, position, Nat.le_refl _, by simp [position]⟩

variable (size : ℕ)

/-- `reserve`: a larger buffer, with the old one at its end or at its start. -/
def reserve (addInFront : Bool) (e : Encoder) : Encoder :=
  let added := max size e.buffer.length - e.buffer.length
  if addInFront then
    ⟨replicate added 0 ++ e.buffer, added + e.front, added + e.back,
      Nat.add_le_add_left e.front_le _, by simpa using e.back_le⟩
  else
    ⟨e.buffer ++ replicate added 0, e.front, e.back, e.front_le, by
      rw [length_append]
      exact Nat.le_add_right_of_le e.back_le⟩

def reserveFront (e : Encoder) : Encoder :=
  if e.front < size then e.reserve (e.buffer.length * 2 + size) true else e

def reserveBack (e : Encoder) : Encoder :=
  if e.buffer.length < e.back + size then e.reserve (e.buffer.length * 2 + size) false else e

def copyTo (position : ℕ) (bytes buffer : Bytes) : Bytes :=
  buffer.take position ++ bytes ++ buffer.drop (position + bytes.length)

variable {bytes buffer : Bytes} {position : ℕ}

theorem length_copyTo (h : position + bytes.length ≤ buffer.length) :
    (copyTo position bytes buffer).length = buffer.length := by
  simp only [copyTo, length_append, length_take, length_drop]
  omega

theorem length_le_front_reserveFront (size : ℕ) (e : Encoder) :
    size ≤ (e.reserveFront size).front := by
  unfold reserveFront
  split_ifs with h
  · simp only [reserve, if_true]
    omega
  · omega

theorem back_reserveBack_le (size : ℕ) (e : Encoder) :
    (e.reserveBack size).back + size ≤ (e.reserveBack size).buffer.length := by
  have := e.back_le
  unfold reserveBack
  split_ifs with h
  · simp only [reserve, Bool.false_eq_true, if_false, length_append, length_replicate]
    omega
  · omega

variable (array : Bytes) (e : Encoder)

def prependByteArray : ℕ × Encoder :=
  let r := e.reserveFront array.length
  (array.length, ⟨copyTo (r.front - array.length) array r.buffer, r.front - array.length, r.back,
    (Nat.sub_le _ _).trans r.front_le, by
      have hroom : array.length ≤ r.front := length_le_front_reserveFront array.length e
      have hback := r.back_le
      have hfront := r.front_le
      rw [length_copyTo (by omega)]
      exact hback⟩)

def appendByteArray : ℕ × Encoder :=
  let r := e.reserveBack array.length
  (array.length, ⟨copyTo r.back array r.buffer, r.front, r.back + array.length,
    Nat.le_add_right_of_le r.front_le, by
      have hroom := back_reserveBack_le array.length e
      rw [length_copyTo hroom]
      exact hroom⟩)

def prependByte (value : UInt8) (e : Encoder) : ℕ × Encoder :=
  e.prependByteArray [value]

def appendByte (value : UInt8) (e : Encoder) : ℕ × Encoder :=
  e.appendByteArray [value]

/-! ### What an encoder holds after an operation -/

@[simp] theorem prependByteArray_fst :
    (e.prependByteArray array).1 = array.length := rfl

@[simp] theorem appendByteArray_fst :
    (e.appendByteArray array).1 = array.length := rfl

theorem content_reserve (size : ℕ) (addInFront : Bool) (e : Encoder) :
    (e.reserve size addInFront).content = e.content := by
  cases addInFront with
  | true => simp [reserve, content, take_append, drop_append]
  | false =>
    have := e.back_le
    simp only [reserve, content, Bool.false_eq_true, if_false]
    rw [take_append_of_le_length e.back_le]

theorem content_reserveFront (size : ℕ) (e : Encoder) :
    (e.reserveFront size).content = e.content := by
  unfold reserveFront
  split_ifs
  · exact content_reserve _ _ e
  · rfl

theorem content_reserveBack (size : ℕ) (e : Encoder) :
    (e.reserveBack size).content = e.content := by
  unfold reserveBack
  split_ifs
  · exact content_reserve _ _ e
  · rfl

@[simp] theorem content_prependByteArray :
    (e.prependByteArray array).2.content = array ++ e.content := by
  have hroom := length_le_front_reserveFront array.length e
  rw [← content_reserveFront array.length e]
  simp only [prependByteArray, content]
  generalize e.reserveFront array.length = r at hroom ⊢
  have hfront := r.front_le
  have hback := r.back_le
  have hsum : r.front - array.length + array.length = r.front := Nat.sub_add_cancel hroom
  have hlen : r.back - (r.front - array.length) = array.length + (r.back - r.front) := by omega
  rw [copyTo, append_assoc, drop_take, drop_left' (length_take_of_le (by omega)), hsum, hlen,
    take_length_add_append, ← drop_take]

@[simp] theorem content_appendByteArray :
    (e.appendByteArray array).2.content = e.content ++ array := by
  rw [← content_reserveBack array.length e]
  simp only [appendByteArray, content]
  generalize e.reserveBack array.length = r
  have hlen : (r.buffer.take r.back).length = r.back := length_take_of_le r.back_le
  rw [copyTo, take_left' (by rw [length_append, hlen]),
    drop_append_of_le_length (by rw [hlen]; exact r.front_le)]

/-! ### Sequences of operations -/

inductive Op where
  | prependByte (value : UInt8)
  | appendByte (value : UInt8)
  | prependByteArray (array : Bytes)
  | appendByteArray (array : Bytes)

def Op.call (e : Encoder) : Op → ℕ × Encoder
  | prependByte value => e.prependByte value
  | appendByte value => e.appendByte value
  | prependByteArray array => e.prependByteArray array
  | appendByteArray array => e.appendByteArray array

def Op.prepended : Op → Bytes
  | prependByte value => [value]
  | prependByteArray array => array
  | _ => []

def Op.appended : Op → Bytes
  | appendByte value => [value]
  | appendByteArray array => array
  | _ => []

/-- The bytes are written in front of `front` or from `back` on, after the buffer has grown. -/
def Op.WritesInside (e : Encoder) (op : Op) : Prop :=
  op.prepended.length ≤ (e.reserveFront op.prepended.length).front ∧
    (e.reserveBack op.appended.length).back + op.appended.length ≤
      (e.reserveBack op.appended.length).buffer.length

/-- An operation on an encoder, with the sum of the lengths returned so far. -/
def step (s : ℕ × Encoder) (op : Op) : ℕ × Encoder :=
  let (length, e) := op.call s.2
  (s.1 + length, e)

theorem length_content (e : Encoder) : e.content.length = e.back - e.front := by
  rw [content, length_drop, length_take_of_le e.back_le]

theorem call_spec (e : Encoder) (op : Op) :
    (op.call e).2.content = op.prepended ++ e.content ++ op.appended ∧
      (op.call e).1 = op.prepended.length + op.appended.length := by
  cases op <;> simp [Op.call, Op.prepended, Op.appended, prependByte, appendByte]

/-- An encoder of any initial reserve holds what was prepended, the last first, and then what was
appended; `size()` is the sum of the returned lengths, and no operation writes outside the
buffer. -/
theorem content_run (totalReserve reserveFromBack : ℕ) (ops : List Op) :
    let s := Run.run step (0, new totalReserve reserveFromBack) ops
    s.2.content = ops.reverse.flatMap Op.prepended ++ ops.flatMap Op.appended ∧
      s.2.back - s.2.front = s.1 ∧ ∀ op : Op, op.WritesInside s.2 := by
  intro s
  have hspec : s.2.content = ops.reverse.flatMap Op.prepended ++ ops.flatMap Op.appended ∧
      s.2.content.length = s.1 := by
    induction ops using List.reverseRecOn with
    | nil => simp [s, new, content]
    | append_singleton ops op ih =>
      obtain ⟨hcontent, hlength⟩ := ih
      obtain ⟨hcall, hreturned⟩ :=
        call_spec (Run.run step (0, new totalReserve reserveFromBack) ops).2 op
      simp only [s, Run.run_append, Run.run_cons, Run.run_nil, step]
      rw [hcall, hreturned, ← hlength, hcontent]
      refine ⟨by simp, ?_⟩
      simp only [length_append]
      omega
  refine ⟨hspec.1, (length_content _).symm.trans hspec.2, fun op => ⟨?_, ?_⟩⟩
  · exact length_le_front_reserveFront _ _
  · exact back_reserveBack_le _ _

end Encoder

/-! ### Writers -/

namespace Tlv

variable (host : Host)

/-- An integer cast to `w` bytes, converted to network order and copied from memory. -/
def networkBytes (w : ℕ) (number : UInt64) : Bytes :=
  ByteOrder.store host w (ByteOrder.nativeToBig host w (number.toNat % 256 ^ w))

/-- `writeVarNumber` to a stream: the returned length and the written bytes. -/
def streamVarNumber (number : UInt64) : ℕ × Bytes :=
  if number.toNat < 253 then (1, [number.toUInt8])
  else if number.toNat ≤ 2 ^ 16 - 1 then (3, [253] ++ networkBytes host 2 number)
  else if number.toNat ≤ 2 ^ 32 - 1 then (5, [254] ++ networkBytes host 4 number)
  else (9, [255] ++ networkBytes host 8 number)

def streamNonNegativeInteger (integer : UInt64) : ℕ × Bytes :=
  if integer.toNat ≤ 2 ^ 8 - 1 then (1, [integer.toUInt8])
  else if integer.toNat ≤ 2 ^ 16 - 1 then (2, networkBytes host 2 integer)
  else if integer.toNat ≤ 2 ^ 32 - 1 then (4, networkBytes host 4 integer)
  else (8, networkBytes host 8 integer)

end Tlv

namespace Encoder

open Tlv (networkBytes)

variable (host : Host) (varNumber : UInt64)

def prependVarNumber (e : Encoder) : ℕ × Encoder :=
  if varNumber.toNat < 253 then (1, (e.prependByte varNumber.toUInt8).2)
  else if varNumber.toNat ≤ 2 ^ 16 - 1 then
    (3, ((e.prependByteArray (networkBytes host 2 varNumber)).2.prependByte 253).2)
  else if varNumber.toNat ≤ 2 ^ 32 - 1 then
    (5, ((e.prependByteArray (networkBytes host 4 varNumber)).2.prependByte 254).2)
  else (9, ((e.prependByteArray (networkBytes host 8 varNumber)).2.prependByte 255).2)

def appendVarNumber (e : Encoder) : ℕ × Encoder :=
  if varNumber.toNat < 253 then (1, (e.appendByte varNumber.toUInt8).2)
  else if varNumber.toNat ≤ 2 ^ 16 - 1 then
    (3, ((e.appendByte 253).2.appendByteArray (networkBytes host 2 varNumber)).2)
  else if varNumber.toNat ≤ 2 ^ 32 - 1 then
    (5, ((e.appendByte 254).2.appendByteArray (networkBytes host 4 varNumber)).2)
  else (9, ((e.appendByte 255).2.appendByteArray (networkBytes host 8 varNumber)).2)

def prependNonNegativeInteger (e : Encoder) : ℕ × Encoder :=
  if varNumber.toNat ≤ 2 ^ 8 - 1 then e.prependByte varNumber.toUInt8
  else if varNumber.toNat ≤ 2 ^ 16 - 1 then e.prependByteArray (networkBytes host 2 varNumber)
  else if varNumber.toNat ≤ 2 ^ 32 - 1 then e.prependByteArray (networkBytes host 4 varNumber)
  else e.prependByteArray (networkBytes host 8 varNumber)

def appendNonNegativeInteger (e : Encoder) : ℕ × Encoder :=
  if varNumber.toNat ≤ 2 ^ 8 - 1 then e.appendByte varNumber.toUInt8
  else if varNumber.toNat ≤ 2 ^ 16 - 1 then e.appendByteArray (networkBytes host 2 varNumber)
  else if varNumber.toNat ≤ 2 ^ 32 - 1 then e.appendByteArray (networkBytes host 4 varNumber)
  else e.appendByteArray (networkBytes host 8 varNumber)

end Encoder

namespace Tlv

/-- The writers of one number put the same bytes in front of an encoding, behind it and into a stream,
and return their count. -/
structure Written (prepend append : Encoder → ℕ × Encoder) (stream : ℕ × Bytes) (size : ℕ)
    (bytes : Bytes) : Prop where
  length : bytes.length = size
  stream : stream = (size, bytes)
  prepend : ∀ e, (prepend e).1 = size ∧ (prepend e).2.content = bytes ++ e.content
  append : ∀ e, (append e).1 = size ∧ (append e).2.content = e.content ++ bytes

variable (host : Host)

@[simp] theorem length_networkBytes (w : ℕ) (number : UInt64) :
    (networkBytes host w number).length = w := by
  rw [networkBytes, ByteOrder.store_nativeToBig, length_ofNat]

theorem networkBytes_eq {w : ℕ} {number : UInt64} (h : number.toNat < 256 ^ w) (host : Host) :
    networkBytes host w number = ofNat w number.toNat := by
  rw [networkBytes, ByteOrder.store_nativeToBig, Nat.mod_eq_of_lt h]

variable (n : UInt64)

theorem streamVarNumber_eq :
    streamVarNumber host n = (sizeOfVarNumber n.toNat, writeVarNumber n.toNat) := by
  have hlt := n.toNat_lt
  unfold streamVarNumber sizeOfVarNumber writeVarNumber
  split_ifs with h1 h2 h2' h3 h3' h4 <;> try omega
  · rfl
  all_goals
    rw [networkBytes_eq (by omega)]
    rfl

theorem streamNonNegativeInteger_eq :
    streamNonNegativeInteger host n =
      (sizeOfNonNegativeInteger n.toNat, writeNonNegativeInteger n.toNat) := by
  have hlt := n.toNat_lt
  unfold streamNonNegativeInteger writeNonNegativeInteger sizeOfNonNegativeInteger
  split_ifs with h1 h2 h2' h3 h3' h4 <;> try omega
  · rfl
  all_goals rw [networkBytes_eq (by omega)]

theorem Written.of_stream {prepend append : Encoder → ℕ × Encoder} {stream : ℕ × Bytes} {size : ℕ}
    {bytes : Bytes} (hstream : stream = (size, bytes)) (hlength : bytes.length = size)
    (hprepend : ∀ e, (prepend e).1 = stream.1 ∧ (prepend e).2.content = stream.2 ++ e.content)
    (happend : ∀ e, (append e).1 = stream.1 ∧ (append e).2.content = e.content ++ stream.2) :
    Written prepend append stream size bytes := by
  subst hstream
  exact ⟨hlength, rfl, hprepend, happend⟩

theorem written_varNumber :
    Written (Encoder.prependVarNumber host n) (Encoder.appendVarNumber host n)
      (streamVarNumber host n) (sizeOfVarNumber n.toNat) (writeVarNumber n.toNat) := by
  refine .of_stream (streamVarNumber_eq host n) (length_writeVarNumber n.toNat) (fun e => ?_)
    fun e => ?_
  · unfold Encoder.prependVarNumber streamVarNumber
    split_ifs <;> simp [Encoder.prependByte]
  · unfold Encoder.appendVarNumber streamVarNumber
    split_ifs <;> simp [Encoder.appendByte]

theorem written_nonNegativeInteger :
    Written (Encoder.prependNonNegativeInteger host n) (Encoder.appendNonNegativeInteger host n)
      (streamNonNegativeInteger host n) (sizeOfNonNegativeInteger n.toNat)
      (writeNonNegativeInteger n.toNat) := by
  refine .of_stream (streamNonNegativeInteger_eq host n) (length_writeNonNegativeInteger n.toNat)
    (fun e => ?_) fun e => ?_
  · unfold Encoder.prependNonNegativeInteger streamNonNegativeInteger
    split_ifs <;> simp [Encoder.prependByte]
  · unfold Encoder.appendNonNegativeInteger streamNonNegativeInteger
    split_ifs <;> simp [Encoder.appendByte]

/-! ### Readers -/

/-- The loop of `ReadNumberSlow`: the number so far and the bytes that are left. -/
def slowLoop : ℕ → UInt64 → Bytes → Option (UInt64 × Bytes)
  | 0, number, bytes => some (number, bytes)
  | _ + 1, _, [] => none
  | size + 1, number, byte :: bytes => slowLoop size (number <<< 8 ||| byte.toUInt64) bytes

def readNumberSlow (size : ℕ) (bytes : Bytes) : Option (UInt64 × Bytes) :=
  slowLoop size 0 bytes

/-- `ReadNumberFast`. It is not defined for other sizes, which no reader asks for. -/
def readNumberFast (size : ℕ) (bytes : Bytes) : Option (UInt64 × Bytes) :=
  if bytes.length < size then none
  else
    match size with
    | 1 => bytes.head?.map fun byte => (byte.toUInt64, bytes.tail)
    | 2 | 4 | 8 =>
      let value := ByteOrder.bigToNative host size (ByteOrder.load host (bytes.take size))
      some (UInt64.ofNat value, bytes.drop size)
    | _ => none

variable (readNumber : ℕ → Bytes → Option (UInt64 × Bytes))

/-- The `readVarNumber` that does not throw, over a reader for numbers. -/
def tryReadVarNumber : Bytes → Option (UInt64 × Bytes)
  | [] => none
  | firstOctet :: bytes =>
    if firstOctet < 253 then some (firstOctet.toUInt64, bytes)
    else readNumber (if firstOctet = 253 then 2 else if firstOctet = 254 then 4 else 8) bytes

/-- `readVarNumber` over a reader for numbers. -/
def readVarNumberBy (bytes : Bytes) : Except String (UInt64 × Bytes) :=
  if bytes = [] then throw "Empty buffer during TLV parsing"
  else
    match tryReadVarNumber readNumber bytes with
    | none => throw "Insufficient data during TLV parsing"
    | some result => pure result

variable (size : ℕ)

/-- `readNonNegativeInteger` over a reader for numbers. -/
def readNonNegativeIntegerBy (bytes : Bytes) : Except String (UInt64 × Bytes) :=
  if size ≠ 1 ∧ size ≠ 2 ∧ size ≠ 4 ∧ size ≠ 8 then
    throw ("Invalid length " ++ toString size ++ " for nonNegativeInteger")
  else
    match readNumber size bytes with
    | none => throw "Insufficient data during nonNegativeInteger parsing"
    | some result => pure result

theorem shiftLeft_or_eq (number : UInt64) (byte : UInt8) :
    number <<< 8 ||| byte.toUInt64 = UInt64.ofNat (number.toNat * 256 + byte.toNat) := by
  have hbyte : byte.toNat < 2 ^ 8 := byte.toNat_lt
  have hshift : number.toNat <<< 8 % 2 ^ 64 = (number.toNat % 2 ^ 56) <<< 8 := by
    rw [Nat.shiftLeft_eq, Nat.shiftLeft_eq]
    omega
  apply UInt64.toNat_inj.mp
  rw [UInt64.toNat_or, UInt64.toNat_shiftLeft, UInt8.toNat_toUInt64, UInt64.toNat_ofNat']
  change number.toNat <<< 8 % 2 ^ 64 ||| byte.toNat = _
  rw [hshift, ← Nat.shiftLeft_add_eq_or_of_lt hbyte, Nat.shiftLeft_eq]
  omega

theorem slowLoop_eq (number : UInt64) (bytes : Bytes) :
    slowLoop size number bytes =
      if bytes.length < size then none
      else some (UInt64.ofNat (number.toNat * 256 ^ size + toNat (bytes.take size)),
        bytes.drop size) := by
  induction size generalizing number bytes with
  | zero => simp [slowLoop]
  | succ size ih =>
    cases bytes with
    | nil => simp [slowLoop]
    | cons byte bytes =>
      rw [slowLoop, ih]
      by_cases h : bytes.length < size
      · simp [h]
      · have htake : (bytes.take size).length = size := length_take_of_le (by omega)
        rw [if_neg h, if_neg (by simpa using h), shiftLeft_or_eq]
        refine congrArg some (Prod.ext (UInt64.toNat_inj.mp ?_) rfl)
        simp only [UInt64.toNat_ofNat', take_succ_cons, toNat_cons, htake]
        rw [Nat.add_mod, Nat.mul_mod, Nat.mod_mod, ← Nat.mul_mod, ← Nat.add_mod]
        congr 1
        ring

/-- A reader of `tlv.hpp` against the reading of a number. -/
def ReadsAt (sizes : ℕ → Prop) : Prop :=
  ∀ size, sizes size → ∀ bytes,
    readNumber size bytes = (Tlv.readNumber size bytes).map fun r => (UInt64.ofNat r.1, r.2)

/-- The sizes that are asked for. -/
def IsNumberSize : Prop :=
  size = 1 ∨ size = 2 ∨ size = 4 ∨ size = 8

theorem readsAt_slow (sizes : ℕ → Prop) : ReadsAt readNumberSlow sizes := by
  intro size _ bytes
  rw [readNumberSlow, slowLoop_eq, Tlv.readNumber]
  split_ifs
  · rfl
  · simp

theorem readsAt_fast (host : Host) : ReadsAt (readNumberFast host) IsNumberSize := by
  intro size hsize bytes
  unfold readNumberFast readNumber
  split_ifs with hlen
  · rfl
  · have hload : ByteOrder.bigToNative host size (ByteOrder.load host (bytes.take size)) =
        toNat (bytes.take size) :=
      ByteOrder.bigToNative_load host (length_take_of_le (Nat.le_of_not_lt hlen))
    rcases hsize with rfl | rfl | rfl | rfl
    · cases bytes with
      | nil => simp at hlen
      | cons byte bytes =>
        refine congrArg some (Prod.ext ?_ rfl)
        simp
    all_goals simp only [hload, Option.map_some]

variable {readNumber : ℕ → Bytes → Option (UInt64 × Bytes)}

theorem readVarNumberBy_eq (h : ReadsAt readNumber IsNumberSize) (bytes : Bytes) :
    readVarNumberBy readNumber bytes =
      (readVarNumber bytes).map fun r => (UInt64.ofNat r.1, r.2) := by
  cases bytes with
  | nil => rfl
  | cons firstOctet bytes =>
    unfold readVarNumberBy tryReadVarNumber readVarNumber
    rw [if_neg (cons_ne_nil _ _)]
    dsimp only
    split_ifs with hfirst h253 h254
    · exact congrArg (fun m => Except.ok (m, bytes)) (UInt64.toNat_inj.mp (by simp))
    · rw [h 2 (by simp [IsNumberSize]) bytes]
      cases Tlv.readNumber 2 bytes <;> rfl
    · rw [h 4 (by simp [IsNumberSize]) bytes]
      cases Tlv.readNumber 4 bytes <;> rfl
    · rw [h 8 (by simp [IsNumberSize]) bytes]
      cases Tlv.readNumber 8 bytes <;> rfl

theorem readVarNumberBy_write (h : ReadsAt readNumber IsNumberSize) (n : UInt64) (rest : Bytes) :
    readVarNumberBy readNumber (writeVarNumber n.toNat ++ rest) = .ok (n, rest) := by
  rw [readVarNumberBy_eq h, readVarNumber_writeVarNumber n.toNat_lt]
  exact congrArg (fun m => Except.ok (m, rest)) UInt64.ofNat_toNat

theorem isNumberSize_sizeOfNonNegativeInteger (n : ℕ) :
    IsNumberSize (sizeOfNonNegativeInteger n) := by
  unfold IsNumberSize sizeOfNonNegativeInteger
  split_ifs <;> simp

theorem readNonNegativeIntegerBy_write (h : ReadsAt readNumber IsNumberSize) (n : UInt64)
    (rest : Bytes) :
    readNonNegativeIntegerBy readNumber (sizeOfNonNegativeInteger n.toNat)
      (writeNonNegativeInteger n.toNat ++ rest) = .ok (n, rest) := by
  have hsize := isNumberSize_sizeOfNonNegativeInteger n.toNat
  have hfit : n.toNat < 256 ^ sizeOfNonNegativeInteger n.toNat := by
    have := n.toNat_lt
    unfold sizeOfNonNegativeInteger
    split_ifs <;> omega
  have hvalid : ¬ (sizeOfNonNegativeInteger n.toNat ≠ 1 ∧ sizeOfNonNegativeInteger n.toNat ≠ 2 ∧
      sizeOfNonNegativeInteger n.toNat ≠ 4 ∧ sizeOfNonNegativeInteger n.toNat ≠ 8) := by
    unfold IsNumberSize at hsize
    omega
  rw [readNonNegativeIntegerBy, if_neg hvalid, h _ hsize, writeNonNegativeInteger,
    readNumber_ofNat hfit]
  exact congrArg (fun m => Except.ok (m, rest)) UInt64.ofNat_toNat

/-- The writers of a number agree, both readers read it back, and the readers agree on all inputs. -/
theorem numbers_agree (host : Host) :
    (∀ n : UInt64, ∃ bytes,
      Written (Encoder.prependVarNumber host n) (Encoder.appendVarNumber host n)
        (streamVarNumber host n) (sizeOfVarNumber n.toNat) bytes ∧
      ∀ rest, readVarNumberBy (readNumberFast host) (bytes ++ rest) = .ok (n, rest) ∧
        readVarNumberBy readNumberSlow (bytes ++ rest) = .ok (n, rest)) ∧
    (∀ n : UInt64, ∃ bytes,
      Written (Encoder.prependNonNegativeInteger host n) (Encoder.appendNonNegativeInteger host n)
        (streamNonNegativeInteger host n) (sizeOfNonNegativeInteger n.toNat) bytes ∧
      ∀ rest, readNonNegativeIntegerBy (readNumberFast host) bytes.length (bytes ++ rest) =
          .ok (n, rest) ∧
        readNonNegativeIntegerBy readNumberSlow bytes.length (bytes ++ rest) = .ok (n, rest)) ∧
    (∀ bytes, readVarNumberBy (readNumberFast host) bytes = readVarNumberBy readNumberSlow bytes) ∧
    ∀ size bytes, readNonNegativeIntegerBy (readNumberFast host) size bytes =
      readNonNegativeIntegerBy readNumberSlow size bytes := by
  have hfast := readsAt_fast host
  have hslow := readsAt_slow IsNumberSize
  refine ⟨fun n => ⟨_, written_varNumber host n, fun rest => ⟨?_, ?_⟩⟩,
    fun n => ⟨_, written_nonNegativeInteger host n, fun rest => ⟨?_, ?_⟩⟩, fun bytes => ?_,
    fun size bytes => ?_⟩
  · exact readVarNumberBy_write hfast n rest
  · exact readVarNumberBy_write hslow n rest
  · rw [length_writeNonNegativeInteger]
    exact readNonNegativeIntegerBy_write hfast n rest
  · rw [length_writeNonNegativeInteger]
    exact readNonNegativeIntegerBy_write hslow n rest
  · rw [readVarNumberBy_eq hfast, readVarNumberBy_eq hslow]
  · unfold readNonNegativeIntegerBy
    split_ifs with hsize
    · rfl
    · have hvalid : IsNumberSize size := by
        unfold IsNumberSize
        omega
      rw [hfast size hvalid, hslow size hvalid]

end Tlv

end NdnFc
