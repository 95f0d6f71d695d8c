import NdnFc.Link.PacketSize

/-!
# Acknowledgements on outgoing packets

`LpReliability::piggyback` (`NFD-FC/daemon/face/lp-reliability.cpp`, lines 192 to 222) moves pending
acknowledgements to an outgoing packet. The room is computed once; two bytes are reserved for a
longer TLV-LENGTH if the whole size of the packet, not that of its fields, is below 253.
-/

namespace NdnFc

open Lp List

namespace Lp

def ackField : FieldDecl UInt64 :=
  ⟨⟨.header, ack, true⟩, by decide, fun n => BigEndian.ofNat 8 n.toNat, decodeUInt64⟩

theorem length_encode_ackField (n : UInt64) : (ackField.encode n).length < 2 ^ 64 :=
  (BigEndian.length_ofNat 8 n.toNat).trans_lt (by decide)

def ackElement (n : UInt64) : Block :=
  ackField.element n (length_encode_ackField n)

end Lp

namespace LpReliability

abbrev mtuUnlimited : ℤ := -1

/-- The size of an acknowledgement: TLV-TYPE, TLV-LENGTH and the number. -/
def ackSize : ℕ :=
  Tlv.sizeOfVarNumber ack + Tlv.sizeOfVarNumber 8 + 8

def remainingSpace (pktSize : ℕ) (mtu : ℤ) : ℤ :=
  (if mtu = mtuUnlimited then (maxNdnPacketSize : ℤ) else mtu) -
    ((Tlv.sizeOfVarNumber maxNdnPacketSize : ℤ) - Tlv.sizeOfVarNumber pktSize) - pktSize

/-- The loop of `piggyback`: the packet with the acknowledgements, and what is left of the queue. -/
def addAcks : Packet → ℤ → List UInt64 → Except String (Packet × List UInt64)
  | pkt, _, [] => pure (pkt, [])
  | pkt, remainingSpace, ackTxSeq :: ackQueue =>
    if ackSize > remainingSpace then pure (pkt, ackTxSeq :: ackQueue)
    else do
      let pkt ← pkt.add ackField ackTxSeq
      addAcks pkt (remainingSpace - ackSize) ackQueue

/-- `piggyback`, which asserts that the packet is not sent as a bare network packet. -/
def piggyback (pkt : Packet) (mtu : ℤ) (ackQueue : List UInt64) :
    Except String (Packet × List UInt64) := do
  let wire ← pkt.wireEncode
  if wire.type ≠ lpPacket then throw "pkt.wireEncode().type() == lp::tlv::LpPacket"
  addAcks pkt (remainingSpace wire.size mtu) ackQueue

/-! ### The loop -/

theorem exists_add_ack (p : Packet) (n : UInt64) :
    ∃ q, p.add ackField n = .ok q ∧
      q.elementsOf ack = p.elementsOf ack ++ [ackElement n] ∧
      (∀ type, type ≠ Lp.ack → q.elementsOf type = p.elementsOf type) ∧
      q.wire = none ∧ q.fieldsSize = p.fieldsSize + ackSize := by
  have hmake : Block.makeBinaryBlock ackField.tlvType (ackField.encode n) = .ok (ackElement n) :=
    Block.makeBinaryBlock_eq_make (by decide) (by decide) (length_encode_ackField n)
  have hadd : ∃ q, p.add ackField n = .ok q := by
    rw [Packet.add, dif_neg fun h => Bool.noConfusion h.1]
    split
    next e he =>
      rw [hmake] at he
      cases he
    next => exact ⟨_, rfl⟩
  obtain ⟨q, hq⟩ := hadd
  obtain ⟨block, hblock, -, helements, hwire⟩ := Packet.elements_add hq
  obtain rfl : ackElement n = block := Except.ok.inj (hmake.symm.trans hblock)
  have hsize := Packet.fieldsSize_add hq
  have hlength : (ackField.encode n).length = 8 := BigEndian.length_ofNat 8 n.toNat
  rw [hlength] at hsize
  refine ⟨q, hq, ?_, fun type htype => ?_, hwire, hsize⟩
  · rw [Packet.elementsOf, helements]
    refine OrderedList.filter_insert_of_not_lt p.ordered rfl fun b _ htype => ?_
    -- fields of one type compare equal
    rw [compareFieldSortOrder_eq_eq_iff.mpr (eq_of_beq htype).symm]
    decide
  · rw [Packet.elementsOf, helements]
    exact OrderedList.filter_insert_of_neg (beq_false_of_ne htype.symm)

/-- The packet `q` is `p` with acknowledgements added behind its own. -/
structure WithAcks (p : Packet) (acks : List UInt64) (q : Packet) : Prop where
  acks : q.elementsOf ack = p.elementsOf ack ++ acks.map ackElement
  others : ∀ type, type ≠ Lp.ack → q.elementsOf type = p.elementsOf type

/-- How many acknowledgements the loop adds when the room is given. -/
def ackRoom (space : ℤ) : ℕ :=
  (space / ackSize).toNat

theorem ackRoom_of_lt {space : ℤ} (h : space < ackSize) : ackRoom space = 0 := by
  have hsize : (ackSize : ℤ) = 12 := rfl
  rw [ackRoom, hsize]
  omega

theorem ackRoom_sub {space : ℤ} (h : (ackSize : ℤ) ≤ space) :
    ackRoom space = ackRoom (space - ackSize) + 1 := by
  have hsize : (ackSize : ℤ) = 12 := rfl
  rw [ackRoom, ackRoom, hsize]
  omega

theorem addAcks_eq (p : Packet) (space : ℤ) (queue : List UInt64) :
    ∃ q, addAcks p space queue = .ok (q, queue.drop (ackRoom space)) ∧
      WithAcks p (queue.take (ackRoom space)) q ∧
      (queue.take (ackRoom space) = [] → q = p) ∧
      (queue.take (ackRoom space) ≠ [] → q.wire = none) ∧
      q.fieldsSize = p.fieldsSize + ackSize * (queue.take (ackRoom space)).length := by
  induction queue generalizing p space with
  | nil => exact ⟨p, by simp [addAcks], ⟨by simp, fun _ _ => rfl⟩, by simp, by simp, by simp⟩
  | cons n queue ih =>
    by_cases hspace : (ackSize : ℤ) ≤ space
    · obtain ⟨p', hp', hacks, hothers, hwire, hsize⟩ := exists_add_ack p n
      obtain ⟨q, hq, hwith, hsame, hwire', hsize'⟩ := ih p' (space - ackSize)
      rw [ackRoom_sub hspace, take_succ_cons, drop_succ_cons]
      refine ⟨q, ?_, ⟨?_, fun type htype => ?_⟩, by simp, fun _ => ?_, ?_⟩
      · rw [addAcks, if_neg (not_lt.mpr hspace), hp', Fallible.ok_bind, hq]
      · rw [hwith.acks, hacks, append_assoc]
        rfl
      · rw [hwith.others type htype, hothers type htype]
      · by_cases hnil : queue.take (ackRoom (space - ackSize)) = []
        · rw [hsame hnil, hwire]
        · exact hwire' hnil
      · rw [hsize', hsize, length_cons, Nat.mul_succ]
        omega
    · rw [ackRoom_of_lt (not_le.mp hspace)]
      refine ⟨p, ?_, ⟨by simp, fun _ _ => rfl⟩, by simp, by simp, by simp⟩
      rw [addAcks, if_pos (not_le.mp hspace)]
      rfl

/-! ### The size of the packet -/

/-- The packet gets the acknowledgements at the front of the queue, which leave it, and can still be
sent. -/
def PiggybacksRight (pkt : Packet) (mtu : ℤ) (ackQueue : List UInt64) : Prop :=
  ∃ acks rest q, ackQueue = acks ++ rest ∧ piggyback pkt mtu ackQueue = .ok (q, rest) ∧
    WithAcks pkt acks q ∧ (mtu = mtuUnlimited ∨ ∃ wire, q.wireEncode = .ok wire ∧ wire.size ≤ mtu)

/-- With `count` more acknowledgements there is room for the TLV-TYPE and the TLV-LENGTH of the
packet. -/
def LengthFits (pkt : Packet) (mtu : ℤ) (count : ℕ) : Prop :=
  count = 0 ∨ Tlv.sizeOfVarNumber lpPacket +
    Tlv.sizeOfVarNumber (pkt.fieldsSize + ackSize * count) ≤
      mtu - (pkt.fieldsSize + ackSize * count : ℕ)

variable {pkt : Packet} {wire : Block} {mtu : ℤ} {ackQueue : List UInt64}

theorem piggyback_eq (hwire : pkt.wireEncode = .ok wire) (htype : wire.type = lpPacket) :
    piggyback pkt mtu ackQueue = addAcks pkt (remainingSpace wire.size mtu) ackQueue := by
  rw [piggyback, hwire, Fallible.ok_bind, if_neg (not_not.mpr htype)]

theorem lengthFits_iff_sizeOfPacket {count : ℕ} :
    LengthFits pkt mtu count ↔
      count = 0 ∨ (sizeOfPacket (pkt.fieldsSize + ackSize * count) : ℤ) ≤ mtu := by
  rw [LengthFits, sizeOfPacket]
  push_cast
  exact or_congr_right ⟨fun h => by omega, fun h => by omega⟩

theorem exists_wireEncode_iff {acks : List UInt64} {q : Packet} (hwith : WithAcks pkt acks q)
    (hne : acks ≠ []) (hwire : q.wire = none) (hmtu : mtu < 2 ^ 64) :
    (∃ wire, q.wireEncode = .ok wire ∧ wire.size ≤ mtu) ↔
      (sizeOfPacket q.fieldsSize : ℤ) ≤ mtu := by
  have hack : ∃ b ∈ q.elements, b.type ≠ fragment := by
    obtain ⟨n, hn⟩ := exists_mem_of_ne_nil acks hne
    have hmem : ackElement n ∈ q.elementsOf ack := by
      rw [hwith.acks]
      exact mem_append_right _ (mem_map_of_mem hn)
    have htype : Lp.ack ≠ fragment := by decide
    exact ⟨ackElement n, (mem_filter.mp hmem).1, htype⟩
  rw [Packet.wireEncode_eq_encode hack]
  constructor
  · rintro ⟨wire, hencode, hsize⟩
    rw [← Packet.size_of_encode hwire hencode]
    exact hsize
  · intro hsize
    have hlt : q.fieldsSize < 2 ^ 64 := by
      rw [sizeOfPacket] at hsize
      omega
    obtain ⟨wire, hencode, -, hwireSize⟩ := Packet.exists_encode hwire hlt
    exact ⟨wire, hencode, hwireSize ▸ hsize⟩

theorem lengthFits_iff {count : ℕ} (hsize : wire.size = sizeOfPacket pkt.fieldsSize)
    (hfits : wire.size ≤ mtu) (hmtu : mtu < 2 ^ 16)
    (hcount : count ≤ ackRoom (remainingSpace wire.size mtu)) :
    LengthFits pkt mtu count ↔
      ¬ ((wire.size = 253 ∨ wire.size = 254) ∧ count ≠ 0 ∧
        mtu < wire.size + ackSize * count + 2) := by
  have hack : ackSize = 12 := rfl
  have htype : Tlv.sizeOfVarNumber lpPacket = 1 := rfl
  have hmax : Tlv.sizeOfVarNumber maxNdnPacketSize = 3 := rfl
  have hlimited : mtu ≠ mtuUnlimited := by
    have hvalue : mtuUnlimited = -1 := rfl
    omega
  have hpktSize : Tlv.sizeOfVarNumber wire.size = _ := Tlv.sizeOfVarNumber_of_lt (by omega)
  rw [ackRoom, remainingSpace, if_neg hlimited, hmax, hack, hpktSize] at hcount
  rw [lengthFits_iff_sizeOfPacket, hack, sizeOfPacket, htype]
  rw [sizeOfPacket, htype] at hsize
  generalize pkt.fieldsSize = size at hsize ⊢
  generalize wire.size = pktSize at hsize hfits hcount ⊢
  rw [Tlv.sizeOfVarNumber_of_lt (by omega)] at hsize
  have hafter : size + 12 * count < 2 ^ 16 := by split_ifs at hcount hsize <;> omega
  rw [Tlv.sizeOfVarNumber_of_lt hafter]
  -- the packet is below 253 bytes, or only its fields are, or neither
  split_ifs at hcount hsize ⊢ <;> omega

def packetOf253 : Packet :=
  (do
    let pkt ← Packet.empty.add sequenceField 1
    pkt.add fragmentField (replicate 239 0)).toOption.getD .empty

end LpReliability

end NdnFc
