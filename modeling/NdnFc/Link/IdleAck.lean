import NdnFc.Link.AckQueue

/-!
# Idle acknowledgements

When the link is idle, a timer of `LpReliability` requests IDLE packets until the queue of
acknowledgements is empty (`NFD-FC/daemon/face/lp-reliability.cpp`, lines 234 to 248).
`GenericLinkService::sendLpPacket` (`generic-link-service.cpp`, lines 92 to 113) attaches the
acknowledgements, may add a congestion mark, and drops a packet over the MTU. No setter asks for an
MTU with room for an acknowledgement.
-/

namespace NdnFc

open Lp

def Lp.congestionMarkField : FieldDecl ℕ :=
  ⟨⟨.header, congestionMark, false⟩, by decide, Tlv.writeNonNegativeInteger,
    Block.readNonNegativeInteger⟩

/-- `Transport::setMtu`, which asserts that the MTU is unlimited or not negative. -/
def Transport.setMtu (mtu : Int64) : Option Int64 :=
  if mtu = -1 ∨ 0 ≤ mtu then some mtu else none

namespace GenericLinkService

/-- `getEffectiveMtu`: the smaller one of the MTU in the options, which may be any, and the MTU of the
transport. -/
def getEffectiveMtu (overrideMtu transportMtu : Int64) : Int64 :=
  if transportMtu < overrideMtu then transportMtu else overrideMtu

/-- What `checkCongestionLevel` does to a packet. -/
def markIfCongested (isMarked : Bool) (pkt : Packet) : Except String Packet :=
  if isMarked then pkt.set congestionMarkField 1 else pure pkt

/-- `sendLpPacket` with reliability enabled: the element that is sent, if any, and the rest of the
acknowledgements. -/
def sendLpPacket (mtu : Int64) (isMarked : Bool) (pkt : Packet) (ackQueue : List UInt64) :
    Except String (Option Block × List UInt64) := do
  let (pkt, ackQueue) ← LpReliability.piggyback pkt mtu.toInt ackQueue
  let pkt ← markIfCongested isMarked pkt
  let block ← pkt.wireEncode
  if mtu ≠ -1 ∧ mtu.toUInt64.toNat < block.size then pure (none, ackQueue)
  else pure (some block, ackQueue)

def requestIdlePacket (mtu : Int64) (isMarked : Bool) (ackQueue : List UInt64) :
    Except String (Option Block × List UInt64) :=
  sendLpPacket mtu isMarked .empty ackQueue

end GenericLinkService

namespace LpReliability

open GenericLinkService

/-- What the idle timer does. The first number bounds the turns of the loop and the second counts
them. At the bound there is no result. -/
def onIdleAckTimer (mtu : Int64) (isMarked : ℕ → Bool) :
    ℕ → ℕ → List UInt64 → Option (Except String (List (Option Block) × List UInt64))
  | _, _, [] => some (.ok ([], []))
  | 0, _, _ :: _ => none
  | fuel + 1, turn, ackTxSeq :: ackQueue =>
    match requestIdlePacket mtu (isMarked turn) (ackTxSeq :: ackQueue) with
    | .error e => some (.error e)
    | .ok (sent, rest) =>
      (onIdleAckTimer mtu isMarked fuel (turn + 1) rest).map
        (Except.map fun result => (sent :: result.1, result.2))

/-- The acknowledgements that an IDLE packet has room for. -/
def idleRoom (mtu : Int64) : ℕ :=
  ackRoom (remainingSpace 2 mtu.toInt)

variable {mtu : Int64} {isMarked : ℕ → Bool} {ackQueue : List UInt64}

theorem idleRoom_eq_zero_iff :
    idleRoom mtu = 0 ↔ ¬ (mtu.toInt = mtuUnlimited ∨ 16 ≤ mtu.toInt) := by
  have hsize : (ackSize : ℤ) = 12 := rfl
  have hreserved : (Tlv.sizeOfVarNumber maxNdnPacketSize : ℤ) - Tlv.sizeOfVarNumber 2 = 2 := rfl
  have hmax : (maxNdnPacketSize : ℤ) = 8800 := rfl
  have hvalue : mtuUnlimited = -1 := rfl
  rw [idleRoom, ackRoom, remainingSpace, hsize, hreserved, hmax]
  split_ifs <;> omega

theorem ackSize_mul_idleRoom_le : ackSize * idleRoom mtu ≤ 2 ^ 63 := by
  have hsize : ackSize = 12 := rfl
  have hreserved : (Tlv.sizeOfVarNumber maxNdnPacketSize : ℤ) - Tlv.sizeOfVarNumber 2 = 2 := rfl
  have hmax : (maxNdnPacketSize : ℤ) = 8800 := rfl
  have hlt := mtu.toInt_lt
  rw [idleRoom, ackRoom, remainingSpace, hreserved, hmax, hsize]
  split_ifs <;> omega

theorem exists_piggyback_empty (mtu : Int64) (ackQueue : List UInt64) :
    ∃ q, piggyback .empty mtu.toInt ackQueue = .ok (q, ackQueue.drop (idleRoom mtu)) ∧
      q.elementsOf fragment = [] ∧ q.wire = none ∧ q.fieldsSize ≤ 2 ^ 63 := by
  obtain ⟨q, hq, hwith, hsame, hnone, hsize⟩ :=
    addAcks_eq .empty (remainingSpace 2 mtu.toInt) ackQueue
  have hwire : Packet.empty.wireEncode = .ok (.makeEmptyBlock lpPacket (by decide) (by decide)) :=
    rfl
  refine ⟨q, ?_, hwith.others fragment (by decide), ?_, ?_⟩
  · rw [piggyback_eq hwire rfl]
    exact hq
  · by_cases hnil : ackQueue.take (ackRoom (remainingSpace 2 mtu.toInt)) = []
    · rw [hsame hnil]
      rfl
    · exact hnone hnil
  · have hempty : Packet.empty.fieldsSize = 0 := rfl
    rw [hsize, hempty, Nat.zero_add]
    exact (Nat.mul_le_mul_left _ (List.length_take_le _ _)).trans ackSize_mul_idleRoom_le

theorem exists_marked {q : Packet} (hfragment : q.elementsOf fragment = []) (hwire : q.wire = none)
    (hsize : q.fieldsSize ≤ 2 ^ 63) (isMarked : Bool) :
    ∃ p wire, markIfCongested isMarked q = .ok p ∧ p.wireEncode = .ok wire := by
  have hencode : ∀ p : Packet, p.elementsOf fragment = [] → p.wire = none →
      p.fieldsSize < 2 ^ 64 → ∃ wire, p.wireEncode = .ok wire := by
    intro p hfragment hwire hlt
    obtain ⟨wire, hwire, -⟩ := Packet.exists_encode hwire hlt
    exact ⟨wire, (Packet.wireEncode_eq_encode_of_elementsOf hfragment).trans hwire⟩
  cases isMarked with
  | false =>
    obtain ⟨wire, hq⟩ := hencode q hfragment hwire (by omega)
    exact ⟨q, wire, rfl, hq⟩
  | true =>
    have hmark : congestionMarkField.RoundTrips 1 :=
      ⟨length_writeNonNegativeInteger_lt 1, Tlv.readNonNegativeInteger_write (by decide : 1 < 2 ^ 64)⟩
    obtain ⟨p, hp, -, hother⟩ := Packet.set_eq_ok q hmark
    have hle : p.fieldsSize ≤ q.fieldsSize + 5 := Packet.fieldsSize_set_le hp
    obtain ⟨wire, hwire⟩ := hencode p ((hother _ (by decide)).trans hfragment)
      (Packet.wire_add hp) (by omega)
    exact ⟨p, wire, hp, hwire⟩

theorem requestIdlePacket_eq (mtu : Int64) (isMarked : Bool) (ackQueue : List UInt64) :
    ∃ sent, requestIdlePacket mtu isMarked ackQueue =
      .ok (sent, ackQueue.drop (idleRoom mtu)) := by
  obtain ⟨q, hq, hfragment, hwire, hsize⟩ := exists_piggyback_empty mtu ackQueue
  obtain ⟨p, wire, hp, hwire⟩ := exists_marked hfragment hwire hsize isMarked
  rw [requestIdlePacket, sendLpPacket, hq, Fallible.ok_bind]
  dsimp only
  rw [hp, Fallible.ok_bind, hwire, Fallible.ok_bind]
  split
  · exact ⟨none, rfl⟩
  · exact ⟨some wire, rfl⟩

theorem onIdleAckTimer_eq_none (hroom : idleRoom mtu = 0) (hne : ackQueue ≠ []) (fuel turn : ℕ) :
    onIdleAckTimer mtu isMarked fuel turn ackQueue = none := by
  obtain ⟨ackTxSeq, rest, rfl⟩ := List.exists_cons_of_ne_nil hne
  induction fuel generalizing turn with
  | zero => rfl
  | succ fuel ih =>
    obtain ⟨sent, hsent⟩ := requestIdlePacket_eq mtu (isMarked turn) (ackTxSeq :: rest)
    rw [hroom, List.drop_zero] at hsent
    rw [onIdleAckTimer, hsent]
    dsimp only
    rw [ih, Option.map_none]

theorem exists_onIdleAckTimer (hroom : 0 < idleRoom mtu) {fuel : ℕ} (hfuel : ackQueue.length ≤ fuel)
    (turn : ℕ) : ∃ sent, onIdleAckTimer mtu isMarked fuel turn ackQueue = some (.ok (sent, [])) := by
  induction fuel generalizing turn ackQueue with
  | zero =>
    obtain rfl := List.length_eq_zero_iff.mp (Nat.le_zero.mp hfuel)
    exact ⟨[], rfl⟩
  | succ fuel ih =>
    cases ackQueue with
    | nil => exact ⟨[], rfl⟩
    | cons ackTxSeq rest =>
      obtain ⟨sent, hsent⟩ := requestIdlePacket_eq mtu (isMarked turn) (ackTxSeq :: rest)
      have hless : ((ackTxSeq :: rest).drop (idleRoom mtu)).length ≤ fuel := by
        rw [List.length_drop]
        omega
      obtain ⟨others, hothers⟩ := ih hless (turn + 1)
      refine ⟨sent :: others, ?_⟩
      rw [onIdleAckTimer, hsent]
      dsimp only
      rw [hothers]
      rfl

/-- For every MTU and queue, the loop of the idle timer ends with an empty queue exactly when
nothing was pending or the effective MTU is unlimited or at least 16. -/
theorem onIdleAckTimer_iff (overrideMtu transportMtu : Int64) (isMarked : ℕ → Bool)
    (ackQueue : List UInt64) :
    (∃ fuel sent, onIdleAckTimer (getEffectiveMtu overrideMtu transportMtu) isMarked fuel 0 ackQueue =
      some (.ok (sent, []))) ↔
    ackQueue = [] ∨ (getEffectiveMtu overrideMtu transportMtu).toInt = mtuUnlimited ∨
      16 ≤ (getEffectiveMtu overrideMtu transportMtu).toInt := by
  constructor
  · rintro ⟨fuel, sent, h⟩
    refine or_iff_not_imp_left.mpr fun hne => not_not.mp fun hsmall => ?_
    rw [onIdleAckTimer_eq_none (idleRoom_eq_zero_iff.mpr hsmall) hne] at h
    cases h
  · rintro (rfl | hmtu)
    · exact ⟨0, [], rfl⟩
    · have hroom : 0 < idleRoom (getEffectiveMtu overrideMtu transportMtu) :=
        Nat.pos_of_ne_zero fun hzero => idleRoom_eq_zero_iff.mp hzero hmtu
      obtain ⟨sent, hsent⟩ := exists_onIdleAckTimer hroom le_rfl 0
      exact ⟨ackQueue.length, sent, hsent⟩

/-- A transport may have an MTU of 15. With one acknowledgement the loop does not end. -/
theorem not_onIdleAckTimer_small : Transport.setMtu 15 = some 15 ∧
    ∀ fuel, onIdleAckTimer (getEffectiveMtu Int64.maxValue 15) (fun _ => false) fuel 0 [1] = none :=
  ⟨by decide, fun fuel => onIdleAckTimer_eq_none (by decide) (by decide) fuel 0⟩

end LpReliability

end NdnFc
