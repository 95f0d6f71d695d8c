import NdnFc.Link.Packet

/-!
# Fragmentation of link packets

`LpFragmenter::fragmentPacket` (`NFD-FC/daemon/face/lp-fragmenter.cpp`) cuts the network packet of an
LpPacket into fragments that fit an MTU, and `GenericLinkService::assignSequences`
(`generic-link-service.cpp`) numbers them.
-/

namespace NdnFc

open Fallible Lp List

namespace LpFragmenter

/-- The overhead of a packet that is not fragmented: LpPacket header, Sequence, Fragment header. -/
def maxSingleFragOverhead : ℕ := 1 + 9 + (1 + 1 + 8) + (1 + 9)

/-- The overhead of a fragment: LpPacket header, Sequence, FragIndex, FragCount, Fragment header. -/
def maxFragOverhead : ℕ := 1 + 9 + (1 + 1 + 8) + (1 + 1 + 8) + (1 + 1 + 8) + (1 + 9)

structure Options where
  nMaxFragments : ℕ := 400

/-- The sub-elements of `m_wire` once it is encoded: as they were received, or written anew. -/
def encodedElements (packet : Packet) : List Block :=
  match packet.wire with
  | some _ => packet.elements
  | none => packet.elements.map Block.reencode

/-- The size of the fields other than the Fragment. A bare network packet has none. -/
def firstHeaderSize (packet : Packet) : ℕ :=
  (((encodedElements packet).filter fun b => b.type != fragment).map Block.size).sum

/-- The fields that the loop writes into one fragment. -/
def writeFragment (frag : Packet) (index count : ℕ) (payload : Bytes) : Except String Packet := do
  let frag ← frag.add fragIndexField index
  let frag ← frag.add fragCountField count
  frag.set fragmentField payload

/-- The loop of `fragmentPacket` over the rest of the network packet: the next fragment starts as
`frag` and takes `fragSize` bytes. The first argument bounds the turns. -/
def populate (fragCount payloadSize : ℕ) :
    ℕ → ℕ → Packet → ℕ → Bytes → Except String (List Packet)
  | 0, _, _, _, _ => pure []
  | _, _, _, _, [] => pure []
  | fuel + 1, fragIndex, frag, fragSize, byte :: bytes => do
    let frag ← writeFragment frag fragIndex fragCount ((byte :: bytes).take fragSize)
    let frags ← populate fragCount payloadSize fuel (fragIndex + 1) .empty payloadSize
      ((byte :: bytes).drop fragSize)
    pure (frag :: frags)

def fragmentsFor (payloadSize length : ℕ) : ℕ :=
  length / payloadSize + if length % payloadSize ≠ 0 then 1 else 0

/-- `fragmentPacket`. No list stands for a failure. -/
def fragmentPacket (options : Options) (packet : Packet) (mtu : ℕ) :
    Except String (Option (List Packet)) := do
  let packetWire ← packet.wireEncode
  if maxSingleFragOverhead + packetWire.size ≤ mtu then pure (some [packet])
  else do
    let netPkt ← packet.get fragmentField 0
    if mtu < maxFragOverhead + firstHeaderSize packet + 1 then pure none
    else
      let firstPayloadSize := min netPkt.length (mtu - firstHeaderSize packet - maxFragOverhead)
      let payloadSize := mtu - maxFragOverhead
      let fragCount := 1 + fragmentsFor payloadSize (netPkt.length - firstPayloadSize)
      if options.nMaxFragments < fragCount then pure none
      else do
        let frags ← populate fragCount payloadSize netPkt.length 0 packet firstPayloadSize netPkt
        pure (some frags)

end LpFragmenter

/-! ### What a fragment carries -/

/-- The fragmentation fields of one fragment. -/
structure IsFragment (count index : ℕ) (payload : Bytes) (frag : Packet) : Prop where
  index : frag.Holds fragIndexField index
  count : frag.Holds fragCountField count
  fragment : frag.Holds fragmentField payload

/-- The packets are fragments with consecutive indexes and the given payloads. -/
def Numbered (count : ℕ) : ℕ → List Packet → List Bytes → Prop
  | _, [], [] => True
  | index, frag :: frags, payload :: payloads =>
    IsFragment count index payload frag ∧ Numbered count (index + 1) frags payloads
  | _, _, _ => False

/-- The TLV-TYPEs of the fields that fragmentation writes. -/
def fragmentationTypes : List ℕ := [fragment, fragIndex, fragCount]

namespace LpFragmenter

theorem writeFragment_eq_ok {frag : Packet} {index count : ℕ} {payload : Bytes}
    (hindex : frag.has fragIndexField = false) (hcount : frag.has fragCountField = false)
    (hi : index < 2 ^ 64) (hc : count < 2 ^ 64) (hne : payload ≠ [])
    (hlt : payload.length < 2 ^ 64) :
    ∃ q, writeFragment frag index count payload = .ok q ∧ IsFragment count index payload q ∧
      ∀ type, type ∉ fragmentationTypes → q.elementsOf type = frag.elementsOf type := by
  obtain ⟨q₁, h₁, hholds₁, hother₁⟩ := Packet.add_eq_ok hindex (roundTrips_fragIndex hi)
  have hcount₁ : q₁.has fragCountField = false := by
    rw [Packet.has_eq_false_iff] at hcount ⊢
    rw [← hcount]
    exact hother₁ _ (by decide)
  obtain ⟨q₂, h₂, hholds₂, hother₂⟩ := Packet.add_eq_ok hcount₁ (roundTrips_fragCount hc)
  obtain ⟨q₃, h₃, hholds₃, hother₃⟩ := Packet.set_eq_ok q₂ (roundTrips_fragment hne hlt)
  refine ⟨q₃, ?_, ⟨?_, ?_, hholds₃⟩, fun type ht => ?_⟩
  · rw [writeFragment, h₁, ok_bind, h₂, ok_bind, h₃]
  · exact hholds₁.congr ((hother₃ _ (by decide)).trans (hother₂ _ (by decide)))
  · exact hholds₂.congr (hother₃ _ (by decide))
  · simp only [fragmentationTypes, mem_cons, not_mem_nil, or_false, not_or] at ht
    rw [hother₃ type ht.1, hother₂ type ht.2.2, hother₁ type ht.2.1]

variable {payloadSize : ℕ}

theorem fragmentsFor_sub {length : ℕ} (hsize : 0 < payloadSize) (hlength : 0 < length) :
    fragmentsFor payloadSize length = fragmentsFor payloadSize (length - payloadSize) + 1 := by
  unfold fragmentsFor
  rcases Nat.lt_or_ge length payloadSize with hlt | hle
  · rw [Nat.div_eq_of_lt hlt, Nat.mod_eq_of_lt hlt, Nat.sub_eq_zero_of_le hlt.le, if_pos hlength.ne']
    simp
  · rw [Nat.div_eq_sub_div hsize hle, Nat.mod_eq_sub_mod hle]
    omega

theorem fragmentsFor_le (hsize : 0 < payloadSize) (length : ℕ) :
    fragmentsFor payloadSize length ≤ length := by
  induction length using Nat.strong_induction_on with
  | _ length ih =>
    rcases Nat.eq_zero_or_pos length with rfl | hpos
    · simp [fragmentsFor]
    · have := ih (length - payloadSize) (by omega)
      rw [fragmentsFor_sub hsize hpos]
      omega

theorem populate_eq_ok {count : ℕ} (hsize : 0 < payloadSize) (hc : count < 2 ^ 64)
    {fuel index fragSize : ℕ} {frag : Packet} {payload : Bytes} (hfuel : payload.length ≤ fuel)
    (hfrag : 0 < fragSize) (hi : index + payload.length < 2 ^ 64)
    (hindex : frag.has fragIndexField = false) (hcount : frag.has fragCountField = false) :
    ∃ frags payloads, populate count payloadSize fuel index frag fragSize payload = .ok frags ∧
      payloads.flatten = payload ∧ Numbered count index frags payloads ∧
      frags.length = (if payload = [] then 0
        else 1 + fragmentsFor payloadSize (payload.length - fragSize)) ∧
      ∀ first ∈ frags.head?, ∀ type, type ∉ fragmentationTypes →
        first.elementsOf type = frag.elementsOf type := by
  induction fuel generalizing index frag fragSize payload with
  | zero =>
    obtain rfl : payload = [] := length_eq_zero_iff.mp (by omega)
    exact ⟨[], [], rfl, rfl, trivial, rfl, by simp⟩
  | succ fuel ih =>
    cases payload with
    | nil => exact ⟨[], [], rfl, rfl, trivial, rfl, by simp⟩
    | cons byte bytes =>
      have hpos : 0 < (byte :: bytes).length := by simp
      have htake : ((byte :: bytes).take fragSize).length ≤ (byte :: bytes).length := by simp
      obtain ⟨q, hq, hfragment, hother⟩ :=
        writeFragment_eq_ok hindex hcount (by omega : index < 2 ^ 64) hc
          (by simp; omega : (byte :: bytes).take fragSize ≠ []) (by omega)
      have hdrop : ((byte :: bytes).drop fragSize).length = (byte :: bytes).length - fragSize :=
        length_drop
      obtain ⟨frags, payloads, hrest, hflat, hnum, hlen, -⟩ :=
        ih (by omega : ((byte :: bytes).drop fragSize).length ≤ fuel) hsize
          (by omega : index + 1 + ((byte :: bytes).drop fragSize).length < 2 ^ 64)
          (by rfl : Packet.empty.has fragIndexField = false) rfl
      refine ⟨q :: frags, (byte :: bytes).take fragSize :: payloads, ?_, ?_, ⟨hfragment, hnum⟩,
        ?_, ?_⟩
      · rw [populate, hq, ok_bind, hrest]
        rfl
      · rw [flatten_cons, hflat, take_append_drop]
      · rw [length_cons, hlen, if_neg (cons_ne_nil _ _), hdrop]
        split
        next hnil =>
          rw [← hdrop, hnil]
          simp [fragmentsFor]
        next hne =>
          have hstep := fragmentsFor_sub hsize (length_pos_iff.mpr hne)
          rw [hdrop] at hstep
          omega
      · simpa using hother

theorem bounds_of_get_fragment {packet : Packet} {bytes : Bytes}
    (h : packet.get fragmentField 0 = .ok bytes) : bytes ≠ [] ∧ bytes.length < 2 ^ 64 := by
  unfold Packet.get at h
  split at h
  next element _ =>
    change decodeRange element = .ok bytes at h
    unfold decodeRange at h
    split at h
    next => cases h
    next hne =>
      cases h
      exact ⟨hne, element.length_value_lt⟩
  next => cases h

theorem fragmentPacket_spec {options : Options} {packet : Packet} {mtu : ℕ} {netPkt : Bytes}
    {frags : List Packet} (hindex : packet.has fragIndexField = false)
    (hcount : packet.has fragCountField = false) (hnet : packet.get fragmentField 0 = .ok netPkt)
    (h : fragmentPacket options packet mtu = .ok (some frags)) (hmany : 1 < frags.length) :
    frags.length ≤ options.nMaxFragments ∧ frags.length < 2 ^ 64 ∧
      (∃ payloads, payloads.flatten = netPkt ∧ Numbered frags.length 0 frags payloads) ∧
      ∀ first ∈ frags.head?, ∀ type, type ∉ fragmentationTypes →
        first.elementsOf type = packet.elementsOf type := by
  obtain ⟨hne, hlt⟩ := bounds_of_get_fragment hnet
  unfold fragmentPacket at h
  obtain ⟨packetWire, -, h⟩ := bind_eq_ok_iff.mp h
  split at h
  next =>
    -- the packet fits as it is
    cases h
    simp at hmany
  next =>
    rw [hnet, ok_bind] at h
    split at h
    next => cases h
    next hmtu =>
      dsimp only at h
      split at h
      next => cases h
      next hmax =>
        have hpos := length_pos_iff.mpr hne
        obtain ⟨frags', hfrags, h⟩ := bind_eq_ok_iff.mp h
        cases h
        set first := min netPkt.length (mtu - firstHeaderSize packet - maxFragOverhead)
        have hfirst : 0 < first := by omega
        have hsize : 0 < mtu - maxFragOverhead := by omega
        have hle := fragmentsFor_le hsize (netPkt.length - first)
        have hc : 1 + fragmentsFor (mtu - maxFragOverhead) (netPkt.length - first) < 2 ^ 64 := by
          omega
        obtain ⟨frags, payloads, hok, hflat, hnum, hlen, hhead⟩ :=
          populate_eq_ok hsize hc le_rfl hfirst (by omega : 0 + netPkt.length < 2 ^ 64) hindex hcount
        rw [hok] at hfrags
        cases hfrags
        rw [if_neg hne] at hlen
        rw [← hlen] at hnum
        exact ⟨by omega, by omega, ⟨payloads, hflat, hnum⟩, hhead⟩

end LpFragmenter

namespace GenericLinkService

/-- `assignSequences`: the number assigned last and the numbered packets. -/
def assignSequences : UInt64 → List Packet → Except String (UInt64 × List Packet)
  | lastSeqNo, [] => pure (lastSeqNo, [])
  | lastSeqNo, pkt :: pkts => do
    let pkt ← pkt.set sequenceField (lastSeqNo + 1)
    let (lastSeqNo, pkts) ← assignSequences (lastSeqNo + 1) pkts
    pure (lastSeqNo, pkt :: pkts)

/-- The packets carry consecutive sequence numbers. -/
def Sequenced : UInt64 → List Packet → Prop
  | _, [] => True
  | first, pkt :: pkts => pkt.Holds sequenceField first ∧ Sequenced (first + 1) pkts

theorem assignSequences_spec {lastSeqNo lastSeqNo' : UInt64} {pkts sent : List Packet}
    (h : assignSequences lastSeqNo pkts = .ok (lastSeqNo', sent)) :
    Sequenced (lastSeqNo + 1) sent ∧
      List.Forall₂ (fun pkt sent => ∀ type, type ≠ sequence →
        sent.elementsOf type = pkt.elementsOf type) pkts sent := by
  induction pkts generalizing lastSeqNo sent with
  | nil =>
    cases h
    exact ⟨trivial, .nil⟩
  | cons pkt pkts ih =>
    obtain ⟨q, hq, hholds, hother⟩ := Packet.set_eq_ok pkt (roundTrips_sequence (lastSeqNo + 1))
    rw [assignSequences, hq, ok_bind] at h
    obtain ⟨⟨last, rest⟩, hrest, h⟩ := bind_eq_ok_iff.mp h
    cases h
    obtain ⟨hseq, hall⟩ := ih hrest
    exact ⟨⟨hholds, hseq⟩, .cons hother hall⟩

theorem numbered_of_forall₂ {count index : ℕ} {pkts sent : List Packet} {payloads : List Bytes}
    (h : Numbered count index pkts payloads)
    (hall : List.Forall₂ (fun pkt sent => ∀ type, type ≠ sequence →
      sent.elementsOf type = pkt.elementsOf type) pkts sent) :
    Numbered count index sent payloads := by
  induction hall generalizing index payloads with
  | nil => exact h
  | cons hother _ ih =>
    cases payloads with
    | nil => exact h.elim
    | cons payload payloads =>
      obtain ⟨⟨hi, hc, hf⟩, hrest⟩ := h
      refine ⟨⟨hi.congr ?_, hc.congr ?_, hf.congr ?_⟩, ih hrest⟩
      all_goals exact hother _ (by decide)

end GenericLinkService

end NdnFc
