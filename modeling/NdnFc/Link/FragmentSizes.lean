import NdnFc.Link.Fragmenter
import NdnFc.Link.PacketSize

/-!
# Sizes of fragments

`LpFragmenter::fragmentPacket` reserves a fixed number of bytes for the headers of a fragment. The
reserve is enough for the fields that are written. A packet with a longer header than the reserve
can be too long for the MTU although its fields are not, and is cut into one fragment.
-/

namespace NdnFc

open List Fallible Lp

namespace LpFragmenter

/-- The packet is sent as it is, or in at least two fragments that fit the MTU also with a Sequence
field, with room for the headers and no empty payload. An exception comes from reading the packet.
-/
structure SizesRight (options : Options) (packet : Packet) (mtu : ℕ) : Prop where
  error : ∀ e, fragmentPacket options packet mtu = .error e →
    packet.wireEncode = .error e ∨ packet.get fragmentField 0 = .error e
  frags : ∀ frags, fragmentPacket options packet mtu = .ok (some frags) →
    (frags = [packet] ∧ packet.Fits mtu) ∨
    (2 ≤ frags.length ∧ frags.length ≤ options.nMaxFragments ∧
      maxFragOverhead + firstHeaderSize packet < mtu ∧
      ∀ frag ∈ frags, (∃ payload, frag.get fragmentField 0 = .ok payload ∧ payload ≠ []) ∧
        frag.Fits mtu ∧ ∀ seq, ∃ q, frag.set sequenceField seq = .ok q ∧ q.Fits mtu)

/-- If the packet is too long for the MTU, so are the other fields and the network packet with the
space that is reserved for a fragment. -/
def NotCutInOne (options : Options) (packet : Packet) (mtu : ℕ) : Prop :=
  ∀ wire netPkt, packet.wireEncode = .ok wire → packet.get fragmentField 0 = .ok netPkt →
    1 ≤ options.nMaxFragments → mtu < maxSingleFragOverhead + wire.size →
    mtu < maxFragOverhead + firstHeaderSize packet + netPkt.length

/-! ### One fragment -/

theorem sizeOfField_integer_le (type integer : ℕ) (htype : type < 253) :
    sizeOfField type (Tlv.writeNonNegativeInteger integer).length ≤ 10 := by
  have hlength := Tlv.length_writeNonNegativeInteger_le integer
  rw [sizeOfField, Tlv.sizeOfVarNumber, if_pos htype, Tlv.sizeOfVarNumber, if_pos (by omega)]
  omega

variable {count : ℕ} {frag : Packet} {payload : Bytes} {start : Packet}

theorem headersSize_writeFragment {index : ℕ}
    (h : writeFragment start index count payload = .ok frag) :
    frag.headersSize ≤ start.headersSize + 20 := by
  rw [writeFragment] at h
  obtain ⟨withIndex, hindex, h⟩ := bind_eq_ok_iff.mp h
  obtain ⟨withCount, hcount, hfragment⟩ := bind_eq_ok_iff.mp h
  have h₁ := Packet.headersSize_add hindex
  have h₂ := Packet.headersSize_add hcount
  have h₃ := Packet.headersSize_set_le hfragment
  rw [if_neg (by decide)] at h₁ h₂
  rw [if_pos (by decide)] at h₃
  have hindexLe := sizeOfField_integer_le fragIndex index (by decide)
  have hcountLe := sizeOfField_integer_le fragCount count (by decide)
  have h₁' : withIndex.headersSize ≤ start.headersSize + 10 :=
    h₁.trans_le (Nat.add_le_add_left hindexLe _)
  have h₂' : withCount.headersSize ≤ withIndex.headersSize + 10 :=
    h₂.trans_le (Nat.add_le_add_left hcountLe _)
  omega

theorem headersSize_set_sequence {q : Packet} {seq : UInt64}
    (h : frag.set sequenceField seq = .ok q) : q.headersSize ≤ frag.headersSize + 10 := by
  have hle := Packet.headersSize_set_le h
  rw [if_neg (by decide)] at hle
  have hlength : (sequenceField.encode seq).length = 8 := BigEndian.length_ofNat 8 seq.toNat
  rw [hlength] at hle
  exact hle

theorem fieldsSize_le_of_holds {p : Packet} (h : p.Holds fragmentField payload) :
    p.fieldsSize ≤ p.headersSize + 10 + payload.length := by
  obtain ⟨b, hb, hdecode⟩ := h
  have htype : b.type = fragment := by
    have hmem : b ∈ p.elementsOf fragment := hb ▸ mem_singleton_self b
    exact eq_of_beq (mem_filter.mp hmem).2
  have hvalue : b.value = payload := by
    change decodeRange b = .ok payload at hdecode
    rw [decodeRange] at hdecode
    split_ifs at hdecode
    exact Except.ok.inj hdecode
  have hlength := Tlv.sizeOfVarNumber_le payload.length
  have hfragment : Tlv.sizeOfVarNumber fragment = 1 := rfl
  rw [Packet.fieldsSize_eq]
  change ((p.elementsOf fragmentField.tlvType).map fun b => b.reencode.size).sum + _ ≤ _
  rw [hb, map_singleton, sum_singleton, Block.size_reencode, htype, hvalue, hfragment]
  omega

theorem fits_of_headersSize {p : Packet} {mtu : ℕ} (hmtu : mtu < 2 ^ 64) (hwire : p.wire = none)
    (hheader : ∃ b ∈ p.elements, b.type ≠ fragment) (hholds : p.Holds fragmentField payload)
    (hsize : p.headersSize + 20 + payload.length ≤ mtu) :
    p.Fits mtu := by
  have hfields := fieldsSize_le_of_holds hholds
  obtain ⟨wire, hencode, -, hwireSize⟩ := Packet.exists_encode hwire (by omega)
  have hle := sizeOfPacket_le p.fieldsSize
  exact ⟨wire, (Packet.wireEncode_eq_encode hheader).trans hencode, by omega⟩

/-- A fragment that the loop has written into a packet with header fields of the given size. -/
structure Written (count headersSize fragSize : ℕ) (frag : Packet) : Prop where
  payload : ∃ index payload, IsFragment count index payload frag ∧ payload ≠ [] ∧
    payload.length ≤ fragSize
  headersSize_le : frag.headersSize ≤ headersSize + 20
  wire : frag.wire = none

theorem written_of_writeFragment {index fragSize : ℕ} (hindex : start.has fragIndexField = false)
    (hcount : start.has fragCountField = false) (hi : index < 2 ^ 64) (hc : count < 2 ^ 64)
    (hne : payload ≠ []) (hlt : payload.length < 2 ^ 64) (hle : payload.length ≤ fragSize)
    (h : writeFragment start index count payload = .ok frag) :
    Written count start.headersSize fragSize frag := by
  obtain ⟨q, hq, hfragment, -⟩ := writeFragment_eq_ok hindex hcount hi hc hne hlt
  obtain rfl : frag = q := Except.ok.inj (h.symm.trans hq)
  refine ⟨⟨index, payload, hfragment, hne, hle⟩, headersSize_writeFragment h, ?_⟩
  rw [writeFragment] at h
  obtain ⟨withIndex, -, h⟩ := bind_eq_ok_iff.mp h
  obtain ⟨withCount, -, h⟩ := bind_eq_ok_iff.mp h
  exact Packet.wire_add h

theorem written_of_populate {payloadSize : ℕ} (hsize : 0 < payloadSize) (hc : count < 2 ^ 64)
    {fuel index fragSize : ℕ} {frags : List Packet} (hfrag : 0 < fragSize)
    (hi : index + payload.length < 2 ^ 64) (hindex : start.has fragIndexField = false)
    (hcount : start.has fragCountField = false)
    (h : populate count payloadSize fuel index start fragSize payload = .ok frags) :
    ∀ frag ∈ frags, Written count start.headersSize fragSize frag ∨
      Written count 0 payloadSize frag := by
  induction fuel generalizing index start fragSize payload frags with
  | zero =>
    cases h
    simp
  | succ fuel ih =>
    cases payload with
    | nil =>
      cases h
      simp
    | cons byte bytes =>
      rw [populate] at h
      obtain ⟨first, hfirst, h⟩ := bind_eq_ok_iff.mp h
      obtain ⟨rest, hrest, h⟩ := bind_eq_ok_iff.mp h
      cases h
      have hpos : 0 < (byte :: bytes).length := by simp
      have htake : ((byte :: bytes).take fragSize).length = min fragSize (byte :: bytes).length :=
        length_take
      have hdrop : ((byte :: bytes).drop fragSize).length = (byte :: bytes).length - fragSize :=
        length_drop
      rw [forall_mem_cons]
      constructor
      · refine .inl (written_of_writeFragment hindex hcount (by omega) hc ?_ (by omega) (by omega)
          hfirst)
        exact length_pos_iff.mp (by omega)
      · intro frag hmem
        exact .inr ((ih hsize (by omega) rfl rfl hrest frag hmem).elim id id)

theorem Written.fits {headersSize fragSize mtu : ℕ} (h : Written count headersSize fragSize frag)
    (hmtu : mtu < 2 ^ 64) (hsize : maxFragOverhead + headersSize + fragSize ≤ mtu) :
    (∃ payload, frag.get fragmentField 0 = .ok payload ∧ payload ≠ []) ∧ frag.Fits mtu ∧
      ∀ seq, ∃ q, frag.set sequenceField seq = .ok q ∧ q.Fits mtu := by
  obtain ⟨⟨index, payload, hfragment, hne, hle⟩, hheaders, hwire⟩ := h
  have hoverhead : maxFragOverhead = 50 := rfl
  refine ⟨⟨payload, hfragment.fragment.get_eq_ok, hne⟩, ?_, fun seq => ?_⟩
  · exact fits_of_headersSize hmtu hwire
      (Packet.exists_mem_of_has hfragment.index.has_eq_true (by decide)) hfragment.fragment
      (by omega)
  · obtain ⟨q, hq, -, hother⟩ := Packet.set_eq_ok frag (roundTrips_sequence seq)
    have hle' := headersSize_set_sequence hq
    have hindex : q.Holds fragIndexField index := hfragment.index.congr (hother _ (by decide))
    exact ⟨q, hq, fits_of_headersSize hmtu (Packet.wire_add hq)
      (Packet.exists_mem_of_has hindex.has_eq_true (by decide))
      (hfragment.fragment.congr (hother _ (by decide))) (by omega)⟩

/-! ### All fragments -/

theorem headersSize_le_firstHeaderSize (packet : Packet) :
    packet.headersSize ≤ firstHeaderSize packet := by
  unfold firstHeaderSize encodedElements
  split
  next =>
    rw [Packet.headersSize]
    exact sum_le_sum fun b _ => b.size_reencode_le
  next =>
    rw [filter_map, map_map]
    exact le_rfl

theorem fragmentsFor_pos_iff {payloadSize length : ℕ} (hsize : 0 < payloadSize) :
    0 < fragmentsFor payloadSize length ↔ 0 < length := by
  constructor
  · intro h
    exact h.trans_le (fragmentsFor_le hsize length)
  · intro h
    rw [fragmentsFor_sub hsize h]
    exact Nat.succ_pos _

section

variable {options : Options} {packet : Packet} {mtu : ℕ} {wire : Block} {netPkt : Bytes}

def firstPayloadSize (packet : Packet) (mtu length : ℕ) : ℕ :=
  min length (mtu - firstHeaderSize packet - maxFragOverhead)

def fragCountFor (packet : Packet) (mtu length : ℕ) : ℕ :=
  1 + fragmentsFor (mtu - maxFragOverhead) (length - firstPayloadSize packet mtu length)

theorem fragmentPacket_of_long (hwire : packet.wireEncode = .ok wire)
    (hlong : mtu < maxSingleFragOverhead + wire.size)
    (hnet : packet.get fragmentField 0 = .ok netPkt) :
    fragmentPacket options packet mtu =
      if mtu < maxFragOverhead + firstHeaderSize packet + 1 then .ok none
      else if options.nMaxFragments < fragCountFor packet mtu netPkt.length then .ok none
      else populate (fragCountFor packet mtu netPkt.length) (mtu - maxFragOverhead) netPkt.length 0
        packet (firstPayloadSize packet mtu netPkt.length) netPkt >>= fun frags =>
          pure (some frags) := by
  rw [fragmentPacket, hwire, ok_bind, if_neg (Nat.not_le.mpr hlong), hnet,
    ok_bind]
  rfl

variable (hindex : packet.has fragIndexField = false) (hcount : packet.has fragCountField = false)
  (hnet : packet.get fragmentField 0 = .ok netPkt)
  (hroom : maxFragOverhead + firstHeaderSize packet < mtu)

include hindex hcount hnet hroom in
theorem exists_populate (hmtu : mtu < 2 ^ 64) :
    ∃ frags, populate (fragCountFor packet mtu netPkt.length) (mtu - maxFragOverhead) netPkt.length
        0 packet (firstPayloadSize packet mtu netPkt.length) netPkt = .ok frags ∧
      frags.length = fragCountFor packet mtu netPkt.length ∧ frags ≠ [packet] ∧
      ∀ frag ∈ frags, (∃ payload, frag.get fragmentField 0 = .ok payload ∧ payload ≠ []) ∧
        frag.Fits mtu ∧ ∀ seq, ∃ q, frag.set sequenceField seq = .ok q ∧ q.Fits mtu := by
  obtain ⟨hne, hlt⟩ := bounds_of_get_fragment hnet
  have hpos := length_pos_iff.mpr hne
  have hfirst : 0 < firstPayloadSize packet mtu netPkt.length := by
    rw [firstPayloadSize]
    omega
  have hsize : 0 < mtu - maxFragOverhead := by omega
  have hle := fragmentsFor_le hsize (netPkt.length - firstPayloadSize packet mtu netPkt.length)
  have hc : fragCountFor packet mtu netPkt.length < 2 ^ 64 := by
    rw [fragCountFor]
    omega
  obtain ⟨frags, payloads, hok, -, -, hlength, -⟩ :=
    populate_eq_ok hsize hc le_rfl hfirst (by omega : 0 + netPkt.length < 2 ^ 64) hindex hcount
  have hwritten := written_of_populate hsize hc hfirst (by omega) hindex hcount hok
  rw [if_neg hne] at hlength
  refine ⟨frags, hok, hlength, ?_, fun frag hfrag => ?_⟩
  · -- the packet has no index
    rintro rfl
    obtain ⟨⟨_, _, hfragment, -⟩, -⟩ | ⟨⟨_, _, hfragment, -⟩, -⟩ := hwritten packet (by simp)
    all_goals
      rw [hfragment.index.has_eq_true] at hindex
      cases hindex
  · have hheaders := headersSize_le_firstHeaderSize packet
    have hpayload : firstPayloadSize packet mtu netPkt.length ≤
        mtu - firstHeaderSize packet - maxFragOverhead := Nat.min_le_right _ _
    rcases hwritten frag hfrag with h | h
    all_goals exact h.fits hmtu (by omega)

include hroom in
theorem two_le_fragCountFor_iff : 2 ≤ fragCountFor packet mtu netPkt.length ↔
    mtu < maxFragOverhead + firstHeaderSize packet + netPkt.length := by
  have hsize : 0 < mtu - maxFragOverhead := by omega
  rw [fragCountFor, Nat.succ_le_iff, Nat.lt_add_right_iff_pos, fragmentsFor_pos_iff hsize,
    firstPayloadSize]
  omega

include hindex hcount hnet in
theorem sizesRight_iff_of_long (hmtu : mtu < 2 ^ 64) (hwire : packet.wireEncode = .ok wire)
    (hlong : mtu < maxSingleFragOverhead + wire.size) :
    SizesRight options packet mtu ↔ (1 ≤ options.nMaxFragments →
      mtu < maxFragOverhead + firstHeaderSize packet + netPkt.length) := by
  have hpos := length_pos_iff.mpr (bounds_of_get_fragment hnet).1
  have hresult : fragmentPacket options packet mtu = _ := fragmentPacket_of_long hwire hlong hnet
  by_cases hsmall : mtu < maxFragOverhead + firstHeaderSize packet + 1
  · rw [if_pos hsmall] at hresult
    refine iff_of_true ⟨fun e h => ?_, fun frags h => ?_⟩ fun _ => by omega
    all_goals
      rw [hresult] at h
      cases h
  · have hroom : maxFragOverhead + firstHeaderSize packet < mtu := by omega
    have htwo : 2 ≤ fragCountFor packet mtu netPkt.length ↔ _ := two_le_fragCountFor_iff hroom
    rw [if_neg hsmall] at hresult
    by_cases hmax : options.nMaxFragments < fragCountFor packet mtu netPkt.length
    · rw [if_pos hmax] at hresult
      refine iff_of_true ⟨fun e h => ?_, fun frags h => ?_⟩ fun _ => htwo.mp (by omega)
      all_goals
        rw [hresult] at h
        cases h
    · obtain ⟨frags, hfrags, hlength, hne, hfits⟩ :=
        exists_populate hindex hcount hnet hroom hmtu
      rw [if_neg hmax, hfrags] at hresult
      constructor
      · intro h hone
        rcases h.frags frags hresult with ⟨hsame, -⟩ | ⟨hmany, -⟩
        · exact absurd hsame hne
        · exact htwo.mp (by omega)
      · intro h
        refine ⟨fun e he => ?_, fun frags' hfrags' => ?_⟩
        · rw [hresult] at he
          cases he
        · rw [hresult] at hfrags'
          cases hfrags'
          have hmany := htwo.mpr (h (by rw [fragCountFor] at hmax; omega))
          exact .inr ⟨by omega, by omega, hroom, hfits⟩

end

/-- For every packet without fragmentation fields and every MTU, the sizes and the number of
fragments are right unless there is one fragment. -/
theorem sizesRight_iff (options : Options) {packet : Packet} (mtu : UInt64)
    (hindex : packet.has fragIndexField = false) (hcount : packet.has fragCountField = false) :
    SizesRight options packet mtu.toNat ↔ NotCutInOne options packet mtu.toNat := by
  have hmtu : mtu.toNat < 2 ^ 64 := mtu.toNat_lt
  generalize mtu.toNat = mtu at hmtu
  cases hwire : packet.wireEncode with
  | error e =>
    have herror : fragmentPacket options packet mtu = .error e := by
      rw [fragmentPacket, hwire]
      rfl
    refine iff_of_true ⟨fun e' h => .inl ?_, fun frags h => ?_⟩ fun wire netPkt h => ?_
    · cases herror.symm.trans h
      exact hwire
    · rw [herror] at h
      cases h
    · rw [hwire] at h
      cases h
  | ok wire =>
    by_cases hlong : mtu < maxSingleFragOverhead + wire.size
    · cases hnet : packet.get fragmentField 0 with
      | error e =>
        have herror : fragmentPacket options packet mtu = .error e := by
          rw [fragmentPacket, hwire, ok_bind, if_neg (Nat.not_le.mpr hlong), hnet]
          rfl
        refine iff_of_true ⟨fun e' h => .inr ?_, fun frags h => ?_⟩ fun wire netPkt _ h => ?_
        · cases herror.symm.trans h
          exact hnet
        · rw [herror] at h
          cases h
        · rw [hnet] at h
          cases h
      | ok netPkt =>
        rw [sizesRight_iff_of_long hindex hcount hnet hmtu hwire hlong]
        constructor
        · intro h wire' netPkt' hwire' hnet' hone _
          cases hnet.symm.trans hnet'
          exact h hone
        · intro h hone
          exact h wire netPkt hwire hnet hone hlong
    · have hfast : fragmentPacket options packet mtu = .ok (some [packet]) := by
        rw [fragmentPacket, hwire, ok_bind, if_pos (Nat.le_of_not_lt hlong)]
        rfl
      refine iff_of_true ⟨fun e h => ?_, fun frags h => ?_⟩ fun wire' netPkt h _ _ hlt => ?_
      · rw [hfast] at h
        cases h
      · rw [hfast] at h
        cases h
        exact .inl ⟨rfl, wire, hwire, by omega⟩
      · rw [hwire] at h
        cases h
        exact absurd hlt hlong

/-! ### Packets that are written anew -/

theorem size_le_of_bareNetworkPacket {element netPkt : Block}
    (h : Packet.bareNetworkPacket element = .ok netPkt) : netPkt.size ≤ element.value.length := by
  rw [Packet.bareNetworkPacket] at h
  obtain ⟨elements, hparse, h⟩ := bind_eq_ok_iff.mp h
  rw [← Block.flatMap_wire_of_parse hparse]
  cases elements with
  | nil => cases h
  | cons first rest =>
    cases h
    rw [flatMap_cons, length_append]
    exact Nat.le_add_right _ _

theorem notCutInOne_of_wire (options : Options) {packet : Packet} (mtu : ℕ)
    (hwire : packet.wire = none) : NotCutInOne options packet mtu := by
  intro wire netPkt hencode hnet _ hlong
  have hheaders := headersSize_le_firstHeaderSize packet
  have hholds := Packet.Holds.of_get (by rfl) hnet
  have hfields := fieldsSize_le_of_holds hholds
  have hsingle : maxSingleFragOverhead = 30 := rfl
  have hoverhead : maxFragOverhead = 50 := rfl
  suffices hsize : wire.size ≤ packet.headersSize + netPkt.length + 20 by omega
  unfold Packet.wireEncode at hencode
  split at hencode
  next element helements =>
    split_ifs at hencode with htype
    · have hvalue : element.value = netPkt := by
        obtain ⟨b, hb, hdecode⟩ := hholds
        change (packet.elements.filter fun b => b.type == fragment) = [b] at hb
        rw [helements, filter_cons_of_pos (by simpa using htype)] at hb
        obtain rfl : element = b := (List.cons.inj hb).1
        change decodeRange element = .ok netPkt at hdecode
        rw [decodeRange] at hdecode
        split_ifs at hdecode
        exact Except.ok.inj hdecode
      have hle := size_le_of_bareNetworkPacket hencode
      rw [hvalue] at hle
      omega
    · exact (Packet.size_encode_le hwire hencode).trans (by omega)
  next => exact (Packet.size_encode_le hwire hencode).trans (by omega)

/-- A packet that was received with long headers: a NonDiscovery field and a network packet of three
bytes. -/
def paddedPacket : Packet :=
  (do
    let wire ← Block.ofBytes ([255, 0, 0, 0, 0, 0, 0, 0, 100] ++ [255, 0, 0, 0, 0, 0, 0, 0, 17] ++
      [253, 3, 76, 0] ++ [255, 0, 0, 0, 0, 0, 0, 0, 80] ++ [3, 6, 1, 65])
    Packet.wireDecode wire).toOption.getD .empty

/-- It is cut into one fragment. -/
theorem not_sizesRight_padded : paddedPacket.has fragIndexField = false ∧
    paddedPacket.has fragCountField = false ∧
    (∃ frag, fragmentPacket {} paddedPacket 60 = .ok (some [frag]) ∧
      frag.has fragIndexField = true) ∧
    ¬ SizesRight {} paddedPacket 60 := by
  have hfrags : ∃ frag, fragmentPacket {} paddedPacket 60 = .ok (some [frag]) ∧
      frag.has fragIndexField = true := ⟨_, rfl, by decide⟩
  refine ⟨by decide, by decide, hfrags, fun h => ?_⟩
  obtain ⟨frag, hfrag, hindex⟩ := hfrags
  rcases h.frags [frag] hfrag with ⟨hsame, -⟩ | ⟨hmany, -⟩
  · obtain rfl : frag = paddedPacket := singleton_inj.mp hsame
    exact absurd hindex (by decide)
  · exact absurd hmany (by simp)

def barePacket : Packet :=
  (Packet.empty.add fragmentField (6 :: 38 :: List.replicate 38 7)).toOption.getD .empty

/-- It is cut into three fragments when the MTU is 69. -/
theorem sizesRight_bare : (∃ frags, fragmentPacket {} barePacket 69 = .ok (some frags) ∧
    frags.length = 3) ∧ SizesRight {} barePacket 69 :=
  ⟨⟨_, rfl, rfl⟩, (sizesRight_iff {} 69 (by decide) (by decide)).mpr
    (notCutInOne_of_wire {} _ rfl)⟩

end LpFragmenter

end NdnFc
