import NdnFc.Lib.Run
import NdnFc.Link.Packet

/-!
# Decoding NDNLPv2 packets

`lp::Packet::wireDecode` (`ndn-cxx/lp/packet.cpp`, lines 113 to 157) takes a bare Interest or Data,
or an LpPacket: unknown fields must be ignorable, and each field is compared with the one before it.
-/

namespace NdnFc

namespace Lp

open List

def isRecognized (type : ℕ) : Bool :=
  (fieldSet.find? fun traits => traits.tlvType == type).isSome

/-- `FieldInfo::canIgnore`, which is set for a field that is not recognized. -/
def canIgnore (type : ℕ) : Bool :=
  !isRecognized type && (800 ≤ type && type ≤ 959 && type &&& 0x03 == 0x00)

/-- The loop of `wireDecode` over the fields, with the field before. -/
def checkFields : Option Block → List Block → Except String Unit
  | _, [] => .ok ()
  | prev, element :: rest =>
    if !isRecognized element.type && !canIgnore element.type then
      .error ("unrecognized field " ++ toString element.type ++ " cannot be ignored")
    else
      match prev with
      | none => checkFields (some element) rest
      | some prev =>
        if element.type = prev.type ∧ (fieldInfo element.type).isRepeatable = false then
          .error ("non-repeatable field " ++ toString element.type ++ " cannot be repeated")
        else if element.type ≠ prev.type ∧ compareFieldSortOrder prev element ≠ .lt then
          .error "fields are not in correct sort order"
        else checkFields (some element) rest

/-- The fields are in the order of the protocol, only repeatable fields are repeated, and unknown
fields may be ignored. -/
structure Canonical (elements : List Block) : Prop where
  ordered : OrderedList.Ordered compareFieldSortOrder elements
  noRepeat : elements.Pairwise fun a b => a.type = b.type → (fieldInfo a.type).isRepeatable = true
  known : ∀ b ∈ elements, isRecognized b.type = true ∨ canIgnore b.type = true

/-! ### The check of the fields -/

theorem compareFieldSortOrder_eq_eq_iff {a b : Block} :
    compareFieldSortOrder a b = .eq ↔ a.type = b.type := by
  rw [compareFieldSortOrder, compareLex, Ordering.then_eq_eq]
  constructor
  · rintro ⟨-, h⟩
    exact Nat.compare_eq_eq.mp h
  · intro h
    simp [compareOn, h]

/-- The field `b` may stand directly after `a`. -/
def Follows (a b : Block) : Prop :=
  compareFieldSortOrder a b = .lt ∨ a.type = b.type ∧ (fieldInfo a.type).isRepeatable = true

instance : Trans Follows Follows Follows where
  trans := by
    rintro a b c (hab | ⟨hab, hrep⟩) (hbc | ⟨hbc, hrep'⟩)
    · exact .inl (Std.TransCmp.lt_trans hab hbc)
    · exact .inl (Std.TransCmp.lt_of_lt_of_eq hab (compareFieldSortOrder_eq_eq_iff.mpr hbc))
    · exact .inl (Std.TransCmp.lt_of_eq_of_lt (compareFieldSortOrder_eq_eq_iff.mpr hab) hbc)
    · exact .inr ⟨hab.trans hbc, hrep⟩

theorem follows_iff {a b : Block} :
    Follows a b ↔ compareFieldSortOrder b a ≠ .lt ∧
      (a.type = b.type → (fieldInfo a.type).isRepeatable = true) := by
  have hgt : compareFieldSortOrder a b = .gt ↔ compareFieldSortOrder b a = .lt :=
    Std.OrientedCmp.gt_iff_lt
  rw [Ne, ← hgt, Follows, ← compareFieldSortOrder_eq_eq_iff]
  cases compareFieldSortOrder a b <;> simp

variable {elements : List Block}

theorem pairwise_follows_iff :
    elements.Pairwise Follows ↔ OrderedList.Ordered compareFieldSortOrder elements ∧
      elements.Pairwise fun a b => a.type = b.type → (fieldInfo a.type).isRepeatable = true := by
  rw [OrderedList.Ordered, ← pairwise_and_iff]
  exact Pairwise.iff fun _ _ => follows_iff

theorem checkFields_eq_ok_iff {prev : Option Block} :
    checkFields prev elements = .ok () ↔
      (prev.toList ++ elements).IsChain Follows ∧
        ∀ b ∈ elements, isRecognized b.type = true ∨ canIgnore b.type = true := by
  induction elements generalizing prev with
  | nil => cases prev <;> simp [checkFields]
  | cons e rest ih =>
    rw [forall_mem_cons]
    by_cases hknown : isRecognized e.type = true ∨ canIgnore e.type = true
    · have hpass : (!isRecognized e.type && !canIgnore e.type) = false := by
        rcases hknown with h | h <;> simp [h]
      cases prev with
      | none =>
        rw [checkFields, hpass, if_neg Bool.false_ne_true, ih]
        simp [hknown]
      | some p =>
        have hfollows : Follows p e ↔
            ¬ (e.type = p.type ∧ (fieldInfo e.type).isRepeatable = false) ∧
              ¬ (e.type ≠ p.type ∧ compareFieldSortOrder p e ≠ .lt) := by
          by_cases htype : e.type = p.type
          · have heq := compareFieldSortOrder_eq_eq_iff.mpr htype.symm
            simp [Follows, heq, htype]
          · simp [Follows, htype, Ne.symm htype]
        rw [checkFields, hpass, if_neg Bool.false_ne_true, Option.toList_some,
          singleton_append, isChain_cons_cons, hfollows]
        split_ifs with hrepeat horder
        · exact iff_of_false nofun fun h => h.1.1.1 hrepeat
        · exact iff_of_false nofun fun h => h.1.1.2 horder
        · rw [ih, Option.toList_some, singleton_append]
          simp only [hrepeat, horder, hknown, not_false_eq_true, and_self, true_and]
    · have hstop : (!isRecognized e.type && !canIgnore e.type) = true := by
        simpa [not_or] using hknown
      rw [checkFields.eq_def]
      simp [hstop, hknown]

theorem checkFields_none_eq_ok_iff : checkFields none elements = .ok () ↔ Canonical elements := by
  rw [checkFields_eq_ok_iff, Option.toList_none, nil_append, isChain_iff_pairwise,
    pairwise_follows_iff]
  exact ⟨fun h => ⟨h.1.1, h.1.2, h.2⟩, fun h => ⟨⟨h.ordered, h.noRepeat⟩, h.known⟩⟩

/-! ### Decoding and changing packets -/

namespace Packet

variable {V : Type}

def wireDecode (wire : Block) : Except String Packet :=
  if wire.type = Tlv.interest ∨ wire.type = Tlv.data then empty.add fragmentField wire.wire
  else if hlp : wire.type = lpPacket then
    match hparse : Block.parse wire.value with
    | .error e => .error e
    | .ok elements =>
      match hcheck : checkFields none elements with
      | .error e => .error e
      | .ok () => .ok
        { elements := elements
          wire := some wire
          ordered := (checkFields_none_eq_ok_iff.mp hcheck).ordered
          noRepeat := (checkFields_none_eq_ok_iff.mp hcheck).noRepeat
          parse_wire := by
            rintro b hb
            obtain rfl : wire = b := Option.some.inj hb
            exact ⟨hlp, hparse⟩ }
  else .error (Tlv.unexpectedType "LpPacket" wire.type)

/-- The list without the element of a type that has a number of such elements before it. -/
def eraseNth (type : ℕ) : ℕ → List Block → Option (List Block)
  | _, [] => none
  | index, b :: rest =>
    if b.type = type then
      match index with
      | 0 => some rest
      | index + 1 => (eraseNth type index rest).map (b :: ·)
    else (eraseNth type index rest).map (b :: ·)

theorem eraseNth_sublist {type index : ℕ} {l l' : List Block}
    (h : eraseNth type index l = some l') : l'.Sublist l := by
  induction l generalizing index l' with
  | nil => cases h
  | cons b rest ih =>
    rw [eraseNth.eq_def] at h
    dsimp only at h
    split_ifs at h
    · cases index with
      | zero =>
        obtain rfl : rest = l' := Option.some.inj h
        exact sublist_cons_self _ _
      | succ index =>
        obtain ⟨l'', hl'', rfl⟩ := Option.map_eq_some_iff.mp h
        exact (ih hl'').cons_cons b
    · obtain ⟨l'', hl'', rfl⟩ := Option.map_eq_some_iff.mp h
      exact (ih hl'').cons_cons b

def remove (f : FieldDecl V) (index : ℕ) (p : Packet) : Except String Packet :=
  match h : eraseNth f.tlvType index p.elements with
  | none => .error "lp::Packet::remove: index out of range"
  | some elements => .ok
    { elements := elements
      wire := none
      ordered := Pairwise.sublist (eraseNth_sublist h) p.ordered
      noRepeat := p.noRepeat.sublist (eraseNth_sublist h)
      parse_wire := by simp }

inductive Op where
  | set {V : Type} (f : FieldDecl V) (value : V)
  | add {V : Type} (f : FieldDecl V) (value : V)
  | remove {V : Type} (f : FieldDecl V) (index : ℕ)
  | clear {V : Type} (f : FieldDecl V)

variable (p : Packet)

/-- The packet after a change. One that throws has changed nothing, but for `set`, which clears the
field first. -/
def step : Op → Packet
  | .set f value => ((p.clear f).add f value).toOption.getD (p.clear f)
  | .add f value => (p.add f value).toOption.getD p
  | .remove f index => (p.remove f index).toOption.getD p
  | .clear f => p.clear f

/-- The fields of a packet, with their types and values. -/
def fields : List (ℕ × Bytes) :=
  p.elements.map fun b => (b.type, b.value)

/-- The length of the fields when they are written anew. -/
def fieldsSize : ℕ :=
  ((p.elements.map Block.reencode).flatMap Block.wire).length

/-- If the Fragment is the only field, it is a complete Interest or Data. -/
def FragmentComplete : Prop :=
  ∀ element, p.elements = [element] → element.type = fragment →
    ∃ netPkt : Block, (netPkt.type = Tlv.interest ∨ netPkt.type = Tlv.data) ∧
      element.value = netPkt.wire

/-- Unknown fields may be ignored. -/
def Known : Prop :=
  ∀ b ∈ p.elements, isRecognized b.type = true ∨ canIgnore b.type = true

variable {p q : Packet} {f : FieldDecl V} {wire : Block}

theorem Known.canonical (h : p.Known) : Canonical p.elements :=
  ⟨p.ordered, p.noRepeat, h⟩

theorem isRecognized_of_mem {traits : FieldTraits} (h : traits ∈ fieldSet) :
    isRecognized traits.tlvType = true := by
  revert traits
  decide

/-! ### What is accepted -/

theorem elements_add {value : V} (h : p.add f value = .ok q) :
    ∃ block, Block.makeBinaryBlock f.tlvType (f.encode value) = .ok block ∧
      block.type = f.tlvType ∧
      q.elements = OrderedList.insert compareFieldSortOrder block p.elements ∧ q.wire = none := by
  unfold add at h
  split at h
  next => cases h
  next =>
    split at h
    next => cases h
    next block hblock =>
      obtain ⟨hpos, hlt⟩ := mem_fieldSet_bounds f.mem_fieldSet
      obtain rfl := Except.ok.inj h
      exact ⟨block, hblock, Block.type_of_ofBytes_encodeElement hpos hlt hblock, rfl, rfl⟩

theorem wireDecode_of_netPkt (htype : wire.type = Tlv.interest ∨ wire.type = Tlv.data)
    (hsize : wire.size < 2 ^ 64) :
    ∃ q, wireDecode wire = .ok q ∧ q.fields = [(fragment, wire.wire)] := by
  have hmake : Block.makeBinaryBlock fragmentField.tlvType (fragmentField.encode wire.wire) =
      .ok (fragmentField.element wire.wire hsize) :=
    Block.makeBinaryBlock_eq_make _ _ hsize
  obtain ⟨q, hq, -⟩ := add_eq_ok (f := fragmentField) (p := empty) rfl
    (roundTrips_fragment wire.wire_ne_nil hsize)
  obtain ⟨block, hblock, -, helements, -⟩ := elements_add hq
  obtain rfl : fragmentField.element wire.wire hsize = block := by
    rw [hmake] at hblock
    exact Except.ok.inj hblock
  refine ⟨q, by rw [wireDecode, if_pos htype, hq], ?_⟩
  rw [fields, helements]
  rfl

theorem wireDecode_of_lpPacket (htype : wire.type = lpPacket) :
    wireDecode wire = .ok q ↔
      q.wire = some wire ∧ Block.parse wire.value = .ok q.elements ∧ Canonical q.elements := by
  have hbare : ¬ (wire.type = Tlv.interest ∨ wire.type = Tlv.data) := by
    rw [htype]
    decide
  unfold wireDecode
  rw [if_neg hbare, dif_pos htype]
  split
  next e hparse => simp [hparse]
  next elements hparse =>
    split
    next e hcheck =>
      refine iff_of_false nofun ?_
      rintro ⟨-, hparse', hcanonical⟩
      obtain rfl : elements = q.elements := by
        rw [hparse] at hparse'
        exact Except.ok.inj hparse'
      rw [checkFields_none_eq_ok_iff.mpr hcanonical] at hcheck
      cases hcheck
    next hcheck =>
      constructor
      · intro h
        obtain rfl := Except.ok.inj h
        exact ⟨rfl, hparse, checkFields_none_eq_ok_iff.mp hcheck⟩
      · rintro ⟨hwire, hparse', -⟩
        rw [hparse] at hparse'
        exact congrArg _ (ext (Except.ok.inj hparse') hwire.symm)

theorem exists_wireDecode_iff (hsize : wire.size < 2 ^ 64) :
    (∃ q, wireDecode wire = .ok q) ↔
      (wire.type = Tlv.interest ∨ wire.type = Tlv.data) ∨
        wire.type = lpPacket ∧ ∃ elements, Block.parse wire.value = .ok elements ∧
          Canonical elements := by
  by_cases hbare : wire.type = Tlv.interest ∨ wire.type = Tlv.data
  · obtain ⟨q, hq, -⟩ := wireDecode_of_netPkt hbare hsize
    exact iff_of_true ⟨q, hq⟩ (.inl hbare)
  · by_cases hlp : wire.type = lpPacket
    · rw [or_iff_right hbare, and_iff_right hlp]
      simp only [wireDecode_of_lpPacket hlp]
      constructor
      · rintro ⟨q, -, hparse, hcanonical⟩
        exact ⟨q.elements, hparse, hcanonical⟩
      · rintro ⟨elements, hparse, hcanonical⟩
        refine ⟨⟨elements, some wire, hcanonical.ordered, hcanonical.noRepeat, ?_⟩, rfl, hparse,
          hcanonical⟩
        rintro b hb
        obtain rfl : wire = b := Option.some.inj hb
        exact ⟨hlp, hparse⟩
    · refine iff_of_false ?_ ?_
      · rintro ⟨q, hq⟩
        rw [wireDecode, if_neg hbare, dif_neg hlp] at hq
        cases hq
      · rintro (h | ⟨h, -⟩)
        · exact hbare h
        · exact hlp h

/-! ### Changing the fields -/

theorem known_empty : empty.Known := nofun

theorem Known.add {value : V} (hp : p.Known) (h : p.add f value = .ok q) : q.Known := by
  obtain ⟨block, -, htype, helements, -⟩ := elements_add h
  intro b hb
  rw [helements, OrderedList.mem_insert] at hb
  rcases hb with rfl | hb
  · exact .inl (htype ▸ isRecognized_of_mem f.mem_fieldSet)
  · exact hp b hb

theorem Known.clear (hp : p.Known) (f : FieldDecl V) : (p.clear f).Known :=
  fun b hb => hp b (mem_of_mem_filter hb)

theorem Known.remove {index : ℕ} (hp : p.Known) (h : p.remove f index = .ok q) : q.Known := by
  unfold Packet.remove at h
  split at h
  next => cases h
  next elements herase =>
    obtain rfl := Except.ok.inj h
    exact fun b hb => hp b ((eraseNth_sublist herase).subset hb)

theorem known_of_wireDecode (h : wireDecode wire = .ok q) : q.Known := by
  by_cases hbare : wire.type = Tlv.interest ∨ wire.type = Tlv.data
  · rw [wireDecode, if_pos hbare] at h
    exact known_empty.add h
  · by_cases hlp : wire.type = lpPacket
    · exact ((wireDecode_of_lpPacket hlp).mp h).2.2.known
    · rw [wireDecode, if_neg hbare, dif_neg hlp] at h
      cases h

theorem Known.step (hp : p.Known) (op : Op) : (p.step op).Known := by
  have hgetD : ∀ {r : Except String Packet} {d : Packet}, d.Known → (∀ q, r = .ok q → q.Known) →
      (r.toOption.getD d).Known := by
    rintro (e | q) d hd hr
    · exact hd
    · exact hr q rfl
  cases op with
  | set f value => exact hgetD (hp.clear f) fun q hq => (hp.clear f).add hq
  | add f value => exact hgetD hp fun q hq => hp.add hq
  | remove f index => exact hgetD hp fun q hq => hp.remove hq
  | clear f => exact hp.clear f

/-- A packet that is empty or decoded, after changes to its fields. -/
def Reached (p : Packet) : Prop :=
  ∃ start ops, (start = empty ∨ ∃ wire, wireDecode wire = .ok start) ∧ p = Run.run step start ops

theorem Reached.known (h : p.Reached) : p.Known := by
  obtain ⟨start, ops, hstart, rfl⟩ := h
  have hknown : start.Known := by
    rcases hstart with rfl | ⟨wire, hwire⟩
    · exact known_empty
    · exact known_of_wireDecode hwire
  exact Run.invariant Known (fun _ op hp => hp.step op) hknown ops

/-! ### Round trip -/

theorem canonical_map_reencode {elements : List Block} (h : Canonical elements) :
    Canonical (elements.map Block.reencode) := by
  refine ⟨?_, ?_, ?_⟩
  · exact pairwise_map.mpr h.ordered
  · exact pairwise_map.mpr h.noRepeat
  · rw [forall_mem_map]
    exact h.known

theorem Known.wireDecode_encode (hp : p.Known) (hsize : p.fieldsSize < 2 ^ 64) :
    ∃ wire q, p.encode = .ok wire ∧ wireDecode wire = .ok q ∧ q.fields = p.fields := by
  cases hwire : p.wire with
  | some wire =>
    obtain ⟨htype, hparse⟩ := p.parse_wire wire hwire
    refine ⟨wire, p, by rw [encode, hwire], ?_, rfl⟩
    exact (wireDecode_of_lpPacket htype).mpr ⟨hwire, hparse, hp.canonical⟩
  | none =>
    let wire := Block.make lpPacket ((p.elements.map Block.reencode).flatMap Block.wire) (by decide)
      (by decide) hsize
    have hparse : Block.parse wire.value = .ok (p.elements.map Block.reencode) :=
      Block.parse_flatMap_wire _
    have hcanonical := canonical_map_reencode hp.canonical
    let q : Packet :=
      { elements := p.elements.map Block.reencode
        wire := some wire
        ordered := hcanonical.ordered
        noRepeat := hcanonical.noRepeat
        parse_wire := fun b hb => by
          obtain rfl : wire = b := Option.some.inj hb
          exact ⟨rfl, hparse⟩ }
    refine ⟨wire, q, ?_, ?_, map_map⟩
    · rw [encode, hwire]
      exact Block.makeBinaryBlock_eq_make _ _ hsize
    · exact (wireDecode_of_lpPacket rfl).mpr ⟨rfl, hparse, hcanonical⟩

theorem bareNetworkPacket_eq_ok {element netPkt : Block} (h : element.value = netPkt.wire) :
    bareNetworkPacket element = .ok netPkt := by
  have hparse : Block.parse element.value = .ok [netPkt] := by
    rw [h]
    simpa using Block.parse_flatMap_wire [netPkt]
  rw [bareNetworkPacket, hparse]
  rfl

theorem Known.wireDecode_wireEncode (hp : p.Known) (hfragment : p.FragmentComplete)
    (hsize : p.fieldsSize < 2 ^ 64) :
    ∃ wire q, p.wireEncode = .ok wire ∧ wireDecode wire = .ok q ∧ q.fields = p.fields := by
  unfold wireEncode
  split
  next element helements =>
    split
    next htype =>
      obtain ⟨netPkt, hnet, hvalue⟩ := hfragment element helements htype
      have hlt : netPkt.size < 2 ^ 64 := by
        rw [Block.size, ← hvalue]
        exact element.length_value_lt
      obtain ⟨q, hq, hfields⟩ := wireDecode_of_netPkt hnet hlt
      refine ⟨netPkt, q, bareNetworkPacket_eq_ok hvalue, hq, ?_⟩
      rw [hfields, fields, helements, map_singleton, htype, hvalue]
    next => exact hp.wireDecode_encode hsize
  next => exact hp.wireDecode_encode hsize

/-- A packet with any changes to its fields is encoded to an element that is decoded to the same
fields in the same order; and the decoder accepts a bare Interest or Data, an LpPacket with
canonical fields, and nothing else. -/
theorem codec_roundTrip_and_accepts :
    (∀ p : Packet, p.Reached → p.FragmentComplete → p.fieldsSize < 2 ^ 64 →
      ∃ wire q, p.wireEncode = .ok wire ∧ wireDecode wire = .ok q ∧ q.fields = p.fields) ∧
    ∀ wire : Block, wire.size < 2 ^ 64 →
      ((∃ q, wireDecode wire = .ok q) ↔
        (wire.type = Tlv.interest ∨ wire.type = Tlv.data) ∨
          wire.type = lpPacket ∧ ∃ elements, Block.parse wire.value = .ok elements ∧
            Canonical elements) :=
  ⟨fun _ hp hfragment hsize => hp.known.wireDecode_wireEncode hfragment hsize,
    fun _ hsize => exists_wireDecode_iff hsize⟩

/-- A packet with a sequence number and a Fragment, made from an empty one. -/
def sample : Packet :=
  Run.run step empty [.add fragmentField [5, 0], .add sequenceField 7]

theorem codec_roundTrip_and_accepts_sample :
    (∃ wire q, sample.wireEncode = .ok wire ∧ wireDecode wire = .ok q ∧ q.fields = sample.fields) ∧
      ∃ q, wireDecode (Block.makeEmptyBlock lpPacket (by decide) (by decide)) = .ok q := by
  have hsingle : sample.FragmentComplete := by
    intro element helements
    have hlen : sample.elements.length = 2 := by decide
    rw [helements] at hlen
    cases hlen
  refine ⟨codec_roundTrip_and_accepts.1 sample ⟨empty, _, .inl rfl, rfl⟩ hsingle (by decide), ?_⟩
  exact (codec_roundTrip_and_accepts.2 _ (by decide)).mpr
    (.inr ⟨rfl, [], rfl, ⟨Pairwise.nil, Pairwise.nil, nofun⟩⟩)

end Packet

end Lp

end NdnFc
