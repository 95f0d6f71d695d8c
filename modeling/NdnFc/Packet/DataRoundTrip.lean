import NdnFc.Packet.DataCache

/-!
# Round trip of Data packets

A signed Data packet that was built with the setters is decoded from its own encoding. The decoder
can refuse a final block that is no valid component, a key locator without encoding, and additional
elements of the signature that are critical or an empty nonce.
-/

namespace NdnFc

namespace Data

open List Method Fallible

/-! ### Objects made with the setters -/

/-- The calls of setters with arguments that a caller can have: a MetaInfo that was made with its own
setters, and a 64-bit count of milliseconds. -/
def Op.IsSetter : Op → Prop
  | setMetaInfo metaInfo => metaInfo.Built
  | setFreshnessPeriod freshnessPeriod => freshnessPeriod < 2 ^ 63
  | wireEncode => False
  | wireEncodeSigned _ _ => False
  | wireDecode _ => False
  | getFullName => False
  | _ => True

structure WellFormed (d : Data) : Prop where
  metaInfo : d.metaInfo.WellFormed
  content : ∀ block, d.content = some block → block.type = Tlv.content
  signatureValue : ∀ block, d.signatureValue = some block → block.type = Tlv.signatureValue
  wire : d.wire = none

theorem wellFormed_create (name : Name) : (create name).WellFormed where
  metaInfo := MetaInfo.wellFormed_empty
  content := by simp [create]
  signatureValue := by simp [create]
  wire := rfl

variable {block : Block} {d : Data} {unsigned : Bytes}

theorem WellFormed.setContent (hd : d.WellFormed) (h : block.type = Tlv.content) {fullName : Name} :
    WellFormed { d with content := some block, wire := none, fullName } :=
  ⟨hd.metaInfo, fun b hb => by cases hb; exact h, hd.signatureValue, rfl⟩

theorem WellFormed.setMetaInfoField {d' : Data} (hd : d.WellFormed) {α : Type} [DecidableEq α]
    {field : MetaInfo → α} {value : α} {setter : EStateM String MetaInfo Unit}
    (hsetter : ∀ m', setter.run d.metaInfo = .ok () m' → m'.WellFormed)
    (h : (setMetaInfoField field value setter).run d = .ok () d') : d'.WellFormed := by
  rw [Data.setMetaInfoField, run_get_bind] at h
  split at h
  · cases h
    exact hd
  · obtain ⟨_, s, hzoom, h⟩ := run_bind_eq_ok_iff.mp h
    obtain ⟨m', hm', rfl⟩ := run_zoom_eq_ok_iff.mp hzoom
    cases h
    exact ⟨hsetter m' hm', hd.content, hd.signatureValue, rfl⟩

variable [Sha256]

theorem WellFormed.step {d' : Data} (hd : d.WellFormed) {op : Op} (hop : op.IsSetter)
    (h : op.call.run d = .ok () d') : d'.WellFormed := by
  cases op with
  | setName name =>
    simp only [Op.call, setName] at h
    cases h
    dsimp only
    split
    · exact hd
    · exact ⟨hd.metaInfo, hd.content, hd.signatureValue, rfl⟩
  | setFunction function =>
    cases h
    exact ⟨hd.metaInfo, hd.content, hd.signatureValue, rfl⟩
  | setMetaInfo metaInfo =>
    cases h
    exact ⟨MetaInfo.Built.wellFormed hop, hd.content, hd.signatureValue, rfl⟩
  | setContent block =>
    cases block with
    | none => cases h
    | some block =>
      rw [Op.call, Data.setContent] at h
      split at h
      next hblock =>
        cases h
        exact hd.setContent hblock
      next =>
        obtain ⟨content, hmake, h⟩ := run_ofExcept_bind_eq_ok_iff.mp h
        cases h
        exact hd.setContent (Block.type_of_ofBytes_encodeElement (by decide) (by decide) hmake)
  | setContentValue value =>
    cases value with
    | none => cases h
    | some value =>
      obtain ⟨content, hmake, h⟩ := run_ofExcept_bind_eq_ok_iff.mp h
      cases h
      exact hd.setContent (Block.type_of_ofBytes_encodeElement (by decide) (by decide) hmake)
  | setContent2 value =>
    simp only [Op.call, setContent2, run_modify_bind] at h
    obtain ⟨content, hmake, h⟩ := run_ofExcept_bind_eq_ok_iff.mp h
    cases h
    exact hd.setContent (Block.type_of_ofBytes_encodeElement (by decide) (by decide) hmake)
  | unsetContent =>
    cases h
    exact ⟨hd.metaInfo, by simp [resetWire], hd.signatureValue, rfl⟩
  | setSignatureInfo signatureInfo =>
    cases h
    exact ⟨hd.metaInfo, hd.content, hd.signatureValue, rfl⟩
  | setSignatureValue value =>
    cases value with
    | none => cases h
    | some value =>
      obtain ⟨block, hmake, h⟩ := run_ofExcept_bind_eq_ok_iff.mp h
      cases h
      refine ⟨hd.metaInfo, hd.content, fun b hb => ?_, rfl⟩
      cases hb
      exact Block.type_of_ofBytes_encodeElement (by decide) (by decide) hmake
  | setContentType type =>
    exact hd.setMetaInfoField (fun m' (hm' : (MetaInfo.Op.setType type).call.run _ = _) =>
      hd.metaInfo.step hm') h
  | setFreshnessPeriod freshnessPeriod =>
    exact hd.setMetaInfoField (fun m' hm' => hd.metaInfo.setFreshnessPeriod hop hm') h
  | setFinalBlock finalBlockId =>
    exact hd.setMetaInfoField
      (fun m' (hm' : (MetaInfo.Op.setFinalBlock finalBlockId).call.run _ = _) =>
        hd.metaInfo.step hm') h
  | wireEncode | wireEncodeSigned unsigned signatureValue | wireDecode wire
  | getFullName => exact hop.elim

/-- A Data object that was made with the constructor from a name and calls of the setters that
return. -/
inductive Built : Data → Prop
  | create (name : Name) : Built (create name)
  | step {d d' : Data} {op : Op} : Built d → op.IsSetter → op.call.run d = .ok () d' → Built d'

theorem Built.wellFormed (h : d.Built) : d.WellFormed := by
  induction h with
  | create name => exact wellFormed_create name
  | step _ hop hcall ih => exact ih.step hop hcall

/-! ### Decoding what was encoded -/

section

omit [Sha256]

theorem run_decodeElements_metaInfo {m : MetaInfo} (hm : m.WellFormed)
    (haccepted : ∀ c, m.finalBlockId = some c → c.Accepted) (hlen : m.encodeValue.length < 2 ^ 64)
    (rest : List Block) {s : Data} (hs : s.metaInfo = .empty) :
    (decodeElements 1 (m.toBlock hlen :: rest)).run s =
      (decodeElements 2 rest).run { s with metaInfo := m } := by
  have htype : (m.toBlock hlen).type = Tlv.metaInfo := rfl
  have hdecode : (MetaInfo.wireDecode (m.toBlock hlen)).run s.metaInfo = .ok () m := by
    rw [hs]
    exact MetaInfo.run_wireDecode_toBlock hm haccepted hlen
  rw [decodeElements, if_pos htype, if_neg (by decide), EStateM.run_bind,
    run_zoom_eq_ok_iff (s := s) |>.mpr ⟨m, hdecode, rfl⟩]

theorem run_decodeElements_content {content : Option Block}
    (hcontent : ∀ block, content = some block → block.type = Tlv.content) (rest : List Block)
    {s : Data} (hs : s.content = none) :
    ∃ last < 4, (decodeElements 2 (content.toList ++ rest)).run s =
      (decodeElements last rest).run { s with content } := by
  cases content with
  | none =>
    have hsame : { s with content := none } = s := by rw [← hs]
    exact ⟨2, by omega, by rw [hsame]; rfl⟩
  | some block =>
    have htype := hcontent block rfl
    refine ⟨3, by omega, ?_⟩
    rw [Option.toList_some, singleton_append, decodeElements,
      if_neg (by rw [htype]; decide), if_pos htype, if_neg (by decide)]
    rfl

theorem run_decodeElements_signatureInfo {info : SignatureInfo}
    (htype : block.type = Tlv.signatureInfo)
    (hdecode : ∀ s', (SignatureInfo.wireDecode block .data).run s' = .ok () info) {last : ℕ}
    (hlast : last < 4) (rest : List Block) (s : Data) :
    (decodeElements last (block :: rest)).run s =
      (decodeElements 4 rest).run { s with signatureInfo := info } := by
  rw [decodeElements, if_neg (by rw [htype]; decide), if_neg (by rw [htype]; decide),
    if_pos htype, if_neg (by omega), EStateM.run_bind,
    run_zoom_eq_ok_iff (s := s) |>.mpr ⟨info, hdecode _, rfl⟩]

theorem run_decodeElements_signatureValue (htype : block.type = Tlv.signatureValue) (s : Data) :
    (decodeElements 4 [block]).run s = .ok () { s with signatureValue := some block } := by
  rw [decodeElements, if_neg (by rw [htype]; decide), if_neg (by rw [htype]; decide),
    if_neg (by rw [htype]; decide), if_pos htype, if_neg (by decide)]
  rfl

theorem run_decodeRest_encoded (hd : d.WellFormed)
    (haccepted : ∀ c, d.metaInfo.finalBlockId = some c → c.Accepted)
    (hlen : d.metaInfo.encodeValue.length < 2 ^ 64) {infoBlock valueBlock : Block}
    {info : SignatureInfo} (hvalid : info.isValid = true)
    (hinfoType : infoBlock.type = Tlv.signatureInfo)
    (hdecode : ∀ s', (SignatureInfo.wireDecode infoBlock .data).run s' = .ok () info)
    (hvalue : d.signatureValue = some valueBlock) (wire : PacketBlock) :
    (decodeRest (d.metaInfo.toBlock hlen :: (d.content.toList ++ [infoBlock, valueBlock]))).run
        (decodeStart wire d.name d.function) =
      .ok () { d with signatureInfo := info, wire := wire.wire, fullName := [] } := by
  obtain ⟨last, hlast, hcontent⟩ := run_decodeElements_content hd.content [infoBlock, valueBlock]
    (s := { decodeStart wire d.name d.function with metaInfo := d.metaInfo }) rfl
  have helements : (decodeElements 1
      (d.metaInfo.toBlock hlen :: (d.content.toList ++ [infoBlock, valueBlock]))).run
        (decodeStart wire d.name d.function) =
      .ok () { d with signatureInfo := info, wire := wire.wire, fullName := [] } := by
    rw [run_decodeElements_metaInfo hd.metaInfo haccepted hlen _ rfl, hcontent,
      run_decodeElements_signatureInfo hinfoType hdecode hlast,
      run_decodeElements_signatureValue (hd.signatureValue _ hvalue), ← hvalue]
    rfl
  rw [decodeRest]
  refine run_bind_eq_ok_iff.mpr ⟨(), _, helements, ?_⟩
  rw [run_get_bind]
  have hinvalid : ¬ (!info.isValid) = true := by simp [hvalid]
  have hnone : d.signatureValue ≠ none := by simp [hvalue]
  exact (congrArg (fun m => EStateM.run m _) ((if_neg hinvalid).trans (if_neg hnone))).trans rfl

theorem encode_of_encodeUnsigned {d : DataFields} (hvalid : d.signatureInfo.isValid = true)
    (h : encodeUnsigned d = .ok unsigned) :
    encode d = .ok (Tlv.encodeElement Tlv.data (unsigned ++ encodeBlock d.signatureValue)) := by
  obtain ⟨signatureInfo, hinfo, h⟩ := bind_eq_ok_iff.mp h
  cases h
  rw [encode, if_neg (by simp [hvalid]), hinfo, ok_bind]
  rfl

end

/-- The elements of an encoded packet: those of the unsigned portion and the signature value. The
first two are the names, and `rest` are the others. -/
structure Elements (d : Data) (unsigned : Bytes) where
  signed : List Block
  infoBlock : Block
  valueBlock : Block
  rest : List Block
  value_eq : d.signatureValue = some valueBlock
  valueBlock_type : valueBlock.type = Tlv.signatureValue
  flatMap_signed : signed.flatMap Block.wire = unsigned
  signed_types : ∀ element ∈ signed, element.type ≠ Tlv.signatureValue
  names : NamesDecode (signed ++ [valueBlock]) d.name d.function rest
  run_decodeRest : ∀ wire : PacketBlock,
    (decodeRest rest).run (decodeStart wire d.name d.function) =
      .ok () { d with
        signatureInfo := { d.signatureInfo with wire := some infoBlock }
        wire := wire.wire, fullName := [] }

omit [Sha256] in
theorem exists_elements (hd : d.WellFormed) (hinfo : d.signatureInfo.Transmissible)
    (hvalue : d.signatureValue ≠ none)
    (haccepted : ∀ c, d.metaInfo.finalBlockId = some c → c.Accepted)
    (hunsigned : encodeUnsigned d.toDataFields = .ok unsigned) (hlen : unsigned.length < 2 ^ 64) :
    Nonempty (Elements d unsigned) := by
  obtain ⟨valueBlock, hvalueBlock⟩ := Option.ne_none_iff_exists'.mp hvalue
  obtain ⟨infoBytes, hinfoBytes, hunsigned⟩ := bind_eq_ok_iff.mp hunsigned
  have hbytes : unsigned = d.name.wireEncode ++ (d.function.wireEncode ++ (d.metaInfo.wireEncode ++
      (d.content.toList.flatMap Block.wire ++ infoBytes))) := by
    cases hunsigned
    cases d.content <;> simp
  have hlens : d.name.encodeComponents.length < 2 ^ 64 ∧
      d.function.encodeComponents.length < 2 ^ 64 ∧ d.metaInfo.encodeValue.length < 2 ^ 64 ∧
      infoBytes.length < 2 ^ 64 := by
    simp only [hbytes, Name.wireEncode, MetaInfo.wireEncode, Tlv.encodeElement,
      length_append] at hlen
    omega
  obtain ⟨hname, hfunction, hmeta, hinfoLen⟩ := hlens
  obtain ⟨infoBlock, hwire, htype, hdecode⟩ :=
    SignatureInfo.exists_toBlock hinfo hinfoBytes hinfoLen
  have hvalid : ({ d.signatureInfo with wire := some infoBlock } : SignatureInfo).isValid = true :=
    hinfo.isValid
  exact ⟨{
    signed := d.name.toBlock hname :: d.function.toBlock hfunction :: d.metaInfo.toBlock hmeta ::
      (d.content.toList ++ [infoBlock])
    infoBlock := infoBlock
    valueBlock := valueBlock
    rest := d.metaInfo.toBlock hmeta :: (d.content.toList ++ [infoBlock, valueBlock])
    value_eq := hvalueBlock
    valueBlock_type := hd.signatureValue valueBlock hvalueBlock
    flatMap_signed := by
      simp only [flatMap_cons, flatMap_append, flatMap_nil, append_nil,
        Name.wire_toBlock, hwire, hbytes]
      rfl
    signed_types := by
      intro element helement
      simp only [mem_cons, mem_append, Option.mem_toList, not_mem_nil,
        or_false] at helement
      rcases helement with rfl | rfl | rfl | hcontent | rfl
      · exact (by decide : Tlv.name ≠ Tlv.signatureValue)
      · exact (by decide : Tlv.name ≠ Tlv.signatureValue)
      · exact (by decide : Tlv.metaInfo ≠ Tlv.signatureValue)
      · rw [hd.content element hcontent]
        decide
      · rw [htype]
        decide
    names := ⟨_, _, by simp, rfl, rfl, Name.ofBlock_toBlock _ hname,
      Name.ofBlock_toBlock _ hfunction⟩
    run_decodeRest := fun wire => run_decodeRest_encoded hd haccepted hmeta hvalid htype hdecode
      hvalueBlock wire }⟩

/-- Encode an object, and construct another one from what was encoded. -/
def roundTrip (d : Data) : Except String Data :=
  match wireEncode.run d with
  | .ok wire _ => ofBlock (.encoded wire)
  | .error e _ => .error e

/-- The object that an encoded packet is decoded to. -/
def decoded (d : Data) (wire infoBlock : Block) : Data :=
  { d with
    signatureInfo := { d.signatureInfo with wire := some infoBlock }
    wire := some wire, fullName := [] }

omit [Sha256] in
theorem Elements.run_wireEncode (hwire : d.wire = none) (hvalid : d.signatureInfo.isValid = true)
    (hunsigned : encodeUnsigned d.toDataFields = .ok unsigned) (elements : Elements d unsigned)
    {wire : Block}
    (hblock : Block.ofBytes (Tlv.encodeElement Tlv.data (unsigned ++ elements.valueBlock.wire)) =
      .ok wire)
    (hdecode : ∀ s, (wireDecode (.encoded wire)).run s = .ok () (d.decoded wire elements.infoBlock)) :
    wireEncode.run d = .ok wire (d.decoded wire elements.infoBlock) := by
  have hencode := encode_of_encodeUnsigned hvalid hunsigned
  rw [elements.value_eq] at hencode
  rw [wireEncode, run_get_bind, hwire]
  refine run_ofExcept_bind_eq_ok_iff.mpr ⟨_, hencode, ?_⟩
  refine run_ofExcept_bind_eq_ok_iff.mpr ⟨wire, hblock, ?_⟩
  exact run_bind_eq_ok_iff.mpr ⟨(), _, hdecode d, rfl⟩

omit [Sha256] in
theorem Elements.signedRange_eq (elements : Elements d unsigned) {wire : Block}
    (hparse : Block.parse wire.value = .ok (elements.signed ++ [elements.valueBlock])) :
    signedRange wire = .ok unsigned := by
  have htake : (elements.signed ++ [elements.valueBlock]).takeWhile
      (fun element => element.type != Tlv.signatureValue) = elements.signed := by
    rw [takeWhile_append_of_pos
      fun element helement => bne_iff_ne.mpr (elements.signed_types element helement),
      takeWhile_cons_of_neg (by simp [elements.valueBlock_type]), append_nil]
  rw [signedRange, hparse, ok_bind, htake, elements.flatMap_signed]
  rfl

/-- A signed Data built with the setters is decoded from its encoding with the same fields and the
unsigned portion as its signed range, if the final block is a valid component and the SignatureInfo
can be transmitted. -/
theorem roundTrip_fields_eq {d : Data} (hd : d.Built) (hinfo : d.signatureInfo.Transmissible)
    (hvalue : d.signatureValue ≠ none)
    (haccepted : ∀ c, d.metaInfo.finalBlockId = some c → c.Accepted)
    (hlen : ∀ bytes, encode d.toDataFields = .ok bytes → bytes.length < 2 ^ 64) :
    (∃ e info, roundTrip d = .ok e ∧ e.toDataFields =
      { d.toDataFields with signatureInfo := { d.signatureInfo with wire := info } }) ∧
    ∃ unsigned d', encodeUnsigned d.toDataFields = .ok unsigned ∧
      extractSignedRanges.run d = .ok [unsigned] d' := by
  have hw := hd.wellFormed
  obtain ⟨infoBytes, hinfoBytes⟩ := hinfo.exists_encode .data
  obtain ⟨unsigned, hunsigned⟩ : ∃ unsigned, encodeUnsigned d.toDataFields = .ok unsigned :=
    ⟨_, bind_eq_ok_iff.mpr ⟨_, hinfoBytes, rfl⟩⟩
  have hbytes := hlen _ (encode_of_encodeUnsigned hinfo.isValid hunsigned)
  simp only [Tlv.encodeElement, length_append] at hbytes
  obtain ⟨elements⟩ := exists_elements hw hinfo hvalue haccepted hunsigned (by omega)
  rw [elements.value_eq, encodeBlock] at hbytes
  have hvalueLen : (unsigned ++ elements.valueBlock.wire).length < 2 ^ 64 := by
    rw [length_append]
    omega
  let wire := Block.make Tlv.data (unsigned ++ elements.valueBlock.wire) (by decide) (by decide)
    hvalueLen
  have hparse : Block.parse wire.value = .ok (elements.signed ++ [elements.valueBlock]) := by
    rw [← Block.parse_flatMap_wire, flatMap_append, elements.flatMap_signed,
      flatMap_singleton, Block.value_make]
  have hdecode : ∀ s, (wireDecode (.encoded wire)).run s =
      .ok () (d.decoded wire elements.infoBlock) := fun s =>
    run_wireDecode_eq_ok_iff.mpr
      ⟨rfl, _, _, _, _, hparse, elements.names, elements.run_decodeRest _⟩
  have hencode := elements.run_wireEncode hw.wire hinfo.isValid hunsigned
    (Block.ofBytes_wire wire) hdecode
  refine ⟨⟨d.decoded wire elements.infoBlock, some elements.infoBlock, ?_, rfl⟩,
    unsigned, d.decoded wire elements.infoBlock, hunsigned,
    run_bind_eq_ok_iff.mpr ⟨wire, _, hencode, ?_⟩⟩
  · rw [roundTrip, hencode]
    exact toExcept_eq_ok_iff.mpr (hdecode _)
  · exact run_ofExcept_bind_eq_ok_iff.mpr ⟨unsigned, elements.signedRange_eq hparse, rfl⟩

/-- The packet `/A` with the given SignatureInfo and one byte of signature. -/
def signedSample (info : SignatureInfo) : Data :=
  Method.after (do setSignatureInfo info; setSignatureValue (some [1])) (create [.generic [65]])

theorem built_signedSample (info : SignatureInfo) : (signedSample info).Built := by
  have hinfo : (Op.setSignatureInfo info).call.run (create [.generic [65]]) =
      .ok () (resetWire { create [.generic [65]] with signatureInfo := info }) := rfl
  have hvalue : (Op.setSignatureValue (some [1])).call.run
      (resetWire { create [.generic [65]] with signatureInfo := info }) =
      .ok () (signedSample info) := rfl
  refine .step ?_ ?_ hvalue
  · exact .step (.create [.generic [65]]) (by trivial) hinfo
  · trivial

omit [Sha256] in
set_option maxRecDepth 4000 in
/-- Two signatures that are encoded but not decoded: one with an additional element of a critical
type, and one with an empty nonce. -/
theorem not_roundTrip_signed : ∃ _ : Sha256, ∃ critical nonce : Block,
    ∀ block ∈ [critical, nonce],
      (signedSample ((SignatureInfo.create 0 none).addCustomTlv block)).Built ∧
      ∀ e, roundTrip (signedSample ((SignatureInfo.create 0 none).addCustomTlv block)) ≠ .ok e := by
  let _ := Sha256.constant
  have hfails : ∀ d : Data, (roundTrip d).isOk = false → ∀ e, roundTrip d ≠ .ok e := by
    intro d hd e he
    rw [he] at hd
    cases hd
  refine ⟨Sha256.constant, .makeEmptyBlock 129 (by decide) (by decide),
    .makeEmptyBlock Tlv.signatureNonce (by decide) (by decide), fun block hblock =>
      ⟨built_signedSample _, hfails _ ?_⟩⟩
  rcases mem_cons.mp hblock with rfl | hblock
  · decide
  · rw [mem_singleton.mp hblock]
    decide

omit [Sha256] in
set_option maxRecDepth 4000 in
/-- A packet whose signature has a nonce comes back as it was. -/
theorem roundTrip_nonce : ∃ _ : Sha256, ∃ info : SignatureInfo, ∃ e wire,
    info.otherTlvs ≠ [] ∧ roundTrip (signedSample info) = .ok e ∧ e.toDataFields =
      { (signedSample info).toDataFields with signatureInfo := { info with wire } } := by
  let _ := Sha256.constant
  let info := (SignatureInfo.create 0 none).addCustomTlv
    (.make Tlv.signatureNonce [7] (by decide) (by decide) (by decide))
  have hinfo : info.Transmissible :=
    ⟨rfl, fun locator h => (by cases h), by decide⟩
  have hlen : ∀ bytes, encode (signedSample info).toDataFields = .ok bytes →
      bytes.length < 2 ^ 64 := by
    have hall : (encode (signedSample info).toDataFields).toOption.all
        fun bytes => decide (bytes.length < 2 ^ 64) := by decide
    intro bytes hbytes
    rw [hbytes] at hall
    exact of_decide_eq_true hall
  obtain ⟨⟨e, wire, he, hfields⟩, -⟩ := roundTrip_fields_eq (built_signedSample info) hinfo (by decide)
    (fun c h => by cases h) hlen
  exact ⟨Sha256.constant, info, e, wire, by decide, he, hfields⟩

end Data

end NdnFc
