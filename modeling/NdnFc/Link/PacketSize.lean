import Mathlib.Algebra.Order.BigOperators.Group.List
import NdnFc.Link.PacketCodec

/-!
# Sizes of link packets

What a field adds to the size of an LpPacket, and the size of the whole element. Fields that are
written anew get the minimal header.
-/

namespace NdnFc

namespace Lp

open Block List

/-- The size of an LpPacket whose fields have the given size together. -/
def sizeOfPacket (fieldsSize : ℕ) : ℕ :=
  Tlv.sizeOfVarNumber lpPacket + Tlv.sizeOfVarNumber fieldsSize + fieldsSize

def sizeOfField (type length : ℕ) : ℕ :=
  Tlv.sizeOfVarNumber type + Tlv.sizeOfVarNumber length + length

theorem sizeOfPacket_le (fieldsSize : ℕ) : sizeOfPacket fieldsSize ≤ fieldsSize + 10 := by
  have htype : Tlv.sizeOfVarNumber lpPacket = 1 := rfl
  have hlength := Tlv.sizeOfVarNumber_le fieldsSize
  rw [sizeOfPacket]
  omega

namespace Packet

variable {V : Type} {f : FieldDecl V} {value : V} {p q : Packet}

/-- The size of the fields other than the Fragment when they are written anew. -/
def headersSize (p : Packet) : ℕ :=
  ((p.elements.filter fun b => b.type != fragment).map fun b => b.reencode.size).sum

/-- The packet is sent in at most `mtu` bytes. -/
def Fits (mtu : ℕ) (p : Packet) : Prop :=
  ∃ wire, p.wireEncode = .ok wire ∧ wire.size ≤ mtu

theorem fieldsSize_eq_sum (p : Packet) :
    p.fieldsSize = (p.elements.map fun b => b.reencode.size).sum := by
  rw [fieldsSize, length_flatMap, map_map]
  rfl

theorem fieldsSize_eq (p : Packet) :
    p.fieldsSize =
      ((p.elementsOf fragment).map fun b => b.reencode.size).sum + p.headersSize := by
  rw [fieldsSize_eq_sum, headersSize, elementsOf, ← sum_append, ← map_append]
  exact ((filter_append_perm (fun b : Block => b.type == fragment) p.elements).map
    fun b => b.reencode.size).sum_eq.symm

/-! ### Adding and clearing fields -/

theorem size_of_makeBinaryBlock {type : ℕ} {value : Bytes} {block : Block} (hpos : 0 < type)
    (htype : type < 2 ^ 32) (h : makeBinaryBlock type value = .ok block) :
    block.reencode.size = sizeOfField type value.length := by
  obtain ⟨hlt, rfl⟩ := (ofBytes_encodeElement_eq_ok_iff hpos htype).mp h
  rw [size_reencode]
  rfl

theorem fieldsSize_add (h : p.add f value = .ok q) :
    q.fieldsSize = p.fieldsSize + sizeOfField f.tlvType (f.encode value).length := by
  obtain ⟨hpos, hlt⟩ := mem_fieldSet_bounds f.mem_fieldSet
  obtain ⟨block, hblock, -, helements, -⟩ := elements_add h
  rw [fieldsSize_eq_sum, helements,
    ((OrderedList.perm_insert block p.elements).map fun b => b.reencode.size).sum_eq,
    map_cons, sum_cons, size_of_makeBinaryBlock hpos hlt hblock, fieldsSize_eq_sum,
    Nat.add_comm]

theorem headersSize_add (h : p.add f value = .ok q) :
    q.headersSize = p.headersSize +
      if f.tlvType = fragment then 0 else sizeOfField f.tlvType (f.encode value).length := by
  obtain ⟨hpos, hlt⟩ := mem_fieldSet_bounds f.mem_fieldSet
  obtain ⟨block, hblock, htype, helements, -⟩ := elements_add h
  have hperm : q.elements.Perm (block :: p.elements) :=
    helements ▸ OrderedList.perm_insert block p.elements
  rw [headersSize, ((hperm.filter _).map fun b => b.reencode.size).sum_eq]
  split_ifs with hfragment
  · rw [filter_cons_of_neg (by simp [htype, hfragment])]
    rfl
  · rw [filter_cons_of_pos (by simp [htype, hfragment]), map_cons, sum_cons,
      size_of_makeBinaryBlock hpos hlt hblock, Nat.add_comm]
    rfl

theorem headersSize_clear_le (f : FieldDecl V) (p : Packet) :
    (p.clear f).headersSize ≤ p.headersSize := by
  refine List.Sublist.sum_le_sum ?_ fun _ _ => Nat.zero_le _
  exact ((filter_sublist (l := p.elements)).filter _).map _

theorem fieldsSize_set_le (h : p.set f value = .ok q) :
    q.fieldsSize ≤ p.fieldsSize + sizeOfField f.tlvType (f.encode value).length := by
  have hclear : (p.clear f).fieldsSize ≤ p.fieldsSize := by
    rw [fieldsSize_eq_sum, fieldsSize_eq_sum]
    exact List.Sublist.sum_le_sum (filter_sublist.map _) fun _ _ => Nat.zero_le _
  rw [fieldsSize_add h]
  exact Nat.add_le_add_right hclear _

theorem headersSize_set_le (h : p.set f value = .ok q) :
    q.headersSize ≤ p.headersSize +
      if f.tlvType = fragment then 0 else sizeOfField f.tlvType (f.encode value).length := by
  rw [headersSize_add h]
  exact Nat.add_le_add_right (headersSize_clear_le f p) _

theorem wire_add (h : p.add f value = .ok q) : q.wire = none := by
  obtain ⟨block, -, -, -, hwire⟩ := elements_add h
  exact hwire

theorem Holds.of_get (hf : f.isRepeatable = false) (h : p.get f 0 = .ok value) :
    p.Holds f value := by
  rw [get] at h
  split at h
  next element helement =>
    refine ⟨element, ?_, h⟩
    have hrepeat : (p.elementsOf f.tlvType).Pairwise fun a b =>
        a.type = b.type → (fieldInfo a.type).isRepeatable = true := p.noRepeat.filter _
    have htype : ∀ b ∈ p.elementsOf f.tlvType, b.type = f.tlvType := fun b hb =>
      eq_of_beq (mem_filter.mp hb).2
    generalize p.elementsOf f.tlvType = l at helement hrepeat htype
    rcases l with _ | ⟨a, _ | ⟨b, l⟩⟩
    · cases helement
    · cases helement
      rfl
    · -- a second element of the type would make the field repeatable
      have ha := htype a (by simp)
      have hb := htype b (by simp)
      have habsurd := rel_of_pairwise_cons hrepeat (by simp) (ha.trans hb.symm)
      rw [ha, fieldInfo_of_mem f.mem_fieldSet, hf] at habsurd
      cases habsurd
  next => cases h

/-! ### The whole packet -/

theorem exists_encode (hwire : p.wire = none) (hsize : p.fieldsSize < 2 ^ 64) :
    ∃ wire, p.encode = .ok wire ∧ wire.type = lpPacket ∧
      wire.size = sizeOfPacket p.fieldsSize := by
  refine ⟨make lpPacket _ (by decide) (by decide) hsize, ?_, rfl, size_make _ _ _ _ _⟩
  rw [encode, hwire]
  exact makeBinaryBlock_eq_make _ _ hsize

theorem size_of_encode {wire : Block} (hwire : p.wire = none) (h : p.encode = .ok wire) :
    wire.size = sizeOfPacket p.fieldsSize := by
  rw [encode, hwire] at h
  obtain ⟨hlt, rfl⟩ := (ofBytes_encodeElement_eq_ok_iff (by decide) (by decide)).mp h
  exact size_make _ _ _ _ _

theorem size_encode_le {wire : Block} (hwire : p.wire = none) (h : p.encode = .ok wire) :
    wire.size ≤ p.fieldsSize + 10 :=
  (size_of_encode hwire h).trans_le (sizeOfPacket_le p.fieldsSize)

theorem wireEncode_eq_encode (h : ∃ b ∈ p.elements, b.type ≠ fragment) :
    p.wireEncode = p.encode := by
  obtain ⟨b, hmem, htype⟩ := h
  unfold wireEncode
  split
  next element helements =>
    rw [helements, mem_singleton] at hmem
    rw [if_neg (hmem ▸ htype)]
  next => rfl

theorem wireEncode_eq_encode_of_elementsOf (h : p.elementsOf fragment = []) :
    p.wireEncode = p.encode := by
  unfold wireEncode
  split
  next element helements =>
    have htype : element.type ≠ fragment := by
      simpa [elementsOf, helements] using h
    rw [if_neg htype]
  next => rfl

theorem exists_mem_of_has (h : p.has f = true) (hf : f.tlvType ≠ fragment) :
    ∃ b ∈ p.elements, b.type ≠ fragment := by
  have hpos : 0 < (p.elementsOf f.tlvType).length := of_decide_eq_true h
  obtain ⟨b, hb⟩ := exists_mem_of_length_pos hpos
  obtain ⟨hmem, htype⟩ := mem_filter.mp hb
  exact ⟨b, hmem, by rwa [eq_of_beq htype]⟩

end Packet

end Lp

end NdnFc
