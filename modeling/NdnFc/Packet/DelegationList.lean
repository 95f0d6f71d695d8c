import NdnFc.Lib.OrderedList
import NdnFc.Name.Wire

/-!
# Delegation lists

The forwarding hint of an Interest is a list of delegations (`ndn-cxx/delegation-list.cpp`). A list
is either kept sorted by preference and name, or kept in the order of insertion. The decoder sorts
what it reads unless it is told not to.
-/

namespace NdnFc

open OrderedList

structure Delegation where
  preference : UInt64
  name : Name
deriving DecidableEq, Repr

namespace Delegation

def compare : Delegation → Delegation → Ordering :=
  compareLex (compareOn fun d => d.preference.toNat) fun a b => Name.compare a.name b.name

instance : Std.TransCmp (fun a b : Delegation => Name.compare a.name b.name) where
  eq_swap := Std.OrientedCmp.eq_swap
  isLE_trans := Std.TransCmp.isLE_trans

instance : Std.TransCmp compare :=
  inferInstanceAs (Std.TransCmp
    (compareLex (compareOn fun d : Delegation => d.preference.toNat)
      fun a b => Name.compare a.name b.name))

variable (d : Delegation)

/-- The sub-elements of an encoded delegation. -/
def encodeValue : Bytes :=
  Tlv.encodeElement Tlv.linkPreference (Tlv.writeNonNegativeInteger d.preference.toNat) ++
    d.name.wireEncode

def wireEncode : Bytes :=
  Tlv.encodeElement Tlv.linkDelegation d.encodeValue

/-- The body of the loop of `DelegationList::wireDecode`. -/
def ofBlock (del : Block) : Except String Delegation :=
  if del.type ≠ Tlv.linkDelegation then
    throw ("Unexpected TLV-TYPE " ++ toString del.type ++ " while decoding Delegation")
  else do
    let elements ← Block.parse del.value
    match elements with
    | [] => throw "Missing Preference field in Delegation"
    | preferenceElement :: rest =>
      if preferenceElement.type ≠ Tlv.linkPreference then
        throw "Missing Preference field in Delegation"
      else
        match preferenceElement.readNonNegativeInteger, rest with
        | .error _, _ => throw "Invalid Preference field in Delegation"
        | .ok _, [] => throw "Missing Name field in Delegation"
        | .ok preference, nameElement :: _ =>
          if nameElement.type ≠ Tlv.name then throw "Missing Name field in Delegation"
          else
            match Name.ofBlock nameElement with
            | .error _ => throw "Invalid Name field in Delegation"
            | .ok name => pure ⟨UInt64.ofNat preference, name⟩

def toBlock (h : d.encodeValue.length < 2 ^ 64) : Block :=
  .make Tlv.linkDelegation d.encodeValue (by decide) (by decide) h

theorem ofBlock_toBlock (h : d.encodeValue.length < 2 ^ 64) : ofBlock (d.toBlock h) = .ok d := by
  have hsize : d.preference.toNat < 2 ^ 64 := d.preference.toNat_lt
  have hlength := Tlv.length_writeNonNegativeInteger_le d.preference.toNat
  have hname : d.name.encodeComponents.length < 2 ^ 64 := by
    simp only [encodeValue, Name.wireEncode, Tlv.encodeElement, List.length_append] at h
    omega
  let p : Block := .make Tlv.linkPreference (Tlv.writeNonNegativeInteger d.preference.toNat)
    (by decide) (by decide) (by omega)
  have hparse : Block.parse (d.toBlock h).value = .ok [p, d.name.toBlock hname] := by
    have hvalue : d.encodeValue = [p, d.name.toBlock hname].flatMap Block.wire := by
      simp [encodeValue, p]
    rw [← Block.parse_flatMap_wire, ← hvalue]
    rfl
  have hread : p.readNonNegativeInteger = .ok d.preference.toNat :=
    Tlv.readNonNegativeInteger_write hsize
  have htype : (d.toBlock h).type = Tlv.linkDelegation := rfl
  rw [ofBlock, if_neg (not_not.mpr htype), hparse, Fallible.ok_bind]
  simp only [hread, Name.type_toBlock, Name.ofBlock_toBlock, UInt64.ofNat_toNat]
  rfl

theorem length_encodeValue_le_of_mem {dels : List Delegation} {d : Delegation} (h : d ∈ dels) :
    d.encodeValue.length ≤ (dels.flatMap wireEncode).length := by
  obtain ⟨front, rest, rfl⟩ := List.append_of_mem h
  simp only [wireEncode, Tlv.encodeElement, List.flatMap_append, List.flatMap_cons,
    List.length_append]
  omega

end Delegation

/-- A list of delegations, in order when `isSorted` is set. -/
structure DelegationList where
  isSorted : Bool
  dels : List Delegation
  ordered : isSorted = true → Ordered Delegation.compare dels
deriving DecidableEq

namespace DelegationList

def clear (isSorted : Bool) : DelegationList := ⟨isSorted, [], fun _ => .nil⟩

def empty : DelegationList := clear true

variable (l : DelegationList)

def insertImpl (d : Delegation) : DelegationList :=
  if h : l.isSorted = true then
    ⟨true, insert Delegation.compare d l.dels, fun _ => (l.ordered h).insert d⟩
  else ⟨false, l.dels ++ [d], by simp⟩

/-- `sort`: the delegations of an unsorted list are inserted again one after the other. -/
def sort : DelegationList :=
  if l.isSorted then l
  else ⟨true, ofList Delegation.compare l.dels, fun _ => ordered_ofList _⟩

def isValidTlvType (type : ℕ) : Bool :=
  type == Tlv.content || type == Tlv.forwardingHint

/-- The sub-elements of an encoded list. -/
def encodeValue : Bytes :=
  l.dels.flatMap Delegation.wireEncode

def wireEncode (type : ℕ) : Except String Bytes :=
  if !isValidTlvType type then
    throw ("Unexpected TLV-TYPE " ++ toString type ++ " while encoding DelegationList")
  else if l.dels = [] then throw "Empty DelegationList"
  else pure (Tlv.encodeElement type l.encodeValue)

/-- The loop of `wireDecode`. -/
def decodeElements : List Block → EStateM String DelegationList Unit
  | [] => pure ()
  | element :: rest => do
    let d ← Method.ofExcept (Delegation.ofBlock element)
    modify (insertImpl · d)
    decodeElements rest

def wireDecode (block : Block) (wantSort : Bool) : EStateM String DelegationList Unit :=
  if !isValidTlvType block.type then
    throw ("Unexpected TLV-TYPE " ++ toString block.type ++ " while decoding DelegationList")
  else do
    set (clear wantSort)
    let elements ← Method.ofExcept (Block.parse block.value)
    decodeElements elements
    let l ← get
    if l.dels = [] then throw "Empty DelegationList" else pure ()

/-! ### Decoding what was encoded -/

theorem sort_eq (l : DelegationList) :
    l.sort = ⟨true, ofList Delegation.compare l.dels,
      fun _ => ordered_ofList _⟩ := by
  obtain ⟨isSorted, dels, ordered⟩ := l
  cases isSorted with
  | false => rfl
  | true =>
    simp only [sort, if_true, mk.injEq, true_and]
    exact (ofList_of_ordered (ordered rfl)).symm

theorem sort_nil {l : DelegationList} (h : l.dels = []) : l.sort = empty := by
  rw [sort_eq]
  simp only [h]
  rfl

theorem dels_foldl_insertImpl (dels : List Delegation) (l : DelegationList) (hl : l.isSorted = true) :
    (dels.foldl insertImpl l).isSorted = true ∧
      (dels.foldl insertImpl l).dels =
        dels.foldl (fun acc d => insert Delegation.compare d acc) l.dels := by
  induction dels generalizing l with
  | nil => exact ⟨hl, rfl⟩
  | cons d dels ih =>
    have hinsert : l.insertImpl d =
        ⟨true, insert Delegation.compare d l.dels, fun _ => (l.ordered hl).insert d⟩ := by
      rw [insertImpl, dif_pos hl]
    rw [List.foldl_cons, hinsert]
    exact ih _ rfl

theorem foldl_insertImpl_clear (l : DelegationList) : l.dels.foldl insertImpl (clear true) = l.sort := by
  obtain ⟨hsorted, hdels⟩ := dels_foldl_insertImpl l.dels (clear true) rfl
  rw [sort_eq]
  generalize l.dels.foldl insertImpl (clear true) = r at hsorted hdels
  obtain ⟨isSorted, dels, ordered⟩ := r
  cases hsorted
  cases hdels
  rfl

theorem run_decodeElements {dels : List Delegation} {blocks : List Block}
    (h : List.Forall₂ (fun d b => Delegation.ofBlock b = .ok d) dels blocks) (l : DelegationList) :
    (decodeElements blocks).run l = .ok () (dels.foldl insertImpl l) := by
  induction h generalizing l with
  | nil => rfl
  | cons hd _ ih =>
    rw [decodeElements, hd, Method.run_bind_eq_ok_iff]
    exact ⟨_, l, rfl, ih _⟩

def toBlock (h : l.encodeValue.length < 2 ^ 64) : Block :=
  .make Tlv.forwardingHint l.encodeValue (by decide) (by decide) h

theorem run_wireDecode_toBlock (l : DelegationList) (h : l.encodeValue.length < 2 ^ 64)
    (hne : l.dels ≠ []) (previous : DelegationList) :
    (wireDecode (l.toBlock h) true).run previous = .ok () l.sort := by
  have hparse : ∃ blocks, Block.parse (l.toBlock h).value = .ok blocks ∧
      List.Forall₂ (fun d b => Delegation.ofBlock b = .ok d) l.dels blocks :=
    Block.parse_flatMap_encode fun d hd =>
      ⟨d.toBlock ((Delegation.length_encodeValue_le_of_mem hd).trans_lt h), rfl, d.ofBlock_toBlock _⟩
  obtain ⟨blocks, hvalue, hblocks⟩ := hparse
  have hsort : l.sort.dels ≠ [] := by
    rw [sort_eq]
    intro hnil
    have hperm : (ofList Delegation.compare l.dels).Perm l.dels :=
      perm_ofList _
    rw [show ofList Delegation.compare l.dels = [] from hnil] at hperm
    exact hne hperm.nil_eq.symm
  have htype : ¬ (!isValidTlvType (l.toBlock h).type) = true := Bool.not_eq_true _ ▸ rfl
  rw [wireDecode, if_neg htype, hvalue]
  change (decodeElements blocks >>= _).run (clear true) = _
  rw [Method.run_bind_eq_ok_iff]
  refine ⟨(), l.sort, by rw [run_decodeElements hblocks, foldl_insertImpl_clear], ?_⟩
  rw [Method.run_get_bind, if_neg hsort]
  rfl

end DelegationList

end NdnFc
