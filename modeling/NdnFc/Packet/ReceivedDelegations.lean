import Mathlib.Data.Multiset.Filter
import NdnFc.Lib.Run
import NdnFc.Lib.UpperBound
import NdnFc.Name.ReceivedOrder
import NdnFc.Packet.DelegationList

/-!
# Delegation lists as they are computed

`DelegationList` (`ndn-cxx/delegation-list.cpp`) sorts its delegations with `Name::compare`, which
looks at the headers of received components. The loop of `eraseImpl` reads the reference to the name
again after each element that it removed; a reference into the list denotes another name then.
-/

namespace NdnFc

open Method List

/-- A delegation whose name is held as it came. -/
structure ReceivedDelegation where
  preference : UInt64
  name : ReceivedName

namespace ReceivedDelegation

def value (d : ReceivedDelegation) : Delegation :=
  ⟨d.preference, d.name.name⟩

/-- `operator<`: preferences are compared first, then names. -/
def isBefore (a b : ReceivedDelegation) : Bool :=
  a.preference < b.preference ||
    !(b.preference < a.preference) && a.name.compare b.name == some .lt

/-- The components of the name in the element of a delegation, as they came. -/
def nameBlocks (del : Block) : List Block :=
  match Block.parse del.value with
  | .ok (_ :: nameElement :: _) => (Block.parse nameElement.value).toOption.getD []
  | _ => []

/-- The body of the loop of `wireDecode`. Received components have their wire encoding. -/
def ofBlock (del : Block) : Except String ReceivedDelegation := do
  let d ← Delegation.ofBlock del
  pure ⟨d.preference, (nameBlocks del).map (⟨·, true⟩)⟩

end ReceivedDelegation

/-- The list as it is held: nothing says that a sorted one is in order. -/
structure ReceivedDelegationList where
  isSorted : Bool
  dels : List ReceivedDelegation

namespace ReceivedDelegationList

variable (l : ReceivedDelegationList)

def values : List Delegation :=
  l.dels.map ReceivedDelegation.value

def empty : ReceivedDelegationList := ⟨true, []⟩

def insertImpl (del : ReceivedDelegation) : ReceivedDelegationList :=
  if !l.isSorted then { l with dels := l.dels ++ [del] }
  else
    let pos := UpperBound.search (fun i => (l.dels[i]?).any del.isBefore) l.dels.length
    { l with dels := l.dels.insertIdx pos del }

def sort : ReceivedDelegationList :=
  if l.isSorted then l else l.dels.foldl insertImpl ⟨true, []⟩

/-- A name that is passed by reference: an object outside of the list, or the name of the delegation
at a position of the list. -/
inductive NameRef where
  | outside (name : ReceivedName)
  | element (index : ℕ)

/-- The name that a reference denotes now. There is none when the delegation is gone. -/
def NameRef.deref (dels : List ReceivedDelegation) : NameRef → Option ReceivedName
  | outside name => some name
  | element index => (dels[index]?).map ReceivedDelegation.name

variable (preference : Option UInt64)

/-- The condition in the loop of `eraseImpl`. The reference is read only where the preference fits. -/
def eraseHere (name : NameRef) (dels : List ReceivedDelegation)
    (d : ReceivedDelegation) : Option Bool :=
  if preference.all (· == d.preference) then
    (name.deref dels).map fun denoted => d.name.name == denoted.name
  else some false

/-- The loop of `eraseImpl`, with the delegations before the iterator and from it on. The reference is
read after the moves of the earlier erasures. -/
def eraseLoop (preference : Option UInt64) (name : NameRef) :
    List ReceivedDelegation → List ReceivedDelegation → ℕ → Option (List ReceivedDelegation × ℕ)
  | kept, [], nErased => some (kept, nErased)
  | kept, d :: rest, nErased => do
    if ← eraseHere preference name (kept ++ d :: rest) d then
      eraseLoop preference name kept rest (nErased + 1)
    else eraseLoop preference name (kept ++ [d]) rest nErased

/-- `eraseImpl`: the list and the number of delegations that were removed. There is no result when a
destroyed name is read. -/
def eraseImpl (name : NameRef) (l : ReceivedDelegationList) :
    Option (ReceivedDelegationList × ℕ) := do
  let (dels, nErased) ← eraseLoop preference name [] l.dels 0
  pure ({ l with dels }, nErased)

inductive InsertConflictResolution where
  | replace
  | append
  | skip
deriving DecidableEq

/-- `insert`: the list and whether the delegation was inserted. -/
def insert (preference : UInt64) (name : NameRef) (onConflict : InsertConflictResolution)
    (l : ReceivedDelegationList) : Option (ReceivedDelegationList × Bool) :=
  match onConflict with
  | .replace => do
    let (l, _) ← l.eraseImpl none name
    let denoted ← name.deref l.dels
    pure (l.insertImpl ⟨preference, denoted⟩, true)
  | .append => do
    let denoted ← name.deref l.dels
    pure (l.insertImpl ⟨preference, denoted⟩, true)
  | .skip => do
    let denoted ← name.deref l.dels
    if l.dels.any fun del => del.name.name == denoted.name then pure (l, false)
    else pure (l.insertImpl ⟨preference, denoted⟩, true)

/-- The loop of `wireDecode`. -/
def decodeElements : List Block → EStateM String ReceivedDelegationList Unit
  | [] => pure ()
  | element :: rest => do
    let d ← Method.ofExcept (ReceivedDelegation.ofBlock element)
    modify (insertImpl · d)
    decodeElements rest

def wireDecode (block : Block) (wantSort : Bool) : EStateM String ReceivedDelegationList Unit :=
  if !DelegationList.isValidTlvType block.type then
    throw ("Unexpected TLV-TYPE " ++ toString block.type ++ " while decoding DelegationList")
  else do
    set (⟨wantSort, []⟩ : ReceivedDelegationList)
    let elements ← Method.ofExcept (Block.parse block.value)
    decodeElements elements
    let l ← get
    if l.dels.isEmpty then throw "Empty DelegationList" else pure ()

/-- The sub-elements of an encoded list: the names are encoded anew. -/
def encodeValue : Bytes :=
  l.values.flatMap Delegation.wireEncode

/-! ### Operations -/

/-- The public operations that can change a list. -/
inductive Op where
  | insert (preference : UInt64) (name : NameRef) (onConflict : InsertConflictResolution)
  | erase (preference : Option UInt64) (name : NameRef)
  | sort
  | wireDecode (block : Block) (wantSort : Bool)

/-- The list after an operation. A decoding that throws does not count. -/
def step : Op → ReceivedDelegationList
  | .insert preference name onConflict => ((l.insert preference name onConflict).map Prod.fst).getD l
  | .erase preference name => ((l.eraseImpl preference name).map Prod.fst).getD l
  | .sort => l.sort
  | .wireDecode block wantSort =>
    match (wireDecode block wantSort).run l with
    | .ok _ l' => l'
    | .error _ _ => l

/-- What the conflict policy says of an insertion. -/
def inserted (d : ReceivedDelegation) :
    InsertConflictResolution → Multiset ReceivedDelegation
  | .replace => d ::ₘ (l.dels : Multiset ReceivedDelegation).filter fun e =>
      e.name.name ≠ d.name.name
  | .append => d ::ₘ l.dels
  | .skip => if ∃ e ∈ l.dels, e.name.name = d.name.name then l.dels else d ::ₘ l.dels

def erased (name : ReceivedName) : Multiset ReceivedDelegation :=
  (l.dels : Multiset ReceivedDelegation).filter fun e =>
    ¬ ((preference = none ∨ preference = some e.preference) ∧ e.name.name = name.name)

/-- What an operation makes of the delegations, with the name that its argument denotes when it is
called. -/
def Op.ChangesTo (l l' : ReceivedDelegationList) : Op → Prop
  | insert preference name onConflict => ∀ denoted, name.deref l.dels = some denoted →
      (l'.dels : Multiset ReceivedDelegation) = l.inserted ⟨preference, denoted⟩ onConflict
  | erase preference name => ∀ denoted, name.deref l.dels = some denoted →
      (l'.dels : Multiset ReceivedDelegation) = l.erased preference denoted
  | _ => True

/-- Of two delegations with one preference, the names are compared in the canonical order. -/
def Comparable (a b : ReceivedDelegation) : Prop :=
  a.preference = b.preference → a.name.OrderedAs b.name

instance (a b : ReceivedDelegation) : Decidable (Comparable a b) :=
  inferInstanceAs (Decidable (_ → _ ∧ _))

/-- The operations whose arguments are not references into the list, and that sort only names which
are compared in the canonical order. -/
def Op.Legal : Op → Prop
  | insert preference name _ => ∃ n, name = .outside n ∧
      (l.isSorted = true → ∀ e ∈ l.dels, Comparable ⟨preference, n⟩ e)
  | erase _ name => ∃ n, name = .outside n
  | sort => l.isSorted = false → l.dels.Pairwise fun a b => Comparable b a
  | wireDecode block wantSort => wantSort = true → ∀ elements dels,
      Block.parse block.value = .ok elements → elements.mapM ReceivedDelegation.ofBlock = .ok dels →
        dels.Pairwise fun a b => Comparable b a

/-- A list that says it is sorted is in order. -/
def Truthful : Prop :=
  l.isSorted = true → OrderedList.Ordered Delegation.compare l.values

/-- A list that is not empty is decoded from its encoding with the same delegations, in the same order
unless it is sorted. -/
def RoundTrips : Prop :=
  l.dels ≠ [] → ∀ block : Block, DelegationList.isValidTlvType block.type = true →
    block.value = l.encodeValue → ∀ (wantSort : Bool) (previous : ReceivedDelegationList),
      ∃ l', (wireDecode block wantSort).run previous = .ok () l' ∧ l'.isSorted = wantSort ∧
        l'.values.Perm l.values ∧ (wantSort = false → l'.values = l.values)

/-! ### Insertion and erasure -/

theorem isBefore_iff {a b : ReceivedDelegation} (h : Comparable a b) :
    a.isBefore b = true ↔ Delegation.compare a.value b.value = .lt := by
  have hlt : ∀ {x y : UInt64}, x < y ↔ x.toNat < y.toNat := UInt64.lt_iff_toNat_lt
  have hcompare : Delegation.compare a.value b.value =
      (Ord.compare a.preference.toNat b.preference.toNat).then
        (Name.compare a.name.name b.name.name) := rfl
  rw [hcompare, ReceivedDelegation.isBefore]
  rcases Nat.lt_trichotomy a.preference.toNat b.preference.toNat with hab | hab | hab
  · simp [Nat.compare_eq_lt.mpr hab, hlt, hab]
  · have hname := (h (UInt64.toNat_inj.mp hab)).1
    simp [hlt, hab, hname]
  · have hba : ¬ a.preference.toNat < b.preference.toNat := by omega
    simp [Nat.compare_eq_gt.mpr hab, hlt, hab, hba]

theorem isSorted_insertImpl (l : ReceivedDelegationList) (d : ReceivedDelegation) :
    (l.insertImpl d).isSorted = l.isSorted := by
  unfold insertImpl
  split <;> rfl

theorem perm_insertImpl (l : ReceivedDelegationList) (d : ReceivedDelegation) :
    (l.insertImpl d).dels.Perm (d :: l.dels) := by
  unfold insertImpl
  split
  · exact perm_append_singleton d l.dels
  · exact perm_insertIdx d l.dels (UpperBound.search_le _)

variable {l l' : ReceivedDelegationList} {d : ReceivedDelegation}

theorem Truthful.insertImpl (hl : l.Truthful)
    (hd : l.isSorted = true → ∀ e ∈ l.dels, Comparable d e) : (l.insertImpl d).Truthful := by
  intro hsorted
  rw [isSorted_insertImpl] at hsorted
  have hordered := hl hsorted
  have hvalues : (l.insertImpl d).values =
      OrderedList.insert Delegation.compare d.value l.values := by
    rw [ReceivedDelegationList.insertImpl, hsorted, if_neg (by simp), ReceivedDelegationList.values]
    rw [map_insertIdx, ← UpperBound.insertIdx_search hordered]
    · rw [values, length_map]
    · intro i y hy
      rw [values, getElem?_map, Option.map_eq_some_iff] at hy
      obtain ⟨e, he, rfl⟩ := hy
      rw [he, Option.any_some]
      exact isBefore_iff (hd hsorted e (mem_of_getElem? he))
  rw [hvalues]
  exact hordered.insert d.value

variable (dels : List ReceivedDelegation)

theorem perm_foldl_insertImpl (l : ReceivedDelegationList) :
    (dels.foldl insertImpl l).dels.Perm (dels ++ l.dels) ∧
      (dels.foldl insertImpl l).isSorted = l.isSorted := by
  induction dels generalizing l with
  | nil => exact ⟨.refl _, rfl⟩
  | cons d dels ih =>
    obtain ⟨hperm, hsorted⟩ := ih (l.insertImpl d)
    refine ⟨hperm.trans ?_, hsorted.trans (isSorted_insertImpl l d)⟩
    exact ((perm_insertImpl l d).append_left dels).trans perm_middle

theorem Truthful.foldl_insertImpl (hl : l.Truthful) {dels : List ReceivedDelegation}
    (hdels : l.isSorted = true → dels.Pairwise fun a b => Comparable b a)
    (hlist : l.isSorted = true → ∀ d ∈ dels, ∀ e ∈ l.dels, Comparable d e) :
    (dels.foldl ReceivedDelegationList.insertImpl l).Truthful := by
  induction dels generalizing l with
  | nil => exact hl
  | cons d dels ih =>
    rw [foldl_cons]
    refine ih (hl.insertImpl fun hsorted => hlist hsorted d mem_cons_self) ?_ ?_
    · intro hsorted
      rw [isSorted_insertImpl] at hsorted
      exact (pairwise_cons.mp (hdels hsorted)).2
    · intro hsorted e he f hf
      rw [isSorted_insertImpl] at hsorted
      -- what is in the list now is the delegation before or was there
      rcases mem_cons.mp ((perm_insertImpl l d).mem_iff.mp hf) with rfl | hf
      · exact (pairwise_cons.mp (hdels hsorted)).1 e he
      · exact hlist hsorted e (mem_cons_of_mem d he) f hf

theorem foldl_insertImpl_unsorted (hl : l.isSorted = false) :
    dels.foldl insertImpl l = { l with dels := l.dels ++ dels } := by
  induction dels generalizing l with
  | nil => simp
  | cons d dels ih =>
    have hinsert : l.insertImpl d = { l with dels := l.dels ++ [d] } := by
      rw [insertImpl, hl]
      rfl
    rw [foldl_cons, hinsert, ih (l := { l with dels := l.dels ++ [d] }) hl]
    simp

/-- What is erased by a name outside of the list. -/
def isErased (preference : Option UInt64) (name : ReceivedName) (d : ReceivedDelegation) : Bool :=
  preference.all (· == d.preference) && d.name.name == name.name

section

include preference

variable (name : ReceivedName)

theorem eraseHere_outside (dels : List ReceivedDelegation) (d : ReceivedDelegation) :
    eraseHere preference (.outside name) dels d = some (isErased preference name d) := by
  unfold eraseHere isErased
  split
  next h => simp [NameRef.deref, h]
  next h => simp [h]

theorem eraseLoop_outside (kept rest : List ReceivedDelegation) (nErased : ℕ) :
    eraseLoop preference (.outside name) kept rest nErased =
      some (kept ++ rest.filter fun d => !isErased preference name d,
        nErased + rest.countP (isErased preference name)) := by
  induction rest generalizing kept nErased with
  | nil => simp [eraseLoop]
  | cons d rest ih =>
    rw [eraseLoop, eraseHere_outside]
    cases h : isErased preference name d with
    | true =>
      simp [h, ih]
      omega
    | false => simp [h, ih]

theorem eraseImpl_outside (l : ReceivedDelegationList) :
    l.eraseImpl preference (.outside name) =
      some ({ l with dels := l.dels.filter fun d => !isErased preference name d },
        l.dels.countP (isErased preference name)) := by
  rw [eraseImpl, eraseLoop_outside]
  simp

theorem coe_filter_isErased (l : ReceivedDelegationList) :
    ((l.dels.filter fun d => !isErased preference name d : List ReceivedDelegation) :
      Multiset ReceivedDelegation) = l.erased preference name := by
  rw [erased, Multiset.filter_coe]
  congr 1
  refine filter_congr fun d _ => ?_
  rw [Bool.eq_iff_iff]
  cases preference <;> simp [isErased]

omit preference in
theorem step_insert_outside (l : ReceivedDelegationList) (preference : UInt64) (name : ReceivedName)
    (onConflict : InsertConflictResolution) :
    l.step (.insert preference (.outside name) onConflict) =
      match onConflict with
      | .replace => insertImpl
          { l with dels := l.dels.filter fun d => !isErased none name d } ⟨preference, name⟩
      | .append => l.insertImpl ⟨preference, name⟩
      | .skip => if l.dels.any fun d => d.name.name == name.name then l
          else l.insertImpl ⟨preference, name⟩ := by
  rw [step]
  cases onConflict with
  | replace => simp [insert, eraseImpl_outside, NameRef.deref]
  | append => simp [insert, NameRef.deref]
  | skip =>
    simp only [insert, NameRef.deref, Option.bind_eq_bind, Option.bind_some]
    split <;> rfl

theorem step_erase_outside (l : ReceivedDelegationList) (name : ReceivedName) :
    l.step (.erase preference (.outside name)) =
      { l with dels := l.dels.filter fun d => !isErased preference name d } := by
  rw [step, eraseImpl_outside]
  rfl

end

theorem changesTo_step_of_legal {op : Op} (h : op.Legal l) : op.ChangesTo l (l.step op) := by
  cases op with
  | sort => trivial
  | wireDecode block wantSort => trivial
  | erase preference name =>
    obtain ⟨n, rfl⟩ := h
    rintro _ ⟨⟩
    rw [step_erase_outside]
    exact coe_filter_isErased preference n l
  | insert preference name onConflict =>
    obtain ⟨n, rfl, -⟩ := h
    rintro _ ⟨⟩
    rw [step_insert_outside]
    cases onConflict with
    | append => exact Multiset.coe_eq_coe.mpr (perm_insertImpl l ⟨preference, n⟩)
    | replace =>
      refine (Multiset.coe_eq_coe.mpr (perm_insertImpl _ ⟨preference, n⟩)).trans ?_
      rw [← Multiset.cons_coe, coe_filter_isErased, erased, inserted]
      simp
    | skip =>
      rw [inserted]
      by_cases hany : ∃ e ∈ l.dels, e.name.name = n.name
      · rw [if_pos hany, if_pos (by simpa using hany)]
      · rw [if_neg hany, if_neg (by simpa using hany)]
        exact Multiset.coe_eq_coe.mpr (perm_insertImpl l ⟨preference, n⟩)

theorem Truthful.filter (hl : l.Truthful) (p : ReceivedDelegation → Bool) :
    Truthful { l with dels := l.dels.filter p } := fun hsorted =>
  (hl hsorted).sublist (filter_sublist.map _)

theorem Truthful.step_insert (hl : l.Truthful) {preference : UInt64} {name : ReceivedName}
    (hname : l.isSorted = true → ∀ e ∈ l.dels, Comparable ⟨preference, name⟩ e)
    (onConflict : InsertConflictResolution) :
    (l.step (.insert preference (.outside name) onConflict)).Truthful := by
  rw [step_insert_outside]
  cases onConflict with
  | replace =>
    exact (hl.filter _).insertImpl fun hsorted e he => hname hsorted e (mem_of_mem_filter he)
  | append => exact hl.insertImpl hname
  | skip =>
    dsimp only
    split
    · exact hl
    · exact hl.insertImpl hname

theorem truthful_sort (hl : l.Truthful)
    (h : l.isSorted = false → l.dels.Pairwise fun a b => Comparable b a) : l.sort.Truthful := by
  unfold sort
  split
  · exact hl
  next hsorted =>
    have hnil : Truthful ⟨true, []⟩ := fun _ => .nil
    exact hnil.foldl_insertImpl (fun _ => h (Bool.eq_false_iff.mpr hsorted)) (by simp)

/-! ### Decoding -/

theorem run_decodeElements_eq_ok_iff {elements : List Block} :
    (decodeElements elements).run l = .ok () l' ↔
      ∃ dels, Forall₂ (fun b d => ReceivedDelegation.ofBlock b = .ok d) elements dels ∧
        l' = dels.foldl insertImpl l := by
  induction elements generalizing l with
  | nil =>
    rw [decodeElements, EStateM.run_pure, EStateM.Result.ok.injEq]
    constructor
    · rintro ⟨-, rfl⟩
      exact ⟨[], .nil, rfl⟩
    · rintro ⟨dels, hdels, rfl⟩
      cases hdels
      exact ⟨rfl, rfl⟩
  | cons element rest ih =>
    rw [decodeElements, run_ofExcept_bind_eq_ok_iff]
    simp only [run_modify_bind, ih]
    constructor
    · rintro ⟨d, hd, dels, hdels, rfl⟩
      exact ⟨d :: dels, .cons hd hdels, rfl⟩
    · rintro ⟨dels, hdels, rfl⟩
      cases hdels with
      | cons hd hdels => exact ⟨_, hd, _, hdels, rfl⟩

theorem run_wireDecode_eq_ok_iff {block : Block} {wantSort : Bool} :
    (wireDecode block wantSort).run l = .ok () l' ↔
      DelegationList.isValidTlvType block.type = true ∧ ∃ elements dels,
        Block.parse block.value = .ok elements ∧
        Forall₂ (fun b d => ReceivedDelegation.ofBlock b = .ok d) elements dels ∧ dels ≠ [] ∧
        l' = dels.foldl insertImpl ⟨wantSort, []⟩ := by
  rw [wireDecode, run_ite_throw_eq_ok_iff, Bool.not_eq_true', Bool.not_eq_false,
    run_set_bind, run_ofExcept_bind_eq_ok_iff]
  refine and_congr_right fun _ => exists_congr fun elements => ?_
  have hempty : ∀ dels : List ReceivedDelegation,
      (dels.foldl insertImpl ⟨wantSort, []⟩).dels = [] ↔ dels = [] := by
    intro dels
    have hlength := (perm_foldl_insertImpl dels ⟨wantSort, []⟩).1.length_eq
    rw [← length_eq_zero_iff, ← length_eq_zero_iff, hlength]
    simp
  simp only [run_bind_eq_ok_iff, run_get_bind, run_ite_throw_eq_ok_iff,
    List.isEmpty_iff]
  constructor
  · rintro ⟨hparse, ⟨⟩, l₁, hloop, hne, hend⟩
    obtain ⟨dels, hdels, rfl⟩ := run_decodeElements_eq_ok_iff.mp hloop
    cases hend
    exact ⟨dels, hparse, hdels, mt (hempty dels).mpr hne, rfl⟩
  · rintro ⟨dels, hparse, hdels, hne, rfl⟩
    exact ⟨hparse, (), _, run_decodeElements_eq_ok_iff.mpr ⟨dels, hdels, rfl⟩,
      mt (hempty dels).mp hne, rfl⟩

theorem truthful_of_wireDecode {block : Block} {wantSort : Bool}
    (h : (Op.wireDecode block wantSort).Legal l)
    (hrun : (wireDecode block wantSort).run l = .ok () l') : l'.Truthful := by
  obtain ⟨-, elements, dels, hparse, hdels, -, rfl⟩ := run_wireDecode_eq_ok_iff.mp hrun
  have hnil : Truthful ⟨wantSort, []⟩ := fun _ => .nil
  refine hnil.foldl_insertImpl (fun hsorted => ?_) (by simp)
  exact h hsorted elements dels hparse (Fallible.mapM_eq_ok_iff.mpr hdels)

theorem map_nameBlocks {del : Block} {d : Delegation} (h : Delegation.ofBlock del = .ok d) :
    (ReceivedDelegation.nameBlocks del).map Component.ofBlock = d.name := by
  unfold Delegation.ofBlock at h
  split at h
  · cases h
  obtain ⟨elements, hparse, h⟩ := Fallible.bind_eq_ok_iff.mp h
  split at h
  · cases h
  next preferenceElement rest =>
    split at h
    · cases h
    split at h
    · cases h
    · cases h
    next preference nameElement rest' =>
      split at h
      · cases h
      split at h
      · cases h
      next name hname =>
        cases h
        obtain ⟨blocks, hblocks, hname⟩ := Fallible.bind_eq_ok_iff.mp hname
        cases hname
        rw [ReceivedDelegation.nameBlocks, hparse]
        dsimp only
        rw [hblocks]
        rfl

theorem exists_ofBlock {del : Block} {d : Delegation} (h : Delegation.ofBlock del = .ok d) :
    ∃ r, ReceivedDelegation.ofBlock del = .ok r ∧ r.value = d := by
  refine ⟨⟨d.preference, (ReceivedDelegation.nameBlocks del).map (⟨·, true⟩)⟩, ?_, ?_⟩
  · rw [ReceivedDelegation.ofBlock, h]
    rfl
  · rw [ReceivedDelegation.value, ReceivedName.name, map_map]
    exact congrArg (Delegation.mk d.preference) (map_nameBlocks h)

theorem roundTrips (l : ReceivedDelegationList) : l.RoundTrips := by
  intro hne block htype hvalue wantSort previous
  have hblocks : ∃ blocks, Block.parse block.value = .ok blocks ∧
      Forall₂ (fun d b => ∃ r, ReceivedDelegation.ofBlock b = .ok r ∧ r.value = d)
        l.values blocks := by
    have hlen : l.encodeValue.length < 2 ^ 64 := hvalue ▸ block.length_value_lt
    rw [hvalue]
    exact Block.parse_flatMap_encode fun d hd =>
      ⟨d.toBlock ((Delegation.length_encodeValue_le_of_mem hd).trans_lt hlen), rfl,
        exists_ofBlock (d.ofBlock_toBlock _)⟩
  obtain ⟨blocks, hparse, hblocks⟩ := hblocks
  obtain ⟨dels, hdels, hvalues⟩ : ∃ dels : List ReceivedDelegation,
      Forall₂ (fun b d => ReceivedDelegation.ofBlock b = .ok d) blocks dels ∧
        dels.map ReceivedDelegation.value = l.values := by
    generalize l.values = values at hblocks
    clear hparse
    induction hblocks with
    | nil => exact ⟨[], .nil, rfl⟩
    | cons h _ ih =>
      obtain ⟨r, hr, rfl⟩ := h
      obtain ⟨dels, hdels, rfl⟩ := ih
      exact ⟨r :: dels, .cons hr hdels, rfl⟩
  have hdelsne : dels ≠ [] := by
    rintro rfl
    exact hne (map_eq_nil_iff.mp hvalues.symm)
  obtain ⟨hperm, hsorted⟩ := perm_foldl_insertImpl dels ⟨wantSort, []⟩
  refine ⟨_, run_wireDecode_eq_ok_iff.mpr ⟨htype, blocks, dels, hparse, hdels, hdelsne, rfl⟩,
    hsorted, ?_, fun hwant => ?_⟩
  · rw [← hvalues]
    simpa [values] using hperm.map ReceivedDelegation.value
  · rw [foldl_insertImpl_unsorted dels hwant, ← hvalues]
    rfl

/-! ### Runs -/

theorem Truthful.step (hl : l.Truthful) {op : Op} (h : op.Legal l) : (l.step op).Truthful := by
  cases op with
  | insert preference name onConflict =>
    obtain ⟨n, rfl, hname⟩ := h
    exact hl.step_insert hname onConflict
  | erase preference name =>
    obtain ⟨n, rfl⟩ := h
    rw [step_erase_outside]
    exact hl.filter _
  | sort => exact truthful_sort hl h
  | wireDecode block wantSort =>
    dsimp only [ReceivedDelegationList.step]
    split
    next hrun => exact truthful_of_wireDecode h hrun
    next => exact hl

/-- In every run whose arguments are not references into the list and that sorts only names compared
in the canonical order, a list that says it is sorted is in order, and insertions and erasures
follow the conflict policy. Every list is decoded from its encoding. -/
theorem truthful_run (ops : List Op) (h : Run.Meets step (fun l op => op.Legal l) empty ops) :
    (∀ front, front <+: ops → (Run.run step empty front).Truthful ∧
      (Run.run step empty front).RoundTrips) ∧
    Run.Meets step (fun l op => op.ChangesTo l (l.step op)) empty ops := by
  have hempty : empty.Truthful := fun _ => .nil
  constructor
  · intro front hfront
    refine ⟨?_, roundTrips _⟩
    exact Run.invariant_of_meets Truthful (fun _ _ hl hlegal => hl.step hlegal) hempty
      (h.of_isPrefix hfront)
  · exact Run.meets_of_meets Truthful
      (fun _ _ hl hlegal => ⟨hl.step hlegal, changesTo_step_of_legal hlegal⟩) hempty h

/-- A name of one generic component, with its length in the given size. -/
def oneComponent (value : Bytes) (octets : ℕ) (h : Tlv.FitsIn octets value.length) : ReceivedName :=
  [⟨.genericIn value octets h, true⟩]

/-- Erasing the first of two delegations by a reference to it erases the second one too; and a name
with a length in three bytes is put behind one that it should precede. -/
theorem not_truthful_run : ∃ a b long : ReceivedName,
    (∃ l, l = Run.run step empty [.insert 1 (.outside a) .append, .insert 1 (.outside b) .append] ∧
      ¬ (Op.erase (some 1) (.element 0)).ChangesTo l (l.step (.erase (some 1) (.element 0)))) ∧
    ¬ (Run.run step empty
      [.insert 1 (.outside long) .append, .insert 1 (.outside b) .append]).Truthful := by
  refine ⟨oneComponent [96] 0 (.first (by decide)), oneComponent [97] 0 (.first (by decide)),
    oneComponent [96] 2 (.after (by decide) (by decide)), ⟨_, rfl, fun h => ?_⟩, fun h => ?_⟩
  · have hcard := congrArg Multiset.card (h _ rfl)
    exact absurd hcard (by decide)
  · have hordered := h rfl
    unfold OrderedList.Ordered at hordered
    exact absurd hordered (by decide)

/-- Two delegations are inserted in the wrong order, one of them again with another preference, and the
other one is erased. -/
def sampleOps (a b : ReceivedName) : List Op :=
  [.insert 1 (.outside b) .append, .insert 1 (.outside a) .skip, .insert 2 (.outside b) .replace,
    .erase none (.outside a)]

theorem truthful_run_sample : ∃ a b : ReceivedName,
    Run.Meets step (fun l op => op.Legal l) empty (sampleOps a b) ∧
    (∀ front, front <+: sampleOps a b → (Run.run step empty front).Truthful ∧
      (Run.run step empty front).RoundTrips) ∧
    Run.Meets step (fun l op => op.ChangesTo l (l.step op)) empty (sampleOps a b) := by
  let a := oneComponent [96] 0 (.first (by decide))
  let b := oneComponent [97] 0 (.first (by decide))
  have hlegal : Run.Meets step (fun l op => op.Legal l) empty (sampleOps a b) :=
    ⟨⟨b, rfl, fun _ => by decide⟩, ⟨a, rfl, fun _ => by decide⟩, ⟨b, rfl, fun _ => by decide⟩,
      ⟨a, rfl⟩, trivial⟩
  exact ⟨a, b, hlegal, truthful_run _ hlegal⟩

end ReceivedDelegationList

end NdnFc
