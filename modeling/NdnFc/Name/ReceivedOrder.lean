import Mathlib.Data.List.Zip
import NdnFc.Name.CanonicalOrder
import NdnFc.Name.Wire

/-!
# How received names are compared

A VAR-NUMBER can be encoded in more bytes than it needs (`ndn-cxx/encoding/tlv.hpp`,
`readVarNumber`). `Component::compare` compares the encodings of two received components as they
came, so a component whose type or length takes more bytes is after the other; when one has no
encoding, type, length and value are compared.
-/

namespace NdnFc

open List

namespace Tlv

variable {number octets : ℕ} (h : FitsIn octets number)

include h

theorem FitsIn.leadOctet_lt : leadOctet octets number < 256 := by
  cases h with
  | first h => exact h.trans (by decide)
  | after hoctets => rcases hoctets with rfl | rfl | rfl <;> simp [leadOctet]

theorem FitsIn.toNat_leadOctet :
    (UInt8.ofNat (leadOctet octets number)).toNat = leadOctet octets number :=
  UInt8.toNat_ofNat_of_lt h.leadOctet_lt

theorem FitsIn.leadOctet_lt_of_lt {octets' number' : ℕ} (h' : FitsIn octets' number')
    (hlt : octets < octets') :
    leadOctet octets number < leadOctet octets' number' := by
  cases h with
  | first h =>
    cases h' with
    | first => omega
    | after hoctets' => rcases hoctets' with rfl | rfl | rfl <;> simp [leadOctet] <;> omega
  | after hoctets =>
    cases h' with
    | first => omega
    | after hoctets' =>
      rcases hoctets with rfl | rfl | rfl <;> rcases hoctets' with rfl | rfl | rfl <;>
        first | omega | simp [leadOctet]

theorem compare_varNumberIn_append {octets' number' : ℕ} (h' : FitsIn octets' number') (x y : Bytes) :
    Ord.compare (varNumberIn octets number ++ x) (varNumberIn octets' number' ++ y) =
      (Ord.compare octets octets').then
        ((Ord.compare number number').then (Ord.compare x y)) := by
  have hlead : Ord.compare (UInt8.ofNat (leadOctet octets number))
      (UInt8.ofNat (leadOctet octets' number')) =
        Ord.compare (leadOctet octets number) (leadOctet octets' number') := by
    rw [BigEndian.compare_byte, h.toNat_leadOctet, h'.toNat_leadOctet]
  rw [varNumberIn, varNumberIn, List.cons_append, List.cons_append, List.compare_cons_cons, hlead]
  rcases Nat.lt_trichotomy octets octets' with hlt | rfl | hgt
  · rw [Nat.compare_eq_lt.mpr hlt, Nat.compare_eq_lt.mpr (h.leadOctet_lt_of_lt h' hlt)]
    rfl
  · rw [Nat.compare_eq_eq.mpr rfl, Ordering.eq_then]
    cases h with
    | first h =>
      -- the first byte is the number
      rfl
    | after hoctets hnumber =>
      have hne : octets ≠ 0 := by omega
      have hnumber' : number' < 256 ^ octets := by
        cases h' with
        | first => exact absurd rfl hne
        | after _ hnumber' => exact hnumber'
      have hlead : leadOctet octets number = leadOctet octets number' := by
        rw [leadOctet, leadOctet, if_neg hne, if_neg hne]
      rw [hlead, Nat.compare_eq_eq.mpr rfl, Ordering.eq_then,
        compare_append_of_length_eq (by simp), BigEndian.compare_eq_compare_toNat (by simp),
        BigEndian.toNat_ofNat_of_lt hnumber, BigEndian.toNat_ofNat_of_lt hnumber']
  · rw [Nat.compare_eq_gt.mpr hgt, Nat.compare_eq_gt.mpr (h'.leadOctet_lt_of_lt h hgt)]
    rfl

end Tlv

/-! ### Elements in any encoding -/

namespace Block

def typeOctets (b : Block) : ℕ :=
  Tlv.firstOctets b.header

def lengthOctets (b : Block) : ℕ :=
  Tlv.firstOctets (b.header.drop (b.typeOctets + 1))

/-- The element of a type and value with type and length in the given sizes. -/
def makeIn (type : ℕ) (value : Bytes) (typeOctets lengthOctets : ℕ) (hpos : 0 < type)
    (htype : type < 2 ^ 32) (htypeFits : Tlv.FitsIn typeOctets type)
    (hlengthFits : Tlv.FitsIn lengthOctets value.length) : Block where
  type := type
  value := value
  header := Tlv.varNumberIn typeOctets type ++ Tlv.varNumberIn lengthOctets value.length
  readHeader_header := fun rest => by
    have hno : ¬ (type = Tlv.invalid ∨ 2 ^ 32 ≤ type) := by
      simp only [Tlv.invalid]
      omega
    rw [append_assoc, Tlv.readHeader, Tlv.readType,
      Tlv.readVarNumber_varNumberIn htypeFits, Fallible.ok_bind]
    simp only [if_neg hno, Fallible.pure_eq_ok, Fallible.ok_bind,
      Tlv.readVarNumber_varNumberIn hlengthFits]

theorem header_eq (b : Block) :
    Tlv.FitsIn b.typeOctets b.type ∧ Tlv.FitsIn b.lengthOctets b.value.length ∧
      b.header = Tlv.varNumberIn b.typeOctets b.type ++
        Tlv.varNumberIn b.lengthOctets b.value.length := by
  obtain ⟨rest, hnumber, hlength⟩ := b.exists_readVarNumber
  obtain ⟨hfits, hheader⟩ := Tlv.varNumberIn_of_readVarNumber hnumber
  obtain ⟨hfits', hrest⟩ := Tlv.varNumberIn_of_readVarNumber hlength
  have hdrop : b.header.drop (b.typeOctets + 1) = rest := by
    rw [typeOctets]
    generalize Tlv.firstOctets b.header = octets at hheader ⊢
    rw [hheader]
    exact drop_left' (Tlv.length_varNumberIn _ _)
  rw [lengthOctets, hdrop]
  refine ⟨hfits, hfits', ?_⟩
  rw [append_nil] at hrest
  rw [← hrest]
  exact hheader

theorem compare_wire (a b : Block) :
    Ord.compare a.wire b.wire =
      (Ord.compare a.typeOctets b.typeOctets).then ((Ord.compare a.type b.type).then
        ((Ord.compare a.lengthOctets b.lengthOctets).then
          ((Ord.compare a.value.length b.value.length).then (Ord.compare a.value b.value)))) := by
  obtain ⟨hatype, halength, haheader⟩ := a.header_eq
  obtain ⟨hbtype, hblength, hbheader⟩ := b.header_eq
  rw [wire, wire, haheader, hbheader, append_assoc, append_assoc,
    Tlv.compare_varNumberIn_append hatype hbtype,
    Tlv.compare_varNumberIn_append halength hblength]

variable {a b : Block}

theorem wire_eq_of_isPrefix (h : a.wire <+: b.wire) : a.wire = b.wire :=
  congrArg wire (eq_of_isPrefix h)

/-! ### The two ways to compare components -/

/-- `Component::compare` for two components with a wire encoding. -/
def compareWire (a b : Block) : Option Ordering :=
  memcmp a.wire b.wire (min a.wire.length b.wire.length)

/-- `Component::compare` when one of the components has none. -/
def compareValue (a b : Block) : Option Ordering :=
  let cmpType := toInt ((a.type : ℤ) - b.type)
  if cmpType ≠ 0 then some (signOf cmpType)
  else
    let cmpSize := toInt ((a.value.length : ℤ) - b.value.length)
    if cmpSize ≠ 0 then some (signOf cmpSize)
    else if a.value = [] then some .eq
    else memcmp a.value b.value a.value.length

/-- The canonical order of components, by type, length and value. -/
def canonical (a b : Block) : Ordering :=
  Component.compare (.ofBlock a) (.ofBlock b)

/-- Both ways to compare give the canonical order, whichever component is asked first. -/
structure ComparedAlike (a b : Block) : Prop where
  wire : compareWire a b = some (canonical a b)
  wire_swap : compareWire b a = some (canonical b a)
  value : compareValue a b = some (canonical a b)
  value_swap : compareValue b a = some (canonical b a)

/-- A type that is encoded in a shorter size belongs to the first component in the canonical order;
and so for the lengths, when the types and their sizes agree. -/
structure SizesAgree (a b : Block) : Prop where
  type : a.typeOctets ≠ b.typeOctets → Ord.compare a.typeOctets b.typeOctets = canonical a b
  length : a.typeOctets = b.typeOctets → a.type = b.type → a.lengthOctets ≠ b.lengthOctets →
    Ord.compare a.lengthOctets b.lengthOctets = canonical a b

/-- The conversions to `int` keep the signs of the differences that decide. -/
structure SignsKept (a b : Block) : Prop where
  type : SignKept a.type b.type
  length : a.type = b.type → SignKept a.value.length b.value.length

theorem canonical_eq (a b : Block) : canonical a b =
    (Ord.compare a.type b.type).then
      ((Ord.compare a.value.length b.value.length).then (Ord.compare a.value b.value)) := rfl

theorem canonical_swap (a b : Block) : canonical b a = (canonical a b).swap := by
  unfold canonical
  exact Std.OrientedCmp.eq_swap

theorem compareWire_eq_canonical_iff : compareWire a b = some (canonical a b) ↔ SizesAgree a b := by
  rw [compareWire, memcmp_min_length wire_eq_of_isPrefix wire_eq_of_isPrefix,
    Option.some.injEq, compare_wire]
  by_cases hsize : a.typeOctets = b.typeOctets
  case neg =>
    rw [HeldComponent.then_of_ne hsize]
    exact ⟨fun h => ⟨fun _ => h, fun heq => absurd heq hsize⟩, fun h => h.type hsize⟩
  rw [Nat.compare_eq_eq.mpr hsize, Ordering.eq_then]
  by_cases htype : a.type = b.type
  case neg =>
    refine iff_of_true ?_ ⟨fun hne => absurd hsize hne, fun _ heq => absurd heq htype⟩
    rw [canonical_eq, HeldComponent.then_of_ne htype, HeldComponent.then_of_ne htype]
  rw [Nat.compare_eq_eq.mpr htype, Ordering.eq_then]
  by_cases hlength : a.lengthOctets = b.lengthOctets
  case neg =>
    rw [HeldComponent.then_of_ne hlength]
    exact ⟨fun h => ⟨fun hne => absurd hsize hne, fun _ _ _ => h⟩,
      fun h => h.length hsize htype hlength⟩
  refine iff_of_true ?_ ⟨fun hne => absurd hsize hne, fun _ _ hne => absurd hlength hne⟩
  rw [Nat.compare_eq_eq.mpr hlength, Ordering.eq_then, canonical_eq, Nat.compare_eq_eq.mpr htype,
    Ordering.eq_then]

theorem SizesAgree.symm (h : SizesAgree a b) : SizesAgree b a := by
  have hswap : ∀ m n : ℕ, Ord.compare m n = (Ord.compare n m).swap := fun _ _ =>
    Std.OrientedCmp.eq_swap
  constructor
  · intro hne
    rw [hswap, h.type (Ne.symm hne), canonical_swap a b]
  · intro hsize htype hne
    rw [hswap, h.length hsize.symm htype.symm (Ne.symm hne), canonical_swap a b]

/-- A component without wire, as in the comparison of names in minimal encoding. -/
def held (b : Block) : HeldComponent :=
  ⟨.ofBlock b, false, b.length_value_lt⟩

theorem compareValue_eq_held (a b : Block) : compareValue a b = a.held.compare b.held := rfl

theorem keepsOrder_held_iff : a.held.KeepsOrder b.held ↔ SignsKept a b := by
  constructor
  · rintro (⟨h, -⟩ | ⟨htype, hlength⟩)
    · cases h
    · exact ⟨htype, hlength⟩
  · intro h
    exact .inr ⟨h.type, h.length⟩

theorem compareValue_eq_canonical_iff :
    compareValue a b = some (canonical a b) ∧ compareValue b a = some (canonical b a) ↔
      SignsKept a b := by
  by_cases heq : Component.ofBlock a = Component.ofBlock b
  · have hself : ∀ {c d : Component}, c = d → Component.compare c d = .eq := by
      rintro c _ rfl
      exact Std.ReflCmp.compare_self
    have htype : a.type = b.type := congrArg Component.type heq
    have hvalue : a.value = b.value := congrArg Component.value heq
    refine iff_of_true ⟨?_, ?_⟩ ⟨?_, fun _ => ?_⟩
    · rw [compareValue_eq_held, HeldComponent.compare_self_component heq, canonical, hself heq]
    · rw [compareValue_eq_held, HeldComponent.compare_self_component heq.symm, canonical,
        hself heq.symm]
    · exact htype ▸ signKept_self a.type
    · exact hvalue ▸ signKept_self a.value.length
  · have hne : ∀ {c d : Component}, c ≠ d → Component.compare c d ≠ .eq := fun hcd h =>
      hcd (Std.LawfulEqCmp.eq_of_compare h)
    rw [← keepsOrder_held_iff]
    constructor
    · rintro ⟨hab, hba⟩
      rw [compareValue_eq_held] at hab hba
      exact (HeldComponent.compareThen_iff (a := a.held) (b := b.held) heq none none).mp
        ⟨HeldComponent.compareThen_of_ne hab (hne heq) _,
          HeldComponent.compareThen_of_ne hba (hne (Ne.symm heq)) _⟩
    · intro h
      exact ⟨h.compare_eq, h.symm.compare_eq⟩

theorem comparedAlike_iff_agree : ComparedAlike a b ↔ SizesAgree a b ∧ SignsKept a b := by
  constructor
  · intro h
    exact ⟨compareWire_eq_canonical_iff.mp h.wire,
      compareValue_eq_canonical_iff.mp ⟨h.value, h.value_swap⟩⟩
  · rintro ⟨hsizes, hsigns⟩
    obtain ⟨hvalue, hvalue'⟩ := compareValue_eq_canonical_iff.mpr hsigns
    exact ⟨compareWire_eq_canonical_iff.mpr hsizes, compareWire_eq_canonical_iff.mpr hsizes.symm,
      hvalue, hvalue'⟩

end Block

/-! ### Names -/

/-- A comparison that finds exactly equal values equal, is antisymmetric and transitive. -/
structure ConsistentOrder {α : Type} (cmp : α → α → Ordering) : Prop where
  eq_iff : ∀ x y, cmp x y = .eq ↔ x = y
  swap : ∀ x y, cmp y x = (cmp x y).swap
  trans : ∀ x y z, (cmp x y).isLE → (cmp y z).isLE → (cmp x z).isLE

theorem consistentOrder_of_lawful {α : Type} {cmp : α → α → Ordering} [Std.TransCmp cmp]
    [Std.LawfulEqCmp cmp] : ConsistentOrder cmp where
  eq_iff x y := by
    constructor
    · exact Std.LawfulEqCmp.eq_of_compare
    · rintro rfl
      exact Std.ReflCmp.compare_self
  swap _ _ := Std.OrientedCmp.eq_swap
  trans _ _ _ := Std.TransCmp.isLE_trans

/-- A component with the header it came with, and whether it still has its wire encoding. -/
structure ReceivedComponent where
  block : Block
  hasWire : Bool

def ReceivedComponent.compare (a b : ReceivedComponent) : Option Ordering :=
  if a.hasWire && b.hasWire then a.block.compareWire b.block else a.block.compareValue b.block

/-- A name whose components came in any encoding. -/
abbrev ReceivedName := List ReceivedComponent

namespace ReceivedName

def name (X : ReceivedName) : Name := X.map fun a => .ofBlock a.block

/-- `compare` on whole names. -/
def compare : ReceivedName → ReceivedName → Option Ordering
  | a :: X, b :: Z => do
    let comp ← a.compare b
    if comp ≠ .eq then pure comp else compare X Z
  | X, Z => some (signOf (toInt ((X.length : ℤ) - Z.length)))

/-- The two names compare as in the canonical order, whichever is asked first. -/
def OrderedAs (X Z : ReceivedName) : Prop :=
  X.compare Z = some (Name.compare X.name Z.name) ∧ Z.compare X = some (Name.compare Z.name X.name)

/-- The components at the same positions meet the condition, and the conversion of the difference of
the lengths to `int` keeps its sign. -/
structure Agree (X Z : ReceivedName) : Prop where
  components : ∀ p ∈ X.zip Z, p.1.block.SizesAgree p.2.block ∧ p.1.block.SignsKept p.2.block
  length : SignKept X.length Z.length

theorem compare_of_agree {a b : ReceivedComponent}
    (h : a.block.SizesAgree b.block ∧ a.block.SignsKept b.block) :
    a.compare b = some (a.block.canonical b.block) := by
  have halike := Block.comparedAlike_iff_agree.mpr h
  unfold ReceivedComponent.compare
  split
  · exact halike.wire
  · exact halike.value

theorem signKept_succ {m n : ℕ} (h : SignKept (m + 1) (n + 1)) : SignKept m n := by
  have hsub : ∀ m n : ℕ, ((m + 1 : ℕ) : ℤ) - (n + 1 : ℕ) = m - n := fun m n => by omega
  rw [SignKept, hsub, hsub] at h
  exact h

variable {X Z : ReceivedName}

theorem compare_eq_of_agree
    (h : ∀ p ∈ X.zip Z, p.1.block.SizesAgree p.2.block ∧ p.1.block.SignsKept p.2.block)
    (hlength : SignKept X.length Z.length) :
    X.compare Z = some (Name.compare X.name Z.name) := by
  induction X generalizing Z with
  | nil =>
    have hsign := (signKept_iff.mp hlength).1
    cases Z <;> exact congrArg some hsign
  | cons a X ih =>
    cases Z with
    | nil => exact congrArg some (signKept_iff.mp hlength).1
    | cons b Z =>
      rw [zip_cons_cons, forall_mem_cons] at h
      have hrest := ih h.2 (signKept_succ hlength)
      have hcanon : Name.compare (name (a :: X)) (name (b :: Z)) =
          (a.block.canonical b.block).then (Name.compare (name X) (name Z)) :=
        List.compareLex_cons_cons
      rw [compare, compare_of_agree h.1, hcanon]
      cases hcmp : a.block.canonical b.block with
      | lt => rfl
      | gt => rfl
      | eq => simpa using hrest

theorem Agree.symm (h : X.Agree Z) : Z.Agree X := by
  refine ⟨fun p hp => ?_, h.length.symm⟩
  have hswap : p.swap ∈ X.zip Z := by
    rw [← zip_swap, mem_map] at hp
    obtain ⟨q, hq, rfl⟩ := hp
    exact hq
  obtain ⟨hsizes, hsigns⟩ := h.components _ hswap
  exact ⟨hsizes.symm, hsigns.type.symm, fun heq => (hsigns.length heq.symm).symm⟩

theorem orderedAs_of_agree (h : X.Agree Z) : X.OrderedAs Z :=
  ⟨compare_eq_of_agree h.components h.length, compare_eq_of_agree h.symm.components h.symm.length⟩

end ReceivedName

/-- Both ways to compare two components in any encoding give the canonical order exactly when the
sizes of type and length agree with it and the conversions to `int` keep the signs; so for names of
such components. Both orders are consistent with equality. -/
theorem Block.comparedAlike_iff (a b : Block) (X Z : ReceivedName) :
    (a.ComparedAlike b ↔ a.SizesAgree b ∧ a.SignsKept b) ∧ (X.Agree Z → X.OrderedAs Z) ∧
      ConsistentOrder Component.compare ∧ ConsistentOrder Name.compare :=
  ⟨comparedAlike_iff_agree, ReceivedName.orderedAs_of_agree, consistentOrder_of_lawful,
    consistentOrder_of_lawful⟩

/-- A generic component with its length in a given size. -/
def Block.genericIn (value : Bytes) (octets : ℕ) (h : Tlv.FitsIn octets value.length) : Block :=
  .makeIn Tlv.genericNameComponent value 0 octets Tlv.genericNameComponent_pos
    Tlv.genericNameComponent_lt (.first (by decide)) h

/-- A component of one byte, with its length in three bytes, is not equal to itself with a length in
one byte and is after a longer one; with a component without encoding the three are in a circle. -/
theorem Block.not_comparedAlike_longHeader : ∃ long short two other : ReceivedComponent,
    (long.hasWire = true ∧ short.hasWire = true ∧ two.hasWire = true) ∧
    Component.ofBlock long.block = .ofBlock short.block ∧ long.compare short = some .gt ∧
    two.compare long = some .lt ∧ two.block.compareValue long.block = some .gt ∧
    long.compare other = some .lt ∧ other.compare two = some .lt :=
  ⟨⟨.genericIn [96] 2 (.after (by decide) (by decide)), true⟩,
    ⟨.genericIn [96] 0 (.first (by decide)), true⟩,
    ⟨.genericIn [97, 97] 0 (.first (by decide)), true⟩,
    ⟨.genericIn [98] 0 (.first (by decide)), false⟩, by decide⟩

end NdnFc
