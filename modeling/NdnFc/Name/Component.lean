import NdnFc.Lib.BigEndian
import NdnFc.Tlv.Types

/-!
# Name components

A name component is a TLV-TYPE and a TLV-VALUE (`ndn-cxx/name-component.cpp`). The canonical order
compares the type, then the length, then the value. Components are in their minimal encoding here.
The decoder of names does not check components, so one of a digest type may have any length;
`Component.create` is the constructor that checks (`ensureValid`).
-/

namespace NdnFc

open BigEndian

open Std (TransCmp LawfulEqCmp OrientedCmp)

structure Component where
  type : ℕ
  value : Bytes
  type_pos : 0 < type
  type_lt : type < 2 ^ 32
deriving DecidableEq, Repr

abbrev digestSize : ℕ := 32

namespace Component

variable {c : Component}

@[ext]
theorem ext {d : Component} (ht : c.type = d.type) (hv : c.value = d.value) : c = d := by
  cases c; cases d; cases ht; cases hv; rfl

/-- Canonical order of components: type, then length, then value. -/
def compare : Component → Component → Ordering :=
  compareLex (compareOn type) (compareLex (compareOn (·.value.length)) (compareOn value))

instance : TransCmp compare :=
  inferInstanceAs (TransCmp
    (compareLex (compareOn type) (compareLex (compareOn (·.value.length)) (compareOn value))))

instance : LawfulEqCmp compare where
  eq_of_compare {c d} h := by
    simp only [compare, compareLex_eq_eq, compareOn, Std.compare_eq_iff_eq] at h
    exact ext h.1 h.2.2

instance : Ord Component := ⟨compare⟩

instance : Std.TransOrd Component := inferInstanceAs (TransCmp compare)

/-- `Component(str)`: a generic component. -/
def generic (value : Bytes) : Component :=
  ⟨Tlv.genericNameComponent, value, by decide, by decide⟩

def isImplicitSha256Digest (c : Component) : Bool :=
  c.type == Tlv.implicitSha256DigestComponent && c.value.length == digestSize

def isParametersSha256Digest (c : Component) : Bool :=
  c.type == Tlv.parametersSha256DigestComponent && c.value.length == digestSize

/-! ### Rules of the component types

`ndn-cxx/impl/name-component-types.hpp`: every TLV-TYPE has rules for checking, ordering and
printing its values, found in a table indexed by the type. -/

/-- The classes of component types. -/
inductive TypeRules where
  | base
  | generic
  | sha256 (typeName uriPrefix : String)
  | decimal (typeName uriPrefix : String)
deriving DecidableEq, Repr

/-- `ComponentTypeTable::get` -/
def typeRules : ℕ → TypeRules
  | 1 => .sha256 "ImplicitSha256DigestComponent" "sha256digest"
  | 2 => .sha256 "ParametersSha256DigestComponent" "params-sha256"
  | 8 => .generic
  | 33 => .decimal "SegmentNameComponent" "seg"
  | 34 => .decimal "ByteOffsetNameComponent" "off"
  | 35 => .decimal "VersionNameComponent" "v"
  | 36 => .decimal "TimestampNameComponent" "t"
  | 37 => .decimal "SequenceNumNameComponent" "seq"
  | _ => .base

def TypeRules.check (rules : TypeRules) (value : Bytes) : Except String Unit :=
  match rules with
  | .sha256 typeName _ =>
    if value.length = digestSize then pure () else throw (typeName ++ " TLV-LENGTH must be 32")
  | _ => pure ()

def TypeRules.getMinValue : TypeRules → Bytes
  | .sha256 _ _ => List.replicate digestSize 0
  | _ => []

/-- The checking constructor `Component(type, value)`, with the check `ensureValid`. -/
def create (type : ℕ) (value : Bytes) : Except String Component :=
  if h : Tlv.nameComponentMin ≤ type ∧ type ≤ Tlv.nameComponentMax then do
    (typeRules type).check value
    pure ⟨type, value, h.1, lt_of_le_of_lt h.2 (by decide)⟩
  else
    throw ("TLV-TYPE " ++ toString type ++ " is not a valid NameComponent")

/-- `ComponentType::getSuccessorImpl`: the next value, one byte longer when it overflows. -/
def getSuccessorImpl (value : Bytes) : Bool × Bytes :=
  let (isOverflow, next) := increment value
  (isOverflow, if isOverflow then next ++ [0] else next)

/-- `Component::getSuccessor`. A digest type has values of one length only, so its last value is
followed by the least value of the next type; all other types extend the value. -/
def getSuccessor (c : Component) : Except String Component :=
  match typeRules c.type, getSuccessorImpl c.value with
  | .sha256 _ _, (true, _) => create (c.type + 1) (typeRules (c.type + 1)).getMinValue
  | _, (_, next) => create c.type next

theorem create_eq_ok_iff {type : ℕ} {value : Bytes} :
    create type value = .ok c ↔ c.type = type ∧ c.value = value ∧
      type ≤ Tlv.nameComponentMax ∧ (typeRules type).check value = .ok () := by
  unfold create
  split
  next h =>
    cases hc : (typeRules type).check value with
    | error e => simp [bind, Except.bind]
    | ok u =>
      simp only [bind, Except.bind, pure, Except.pure, Except.ok.injEq, and_true]
      constructor
      · rintro rfl
        exact ⟨rfl, rfl, h.2⟩
      · rintro ⟨rfl, rfl, -⟩
        rfl
  next h =>
    simp only [reduceCtorEq, false_iff, not_and]
    rintro rfl - ht
    exact absurd ⟨c.type_pos, ht⟩ h

/-- The component passes the check of `ensureValid`, as `wireDecode` of a component requires. -/
def Accepted (c : Component) : Prop :=
  create c.type c.value = .ok c

instance (c : Component) : Decidable c.Accepted :=
  inferInstanceAs (Decidable (create c.type c.value = .ok c))

theorem accepted_iff : c.Accepted ↔
    c.type ≤ Tlv.nameComponentMax ∧ (typeRules c.type).check c.value = .ok () := by
  rw [Accepted, create_eq_ok_iff]
  simp

theorem compare_eq_lt_iff {d : Component} :
    compare c d = .lt ↔ c.type < d.type ∨ c.type = d.type ∧
      (c.value.length < d.value.length ∨ c.value.length = d.value.length ∧
        toNat c.value < toNat d.value) := by
  simp only [compare, compareLex, compareOn, Ordering.then_eq_lt, Nat.compare_eq_lt,
    Nat.compare_eq_eq]
  refine or_congr Iff.rfl (and_congr Iff.rfl (or_congr Iff.rfl ⟨?_, ?_⟩))
  · rintro ⟨hl, hv⟩
    exact ⟨hl, by rwa [compare_eq_compare_toNat hl, Nat.compare_eq_lt] at hv⟩
  · rintro ⟨hl, hv⟩
    exact ⟨hl, by rwa [compare_eq_compare_toNat hl, Nat.compare_eq_lt]⟩

theorem getSuccessorImpl_cases (value : Bytes) :
    (∃ next, getSuccessorImpl value = (false, next) ∧ next.length = value.length ∧
      toNat next = toNat value + 1) ∨
    (∃ next, getSuccessorImpl value = (true, next) ∧ next.length = value.length + 1 ∧
      toNat next = 0 ∧ toNat value + 1 = 256 ^ value.length) := by
  have hlen := length_increment value
  have hnat := toNat_increment value
  have hlt := toNat_lt value
  rcases h : increment value with ⟨_ | _, next⟩
  · rw [h] at hlen hnat
    exact .inl ⟨next, by simp [getSuccessorImpl, h], hlen, by simpa using hnat⟩
  · rw [h] at hlen hnat
    simp only [if_true] at hnat
    exact .inr ⟨next ++ [0], by simp [getSuccessorImpl, h], by simp [hlen],
      by simp; omega, by omega⟩

theorem getSuccessor_cases {c' : Component} (h : c.getSuccessor = .ok c') :
    (c'.type = c.type ∧ c'.value.length = c.value.length ∧
      toNat c'.value = toNat c.value + 1) ∨
    toNat c.value + 1 = 256 ^ c.value.length ∧
      ((∀ typeName uriPrefix, typeRules c.type ≠ .sha256 typeName uriPrefix) ∧ c'.type = c.type ∧
          c'.value.length = c.value.length + 1 ∧ toNat c'.value = 0 ∨
        (∃ typeName uriPrefix, typeRules c.type = .sha256 typeName uriPrefix) ∧
          c'.type = c.type + 1 ∧ c'.value = (typeRules (c.type + 1)).getMinValue) := by
  unfold getSuccessor at h
  split at h
  next hrules hnext =>
    obtain ⟨ht, hv, -⟩ := create_eq_ok_iff.mp h
    rcases getSuccessorImpl_cases c.value with ⟨n, hn, -⟩ | ⟨n, hn, -, -, hfull⟩
    · simp [hn] at hnext
    · exact .inr ⟨hfull, .inr ⟨⟨_, _, hrules⟩, ht, hv⟩⟩
  next isOverflow next hnext hother =>
    obtain ⟨ht, rfl, -⟩ := create_eq_ok_iff.mp h
    rcases getSuccessorImpl_cases c.value with ⟨n, hn, hl, hnat⟩ | ⟨n, hn, hl, hzero, hfull⟩
    · obtain ⟨-, rfl⟩ : false = isOverflow ∧ n = c'.value := by simpa [hn] using hnext
      exact .inl ⟨ht, hl, hnat⟩
    · obtain ⟨rfl, rfl⟩ : true = isOverflow ∧ n = c'.value := by simpa [hn] using hnext
      exact .inr ⟨hfull, .inl ⟨fun _ _ hrules => hother _ _ hrules rfl, ht, hl, hzero⟩⟩

theorem compare_getSuccessor {c' : Component} (h : c.getSuccessor = .ok c') :
    compare c c' = .lt := by
  rw [compare_eq_lt_iff]
  rcases getSuccessor_cases h with hnext | ⟨-, ⟨-, hnext⟩ | ⟨-, hnext, -⟩⟩ <;> omega

theorem isImplicitSha256Digest_of_getSuccessor {c' : Component} (h : c.getSuccessor = .ok c')
    (hc' : c'.isImplicitSha256Digest) : c.isImplicitSha256Digest := by
  simp only [isImplicitSha256Digest, Bool.and_eq_true, beq_iff_eq] at hc' ⊢
  have hpos := c.type_pos
  have hone : c'.type = 1 := hc'.1
  rcases getSuccessor_cases h with ⟨ht, hl, -⟩ | ⟨-, ⟨hother, ht, -⟩ | ⟨-, ht, -⟩⟩
  · exact ⟨ht ▸ hc'.1, by rw [← hl]; exact hc'.2⟩
  · -- a digest type never extends its value
    have h1 : typeRules c.type = .sha256 "ImplicitSha256DigestComponent" "sha256digest" := by
      rw [← ht, hc'.1]
      rfl
    exact absurd h1 (hother _ _)
  · omega

theorem eq_of_between_getSuccessor {c' d : Component} (h : c.getSuccessor = .ok c')
    (hrules : ∀ typeName uriPrefix, typeRules c.type ≠ .sha256 typeName uriPrefix)
    (hcd : (compare c d).isLE) (hdc' : compare d c' = .lt) : d = c := by
  rcases Ordering.isLE_iff_eq_lt_or_eq_eq.mp hcd with hlt | heq
  · rw [compare_eq_lt_iff] at hlt hdc'
    rcases getSuccessor_cases h with hnext | ⟨hfull, ⟨-, hnext⟩ | ⟨⟨_, _, hsha⟩, -⟩⟩
    · omega
    · have hd : c.value.length = d.value.length →
          toNat d.value < 256 ^ c.value.length := fun hlen => hlen ▸ toNat_lt d.value
      omega
    · exact absurd hsha (hrules _ _)
  · exact (LawfulEqCmp.eq_of_compare heq).symm

end Component

end NdnFc
