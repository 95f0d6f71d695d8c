import NdnFc.Name.Basic
import NdnFc.Tlv.Block

/-!
# How names are compared

`Component::compare` (`ndn-cxx/name-component.cpp`, lines 480 to 503) compares wire encodings with
`memcmp` when both components have one, and type, length and value otherwise, where unsigned
differences are converted to `int`; so does `Name::compare` (`ndn-cxx/name.cpp`, lines 327 to 343)
with the numbers of components. A component made from a buffer, such as the digest of a full name,
has no wire encoding.
-/

namespace NdnFc

open Component List Option BigEndian

/-- `memcmp`, of whose result only the sign is specified. Reading beyond an end is undefined. -/
def memcmp (a b : Bytes) (n : ℕ) : Option Ordering :=
  if n ≤ a.length ∧ n ≤ b.length then some (compare (a.take n) (b.take n)) else none

/-- The sign of an `int`. -/
def signOf (x : ℤ) : Ordering := compare x 0

/-- The conversion of the difference of two unsigned numbers to `int`. -/
def toInt (difference : ℤ) : ℤ := difference.bmod (2 ^ 32)

/-- A component, whether it has its wire encoding, and its length as a 64-bit number. -/
structure HeldComponent where
  component : Component
  hasWire : Bool
  length_lt : component.value.length < 2 ^ 64

namespace HeldComponent

def wire (a : HeldComponent) : Bytes :=
  Tlv.encodeElement a.component.type a.component.value

def compare (a b : HeldComponent) : Option Ordering :=
  if a.hasWire && b.hasWire then memcmp a.wire b.wire (min a.wire.length b.wire.length)
  else
    let cmpType := toInt ((a.component.type : ℤ) - b.component.type)
    if cmpType ≠ 0 then some (signOf cmpType)
    else
      let cmpSize := toInt ((a.component.value.length : ℤ) - b.component.value.length)
      if cmpSize ≠ 0 then some (signOf cmpSize)
      else if a.component.value = [] then some .eq
      else memcmp a.component.value b.component.value a.component.value.length

end HeldComponent

/-- A name whose components may have their wire encodings or not. -/
abbrev HeldName := List HeldComponent

namespace HeldName

def name (X : HeldName) : Name := X.map (·.component)

/-- `compare` on whole names. What remains of the two names differs in length as the names do. -/
def compare : HeldName → HeldName → Option Ordering
  | a :: X, b :: Z => do
    let comp ← a.compare b
    if comp ≠ .eq then pure comp else compare X Z
  | X, Z => some (signOf (toInt ((X.length : ℤ) - Z.length)))

/-- The two names compare as in the canonical order, whichever is asked first. -/
def OrderedAs (X Z : HeldName) : Prop :=
  X.compare Z = some (Name.compare X.name Z.name) ∧ Z.compare X = some (Name.compare Z.name X.name)

end HeldName

/-- The conversion to `int` keeps the sign of a difference, taken either way round. -/
def SignKept (x y : ℕ) : Prop :=
  signOf (toInt ((x : ℤ) - y)) = signOf ((x : ℤ) - y) ∧
    signOf (toInt ((y : ℤ) - x)) = signOf ((y : ℤ) - x)

instance (x y : ℕ) : Decidable (SignKept x y) := inferInstanceAs (Decidable (_ ∧ _))

/-- Two components are compared by their wires, or the conversions keep the signs of the differences
that decide. -/
def HeldComponent.KeepsOrder (a b : HeldComponent) : Prop :=
  (a.hasWire = true ∧ b.hasWire = true) ∨
    SignKept a.component.type b.component.type ∧
      (a.component.type = b.component.type →
        SignKept a.component.value.length b.component.value.length)

/-- At the first difference between two names, the comparison keeps the order. -/
def HeldName.KeepsOrder : HeldName → HeldName → Prop
  | a :: X, b :: Z => if a.component = b.component then KeepsOrder X Z else a.KeepsOrder b
  | X, Z => SignKept X.length Z.length

/-! ### Wire encodings -/

theorem compare_append_of_length_eq {x y : Bytes} (h : x.length = y.length) (a b : Bytes) :
    Ord.compare (x ++ a) (y ++ b) = (Ord.compare x y).then (Ord.compare a b) :=
  LexOrder.compareLex_append_of_length_eq h a b

/-- The first byte of a VAR-NUMBER: the number itself, or how many bytes follow. -/
def leadByte (n : ℕ) : ℕ :=
  if n < 253 then n else if n < 2 ^ 16 then 253 else if n < 2 ^ 32 then 254 else 255

/-- How many bytes follow the first byte of a VAR-NUMBER. -/
def tailSize (n : ℕ) : ℕ :=
  if n < 253 then 0 else if n < 2 ^ 16 then 2 else if n < 2 ^ 32 then 4 else 8

theorem writeVarNumber_eq (n : ℕ) :
    Tlv.writeVarNumber n = UInt8.ofNat (leadByte n) :: ofNat (tailSize n) n := by
  unfold Tlv.writeVarNumber leadByte tailSize
  split_ifs <;> rfl

theorem leadByte_lt (n : ℕ) : leadByte n < 256 := by
  unfold leadByte
  split_ifs <;> omega

variable {m n : ℕ}

theorem lt_of_leadByte_lt (h : leadByte m < leadByte n) : m < n := by
  unfold leadByte at h
  split_ifs at h <;> omega

theorem tailSize_of_leadByte_eq (hm : m < 2 ^ 64) (hn : n < 2 ^ 64) (h : leadByte m = leadByte n) :
    tailSize m = tailSize n ∧ (m = n ∨ m < 256 ^ tailSize n ∧ n < 256 ^ tailSize n) := by
  unfold leadByte at h
  unfold tailSize
  split_ifs at h ⊢ <;> omega

theorem compare_writeVarNumber_append (hm : m < 2 ^ 64) (hn : n < 2 ^ 64) (a b : Bytes) :
    Ord.compare (Tlv.writeVarNumber m ++ a) (Tlv.writeVarNumber n ++ b) =
      (Ord.compare m n).then (Ord.compare a b) := by
  have hlead : Ord.compare (UInt8.ofNat (leadByte m)) (UInt8.ofNat (leadByte n)) =
      Ord.compare (leadByte m) (leadByte n) := by
    have hbyte : ∀ k, (UInt8.ofNat (leadByte k)).toNat = leadByte k :=
      fun k => UInt8.toNat_ofNat_of_lt (leadByte_lt k)
    rw [compare_byte, hbyte, hbyte]
  rw [writeVarNumber_eq, writeVarNumber_eq, cons_append, cons_append,
    List.compare_cons_cons, hlead]
  rcases Nat.lt_trichotomy (leadByte m) (leadByte n) with hlt | heq | hgt
  · rw [Nat.compare_eq_lt.mpr hlt, Nat.compare_eq_lt.mpr (lt_of_leadByte_lt hlt)]
    rfl
  · obtain ⟨hsize, hvalue⟩ := tailSize_of_leadByte_eq hm hn heq
    rw [Nat.compare_eq_eq.mpr heq, Ordering.eq_then, hsize,
      compare_append_of_length_eq (by simp)]
    congr 1
    rcases hvalue with rfl | ⟨hm, hn⟩
    · simp
    · rw [compare_eq_compare_toNat (by simp), toNat_ofNat_of_lt hm,
        toNat_ofNat_of_lt hn]
  · rw [Nat.compare_eq_gt.mpr hgt, Nat.compare_eq_gt.mpr (lt_of_leadByte_lt hgt)]
    rfl

theorem HeldComponent.compare_wire (a b : HeldComponent) :
    Ord.compare a.wire b.wire = Component.compare a.component b.component := by
  have htype : ∀ c : Component, c.type < 2 ^ 64 := fun c => c.type_lt.trans (by decide)
  rw [wire, wire, Tlv.encodeElement, Tlv.encodeElement, Tlv.encodeHeader, Tlv.encodeHeader,
    append_assoc, append_assoc, compare_writeVarNumber_append (htype _) (htype _),
    compare_writeVarNumber_append a.length_lt b.length_lt]
  rfl

theorem HeldComponent.wire_eq_of_isPrefix {a b : HeldComponent} (h : a.wire <+: b.wire) :
    a.wire = b.wire := by
  let block (c : HeldComponent) : Block :=
    .make _ _ c.component.type_pos c.component.type_lt c.length_lt
  have heq : block a = block b := Block.eq_of_isPrefix h
  exact congrArg Block.wire heq

theorem memcmp_min_length {x y : Bytes} (hxy : x <+: y → x = y) (hyx : y <+: x → y = x) :
    memcmp x y (min x.length y.length) = some (Ord.compare x y) := by
  rw [memcmp, if_pos ⟨Nat.min_le_left _ _, Nat.min_le_right _ _⟩]
  congr 1
  have htake : Ord.compare x y = _ := LexOrder.compareLex_eq_take_min x y
  rw [htake]
  cases hcmp : List.compareLex Ord.compare (x.take (min x.length y.length))
    (y.take (min x.length y.length)) with
  | lt => exact hcmp
  | gt => exact hcmp
  | eq =>
    -- they agree as far as both go, so one begins the other
    have heq := Std.LawfulEqCmp.eq_of_compare hcmp
    have hsame : x = y := by
      rcases Nat.le_total x.length y.length with hle | hle
      · rw [Nat.min_eq_left hle, take_length] at heq
        exact hxy (heq ▸ take_prefix _ _)
      · rw [Nat.min_eq_right hle, take_length] at heq
        exact (hyx (heq ▸ take_prefix _ _)).symm
    rw [hsame, Nat.compare_eq_eq.mpr rfl]
    exact hsame ▸ hcmp

theorem HeldComponent.memcmp_wire (a b : HeldComponent) :
    memcmp a.wire b.wire (min a.wire.length b.wire.length) =
      some (Component.compare a.component b.component) := by
  rw [memcmp_min_length wire_eq_of_isPrefix wire_eq_of_isPrefix, compare_wire]

/-! ### Conversions to `int` -/

theorem signOf_sub (x y : ℕ) : signOf ((x : ℤ) - y) = Ord.compare x y := by
  unfold signOf
  rcases Nat.lt_trichotomy x y with h | h | h
  · rw [Nat.compare_eq_lt.mpr h, Std.compare_eq_lt]
    omega
  · rw [Nat.compare_eq_eq.mpr h, Std.compare_eq_iff_eq]
    omega
  · rw [Nat.compare_eq_gt.mpr h, Std.compare_eq_gt]
    omega

theorem signOf_eq_eq_iff {x : ℤ} : signOf x = .eq ↔ x = 0 :=
  Std.compare_eq_iff_eq

variable {x y : ℕ}

theorem signKept_iff : SignKept x y ↔
    signOf (toInt ((x : ℤ) - y)) = Ord.compare x y ∧
      signOf (toInt ((y : ℤ) - x)) = Ord.compare y x := by
  rw [SignKept, signOf_sub, signOf_sub]

theorem signKept_self (x : ℕ) : SignKept x x := by
  simp [SignKept, toInt, signOf]

theorem SignKept.symm (h : SignKept x y) : SignKept y x :=
  And.symm h

theorem toInt_eq_zero_iff {x : ℤ} : toInt x = 0 ↔ (2 ^ 32 : ℤ) ∣ x :=
  Int.dvd_iff_bmod_eq_zero.symm

theorem toInt_sub_eq_zero_comm : toInt ((x : ℤ) - y) = 0 ↔ toInt ((y : ℤ) - x) = 0 := by
  rw [toInt_eq_zero_iff, toInt_eq_zero_iff]
  omega

theorem signKept_of_lt (hx : x < 2 ^ 31) (hy : y < 2 ^ 31) : SignKept x y := by
  have hsmall : ∀ z : ℤ, -2 ^ 31 ≤ z → z < 2 ^ 31 → toInt z = z := fun z hlow hhigh =>
    Int.bmod_eq_of_le (by omega) (by omega)
  rw [SignKept, hsmall _ (by omega) (by omega), hsmall _ (by omega) (by omega)]
  exact ⟨rfl, rfl⟩

/-! ### Components -/

namespace HeldComponent

variable {a b : HeldComponent}

theorem component_compare (a b : Component) : Component.compare a b =
    (Ord.compare a.type b.type).then
      ((Ord.compare a.value.length b.value.length).then (Ord.compare a.value b.value)) := rfl

theorem then_of_ne (h : m ≠ n) (o : Ordering) : (Ord.compare m n).then o = Ord.compare m n := by
  rcases Nat.lt_or_gt_of_ne h with hlt | hgt
  · rw [Nat.compare_eq_lt.mpr hlt, Ordering.lt_then]
  · rw [Nat.compare_eq_gt.mpr hgt, Ordering.gt_then]

theorem component_compare_of_type_ne {a b : Component} (h : a.type ≠ b.type) :
    Component.compare a b = Ord.compare a.type b.type := by
  rw [component_compare, then_of_ne h]

theorem component_compare_of_length_ne {a b : Component} (htype : a.type = b.type)
    (h : a.value.length ≠ b.value.length) :
    Component.compare a b = Ord.compare a.value.length b.value.length := by
  rw [component_compare, Nat.compare_eq_eq.mpr htype, Ordering.eq_then, then_of_ne h]

theorem compare_of_wire (ha : a.hasWire = true) (hb : b.hasWire = true) :
    a.compare b = some (Component.compare a.component b.component) := by
  rw [compare, ha, hb, Bool.and_self, if_pos rfl, memcmp_wire]

theorem toInt_type_ne_zero {a b : Component} (h : a.type ≠ b.type) :
    toInt ((a.type : ℤ) - b.type) ≠ 0 := by
  rw [Ne, toInt_eq_zero_iff]
  have := a.type_lt
  have := b.type_lt
  omega

section

variable (h : ¬ (a.hasWire = true ∧ b.hasWire = true))

include h

theorem compare_of_type_ne (htype : a.component.type ≠ b.component.type) :
    a.compare b = some (signOf (toInt ((a.component.type : ℤ) - b.component.type))) := by
  rw [compare, if_neg (by simpa using h)]
  exact if_pos (toInt_type_ne_zero htype)

theorem compare_of_size_ne (htype : a.component.type = b.component.type)
    (hsize : toInt ((a.component.value.length : ℤ) - b.component.value.length) ≠ 0) :
    a.compare b =
      some (signOf (toInt ((a.component.value.length : ℤ) - b.component.value.length))) := by
  have hzero : ¬ toInt ((a.component.type : ℤ) - b.component.type) ≠ 0 := by
    simp [htype, toInt]
  rw [compare, if_neg (by simpa using h)]
  exact (if_neg hzero).trans (if_pos hsize)

theorem compare_of_size_eq (htype : a.component.type = b.component.type)
    (hsize : toInt ((a.component.value.length : ℤ) - b.component.value.length) = 0) :
    a.compare b = if a.component.value = [] then some .eq
      else memcmp a.component.value b.component.value a.component.value.length := by
  have hzero : ¬ toInt ((a.component.type : ℤ) - b.component.type) ≠ 0 := by
    simp [htype, toInt]
  rw [compare, if_neg (by simpa using h)]
  exact (if_neg hzero).trans (if_neg (not_not.mpr hsize))

end

theorem compare_of_length_eq (htype : a.component.type = b.component.type)
    (hlen : a.component.value.length = b.component.value.length) :
    a.compare b = some (Component.compare a.component b.component) := by
  by_cases h : a.hasWire = true ∧ b.hasWire = true
  · exact compare_of_wire h.1 h.2
  rw [compare_of_size_eq h htype (by simp [hlen, toInt]), component_compare, htype, hlen,
    Nat.compare_eq_eq.mpr rfl, Nat.compare_eq_eq.mpr rfl, Ordering.eq_then, Ordering.eq_then]
  split
  next hnil =>
    rw [hnil, length_nil] at hlen
    rw [hnil, length_eq_zero_iff.mp hlen.symm]
    rfl
  next =>
    rw [memcmp, if_pos ⟨hlen.ge, le_rfl⟩, ← hlen, take_length, hlen, take_length]

theorem compare_self_component (h : a.component = b.component) : a.compare b = some .eq := by
  have hself : Component.compare b.component b.component = .eq := Std.ReflCmp.compare_self
  rw [compare_of_length_eq (by rw [h]) (by rw [h]), h, hself]

/-- One round of the loop in `Name::compare`, where `rest` is the result of the later rounds. -/
def compareThen (a b : HeldComponent) (rest : Option Ordering) : Option Ordering := do
  let comp ← a.compare b
  if comp ≠ .eq then pure comp else rest

theorem compareThen_of_ne {o : Ordering} (h : a.compare b = some o) (ho : o ≠ .eq)
    (rest : Option Ordering) : a.compareThen b rest = some o := by
  simp [compareThen, h, ho]

theorem compareThen_of_eq (h : a.compare b = some .eq) (rest : Option Ordering) :
    a.compareThen b rest = rest := by
  simp [compareThen, h]

theorem compareThen_of_none (h : a.compare b = none) (rest : Option Ordering) :
    a.compareThen b rest = none := by
  simp [compareThen, h]

theorem KeepsOrder.symm (h : a.KeepsOrder b) : b.KeepsOrder a := by
  rcases h with ⟨ha, hb⟩ | ⟨htype, hlen⟩
  · exact .inl ⟨hb, ha⟩
  · exact .inr ⟨htype.symm, fun heq => (hlen heq.symm).symm⟩

theorem KeepsOrder.compare_eq (h : a.KeepsOrder b) :
    a.compare b = some (Component.compare a.component b.component) := by
  by_cases hwire : a.hasWire = true ∧ b.hasWire = true
  · exact compare_of_wire hwire.1 hwire.2
  obtain ⟨htype, hlen⟩ := h.resolve_left hwire
  by_cases hne : a.component.type = b.component.type
  · have hsign := (signKept_iff.mp (hlen hne)).1
    by_cases hsize : toInt ((a.component.value.length : ℤ) - b.component.value.length) = 0
    · rw [hsize, eq_comm] at hsign
      exact compare_of_length_eq hne (Nat.compare_eq_eq.mp hsign)
    · have hlenne : a.component.value.length ≠ b.component.value.length := fun heq =>
        hsize (by simp [heq, toInt])
      rw [compare_of_size_ne hwire hne hsize, hsign, component_compare_of_length_ne hne hlenne]
  · rw [compare_of_type_ne hwire hne, (signKept_iff.mp htype).1, component_compare_of_type_ne hne]

theorem compare_eq_none (h : ¬ (a.hasWire = true ∧ b.hasWire = true))
    (htype : a.component.type = b.component.type)
    (hsize : toInt ((a.component.value.length : ℤ) - b.component.value.length) = 0)
    (hlt : b.component.value.length < a.component.value.length) : a.compare b = none := by
  have hne : a.component.value ≠ [] := by
    intro hnil
    simp [hnil] at hlt
  rw [compare_of_size_eq h htype hsize, if_neg hne, memcmp, if_neg (by omega)]

theorem compareThen_iff (hne : a.component ≠ b.component) (rest rest' : Option Ordering) :
    a.compareThen b rest = some (Component.compare a.component b.component) ∧
        b.compareThen a rest' = some (Component.compare b.component a.component) ↔
      a.KeepsOrder b := by
  have hcmp : ∀ {c d : Component}, c ≠ d → Component.compare c d ≠ .eq := fun hcd heq =>
    hcd (Std.LawfulEqCmp.eq_of_compare heq)
  constructor
  · rintro ⟨hab, hba⟩
    by_cases hwire : a.hasWire = true ∧ b.hasWire = true
    · exact .inl hwire
    have hwire' : ¬ (b.hasWire = true ∧ a.hasWire = true) := fun h => hwire h.symm
    refine .inr ?_
    by_cases htype : a.component.type = b.component.type
    · refine ⟨htype ▸ signKept_self _, fun _ => ?_⟩
      by_cases hlen : a.component.value.length = b.component.value.length
      · exact hlen ▸ signKept_self _
      by_cases hsize : toInt ((a.component.value.length : ℤ) - b.component.value.length) = 0
      · rcases Nat.lt_or_gt_of_ne hlen with hlt | hgt
        · rw [compareThen_of_none (compare_eq_none hwire' htype.symm
            (toInt_sub_eq_zero_comm.mp hsize) hlt)] at hba
          cases hba
        · rw [compareThen_of_none (compare_eq_none hwire htype hsize hgt)] at hab
          cases hab
      · have hsize' : toInt ((b.component.value.length : ℤ) - a.component.value.length) ≠ 0 :=
          fun h => hsize (toInt_sub_eq_zero_comm.mp h)
        rw [compareThen_of_ne (compare_of_size_ne hwire htype hsize)
          (mt signOf_eq_eq_iff.mp hsize), component_compare_of_length_ne htype hlen] at hab
        rw [compareThen_of_ne (compare_of_size_ne hwire' htype.symm hsize')
          (mt signOf_eq_eq_iff.mp hsize'),
          component_compare_of_length_ne htype.symm (Ne.symm hlen)] at hba
        exact signKept_iff.mpr ⟨some.inj hab, some.inj hba⟩
    · refine ⟨?_, fun h => absurd h htype⟩
      rw [compareThen_of_ne (compare_of_type_ne hwire htype)
        (mt signOf_eq_eq_iff.mp (toInt_type_ne_zero htype)),
        component_compare_of_type_ne htype] at hab
      rw [compareThen_of_ne (compare_of_type_ne hwire' (Ne.symm htype))
        (mt signOf_eq_eq_iff.mp (toInt_type_ne_zero (Ne.symm htype))),
        component_compare_of_type_ne (Ne.symm htype)] at hba
      exact signKept_iff.mpr ⟨some.inj hab, some.inj hba⟩
  · intro h
    exact ⟨compareThen_of_ne h.compare_eq (hcmp hne) rest,
      compareThen_of_ne h.symm.compare_eq (hcmp (Ne.symm hne)) rest'⟩

end HeldComponent

/-! ### Names -/

namespace HeldName

theorem compare_cons_cons (a b : HeldComponent) (X Z : HeldName) :
    compare (a :: X) (b :: Z) = a.compareThen b (compare X Z) := rfl

variable {X Z : HeldName}

theorem compare_of_nil (h : X = [] ∨ Z = []) :
    X.compare Z = some (signOf (toInt ((X.length : ℤ) - Z.length))) ∧
      Name.compare X.name Z.name = Ord.compare X.length Z.length := by
  cases X with
  | nil => cases Z <;> exact ⟨rfl, rfl⟩
  | cons a X =>
    cases Z with
    | nil => exact ⟨rfl, rfl⟩
    | cons b Z => simp at h

theorem orderedAs_of_nil (h : X = [] ∨ Z = []) : OrderedAs X Z ↔ SignKept X.length Z.length := by
  obtain ⟨hXZ, hcXZ⟩ := compare_of_nil h
  obtain ⟨hZX, hcZX⟩ := compare_of_nil h.symm
  rw [OrderedAs, hXZ, hcXZ, hZX, hcZX, signKept_iff, some.injEq, some.injEq]

theorem orderedAs_iff_keepsOrder (X Z : HeldName) : OrderedAs X Z ↔ KeepsOrder X Z := by
  induction X generalizing Z with
  | nil => cases Z <;> exact orderedAs_of_nil (.inl rfl)
  | cons a X ih =>
    cases Z with
    | nil => exact orderedAs_of_nil (.inr rfl)
    | cons b Z =>
      have hcanon : ∀ (a b : HeldComponent) (X Z : HeldName),
          Name.compare (name (a :: X)) (name (b :: Z)) =
            (Component.compare a.component b.component).then (Name.compare X.name Z.name) :=
        fun _ _ _ _ => List.compareLex_cons_cons
      rw [OrderedAs, compare_cons_cons, compare_cons_cons, hcanon, hcanon, KeepsOrder]
      split
      next heq =>
        have hself : Component.compare b.component b.component = .eq := Std.ReflCmp.compare_self
        rw [HeldComponent.compareThen_of_eq (HeldComponent.compare_self_component heq),
          HeldComponent.compareThen_of_eq (HeldComponent.compare_self_component heq.symm), heq,
          hself, Ordering.eq_then, Ordering.eq_then]
        exact ih Z
      next hne =>
        have hthen : ∀ {c d : Component} (o : Ordering), c ≠ d →
            (Component.compare c d).then o = Component.compare c d := fun {c d} o hcd => by
          cases hcmp : Component.compare c d with
          | lt | gt => rfl
          | eq => exact absurd (Std.LawfulEqCmp.eq_of_compare hcmp) hcd
        rw [hthen _ hne, hthen _ (Ne.symm hne)]
        exact HeldComponent.compareThen_iff hne _ _

theorem keepsOrder_of_accepted (hX : ∀ a ∈ X, a.component.Accepted)
    (hZ : ∀ b ∈ Z, b.component.Accepted) (hXlen : ∀ a ∈ X, a.component.value.length < 2 ^ 31)
    (hZlen : ∀ b ∈ Z, b.component.value.length < 2 ^ 31) (hXcount : X.length < 2 ^ 31)
    (hZcount : Z.length < 2 ^ 31) : KeepsOrder X Z := by
  have htype : ∀ c : Component, c.Accepted → c.type < 2 ^ 31 := fun c hc =>
    (accepted_iff.mp hc).1.trans_lt (by decide)
  induction X generalizing Z with
  | nil => cases Z <;> exact signKept_of_lt hXcount hZcount
  | cons a X ih =>
    cases Z with
    | nil => exact signKept_of_lt hXcount hZcount
    | cons b Z =>
      rw [forall_mem_cons] at hX hZ hXlen hZlen
      rw [length_cons] at hXcount hZcount
      rw [KeepsOrder]
      split
      · exact ih hX.2 hZ.2 hXlen.2 hZlen.2 (by omega) (by omega)
      · exact .inr ⟨signKept_of_lt (htype _ hX.1) (htype _ hZ.1),
          fun _ => signKept_of_lt hXlen.1 hZlen.1⟩

end HeldName

/-! ### Successors -/

namespace Component

variable {c c' d : Component} {value : Bytes} {rules : TypeRules}

theorem check_eq_ok_iff : rules.check value = .ok () ↔
    ∀ typeName uriPrefix, rules = .sha256 typeName uriPrefix → value.length = digestSize := by
  cases rules with
  | sha256 typeName uriPrefix =>
    unfold TypeRules.check
    split <;> simp_all
  | base | generic | decimal typeName uriPrefix => simp [TypeRules.check]

theorem type_of_sha256 {type : ℕ} {typeName uriPrefix : String}
    (h : typeRules type = .sha256 typeName uriPrefix) : type = 1 ∨ type = 2 := by
  unfold typeRules at h
  split at h <;> simp_all

theorem check_getMinValue (rules : TypeRules) : rules.check rules.getMinValue = .ok () := by
  rw [check_eq_ok_iff]
  rintro typeName uriPrefix rfl
  exact length_replicate

theorem exists_create {type : ℕ} (hpos : 0 < type) (hle : type ≤ Tlv.nameComponentMax)
    (hcheck : (typeRules type).check value = .ok ()) :
    ∃ c, create type value = .ok c :=
  ⟨⟨type, value, hpos, hle.trans_lt (by decide)⟩, create_eq_ok_iff.mpr ⟨rfl, rfl, hle, hcheck⟩⟩

theorem exists_getSuccessor (hc : c.Accepted) : ∃ c', c.getSuccessor = .ok c' := by
  obtain ⟨htype, hcheck⟩ := accepted_iff.mp hc
  unfold getSuccessor
  split
  next typeName uriPrefix _ hrules _ =>
    have hdigest := type_of_sha256 hrules
    refine exists_create (Nat.succ_pos _) ?_ (check_getMinValue _)
    rcases hdigest with h | h <;> rw [h] <;> decide
  next isOverflow next hnext hother =>
    refine exists_create c.type_pos htype (check_eq_ok_iff.mpr ?_)
    intro typeName uriPrefix hrules
    rcases getSuccessorImpl_cases c.value with ⟨n, hn, hl, -⟩ | ⟨n, hn, -⟩
    · obtain ⟨-, rfl⟩ : false = isOverflow ∧ n = next := by simpa [hn] using hnext
      rw [hl]
      exact check_eq_ok_iff.mp hcheck _ _ hrules
    · obtain ⟨rfl, rfl⟩ : true = isOverflow ∧ n = next := by simpa [hn] using hnext
      exact absurd rfl (hother _ _ hrules)

theorem not_below_getMinValue
    (hlen : ∀ typeName uriPrefix, rules = .sha256 typeName uriPrefix → value.length = digestSize) :
    ¬ (value.length < rules.getMinValue.length ∨ value.length = rules.getMinValue.length ∧
      toNat value < toNat rules.getMinValue) := by
  cases rules with
  | sha256 typeName uriPrefix =>
    have hzero : toNat (replicate digestSize 0) = 0 := by decide
    have hvalue := hlen typeName uriPrefix rfl
    simp only [TypeRules.getMinValue, length_replicate, hzero]
    omega
  | base | generic | decimal typeName uriPrefix => simp [TypeRules.getMinValue]

theorem eq_of_between_getSuccessor_of_accepted (h : c.getSuccessor = .ok c') (hc : c.Accepted)
    (hd : d.Accepted) (hcd : (compare c d).isLE) (hdc' : compare d c' = .lt) : d = c := by
  by_cases hrules : ∀ typeName uriPrefix, typeRules c.type ≠ .sha256 typeName uriPrefix
  · exact eq_of_between_getSuccessor h hrules hcd hdc'
  simp only [not_forall, not_not] at hrules
  obtain ⟨typeName, uriPrefix, hrules⟩ := hrules
  have hclen := check_eq_ok_iff.mp (accepted_iff.mp hc).2 _ _ hrules
  have hdlen : ∀ tn up, typeRules d.type = .sha256 tn up → d.value.length = digestSize := fun tn up =>
    check_eq_ok_iff.mp (accepted_iff.mp hd).2 tn up
  rcases Ordering.isLE_iff_eq_lt_or_eq_eq.mp hcd with hlt | heq
  swap
  · exact (Std.LawfulEqCmp.eq_of_compare heq).symm
  rw [compare_eq_lt_iff] at hlt hdc'
  have hbound := toNat_lt d.value
  rcases getSuccessor_cases h with hnext | ⟨hfull, ⟨hother, -⟩ | ⟨-, ht, hv⟩⟩
  · omega
  · exact absurd hrules (hother _ _)
  -- past the last digest: the successor is the least value of the next type
  by_cases htype : d.type = c.type
  · have hlen := hdlen typeName uriPrefix (htype ▸ hrules)
    rw [hlen] at hbound hlt
    rw [hclen] at hfull hlt
    omega
  · have hnextType : d.type = c.type + 1 := by omega
    rw [ht, hv, ← hnextType] at hdc'
    have hmin : d.value.length < (typeRules d.type).getMinValue.length ∨
        d.value.length = (typeRules d.type).getMinValue.length ∧
          toNat d.value < toNat (typeRules d.type).getMinValue := by
      omega
    exact absurd hmin (not_below_getMinValue hdlen)

end Component

theorem Name.between_getSuccessor_iff {X Z : Name} (hX : X ≠ []) (hXvalid : ∀ c ∈ X, c.Accepted)
    (hZvalid : ∀ c ∈ Z, c.Accepted) :
    ∃ next, X.getSuccessor = .ok next ∧
      ((Name.compare X Z).isLE ∧ Name.compare Z next = .lt ↔ X <+: Z) := by
  induction X using reverseRecOn with
  | nil => exact absurd rfl hX
  | append_singleton p c _ =>
    have hc : c.Accepted := hXvalid c (by simp)
    obtain ⟨c', hc'⟩ := exists_getSuccessor hc
    refine ⟨p ++ [c'], Name.getSuccessor_append_singleton_eq_ok_iff.mpr ⟨c', hc', rfl⟩, ?_⟩
    rw [Name.compare, LexOrder.compareLex_between_iff]
    constructor
    · rintro ⟨d, hd, hcd, hdc'⟩
      have hdvalid : d.Accepted := hZvalid d (hd.subset (by simp))
      rwa [eq_of_between_getSuccessor_of_accepted hc' hc hdvalid hcd hdc'] at hd
    · intro hpre
      exact ⟨c, hpre, by simp [Std.ReflCmp.compare_self], compare_getSuccessor hc'⟩

namespace HeldName

/-- The comparison of two names is that of the canonical order exactly when at the first difference
the conversions to `int` keep the signs. The canonical order is total, separates names, puts a
proper prefix first, and from a non-empty valid name to its successor there are exactly its
continuations. -/
theorem orderedAs_iff (X Z : HeldName) :
    (OrderedAs X Z ↔ KeepsOrder X Z) ∧
      Std.TransCmp Name.compare ∧ Std.LawfulEqCmp Name.compare ∧
      (X.name <+: Z.name → X.name ≠ Z.name → Name.compare X.name Z.name = .lt) ∧
      (X.name ≠ [] → (∀ c ∈ X.name, c.Accepted) → (∀ c ∈ Z.name, c.Accepted) →
        ∃ next, X.name.getSuccessor = .ok next ∧
          ((Name.compare X.name Z.name).isLE ∧ Name.compare Z.name next = .lt ↔
            X.name <+: Z.name) ∧
          ∀ next' : HeldName, next'.name = next → KeepsOrder X Z → KeepsOrder Z next' →
            (X.compare Z ≠ some .gt ∧ Z.compare next' = some .lt ↔ X.name <+: Z.name)) := by
  refine ⟨orderedAs_iff_keepsOrder X Z, inferInstance, inferInstance,
    LexOrder.compareLex_of_isPrefix_of_ne, fun hX hXvalid hZvalid => ?_⟩
  obtain ⟨next, hnext, hiff⟩ := Name.between_getSuccessor_iff hX hXvalid hZvalid
  refine ⟨next, hnext, hiff, ?_⟩
  rintro next' rfl hXZ hZnext
  rw [((orderedAs_iff_keepsOrder X Z).mpr hXZ).1, ((orderedAs_iff_keepsOrder Z next').mpr hZnext).1,
    ← hiff, some.injEq, Ne, some.injEq, Ordering.isLE_iff_ne_gt]

/-- A decoded component of type `0x80000008` and the empty generic component, which has no wire, are
each before the other. -/
theorem not_orderedAs_type :
    ∃ X Z : HeldName,
      X = [⟨⟨0x80000008, [], by decide, by decide⟩, true, by decide⟩] ∧
      Z = [⟨.generic [], false, by decide⟩] ∧
      X.compare Z = some .lt ∧ Z.compare X = some .lt ∧ ¬ OrderedAs X Z := by
  refine ⟨_, _, rfl, rfl, by decide, by decide, fun h => ?_⟩
  exact absurd h.1 (by decide)

end HeldName

end NdnFc
