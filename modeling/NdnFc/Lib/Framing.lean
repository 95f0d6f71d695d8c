import Mathlib.Data.List.Basic

/-!
# Splitting a stream into elements

A `Framing` describes self-delimiting elements and a reader that finds the element at the front of a
buffer. `F.Splits bytes elements rest` says that the bytes are whole elements and a rest that does
not start with one; there is one way to split a stream (`Framing.Splits.unique`). `FixedBuffer` is
an array of fixed length of which the first `size` cells are in use.
-/

/-- Elements of type `β` with their bytes, and a reader that cuts the first element off. -/
structure Framing (α β : Type*) where
  wire : β → List α
  read : List α → Option (β × List α)
  read_eq_some_iff : ∀ {bytes b rest}, read bytes = some (b, rest) ↔ bytes = wire b ++ rest
  wire_ne_nil : ∀ b, wire b ≠ []

namespace Framing

open List Option

variable {α β : Type*} (F : Framing α β) {bytes rest more rest' : List α} {bs bs' : List β}

@[simp] theorem read_wire_append (b : β) (rest : List α) :
    F.read (F.wire b ++ rest) = some (b, rest) :=
  F.read_eq_some_iff.mpr rfl

@[simp] theorem read_nil : F.read [] = none := by
  by_contra h
  obtain ⟨⟨b, rest⟩, hread⟩ := ne_none_iff_exists'.mp h
  have hnil := F.read_eq_some_iff.mp hread
  exact F.wire_ne_nil b (append_eq_nil_iff.mp hnil.symm).1

/-- The bytes are those of the elements followed by a rest that does not start with an element. -/
def Splits (bytes : List α) (bs : List β) (rest : List α) : Prop :=
  bytes = bs.flatMap F.wire ++ rest ∧ F.read rest = none

variable {F}

section

variable (h : F.Splits bytes bs rest)

include h

theorem Splits.cons {b : β} : F.Splits (F.wire b ++ bytes) (b :: bs) rest :=
  ⟨by rw [h.1, flatMap_cons, append_assoc], h.2⟩

omit h in
theorem splits_nil_iff : F.Splits bytes [] rest ↔ bytes = rest ∧ F.read bytes = none := by
  constructor
  all_goals
    rintro ⟨rfl, hread⟩
    exact ⟨rfl, hread⟩

omit h in
theorem Splits.read_eq {b : β} (h : F.Splits bytes (b :: bs) rest) :
    F.read bytes = some (b, bs.flatMap F.wire ++ rest) := by
  rw [h.1, flatMap_cons, append_assoc, read_wire_append]

theorem Splits.unique (h' : F.Splits bytes bs' rest') : bs = bs' ∧ rest = rest' := by
  induction bs generalizing bytes bs' with
  | nil =>
    obtain ⟨rfl, hread⟩ := splits_nil_iff.mp h
    cases bs' with
    | nil => exact ⟨rfl, h'.1⟩
    | cons b' bs' =>
      rw [h'.read_eq] at hread
      cases hread
  | cons b bs ih =>
    cases bs' with
    | nil =>
      have hread := (splits_nil_iff.mp h').2
      rw [h.read_eq] at hread
      cases hread
    | cons b' bs' =>
      obtain ⟨rfl, heq⟩ := Prod.mk.inj (some.inj (h.read_eq.symm.trans h'.read_eq))
      obtain ⟨rfl, rfl⟩ := ih ⟨rfl, h.2⟩ ⟨heq, h'.2⟩
      exact ⟨rfl, rfl⟩

omit h in
theorem splits_of_nil (h : F.Splits [] bs rest) : bs = [] ∧ rest = [] :=
  h.unique (splits_nil_iff.mpr ⟨rfl, F.read_nil⟩)

omit h in
variable (F) in
theorem exists_splits (bytes : List α) : ∃ bs rest, F.Splits bytes bs rest := by
  induction hn : bytes.length using Nat.strongRecOn generalizing bytes with
  | ind n ih =>
    cases hread : F.read bytes with
    | none => exact ⟨[], bytes, splits_nil_iff.mpr ⟨rfl, hread⟩⟩
    | some found =>
      obtain ⟨b, more⟩ := found
      obtain rfl := F.read_eq_some_iff.mp hread
      have hpos := length_pos_iff.mpr (F.wire_ne_nil b)
      rw [length_append] at hn
      obtain ⟨bs, rest, hsplits⟩ := ih more.length (by omega) more rfl
      exact ⟨b :: bs, rest, hsplits.cons⟩

theorem Splits.length_rest_le : rest.length ≤ bytes.length := by
  rw [h.1, length_append]
  omega

theorem Splits.drop_eq : bytes.drop (bytes.length - rest.length) = rest := by
  rw [h.1, length_append, Nat.add_sub_cancel, drop_left]

theorem Splits.append (h' : F.Splits (rest ++ more) bs' rest') :
    F.Splits (bytes ++ more) (bs ++ bs') rest' := by
  refine ⟨?_, h'.2⟩
  rw [h.1, append_assoc, h'.1, flatMap_append, append_assoc]

theorem Splits.of_append {bs₂ : List β} {rest₂ : List α} (h₂ : F.Splits (bytes ++ more) bs₂ rest₂) :
    ∃ bs', F.Splits (rest ++ more) bs' rest₂ ∧ bs₂ = bs ++ bs' := by
  obtain ⟨bs', rest', h'⟩ := F.exists_splits (rest ++ more)
  obtain ⟨rfl, rfl⟩ := h₂.unique (h.append h')
  exact ⟨bs', h', rfl⟩

end

variable (F) in
/-- The elements that end within the first `n` bytes of the stream. -/
def completed : List β → ℕ → List β
  | [], _ => []
  | b :: bs, n =>
    if (F.wire b).length ≤ n then b :: completed bs (n - (F.wire b).length) else []

theorem completed_zero : F.completed bs 0 = [] := by
  cases bs with
  | nil => rfl
  | cons b bs => exact if_neg (Nat.not_le.mpr (length_pos_iff.mpr (F.wire_ne_nil b)))

theorem completed_of_le {n : ℕ} (h : (bs.flatMap F.wire).length ≤ n) : F.completed bs n = bs := by
  induction bs generalizing n with
  | nil => rfl
  | cons b bs ih =>
    rw [flatMap_cons, length_append] at h
    rw [completed, if_pos (by omega), ih (by omega)]

theorem read_eq_none_of_lt {b : β} (hpre : bytes <+: F.wire b)
    (hlt : bytes.length < (F.wire b).length) : F.read bytes = none := by
  by_contra h
  obtain ⟨⟨b', rest⟩, hread⟩ := ne_none_iff_exists'.mp h
  obtain ⟨more, hmore⟩ := hpre
  have hbytes := F.read_eq_some_iff.mp hread
  have hwhole : F.read (F.wire b) = some (b', rest ++ more) := by
    rw [← hmore, hbytes, append_assoc, read_wire_append]
  have hself : F.read (F.wire b) = some (b, []) := by
    simpa using F.read_wire_append b []
  have heq := (Prod.mk.inj (some.inj (hwhole.symm.trans hself))).2
  rw [(append_eq_nil_iff.mp heq).2, append_nil] at hmore
  rw [hmore] at hlt
  exact Nat.lt_irrefl _ hlt

variable (F) in
theorem length_completed_le (bs : List β) (n : ℕ) :
    ((F.completed bs n).flatMap F.wire).length ≤ (bs.flatMap F.wire).length := by
  induction bs generalizing n with
  | nil => exact Nat.le_refl _
  | cons b bs ih =>
    rw [completed]
    split
    · simp only [flatMap_cons, length_append]
      exact Nat.add_le_add_left (ih _) _
    · exact Nat.zero_le _

theorem splits_completed {tail : List α} {max : ℕ}
    (htail : ∀ front, front <+: tail → front.length ≤ max → F.read front = none)
    (hpre : bytes <+: bs.flatMap F.wire ++ tail)
    (hlen : bytes.length ≤ (bs.flatMap F.wire).length + max) :
    ∃ rest, F.Splits bytes (F.completed bs bytes.length) rest ∧
      (F.completed bs bytes.length = bs ∨ ∃ b ∈ bs, rest.length < (F.wire b).length) := by
  induction bs generalizing bytes with
  | nil =>
    have hread := htail bytes (by simpa using hpre) (by simpa using hlen)
    exact ⟨bytes, splits_nil_iff.mpr ⟨rfl, hread⟩, .inl rfl⟩
  | cons b bs ih =>
    rw [flatMap_cons, append_assoc] at hpre
    rw [completed]
    split
    next hle =>
      obtain ⟨bytes, rfl⟩ := prefix_of_prefix_length_le (prefix_append _ _) hpre hle
      rw [prefix_append_right_inj] at hpre
      rw [flatMap_cons, length_append, length_append] at hlen
      obtain ⟨rest, hrest, hnext⟩ := ih hpre (by omega)
      rw [length_append, Nat.add_sub_cancel_left]
      refine ⟨rest, hrest.cons, ?_⟩
      rcases hnext with hall | ⟨b', hb', hlt⟩
      · exact .inl (by rw [hall])
      · exact .inr ⟨b', mem_cons_of_mem b hb', hlt⟩
    next hlt =>
      have hpart : bytes <+: F.wire b :=
        prefix_of_prefix_length_le hpre (prefix_append _ _) (by omega)
      refine ⟨bytes, splits_nil_iff.mpr ⟨rfl, read_eq_none_of_lt hpart (by omega)⟩, .inr ?_⟩
      exact ⟨b, mem_cons_self, by omega⟩

end Framing

/-- An array of fixed length of which the first `size` cells are in use. -/
structure FixedBuffer (α : Type*) where
  cells : List α
  size : ℕ

namespace FixedBuffer

variable {α : Type*} (b : FixedBuffer α)

/-- The contents of the cells in use. -/
def pending : List α :=
  b.cells.take b.size

/-- Write into the cells from a position on. Beyond the end this would lengthen the array. -/
def put (pos : ℕ) (l : List α) : FixedBuffer α :=
  { b with cells := b.cells.take pos ++ l ++ b.cells.drop (pos + l.length) }

/-- Write just after the cells in use, and take these cells into use. -/
def fill (l : List α) : FixedBuffer α :=
  { b.put b.size l with size := b.size + l.length }

/-- Take the first `offset` cells out of use: what follows them moves to the front. -/
def discard (offset : ℕ) : FixedBuffer α :=
  if 0 < offset then
    if offset ≠ b.size then
      { b.put 0 (b.pending.drop offset) with size := b.size - offset }
    else { b with size := 0 }
  else b

variable {b}

theorem length_put {pos : ℕ} {l : List α} (h : pos + l.length ≤ b.cells.length) :
    (b.put pos l).cells.length = b.cells.length := by
  simp only [put, List.length_append, List.length_take, List.length_drop]
  omega

theorem length_pending (h : b.size ≤ b.cells.length) : b.pending.length = b.size := by
  rw [pending, List.length_take, Nat.min_eq_left h]

theorem length_fill {l : List α} (h : b.size + l.length ≤ b.cells.length) :
    (b.fill l).cells.length = b.cells.length :=
  length_put h

theorem pending_fill (l : List α) (h : b.size ≤ b.cells.length) :
    (b.fill l).pending = b.pending ++ l := by
  have hlen : (b.cells.take b.size ++ l).length = b.size + l.length := by
    rw [List.length_append, List.length_take, Nat.min_eq_left h]
  exact List.take_left' hlen

variable {offset : ℕ}

theorem size_discard : (b.discard offset).size = b.size - offset := by
  unfold discard
  split_ifs with hpos hne
  · rfl
  · rw [not_not.mp hne, Nat.sub_self]
  · rw [Nat.eq_zero_of_not_pos hpos, Nat.sub_zero]

theorem pending_discard (h : b.size ≤ b.cells.length) :
    (b.discard offset).pending = b.pending.drop offset := by
  have hlen : (b.pending.drop offset).length = b.size - offset := by
    rw [List.length_drop, length_pending h]
  unfold discard
  split_ifs with hpos hne
  · exact List.take_left' hlen
  · rw [not_not.mp hne, pending, List.take_zero, List.drop_eq_nil_of_le (Nat.le_of_eq (length_pending h))]
  · rw [Nat.eq_zero_of_not_pos hpos, List.drop_zero]

theorem length_discard (h : b.size ≤ b.cells.length) :
    (b.discard offset).cells.length = b.cells.length := by
  unfold discard
  split_ifs
  · refine length_put ?_
    rw [List.length_drop, length_pending h]
    omega
  · rfl
  · rfl

end FixedBuffer
