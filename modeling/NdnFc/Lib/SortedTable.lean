import Mathlib.Data.List.MinMax
import Mathlib.Data.List.TakeWhile
import Mathlib.Data.List.Pairwise

/-!
# Ordered sets as sorted lists

An ordered set is a list that increases strictly in a comparison. `SortedTable.emplace` adds an
element unless an equivalent one is present; `SortedTable.lowerBound` is the position of the first
element at or after a bound, and the elements between two bounds are found between their positions
(`SortedTable.mem_range_iff`).
-/

namespace SortedTable

open List

variable {α : Type*} (cmp : α → α → Ordering)

def Sorted (l : List α) : Prop :=
  l.Pairwise fun a b => cmp a b = .lt

/-- Add an element at its place, unless an equivalent one is present. -/
def emplace (x : α) : List α → List α
  | [] => [x]
  | y :: l =>
    match cmp x y with
    | .lt => x :: y :: l
    | .eq => y :: l
    | .gt => y :: emplace x l

/-- The position of the first element that is not below the bound. -/
def lowerBound (below : α → Bool) (l : List α) : ℕ :=
  l.findIdx fun a => !below a

/-- The elements from position `first` up to, but without, position `last`. -/
def range (first last : ℕ) (l : List α) : List α :=
  (l.take last).drop first

variable {cmp} {l : List α} {x a : α}

theorem mem_of_mem_emplace (h : a ∈ emplace cmp x l) : a = x ∨ a ∈ l := by
  induction l with
  | nil => simpa [emplace] using h
  | cons y l ih =>
    unfold emplace at h
    split at h
    · simpa using h
    · exact .inr h
    · rcases mem_cons.mp h with rfl | h
      · exact .inr mem_cons_self
      · exact (ih h).imp id (mem_cons_of_mem y)

theorem emplace_perm (h : ∀ y ∈ l, cmp x y ≠ .eq) : (emplace cmp x l).Perm (x :: l) := by
  induction l with
  | nil => exact .refl _
  | cons y l ih =>
    unfold emplace
    split
    · exact .refl _
    · rename_i heq
      exact absurd heq (h y mem_cons_self)
    · exact ((ih fun z hz => h z (mem_cons_of_mem y hz)).cons y).trans (.swap x y l)

theorem mem_emplace_of_mem (h : a ∈ l) : a ∈ emplace cmp x l := by
  induction l with
  | nil => cases h
  | cons y l ih =>
    unfold emplace
    split
    · exact mem_cons_of_mem x h
    · exact h
    · rcases mem_cons.mp h with rfl | h
      · exact mem_cons_self
      · exact mem_cons_of_mem y (ih h)

theorem Sorted.emplace [Std.TransCmp cmp] (h : Sorted cmp l) (x : α) :
    Sorted cmp (emplace cmp x l) := by
  induction l with
  | nil => exact pairwise_singleton _ _
  | cons y l ih =>
    obtain ⟨hy, hl⟩ := pairwise_cons.mp h
    unfold SortedTable.emplace
    split
    next hlt =>
      refine pairwise_cons.mpr ⟨fun a ha => ?_, h⟩
      rcases mem_cons.mp ha with rfl | ha
      · exact hlt
      · exact Std.TransCmp.lt_trans hlt (hy a ha)
    next => exact h
    next hgt =>
      refine pairwise_cons.mpr ⟨fun a ha => ?_, ih hl⟩
      rcases mem_of_mem_emplace ha with rfl | ha
      · exact Std.OrientedCmp.lt_of_gt hgt
      · exact hy a ha

theorem Sorted.filter (h : Sorted cmp l) (p : α → Bool) : Sorted cmp (l.filter p) :=
  List.Pairwise.filter p h

theorem Sorted.map (h : Sorted cmp l) {f : α → α} (hf : ∀ a b, cmp (f a) (f b) = cmp a b) :
    Sorted cmp (l.map f) :=
  pairwise_map.mpr (h.imp fun hab => (hf _ _).trans hab)

variable {below : α → Bool}

section

variable (h : l.Pairwise fun a b => below b → below a)

include h

theorem take_drop_lowerBound :
    l.take (lowerBound below l) = l.filter below ∧
      l.drop (lowerBound below l) = l.filter fun a => !below a := by
  induction l with
  | nil => simp
  | cons y l ih =>
    obtain ⟨hy, hl⟩ := pairwise_cons.mp h
    rw [lowerBound, findIdx_cons]
    by_cases hb : below y
    · simpa [hb, lowerBound] using ih hl
    · have hall : ∀ a ∈ l, below a = false := fun a ha =>
        Bool.eq_false_iff.mpr fun hab => hb (hy a ha hab)
      refine ⟨by simpa [hb] using hall, ?_⟩
      simpa [hb] using (filter_eq_self.mpr fun a ha => by simp [hall a ha]).symm

theorem mem_take_lowerBound_iff : a ∈ l.take (lowerBound below l) ↔ a ∈ l ∧ below a := by
  rw [(take_drop_lowerBound h).1, mem_filter]

theorem mem_drop_lowerBound_iff : a ∈ l.drop (lowerBound below l) ↔ a ∈ l ∧ ¬ below a := by
  rw [(take_drop_lowerBound h).2, mem_filter, Bool.not_eq_true, Bool.not_eq_true']

end

theorem mem_range_iff {below₁ below₂ : α → Bool} (h₁ : l.Pairwise fun a b => below₁ b → below₁ a)
    (h₂ : l.Pairwise fun a b => below₂ b → below₂ a) (hle : ∀ a ∈ l, below₁ a → below₂ a) :
    a ∈ range (lowerBound below₁ l) (lowerBound below₂ l) l ↔ a ∈ l ∧ ¬ below₁ a ∧ below₂ a := by
  have hpos : lowerBound below₁ l ≤ lowerBound below₂ l :=
    findIdx_le_findIdx fun a ha hnot => by
      cases hb : below₁ a with
      | false => rfl
      | true => simp [hle a ha hb] at hnot
  -- the lower bound of `below₁` is the same in the part of the list before that of `below₂`
  have htake : lowerBound below₁ l = lowerBound below₁ (l.take (lowerBound below₂ l)) := by
    conv_rhs => rw [lowerBound, findIdx_take]
    exact (Nat.min_eq_right hpos).symm
  rw [range, htake, mem_drop_lowerBound_iff (h₁.sublist (take_sublist _ _)),
    mem_take_lowerBound_iff h₂]
  tauto

/-! ### Taking elements off a range -/

variable {first last : ℕ}

theorem length_range (hlast : last ≤ l.length) : (range first last l).length = last - first := by
  rw [range, length_drop, length_take, Nat.min_eq_left hlast]

theorem range_append_drop (h : first ≤ last) (hlast : last ≤ l.length) :
    range first last l ++ l.drop last = l.drop first := by
  conv_rhs => rw [← take_append_drop last l]
  rw [range, drop_append_of_le_length]
  rw [length_take]
  omega

theorem perm_erase_range {k : ℕ} (hlast : last ≤ l.length) (hk : k ≤ last - first) :
    ((range first last l).take k ++ (l.take first ++ l.drop (first + k))).Perm l := by
  rcases Nat.lt_or_ge last first with hlt | hle
  · obtain rfl : k = 0 := by omega
    rw [take_zero, nil_append, Nat.add_zero, take_append_drop]
  · have hdrop : l.drop (first + k) = (range first last l).drop k ++ l.drop last := by
      rw [← drop_drop, ← range_append_drop hle hlast, drop_append_of_le_length]
      rw [length_range hlast]
      exact hk
    have hfront : (range first last l).take k ++ l.drop (first + k) = l.drop first := by
      rw [hdrop, ← append_assoc, take_append_drop, range_append_drop hle hlast]
    refine (perm_append_comm_assoc _ _ _).trans ?_
    rw [hfront, take_append_drop]

theorem countP_eq_of_mem_range_iff {p : α → Bool} (hnodup : l.Nodup) (hlast : last ≤ l.length)
    (h : ∀ a, a ∈ range first last l ↔ a ∈ l ∧ p a) :
    l.countP p = last - first := by
  rw [← length_range hlast, countP_eq_length_filter]
  refine ((perm_ext_iff_of_nodup (hnodup.filter p) ?_).mpr fun a => ?_).length_eq
  · exact hnodup.sublist ((drop_sublist _ _).trans (take_sublist _ _))
  · rw [mem_filter, h]

/-- The first element of a set is the first one with the least key that was added. -/
theorem head?_foldl_emplace {κ : Type*} [LinearOrder κ] (key : α → κ) (l : List α) :
    (l.foldl (fun set x => emplace (compareOn key) x set) []).head? = l.argmin key := by
  induction l using List.reverseRecOn with
  | nil => rfl
  | append_singleton l x ih =>
    rw [foldl_append, foldl_cons, foldl_nil, argmin_concat, ← ih]
    cases l.foldl (fun set x => emplace (compareOn key) x set) [] with
    | nil => rfl
    | cons y set =>
      rw [emplace, compareOn, head?_cons]
      cases h : compare (key x) (key y) with
      | lt => exact (if_pos (compare_lt_iff_lt.mp h)).symm
      | eq => exact (if_neg (compare_eq_iff_eq.mp h).not_lt).symm
      | gt => exact (if_neg (compare_gt_iff_gt.mp h).not_gt).symm

end SortedTable
