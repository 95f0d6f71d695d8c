import Mathlib.Data.List.Pairwise
import Mathlib.Data.List.Perm.Basic

/-!
# Ordered lists with repetitions

A list that does not decrease in a comparison. `OrderedList.insert` puts an element after those
that are not above it, which is where an upper-bound search finds its place; elements that compare
equal stay in the order of their insertion.
-/

namespace OrderedList

open List

variable {α : Type*} (cmp : α → α → Ordering)

/-- The list does not decrease. -/
def Ordered (l : List α) : Prop :=
  l.Pairwise fun a b => cmp b a ≠ .lt

/-- Insert an element before the first one that it is below of. -/
def insert (x : α) : List α → List α
  | [] => [x]
  | y :: l => if cmp x y = .lt then x :: y :: l else y :: insert x l

/-- The elements of a list inserted one after the other. -/
def ofList (l : List α) : List α :=
  l.foldl (fun acc x => insert cmp x acc) []

variable {cmp} {l : List α} {x : α}

theorem perm_insert (x : α) (l : List α) : (insert cmp x l).Perm (x :: l) := by
  induction l with
  | nil => exact .refl _
  | cons y l ih =>
    rw [insert]
    split
    · exact .refl _
    · exact (ih.cons y).trans (.swap x y l)

@[simp] theorem mem_insert {a : α} : a ∈ insert cmp x l ↔ a = x ∨ a ∈ l := by
  rw [(perm_insert x l).mem_iff, mem_cons]

theorem Ordered.insert [Std.TransCmp cmp] (h : Ordered cmp l) (x : α) :
    Ordered cmp (insert cmp x l) := by
  induction l with
  | nil => exact pairwise_singleton _ _
  | cons y l ih =>
    obtain ⟨hy, hl⟩ := pairwise_cons.mp h
    rw [OrderedList.insert]
    split
    next hlt =>
      refine pairwise_cons.mpr ⟨fun a ha => ?_, h⟩
      -- what is not below `y` is not below `x` either
      rcases mem_cons.mp ha with rfl | ha
      · rw [Std.OrientedCmp.gt_of_lt hlt]
        decide
      · intro hax
        exact hy a ha (Std.TransCmp.lt_trans hax hlt)
    next hnlt =>
      refine pairwise_cons.mpr ⟨fun a ha => ?_, ih hl⟩
      rcases mem_insert.mp ha with rfl | ha
      · exact hnlt
      · exact hy a ha

theorem insert_eq_append (h : ∀ y ∈ l, cmp x y ≠ .lt) : insert cmp x l = l ++ [x] := by
  induction l with
  | nil => rfl
  | cons y l ih =>
    rw [insert, if_neg (h y mem_cons_self), ih fun z hz => h z (mem_cons_of_mem y hz)]
    rfl

variable {q : α → Bool}

theorem filter_insert_of_neg (h : q x = false) : (insert cmp x l).filter q = l.filter q := by
  induction l with
  | nil => simp [insert, h]
  | cons y l ih =>
    rw [insert]
    split
    · rw [filter_cons_of_neg (by simp [h])]
    · rw [filter_cons, filter_cons, ih]

theorem filter_insert_of_pos (hx : q x = true) (hl : l.filter q = []) :
    (insert cmp x l).filter q = [x] := by
  have hperm : ((insert cmp x l).filter q).Perm ((x :: l).filter q) := (perm_insert x l).filter q
  rw [filter_cons_of_pos hx, hl] at hperm
  exact perm_singleton.mp hperm

theorem filter_insert_of_not_lt [Std.TransCmp cmp] (h : Ordered cmp l) (hx : q x = true)
    (hq : ∀ y ∈ l, q y = true → cmp x y ≠ .lt) :
    (insert cmp x l).filter q = l.filter q ++ [x] := by
  induction l with
  | nil => simp [insert, hx]
  | cons y l ih =>
    obtain ⟨hy, hl⟩ := pairwise_cons.mp h
    rw [insert]
    split
    next hlt =>
      -- everything from `y` on is above `x`
      have hnone : (y :: l).filter q = [] := by
        refine filter_eq_nil_iff.mpr fun z hz hqz => hq z hz hqz ?_
        rcases mem_cons.mp hz with rfl | hz
        · exact hlt
        · refine Std.TransCmp.lt_of_lt_of_isLE hlt ?_
          exact Ordering.ne_gt_iff_isLE.mp (mt Std.OrientedCmp.lt_of_gt (hy z hz))
      rw [filter_cons_of_pos hx, hnone]
      rfl
    next =>
      have hrest := ih hl fun z hz => hq z (mem_cons_of_mem y hz)
      rw [filter_cons, filter_cons, hrest]
      split <;> rfl

theorem foldl_insert_eq_append {front : List α} (h : Ordered cmp (front ++ l)) :
    l.foldl (fun acc x => insert cmp x acc) front = front ++ l := by
  induction l generalizing front with
  | nil => simp
  | cons x l ih =>
    have hx : ∀ y ∈ front, cmp x y ≠ .lt := fun y hy =>
      (pairwise_append.mp h).2.2 y hy x mem_cons_self
    rw [foldl_cons, insert_eq_append hx, ih (by simpa using h), append_assoc]
    rfl

theorem ofList_of_ordered (h : Ordered cmp l) : ofList cmp l = l :=
  foldl_insert_eq_append h

theorem perm_ofList (l : List α) : (ofList cmp l).Perm l := by
  have hfold : ∀ (l acc : List α),
      (l.foldl (fun acc x => insert cmp x acc) acc).Perm (l ++ acc) := by
    intro l
    induction l with
    | nil => exact fun _ => .refl _
    | cons x l ih =>
      intro acc
      refine (ih _).trans (((perm_insert x acc).append_left l).trans ?_)
      exact perm_middle
  simpa [ofList] using hfold l []

theorem ordered_ofList [Std.TransCmp cmp] (l : List α) : Ordered cmp (ofList cmp l) := by
  have hfold : ∀ (l acc : List α), Ordered cmp acc →
      Ordered cmp (l.foldl (fun acc x => insert cmp x acc) acc) := by
    intro l
    induction l with
    | nil => exact fun _ hacc => hacc
    | cons x l ih => exact fun acc hacc => ih _ (hacc.insert x)
  exact hfold l [] .nil

end OrderedList
