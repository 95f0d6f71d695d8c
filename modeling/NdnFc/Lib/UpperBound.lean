import NdnFc.Lib.OrderedList

/-!
# Upper-bound search

A binary search for the first position whose entry is above an element. When the entries above it
follow the others, the search finds where they begin, and inserting there is `OrderedList.insert`.
-/

namespace UpperBound

open List

/-- The loop of the search over `len` positions from `first` on; `above i` says that the entry at `i`
is above the element. -/
def loop (above : ℕ → Bool) : ℕ → ℕ → ℕ → ℕ
  | 0, first, _ => first
  | fuel + 1, first, len =>
    if len = 0 then first
    else if above (first + len / 2) then loop above fuel first (len / 2)
    else loop above fuel (first + len / 2 + 1) (len - len / 2 - 1)

/-- The first of `count` positions whose entry is above the element. -/
def search (above : ℕ → Bool) (count : ℕ) : ℕ :=
  loop above count 0 count

variable {above : ℕ → Bool}

theorem loop_eq {border fuel first len : ℕ} (hbelow : ∀ i < border, above i = false)
    (habove : ∀ i, border ≤ i → i < first + len → above i = true) (hfirst : first ≤ border)
    (hborder : border ≤ first + len) (hfuel : len ≤ fuel) : loop above fuel first len = border := by
  induction fuel generalizing first len with
  | zero =>
    rw [loop]
    omega
  | succ fuel ih =>
    rw [loop]
    split
    next => omega
    next hlen =>
      split
      next hmiddle =>
        -- the border is not behind an entry that is above
        have hle : border ≤ first + len / 2 := by
          by_contra hlt
          rw [hbelow _ (by omega)] at hmiddle
          cases hmiddle
        exact ih (fun i hi hlt => habove i hi (by omega)) hfirst hle (by omega)
      next hmiddle =>
        have hlt : first + len / 2 < border := by
          by_contra hle
          exact hmiddle (habove _ (by omega) (by omega))
        exact ih (fun i hi hlt => habove i hi (by omega)) hlt (by omega) (by omega)

theorem search_eq {border count : ℕ} (hbelow : ∀ i < border, above i = false)
    (habove : ∀ i, border ≤ i → i < count → above i = true) (hborder : border ≤ count) :
    search above count = border :=
  loop_eq hbelow (fun i hi hlt => habove i hi (by omega)) (Nat.zero_le _) (by omega) (Nat.le_refl _)

theorem loop_le {fuel first len : ℕ} : loop above fuel first len ≤ first + len := by
  induction fuel generalizing first len with
  | zero =>
    rw [loop]
    omega
  | succ fuel ih =>
    rw [loop]
    split
    · omega
    · split
      all_goals exact Nat.le_trans ih (by omega)

theorem search_le (count : ℕ) : search above count ≤ count :=
  Nat.le_trans loop_le (by omega)

section Insert

variable {α : Type*} {cmp : α → α → Ordering} {l : List α} {x : α}

theorem exists_split [Std.TransCmp cmp] (hl : OrderedList.Ordered cmp l) (x : α) :
    ∃ front back, l = front ++ back ∧ (∀ y ∈ front, cmp x y ≠ .lt) ∧ (∀ y ∈ back, cmp x y = .lt) ∧
      OrderedList.insert cmp x l = front ++ x :: back := by
  induction l with
  | nil => exact ⟨[], [], rfl, by simp, by simp, rfl⟩
  | cons y l ih =>
    obtain ⟨hy, hl⟩ := pairwise_cons.mp hl
    rw [OrderedList.insert]
    split
    next hlt =>
      refine ⟨[], y :: l, rfl, by simp, fun z hz => ?_, rfl⟩
      rcases mem_cons.mp hz with rfl | hz
      · exact hlt
      · have hswap : cmp y z = (cmp z y).swap := Std.OrientedCmp.eq_swap
        have hle : (cmp y z).isLE := by
          rw [hswap]
          cases h : cmp z y with
          | lt => exact absurd h (hy z hz)
          | eq | gt => rfl
        exact Std.TransCmp.lt_of_lt_of_isLE hlt hle
    next hnlt =>
      obtain ⟨front, back, rfl, hfront, hback, hinsert⟩ := ih hl
      refine ⟨y :: front, back, rfl, forall_mem_cons.mpr ⟨hnlt, hfront⟩, hback, ?_⟩
      rw [hinsert]
      rfl

theorem insertIdx_length_append (front back : List α) (x : α) :
    (front ++ back).insertIdx front.length x = front ++ x :: back := by
  induction front with
  | nil => rfl
  | cons y front ih => rw [cons_append, length_cons, insertIdx_succ_cons, ih]; rfl

theorem insertIdx_search [Std.TransCmp cmp] (hl : OrderedList.Ordered cmp l)
    (habove : ∀ i y, l[i]? = some y → (above i = true ↔ cmp x y = .lt)) :
    l.insertIdx (search above l.length) x = OrderedList.insert cmp x l := by
  obtain ⟨front, back, rfl, hfront, hback, hinsert⟩ := exists_split hl x
  have hborder : search above (front ++ back).length = front.length := by
    refine search_eq (fun i hi => ?_) (fun i hi hlt => ?_) (by simp)
    · have hget : (front ++ back)[i]? = some front[i] := by
        rw [getElem?_append_left hi, getElem?_eq_getElem hi]
      rw [Bool.eq_false_iff, Ne, habove i _ hget]
      exact hfront _ (getElem_mem hi)
    · have hlt' : i - front.length < back.length := by simp at hlt; omega
      have hget : (front ++ back)[i]? = some back[i - front.length] := by
        rw [getElem?_append_right hi, getElem?_eq_getElem hlt']
      rw [habove i _ hget]
      exact hback _ (getElem_mem hlt')
  rw [hborder, insertIdx_length_append, hinsert]

end Insert

end UpperBound
