import Mathlib.Data.List.Infix

/-!
# Lexicographic comparison of lists and intervals of prefixes

`List.compareLex cmp` compares lists entry by entry and puts a proper prefix first. The lists
between `p ++ [c]` (included) and `p ++ [c']` (excluded) are those that continue `p` with an entry
`d`, `c ≤ d < c'` (`LexOrder.compareLex_between_iff`).
-/

namespace LexOrder

open Std List

variable {α : Type*} {cmp : α → α → Ordering}

theorem compareLex_append_append [ReflCmp cmp] (p a b : List α) :
    List.compareLex cmp (p ++ a) (p ++ b) = List.compareLex cmp a b := by
  induction p with
  | nil => rfl
  | cons x p ih =>
    rw [List.cons_append, List.cons_append, List.compareLex_cons_cons, (ReflCmp.compare_self : cmp x x = .eq), ih]
    rfl

theorem compareLex_append_of_length_eq {x y : List α} (h : x.length = y.length) (a b : List α) :
    List.compareLex cmp (x ++ a) (y ++ b) =
      (List.compareLex cmp x y).then (List.compareLex cmp a b) := by
  induction x generalizing y with
  | nil =>
    rw [length_eq_zero_iff.mp h.symm]
    rfl
  | cons c x ih =>
    cases y with
    | nil => cases h
    | cons d y =>
      simp only [List.cons_append, List.compareLex_cons_cons, ih (Nat.succ.inj h),
        Ordering.then_assoc]

theorem compareLex_eq_take_min (x y : List α) :
    List.compareLex cmp x y =
      (List.compareLex cmp (x.take (min x.length y.length))
        (y.take (min x.length y.length))).then (compare x.length y.length) := by
  induction x generalizing y with
  | nil => cases y <;> rfl
  | cons c x ih =>
    cases y with
    | nil => rfl
    | cons d y =>
      simp only [length_cons, Nat.succ_min_succ, take_succ_cons,
        List.compareLex_cons_cons, ih y, Ordering.then_assoc]
      congr 2
      simp [compare, compareOfLessAndEq]

theorem compareLex_of_isPrefix_of_ne [ReflCmp cmp] {p a : List α} (h : p <+: a) (hne : p ≠ a) :
    List.compareLex cmp p a = .lt := by
  obtain ⟨t, rfl⟩ := h
  have h : List.compareLex cmp (p ++ []) (p ++ t) = _ := compareLex_append_append p [] t
  rw [append_nil] at h
  rw [h]
  cases t with
  | nil => simp at hne
  | cons x t => rfl

theorem isPrefix_of_between [TransCmp cmp] [LawfulEqCmp cmp] {p a b : List α}
    (hpa : (List.compareLex cmp p a).isLE) (hab : (List.compareLex cmp a b).isLE) (hpb : p <+: b) :
    p <+: a := by
  induction p generalizing a b with
  | nil => exact nil_prefix
  | cons x p ih =>
    obtain ⟨t, rfl⟩ := hpb
    cases a with
    | nil => simp [List.compareLex_cons_nil] at hpa
    | cons y a =>
      rw [List.compareLex_cons_cons] at hpa
      rw [List.cons_append, List.compareLex_cons_cons] at hab
      have hxy := (Ordering.isLE_then_iff_and.mp hpa).1
      have hyx := (Ordering.isLE_then_iff_and.mp hab).1
      obtain rfl : x = y := LawfulEqCmp.eq_of_compare (OrientedCmp.isLE_antisymm hxy hyx)
      simp only [ReflCmp.compare_self, Ordering.eq_then] at hpa hab
      exact cons_prefix_cons.mpr ⟨rfl, ih hpa hab (prefix_append _ _)⟩

theorem compareLex_between_iff [TransCmp cmp] [LawfulEqCmp cmp] {p z : List α} {c c' : α} :
    (List.compareLex cmp (p ++ [c]) z).isLE ∧ List.compareLex cmp z (p ++ [c']) = .lt ↔
      ∃ d, p ++ [d] <+: z ∧ (cmp c d).isLE ∧ cmp d c' = .lt := by
  induction p generalizing z with
  | nil =>
    cases z with
    | nil => simp [List.compareLex_cons_nil]
    | cons d z =>
      simp only [List.nil_append, List.compareLex_cons_cons, List.cons_prefix_cons,
        nil_prefix, and_true, exists_eq_left]
      have hend : List.compareLex cmp z [] ≠ .lt := by
        cases z <;> simp [List.compareLex_cons_nil, List.compareLex_nil_nil]
      constructor
      · rintro ⟨hc, hd⟩
        refine ⟨(Ordering.isLE_then_iff_and.mp hc).1, ?_⟩
        cases h : cmp d c' <;> simp_all
      · rintro ⟨hc, hd⟩
        refine ⟨Ordering.isLE_then_iff_and.mpr ⟨hc, .inr (by cases z <;> rfl)⟩, ?_⟩
        simp [hd]
  | cons x p ih =>
    cases z with
    | nil => simp [List.compareLex_cons_nil]
    | cons y z =>
      simp only [List.cons_append, List.compareLex_cons_cons, List.cons_prefix_cons]
      constructor
      · rintro ⟨hc, hd⟩
        -- the first entries must agree: `x ≤ y` from the lower bound, `y ≤ x` from the upper
        have hxy := (Ordering.isLE_then_iff_and.mp hc).1
        have hyx : (cmp y x).isLE := by cases h : cmp y x <;> simp_all
        have heq : cmp x y = .eq := OrientedCmp.isLE_antisymm hxy hyx
        have hy : x = y := LawfulEqCmp.eq_of_compare heq
        subst hy
        simp only [ReflCmp.compare_self, Ordering.eq_then] at hc hd
        obtain ⟨d, hp, hd⟩ := ih.mp ⟨hc, hd⟩
        exact ⟨d, ⟨rfl, hp⟩, hd⟩
      · rintro ⟨d, ⟨rfl, hp⟩, hd⟩
        simp only [ReflCmp.compare_self, Ordering.eq_then]
        exact ih.mpr ⟨d, hp, hd⟩

theorem compareLex_under_iff [TransCmp cmp] [LawfulEqCmp cmp] {p z : List α} {c' : α} :
    List.compareLex cmp p z = .lt ∧ List.compareLex cmp z (p ++ [c']) = .lt ↔
      ∃ d, p ++ [d] <+: z ∧ cmp d c' = .lt := by
  have hcons : ∀ d t, List.compareLex cmp (p ++ d :: t) (p ++ [c']) = .lt ↔ cmp d c' = .lt := by
    intro d t
    rw [compareLex_append_append, List.compareLex_cons_cons]
    cases hd : cmp d c' with
    | lt => simp
    | eq => cases t <;> simp [List.compareLex_cons_nil, List.compareLex_nil_nil]
    | gt => simp
  constructor
  · rintro ⟨hlt, hbelow⟩
    obtain ⟨t, rfl⟩ : p <+: z := isPrefix_of_between (by rw [hlt]; rfl) (by rw [hbelow]; rfl)
      (prefix_append p [c'])
    cases t with
    | nil =>
      have hself : List.compareLex cmp p p = .eq := ReflCmp.compare_self
      rw [append_nil, hself] at hlt
      cases hlt
    | cons d t => exact ⟨d, ⟨t, by simp⟩, (hcons d t).mp hbelow⟩
  · rintro ⟨d, ⟨t, rfl⟩, hd⟩
    rw [append_assoc, singleton_append]
    exact ⟨compareLex_of_isPrefix_of_ne (prefix_append _ _) (by simp), (hcons d t).mpr hd⟩

end LexOrder
