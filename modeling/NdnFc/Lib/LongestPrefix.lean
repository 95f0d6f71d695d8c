import Mathlib.Data.List.Infix

/-!
# Longest prefix match

Values are attached to some lists, and a list is governed by the value at its longest prefix that
has one. `Covers f p l` says that `p` is a prefix of `l` and nothing is attached to a longer prefix.
-/

namespace LongestPrefix

open Option List

variable {α β : Type*} {f g : List α → Option β} {l p q : List α} {b : β}

/-- The value at the longest prefix of length at most `i` that has one. -/
def findUpTo (f : List α → Option β) (l : List α) : ℕ → Option β
  | 0 => f []
  | i + 1 => (f (l.take (i + 1))).or (findUpTo f l i)

/-- The value at the longest prefix that has one. -/
def find (f : List α → Option β) (l : List α) : Option β :=
  findUpTo f l l.length

/-- `p` is a prefix of `l`, and no longer prefix of `l` has a value. -/
def Covers (f : List α → Option β) (p l : List α) : Prop :=
  p <+: l ∧ ∀ q, p <+: q → q <+: l → q ≠ p → f q = none

theorem findUpTo_congr {l' : List α} {i : ℕ} (h : ∀ j ≤ i, f (l.take j) = g (l'.take j)) :
    findUpTo f l i = findUpTo g l' i := by
  induction i with
  | zero => exact h 0 le_rfl
  | succ i ih => rw [findUpTo, findUpTo, h (i + 1) le_rfl, ih fun j hj => h j (by omega)]

theorem findUpTo_take {i : ℕ} (hi : i ≤ l.length) : find f (l.take i) = findUpTo f l i := by
  rw [find, length_take, Nat.min_eq_left hi]
  exact findUpTo_congr fun j hj => by rw [take_take, Nat.min_eq_left hj]

theorem find_congr (h : ∀ p, p <+: l → f p = g p) : find f l = find g l :=
  findUpTo_congr fun _ _ => h _ (List.take_prefix _ _)

theorem find_concat (l : List α) (a : α) : find f (l ++ [a]) = (f (l ++ [a])).or (find f l) := by
  have hrest : findUpTo f (l ++ [a]) l.length = find f l :=
    findUpTo_congr fun j hj => by rw [take_append_of_le_length hj]
  rw [find, length_append, length_singleton, findUpTo, hrest, take_of_length_le (by simp)]

theorem find_of_eq_some (h : f l = some b) : find f l = some b := by
  induction l using reverseRecOn with
  | nil => exact h
  | append_singleton l a => rw [find_concat, h, some_or]

theorem covers_iff : Covers f p l ↔ p <+: l ∧ ∀ q, q <+: l → p.length < q.length → f q = none := by
  refine and_congr_right fun hp => ⟨fun h q hq hlt => ?_, fun h q hpq hq hne => h q hq ?_⟩
  · refine h q (prefix_of_prefix_length_le hp hq hlt.le) hq ?_
    rintro rfl
    exact lt_irrefl _ hlt
  · exact lt_of_le_of_ne hpq.length_le fun heq => hne (hpq.eq_of_length heq).symm

theorem covers_self : Covers f l l :=
  covers_iff.mpr ⟨prefix_rfl, fun _ hq hlt => absurd hq.length_le hlt.not_ge⟩

theorem Covers.of_isPrefix {m : List α} (h : Covers f p l) (hm : m <+: l)
    (hp : p.length ≤ m.length) : Covers f p m :=
  ⟨prefix_of_prefix_length_le h.1 hm hp, fun q hpq hq => h.2 q hpq (hq.trans hm)⟩

theorem Covers.extend {m : List α} (h : Covers f p m) (hm : m <+: l)
    (hnone : ∀ q, q <+: l → m.length < q.length → f q = none) : Covers f p l := by
  refine ⟨h.1.trans hm, fun q hpq hq hne => ?_⟩
  rcases Nat.lt_or_ge m.length q.length with hlt | hge
  · exact hnone q hq hlt
  · exact h.2 q hpq (prefix_of_prefix_length_le hq hm hge) hne

theorem Covers.concat {a : α} (h : Covers f p l) (hlast : f (l ++ [a]) = none) :
    Covers f p (l ++ [a]) := by
  refine h.extend (prefix_append l [a]) fun q hq hlt => ?_
  rcases prefix_concat_iff.mp hq with rfl | hq
  · exact hlast
  · exact absurd hq.length_le hlt.not_ge

theorem find_eq_of_covers (h : Covers f p l) : find f l = find f p := by
  induction l using reverseRecOn with
  | nil => rw [prefix_nil.mp h.1]
  | append_singleton l a ih =>
    rcases prefix_concat_iff.mp h.1 with rfl | hp
    · rfl
    · have hlast : f (l ++ [a]) = none := by
        refine (covers_iff.mp h).2 _ prefix_rfl ?_
        rw [length_append]
        exact Nat.lt_succ_of_le hp.length_le
      rw [find_concat, hlast, none_or]
      exact ih (h.of_isPrefix (prefix_append l [a]) hp.length_le)

theorem find_dropLast (h : f l = none) : find f l.dropLast = find f l := by
  refine (find_eq_of_covers (covers_iff.mpr ⟨List.dropLast_prefix l, fun q hq hlt => ?_⟩)).symm
  have hle := hq.length_le
  rw [length_dropLast] at hlt
  rw [hq.eq_of_length (by omega), h]

theorem find_eq_some_iff : find f l = some b ↔ ∃ p, Covers f p l ∧ f p = some b := by
  constructor
  · intro h
    induction l using reverseRecOn with
    | nil => exact ⟨[], covers_self, h⟩
    | append_singleton l a ih =>
      rw [find_concat] at h
      cases hlast : f (l ++ [a]) with
      | some b' =>
        rw [hlast, some_or] at h
        exact ⟨l ++ [a], covers_self, hlast.trans h⟩
      | none =>
        rw [hlast, none_or] at h
        obtain ⟨p, hcovers, hp⟩ := ih h
        exact ⟨p, hcovers.concat hlast, hp⟩
  · rintro ⟨p, hcovers, hb⟩
    rw [find_eq_of_covers hcovers, find_of_eq_some hb]

theorem find_eq_none_iff : find f l = none ↔ ∀ p, p <+: l → f p = none := by
  induction l using reverseRecOn with
  | nil => simp [find, findUpTo]
  | append_singleton l a ih =>
    rw [find_concat, or_eq_none_iff, ih]
    simp [prefix_concat_iff, or_imp, forall_and]

theorem find_take_eq {i : ℕ} (h : ∀ q, i < q.length → f q = none) :
    find f (l.take i) = find f l := by
  refine (find_eq_of_covers (covers_iff.mpr ⟨List.take_prefix _ _, fun q hq hlt => h q ?_⟩)).symm
  have hle := hq.length_le
  rw [length_take] at hlt
  omega

theorem covers_congr (hfg : ∀ q, q ≠ p → f q = g q) : Covers f p l ↔ Covers g p l :=
  and_congr_right fun _ => forall_congr' fun q => forall_congr' fun _ => forall_congr' fun _ =>
    forall_congr' fun hq => by rw [hfg q hq]

theorem Covers.unique {q : List α} (hp : Covers f p l) (hq : Covers f q l) (hfp : f p ≠ none)
    (hfq : f q ≠ none) : p = q := by
  by_contra hne
  rcases prefix_or_prefix_of_prefix hp.1 hq.1 with hpq | hqp
  · exact hfq (hp.2 q hpq hq.1 (Ne.symm hne))
  · exact hfp (hq.2 p hqp hp.1 hne)

theorem find_congr_of_not_covers (hfg : ∀ q, q ≠ p → f q = g q) (h : ¬ Covers f p l) :
    find f l = find g l := by
  have hne : l ≠ p := by
    rintro rfl
    exact h covers_self
  induction l using reverseRecOn with
  | nil => exact hfg [] hne
  | append_singleton l a ih =>
    rw [find_concat, find_concat, ← hfg _ hne]
    cases hlast : f (l ++ [a]) with
    | some b => rfl
    | none =>
      have hl : ¬ Covers f p l := fun hcovers => h (hcovers.concat hlast)
      rw [ih hl fun heq => hl (heq ▸ covers_self)]

end LongestPrefix
