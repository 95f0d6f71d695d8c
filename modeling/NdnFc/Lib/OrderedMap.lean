import Mathlib.Data.List.Sort

/-!
# Maps as lists in the order of their keys

A map is kept as the list of its entries in increasing order of their keys, so that running through
the map is running through the list. Two such lists with the same entries are equal.
-/

namespace NdnFc.OrderedMap

open List

variable {K V : Type} [LinearOrder K]

def Sorted (l : List (K × V)) : Prop :=
  l.Pairwise fun a b => a.1 < b.1

/-- The entry of the key is overwritten, or added at its place. -/
def assign (k : K) (v : V) : List (K × V) → List (K × V)
  | [] => [(k, v)]
  | e :: l =>
    if k < e.1 then (k, v) :: e :: l
    else if k = e.1 then (k, v) :: l
    else e :: assign k v l

variable {k : K} {v : V} {l l' : List (K × V)} {e : K × V}

theorem sorted_nil : Sorted ([] : List (K × V)) :=
  List.Pairwise.nil

theorem mem_assign_iff (h : Sorted l) : e ∈ assign k v l ↔ e = (k, v) ∨ e ∈ l ∧ e.1 ≠ k := by
  induction l with
  | nil => simp [assign]
  | cons d l ih =>
    obtain ⟨hd, hl⟩ := pairwise_cons.mp h
    -- the keys after `d` are larger than that of `d`
    have hafter : ∀ e ∈ l, d.1 < e.1 := hd
    rw [assign]
    split_ifs with hlt heq
    · grind
    · grind
    · rw [mem_cons, ih hl, mem_cons]
      grind

theorem Sorted.assign (h : Sorted l) (k : K) (v : V) : Sorted (assign k v l) := by
  induction l with
  | nil => exact pairwise_singleton _ _
  | cons d l ih =>
    obtain ⟨hd, hl⟩ := pairwise_cons.mp h
    rw [OrderedMap.assign]
    split_ifs with hlt heq
    · refine pairwise_cons.mpr ⟨fun e he => ?_, h⟩
      rcases mem_cons.mp he with rfl | he
      · exact hlt
      · exact hlt.trans (hd e he)
    · subst heq
      exact pairwise_cons.mpr ⟨hd, hl⟩
    · refine pairwise_cons.mpr ⟨fun e he => ?_, ih hl⟩
      rcases (mem_assign_iff hl).mp he with rfl | ⟨he, -⟩
      · exact lt_of_le_of_ne (not_lt.mp hlt) (Ne.symm heq)
      · exact hd e he

theorem Sorted.eq_of_mem_iff (h : Sorted l) (h' : Sorted l') (hmem : ∀ e, e ∈ l ↔ e ∈ l') :
    l = l' := by
  have : Std.Irrefl fun a b : K × V => a.1 < b.1 := ⟨fun a => lt_irrefl a.1⟩
  have : Std.Antisymm fun a b : K × V => a.1 < b.1 := ⟨fun a b hab hba => (lt_asymm hab hba).elim⟩
  exact List.Pairwise.eq_of_mem_iff h h' hmem

end NdnFc.OrderedMap
