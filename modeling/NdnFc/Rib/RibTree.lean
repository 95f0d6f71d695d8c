import NdnFc.Lib.Run
import NdnFc.Rib.Rib

/-!
# The tree of the RIB

The parent of an entry is the entry of the longest proper prefix of its name in the RIB, and the
children of an entry are those whose parent it is. An entry that is inserted takes over the children
of its parent that are below it, and an entry that is erased leaves its children to its parent.
-/

namespace NdnFc.Rib

open Option PrefixForest List

variable {rib : Rib} {n m : Name} {e : RibEntry} {old new : Option Name}

def Has (rib : Rib) (name : Name) : Prop :=
  (rib.find name).isSome

theorem name_of_find (h : rib.find n = some e) : e.name = n :=
  KeyedList.key_of_get? h

theorem has_of_find (h : rib.find n = some e) : rib.Has n := by
  rw [Has, h]
  rfl

theorem isParent_findParent (rib : Rib) (n : Name) :
    IsParent rib.Has n ((rib.findParent n).map RibEntry.name) := by
  have hloop : ∀ i ≤ n.length, IsParent (fun q => rib.Has q ∧ q.length < i) n
      ((rib.findShorter n i).map RibEntry.name) := by
    intro i hi
    induction i with
    | zero => exact fun q hq => absurd hq.2 (Nat.not_lt_zero _)
    | succ i ih =>
      have hlength : (n.take i).length = i := length_take_of_le (Nat.le_of_succ_le hi)
      rw [findShorter]
      cases hfind : rib.find (n.take i) with
      | some e =>
        rw [some_or, map_some, name_of_find hfind]
        refine ⟨⟨has_of_find hfind, by omega⟩, ⟨List.take_prefix i n, fun heq => ?_⟩, ?_⟩
        · rw [heq] at hlength
          omega
        · intro q hq hqn
          exact prefix_of_prefix_length_le hqn.1 (List.take_prefix i n) (by omega)
      | none =>
        rw [none_or]
        refine (ih (Nat.le_of_succ_le hi)).congr fun q hqn => and_congr_right fun hq => ?_
        refine ⟨fun hlt => lt_of_le_of_ne (by omega) fun heq => ?_, fun hlt => by omega⟩
        -- the prefix of this length is not in the RIB
        rw [prefix_iff_eq_take.mp hqn.1, heq, Has, hfind] at hq
        cases hq
  refine (hloop n.length le_rfl).congr fun q hqn => (and_iff_left ?_).symm
  exact lt_of_le_of_ne hqn.1.length_le fun heq => hqn.2 (hqn.1.eq_of_length heq)

/-! ### The longest prefix with a route -/

/-- The route at the longest prefix of the name that has one with the face and the origin. -/
def IsLongestMatch (rib : Rib) (name : Name) (route : Route) : Option Route → Prop
  | some found => ∃ p, p <+: name ∧ rib.findRoute p route = some found ∧
    ∀ q, q <+: name → (rib.findRoute q route).isSome → q <+: p
  | none => ∀ q, q <+: name → rib.findRoute q route = none

/-- `findLongestPrefix` looks at the name and at its nearest prefix in the RIB only. -/
theorem findLongestPrefix_iff (rib : Rib) (name : Name) (route : Route) :
    rib.IsLongestMatch name route (rib.findLongestPrefix name route) ↔
      (rib.findRoute name route).isSome ∨
        (∃ parent, rib.findParent name = some parent ∧
          (rib.findRoute parent.name route).isSome) ∨
        ∀ q, q <+: name → rib.findRoute q route = none := by
  have hhas : ∀ q, (rib.findRoute q route).isSome → rib.Has q := by
    intro q hq
    rw [findRoute] at hq
    rw [Has]
    exact isSome_of_isSome_bind hq
  rw [findLongestPrefix]
  cases hself : rib.findRoute name route with
  | some found =>
    rw [some_or]
    exact iff_of_true ⟨name, prefix_rfl, hself, fun q hq _ => hq⟩ (.inl rfl)
  | none =>
    have hparent := isParent_findParent rib name
    have hbelow : ∀ q, q <+: name → (rib.findRoute q route).isSome → IsBelow q name := by
      rintro q hq hsome
      refine ⟨hq, ?_⟩
      rintro rfl
      rw [hself] at hsome
      cases hsome
    rw [none_or]
    cases hfind : rib.findParent name with
    | none => simp [IsLongestMatch]
    | some parent =>
      rw [hfind] at hparent
      cases hroute : rib.findRoute parent.name route with
      | some found =>
        refine iff_of_true ?_ (.inr (.inl ⟨parent, rfl, by rw [hroute]; rfl⟩))
        rw [bind_some, hroute]
        exact ⟨parent.name, hparent.2.1.1, hroute, fun q hq hsome =>
          hparent.2.2 q (hhas q hsome) (hbelow q hq hsome)⟩
      | none => simp [IsLongestMatch, hroute]

/-- The root has the route, but an entry between it and the name has not. -/
theorem findLongestPrefix_between :
    let rib := (empty.insert [] ⟨1, 0, 0, 0⟩).insert [.generic [97]] ⟨2, 0, 0, 0⟩
    ¬ rib.IsLongestMatch [.generic [97], .generic [98]] ⟨1, 0, 0, 0⟩
      (rib.findLongestPrefix [.generic [97], .generic [98]] ⟨1, 0, 0, 0⟩) := by
  intro rib h
  have hnone : rib.findLongestPrefix [.generic [97], .generic [98]] ⟨1, 0, 0, 0⟩ = none := by
    decide
  rw [hnone] at h
  exact absurd (h [] nil_prefix) (by decide)

/-! ### Changes of links -/

theorem moveChild_eq (hne : old ≠ new) (links : Name → Link Component) (child : Name) :
    moveChild old new links child n = Link.move old new [child] n (links n) := by
  cases old with
  | none =>
    cases new with
    | none => exact absurd rfl hne
    | some q => rcases eq_or_ne n q with rfl | hq <;> simp_all [moveChild, addChild, Link.move, Ne.symm]
  | some p =>
    cases new with
    | none =>
      rcases eq_or_ne n p with rfl | hp <;> simp_all [moveChild, removeChild, Link.move, Ne.symm]
    | some q =>
      rcases eq_or_ne n p with rfl | hp <;> rcases eq_or_ne n q with rfl | hq <;>
        rcases eq_or_ne n child with rfl | hc <;>
          simp_all [moveChild, addChild, removeChild, Link.move, Ne.symm]

theorem foldl_moveChild (hne : old ≠ new) (links : Name → Link Component) (moved : List Name) :
    moved.foldl (moveChild old new) links n = Link.move old new moved n (links n) := by
  induction moved generalizing links with
  | nil => simp [Link.move]
  | cons c moved ih =>
    have hboth : ¬ (old = some n ∧ new = some n) := fun h => hne (h.1.trans h.2.symm)
    rw [foldl_cons, ih, moveChild_eq hne]
    by_cases hold : old = some n <;> by_cases hnew : new = some n <;> by_cases hc : n = c <;>
      by_cases hmoved : n ∈ moved <;>
        simp_all [Link.move, List.filter_filter, Bool.and_comm]

end NdnFc.Rib
