import Mathlib.Data.List.Infix

/-!
# The forest of a set of lists

The parent of a list is its longest proper prefix in a set of lists. A list that is added takes over
the lists below it that had its own parent, and a list that is removed leaves them to its parent. A
structure with links to parents and children is a forest if the links say this.
-/

namespace PrefixForest

variable {α : Type*} {mem mem' : List α → Prop} {l p q x : List α} {o o' : Option (List α)}

/-- A proper prefix. -/
def IsBelow (p l : List α) : Prop :=
  p <+: l ∧ p ≠ l

theorem IsBelow.trans (h : IsBelow p q) (h' : IsBelow q l) : IsBelow p l :=
  ⟨h.1.trans h'.1, fun heq => h'.2 (h'.1.eq_of_length_le (heq ▸ h.1.length_le))⟩

/-- The parent of a list, which is none if no proper prefix is in the set. -/
def IsParent (mem : List α → Prop) (l : List α) : Option (List α) → Prop
  | some p => mem p ∧ IsBelow p l ∧ ∀ q, mem q → IsBelow q l → q <+: p
  | none => ∀ q, mem q → ¬ IsBelow q l

section

variable (h : IsParent mem l o)

include h

theorem IsParent.unique (h' : IsParent mem l o') : o = o' := by
  cases o with
  | none =>
    cases o' with
    | none => rfl
    | some q => exact absurd h'.2.1 (h q h'.1)
  | some p =>
    cases o' with
    | none => exact absurd h.2.1 (h' p h.1)
    | some q =>
      have hpq : p <+: q := h'.2.2 p h.1 h.2.1
      have hqp : q <+: p := h.2.2 q h'.1 h'.2.1
      rw [hpq.eq_of_length_le hqp.length_le]

theorem IsParent.congr (hmem : ∀ q, IsBelow q l → (mem' q ↔ mem q)) : IsParent mem' l o := by
  cases o with
  | none => exact fun q hq hql => h q ((hmem q hql).mp hq) hql
  | some p =>
    exact ⟨(hmem p h.2.1).mpr h.1, h.2.1, fun q hq hql => h.2.2 q ((hmem q hql).mp hq) hql⟩

theorem IsParent.insert_of_eq (hx : IsParent mem x o) (hbelow : IsBelow x l)
    (hmem : ∀ q, mem' q ↔ q = x ∨ mem q) : IsParent mem' l (some x) := by
  refine ⟨(hmem x).mpr (.inl rfl), hbelow, fun q hq hql => ?_⟩
  rcases (hmem q).mp hq with rfl | hq
  · exact List.prefix_rfl
  · cases o with
    | none => exact absurd hql (h q hq)
    | some p => exact (h.2.2 q hq hql).trans hx.2.1.1

theorem IsParent.insert_of_not (hx : IsParent mem x o') (hnew : ¬ mem x)
    (hnot : ¬ (IsBelow x l ∧ o = o')) (hmem : ∀ q, mem' q ↔ q = x ∨ mem q) :
    IsParent mem' l o := by
  cases o with
  | none =>
    intro q hq hql
    rcases (hmem q).mp hq with rfl | hq
    · have hnone : IsParent mem q none := fun r hr hrq => h r hr (hrq.trans hql)
      exact hnot ⟨hql, hnone.unique hx⟩
    · exact h q hq hql
  | some p =>
    refine ⟨(hmem p).mpr (.inr h.1), h.2.1, fun q hq hql => ?_⟩
    rcases (hmem q).mp hq with rfl | hq
    · rcases List.prefix_or_prefix_of_prefix hql.1 h.2.1.1 with hqp | hpq
      · exact hqp
      · -- the parent would also be that of the new list
        have hbelow : IsBelow p q := ⟨hpq, fun heq => hnew (heq ▸ h.1)⟩
        have hparent : IsParent mem q (some p) :=
          ⟨h.1, hbelow, fun r hr hrq => h.2.2 r hr (hrq.trans hql)⟩
        exact absurd ⟨hql, hparent.unique hx⟩ hnot
    · exact h.2.2 q hq hql

omit h in
theorem IsParent.erase_of_eq (h : IsParent mem l (some x)) (hx : IsParent mem x o)
    (hmem : ∀ q, mem' q ↔ q ≠ x ∧ mem q) : IsParent mem' l o := by
  have hbelow : ∀ q, mem' q → IsBelow q l → IsBelow q x := fun q hq hql =>
    ⟨h.2.2 q ((hmem q).mp hq).2 hql, ((hmem q).mp hq).1⟩
  cases o with
  | none => exact fun q hq hql => hx q ((hmem q).mp hq).2 (hbelow q hq hql)
  | some p =>
    refine ⟨(hmem p).mpr ⟨hx.2.1.2, hx.1⟩, hx.2.1.trans h.2.1, fun q hq hql => ?_⟩
    exact hx.2.2 q ((hmem q).mp hq).2 (hbelow q hq hql)

theorem IsParent.erase_of_ne (hne : o ≠ some x) (hmem : ∀ q, mem' q ↔ q ≠ x ∧ mem q) :
    IsParent mem' l o := by
  cases o with
  | none => exact fun q hq => h q ((hmem q).mp hq).2
  | some p =>
    have hp : mem' p := (hmem p).mpr ⟨fun heq => hne (heq ▸ rfl), h.1⟩
    exact ⟨hp, h.2.1, fun q hq => h.2.2 q ((hmem q).mp hq).2⟩

end

/-! ### Links -/

/-- What is kept for a list of the set. -/
structure Link (α : Type*) where
  parent : Option (List α)
  children : List (List α)

variable {links links' : List α → Link α} {kids : List (List α)}

/-- The links lead to the parents, and the children are those whose parent it is. -/
def Forest (mem : List α → Prop) (links : List α → Link α) : Prop :=
  ∀ l, mem l → IsParent mem l (links l).parent ∧ (links l).children.Nodup ∧
    ∀ c, c ∈ (links l).children ↔ mem c ∧ (links c).parent = some l

variable [DecidableEq α]

/-- The links of a list when some lists move from a former parent to a new one, or none. -/
def Link.move (old new : Option (List α)) (moved : List (List α)) (l : List α) (link : Link α) :
    Link α where
  parent := if l ∈ moved then new else link.parent
  children := (if old = some l then link.children.filter (· ∉ moved) else link.children) ++
    if new = some l then moved else []

theorem Forest.insert (h : Forest mem links) (hx : ¬ mem x) (hp : IsParent mem x o)
    (hnodup : kids.Nodup)
    (hkids : ∀ l, l ∈ kids ↔ mem l ∧ IsBelow x l ∧ (links l).parent = o)
    (hmem : ∀ q, mem' q ↔ q = x ∨ mem q) (hself : links' x = ⟨o, kids⟩)
    (hother : ∀ l, l ≠ x →
      links' l = Link.move o (some x) kids l (Link.move none o [x] l (links l))) :
    Forest mem' links' := by
  have hxk : x ∉ kids := fun hxk => hx ((hkids x).mp hxk).1
  have hox : o ≠ some x := by
    rintro rfl
    exact hp.2.1.2 rfl
  have hpx : ∀ l, mem l → (links l).parent ≠ some x := fun l hl heq => by
    have hparent := (h l hl).1
    rw [heq] at hparent
    exact hx hparent.1
  have hparent' : ∀ l, l ≠ x → (links' l).parent = if l ∈ kids then some x else (links l).parent :=
    fun l hl => by simp [hother l hl, Link.move, hl]
  intro l hl
  by_cases hlx : l = x
  · subst hlx
    rw [hself]
    refine ⟨hp.congr fun q hq => (hmem q).trans (or_iff_right hq.2), hnodup, fun c => ?_⟩
    rw [hmem]
    by_cases hc : c = l
    · simp [hc, hxk, hself, hox]
    · rw [hparent' c hc]
      by_cases hck : c ∈ kids
      · simp [hck, ((hkids c).mp hck).1]
      · simp only [hc, hck, false_or, if_false, false_iff, not_and]
        exact hpx c
  · have hl := ((hmem l).mp hl).resolve_left hlx
    obtain ⟨hparent, hchildren, hiff⟩ := h l hl
    have hxc : x ∉ (links l).children := fun hxc => hx ((hiff x).mp hxc).1
    refine ⟨?_, ?_, fun c => ?_⟩
    · rw [hparent' l hlx]
      split_ifs with hkid
      · obtain ⟨-, hbelow, ho⟩ := (hkids l).mp hkid
        exact (ho ▸ hparent).insert_of_eq hp hbelow hmem
      · exact hparent.insert_of_not hp hx (fun hnot => hkid ((hkids l).mpr ⟨hl, hnot⟩)) hmem
    · have hne : ∀ c ∈ (links l).children, c ∉ kids → c ≠ x := fun c hc _ heq => hxc (heq ▸ hc)
      by_cases ho : o = some l
      · simpa [hother l hlx, Link.move, ho, Ne.symm hlx, hxk, List.nodup_append] using
          ⟨hchildren.filter _, hne⟩
      · simpa [hother l hlx, Link.move, ho, Ne.symm hlx] using hchildren
    · rw [hmem]
      by_cases hc : c = x
      · subst hc
        by_cases ho : o = some l <;>
          simp [hother l hlx, Link.move, ho, Ne.symm hlx, hxc, hxk, hself]
      · rw [hparent' c hc]
        by_cases hck : c ∈ kids
        · obtain ⟨hcm, -, hco⟩ := (hkids c).mp hck
          by_cases ho : o = some l <;>
            simp [hother l hlx, Link.move, ho, Ne.symm hlx, hck, hc, hiff, hco]
        · by_cases ho : o = some l <;>
            simp [hother l hlx, Link.move, ho, Ne.symm hlx, hck, hc, hiff]

theorem Forest.erase (h : Forest mem links) (hx : mem x) (hmem : ∀ q, mem' q ↔ q ≠ x ∧ mem q)
    (hother : ∀ l, l ≠ x → links' l = Link.move (some x) (links x).parent (links x).children l
      (Link.move (links x).parent none [x] l (links l))) : Forest mem' links' := by
  obtain ⟨hp, hnodup, hkids⟩ := h x hx
  generalize hxo : (links x).parent = o at hp hother
  have hox : o ≠ some x := by
    rintro rfl
    exact hp.2.1.2 rfl
  have hxk : x ∉ (links x).children := by simp [hkids, hxo, hox]
  have hparent' : ∀ l, l ≠ x →
      (links' l).parent = if l ∈ (links x).children then o else (links l).parent :=
    fun l hl => by simp [hother l hl, Link.move, hl]
  intro l hl
  obtain ⟨hlx, hl⟩ := (hmem l).mp hl
  obtain ⟨hparent, hchildren, hiff⟩ := h l hl
  refine ⟨?_, ?_, fun c => ?_⟩
  · rw [hparent' l hlx]
    split_ifs with hkid
    · rw [((hkids l).mp hkid).2] at hparent
      exact hparent.erase_of_eq hp hmem
    · exact hparent.erase_of_ne (fun heq => hkid ((hkids l).mpr ⟨hl, heq⟩)) hmem
  · have hne : ∀ c ∈ (links l).children, c ≠ x → ∀ c' ∈ (links x).children, c ≠ c' := by
      rintro c hc - c' hc' rfl
      have hsame := ((hiff c).mp hc).2.symm.trans ((hkids c).mp hc').2
      exact hlx (Option.some.inj hsame)
    by_cases ho : o = some l
    · simpa [hother l hlx, Link.move, ho, Ne.symm hlx, List.nodup_append] using
        ⟨hchildren.filter _, hnodup, hne⟩
    · simpa [hother l hlx, Link.move, ho, Ne.symm hlx] using hchildren
  · rw [hmem]
    by_cases hc : c = x
    · subst hc
      by_cases ho : o = some l <;> simp [hother l hlx, Link.move, ho, Ne.symm hlx, hxk, hiff, hxo]
    · rw [hparent' c hc]
      by_cases hck : c ∈ (links x).children
      · obtain ⟨hcm, hcx⟩ := (hkids c).mp hck
        by_cases ho : o = some l <;>
          simp [hother l hlx, Link.move, ho, Ne.symm hlx, hc, hck, hiff, hcm, hcx]
      · by_cases ho : o = some l <;> simp [hother l hlx, Link.move, ho, Ne.symm hlx, hc, hck, hiff]

end PrefixForest
