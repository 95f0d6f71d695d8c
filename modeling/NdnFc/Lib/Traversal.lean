import Mathlib.Data.List.Flatten
import Mathlib.Data.List.Basic

/-!
# Walking over a tree

An enumeration is an iterator that is advanced until it reaches the end (`Traversal.Visits`). In a
tree of bounded height (`Traversal.Graded`), `Traversal.enter` lists what a traversal visits from a
node on, parents before children, and `Traversal.Pending` what remains after the part below a node.
-/

namespace Traversal

open List

/-! ### Iterators -/

section Iterators

variable {S : Type*} (advance : S → Option (Option S))

/-- Advanced again and again, the iterator takes the listed values and then reaches the end. The
outer option of `advance` is `none` when it does not return. -/
inductive Visits : S → List S → Prop
  | done {s : S} (h : advance s = some none) : Visits s []
  | visit {s s' : S} {l : List S} (h : advance s = some (some s')) (hl : Visits s' l) :
    Visits s (s' :: l)

/-- The result of advancing is the first of a list of values, after which the rest of the list
remains, or the end. -/
def Takes (R : S → List S → Prop) (r : Option (Option S)) : List S → Prop
  | [] => r = some none
  | s :: l => r = some (some s) ∧ R s l

variable {advance}

theorem Visits.unique {s : S} {l l' : List S} (h : Visits advance s l) (h' : Visits advance s l') :
    l = l' := by
  induction h generalizing l' with
  | done h =>
    cases h' with
    | done => rfl
    | visit h'' => simp [h] at h''
  | visit h hl ih =>
    cases h' with
    | done h'' => simp [h] at h''
    | visit h'' hl' =>
      obtain rfl : _ = _ := by simpa [h] using h''
      rw [ih hl']

theorem visits_of_remaining {R : S → List S → Prop}
    (hstep : ∀ s l, R s l → Takes R (advance s) l) {s : S} {l : List S} (h : R s l) : Visits advance s l := by
  induction l generalizing s with
  | nil => exact .done (hstep s [] h)
  | cons s' l ih =>
    obtain ⟨hadvance, hrest⟩ := hstep s (s' :: l) h
    exact .visit hadvance (ih hrest)

theorem visits_filter {α : Type*} {advance : Option α → Option (Option (Option α))}
    {R : Option α → List α → Prop} {pred : α → Bool}
    (hadvance : ∀ s l, R s l → advance s = some ((l.find? pred).map some))
    (hR : ∀ s before w after, R s (before ++ w :: after) → R (some w) after)
    {s : Option α} {l : List α} (h : R s l) :
    Visits advance s ((l.filter pred).map some) := by
  refine visits_of_remaining (R := fun s L => ∃ l, R s l ∧ L = (l.filter pred).map some)
    ?_ ⟨l, h, rfl⟩
  rintro s _ ⟨l, hl, rfl⟩
  rw [hadvance s l hl]
  cases hfind : l.find? pred with
  | none =>
    have hnil : l.filter pred = [] := filter_eq_nil_iff.mpr (find?_eq_none.mp hfind)
    rw [hnil]
    rfl
  | some w =>
    obtain ⟨hw, before, after, rfl, hbefore⟩ := find?_eq_some_iff_append.mp hfind
    have hskip : before.filter pred = [] :=
      filter_eq_nil_iff.mpr fun u hu => by simpa using hbefore u hu
    rw [filter_append, hskip, nil_append, filter_cons_of_pos hw, map_cons]
    exact ⟨rfl, after, hR s before w after hl, rfl⟩

end Iterators

/-! ### Trees -/

section Trees

variable {α : Type*} (children : α → List α) (pred : α → Bool × Bool) (height : α → ℕ)

/-- A node, if it is to be visited, with the answer whether its children are to be entered. -/
def visitSelf (v : α) : List (α × Bool) :=
  if (pred v).1 then [(v, (pred v).2)] else []

/-- What is visited from a node on, down to a depth. -/
def enterTo : ℕ → α → List (α × Bool)
  | 0, v => visitSelf pred v
  | k + 1, v => visitSelf pred v ++ if (pred v).2 then (children v).flatMap (enterTo k) else []

def enter (v : α) : List (α × Bool) := enterTo children pred (height v) v

/-- What is visited below a node, if its children are to be entered. -/
def below (v : α) (wantChildren : Bool) : List (α × Bool) :=
  if wantChildren then (children v).flatMap (enter children pred height) else []

def subtree (v : α) : List α :=
  (enter children (fun _ => (true, true)) height v).map Prod.fst

/-- The nodes of a set have their children in the set, at smaller height. -/
def Graded (S : α → Prop) : Prop :=
  ∀ v, S v → ∀ c ∈ children v, S c ∧ height c < height v

/-- The traversal of the tree of `v` comes to the node `w`: the children of all nodes above it are
entered. -/
inductive Entered : α → α → Prop
  | self {v : α} : Entered v v
  | child {v c w : α} (hpred : (pred v).2 = true) (hc : c ∈ children v) (hw : Entered c w) :
    Entered v w

/-- What remains to be visited in the tree of `ref` after the part below `v`, how many nodes there
are in that remainder, and how deep `v` is. -/
inductive Pending (ref : α) : α → List (α × Bool) → ℕ → ℕ → Prop
  | ref : Pending ref ref [] 0 0
  | child {p v : α} {before after : List α} {L : List (α × Bool)} {n d : ℕ}
    (hp : Pending ref p L n d) (hchildren : children p = before ++ v :: after) :
    Pending ref v (after.flatMap (enter children pred height) ++ L)
      ((after.flatMap (subtree children height)).length + n) (d + 1)

variable {children pred height} {S : α → Prop} {v : α}

theorem flatMap_sublist_flatMap {β γ : Type*} {l : List β} {f g : β → List γ}
    (h : ∀ b ∈ l, (f b).Sublist (g b)) : (l.flatMap f).Sublist (l.flatMap g) := by
  induction l with
  | nil => exact .slnil
  | cons b l ih =>
    rw [forall_mem_cons] at h
    rw [flatMap_cons, flatMap_cons]
    exact h.1.append (ih h.2)

variable (hg : Graded children height S)

include hg

theorem Graded.children_eq_nil (hv : S v) (h : height v = 0) : children v = [] :=
  eq_nil_iff_forall_not_mem.mpr fun c hc => by
    have := (hg v hv c hc).2
    omega

theorem Graded.enterTo_eq (hv : S v) {k k' : ℕ} (hk : height v ≤ k) (hk' : height v ≤ k') :
    enterTo children pred k v = enterTo children pred k' v := by
  induction k generalizing v k' with
  | zero =>
    cases k' with
    | zero => rfl
    | succ k' =>
      rw [enterTo, enterTo, hg.children_eq_nil hv (Nat.le_zero.mp hk), flatMap_nil, ite_self,
        append_nil]
  | succ k ih =>
    cases k' with
    | zero =>
      rw [enterTo, enterTo, hg.children_eq_nil hv (Nat.le_zero.mp hk'), flatMap_nil, ite_self,
        append_nil]
    | succ k' =>
      rw [enterTo, enterTo]
      have hsame : (children v).flatMap (enterTo children pred k) =
          (children v).flatMap (enterTo children pred k') := by
        refine flatMap_congr fun c hc => ?_
        obtain ⟨hSc, hlt⟩ := hg v hv c hc
        exact ih hSc (by omega) (by omega)
      rw [hsame]

theorem Graded.enter_eq (hv : S v) :
    enter children pred height v = visitSelf pred v ++ below children pred height v (pred v).2 := by
  have hdeep : enter children pred height v = enterTo children pred (height v + 1) v :=
    hg.enterTo_eq hv (Nat.le_refl _) (Nat.le_succ _)
  have hsame : (children v).flatMap (enterTo children pred (height v)) =
      (children v).flatMap (enter children pred height) := by
    refine flatMap_congr fun c hc => ?_
    obtain ⟨hSc, hlt⟩ := hg v hv c hc
    exact hg.enterTo_eq hSc (by omega) (Nat.le_refl _)
  rw [hdeep, enterTo, hsame, below]

theorem Graded.subtree_eq (hv : S v) :
    subtree children height v = v :: (children v).flatMap (subtree children height) := by
  rw [subtree, hg.enter_eq hv, below, if_pos rfl, visitSelf, if_pos rfl, map_append,
    map_flatMap]
  rfl

theorem Graded.induction {P : α → Prop}
    (h : ∀ v, S v → (∀ c ∈ children v, P c) → P v) (hv : S v) : P v := by
  generalize hn : height v = n
  induction n using Nat.strongRecOn generalizing v with
  | ind n ih =>
    refine h v hv fun c hc => ?_
    obtain ⟨hSc, hlt⟩ := hg v hv c hc
    exact ih (height c) (by omega) hSc rfl

theorem Graded.enter_sublist (hv : S v) :
    ((enter children pred height v).map Prod.fst).Sublist (subtree children height v) := by
  refine hg.induction (P := fun v =>
    ((enter children pred height v).map Prod.fst).Sublist (subtree children height v))
    (fun v hv ih => ?_) hv
  rw [hg.enter_eq hv, hg.subtree_eq hv, map_append, ← singleton_append]
  refine Sublist.append ?_ ?_
  · rw [visitSelf]
    split
    · exact .refl _
    · exact nil_sublist _
  · rw [below]
    split
    · rw [map_flatMap]
      exact flatMap_sublist_flatMap ih
    · exact nil_sublist _

theorem Graded.mem_enter_iff (hv : S v) {w : α} {b : Bool} :
    (w, b) ∈ enter children pred height v ↔
      pred w = (true, b) ∧ Entered children pred v w := by
  refine hg.induction (P := fun v => (w, b) ∈ enter children pred height v ↔
    pred w = (true, b) ∧ Entered children pred v w) (fun v hv ih => ?_) hv
  have hself : (w, b) ∈ visitSelf pred v ↔ w = v ∧ pred w = (true, b) := by
    unfold visitSelf
    split
    next h =>
      rw [mem_singleton, Prod.mk.injEq]
      refine and_congr_right ?_
      rintro rfl
      rw [Prod.ext_iff, h]
      simp [eq_comm]
    next h =>
      refine iff_of_false not_mem_nil ?_
      rintro ⟨rfl, heq⟩
      simp [heq] at h
  have hbelow : (w, b) ∈ below children pred height v (pred v).2 ↔
      (pred v).2 = true ∧ ∃ c ∈ children v, pred w = (true, b) ∧ Entered children pred c w := by
    unfold below
    split
    next h =>
      rw [mem_flatMap]
      simp only [h, true_and]
      exact exists_congr fun c => and_congr_right fun hc => ih c hc
    next h => exact iff_of_false not_mem_nil fun h' => h h'.1
  rw [hg.enter_eq hv, mem_append, hself, hbelow]
  constructor
  · rintro (⟨rfl, heq⟩ | ⟨hpred, c, hc, heq, hw⟩)
    · exact ⟨heq, .self⟩
    · exact ⟨heq, .child hpred hc hw⟩
  · rintro ⟨heq, hw⟩
    cases hw with
    | self => exact .inl ⟨rfl, heq⟩
    | child hpred hc hw => exact .inr ⟨hpred, _, hc, heq, hw⟩

/-- The nodes of a set are named by lists: names are distinct and closed under prefixes, and the
children of a node have one element more. -/
structure Named {κ : Type*} (children : α → List α) (name : α → List κ) (S : α → Prop) : Prop where
  name_inj : ∀ v w, S v → S w → name v = name w → v = w
  exists_of_isPrefix : ∀ w, S w → ∀ l, l <+: name w → ∃ v, S v ∧ name v = l
  mem_children_iff : ∀ v, S v → ∀ c,
    c ∈ children v ↔ S c ∧ name c ≠ [] ∧ (name c).dropLast = name v

variable {κ : Type*} {name : α → List κ} (hn : Named children name S)

include hn

omit hg in
theorem Named.of_mem_children (hv : S v) {c : α} (hc : c ∈ children v) :
    S c ∧ name v <+: name c ∧ (name c).length = (name v).length + 1 := by
  obtain ⟨hmem, hne, hname⟩ := (hn.mem_children_iff v hv c).mp hc
  have hpos := length_pos_of_ne_nil hne
  rw [← hname, length_dropLast]
  exact ⟨hmem, List.dropLast_prefix _, by omega⟩

omit hg in
theorem Named.graded {depth : ℕ} (h : ∀ v, S v → (name v).length ≤ depth) :
    Graded children (fun v => depth - (name v).length) S := by
  intro v hv c hc
  obtain ⟨hmem, -, hlen⟩ := hn.of_mem_children hv hc
  have hle := h c hmem
  refine ⟨hmem, ?_⟩
  dsimp only
  omega

theorem Named.entered_iff (hv : S v) {w : α} :
    Entered children pred v w ↔ S w ∧ name v <+: name w ∧
      ∀ u, S u → name v <+: name u → name u <+: name w → u ≠ w → (pred u).2 = true := by
  constructor
  · intro h
    induction h with
    | @self v =>
      refine ⟨hv, prefix_rfl, fun u hu hvu huv hne => ?_⟩
      exact absurd (hn.name_inj u v hu hv
        (huv.eq_of_length_le hvu.length_le)) hne
    | @child v c w hpred hc _ ih =>
      obtain ⟨hcmem, hvc, hlen⟩ := hn.of_mem_children hv hc
      obtain ⟨hwmem, hcw, hbetween⟩ := ih hcmem
      refine ⟨hwmem, hvc.trans hcw, fun u hu hvu huw hne => ?_⟩
      rcases Nat.lt_or_ge (name v).length (name u).length with hlt | hge
      · exact hbetween u hu (prefix_of_prefix_length_le hcw huw (by omega)) huw hne
      · rw [← hn.name_inj v u hv hu (hvu.eq_of_length_le hge)]
        exact hpred
  · rintro ⟨hwmem, hvw, hbetween⟩
    revert hvw hbetween
    refine hg.induction (P := fun v => name v <+: name w →
      (∀ u, S u → name v <+: name u → name u <+: name w → u ≠ w → (pred u).2 = true) →
      Entered children pred v w) (fun v hv ih hvw hbetween => ?_) hv
    rcases Nat.lt_or_ge (name v).length (name w).length with hlt | hge
    · -- The child of `v` on the way to `w`.
      obtain ⟨c, hc, hname⟩ :=
        hn.exists_of_isPrefix w hwmem _ (List.take_prefix ((name v).length + 1) (name w))
      have hcw : name c <+: name w := hname ▸ take_prefix _ _
      have hlen : (name c).length = (name v).length + 1 := by
        rw [hname, length_take, Nat.min_eq_left hlt]
      have hvc : name v <+: name c := prefix_of_prefix_length_le hvw hcw (by omega)
      have hne : name c ≠ [] := ne_nil_of_length_pos (by omega)
      have hdrop : (name c).dropLast = name v := by
        have hpre := prefix_of_prefix_length_le hvc (List.dropLast_prefix (name c))
          (by rw [length_dropLast]; omega)
        exact (hpre.eq_of_length (by rw [length_dropLast]; omega)).symm
      have hchild := (hn.mem_children_iff v hv c).mpr ⟨hc, hne, hdrop⟩
      have hvne : v ≠ w := by
        rintro rfl
        exact Nat.lt_irrefl _ hlt
      refine .child (hbetween v hv prefix_rfl hvw hvne) hchild (ih c hchild hcw ?_)
      exact fun u hu hcu => hbetween u hu (hvc.trans hcu)
    · rw [hn.name_inj v w hv hwmem (hvw.eq_of_length_le hge)]
      exact .self

theorem Named.mem_enter_iff (hv : S v) {w : α} :
    w ∈ (enter children pred height v).map Prod.fst ↔
      S w ∧ name v <+: name w ∧ (pred w).1 = true ∧
        ∀ u, S u → name v <+: name u → name u <+: name w → u ≠ w → (pred u).2 = true := by
  constructor
  · intro h
    obtain ⟨⟨w, b⟩, hmem, rfl⟩ := mem_map.mp h
    obtain ⟨hpred, hentered⟩ := (hg.mem_enter_iff hv).mp hmem
    obtain ⟨hmem, hpre, hbetween⟩ := (hn.entered_iff hg hv).mp hentered
    exact ⟨hmem, hpre, by rw [hpred], hbetween⟩
  · rintro ⟨hmem, hpre, hself, hbetween⟩
    refine mem_map.mpr ⟨(w, (pred w).2), (hg.mem_enter_iff hv).mpr ⟨?_, ?_⟩, rfl⟩
    · rw [← hself]
    · exact (hn.entered_iff hg hv).mpr ⟨hmem, hpre, hbetween⟩

theorem Named.mem_subtree_iff (hv : S v) {w : α} :
    w ∈ subtree children height v ↔ S w ∧ name v <+: name w := by
  rw [subtree, hn.mem_enter_iff hg hv]
  simp

theorem Named.pairwise_subtree (hnodup : ∀ v, S v → (children v).Nodup) (hv : S v) :
    (subtree children height v).Pairwise fun a b => ¬ name b <+: name a := by
  refine hg.induction (P := fun v =>
    (subtree children height v).Pairwise fun a b => ¬ name b <+: name a) (fun v hv ih => ?_) hv
  have hunder : ∀ c ∈ children v, ∀ w ∈ subtree children height c,
      name c <+: name w ∧ (name c).length = (name v).length + 1 := by
    intro c hc w hmem
    obtain ⟨hcmem, -, hlen⟩ := hn.of_mem_children hv hc
    exact ⟨((hn.mem_subtree_iff hg hcmem).mp hmem).2, hlen⟩
  rw [hg.subtree_eq hv, pairwise_cons, pairwise_flatMap]
  refine ⟨fun w hmem hpre => ?_, ih, ?_⟩
  · obtain ⟨c, hc, hw⟩ := mem_flatMap.mp hmem
    obtain ⟨hcw, hlen⟩ := hunder c hc w hw
    have := (hcw.trans hpre).length_le
    omega
  · -- Two children have different names of one length, so nothing is under both.
    refine (hnodup v hv).imp_of_mem ?_
    intro c c' hc hc' hne x hx y hy hpre
    obtain ⟨hcx, hlen⟩ := hunder c hc x hx
    obtain ⟨hcy, hlen'⟩ := hunder c' hc' y hy
    have hpre' := prefix_of_prefix_length_le hcx (hcy.trans hpre) (by omega)
    have hmem := (hn.of_mem_children hv hc).1
    have hmem' := (hn.of_mem_children hv hc').1
    exact hne (hn.name_inj c c' hmem hmem' (hpre'.eq_of_length (by omega)))

theorem Named.nodup_subtree (hnodup : ∀ v, S v → (children v).Nodup) (hv : S v) :
    (subtree children height v).Nodup := by
  refine (hn.pairwise_subtree hg hnodup hv).imp fun {a b} h heq => h ?_
  subst heq
  exact prefix_rfl

omit hn in
theorem Pending.mem {ref : α} {L : List (α × Bool)} {n d : ℕ} (href : S ref)
   (hp : Pending children pred height ref v L n d) : S v := by
  induction hp with
  | ref => exact href
  | child hp hchildren ih => exact (hg _ ih _ (by rw [hchildren]; simp)).1

omit hn in
theorem Pending.length_le {ref : α} {L : List (α × Bool)} {n d : ℕ} (href : S ref)
    (hp : Pending children pred height ref v L n d) :
    (subtree children height v).length + n ≤ (subtree children height ref).length := by
  induction hp with
  | ref => exact Nat.le_refl _
  | @child p v before after L n d hp hchildren ih =>
    have hsub := hg.subtree_eq (hp.mem hg href)
    rw [hsub, hchildren] at ih
    simp only [length_cons, flatMap_append, flatMap_cons, length_append] at ih
    omega

end Trees

end Traversal
