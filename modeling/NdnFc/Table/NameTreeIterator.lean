import NdnFc.Lib.Traversal
import NdnFc.Table.HashedNameTree

/-!
# Enumerating the name tree

Iterators over the name tree (`NFD-FC/daemon/table/name-tree-iterator.cpp`). A full enumeration goes
through the buckets; a partial one walks the tree under a prefix without a stack; an enumeration of
all matches climbs to the root. The tree does not change meanwhile. `advance` gives `some none` at
the end, and `none` when it would not return or would follow a null pointer.
-/

namespace NdnFc

namespace HashedTree

open Option List Traversal

variable {κ φ π μ σ : Type*} [DecidableEq κ] (hashOf : κ → ℕ) (t : HashedTree κ φ π μ σ)

variable (pred : Node κ φ π μ σ → Bool) (v : Node κ φ π μ σ)

def getParent : Option (Node κ φ π μ σ) :=
  v.parent.bind t.node?

def getChildren : List (Node κ φ π μ σ) :=
  v.children.filterMap t.node?

/-- The nodes after a node in a list of nodes. -/
def after (l : List (Node κ φ π μ σ)) : List (Node κ φ π μ σ) :=
  (l.dropWhile fun w => w.id ≠ v.id).tail

/-! ### The whole table -/

/-- The loops of `FullEnumerationImpl::advance` that search from a node on: first its bucket, then
the other buckets. -/
def fullNext : Option (Node κ φ π μ σ) :=
  match (after v (BucketTable.bucket t.buckets v.hash)).find? pred with
  | some w => some w
  | none => (t.buckets.drop (v.hash % t.buckets.length + 1)).findSome? (List.find? pred)

/-- `FullEnumerationImpl::advance` -/
def fullAdvance :
    Option (Node κ φ π μ σ) → Option (Option (Option (Node κ φ π μ σ)))
  | none =>
    match t.buckets.findSome? head? with
    | none => some none
    | some v => if pred v then some (some (some v)) else some ((t.fullNext pred v).map some)
  | some v => some ((t.fullNext pred v).map some)

/-! ### A part of the tree -/

/-- The loop over the siblings, until one is to be visited or has its children entered. -/
def siblingLoop (pred : Node κ φ π μ σ → Bool × Bool) (siblings : List (Node κ φ π μ σ)) :
    Option (Node κ φ π μ σ) :=
  siblings.find? fun w => (pred w).1 || (pred w).2

/-- The loop of `PartialEnumerationImpl::advance`, with a bound on the number of rounds. -/
def partialLoop (t : HashedTree κ φ π μ σ) (pred : Node κ φ π μ σ → Bool × Bool)
    (ref : Node κ φ π μ σ) :
    ℕ → Node κ φ π μ σ → Bool → Option (Option (Node κ φ π μ σ × Bool))
  | 0, _, _ => none
  | rounds + 1, entry, wantChildren =>
    match if wantChildren then t.getChildren entry else [] with
    | child :: _ =>
      if (pred child).1 then some (some (child, (pred child).2))
      else partialLoop t pred ref rounds child (pred child).2
    | [] =>
      if entry.id = ref.id then some none
      else
        match t.getParent entry with
        | none => none
        | some parent =>
          match siblingLoop pred (after entry (t.getChildren parent)) with
          | some w =>
            if (pred w).1 then some (some (w, (pred w).2))
            else partialLoop t pred ref rounds w (pred w).2
          | none => partialLoop t pred ref rounds parent false

/-- Enough rounds for the loop of `PartialEnumerationImpl::advance`: it enters no node twice, and
climbs no higher than it went down. -/
def maxRounds : ℕ := 2 * t.size + NameTree.maxDepth + 1

/-- `PartialEnumerationImpl::advance`. The iterator holds the last visited node and whether its
children are to be entered. -/
def partialAdvance (pred : Node κ φ π μ σ → Bool × Bool) (ref : Option (Node κ φ π μ σ)) :
    Option (Node κ φ π μ σ × Bool) → Option (Option (Option (Node κ φ π μ σ × Bool)))
  | none =>
    match ref with
    | none => some none
    | some r =>
      if (pred r).1 then some (some (some (r, (pred r).2)))
      else (t.partialLoop pred r t.maxRounds r (pred r).2).map (Option.map some)
  | some (entry, state) =>
    match ref with
    | none => none
    | some r => (t.partialLoop pred r t.maxRounds entry state).map (Option.map some)

/-! ### All matches of a name -/

/-- The loop of `PrefixMatchImpl::advance`, with a bound on the number of rounds. -/
def climbLoop (t : HashedTree κ φ π μ σ) (pred : Node κ φ π μ σ → Bool) :
    ℕ → Node κ φ π μ σ → Option (Option (Node κ φ π μ σ))
  | 0, _ => none
  | rounds + 1, entry =>
    match t.getParent entry with
    | none => some none
    | some parent => if pred parent then some (some parent) else climbLoop t pred rounds parent

/-- `PrefixMatchImpl::advance` -/
def matchAdvance
    (ref : Option (Node κ φ π μ σ)) :
    Option (Node κ φ π μ σ) → Option (Option (Option (Node κ φ π μ σ)))
  | none =>
    match ref with
    | none => some none
    | some r =>
      if pred r then some (some (some r))
      else (t.climbLoop pred (NameTree.maxDepth + 1) r).map (Option.map some)
  | some entry => (t.climbLoop pred (NameTree.maxDepth + 1) entry).map (Option.map some)

/-- The loop of `findLongestPrefixMatch`, over the prefixes of length `i` to `0`. -/
def longestMatchLoop (t : HashedTree κ φ π μ σ) (name : List κ) (hashes : List ℕ)
    (pred : Node κ φ π μ σ → Bool) : ℕ → Option (Node κ φ π μ σ)
  | 0 => (t.find? (name.take 0) (hashes.getD 0 0)).filter pred
  | i + 1 =>
    match (t.find? (name.take (i + 1)) (hashes.getD (i + 1) 0)).filter pred with
    | some v => some v
    | none => longestMatchLoop t name hashes pred i

def findLongestPrefixMatch (name : List κ)
    (pred : Node κ φ π μ σ → Bool) : Option (Node κ φ π μ σ) :=
  let depth := min name.length NameTree.maxDepth
  t.longestMatchLoop name (computeHashes hashOf name depth) pred depth

/-! ### What a full enumeration visits -/

section Full

variable {hashOf t} {v : Node κ φ π μ σ}

omit [DecidableEq κ]

theorem after_append {before rest : List (Node κ φ π μ σ)} (h : ∀ w ∈ before, w.id ≠ v.id) :
    after v (before ++ v :: rest) = rest := by
  rw [after, dropWhile_append_of_pos (by simpa using h), dropWhile_cons_of_neg (by simp),
    tail_cons]

theorem Linked.id_ne_of_append {nodes before rest : List (Node κ φ π μ σ)} {nextId : ℕ}
    (hl : Linked hashOf nodes nextId) (h : nodes = before ++ v :: rest) :
    ∀ w ∈ before, w.id ≠ v.id := by
  intro w hw
  have hnodup := hl.nodup_id
  rw [h, map_append, map_cons, nodup_append] at hnodup
  exact hnodup.2.2 w.id (mem_map_of_mem hw) v.id mem_cons_self

theorem WellFormed.fullNext_eq (hw : WellFormed hashOf t) (hv : v ∈ t.nodes)
    (pred : Node κ φ π μ σ → Bool) : t.fullNext pred v = (after v t.nodes).find? pred := by
  set k := v.hash % t.buckets.length with hk
  have hlt : k < t.buckets.length := Nat.mod_lt _ hw.placed.length_pos
  have hbucket : BucketTable.bucket t.buckets v.hash = t.buckets[k] := by
    rw [BucketTable.bucket, getD_eq_getElem?_getD, getElem?_eq_getElem hlt,
      getD_some]
  have hmem : v ∈ t.buckets[k] := hbucket ▸ hw.placed.mem_bucket_iff.mpr ⟨hv, rfl⟩
  obtain ⟨before, rest, hsplit⟩ := append_of_mem hmem
  have hnodes : t.nodes = ((t.buckets.take k).flatten ++ before) ++
      v :: (rest ++ (t.buckets.drop (k + 1)).flatten) := by
    have : t.buckets = t.buckets.take k ++ t.buckets[k] :: t.buckets.drop (k + 1) := by
      rw [getElem_cons_drop, take_append_drop]
    refine (congrArg flatten this).trans ?_
    rw [hsplit]
    simp
  have hne := hw.linked.id_ne_of_append hnodes
  rw [fullNext, hbucket, hsplit, after_append fun w hmem => hne w (mem_append_right _ hmem),
    hnodes, after_append hne, find?_append, find?_flatten, ← hk]
  cases rest.find? pred <;> rfl

/-- What comes after an iterator of a full enumeration. -/
def fullRest (t : HashedTree κ φ π μ σ) : Option (Node κ φ π μ σ) → List (Node κ φ π μ σ) → Prop
  | none, l => l = t.nodes
  | some v, l => v ∈ t.nodes ∧ l = after v t.nodes

theorem WellFormed.fullAdvance_eq (hw : WellFormed hashOf t) {pred : Node κ φ π μ σ → Bool}
    (s : Option (Node κ φ π μ σ)) (l : List (Node κ φ π μ σ)) (h : t.fullRest s l) :
    t.fullAdvance pred s = some ((l.find? pred).map some) := by
  cases s with
  | some v =>
    obtain ⟨hv, rfl⟩ := h
    rw [fullAdvance, hw.fullNext_eq hv]
  | none =>
    obtain rfl : l = t.nodes := h
    rw [fullAdvance, ← head?_flatten, ← nodes]
    cases hnodes : t.nodes with
    | nil => rfl
    | cons v rest =>
      have hv : v ∈ t.nodes := by simp [hnodes]
      have hrest : after v t.nodes = rest := by
        rw [hnodes, ← nil_append (v :: rest)]
        exact after_append fun w hw => absurd hw not_mem_nil
      rw [head?_cons]
      dsimp only
      rw [hw.fullNext_eq hv, hrest, find?_cons]
      cases pred v <;> rfl

theorem WellFormed.visits_fullEnumerate (hw : WellFormed hashOf t) (pred : Node κ φ π μ σ → Bool) :
    Visits (t.fullAdvance pred) none ((t.nodes.filter pred).map some) := by
  have hafter : ∀ {before w rest}, t.nodes = before ++ w :: rest → t.fullRest (some w) rest := by
    intro before w rest h
    refine ⟨by simp [h], ?_⟩
    have hne := hw.linked.id_ne_of_append h
    rw [h, after_append hne]
  refine visits_filter (R := t.fullRest) hw.fullAdvance_eq ?_ rfl
  intro s before w rest h
  cases s with
  | none => exact hafter h.symm
  | some v =>
    obtain ⟨hv, hrest⟩ := h
    obtain ⟨before', rest', hsplit⟩ := append_of_mem hv
    have hne := hw.linked.id_ne_of_append hsplit
    rw [hsplit, after_append hne] at hrest
    have hall : t.nodes = (before' ++ v :: before) ++ w :: rest := by
      rw [hsplit, ← hrest]
      simp
    exact hafter hall

end Full

/-! ### Links between nodes -/

section Links

variable {hashOf t} {v w : Node κ φ π μ σ}

omit [DecidableEq κ]

theorem isPrefix_iff_of_ne_nil {l m : List κ} (h : m ≠ []) : l <+: m ↔ l = m ∨ l <+: m.dropLast := by
  have hconcat : l <+: m.dropLast ++ [m.getLast h] ↔ _ := prefix_concat_iff
  rwa [dropLast_append_getLast h] at hconcat

variable (hw : WellFormed hashOf t)

include hw

theorem WellFormed.node?_eq_some_iff {id : ℕ} : t.node? id = some v ↔ v ∈ t.nodes ∧ v.id = id :=
  KeyedList.get?_eq_some_iff hw.linked.nodup_id

theorem WellFormed.exists_node?_iff {P : Node κ φ π μ σ → Prop} :
    (∃ id, (∃ u ∈ t.nodes, u.id = id ∧ P u) ∧ t.node? id = some w) ↔ w ∈ t.nodes ∧ P w := by
  simp only [hw.node?_eq_some_iff]
  constructor
  · rintro ⟨_, ⟨u, hu, rfl, hP⟩, hmem, hid⟩
    exact ⟨hmem, hw.linked.eq_of_id hmem hu hid ▸ hP⟩
  · rintro ⟨hmem, hP⟩
    exact ⟨w.id, ⟨w, hmem, rfl, hP⟩, hmem, rfl⟩

theorem WellFormed.getParent_eq_some_iff (hv : v ∈ t.nodes) :
    t.getParent v = some w ↔ w ∈ t.nodes ∧ v.name ≠ [] ∧ w.name = v.name.dropLast := by
  rw [getParent, bind_eq_some_iff]
  simp only [hw.linked.parent_iff v hv]
  exact hw.exists_node?_iff

theorem WellFormed.mem_getChildren_iff (hv : v ∈ t.nodes) :
    w ∈ t.getChildren v ↔ w ∈ t.nodes ∧ w.name ≠ [] ∧ w.name.dropLast = v.name := by
  rw [getChildren, mem_filterMap]
  simp only [hw.linked.mem_children_iff v hv]
  exact hw.exists_node?_iff

theorem WellFormed.nodup_getChildren (hv : v ∈ t.nodes) :
    ((t.getChildren v).map Node.id).Nodup := by
  have hids : (t.getChildren v).map Node.id = v.children := by
    rw [getChildren, map_filterMap]
    refine (filterMap_congr fun c hc => ?_).trans filterMap_some
    obtain ⟨u, hu, hid, -⟩ := (hw.linked.mem_children_iff v hv c).mp hc
    rw [hw.node?_eq_some_iff.mpr ⟨hu, hid⟩, map_some, hid]
  rw [hids]
  exact hw.linked.nodup_children v hv

end Links

/-! ### What an enumeration of all matches visits -/

section Matches

variable {hashOf t} {v : Node κ φ π μ σ}

/-- The nodes above a node, from its parent to the root. -/
inductive Ancestors (t : HashedTree κ φ π μ σ) :
    Node κ φ π μ σ → List (Node κ φ π μ σ) → Prop
  | root {v : Node κ φ π μ σ} (h : t.getParent v = none) : Ancestors t v []
  | parent {v p : Node κ φ π μ σ} {l : List (Node κ φ π μ σ)} (h : t.getParent v = some p)
    (hl : Ancestors t p l) : Ancestors t v (p :: l)

section

omit [DecidableEq κ]

theorem WellFormed.exists_ancestors (hw : WellFormed hashOf t) (hv : v ∈ t.nodes) :
    ∃ l, Ancestors t v l ∧ l.length = v.name.length ∧
      (∀ w, w ∈ v :: l ↔ w ∈ t.nodes ∧ w.name <+: v.name) ∧
      (v :: l).Pairwise fun a b => b.name.length < a.name.length := by
  generalize hn : v.name.length = n
  induction n generalizing v with
  | zero =>
    rw [length_eq_zero_iff] at hn
    refine ⟨[], .root ?_, rfl, fun w => ?_, pairwise_singleton _ _⟩
    · rw [eq_none_iff_forall_ne_some]
      intro p hp
      exact ((hw.getParent_eq_some_iff hv).mp hp).2.1 hn
    · rw [mem_singleton, hn, prefix_nil]
      constructor
      · rintro rfl
        exact ⟨hv, hn⟩
      · rintro ⟨hmem, hname⟩
        exact hw.linked.eq_of_name hmem hv (hname.trans hn.symm)
  | succ n ih =>
    have hne : v.name ≠ [] := by
      rintro h
      simp [h] at hn
    obtain ⟨p, hp, hname⟩ := hw.linked.dropLast_mem v hv hne
    have hlen : p.name.length = n := by rw [hname, length_dropLast, hn, Nat.add_sub_cancel]
    obtain ⟨l, hl, hcount, hmem, hpairwise⟩ := ih hp hlen
    refine ⟨p :: l, .parent ((hw.getParent_eq_some_iff hv).mpr ⟨hp, hne, hname⟩) hl,
      by rw [length_cons, hcount], fun w => ?_, ?_⟩
    · rw [mem_cons, hmem, isPrefix_iff_of_ne_nil hne, ← hname]
      constructor
      · rintro (rfl | ⟨hmem', hpre⟩)
        · exact ⟨hv, .inl rfl⟩
        · exact ⟨hmem', .inr hpre⟩
      · rintro ⟨hmem', hname' | hpre⟩
        · exact .inl (hw.linked.eq_of_name hmem' hv hname')
        · exact .inr ⟨hmem', hpre⟩
    · refine pairwise_cons.mpr ⟨fun w hw => ?_, hpairwise⟩
      have := ((hmem w).mp hw).2.length_le
      omega

theorem Ancestors.climbLoop_eq {l : List (Node κ φ π μ σ)} (h : Ancestors t v l)
    (pred : Node κ φ π μ σ → Bool) {rounds : ℕ} (hr : l.length < rounds) :
    t.climbLoop pred rounds v = some (l.find? pred) := by
  induction h generalizing rounds with
  | root h =>
    obtain ⟨rounds, rfl⟩ := Nat.exists_eq_succ_of_ne_zero (Nat.ne_of_gt hr)
    rw [climbLoop, h, find?_nil]
  | @parent v p l h hl ih =>
    obtain ⟨rounds, rfl⟩ := Nat.exists_eq_succ_of_ne_zero (Nat.ne_of_gt (Nat.zero_lt_of_lt hr))
    rw [climbLoop, h, find?_cons]
    dsimp only
    cases pred p with
    | true => rfl
    | false => exact ih (by simpa using hr)

theorem Ancestors.of_append {before rest : List (Node κ φ π μ σ)} {w : Node κ φ π μ σ}
    (h : Ancestors t v (before ++ w :: rest)) : Ancestors t w rest := by
  induction before generalizing v with
  | nil =>
    cases h with
    | parent _ hl => exact hl
  | cons p before ih =>
    cases h with
    | parent _ hl => exact ih hl

end

/-- The selected nodes named by prefixes of a name, up to a length. -/
def IsMatch (t : HashedTree κ φ π μ σ) (name : List κ) (pred : Node κ φ π μ σ → Bool) (i : ℕ)
    (w : Node κ φ π μ σ) : Prop :=
  w ∈ t.nodes ∧ pred w = true ∧ w.name <+: name ∧ w.name.length ≤ i

/-- The result of a search for the longest match up to a length. -/
def IsLongestMatch (t : HashedTree κ φ π μ σ) (name : List κ) (pred : Node κ φ π μ σ → Bool)
    (i : ℕ) : Option (Node κ φ π μ σ) → Prop
  | none => ∀ w, ¬ t.IsMatch name pred i w
  | some v => t.IsMatch name pred i v ∧
      ∀ w, t.IsMatch name pred i w → w.name.length ≤ v.name.length

theorem WellFormed.find?_filter (hw : WellFormed hashOf t) {name : List κ} {i : ℕ}
    (hi : i ≤ name.length) (pred : Node κ φ π μ σ → Bool) :
    (∀ v, (t.find? (name.take i) (computeHash hashOf name i)).filter pred = some v →
      t.IsLongestMatch name pred i (some v)) ∧
    ((t.find? (name.take i) (computeHash hashOf name i)).filter pred = none →
      ∀ w, t.IsMatch name pred i w → w.name.length < i) := by
  rw [← computeHash_take]
  constructor
  · intro v h
    obtain ⟨hfound, hpred⟩ := filter_eq_some_iff.mp h
    obtain ⟨hv, hname⟩ := hw.find?_eq_some_iff.mp hfound
    have hlen : v.name.length = i := by rw [hname, length_take, Nat.min_eq_left hi]
    refine ⟨⟨hv, hpred, hname ▸ take_prefix _ _, hlen.le⟩, fun w hmatch => ?_⟩
    exact hlen.symm ▸ hmatch.2.2.2
  · intro h w ⟨hmem, hpred, hpre, hle⟩
    refine Nat.lt_of_le_of_ne hle fun hlen => ?_
    have hname : w.name = name.take i := hlen ▸ prefix_iff_eq_take.mp hpre
    have hfound := hw.find?_eq_some_iff.mpr ⟨hmem, hname⟩
    rw [hfound] at h
    simp [hpred] at h

theorem WellFormed.longestMatchLoop (hw : WellFormed hashOf t) {name : List κ} {hashes : List ℕ}
    {i : ℕ} (hi : i ≤ name.length) (pred : Node κ φ π μ σ → Bool)
    (hhashes : ∀ j ≤ i, hashes.getD j 0 = computeHash hashOf name j) :
    t.IsLongestMatch name pred i (t.longestMatchLoop name hashes pred i) := by
  induction i with
  | zero =>
    rw [HashedTree.longestMatchLoop, hhashes 0 (Nat.le_refl 0)]
    obtain ⟨hsome, hnone⟩ := hw.find?_filter hi pred
    cases h : (t.find? (name.take 0) (computeHash hashOf name 0)).filter pred with
    | some v => exact hsome v h
    | none => exact fun w hmatch => Nat.not_lt_zero _ (hnone h w hmatch)
  | succ i ih =>
    rw [HashedTree.longestMatchLoop, hhashes (i + 1) (Nat.le_refl _)]
    obtain ⟨hsome, hnone⟩ := hw.find?_filter hi pred
    cases h : (t.find? (name.take (i + 1)) (computeHash hashOf name (i + 1))).filter pred with
    | some v => exact hsome v h
    | none =>
      have hiff : ∀ w, t.IsMatch name pred (i + 1) w ↔ t.IsMatch name pred i w := fun w =>
        ⟨fun hmatch => ⟨hmatch.1, hmatch.2.1, hmatch.2.2.1, Nat.le_of_lt_succ (hnone h w hmatch)⟩,
          fun hmatch => ⟨hmatch.1, hmatch.2.1, hmatch.2.2.1, Nat.le_succ_of_le hmatch.2.2.2⟩⟩
      have hloop := ih (by omega) fun j hj => hhashes j (by omega)
      dsimp only
      generalize HashedTree.longestMatchLoop t name hashes pred i = r at hloop
      cases r with
      | none => exact fun w hmatch => hloop w ((hiff w).mp hmatch)
      | some v => exact ⟨(hiff v).mpr hloop.1, fun w hmatch => hloop.2 w ((hiff w).mp hmatch)⟩

/-- What comes after an iterator over the matches of a name. -/
def matchRest (t : HashedTree κ φ π μ σ) (ref : Option (Node κ φ π μ σ)) :
    Option (Node κ φ π μ σ) → List (Node κ φ π μ σ) → Prop
  | none, l =>
    match ref with
    | none => l = []
    | some r => ∃ l', l = r :: l' ∧ Ancestors t r l' ∧ l'.length ≤ NameTree.maxDepth
  | some v, l => Ancestors t v l ∧ l.length ≤ NameTree.maxDepth

variable {ref : Option (Node κ φ π μ σ)}

omit [DecidableEq κ] in
theorem matchAdvance_eq {pred : Node κ φ π μ σ → Bool} (s : Option (Node κ φ π μ σ))
    (l : List (Node κ φ π μ σ)) (h : t.matchRest ref s l) :
    t.matchAdvance pred ref s = some ((l.find? pred).map some) := by
  cases s with
  | some v =>
    rw [matchAdvance, h.1.climbLoop_eq pred (Nat.lt_succ_of_le h.2), map_some]
  | none =>
    cases ref with
    | none =>
      obtain rfl : l = [] := h
      rfl
    | some r =>
      obtain ⟨l', rfl, hl', hlen⟩ := h
      rw [matchAdvance, hl'.climbLoop_eq pred (Nat.lt_succ_of_le hlen), find?_cons]
      cases pred r <;> rfl

omit [DecidableEq κ] in
theorem matchRest_of_append (s : Option (Node κ φ π μ σ)) (before : List (Node κ φ π μ σ))
    (w : Node κ φ π μ σ) (rest : List (Node κ φ π μ σ))
    (h : t.matchRest ref s (before ++ w :: rest)) : t.matchRest ref (some w) rest := by
  have hlater : ∀ {v l before}, l = before ++ w :: rest → Ancestors t v l →
      l.length ≤ NameTree.maxDepth → t.matchRest ref (some w) rest := by
    rintro v _ before rfl hl hlen
    refine ⟨hl.of_append, ?_⟩
    rw [length_append, length_cons] at hlen
    omega
  cases s with
  | some v => exact hlater rfl h.1 h.2
  | none =>
    cases ref with
    | none => simp [matchRest] at h
    | some r =>
      obtain ⟨l', heq, hl', hlen⟩ := h
      cases before with
      | nil =>
        obtain ⟨rfl, rfl⟩ := cons.inj heq
        exact ⟨hl', hlen⟩
      | cons u before => exact hlater (cons.inj heq).2.symm hl' hlen

theorem WellFormed.visits_findAllMatches (hw : WellFormed hashOf t) (name : List κ)
    (pred : Node κ φ π μ σ → Bool) :
    ∃ l : List (Node κ φ π μ σ),
      Visits (t.matchAdvance pred (t.findLongestPrefixMatch hashOf name pred)) none
        (l.map some) ∧ l.Nodup ∧
      ∀ w, w ∈ l ↔ w ∈ t.nodes ∧ pred w = true ∧ w.name <+: name := by
  have hlongest : t.IsLongestMatch name pred (min name.length NameTree.maxDepth)
      (t.findLongestPrefixMatch hashOf name pred) :=
    hw.longestMatchLoop (Nat.min_le_left _ _) pred fun j hj => by
      rw [getD_eq_getElem?_getD, getElem?_computeHashes hashOf hj (Nat.min_le_left _ _),
        getD_some]
  -- No node is deeper than the search begins.
  have hmatch : ∀ w, t.IsMatch name pred (min name.length NameTree.maxDepth) w ↔
      w ∈ t.nodes ∧ pred w = true ∧ w.name <+: name := by
    intro w
    refine ⟨fun h => ⟨h.1, h.2.1, h.2.2.1⟩, fun ⟨hmem, hpred, hpre⟩ => ⟨hmem, hpred, hpre, ?_⟩⟩
    exact Nat.le_min.mpr ⟨hpre.length_le, hw.linked.length_le w hmem⟩
  generalize t.findLongestPrefixMatch hashOf name pred = ref at hlongest
  have hvisits : ∀ l, t.matchRest ref none l →
      Visits (t.matchAdvance pred ref) none ((l.filter pred).map some) := by
    intro l h
    exact visits_filter (R := t.matchRest ref) matchAdvance_eq matchRest_of_append h
  cases ref with
  | none =>
    refine ⟨[], hvisits [] rfl, nodup_nil, fun w => ?_⟩
    rw [← hmatch]
    exact iff_of_false not_mem_nil (hlongest w)
  | some r =>
    obtain ⟨hr, hmax⟩ := hlongest
    obtain ⟨l, hl, hlen, hmem, hpairwise⟩ := hw.exists_ancestors hr.1
    have hdepth : l.length ≤ NameTree.maxDepth := hlen ▸ hw.linked.length_le r hr.1
    refine ⟨(r :: l).filter pred, hvisits _ ⟨l, rfl, hl, hdepth⟩, ?_, fun w => ?_⟩
    · refine List.Nodup.filter _ (hpairwise.imp fun hlt heq => ?_)
      rw [heq] at hlt
      exact Nat.lt_irrefl _ hlt
    · rw [mem_filter, hmem, and_right_comm, and_assoc]
      refine and_congr_right fun hw' => and_congr_right fun hpred => ?_
      refine ⟨fun hpre => hpre.trans hr.2.2.1, fun hpre => ?_⟩
      exact prefix_of_prefix_length_le hpre hr.2.2.1
        (hmax w ((hmatch w).mpr ⟨hw', hpred, hpre⟩))

end Matches

/-! ### What a partial enumeration visits -/

section Partial

variable {hashOf t} {pred : Node κ φ π μ σ → Bool × Bool}
  {ref v : Node κ φ π μ σ} {L : List (Node κ φ π μ σ × Bool)} {n d : ℕ}

omit [DecidableEq κ]

/-- How far the tree may reach below a node. -/
def heightOf (v : Node κ φ π μ σ) : ℕ := NameTree.maxDepth - v.name.length

variable (hw : WellFormed hashOf t)

include hw

theorem WellFormed.named : Named t.getChildren Node.name (· ∈ t.nodes) where
  name_inj _ _ := hw.linked.eq_of_name
  exists_of_isPrefix _ hw' _ := hw.linked.exists_of_isPrefix hw'
  mem_children_iff _ hv _ := hw.mem_getChildren_iff hv

theorem WellFormed.graded : Graded t.getChildren heightOf (· ∈ t.nodes) :=
  hw.named.graded hw.linked.length_le

/-- What remains to be visited after a part of the tree under `ref`. -/
abbrev PendingAt (t : HashedTree κ φ π μ σ) (pred : Node κ φ π μ σ → Bool × Bool)
    (ref v : Node κ φ π μ σ) (L : List (Node κ φ π μ σ × Bool)) (n d : ℕ) : Prop :=
  Pending t.getChildren pred heightOf ref v L n d

theorem WellFormed.child_of_append {p : Node κ φ π μ σ}
    {before rest : List (Node κ φ π μ σ)} (hp : p ∈ t.nodes)
    (h : t.getChildren p = before ++ v :: rest) :
    v ∈ t.nodes ∧ v.name ≠ [] ∧ v.name.dropLast = p.name :=
  (hw.mem_getChildren_iff hp).mp (by rw [h]; simp)

theorem WellFormed.length_of_pending (href : ref ∈ t.nodes)
    (hp : t.PendingAt pred ref v L n d) : v.name.length = ref.name.length + d := by
  induction hp with
  | ref => rfl
  | @child p v before rest L n d hp hchildren ih =>
    have hchild : v ∈ t.getChildren p := by simp [hchildren]
    have hlen := (hw.named.of_mem_children (hp.mem hw.graded href) hchild).2.2
    omega

/-- The number of nodes the loop may still enter. -/
def toEnter (t : HashedTree κ φ π μ σ) (v : Node κ φ π μ σ) (wantChildren : Bool) (n : ℕ) : ℕ :=
  (if wantChildren then ((t.getChildren v).flatMap (subtree t.getChildren heightOf)).length else 0) + n

/-- What remains when the loop has visited a node, with the answer for its children. -/
def remaining (t : HashedTree κ φ π μ σ) (pred : Node κ φ π μ σ → Bool × Bool)
    (ref : Node κ φ π μ σ) (s : Node κ φ π μ σ × Bool) (l : List (Node κ φ π μ σ × Bool)) : Prop :=
  ∃ L n d, t.PendingAt pred ref s.1 L n d ∧
    l = below t.getChildren pred heightOf s.1 s.2 ++ L

variable {r : Option (Option (Node κ φ π μ σ × Bool))}

theorem WellFormed.takesFirst_enter (hv : v ∈ t.nodes) (hp : t.PendingAt pred ref v L n d)
    (hr : (pred v).1 = false → Takes (t.remaining pred ref) r (below t.getChildren pred heightOf v (pred v).2 ++ L)) :
    Takes (t.remaining pred ref) (if (pred v).1 then some (some (v, (pred v).2)) else r)
      (enter t.getChildren pred heightOf v ++ L) := by
  rw [hw.graded.enter_eq hv, visitSelf]
  cases hself : (pred v).1 with
  | true => exact ⟨rfl, L, n, d, hp, rfl⟩
  | false => exact hr hself

theorem WellFormed.toEnter_lt (hv : v ∈ t.nodes) (wantChildren : Bool)
    (n : ℕ) : t.toEnter v wantChildren n < (subtree t.getChildren heightOf v).length + n := by
  rw [hw.graded.subtree_eq hv, length_cons, toEnter]
  split <;> omega

theorem WellFormed.after_child {p : Node κ φ π μ σ}
    {before rest : List (Node κ φ π μ σ)} (hp : p ∈ t.nodes)
    (hchildren : t.getChildren p = before ++ v :: rest) :
    t.getParent v = some p ∧ after v (t.getChildren p) = rest := by
  obtain ⟨hv, hne, hname⟩ := hw.child_of_append hp hchildren
  refine ⟨(hw.getParent_eq_some_iff hv).mpr ⟨hp, hne, hname.symm⟩, ?_⟩
  have hnodup := hw.nodup_getChildren hp
  rw [hchildren, map_append, map_cons, nodup_append] at hnodup
  rw [hchildren]
  exact after_append fun w hw => hnodup.2.2 w.id (mem_map_of_mem hw) v.id mem_cons_self

theorem WellFormed.enter_eq_nil (hv : v ∈ t.nodes)
    (h : ¬ ((pred v).1 || (pred v).2) = true) : enter t.getChildren pred heightOf v = [] := by
  rw [Bool.or_eq_true, not_or, Bool.not_eq_true, Bool.not_eq_true] at h
  rw [hw.graded.enter_eq hv, visitSelf, below, h.1, h.2]
  rfl

theorem WellFormed.partialLoop (href : ref ∈ t.nodes) {rounds : ℕ}
    {wantChildren : Bool} (hp : t.PendingAt pred ref v L n d)
    (hr : 2 * t.toEnter v wantChildren n + d < rounds) :
    Takes (t.remaining pred ref) (t.partialLoop pred ref rounds v wantChildren)
      (below t.getChildren pred heightOf v wantChildren ++ L) := by
  induction rounds generalizing v wantChildren L n d with
  | zero => omega
  | succ rounds ih =>
    have hv := hp.mem hw.graded href
    rw [partialLoop]
    cases hchildren : if wantChildren then t.getChildren v else [] with
    | cons c cs =>
      -- The children are entered, the first child first.
      obtain ⟨rfl, hcs⟩ : wantChildren = true ∧ t.getChildren v = c :: cs := by
        cases wantChildren with
        | true => exact ⟨rfl, hchildren⟩
        | false => cases hchildren
      have happend : t.getChildren v = [] ++ c :: cs := hcs
      have hc := (hw.child_of_append hv happend).1
      have hpc : t.PendingAt pred ref c _ _ _ := .child hp happend
      have hlt := hw.toEnter_lt hc (pred c).2 ((cs.flatMap (subtree t.getChildren heightOf)).length + n)
      rw [toEnter, if_pos rfl, hcs, flatMap_cons, length_append] at hr
      rw [below, if_pos rfl, hcs, flatMap_cons, append_assoc]
      exact hw.takesFirst_enter hc hpc fun _ => ih hpc (by omega)
    | nil =>
      have hbelow : below t.getChildren pred heightOf v wantChildren = [] := by
        cases wantChildren with
        | true => rw [below, if_pos rfl, show t.getChildren v = [] from hchildren]; rfl
        | false => rfl
      rw [hbelow, nil_append]
      dsimp only
      cases hp with
      | ref => rw [if_pos rfl]; rfl
      | @child p _ before rest L n d hp hcs =>
        have hpmem := hp.mem hw.graded href
        have hsiblings : ∀ u ∈ rest, u ∈ t.nodes := by
          intro u hu
          refine ((hw.mem_getChildren_iff hpmem).mp ?_).1
          rw [hcs]
          exact mem_append_right _ (mem_cons_of_mem _ hu)
        have hne : v.id ≠ ref.id := by
          intro hid
          have hlen := hw.length_of_pending href (.child hp hcs)
          rw [hw.linked.eq_of_id hv href hid] at hlen
          omega
        obtain ⟨hparent, hafter⟩ := hw.after_child hpmem hcs
        rw [if_neg hne, hparent]
        dsimp only
        rw [hafter]
        cases hsib : siblingLoop pred rest with
        | some w =>
          -- The siblings before `w` are passed over.
          obtain ⟨-, skipped, rest', rfl, hskip⟩ := find?_eq_some_iff_append.mp hsib
          have hcs' : t.getChildren p = (before ++ v :: skipped) ++ w :: rest' := by
            rw [hcs]
            simp
          have hw' := (hw.child_of_append hpmem hcs').1
          have hpw : t.PendingAt pred ref w _ _ _ := .child hp hcs'
          have hnil : skipped.flatMap (enter t.getChildren pred heightOf) = [] := by
            refine flatMap_eq_nil_iff.mpr fun u hu => ?_
            exact hw.enter_eq_nil (hsiblings u (by simp [hu])) (by simpa using hskip u hu)
          rw [flatMap_append, hnil, nil_append, flatMap_cons, append_assoc]
          refine hw.takesFirst_enter hw' hpw fun _ => ih hpw ?_
          have hlt := hw.toEnter_lt hw' (pred w).2
            ((rest'.flatMap (subtree t.getChildren heightOf)).length + n)
          simp only [toEnter, flatMap_append, flatMap_cons, length_append] at hr hlt ⊢
          omega
        | none =>
          have hnil : rest.flatMap (enter t.getChildren pred heightOf) = [] := by
            refine flatMap_eq_nil_iff.mpr fun u hu => ?_
            exact hw.enter_eq_nil (hsiblings u hu) (find?_eq_none.mp hsib u hu)
          rw [hnil]
          have hless : t.toEnter p false n ≤ t.toEnter v wantChildren
              ((rest.flatMap (subtree t.getChildren heightOf)).length + n) := by
            simp only [toEnter, Bool.false_eq_true, if_false]
            omega
          exact ih hp (by omega)

theorem WellFormed.length_subtree_le (hv : v ∈ t.nodes) :
    (subtree t.getChildren heightOf v).length ≤ t.size := by
  have hnodup : (subtree t.getChildren heightOf v).Nodup :=
    hw.named.nodup_subtree hw.graded (fun _ hu => .of_map _ (hw.nodup_getChildren hu)) hv
  rw [hw.size_eq]
  exact (subperm_of_subset hnodup fun w hmem =>
    ((hw.named.mem_subtree_iff hw.graded hv).mp hmem).1).length_le

theorem WellFormed.rounds_suffice (href : ref ∈ t.nodes)
    (hp : t.PendingAt pred ref v L n d) (wantChildren : Bool) :
    2 * t.toEnter v wantChildren n + d < t.maxRounds := by
  have hv := hp.mem hw.graded href
  have hlt := hw.toEnter_lt hv wantChildren n
  have hle := hp.length_le hw.graded href
  have hsize := hw.length_subtree_le href
  have hlen := hw.length_of_pending href hp
  have hdepth := hw.linked.length_le v hv
  unfold maxRounds
  omega

/-- What remains for an iterator of a partial enumeration. -/
def partialRemaining (t : HashedTree κ φ π μ σ) (pred : Node κ φ π μ σ → Bool × Bool)
    (ref : Node κ φ π μ σ) :
    Option (Node κ φ π μ σ × Bool) → List (Option (Node κ φ π μ σ × Bool)) → Prop
  | none, l => l = (enter t.getChildren pred heightOf ref).map some
  | some s, l => ∃ l', t.remaining pred ref s l' ∧ l = l'.map some

omit hw in
theorem takes_partialRemaining (h : Takes (t.remaining pred ref) r L) :
    Takes (t.partialRemaining pred ref) (r.map (Option.map some)) (L.map some) := by
  cases L with
  | nil =>
    obtain rfl : r = some none := h
    rfl
  | cons s L =>
    obtain ⟨rfl, hremaining⟩ := h
    exact ⟨rfl, L, hremaining, rfl⟩

theorem WellFormed.visits_partialAdvance (href : ref ∈ t.nodes) :
    Visits (t.partialAdvance pred (some ref)) none
      ((enter t.getChildren pred heightOf ref).map some) := by
  refine visits_of_remaining (R := t.partialRemaining pred ref) (fun s l h => ?_) rfl
  cases s with
  | none =>
    obtain rfl : l = _ := h
    have hp : t.PendingAt pred ref ref [] 0 0 := .ref
    have hfirst := hw.takesFirst_enter href hp fun _ =>
      hw.partialLoop href hp (hw.rounds_suffice href hp (pred ref).2)
    rw [append_nil] at hfirst
    have hadvance : t.partialAdvance pred (some ref) none =
        (if (pred ref).1 then some (some (ref, (pred ref).2))
          else t.partialLoop pred ref t.maxRounds ref (pred ref).2).map (Option.map some) := by
      rw [partialAdvance]
      split <;> rfl
    rw [hadvance]
    exact takes_partialRemaining hfirst
  | some s =>
    obtain ⟨v, wantChildren⟩ := s
    obtain ⟨_, ⟨L, n, d, hp, rfl⟩, rfl⟩ := h
    exact takes_partialRemaining
      (hw.partialLoop href hp (hw.rounds_suffice href hp wantChildren))

theorem WellFormed.visits_partialEnumerate [DecidableEq κ] (name : List κ)
    (pred : Node κ φ π μ σ → Bool × Bool) :
    ∃ l : List (Node κ φ π μ σ × Bool),
      Visits (t.partialAdvance pred (t.findExactMatch hashOf name name.length)) none
        (l.map some) ∧
      (l.map Prod.fst).Pairwise (fun a b => ¬ b.name <+: a.name) ∧
      ∀ w, w ∈ l.map Prod.fst ↔ w ∈ t.nodes ∧ name <+: w.name ∧ (pred w).1 = true ∧
        ∀ u ∈ t.nodes, name <+: u.name → u.name <+: w.name → u ≠ w → (pred u).2 = true := by
  cases hfind : t.findExactMatch hashOf name name.length with
  | none =>
    refine ⟨[], .done rfl, List.Pairwise.nil, fun w => iff_of_false not_mem_nil ?_⟩
    rintro ⟨hmem, hpre, -⟩
    obtain ⟨v, hv, hname⟩ := hw.linked.exists_of_isPrefix hmem hpre
    have := hw.findExactMatch_eq_some_iff.mpr ⟨hv, hname.trans (take_length).symm⟩
    simp [hfind] at this
  | some ref =>
    obtain ⟨href, hname⟩ := hw.findExactMatch_eq_some_iff.mp hfind
    rw [take_length] at hname
    have hpairwise := hw.named.pairwise_subtree hw.graded
      (fun _ hu => .of_map _ (hw.nodup_getChildren hu)) href
    refine ⟨_, hw.visits_partialAdvance href,
      hpairwise.sublist (hw.graded.enter_sublist href), fun w => ?_⟩
    rw [← hname]
    exact hw.named.mem_enter_iff hw.graded href

end Partial

/-! ### Exactness -/

section Exact

variable {β : Type*} (plain : κ → β)

/-- A full enumeration visits each selected node once and no other, and ends. -/
def FullExact : Prop :=
  ∀ pred : Node κ φ π μ σ → Bool, ∃ l : List (Node κ φ π μ σ),
    Visits (t.fullAdvance pred) none (l.map some) ∧ l.Nodup ∧
      ∀ w, w ∈ l ↔ w ∈ t.nodes ∧ pred w = true

/-- A partial enumeration visits once the selected nodes at or under the prefix and not below one
whose children are declined, parents before children, and ends. -/
def PartialExact (t : HashedTree κ φ π μ σ) (name : List κ) : Prop :=
  ∀ pred : Node κ φ π μ σ → Bool × Bool, ∃ l : List (Node κ φ π μ σ × Bool),
    Visits (t.partialAdvance pred (t.findExactMatch hashOf name name.length)) none (l.map some) ∧
      (l.map Prod.fst).Nodup ∧ (l.map Prod.fst).Pairwise (fun a b => ¬ b.name <+: a.name) ∧
      ∀ w, w ∈ l.map Prod.fst ↔ w ∈ t.nodes ∧ name.map plain <+: w.name.map plain ∧
        (pred w).1 = true ∧ ∀ u ∈ t.nodes, name.map plain <+: u.name.map plain →
          u.name <+: w.name → u ≠ w → (pred u).2 = true

/-- The enumeration of all matches visits the selected prefixes of the name, each once, and ends. -/
def MatchesExact (t : HashedTree κ φ π μ σ) (name : List κ) : Prop :=
  ∀ pred : Node κ φ π μ σ → Bool, ∃ l : List (Node κ φ π μ σ),
    Visits (t.matchAdvance pred (t.findLongestPrefixMatch hashOf name pred)) none (l.map some) ∧
      l.Nodup ∧ ∀ w, w ∈ l ↔ w ∈ t.nodes ∧ pred w = true ∧ w.name.map plain <+: name.map plain

variable {hashOf plain t} {name : List κ}

omit [DecidableEq κ] in
theorem WellFormed.fullExact (hw : WellFormed hashOf t) : t.FullExact := fun pred =>
  ⟨t.nodes.filter pred, hw.visits_fullEnumerate pred,
    (List.Nodup.of_map _ hw.linked.nodup_id).filter _, fun _ => mem_filter⟩

omit [DecidableEq κ] in
theorem map_eq_map_of_isPrefix {l m : List κ} (h : l.map plain <+: m.map plain) :
    l.map plain = (m.take l.length).map plain := by
  rw [prefix_iff_eq_take] at h
  rw [h, length_map, map_take]

theorem WellFormed.partialExact_iff (hw : WellFormed hashOf t) :
    t.PartialExact hashOf plain name ↔
      ∀ v ∈ t.nodes, v.name.map plain = name.map plain → v.name = name := by
  constructor
  · intro h v hv heq
    obtain ⟨l, hl, -, -, hmem⟩ := h fun _ => (true, true)
    obtain ⟨l', hl', -, hmem'⟩ := hw.visits_partialEnumerate name fun _ => (true, true)
    have hsame : l = l' := map_injective_iff.mpr (some_injective _) (hl.unique hl')
    have hvisited : v ∈ l'.map Prod.fst :=
      hsame ▸ (hmem v).mpr ⟨hv, heq ▸ prefix_rfl, rfl, fun _ _ _ _ _ => rfl⟩
    have hpre := ((hmem' v).mp hvisited).2.1
    exact (hpre.eq_of_length (by simpa using (congrArg length heq).symm)).symm
  · intro h pred
    have hunder : ∀ w ∈ t.nodes, name.map plain <+: w.name.map plain ↔ name <+: w.name := by
      intro w hmem
      refine ⟨fun hpre => ?_, fun hpre => hpre.map plain⟩
      obtain ⟨v, hv, hname⟩ := hw.linked.exists_of_isPrefix hmem (List.take_prefix name.length w.name)
      rw [← h v hv (by rw [hname, ← map_eq_map_of_isPrefix hpre]), hname]
      exact take_prefix _ _
    obtain ⟨l, hl, hpairwise, hmem⟩ := hw.visits_partialEnumerate name pred
    refine ⟨l, hl, hpairwise.imp ?_, hpairwise, fun w => ?_⟩
    · rintro a _ hpre rfl
      exact hpre prefix_rfl
    rw [hmem]
    refine and_congr_right fun hw' => and_congr (hunder w hw').symm (and_congr_right fun _ => ?_)
    exact forall_congr' fun u => forall_congr' fun hu => imp_congr_left (hunder u hu).symm

theorem WellFormed.matchesExact_iff (hw : WellFormed hashOf t) :
    t.MatchesExact hashOf plain name ↔ t.AlikeUpTo plain name name.length := by
  constructor
  · intro h v hv i hi heq
    obtain ⟨l, hl, -, hmem⟩ := h fun _ => true
    obtain ⟨l', hl', -, hmem'⟩ := hw.visits_findAllMatches name fun _ => true
    have hsame : l = l' := map_injective_iff.mpr (some_injective _) (hl.unique hl')
    have hplain : v.name.map plain <+: name.map plain := heq ▸ (List.take_prefix i name).map plain
    have hpre := ((hmem' v).mp (hsame ▸ (hmem v).mpr ⟨hv, rfl, hplain⟩)).2.2
    have hlen := congrArg length heq
    rw [length_map, length_map, length_take, Nat.min_eq_left hi] at hlen
    rw [prefix_iff_eq_take.mp hpre, hlen]
  · intro h pred
    obtain ⟨l, hl, hnodup, hmem⟩ := hw.visits_findAllMatches name pred
    refine ⟨l, hl, hnodup, fun w => ?_⟩
    rw [hmem]
    refine and_congr_right fun hw' => and_congr_right fun _ => ?_
    refine ⟨fun hpre => hpre.map plain, fun hpre => ?_⟩
    have hlen : w.name.length ≤ name.length := by simpa using hpre.length_le
    rw [h w hw' _ hlen (map_eq_map_of_isPrefix hpre)]
    exact take_prefix _ _

end Exact

/-- In every reachable tree, a full enumeration is exact; a partial one is exact exactly for a
prefix that is encoded as the node it equals, and that of all matches exactly for a name that is
encoded as the nodes its prefixes equal. -/
theorem enumerations_exact (options : HashtableOptions) (hash : Bytes → ℕ)
    (ops : List (Op Block φ π μ σ)) :
    let t := Run.run (step options (hashOfWire hash)) (empty options) ops
    t.FullExact ∧
      (∀ name, t.PartialExact (hashOfWire hash) typeAndValue name ↔
        ∀ v ∈ t.nodes, v.name.map typeAndValue = name.map typeAndValue → v.name = name) ∧
      ∀ name, t.MatchesExact (hashOfWire hash) typeAndValue name ↔
        t.AlikeUpTo typeAndValue name name.length :=
  have hw := wellFormed_run ops
  ⟨hw.fullExact, fun _ => hw.partialExact_iff, fun _ => hw.matchesExact_iff⟩

/-- The entry of a name is not enumerated under the same name in another encoding. -/
theorem not_partialExact_longA :
    ¬ (Run.run (step smallTable (hashOfWire fun _ => 0))
        (empty smallTable : HashedTree Block Unit Unit Unit Unit)
        [.lookup [minimalA] 1]).PartialExact (hashOfWire fun _ => 0) typeAndValue [longA] := by
  rw [(wellFormed_run _).partialExact_iff]
  generalize ht : Run.run (step smallTable (hashOfWire fun _ => 0))
    (empty smallTable : HashedTree Block Unit Unit Unit Unit) [.lookup [minimalA] 1] = t
  intro h
  have hnames : t.nodes.map Node.name = [[minimalA], []] := by
    rw [← ht]
    decide
  obtain ⟨v, hv, hname⟩ : ∃ v ∈ t.nodes, v.name = [minimalA] :=
    mem_map.mp (by simp [hnames])
  have heq := h v hv (by rw [hname]; rfl)
  rw [hname] at heq
  exact absurd heq (by decide)

end HashedTree

end NdnFc
