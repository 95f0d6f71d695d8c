import NdnFc.Lib.KeyedList
import NdnFc.Name.Basic

/-!
# Name tree

The name tree is the index shared by the FIB, the PIT, the measurements and the strategy choice
table (`NFD-FC/daemon/table/name-tree.cpp`, `name-tree-entry.cpp`). Its nodes are named by prefixes
of at most `maxDepth` components. Here they are a list with distinct names, and pointers to nodes
are their names. The entries of the tables are arbitrary: `φ` FIB, `π` PIT, `μ` measurements and `σ`
strategy choice entries.
-/

namespace NdnFc

open List KeyedList

structure TableEntries (φ π μ σ : Type*) where
  fibEntry : Option φ
  pitEntries : List π
  measurementsEntry : Option μ
  strategyChoiceEntry : Option σ

namespace NameTree

structure Entry (φ π μ σ : Type*) where
  name : Name
  parent : Option Name
  children : List Name
  fibEntry : Option φ
  pitEntries : List π
  measurementsEntry : Option μ
  strategyChoiceEntry : Option σ

/-- `getMaxDepth` -/
def maxDepth : ℕ := 32

variable {φ π μ σ : Type*}

namespace Entry

variable (e : Entry φ π μ σ)

def hasTableEntries : Bool :=
  e.fibEntry.isSome || !e.pitEntries.isEmpty || e.measurementsEntry.isSome ||
    e.strategyChoiceEntry.isSome

def isEmpty : Bool :=
  e.children.isEmpty && !e.hasTableEntries

def tables : TableEntries φ π μ σ where
  fibEntry := e.fibEntry
  pitEntries := e.pitEntries
  measurementsEntry := e.measurementsEntry
  strategyChoiceEntry := e.strategyChoiceEntry

/-- A node as the hashtable creates it, below `parent`. -/
def create (name : Name) (parent : Option Name) : Entry φ π μ σ where
  name := name
  parent := parent
  children := []
  fibEntry := none
  pitEntries := []
  measurementsEntry := none
  strategyChoiceEntry := none

/-- `setParent`, seen from the parent. -/
def addChild (child : Name) (e : Entry φ π μ σ) : Entry φ π μ σ :=
  { e with children := e.children ++ [child] }

/-- `unsetParent`, seen from the parent. -/
def removeChild (child : Name) (e : Entry φ π μ σ) : Entry φ π μ σ :=
  { e with children := e.children.erase child }

def mapTables (f : TableEntries φ π μ σ → TableEntries φ π μ σ) (e : Entry φ π μ σ) :
    Entry φ π μ σ :=
  { e with
    fibEntry := (f e.tables).fibEntry
    pitEntries := (f e.tables).pitEntries
    measurementsEntry := (f e.tables).measurementsEntry
    strategyChoiceEntry := (f e.tables).strategyChoiceEntry }

/-- Change the PIT entries of a node (`insertPitEntry` and `erasePitEntry`). -/
def mapPitEntries (f : List π → List π) (e : Entry φ π μ σ) : Entry φ π μ σ :=
  { e with pitEntries := f e.pitEntries }

end Entry

/-! ### Nodes and links -/

def parentName (name : Name) : Option Name :=
  if name = [] then none else some name.dropLast

/-- The nodes have distinct names of bounded length, each node but the root has its parent, and the
links in both directions agree with the names. -/
structure WellFormed (nodes : List (Entry φ π μ σ)) : Prop where
  nodup : (nodes.map Entry.name).Nodup
  length_le : ∀ e ∈ nodes, e.name.length ≤ maxDepth
  parent_eq : ∀ e ∈ nodes, e.parent = parentName e.name
  dropLast_mem : ∀ e ∈ nodes, e.name ≠ [] → e.name.dropLast ∈ nodes.map Entry.name
  mem_children_iff : ∀ e ∈ nodes, ∀ c,
    c ∈ e.children ↔ c ∈ nodes.map Entry.name ∧ c ≠ [] ∧ c.dropLast = e.name
  nodup_children : ∀ e ∈ nodes, e.children.Nodup

variable (nodes : List (Entry φ π μ σ)) (name : Name)

/-- Create the node `name` and link it below `parent` (`setParent`). -/
def insertNode (parent : Option Name) : List (Entry φ π μ σ) :=
  match parent with
  | none => nodes ++ [.create name none]
  | some p =>
    update Entry.name nodes p (Entry.addChild name) ++ [.create name (some p)]

/-- Unlink the node `name` from its parent (`unsetParent`) and remove it. -/
def removeNode (parent : Option Name) : List (Entry φ π μ σ) :=
  match parent with
  | none => erase Entry.name nodes name
  | some p =>
    erase Entry.name (update Entry.name nodes p (Entry.removeChild name)) name

/-- One round of the loop of `lookup`: make sure the prefix of length `i` has a node. -/
def ensureNode (i : ℕ) : List (Entry φ π μ σ) :=
  if (get? Entry.name nodes (name.take i)).isSome then nodes
  else insertNode nodes (name.take i) (if i = 0 then none else some (name.take (i - 1)))

/-- The loop of `lookup`, over the prefixes of length `0` to `prefixLen`. -/
def lookupNodes (nodes : List (Entry φ π μ σ)) (name : Name) : ℕ → List (Entry φ π μ σ)
  | 0 => ensureNode nodes name 0
  | i + 1 => ensureNode (lookupNodes nodes name i) name (i + 1)

/-- The loop of `eraseIfEmpty`. Every round removes a node, so the first argument, the number of
nodes, bounds the number of rounds. -/
def eraseNodes (canEraseAncestors : Bool) :
    ℕ → List (Entry φ π μ σ) → Name → List (Entry φ π μ σ)
  | 0, nodes, _ => nodes
  | rounds + 1, nodes, name =>
    match get? Entry.name nodes name with
    | none => nodes
    | some entry =>
      if entry.isEmpty then
        let nodes' := removeNode nodes name entry.parent
        match canEraseAncestors, entry.parent with
        | true, some parent => eraseNodes canEraseAncestors rounds nodes' parent
        | _, _ => nodes'
      else nodes

def pitEntriesOf : List π :=
  ((get? Entry.name nodes name).map Entry.pitEntries).getD []

/-- What the tables have attached to the node `name`, and nothing if there is no such node. -/
def tablesOf : TableEntries φ π μ σ :=
  ((get? Entry.name nodes name).map Entry.tables).getD ⟨none, [], none, none⟩

variable {nodes : List (Entry φ π μ σ)} {name : Name}

theorem mem_insertNode_iff {e' : Entry φ π μ σ} :
    e' ∈ insertNode nodes name (parentName name) ↔
      (∃ e ∈ nodes, e' = { e with
        children := if name ≠ [] ∧ e.name = name.dropLast then e.children ++ [name]
          else e.children }) ∨ e' = .create name (parentName name) := by
  by_cases hn : name = []
  · simp [parentName, hn, insertNode]
  · simp only [parentName, hn, if_false, insertNode, update, mem_append,
      mem_map, mem_singleton, ne_eq, not_false_eq_true, true_and]
    refine or_congr (exists_congr fun e => and_congr Iff.rfl ?_) Iff.rfl
    by_cases h : e.name = name.dropLast <;> simp [h, eq_comm, Entry.addChild]

theorem map_name_insertNode :
    (insertNode nodes name (parentName name)).map Entry.name = nodes.map Entry.name ++ [name] := by
  by_cases hn : name = []
  · simp [parentName, hn, insertNode, Entry.create]
  · simp only [parentName, hn, if_false, insertNode, map_append, map_singleton]
    rw [map_key_update (f := Entry.addChild name) fun _ => rfl]
    rfl

theorem WellFormed.insertNode (h : WellFormed nodes) (hnew : name ∉ nodes.map Entry.name)
    (hlen : name.length ≤ maxDepth) (hparent : name ≠ [] → name.dropLast ∈ nodes.map Entry.name) :
    WellFormed (insertNode nodes name (parentName name)) := by
  have hnames : (NameTree.insertNode nodes name (parentName name)).map Entry.name = _ :=
    map_name_insertNode
  constructor
  · rw [hnames]
    exact nodup_append.mpr ⟨h.nodup, nodup_singleton _, by
      rintro a ha b hb rfl
      exact hnew (mem_singleton.mp hb ▸ ha)⟩
  all_goals
    intro e' he'
    rcases mem_insertNode_iff.mp he' with ⟨e, he, rfl⟩ | rfl
  · exact h.length_le e he
  · exact hlen
  · exact h.parent_eq e he
  · rfl
  · exact fun hne => hnames ▸ mem_append_left _ (h.dropLast_mem e he hne)
  · exact fun hne => hnames ▸ mem_append_left _ (hparent hne)
  · intro c
    have hc := h.mem_children_iff e he c
    rw [hnames, mem_append, mem_singleton]
    by_cases hp : name ≠ [] ∧ e.name = name.dropLast
    · simp only [if_pos hp, mem_append, mem_singleton, hc]
      constructor
      · rintro (⟨hm, h1, h2⟩ | rfl)
        · exact ⟨.inl hm, h1, h2⟩
        · exact ⟨.inr rfl, hp.1, hp.2.symm⟩
      · rintro ⟨hm | rfl, h1, h2⟩
        · exact .inl ⟨hm, h1, h2⟩
        · exact .inr rfl
    · simp only [if_neg hp, hc]
      constructor
      · rintro ⟨hm, h1, h2⟩
        exact ⟨.inl hm, h1, h2⟩
      · rintro ⟨hm | rfl, h1, h2⟩
        · exact ⟨hm, h1, h2⟩
        · exact absurd ⟨h1, h2.symm⟩ hp
  · -- the new node has no children: a node below it would have required it before
    intro c
    simp only [hnames, mem_append, mem_singleton, Entry.create, not_mem_nil, false_iff]
    rintro ⟨hm | rfl, h1, h2⟩
    · obtain ⟨e, he, rfl⟩ := mem_map.mp hm
      exact hnew (h2 ▸ h.dropLast_mem e he h1)
    · have := congrArg List.length h2
      have := length_pos_iff.mpr h1
      simp at *
      omega
  · by_cases hp : name ≠ [] ∧ e.name = name.dropLast
    · simp only [if_pos hp]
      refine nodup_append.mpr ⟨h.nodup_children e he, nodup_singleton _, ?_⟩
      rintro a ha b hb rfl
      exact hnew (mem_singleton.mp hb ▸ ((h.mem_children_iff e he a).mp ha).1)
    · simpa only [if_neg hp] using h.nodup_children e he
  · exact nodup_nil

theorem mem_removeNode_iff {e' : Entry φ π μ σ} :
    e' ∈ removeNode nodes name (parentName name) ↔
      ∃ e ∈ nodes, e.name ≠ name ∧ e' = { e with
        children := if name ≠ [] ∧ e.name = name.dropLast then e.children.erase name
          else e.children } := by
  by_cases hn : name = []
  · simp [parentName, hn, removeNode, erase]
  · simp only [parentName, hn, if_false, removeNode, update, erase,
      mem_filter, mem_map, ne_eq, not_false_eq_true, true_and, decide_eq_true_eq]
    constructor
    · rintro ⟨⟨e, he, rfl⟩, hne⟩
      refine ⟨e, he, ?_, ?_⟩ <;> by_cases h : e.name = name.dropLast <;>
        simp_all [Entry.removeChild]
    · rintro ⟨e, he, hne, rfl⟩
      refine ⟨⟨e, he, ?_⟩, hne⟩
      by_cases h : e.name = name.dropLast <;> simp [h, Entry.removeChild]

theorem map_name_removeNode (parent : Option Name) :
    (removeNode nodes name parent).map Entry.name =
      (nodes.map Entry.name).filter (· ≠ name) := by
  have herase (nodes : List (Entry φ π μ σ)) : (erase Entry.name nodes name).map Entry.name =
      (nodes.map Entry.name).filter (· ≠ name) := by
    rw [filter_map]
    rfl
  unfold removeNode
  split
  · exact herase nodes
  · rw [herase, map_key_update (f := Entry.removeChild name) fun _ => rfl]

theorem mem_map_name_removeNode_iff {n : Name} {parent : Option Name} :
    n ∈ (removeNode nodes name parent).map Entry.name ↔ n ∈ nodes.map Entry.name ∧ n ≠ name := by
  rw [map_name_removeNode, mem_filter, decide_eq_true_iff]

theorem WellFormed.removeNode (h : WellFormed nodes) {e₀ : Entry φ π μ σ}
    (he₀ : e₀ ∈ nodes) (hchildren : e₀.children = []) :
    WellFormed (removeNode nodes e₀.name (parentName e₀.name)) := by
  have hleaf : ∀ c ∈ nodes.map Entry.name, c ≠ [] → c.dropLast ≠ e₀.name := by
    intro c hc hne heq
    have := (h.mem_children_iff e₀ he₀ c).mpr ⟨hc, hne, heq⟩
    simp [hchildren] at this
  constructor
  · rw [map_name_removeNode]
    exact h.nodup.filter _
  all_goals
    intro e' he'
    obtain ⟨e, he, -, rfl⟩ := mem_removeNode_iff.mp he'
  · exact h.length_le e he
  · exact h.parent_eq e he
  · intro hne
    exact mem_map_name_removeNode_iff.mpr
      ⟨h.dropLast_mem e he hne, hleaf e.name (mem_map_of_mem he) hne⟩
  · intro c
    have hc := h.mem_children_iff e he c
    rw [mem_map_name_removeNode_iff]
    by_cases hp : e₀.name ≠ [] ∧ e.name = e₀.name.dropLast
    · simp only [if_pos hp, (h.nodup_children e he).mem_erase_iff, hc]
      tauto
    · simp only [if_neg hp, hc]
      constructor
      · rintro ⟨hm, h1, h2⟩
        exact ⟨⟨hm, fun heq => hp ⟨heq ▸ h1, heq ▸ h2.symm⟩⟩, h1, h2⟩
      · rintro ⟨⟨hm, -⟩, h1, h2⟩
        exact ⟨hm, h1, h2⟩
  · have := h.nodup_children e he
    dsimp only
    split
    · exact this.erase _
    · exact this

variable {f : Entry φ π μ σ → Entry φ π μ σ}

theorem WellFormed.update (h : WellFormed nodes) (name : Name)
    (hf : ∀ e, (f e).name = e.name ∧ (f e).parent = e.parent ∧ (f e).children = e.children) :
    WellFormed (KeyedList.update Entry.name nodes name f) := by
  have hnames : (KeyedList.update Entry.name nodes name f).map Entry.name =
      nodes.map Entry.name := map_key_update fun e => (hf e).1
  have hmem : ∀ e' ∈ KeyedList.update Entry.name nodes name f,
      ∃ e ∈ nodes, e'.name = e.name ∧ e'.parent = e.parent ∧ e'.children = e.children := by
    intro e' he'
    obtain ⟨e, he, rfl⟩ := mem_map.mp he'
    refine ⟨e, he, ?_⟩
    split
    · exact hf e
    · exact ⟨rfl, rfl, rfl⟩
  constructor
  · exact hnames ▸ h.nodup
  all_goals
    intro e' he'
    obtain ⟨e, he, hn, hp, hc⟩ := hmem e' he'
  · exact hn ▸ h.length_le e he
  · exact hp ▸ hn ▸ h.parent_eq e he
  · exact hnames ▸ hn ▸ h.dropLast_mem e he
  · rw [hnames, hn, hc]
    exact h.mem_children_iff e he
  · exact hc ▸ h.nodup_children e he

theorem tablesOf_update (p n : Name) (hname : ∀ e, (f e).name = e.name)
    (htables : ∀ e, (f e).tables = e.tables) :
    tablesOf (update Entry.name nodes p f) n = tablesOf nodes n := by
  rw [tablesOf, get?_update hname]
  split
  next h =>
    subst h
    rw [tablesOf, Option.map_map]
    congr 2
    funext e
    exact htables e
  next => rfl

theorem tablesOf_append_create (hnew : name ∉ nodes.map Entry.name) (parent : Option Name)
    (n : Name) : tablesOf (nodes ++ [.create name parent]) n = tablesOf nodes n := by
  have hnone : get? Entry.name nodes name = none :=
    get?_eq_none_iff_notMem.mpr hnew
  have hget : get? Entry.name (nodes ++ [.create name parent]) n = _ :=
    get?_append_singleton hnone
  rw [tablesOf, hget]
  split
  next h =>
    have hn : n = name := h
    rw [tablesOf, hn, hnone]
    rfl
  next => rfl

theorem tablesOf_insertNode (hnew : name ∉ nodes.map Entry.name) (parent : Option Name)
    (n : Name) : tablesOf (insertNode nodes name parent) n = tablesOf nodes n := by
  unfold insertNode
  split
  · exact tablesOf_append_create hnew none n
  · rename_i p
    rw [tablesOf_append_create,
      tablesOf_update p n (f := Entry.addChild name) (fun _ => rfl) fun _ => rfl]
    rwa [map_key_update (f := Entry.addChild name) fun _ => rfl]

theorem tablesOf_erase (hempty : tablesOf nodes name = ⟨none, [], none, none⟩) (n : Name) :
    tablesOf (erase Entry.name nodes name) n = tablesOf nodes n := by
  rw [tablesOf, get?_erase]
  split
  next h => rw [h, hempty]; rfl
  next => rfl

theorem tablesOf_removeNode (hempty : tablesOf nodes name = ⟨none, [], none, none⟩)
    (parent : Option Name) (n : Name) :
    tablesOf (removeNode nodes name parent) n = tablesOf nodes n := by
  unfold removeNode
  split
  · exact tablesOf_erase hempty n
  · rename_i p
    have hsame : ∀ n, tablesOf (update Entry.name nodes p (Entry.removeChild name)) n =
        tablesOf nodes n := fun n => tablesOf_update p n (fun _ => rfl) fun _ => rfl
    rw [tablesOf_erase (by rw [hsame, hempty]), hsame]

/-! ### The loops of `lookup` and `eraseIfEmpty` -/

variable {i : ℕ}

theorem take_ne_nil (hi : i ≤ name.length) (h : i ≠ 0) : name.take i ≠ [] := by
  rw [Ne, take_eq_nil_iff]
  rintro (h' | rfl)
  · exact h h'
  · exact h (by simpa using hi)

theorem dropLast_take (hi : i ≤ name.length) : (name.take i).dropLast = name.take (i - 1) := by
  rw [dropLast_eq_take, take_take, length_take, Nat.min_eq_left hi,
    Nat.min_eq_left (Nat.sub_le i 1)]

theorem parentName_take (hi : i ≤ name.length) :
    parentName (name.take i) = if i = 0 then none else some (name.take (i - 1)) := by
  by_cases h : i = 0
  · simp [parentName, h]
  · rw [parentName, if_neg (take_ne_nil hi h), if_neg h, dropLast_take hi]

theorem mem_names_ensureNode_iff (hi : i ≤ name.length) {n : Name} :
    n ∈ (ensureNode nodes name i).map Entry.name ↔
      n ∈ nodes.map Entry.name ∨ n = name.take i := by
  rw [ensureNode]
  split
  next hfound =>
    refine ⟨.inl, fun h => h.elim id fun heq => ?_⟩
    rw [heq]
    exact isSome_get?_iff.mp hfound
  next =>
    rw [← parentName_take hi, map_name_insertNode, mem_append, mem_singleton]

theorem mem_names_lookupNodes_iff (hi : i ≤ name.length) {n : Name} :
    n ∈ (lookupNodes nodes name i).map Entry.name ↔
      n ∈ nodes.map Entry.name ∨ n <+: name.take i := by
  induction i with
  | zero =>
    rw [lookupNodes, mem_names_ensureNode_iff hi, take_zero, prefix_nil]
  | succ i ih =>
    rw [lookupNodes, mem_names_ensureNode_iff hi, ih (by omega), or_assoc,
      ← take_append_getElem (by omega : i < name.length), prefix_concat_iff]
    tauto

section

variable (h : WellFormed nodes) (hi : i ≤ name.length) (hdepth : i ≤ maxDepth)

include h hi hdepth

/-- One round, given that the parent of the new node is there. -/
theorem ensureNode_spec (hparent : i ≠ 0 → name.take (i - 1) ∈ nodes.map Entry.name) :
    WellFormed (ensureNode nodes name i) ∧
      ∀ n, tablesOf (ensureNode nodes name i) n = tablesOf nodes n := by
  rw [ensureNode]
  split
  next => exact ⟨h, fun _ => rfl⟩
  next hfound =>
    have hnew : name.take i ∉ nodes.map Entry.name := fun hm => hfound (isSome_get?_iff.mpr hm)
    rw [← parentName_take hi]
    refine ⟨h.insertNode hnew (by simp; omega) fun hne => ?_, tablesOf_insertNode hnew _⟩
    rw [dropLast_take hi]
    exact hparent fun h0 => hne (by simp [h0])

theorem lookupNodes_spec : WellFormed (lookupNodes nodes name i) ∧
    ∀ n, tablesOf (lookupNodes nodes name i) n = tablesOf nodes n := by
  induction i with
  | zero => exact ensureNode_spec h hi hdepth fun h0 => absurd rfl h0
  | succ i ih =>
    obtain ⟨hwf, htables⟩ := ih (by omega) (by omega)
    obtain ⟨hwf', htables'⟩ := ensureNode_spec hwf hi hdepth fun _ =>
      (mem_names_lookupNodes_iff (by omega)).mpr (.inr prefix_rfl)
    exact ⟨hwf', fun n => (htables' n).trans (htables n)⟩

end

theorem Entry.isEmpty_iff {e : Entry φ π μ σ} :
    e.isEmpty ↔ e.children = [] ∧ e.fibEntry = none ∧ e.pitEntries = [] ∧
      e.measurementsEntry = none ∧ e.strategyChoiceEntry = none := by
  simp [Entry.isEmpty, Entry.hasTableEntries, and_assoc]

theorem eraseNodes_spec (canEraseAncestors : Bool) (rounds : ℕ) (h : WellFormed nodes)
    (name : Name) :
    WellFormed (eraseNodes canEraseAncestors rounds nodes name) ∧
      ∀ n, tablesOf (eraseNodes canEraseAncestors rounds nodes name) n =
        tablesOf nodes n := by
  induction rounds generalizing nodes name with
  | zero => exact ⟨h, fun _ => rfl⟩
  | succ rounds ih =>
    rw [eraseNodes]
    split
    next => exact ⟨h, fun _ => rfl⟩
    next entry hget =>
      split
      next hempty =>
        obtain ⟨hchildren, hfib, hpits, hmeas, hchoice⟩ := Entry.isEmpty_iff.mp hempty
        have hmem := mem_of_get? hget
        have hname : entry.name = name := key_of_get? hget
        have hwf := h.removeNode hmem hchildren
        rw [← h.parent_eq entry hmem, hname] at hwf
        have hnone : tablesOf nodes name = ⟨none, [], none, none⟩ := by
          rw [tablesOf, hget, Option.map_some, Option.getD_some, Entry.tables, hfib, hpits, hmeas,
            hchoice]
        have htables := tablesOf_removeNode hnone entry.parent
        split
        next parent _ =>
          obtain ⟨hwf', htables'⟩ := ih hwf parent
          exact ⟨hwf', fun n => (htables' n).trans (htables n)⟩
        next => exact ⟨hwf, htables⟩
      next => exact ⟨h, fun _ => rfl⟩

theorem length_removeNode_lt (h : name ∈ nodes.map Entry.name) (parent : Option Name) :
    (removeNode nodes name parent).length < nodes.length := by
  rw [← length_map Entry.name, map_name_removeNode]
  exact (length_filter_lt_length_iff_exists.mpr ⟨name, h, by simp⟩).trans_eq (length_map _)

theorem isEmpty_of_mem_eraseNodes {rounds : ℕ} (h : WellFormed nodes)
    (hrounds : nodes.length ≤ rounds) {e : Entry φ π μ σ}
    (he : e ∈ eraseNodes true rounds nodes name) (hempty : e.isEmpty) :
    e ∈ nodes ∧ e.name ≠ name := by
  induction rounds generalizing nodes name with
  | zero =>
    rw [length_eq_zero_iff.mp (Nat.le_zero.mp hrounds)] at he
    cases he
  | succ rounds ih =>
    rw [eraseNodes] at he
    cases hget : get? Entry.name nodes name with
    | none =>
      rw [hget] at he
      exact ⟨he, get?_eq_none_iff.mp hget e he⟩
    | some entry =>
      rw [hget] at he
      obtain ⟨hmem, hname⟩ := (get?_eq_some_iff h.nodup).mp hget
      by_cases hentry : entry.isEmpty
      · have hparent := h.parent_eq entry hmem
        have hwf := h.removeNode hmem (Entry.isEmpty_iff.mp hentry).1
        rw [hname] at hparent hwf
        simp only [hentry, if_true, hparent] at he
        have hlength : (removeNode nodes name (parentName name)).length ≤ rounds := by
          have hlt := length_removeNode_lt (mem_map.mpr ⟨entry, hmem, hname⟩) (parentName name)
          omega
        -- a node that lost a child is the next one to be looked at
        by_cases hroot : name = []
        · have hnone : parentName name = none := if_pos hroot
          have hin : e ∈ removeNode nodes name (parentName name) := by
            rw [hnone] at he ⊢
            exact he
          obtain ⟨e₀, he₀, hne, rfl⟩ := mem_removeNode_iff.mp hin
          rw [if_neg fun hc => hc.1 hroot]
          exact ⟨he₀, hne⟩
        · have hsome : parentName name = some name.dropLast := if_neg hroot
          have hrest : e ∈ eraseNodes true rounds (removeNode nodes name (parentName name))
              name.dropLast := by
            rw [hsome] at he ⊢
            exact he
          obtain ⟨hin, hnot⟩ := ih hwf hlength hrest
          obtain ⟨e₀, he₀, hne, rfl⟩ := mem_removeNode_iff.mp hin
          rw [if_neg fun hc => hnot hc.2]
          exact ⟨he₀, hne⟩
      · simp only [hentry] at he
        refine ⟨he, fun heq => hentry ?_⟩
        have hsame := get?_of_mem h.nodup he
        rw [heq, hget] at hsame
        obtain rfl := Option.some.inj hsame
        exact hempty

end NameTree

structure NameTree (φ π μ σ : Type*) where
  nodes : List (NameTree.Entry φ π μ σ)
  wellFormed : NameTree.WellFormed nodes

namespace NameTree

variable {φ π μ σ : Type*}

def empty : NameTree φ π μ σ where
  nodes := []
  wellFormed := by constructor <;> simp

variable (t : NameTree φ π μ σ) (name : Name)

def find? : Option (Entry φ π μ σ) :=
  get? Entry.name t.nodes name

/-- `lookup(name, prefixLen)`: make sure that the prefix and all prefixes of it have nodes. The
node returned by the source is that of `name.take prefixLen`. -/
def lookup (prefixLen : ℕ) (hlen : prefixLen ≤ name.length)
    (hdepth : prefixLen ≤ maxDepth) : NameTree φ π μ σ where
  nodes := lookupNodes t.nodes name prefixLen
  wellFormed := (lookupNodes_spec t.wellFormed hlen hdepth).1

def findExactMatch (prefixLen : ℕ) : Option (Entry φ π μ σ) :=
  let prefixLen := min name.length prefixLen
  if maxDepth < prefixLen then none else t.find? (name.take prefixLen)

def eraseIfEmpty (canEraseAncestors : Bool) : NameTree φ π μ σ where
  nodes := eraseNodes canEraseAncestors t.nodes.length t.nodes name
  wellFormed := (eraseNodes_spec canEraseAncestors _ t.wellFormed name).1

def modifyTables (f : TableEntries φ π μ σ → TableEntries φ π μ σ) : NameTree φ π μ σ where
  nodes := update Entry.name t.nodes name (Entry.mapTables f)
  wellFormed := t.wellFormed.update name fun _ => ⟨rfl, rfl, rfl⟩

def modifyPitEntries (f : List π → List π) : NameTree φ π μ σ where
  nodes := update Entry.name t.nodes name (Entry.mapPitEntries f)
  wellFormed := t.wellFormed.update name fun _ => ⟨rfl, rfl, rfl⟩

def pitEntriesAt : List π :=
  pitEntriesOf t.nodes name

def tablesAt : TableEntries φ π μ σ :=
  tablesOf t.nodes name

/-- The loop of `findLongestPrefixMatch` over the prefixes of length `i` to `0`. -/
def longestMatchFrom (t : NameTree φ π μ σ) (name : Name)
    (entrySelector : Entry φ π μ σ → Bool) : ℕ → Option (Entry φ π μ σ)
  | 0 => (t.find? (name.take 0)).filter entrySelector
  | i + 1 => ((t.find? (name.take (i + 1))).filter entrySelector).or
      (longestMatchFrom t name entrySelector i)

variable (entrySelector : Entry φ π μ σ → Bool)

def findLongestPrefixMatch : Option (Entry φ π μ σ) :=
  t.longestMatchFrom name entrySelector (min name.length maxDepth)

/-- A node and its ancestors, following the parent pointers. A node has no more ancestors than its
name has components, which bounds the walk. -/
def selfAndAncestors (t : NameTree φ π μ σ) : ℕ → Entry φ π μ σ → List (Entry φ π μ σ)
  | 0, e => [e]
  | k + 1, e =>
    e :: match e.parent.bind t.find? with
      | none => []
      | some parent => selfAndAncestors t k parent

/-- `findAllMatches`: the longest match and the selected nodes above it. -/
def findAllMatches : List (Entry φ π μ σ) :=
  match t.findLongestPrefixMatch name entrySelector with
  | none => []
  | some e => (t.selfAndAncestors e.name.length e).filter entrySelector

/-! ### What the operations do to the PIT entries -/

variable {t : NameTree φ π μ σ} {e : Entry φ π μ σ} {name n : Name}

theorem find?_eq_some_iff : t.find? n = some e ↔ e ∈ t.nodes ∧ e.name = n :=
  get?_eq_some_iff t.wellFormed.nodup

theorem mem_pitEntriesAt_iff {entry : π} :
    entry ∈ t.pitEntriesAt n ↔ ∃ e ∈ t.nodes, e.name = n ∧ entry ∈ e.pitEntries := by
  rw [pitEntriesAt, pitEntriesOf]
  cases h : get? Entry.name t.nodes n with
  | none =>
    have hno := get?_eq_none_iff.mp h
    simp only [Option.map_none, Option.getD_none, not_mem_nil, false_iff]
    rintro ⟨e, he, hn, -⟩
    exact hno e he hn
  | some e =>
    simp only [Option.map_some, Option.getD_some]
    constructor
    · intro hentry
      exact ⟨e, mem_of_get? h, key_of_get? h, hentry⟩
    · rintro ⟨e', he', rfl, hentry⟩
      have := get?_of_mem t.wellFormed.nodup he'
      rw [h] at this
      cases this
      exact hentry

theorem pitEntriesAt_eq (t : NameTree φ π μ σ) (n : Name) :
    t.pitEntriesAt n = (t.tablesAt n).pitEntries := by
  rw [pitEntriesAt, pitEntriesOf, tablesAt, tablesOf]
  cases get? Entry.name t.nodes n <;> rfl

variable {prefixLen : ℕ} {entrySelector : Entry φ π μ σ → Bool}

section

variable (hlen : prefixLen ≤ name.length) (hdepth : prefixLen ≤ maxDepth)

include hlen hdepth

theorem tablesAt_lookup : (t.lookup name prefixLen hlen hdepth).tablesAt n = t.tablesAt n :=
  (lookupNodes_spec t.wellFormed hlen hdepth).2 n

theorem pitEntriesAt_lookup :
    (t.lookup name prefixLen hlen hdepth).pitEntriesAt n = t.pitEntriesAt n := by
  rw [pitEntriesAt_eq, pitEntriesAt_eq, tablesAt_lookup]

theorem isSome_find?_lookup :
    ((t.lookup name prefixLen hlen hdepth).find? (name.take prefixLen)).isSome :=
  isSome_get?_iff.mpr ((mem_names_lookupNodes_iff hlen).mpr (.inr prefix_rfl))

end

variable (canEraseAncestors : Bool)

theorem tablesAt_eraseIfEmpty : (t.eraseIfEmpty name canEraseAncestors).tablesAt n = t.tablesAt n :=
  (eraseNodes_spec canEraseAncestors _ t.wellFormed name).2 n

theorem pitEntriesAt_eraseIfEmpty :
    (t.eraseIfEmpty name canEraseAncestors).pitEntriesAt n = t.pitEntriesAt n := by
  rw [pitEntriesAt_eq, pitEntriesAt_eq, tablesAt_eraseIfEmpty]

theorem tablesAt_modifyTables {f : TableEntries φ π μ σ → TableEntries φ π μ σ}
    (hf : f ⟨none, [], none, none⟩ = ⟨none, [], none, none⟩ ∨ (t.find? name).isSome) :
    (t.modifyTables name f).tablesAt n =
      if n = name then f (t.tablesAt n) else t.tablesAt n := by
  rw [tablesAt, tablesOf, modifyTables,
    get?_update (f := Entry.mapTables f) fun _ => rfl]
  split
  next h =>
    subst h
    rw [tablesAt, tablesOf]
    rw [find?] at hf
    cases hget : get? Entry.name t.nodes n with
    | none =>
      have : f ⟨none, [], none, none⟩ = ⟨none, [], none, none⟩ := by simpa [hget] using hf
      exact this.symm
    | some e => rfl
  next => rfl

theorem modifyPitEntries_eq (t : NameTree φ π μ σ) (name : Name) (f : List π → List π) :
    t.modifyPitEntries name f =
      t.modifyTables name fun tables => { tables with pitEntries := f tables.pitEntries } :=
  rfl

theorem pitEntriesAt_modifyPitEntries {f : List π → List π}
    (hf : f [] = [] ∨ (t.find? name).isSome) :
    (t.modifyPitEntries name f).pitEntriesAt n =
      if n = name then f (t.pitEntriesAt n) else t.pitEntriesAt n := by
  have hempty : f [] = [] → (⟨none, f [], none, none⟩ : TableEntries φ π μ σ) =
      ⟨none, [], none, none⟩ := fun h => by rw [h]
  rw [pitEntriesAt_eq, pitEntriesAt_eq, modifyPitEntries_eq,
    tablesAt_modifyTables (hf.imp_left hempty)]
  split <;> rfl

/-! ### Matching nodes -/

theorem exists_parent (he : e ∈ t.nodes) (hnil : e.name ≠ []) :
    ∃ p ∈ t.nodes, p.name = e.name.dropLast ∧ (parentName e.name).bind t.find? = some p := by
  obtain ⟨p, hp, hpname⟩ := mem_map.mp (t.wellFormed.dropLast_mem e he hnil)
  rw [parentName, if_neg hnil]
  exact ⟨p, hp, hpname, find?_eq_some_iff.mpr ⟨hp, hpname⟩⟩

theorem mem_selfAndAncestors_iff {k : ℕ} {e' : Entry φ π μ σ} (he : e ∈ t.nodes)
    (hk : e.name.length ≤ k) :
    e' ∈ t.selfAndAncestors k e ↔ e' ∈ t.nodes ∧ e'.name <+: e.name := by
  have hunique : ∀ {a b : Entry φ π μ σ}, a ∈ t.nodes → b ∈ t.nodes → a.name = b.name → a = b :=
    fun ha hb hab => Option.some.inj
      ((find?_eq_some_iff.mpr ⟨ha, hab⟩).symm.trans (find?_eq_some_iff.mpr ⟨hb, rfl⟩))
  induction k generalizing e with
  | zero =>
    have hnil : e.name = [] := length_eq_zero_iff.mp (Nat.le_zero.mp hk)
    simp only [selfAndAncestors, mem_singleton, hnil, prefix_nil]
    constructor
    · rintro rfl
      exact ⟨he, hnil⟩
    · rintro ⟨he', hnil'⟩
      exact hunique he' he (hnil'.trans hnil.symm)
  | succ k ih =>
    have hself : e' = e ↔ e' ∈ t.nodes ∧ e'.name = e.name :=
      ⟨fun h => by simp [h, he], fun h => hunique h.1 he h.2⟩
    rw [selfAndAncestors, t.wellFormed.parent_eq e he, mem_cons, hself]
    by_cases hnil : e.name = []
    · simp [parentName, hnil]
    · obtain ⟨p, hp, hpname, hfind⟩ := exists_parent he hnil
      have hplen : p.name.length ≤ k := by
        rw [hpname, length_dropLast]
        omega
      rw [hfind]
      have hpre : e'.name <+: e.name ↔ e'.name = e.name ∨ e'.name <+: e.name.dropLast := by
        have h : e'.name <+: e.name.dropLast ++ [e.name.getLast hnil] ↔ _ :=
          prefix_concat_iff
        rwa [dropLast_append_getLast hnil] at h
      simp only [ih hp hplen, hpname, ← and_or_left, hpre]

theorem nodup_selfAndAncestors {k : ℕ} (he : e ∈ t.nodes) (hk : e.name.length ≤ k) :
    (t.selfAndAncestors k e).Nodup := by
  induction k generalizing e with
  | zero => exact nodup_singleton e
  | succ k ih =>
    rw [selfAndAncestors, t.wellFormed.parent_eq e he]
    by_cases hnil : e.name = []
    · simp [parentName, hnil]
    · obtain ⟨p, hp, hpname, hfind⟩ := exists_parent he hnil
      have hlen : p.name.length + 1 = e.name.length := by
        have := length_pos_iff.mpr hnil
        rw [hpname, length_dropLast]
        omega
      rw [hfind]
      refine nodup_cons.mpr ⟨fun hmem => ?_, ih hp (by omega)⟩
      -- the node itself is longer than everything above it
      have := ((mem_selfAndAncestors_iff hp (by omega)).mp hmem).2.length_le
      omega

theorem longestMatchFrom_eq_some {i : ℕ} (h : t.longestMatchFrom name entrySelector i = some e) :
    e ∈ t.nodes ∧ entrySelector e ∧ ∃ j ≤ i, e.name = name.take j ∧
      ∀ k, j < k → k ≤ i → ∀ e' ∈ t.nodes, e'.name = name.take k → ¬ entrySelector e' := by
  induction i with
  | zero =>
    obtain ⟨hfind, hsel⟩ := Option.filter_eq_some_iff.mp h
    obtain ⟨hmem, hname⟩ := find?_eq_some_iff.mp hfind
    exact ⟨hmem, hsel, 0, le_rfl, hname, fun k h0 hk => by omega⟩
  | succ i ih =>
    rw [longestMatchFrom] at h
    cases hcase : (t.find? (name.take (i + 1))).filter entrySelector with
    | some e' =>
      rw [hcase] at h
      cases h
      obtain ⟨hfind, hsel⟩ := Option.filter_eq_some_iff.mp hcase
      obtain ⟨hmem, hname⟩ := find?_eq_some_iff.mp hfind
      exact ⟨hmem, hsel, i + 1, le_rfl, hname, fun k h0 hk => by omega⟩
    | none =>
      rw [hcase] at h
      obtain ⟨hmem, hsel, j, hj, hname, hmax⟩ := ih h
      refine ⟨hmem, hsel, j, by omega, hname, fun k hjk hk e' he' hname' => ?_⟩
      rcases Nat.lt_or_ge i k with hik | hik
      · have hk' : k = i + 1 := by omega
        subst hk'
        have hfind := find?_eq_some_iff.mpr ⟨he', hname'⟩
        intro hsel'
        rw [hfind] at hcase
        simp [hsel'] at hcase
      · exact hmax k hjk hik e' he' hname'

theorem longestMatchFrom_eq_none {i : ℕ} (h : t.longestMatchFrom name entrySelector i = none)
    {k : ℕ} (hk : k ≤ i) (he : e ∈ t.nodes) (hname : e.name = name.take k) : ¬ entrySelector e := by
  have hfind := find?_eq_some_iff.mpr ⟨he, hname⟩
  induction i with
  | zero =>
    obtain rfl : k = 0 := by omega
    intro hsel
    rw [longestMatchFrom, hfind] at h
    simp [hsel] at h
  | succ i ih =>
    rw [longestMatchFrom] at h
    obtain ⟨hlast, hrest⟩ := Option.or_eq_none_iff.mp h
    rcases Nat.lt_or_ge i k with hik | hik
    · obtain rfl : k = i + 1 := by omega
      intro hsel
      rw [hfind] at hlast
      simp [hsel] at hlast
    · exact ih hrest hik

theorem mem_findAllMatches_iff :
    e ∈ t.findAllMatches name entrySelector ↔
      e ∈ t.nodes ∧ entrySelector e ∧ e.name <+: name := by
  -- a node that matches is the node of a prefix the search looks at
  have hlook : ∀ {e : Entry φ π μ σ}, e ∈ t.nodes → e.name <+: name →
      e.name.length ≤ min name.length maxDepth ∧ e.name = name.take e.name.length :=
    fun he hp => ⟨le_min hp.length_le (t.wellFormed.length_le _ he),
      prefix_iff_eq_take.mp hp⟩
  unfold findAllMatches
  split
  next hnone =>
    simp only [not_mem_nil, false_iff]
    rintro ⟨he, hsel, hp⟩
    exact longestMatchFrom_eq_none hnone (hlook he hp).1 he (hlook he hp).2 hsel
  next e₀ hsome =>
    obtain ⟨he₀, -, j, hj, hname₀, hmax⟩ := longestMatchFrom_eq_some hsome
    have hp₀ : e₀.name <+: name := hname₀ ▸ List.take_prefix j name
    rw [mem_filter, mem_selfAndAncestors_iff he₀ le_rfl]
    constructor
    · rintro ⟨⟨he, hp⟩, hsel⟩
      exact ⟨he, hsel, hp.trans hp₀⟩
    · rintro ⟨he, hsel, hp⟩
      obtain ⟨hle, htake⟩ := hlook he hp
      refine ⟨⟨he, ?_⟩, hsel⟩
      rcases Nat.lt_or_ge j e.name.length with hlt | hge
      · exact absurd hsel (hmax _ hlt hle e he htake)
      · rw [htake, hname₀]
        exact take_prefix_take_left (by simpa using hge)

theorem nodup_findAllMatches : (t.findAllMatches name entrySelector).Nodup := by
  unfold findAllMatches
  split
  next => exact nodup_nil
  next e₀ hsome =>
    exact (nodup_selfAndAncestors (longestMatchFrom_eq_some hsome).1 le_rfl).filter _

end NameTree

end NdnFc
