import NdnFc.Lib.BucketTable
import NdnFc.Lib.Run
import NdnFc.Name.CanonicalOrder
import NdnFc.Table.NameTree

/-!
# Name tree in its hashtable

The nodes of the name tree are in a hashtable with chaining that grows and shrinks
(`NFD-FC/daemon/table/name-tree-hashtable.cpp`, `name-tree.cpp`), and the links of the tree are
pointers, here numbers that the nodes keep. The tree is over encoded components of a type `κ` with
arbitrary hash values `hashOf`. When the hashtable is resized is an arbitrary function of the number
of buckets (`HashtableOptions`).
-/

namespace NdnFc

open List KeyedList

/-- When and how the hashtable is resized, by the number of buckets. -/
structure HashtableOptions where
  initialSize : ℕ
  minSize : ℕ
  expandThreshold : ℕ → ℕ
  shrinkThreshold : ℕ → ℕ
  expandedSize : ℕ → ℕ
  shrunkSize : ℕ → ℕ
  minSize_pos : 0 < minSize
  minSize_le : minSize ≤ initialSize
  expandedSize_pos : ∀ n, 0 < n → 0 < expandedSize n

namespace HashedTree

variable {κ φ π μ σ : Type*}

/-- A node of the hashtable with its entry of the name tree. -/
structure Node (κ φ π μ σ : Type*) where
  id : ℕ
  hash : ℕ
  name : List κ
  parent : Option ℕ
  children : List ℕ
  tables : TableEntries φ π μ σ

namespace Node

variable (v : Node κ φ π μ σ)

def hasTableEntries : Bool :=
  v.tables.fibEntry.isSome || !v.tables.pitEntries.isEmpty ||
    v.tables.measurementsEntry.isSome || v.tables.strategyChoiceEntry.isSome

def isEmpty : Bool :=
  v.children.isEmpty && !v.hasTableEntries

def create (id hash : ℕ) (name : List κ) : Node κ φ π μ σ where
  id := id
  hash := hash
  name := name
  parent := none
  children := []
  tables := ⟨none, [], none, none⟩

/-- `setParent`, on the node itself. -/
def setParent (p : ℕ) (v : Node κ φ π μ σ) : Node κ φ π μ σ :=
  { v with parent := some p }

/-- `setParent`, on the parent. -/
def addChild (c : ℕ) (v : Node κ φ π μ σ) : Node κ φ π μ σ :=
  { v with children := v.children ++ [c] }

/-- `unsetParent`, on the node itself. -/
def unsetParent : Node κ φ π μ σ :=
  { v with parent := none }

/-- `unsetParent`, on the parent. -/
def removeChild (c : ℕ) (v : Node κ φ π μ σ) : Node κ φ π μ σ :=
  { v with children := v.children.erase c }

/-- Attach or detach table entries. -/
def setTables (f : TableEntries φ π μ σ → TableEntries φ π μ σ) (v : Node κ φ π μ σ) :
    Node κ φ π μ σ :=
  { v with tables := f v.tables }

end Node

/-! ### Hash values -/

variable (hashOf : κ → ℕ) (name : List κ)

def computeHash (prefixLen : ℕ) : ℕ :=
  (name.take prefixLen).foldl (fun h comp => h ^^^ hashOf comp) 0

def computeHashes (prefixLen : ℕ) : List ℕ :=
  (name.take prefixLen).scanl (fun h comp => h ^^^ hashOf comp) 0

theorem getElem?_computeHashes {name : List κ} {prefixLen i : ℕ}
    (hi : i ≤ prefixLen) (hlen : prefixLen ≤ name.length) :
    (computeHashes hashOf name prefixLen)[i]? = some (computeHash hashOf name i) := by
  rw [computeHashes, getElem?_scanl, length_take, if_pos (by omega), take_take,
    Nat.min_eq_left hi, computeHash]

theorem computeHash_take (i : ℕ) :
    computeHash hashOf (name.take i) (name.take i).length = computeHash hashOf name i := by
  rw [computeHash, take_length, computeHash]

end HashedTree

/-- The hashtable that stores the tree. `nextId` is the number of the next node. -/
structure HashedTree (κ φ π μ σ : Type*) where
  buckets : List (List (HashedTree.Node κ φ π μ σ))
  size : ℕ
  nextId : ℕ

namespace HashedTree

variable {κ φ π μ σ : Type*} [DecidableEq κ] (options : HashtableOptions) (hashOf : κ → ℕ)

def empty : HashedTree κ φ π μ σ where
  buckets := replicate options.initialSize []
  size := 0
  nextId := 0

variable (t : HashedTree κ φ π μ σ)

def nodes : List (Node κ φ π μ σ) :=
  t.buckets.flatten

variable (id : ℕ)

def node? : Option (Node κ φ π μ σ) :=
  get? Node.id t.nodes id

def modify (f : Node κ φ π μ σ → Node κ φ π μ σ) : HashedTree κ φ π μ σ :=
  { t with buckets := t.buckets.map (map fun v => if v.id = id then f v else v) }

def resize (newNBuckets : ℕ) : HashedTree κ φ π μ σ :=
  { t with buckets := BucketTable.resize Node.hash t.buckets newNBuckets }

variable (name : List κ)

/-- `findOrInsert` without insertion: the node with the given name in the bucket of the hash value. -/
def find? (h : ℕ) : Option (Node κ φ π μ σ) :=
  (BucketTable.bucket t.buckets h).find? fun v => v.hash == h && v.name == name

/-- `findOrInsert` with insertion. Returns the node and whether it is new. -/
def insert (h : ℕ) : HashedTree κ φ π μ σ × ℕ × Bool :=
  match t.find? name h with
  | some v => (t, v.id, false)
  | none =>
    let t' : HashedTree κ φ π μ σ :=
      { buckets := BucketTable.attach Node.hash t.buckets (.create t.nextId h name)
        size := t.size + 1
        nextId := t.nextId + 1 }
    let t' :=
      if options.expandThreshold t'.buckets.length < t'.size then
        t'.resize (options.expandedSize t'.buckets.length)
      else t'
    (t', t.nextId, true)

def erase (h : ℕ) : HashedTree κ φ π μ σ :=
  let t' : HashedTree κ φ π μ σ :=
    { t with
      buckets := BucketTable.detach (fun v => v.id = id) t.buckets h
      size := t.size - 1 }
  if t'.size < options.shrinkThreshold t'.buckets.length then
    t'.resize (max options.minSize (options.shrunkSize t'.buckets.length))
  else t'

def setParent (p : ℕ) : HashedTree κ φ π μ σ :=
  (t.modify id (Node.setParent p)).modify p (Node.addChild id)

def unsetParent (p : ℕ) : HashedTree κ φ π μ σ :=
  (t.modify p (Node.removeChild id)).modify id Node.unsetParent

/-- The loop of `lookup`, up to the prefix of length `i`, whose node it returns. -/
def lookupLoop (t : HashedTree κ φ π μ σ) (name : List κ) (hashes : List ℕ) :
    ℕ → HashedTree κ φ π μ σ × ℕ
  | 0 =>
    let (t', node, _) := t.insert options (name.take 0) (hashes.getD 0 0)
    (t', node)
  | i + 1 =>
    let (t', parent) := lookupLoop t name hashes i
    let (t', node, isNew) := t'.insert options (name.take (i + 1)) (hashes.getD (i + 1) 0)
    (if isNew then t'.setParent node parent else t', node)

/-- `lookup`, for a prefix that is not longer than the name and not deeper than the tree may be. -/
def lookup (prefixLen : ℕ) : HashedTree κ φ π μ σ × ℕ :=
  lookupLoop options t name (computeHashes hashOf name prefixLen) prefixLen

/-- The loop of `eraseIfEmpty`. Every round removes a node, so the number of nodes bounds the number
of rounds. -/
def eraseLoop (canEraseAncestors : Bool) : ℕ → HashedTree κ φ π μ σ → ℕ → HashedTree κ φ π μ σ
  | 0, t, _ => t
  | rounds + 1, t, id =>
    match t.node? id with
    | none => t
    | some v =>
      if v.isEmpty then
        match v.parent with
        | none => t.erase options id v.hash
        | some p =>
          let t' := (t.unsetParent id p).erase options id v.hash
          if canEraseAncestors then eraseLoop canEraseAncestors rounds t' p else t'
      else t

def eraseIfEmpty (canEraseAncestors : Bool) : HashedTree κ φ π μ σ :=
  eraseLoop options canEraseAncestors t.size t id

def findExactMatch (prefixLen : ℕ) : Option (Node κ φ π μ σ) :=
  let prefixLen := min name.length prefixLen
  if NameTree.maxDepth < prefixLen then none
  else t.find? (name.take prefixLen) (computeHash hashOf name prefixLen)

/-- What is done to the tree. Nodes are given by pointers. -/
inductive Op (κ φ π μ σ : Type*) where
  | lookup (name : List κ) (prefixLen : ℕ)
  | setTables (id : ℕ) (f : TableEntries φ π μ σ → TableEntries φ π μ σ)
  | eraseIfEmpty (id : ℕ) (canEraseAncestors : Bool)

/-- One operation. A look-up that is not allowed, and a pointer to no node, change nothing. -/
def step : Op κ φ π μ σ → HashedTree κ φ π μ σ
  | .lookup name prefixLen =>
    if prefixLen ≤ name.length ∧ prefixLen ≤ NameTree.maxDepth then
      (t.lookup options hashOf name prefixLen).1
    else t
  | .setTables id f => t.modify id (Node.setTables f)
  | .eraseIfEmpty id canEraseAncestors => t.eraseIfEmpty options id canEraseAncestors

/-! ### Links -/

/-- The nodes have distinct numbers and names, with the hash values of the names; each but the root
has its parent, and the links in both directions agree with the names. -/
structure Linked (nodes : List (Node κ φ π μ σ)) (nextId : ℕ) : Prop where
  nodup_id : (nodes.map Node.id).Nodup
  id_lt : ∀ v ∈ nodes, v.id < nextId
  nodup_name : (nodes.map Node.name).Nodup
  hash_eq : ∀ v ∈ nodes, v.hash = computeHash hashOf v.name v.name.length
  length_le : ∀ v ∈ nodes, v.name.length ≤ NameTree.maxDepth
  dropLast_mem : ∀ v ∈ nodes, v.name ≠ [] → ∃ w ∈ nodes, w.name = v.name.dropLast
  parent_iff : ∀ v ∈ nodes, ∀ p,
    v.parent = some p ↔ ∃ w ∈ nodes, w.id = p ∧ v.name ≠ [] ∧ w.name = v.name.dropLast
  mem_children_iff : ∀ v ∈ nodes, ∀ c,
    c ∈ v.children ↔ ∃ w ∈ nodes, w.id = c ∧ w.name ≠ [] ∧ w.name.dropLast = v.name
  nodup_children : ∀ v ∈ nodes, v.children.Nodup

/-- The effect of `setParent` of a new node `v` on another node. -/
def adopt (v w : Node κ φ π μ σ) : Node κ φ π μ σ :=
  if v.parent = some w.id then w.addChild v.id else w

/-- The effect of `unsetParent` of the node `v` on another node. -/
def disown (v w : Node κ φ π μ σ) : Node κ φ π μ σ :=
  if v.parent = some w.id then w.removeChild v.id else w

variable (nodes : List (Node κ φ π μ σ)) (v : Node κ φ π μ σ)

/-- The nodes when `v` is added below its parent. -/
def link : List (Node κ φ π μ σ) :=
  v :: nodes.map (adopt v)

/-- The nodes when `v` is removed. -/
def unlink : List (Node κ φ π μ σ) :=
  KeyedList.erase Node.id (nodes.map (disown v)) v.id

section Links

variable {hashOf} {nodes : List (Node κ φ π μ σ)} {nextId : ℕ} {v w : Node κ φ π μ σ}

omit [DecidableEq κ]

@[simp] theorem id_adopt : (adopt v w).id = w.id := by unfold adopt; split <;> rfl
@[simp] theorem hash_adopt : (adopt v w).hash = w.hash := by unfold adopt; split <;> rfl
@[simp] theorem name_adopt : (adopt v w).name = w.name := by unfold adopt; split <;> rfl
@[simp] theorem parent_adopt : (adopt v w).parent = w.parent := by unfold adopt; split <;> rfl

theorem children_adopt :
    (adopt v w).children = w.children ++ if v.parent = some w.id then [v.id] else [] := by
  unfold adopt
  split
  · rfl
  · exact (append_nil _).symm

@[simp] theorem id_disown : (disown v w).id = w.id := by unfold disown; split <;> rfl
@[simp] theorem hash_disown : (disown v w).hash = w.hash := by unfold disown; split <;> rfl
@[simp] theorem name_disown : (disown v w).name = w.name := by unfold disown; split <;> rfl
@[simp] theorem parent_disown : (disown v w).parent = w.parent := by unfold disown; split <;> rfl

theorem map_map_eq {α β : Type*} {l : List α} {f : α → α} {g : α → β} (h : ∀ a, g (f a) = g a) :
    (l.map f).map g = l.map g := by
  rw [map_map]
  exact map_congr_left fun a _ => h a

variable (hl : Linked hashOf nodes nextId)

include hl

theorem Linked.eq_of_id (hv : v ∈ nodes) (hw : w ∈ nodes) (h : v.id = w.id) : v = w :=
  inj_on_of_nodup_map hl.nodup_id hv hw h

theorem Linked.eq_of_name (hv : v ∈ nodes) (hw : w ∈ nodes) (h : v.name = w.name) : v = w :=
  inj_on_of_nodup_map hl.nodup_name hv hw h

theorem Linked.perm {nodes' : List (Node κ φ π μ σ)} (hp : nodes'.Perm nodes) :
    Linked hashOf nodes' nextId where
  nodup_id := (hp.map Node.id).nodup_iff.mpr hl.nodup_id
  id_lt v hv := hl.id_lt v (hp.mem_iff.mp hv)
  nodup_name := (hp.map Node.name).nodup_iff.mpr hl.nodup_name
  hash_eq v hv := hl.hash_eq v (hp.mem_iff.mp hv)
  length_le v hv := hl.length_le v (hp.mem_iff.mp hv)
  dropLast_mem v hv := by simpa only [hp.mem_iff] using hl.dropLast_mem v (hp.mem_iff.mp hv)
  parent_iff v hv := by simpa only [hp.mem_iff] using hl.parent_iff v (hp.mem_iff.mp hv)
  mem_children_iff v hv := by
    simpa only [hp.mem_iff] using hl.mem_children_iff v (hp.mem_iff.mp hv)
  nodup_children v hv := hl.nodup_children v (hp.mem_iff.mp hv)

theorem Linked.exists_of_isPrefix {l : List κ} (hv : v ∈ nodes) (h : l <+: v.name) :
    ∃ w ∈ nodes, w.name = l := by
  -- Down from the name of the node, one component at a time.
  generalize hn : v.name.length = n
  induction n generalizing v with
  | zero =>
    rw [length_eq_zero_iff] at hn
    rw [hn] at h
    exact ⟨v, hv, hn.trans (prefix_nil.mp h).symm⟩
  | succ n ih =>
    rcases Nat.lt_or_ge l.length v.name.length with hlt | hge
    · have hne : v.name ≠ [] := by
        rintro hnil
        simp [hnil] at hn
      obtain ⟨w, hw, hname⟩ := hl.dropLast_mem v hv hne
      have hl' : l <+: w.name := by
        rw [hname]
        exact prefix_of_prefix_length_le h (List.dropLast_prefix _)
          (by rw [length_dropLast]; omega)
      exact ih hw hl' (by rw [hname, length_dropLast, hn, Nat.add_sub_cancel])
    · exact ⟨v, hv, (h.eq_of_length_le hge).symm⟩

theorem Linked.map {f : Node κ φ π μ σ → Node κ φ π μ σ} (hid : ∀ v, (f v).id = v.id)
    (hhash : ∀ v, (f v).hash = v.hash) (hname : ∀ v, (f v).name = v.name)
    (hparent : ∀ v, (f v).parent = v.parent) (hchildren : ∀ v, (f v).children = v.children) :
    Linked hashOf (nodes.map f) nextId := by
  constructor
  case nodup_id => rw [map_map_eq hid]; exact hl.nodup_id
  case nodup_name => rw [map_map_eq hname]; exact hl.nodup_name
  all_goals
    simp only [mem_map, forall_exists_index, and_imp, forall_apply_eq_imp_iff₂,
      exists_exists_and_eq_and, hid, hhash, hname, hparent, hchildren]
  case id_lt => exact hl.id_lt
  case hash_eq => exact hl.hash_eq
  case length_le => exact hl.length_le
  case dropLast_mem => exact hl.dropLast_mem
  case parent_iff => exact hl.parent_iff
  case mem_children_iff => exact hl.mem_children_iff
  case nodup_children => exact hl.nodup_children

/-- A node that can be added: its number, name and hash are right, and it points to its parent. -/
structure Fits (hashOf : κ → ℕ) (nodes : List (Node κ φ π μ σ)) (nextId : ℕ)
    (v : Node κ φ π μ σ) : Prop where
  id_eq : v.id = nextId
  children_eq : v.children = []
  name_ne : ∀ w ∈ nodes, w.name ≠ v.name
  hash_eq : v.hash = computeHash hashOf v.name v.name.length
  length_le : v.name.length ≤ NameTree.maxDepth
  dropLast_mem : v.name ≠ [] → ∃ w ∈ nodes, w.name = v.name.dropLast
  parent_iff : ∀ p,
    v.parent = some p ↔ ∃ w ∈ nodes, w.id = p ∧ v.name ≠ [] ∧ w.name = v.name.dropLast

variable {P : Node κ φ π μ σ → Prop}

omit hl in
theorem forall_mem_link : (∀ u ∈ link nodes v, P u) ↔ P v ∧ ∀ w ∈ nodes, P (adopt v w) := by
  rw [link, forall_mem_cons, forall_mem_map]

omit hl in
theorem exists_mem_link : (∃ u ∈ link nodes v, P u) ↔ P v ∨ ∃ w ∈ nodes, P (adopt v w) := by
  simp only [link, mem_cons, mem_map, or_and_right, exists_or, exists_eq_left,
    exists_exists_and_eq_and]

theorem Linked.link (hv : Fits hashOf nodes nextId v) :
    Linked hashOf (link nodes v) (nextId + 1) := by
  -- No node is below the new one yet.
  have hleaf : ∀ w ∈ nodes, w.name ≠ [] → w.name.dropLast ≠ v.name := by
    intro w hw hne heq
    obtain ⟨u, hu, hname⟩ := hl.dropLast_mem w hw hne
    exact hv.name_ne u hu (hname.trans heq)
  have hself : v.name.dropLast = v.name → v.name = [] := by
    intro h
    have := congrArg length h
    rw [length_dropLast] at this
    exact length_eq_zero_iff.mp (by omega)
  have hnew : ∀ w ∈ nodes, w.id ≠ v.id := fun w hw => by
    rw [hv.id_eq]
    exact Nat.ne_of_lt (hl.id_lt w hw)
  constructor
  case nodup_id =>
    rw [HashedTree.link, map_cons, map_map_eq fun _ => id_adopt, nodup_cons]
    refine ⟨fun h => ?_, hl.nodup_id⟩
    obtain ⟨w, hw, hid⟩ := mem_map.mp h
    exact hnew w hw hid
  case nodup_name =>
    rw [HashedTree.link, map_cons, map_map_eq fun _ => name_adopt, nodup_cons]
    refine ⟨fun h => ?_, hl.nodup_name⟩
    obtain ⟨w, hw, hname⟩ := mem_map.mp h
    exact hv.name_ne w hw hname
  all_goals
    simp only [forall_mem_link, exists_mem_link, id_adopt, hash_adopt, name_adopt, parent_adopt]
  case id_lt => exact ⟨by rw [hv.id_eq]; omega, fun w hw => Nat.lt_succ_of_lt (hl.id_lt w hw)⟩
  case hash_eq => exact ⟨hv.hash_eq, hl.hash_eq⟩
  case length_le => exact ⟨hv.length_le, hl.length_le⟩
  case dropLast_mem =>
    exact ⟨fun h => .inr (hv.dropLast_mem h), fun w hw h => .inr (hl.dropLast_mem w hw h)⟩
  case parent_iff =>
    constructor
    · intro p
      rw [hv.parent_iff, or_iff_right]
      exact fun h => h.2.1 (hself h.2.2.symm)
    · intro w hw p
      rw [hl.parent_iff w hw, or_iff_right]
      exact fun h => hleaf w hw h.2.1 h.2.2.symm
  case mem_children_iff =>
    constructor
    · intro c
      rw [hv.children_eq]
      refine iff_of_false not_mem_nil ?_
      rintro (⟨-, hne, heq⟩ | ⟨w, hw, -, hne, heq⟩)
      · exact hne (hself heq)
      · exact hleaf w hw hne heq
    · intro w hw c
      have hpar : v.parent = some w.id ↔ v.name ≠ [] ∧ v.name.dropLast = w.name := by
        rw [hv.parent_iff]
        constructor
        · rintro ⟨u, hu, hid, hne, hname⟩
          rw [← hl.eq_of_id hu hw hid]
          exact ⟨hne, hname.symm⟩
        · rintro ⟨hne, hname⟩
          exact ⟨w, hw, rfl, hne, hname.symm⟩
      rw [children_adopt, mem_append, hl.mem_children_iff w hw, or_comm]
      refine or_congr ?_ Iff.rfl
      split
      next h => simpa [hpar.mp h] using eq_comm
      next h => simpa [← hpar] using fun _ => h
  case nodup_children =>
    refine ⟨by rw [hv.children_eq]; exact nodup_nil, fun w hw => ?_⟩
    rw [children_adopt]
    split
    · rw [← concat_eq_append]
      refine (hl.nodup_children w hw).concat fun hmem => ?_
      obtain ⟨u, hu, hid, -⟩ := (hl.mem_children_iff w hw _).mp hmem
      exact hnew u hu hid
    · rw [append_nil]
      exact hl.nodup_children w hw

omit hl in
theorem forall_mem_unlink :
    (∀ u ∈ unlink nodes v, P u) ↔ ∀ w ∈ nodes, w.id ≠ v.id → P (disown v w) := by
  simp only [unlink, KeyedList.erase, mem_filter, and_imp, forall_mem_map, id_disown,
    decide_eq_true_eq]

omit hl in
theorem exists_mem_unlink :
    (∃ u ∈ unlink nodes v, P u) ↔ ∃ w ∈ nodes, w.id ≠ v.id ∧ P (disown v w) := by
  simp only [unlink, KeyedList.erase, mem_filter, mem_map, and_assoc,
    exists_exists_and_eq_and, id_disown, decide_eq_true_eq]

theorem Linked.mem_children_disown (hv : v ∈ nodes) (hw : w ∈ nodes) {c : ℕ} :
    c ∈ (disown v w).children ↔ c ∈ w.children ∧ c ≠ v.id := by
  unfold disown
  split
  next =>
    rw [Node.removeChild, (hl.nodup_children w hw).mem_erase_iff, and_comm]
  next hpar =>
    rw [iff_self_and]
    rintro hc rfl
    obtain ⟨u, hu, hid, hne, hname⟩ := (hl.mem_children_iff w hw _).mp hc
    rw [hl.eq_of_id hu hv hid] at hne hname
    exact hpar ((hl.parent_iff v hv _).mpr ⟨w, hw, rfl, hne, hname.symm⟩)

omit hl in
theorem nodup_children_disown (h : w.children.Nodup) : (disown v w).children.Nodup := by
  unfold disown
  split
  · exact h.erase _
  · exact h

theorem Linked.unlink (hv : v ∈ nodes) (hleaf : v.children = []) :
    Linked hashOf (unlink nodes v) nextId := by
  -- No node is below the removed one.
  have hbelow : ∀ w ∈ nodes, w.name ≠ [] → w.name.dropLast ≠ v.name := by
    intro w hw hne heq
    have hmem := (hl.mem_children_iff v hv w.id).mpr ⟨w, hw, rfl, hne, heq⟩
    rw [hleaf] at hmem
    exact not_mem_nil hmem
  constructor
  case nodup_id =>
    refine Nodup.sublist (filter_sublist.map _) ?_
    rw [map_map_eq fun _ => id_disown]
    exact hl.nodup_id
  case nodup_name =>
    refine Nodup.sublist (filter_sublist.map _) ?_
    rw [map_map_eq fun _ => name_disown]
    exact hl.nodup_name
  all_goals
    simp only [forall_mem_unlink, exists_mem_unlink, id_disown, hash_disown, name_disown,
      parent_disown]
  case id_lt => exact fun w hw _ => hl.id_lt w hw
  case hash_eq => exact fun w hw _ => hl.hash_eq w hw
  case length_le => exact fun w hw _ => hl.length_le w hw
  case dropLast_mem =>
    intro w hw _ hne
    obtain ⟨u, hu, hname⟩ := hl.dropLast_mem w hw hne
    refine ⟨u, hu, fun hid => ?_, hname⟩
    rw [hl.eq_of_id hu hv hid] at hname
    exact hbelow w hw hne hname.symm
  case parent_iff =>
    intro w hw _ p
    rw [hl.parent_iff w hw]
    refine exists_congr fun u => and_congr_right fun hu => ?_
    rw [iff_and_self]
    rintro ⟨-, hne, hname⟩ hid
    rw [hl.eq_of_id hu hv hid] at hname
    exact hbelow w hw hne hname.symm
  case mem_children_iff =>
    intro w hw _ c
    rw [hl.mem_children_disown hv hw, hl.mem_children_iff w hw]
    constructor
    · rintro ⟨⟨u, hu, rfl, hname⟩, hne⟩
      exact ⟨u, hu, hne, rfl, hname⟩
    · rintro ⟨u, hu, hne, rfl, hname⟩
      exact ⟨⟨u, hu, rfl, hname⟩, hne⟩
  case nodup_children => exact fun w hw _ => nodup_children_disown (hl.nodup_children w hw)

end Links

/-! ### Buckets -/

/-- Every node is in the bucket of its hash value, and the nodes are counted. -/
structure Stored : Prop where
  placed : BucketTable.Placed Node.hash t.buckets
  size_eq : t.size = t.nodes.length

/-- Stored in the right buckets, with links that agree with the names. -/
structure WellFormed : Prop extends Stored t where
  linked : Linked hashOf t.nodes t.nextId

section Buckets

variable {hashOf options t} {name : List κ} {v : Node κ φ π μ σ}

section

omit [DecidableEq κ]

theorem nodes_modify (id : ℕ) (f : Node κ φ π μ σ → Node κ φ π μ σ) :
    (t.modify id f).nodes = update Node.id t.nodes id f :=
  BucketTable.flatten_map_map

theorem Stored.modify (hs : Stored t) (id : ℕ) {f : Node κ φ π μ σ → Node κ φ π μ σ}
    (hf : ∀ v, (f v).hash = v.hash) : Stored (t.modify id f) where
  placed := hs.placed.map fun v => by split <;> simp [hf]
  size_eq := by
    rw [nodes_modify, update, length_map]
    exact hs.size_eq

theorem Stored.setParent (hs : Stored t) (id p : ℕ) : Stored (t.setParent id p) :=
  (hs.modify id (f := Node.setParent p) fun _ => rfl).modify p (f := Node.addChild id) fun _ => rfl

theorem Stored.unsetParent (hs : Stored t) (id p : ℕ) : Stored (t.unsetParent id p) :=
  (hs.modify p (f := Node.removeChild id) fun _ => rfl).modify id (f := Node.unsetParent) fun _ => rfl

theorem Stored.resize (hs : Stored t) {n : ℕ} (hn : 0 < n) :
    Stored (t.resize n) ∧ (t.resize n).nodes.Perm t.nodes := by
  obtain ⟨hplaced, hperm, -⟩ := hs.placed.resize hn
  exact ⟨⟨hplaced, hs.size_eq.trans hperm.length_eq.symm⟩, hperm⟩

end

theorem Stored.mem_of_find? (hs : Stored t) {h : ℕ} (hfound : t.find? name h = some v) :
    v ∈ t.nodes ∧ v.name = name := by
  have hv := find?_some hfound
  rw [Bool.and_eq_true, beq_iff_eq, beq_iff_eq] at hv
  exact ⟨(hs.placed.mem_bucket_iff.mp (mem_of_find?_eq_some hfound)).1, hv.2⟩

theorem WellFormed.find?_eq_some_iff (hw : WellFormed hashOf t) :
    t.find? name (computeHash hashOf name name.length) = some v ↔ v ∈ t.nodes ∧ v.name = name := by
  refine ⟨hw.mem_of_find?, ?_⟩
  rintro ⟨hv, rfl⟩
  have hhash := hw.linked.hash_eq v hv
  have hbucket : v ∈ BucketTable.bucket t.buckets (computeHash hashOf v.name v.name.length) :=
    hw.placed.mem_bucket_iff.mpr ⟨hv, by rw [hhash]⟩
  obtain ⟨w, hfound⟩ : ∃ w, t.find? v.name (computeHash hashOf v.name v.name.length) = some w :=
    Option.isSome_iff_exists.mp (find?_isSome.mpr ⟨v, hbucket, by simp [hhash]⟩)
  obtain ⟨hmem, hname⟩ := hw.mem_of_find? hfound
  rw [hfound, hw.linked.eq_of_name hmem hv hname]

theorem WellFormed.find?_eq_none_iff (hw : WellFormed hashOf t) :
    t.find? name (computeHash hashOf name name.length) = none ↔ ∀ v ∈ t.nodes, v.name ≠ name := by
  rw [← not_iff_not, ← Ne, Option.ne_none_iff_exists']
  simp only [hw.find?_eq_some_iff, not_forall, not_not, exists_prop]

variable (options) in
theorem Stored.insert (hs : Stored t) {h : ℕ} (hnone : t.find? name h = none) :
    Stored (t.insert options name h).1 ∧
      (t.insert options name h).1.nodes.Perm (.create t.nextId h name :: t.nodes) ∧
      (t.insert options name h).1.nextId = t.nextId + 1 ∧
      (t.insert options name h).2 = (t.nextId, true) := by
  let v : Node κ φ π μ σ := .create t.nextId h name
  let t' : HashedTree κ φ π μ σ :=
    { buckets := BucketTable.attach Node.hash t.buckets v
      size := t.size + 1
      nextId := t.nextId + 1 }
  have hperm : t'.nodes.Perm (v :: t.nodes) := BucketTable.flatten_attach_perm hs.placed.length_pos
  have hs' : Stored t' := ⟨hs.placed.attach v, by rw [hperm.length_eq, length_cons, ← hs.size_eq]⟩
  have hpos := options.expandedSize_pos _ hs'.placed.length_pos
  rw [HashedTree.insert, hnone]
  dsimp only
  split
  · exact ⟨(hs'.resize hpos).1, (hs'.resize hpos).2.trans hperm, rfl, rfl⟩
  · exact ⟨hs', hperm, rfl, rfl⟩

omit [DecidableEq κ] in
variable (options) in
theorem Stored.erase (hs : Stored t) (hid : (t.nodes.map Node.id).Nodup) (hv : v ∈ t.nodes) :
    Stored (t.erase options v.id v.hash) ∧
      (t.erase options v.id v.hash).nodes.Perm (KeyedList.erase Node.id t.nodes v.id) ∧
      (t.erase options v.id v.hash).nextId = t.nextId := by
  let t' : HashedTree κ φ π μ σ :=
    { t with
      buckets := BucketTable.detach (fun w => w.id = v.id) t.buckets v.hash
      size := t.size - 1 }
  have hnodes : t'.nodes = KeyedList.erase Node.id t.nodes v.id := by
    refine (BucketTable.flatten_detach hs.placed fun w hw heq => ?_).trans ?_
    · rw [inj_on_of_nodup_map hid hw hv (by simpa using heq)]
    · simp [KeyedList.erase, nodes]
  have hlen : t.nodes.length = t'.nodes.length + 1 := by
    rw [hnodes]
    exact (perm_cons_erase hid hv).length_eq
  have hs' : Stored t' := by
    refine ⟨hs.placed.detach, ?_⟩
    show t.size - 1 = t'.nodes.length
    rw [hs.size_eq, hlen, Nat.add_sub_cancel]
  have hpos : 0 < max options.minSize (options.shrunkSize t'.buckets.length) :=
    Nat.lt_of_lt_of_le options.minSize_pos (Nat.le_max_left _ _)
  unfold HashedTree.erase
  dsimp only
  split
  · exact ⟨(hs'.resize hpos).1, hnodes ▸ (hs'.resize hpos).2, rfl⟩
  · exact ⟨hs', hnodes ▸ .rfl, rfl⟩

omit [DecidableEq κ] in
theorem nodes_setParent_perm {nodes : List (Node κ φ π μ σ)} {p : ℕ}
    (hperm : t.nodes.Perm (v :: nodes)) (hnew : ∀ w ∈ nodes, w.id ≠ v.id) (hp : v.id ≠ p) :
    (t.setParent v.id p).nodes.Perm (link nodes (v.setParent p)) := by
  rw [setParent, nodes_modify, nodes_modify]
  refine ((hperm.map _).map _).trans (.of_eq ?_)
  rw [map_cons, map_cons, if_pos rfl, if_neg (show (v.setParent p).id ≠ p from hp), link,
    map_map]
  refine congrArg _ (map_congr_left fun w hw => ?_)
  rw [Function.comp_apply, if_neg (hnew w hw), adopt]
  exact if_congr (by rw [Node.setParent, Option.some_inj, eq_comm]) rfl rfl

end Buckets

/-! ### Looking up -/

/-- A node has the name. -/
def HasName (l : List κ) : Prop :=
  ∃ v ∈ t.nodes, v.name = l

/-- The tree `t'` is `t` with a node named `l`, whose number is `id`. -/
structure Entered (t t' : HashedTree κ φ π μ σ) (id : ℕ) (l : List κ) : Prop where
  wellFormed : WellFormed hashOf t'
  hasName_iff : ∀ m, t'.HasName m ↔ t.HasName m ∨ m = l
  exists_node : ∃ v ∈ t'.nodes, v.id = id ∧ v.name = l

section Lookup

variable {hashOf options} {t t' : HashedTree κ φ π μ σ} {name : List κ} {v w : Node κ φ π μ σ}

omit [DecidableEq κ] in
theorem WellFormed.entered_self (hw : WellFormed hashOf t) (hv : v ∈ t.nodes) :
    Entered hashOf t t v.id v.name where
  wellFormed := hw
  hasName_iff m := by
    rw [iff_self_or]
    rintro rfl
    exact ⟨v, hv, rfl⟩
  exists_node := ⟨v, hv, rfl, rfl⟩

omit [DecidableEq κ] in
theorem WellFormed.entered_link (hw : WellFormed hashOf t) (hs : Stored t')
    (hv : Fits hashOf t.nodes t.nextId v) (hperm : t'.nodes.Perm (link t.nodes v))
    (hnext : t'.nextId = t.nextId + 1) : Entered hashOf t t' v.id v.name where
  wellFormed := ⟨hs, hnext ▸ (hw.linked.link hv).perm hperm⟩
  hasName_iff m := by
    simp only [HasName, hperm.mem_iff, exists_mem_link, name_adopt]
    rw [or_comm, eq_comm (a := v.name)]
  exists_node := ⟨v, hperm.mem_iff.mpr mem_cons_self, rfl, rfl⟩

variable (options) in
theorem WellFormed.entered_root (hw : WellFormed hashOf t) :
    let r := t.insert options [] (computeHash hashOf [] 0)
    Entered hashOf t r.1 r.2.1 [] := by
  intro r
  cases hfind : t.find? [] (computeHash hashOf [] 0) with
  | some v =>
    obtain ⟨hv, hname⟩ := hw.find?_eq_some_iff.mp hfind
    have hr : r = (t, v.id, false) := by simp only [r, insert, hfind]
    rw [hr, ← hname]
    exact hw.entered_self hv
  | none =>
    obtain ⟨hs, hperm, hnext, hres⟩ := hw.insert options hfind
    have hfits : Fits hashOf t.nodes t.nextId (.create t.nextId (computeHash hashOf [] 0) []) :=
      { id_eq := rfl
        children_eq := rfl
        name_ne := hw.find?_eq_none_iff.mp hfind
        hash_eq := rfl
        length_le := Nat.zero_le _
        dropLast_mem := fun h => absurd rfl h
        parent_iff := fun p => iff_of_false nofun fun ⟨_, _, _, h, _⟩ => h rfl }
    have hlink : link t.nodes (.create t.nextId (computeHash hashOf [] 0) []) =
        .create t.nextId (computeHash hashOf [] 0) [] :: t.nodes := by
      refine congrArg _ ((map_congr_left fun w _ => ?_).trans (map_id _))
      exact if_neg nofun
    have hid : r.2.1 = t.nextId := congrArg Prod.fst hres
    rw [hid]
    exact hw.entered_link hs hfits (hlink ▸ hperm) hnext

variable (options) in
theorem WellFormed.entered_child (hw : WellFormed hashOf t) {l : List κ} (hne : l ≠ [])
    (hlen : l.length ≤ NameTree.maxDepth) (hv : w ∈ t.nodes) (hname : w.name = l.dropLast) :
    let r := t.insert options l (computeHash hashOf l l.length)
    Entered hashOf t (if r.2.2 then r.1.setParent r.2.1 w.id else r.1) r.2.1 l := by
  intro r
  cases hfind : t.find? l (computeHash hashOf l l.length) with
  | some v =>
    obtain ⟨hv, hname⟩ := hw.find?_eq_some_iff.mp hfind
    have hr : r = (t, v.id, false) := by simp only [r, insert, hfind]
    rw [hr, ← hname]
    exact hw.entered_self hv
  | none =>
    obtain ⟨hs, hperm, hnext, hres⟩ := hw.insert options hfind
    have hid : r.2.1 = t.nextId := congrArg Prod.fst hres
    have hisNew : r.2.2 = true := congrArg Prod.snd hres
    rw [hid, hisNew, if_pos rfl]
    have hold : ∀ u ∈ t.nodes, u.id ≠ t.nextId := fun u hu => Nat.ne_of_lt (hw.linked.id_lt u hu)
    have hfits : Fits hashOf t.nodes t.nextId
        ((Node.create t.nextId (computeHash hashOf l l.length) l).setParent w.id) :=
      { id_eq := rfl
        children_eq := rfl
        name_ne := hw.find?_eq_none_iff.mp hfind
        hash_eq := rfl
        length_le := hlen
        dropLast_mem := fun _ => ⟨w, hv, hname⟩
        parent_iff := by
          intro p
          refine Option.some_inj.trans ⟨fun h => ⟨w, hv, h, hne, hname⟩, ?_⟩
          rintro ⟨u, hu, rfl, -, hu'⟩
          rw [hw.linked.eq_of_name hu hv (hu'.trans hname.symm)] }
    exact hw.entered_link (hs.setParent _ _) hfits
      (nodes_setParent_perm hperm hold (hold w hv).symm) hnext

theorem lookupLoop_zero (hashes : List ℕ) :
    lookupLoop options t name hashes 0 =
      let r := t.insert options [] (hashes.getD 0 0)
      (r.1, r.2.1) := rfl

theorem lookupLoop_succ (hashes : List ℕ) (i : ℕ) :
    lookupLoop options t name hashes (i + 1) =
      let s := lookupLoop options t name hashes i
      let r := s.1.insert options (name.take (i + 1)) (hashes.getD (i + 1) 0)
      (if r.2.2 then r.1.setParent r.2.1 s.2 else r.1, r.2.1) := rfl

theorem WellFormed.lookupLoop (hw : WellFormed hashOf t) {hashes : List ℕ} {i : ℕ}
    (hi : i ≤ name.length) (hdepth : i ≤ NameTree.maxDepth)
    (hhashes : ∀ j ≤ i, hashes.getD j 0 = computeHash hashOf name j) :
    let r := lookupLoop options t name hashes i
    WellFormed hashOf r.1 ∧ (∀ m, r.1.HasName m ↔ t.HasName m ∨ ∃ j ≤ i, m = name.take j) ∧
      ∃ v ∈ r.1.nodes, v.id = r.2 ∧ v.name = name.take i := by
  induction i with
  | zero =>
    rw [lookupLoop_zero, hhashes 0 (Nat.le_refl 0), ← computeHash_take]
    obtain ⟨hwf, hnames, hnode⟩ := hw.entered_root options
    exact ⟨hwf, by simpa using hnames, hnode⟩
  | succ i ih =>
    obtain ⟨hwf, hnames, w, hmem, hid, hname⟩ :=
      ih (by omega) (by omega) fun j hj => hhashes j (by omega)
    rw [lookupLoop_succ, hhashes (i + 1) (Nat.le_refl _), ← computeHash_take]
    generalize HashedTree.lookupLoop options t name hashes i = s at *
    have hne : name.take (i + 1) ≠ [] := by
      rw [Ne, take_eq_nil_iff]
      rintro (h | h)
      · omega
      · rw [h, length_nil] at hi
        omega
    have hlen : (name.take (i + 1)).length ≤ NameTree.maxDepth := by
      rw [length_take]
      omega
    have hdrop : w.name = (name.take (i + 1)).dropLast := by
      rw [hname, dropLast_eq_take, length_take, take_take]
      congr 1
      omega
    obtain ⟨hwf', hnames', hnode⟩ := hwf.entered_child options hne hlen hmem hdrop
    rw [hid] at hwf' hnames' hnode
    refine ⟨hwf', fun m => ?_, hnode⟩
    rw [hnames', hnames, or_assoc]
    simp only [Nat.le_succ_iff, or_and_right, exists_or, exists_eq_left]

end Lookup

/-! ### Erasing -/

section Erase

variable {hashOf options t} {v : Node κ φ π μ σ}

omit [DecidableEq κ]

theorem erase_nodes_unsetParent {p : ℕ} (hpar : v.parent = some p) :
    KeyedList.erase Node.id (t.unsetParent v.id p).nodes v.id = unlink t.nodes v := by
  rw [HashedTree.unsetParent, nodes_modify,
    erase_update_self (f := Node.unsetParent) fun _ => rfl, nodes_modify, unlink]
  refine congrArg (KeyedList.erase Node.id · v.id) (map_congr_left fun w _ => ?_)
  rw [disown, hpar]
  exact if_congr (by rw [Option.some_inj, eq_comm]) rfl rfl

theorem unlink_of_parent_eq_none (hpar : v.parent = none) :
    unlink t.nodes v = KeyedList.erase Node.id t.nodes v.id := by
  refine congrArg (KeyedList.erase Node.id · v.id)
    ((map_congr_left fun w _ => ?_).trans (map_id _))
  rw [disown, hpar, if_neg nofun, id_eq]

/-- The tree `t'` is `t` without some of its nodes. -/
def Pruned (hashOf : κ → ℕ) (t t' : HashedTree κ φ π μ σ) : Prop :=
  WellFormed hashOf t' ∧ ∀ m, t'.HasName m → t.HasName m

theorem WellFormed.pruned_unlink {t' : HashedTree κ φ π μ σ} (hw : WellFormed hashOf t)
    (hs : Stored t') (hv : v ∈ t.nodes) (hleaf : v.children = [])
    (hperm : t'.nodes.Perm (unlink t.nodes v)) (hnext : t'.nextId = t.nextId) :
    Pruned hashOf t t' := by
  refine ⟨⟨hs, hnext ▸ (hw.linked.unlink hv hleaf).perm hperm⟩, fun m => ?_⟩
  simp only [HasName, hperm.mem_iff, exists_mem_unlink, name_disown]
  rintro ⟨w, hw, -, hname⟩
  exact ⟨w, hw, hname⟩

variable (options) in
theorem WellFormed.pruned_erase (hw : WellFormed hashOf t) (hv : v ∈ t.nodes)
    (hleaf : v.children = []) :
    (v.parent = none → Pruned hashOf t (t.erase options v.id v.hash)) ∧
      ∀ p, v.parent = some p →
        Pruned hashOf t ((t.unsetParent v.id p).erase options v.id v.hash) := by
  constructor
  · intro hpar
    obtain ⟨hs, hperm, hnext⟩ := hw.erase options hw.linked.nodup_id hv
    exact hw.pruned_unlink hs hv hleaf (unlink_of_parent_eq_none hpar ▸ hperm) hnext
  · intro p hpar
    have hids : ((t.unsetParent v.id p).nodes.map Node.id).Nodup := by
      rw [unsetParent, nodes_modify,
        map_key_update (f := Node.unsetParent) fun _ => rfl, nodes_modify,
        map_key_update (f := Node.removeChild v.id) fun _ => rfl]
      exact hw.linked.nodup_id
    obtain ⟨u, hu, hid, hhash⟩ :
        ∃ u ∈ (t.unsetParent v.id p).nodes, u.id = v.id ∧ u.hash = v.hash := by
      rw [unsetParent, nodes_modify, nodes_modify]
      refine ⟨_, mem_map_of_mem (mem_map_of_mem hv), ?_⟩
      split_ifs <;> exact ⟨rfl, rfl⟩
    obtain ⟨hs, hperm, hnext⟩ := (hw.unsetParent v.id p).erase options hids hu
    rw [hid, hhash] at hs hperm hnext
    rw [erase_nodes_unsetParent hpar] at hperm
    exact hw.pruned_unlink hs hv hleaf hperm hnext

theorem Pruned.trans {t' t'' : HashedTree κ φ π μ σ} (h : Pruned hashOf t t')
    (h' : Pruned hashOf t' t'') : Pruned hashOf t t'' :=
  ⟨h'.1, fun m hm => h.2 m (h'.2 m hm)⟩

theorem WellFormed.eraseLoop (hw : WellFormed hashOf t) (canEraseAncestors : Bool) (rounds id : ℕ) :
    Pruned hashOf t (eraseLoop options canEraseAncestors rounds t id) := by
  have hself : ∀ {t : HashedTree κ φ π μ σ}, WellFormed hashOf t → Pruned hashOf t t :=
    fun hw => ⟨hw, fun _ hm => hm⟩
  induction rounds generalizing t id with
  | zero => exact hself hw
  | succ rounds ih =>
    unfold eraseLoop
    split
    next => exact hself hw
    next v hnode =>
      have hv : v ∈ t.nodes := mem_of_get? hnode
      obtain rfl : v.id = id := key_of_get? hnode
      split
      next hempty =>
        have hleaf : v.children = [] := by
          rw [Node.isEmpty, Bool.and_eq_true] at hempty
          exact isEmpty_iff.mp hempty.1
        obtain ⟨hroot, hchild⟩ := hw.pruned_erase options hv hleaf
        split
        next hpar => exact hroot hpar
        next p hpar =>
          dsimp only
          split
          next => exact (hchild p hpar).trans (ih (hchild p hpar).1 p)
          next => exact hchild p hpar
      next => exact hself hw

end Erase

/-! ### Runs -/

section Runs

variable {hashOf options t}

omit [DecidableEq κ] in
theorem nodes_empty : (empty options : HashedTree κ φ π μ σ).nodes = [] := by
  simp [nodes, empty]

omit [DecidableEq κ] in
theorem wellFormed_empty : WellFormed hashOf (empty options : HashedTree κ φ π μ σ) := by
  have hpos : 0 < options.initialSize :=
    Nat.lt_of_lt_of_le options.minSize_pos options.minSize_le
  refine ⟨⟨BucketTable.placed_replicate _ hpos, by rw [nodes_empty]; rfl⟩, ?_⟩
  rw [nodes_empty]
  constructor <;> simp

variable (options) in
theorem WellFormed.lookup (hw : WellFormed hashOf t) {name : List κ} {prefixLen : ℕ}
    (hlen : prefixLen ≤ name.length) (hdepth : prefixLen ≤ NameTree.maxDepth) :
    let r := t.lookup options hashOf name prefixLen
    WellFormed hashOf r.1 ∧
      (∀ m, r.1.HasName m ↔ t.HasName m ∨ ∃ j ≤ prefixLen, m = name.take j) ∧
      ∃ v ∈ r.1.nodes, v.id = r.2 ∧ v.name = name.take prefixLen := by
  refine hw.lookupLoop hlen hdepth fun j hj => ?_
  rw [getD_eq_getElem?_getD, getElem?_computeHashes hashOf hj hlen, Option.getD_some]

theorem WellFormed.findExactMatch_eq_some_iff (hw : WellFormed hashOf t) {name : List κ}
    {prefixLen : ℕ} {v : Node κ φ π μ σ} :
    t.findExactMatch hashOf name prefixLen = some v ↔
      v ∈ t.nodes ∧ v.name = name.take prefixLen := by
  have htake : name.take prefixLen = name.take (min name.length prefixLen) := by
    rw [take_eq_take_min, Nat.min_comm]
  rw [findExactMatch, ← computeHash_take, htake]
  split
  next hdepth =>
    refine iff_of_false nofun ?_
    rintro ⟨hv, hname⟩
    have hle := hw.linked.length_le v hv
    rw [hname, length_take] at hle
    omega
  next => exact hw.find?_eq_some_iff

omit [DecidableEq κ] in
theorem WellFormed.setTables (hw : WellFormed hashOf t) (id : ℕ)
    (f : TableEntries φ π μ σ → TableEntries φ π μ σ) :
    Pruned hashOf t (t.modify id (Node.setTables f)) := by
  have hcore : ∀ v : Node κ φ π μ σ, (if v.id = id then v.setTables f else v).name = v.name :=
    fun v => by split <;> rfl
  refine ⟨⟨hw.modify id fun _ => rfl, ?_⟩, fun m => ?_⟩
  · rw [nodes_modify]
    exact hw.linked.map (fun v => by split <;> rfl) (fun v => by split <;> rfl) hcore
      (fun v => by split <;> rfl) fun v => by split <;> rfl
  · simp only [HasName, nodes_modify, update, mem_map, exists_exists_and_eq_and,
      hcore, imp_self]

theorem WellFormed.step (hw : WellFormed hashOf t) (op : Op κ φ π μ σ) :
    WellFormed hashOf (t.step options hashOf op) := by
  cases op with
  | lookup name prefixLen =>
    rw [HashedTree.step]
    split
    next h => exact (hw.lookup options h.1 h.2).1
    next => exact hw
  | setTables id f => exact (hw.setTables id f).1
  | eraseIfEmpty id canEraseAncestors => exact (hw.eraseLoop canEraseAncestors _ id).1

theorem wellFormed_run (ops : List (Op κ φ π μ σ)) :
    WellFormed hashOf (Run.run (step options hashOf) (empty options) ops) :=
  Run.invariant (WellFormed hashOf) (fun _ op hw => hw.step op) wellFormed_empty ops

end Runs

/-! ### Equal names -/

section EqualNames

variable {β : Type*} (plain : κ → β)

/-- The tree is well formed, holds every prefix of a name it holds, and has no two nodes with equal
names, that is with equal components whatever their encoding. -/
structure Sound (t : HashedTree κ φ π μ σ) : Prop extends WellFormed hashOf t where
  eq_of_sameName : ∀ v ∈ t.nodes, ∀ w ∈ t.nodes, v.name.map plain = w.name.map plain → v = w
  hasName_of_isPrefix : ∀ v ∈ t.nodes, ∀ l, l <+: v.name → t.HasName l

/-- The name is encoded as the nodes of the tree that are named by an equal prefix of it. -/
def AlikeUpTo (t : HashedTree κ φ π μ σ) (name : List κ) (prefixLen : ℕ) : Prop :=
  ∀ v ∈ t.nodes, ∀ i ≤ prefixLen, v.name.map plain = (name.take i).map plain → v.name = name.take i

/-- A name that is looked up is encoded as the nodes with equal names. -/
def EncodedAlike (t : HashedTree κ φ π μ σ) : Op κ φ π μ σ → Prop
  | .lookup name prefixLen =>
    prefixLen ≤ name.length → prefixLen ≤ NameTree.maxDepth → AlikeUpTo plain t name prefixLen
  | .setTables .. => True
  | .eraseIfEmpty .. => True

/-- `findExactMatch` gives the node named by the prefix, when there is one. -/
def FindsExactly (t : HashedTree κ φ π μ σ) (name : List κ) (prefixLen : ℕ) : Prop :=
  ∀ v, t.findExactMatch hashOf name prefixLen = some v ↔
    v ∈ t.nodes ∧ v.name.map plain = (name.take prefixLen).map plain

variable {hashOf options plain} {t t' : HashedTree κ φ π μ σ}

section

omit [DecidableEq κ]

theorem sound_iff (hw : WellFormed hashOf t) :
    Sound hashOf plain t ↔ ∀ l m, t.HasName l → t.HasName m → l.map plain = m.map plain → l = m := by
  constructor
  · rintro hs _ _ ⟨v, hv, rfl⟩ ⟨w, hw, rfl⟩ h
    rw [hs.eq_of_sameName v hv w hw h]
  · intro h
    refine ⟨hw, fun v hv w hmem heq => ?_, fun v hv l hl => hw.linked.exists_of_isPrefix hv hl⟩
    exact hw.linked.eq_of_name hv hmem (h _ _ ⟨v, hv, rfl⟩ ⟨w, hmem, rfl⟩ heq)

theorem sound_empty : Sound hashOf plain (empty options : HashedTree κ φ π μ σ) := by
  rw [sound_iff wellFormed_empty]
  rintro l m ⟨v, hv, -⟩
  rw [nodes_empty] at hv
  exact absurd hv not_mem_nil

theorem Sound.of_pruned (hs : Sound hashOf plain t) (h : Pruned hashOf t t') :
    Sound hashOf plain t' := by
  rw [sound_iff h.1]
  intro l m hl hm
  exact (sound_iff hs.toWellFormed).mp hs l m (h.2 l hl) (h.2 m hm)

end

theorem Sound.lookup_iff (hs : Sound hashOf plain t) {name : List κ} {prefixLen : ℕ}
    (hlen : prefixLen ≤ name.length) (hdepth : prefixLen ≤ NameTree.maxDepth) :
    Sound hashOf plain (t.lookup options hashOf name prefixLen).1 ↔
      AlikeUpTo plain t name prefixLen := by
  obtain ⟨hwf, hnames, -⟩ := hs.lookup options hlen hdepth
  have hsound := (sound_iff hs.toWellFormed).mp hs
  rw [sound_iff hwf]
  simp only [hnames]
  constructor
  · intro h v hv i hi heq
    exact h _ _ (.inl ⟨v, hv, rfl⟩) (.inr ⟨i, hi, rfl⟩) heq
  · rintro h l m (hl | ⟨i, hi, rfl⟩) (hm | ⟨j, hj, rfl⟩) heq
    · exact hsound l m hl hm heq
    · obtain ⟨v, hv, rfl⟩ := hl
      exact h v hv j hj heq
    · obtain ⟨v, hv, rfl⟩ := hm
      exact (h v hv i hi heq.symm).symm
    · have := congrArg length heq
      simp only [length_map, length_take] at this
      rw [show i = j by omega]

theorem Sound.step_iff (hs : Sound hashOf plain t) (op : Op κ φ π μ σ) :
    Sound hashOf plain (t.step options hashOf op) ↔ EncodedAlike plain t op := by
  cases op with
  | lookup name prefixLen =>
    rw [step, EncodedAlike]
    split
    next h => simpa [h.1, h.2] using hs.lookup_iff h.1 h.2
    next h => exact iff_of_true hs fun h₁ h₂ => absurd ⟨h₁, h₂⟩ h
  | setTables id f => exact iff_of_true (hs.of_pruned (hs.setTables id f)) trivial
  | eraseIfEmpty id canEraseAncestors =>
    exact iff_of_true (hs.of_pruned (hs.eraseLoop canEraseAncestors _ id)) trivial

theorem Sound.findExactMatch_exact_iff (hs : Sound hashOf plain t) (name : List κ) (prefixLen : ℕ) :
    FindsExactly hashOf plain t name prefixLen ↔
      ∀ v ∈ t.nodes, v.name.map plain = (name.take prefixLen).map plain →
        v.name = name.take prefixLen := by
  simp only [FindsExactly, hs.findExactMatch_eq_some_iff]
  constructor
  · intro h v hv heq
    exact ((h v).mpr ⟨hv, heq⟩).2
  · intro h v
    exact and_congr_right fun hv => ⟨fun heq => heq ▸ rfl, h v hv⟩

end EqualNames

/-! ### Names in wire encoding -/

section Wire

/-- The hash value of a component is computed from its wire encoding. -/
def hashOfWire (hash : Bytes → ℕ) (comp : Block) : ℕ := hash comp.wire

/-- What `operator==` compares of a component. -/
def typeAndValue (comp : Block) : ℕ × Bytes := (comp.type, comp.value)

variable {φ π μ σ : Type*}

/-- The tree is sound throughout a run exactly when every name that is looked up is encoded as the
nodes with equal names; and then `findExactMatch` is exact for exactly such a name. -/
theorem sound_iff_encodedAlike (options : HashtableOptions) (hash : Bytes → ℕ)
    (ops : List (Op Block φ π μ σ)) :
    ((∀ front, front <+: ops →
        Sound (hashOfWire hash) typeAndValue
          (Run.run (step options (hashOfWire hash)) (empty options) front)) ↔
      Run.Meets (step options (hashOfWire hash)) (EncodedAlike typeAndValue) (empty options) ops) ∧
    (Run.Meets (step options (hashOfWire hash)) (EncodedAlike typeAndValue) (empty options) ops →
      ∀ name prefixLen,
        let t := Run.run (step options (hashOfWire hash)) (empty options) ops
        FindsExactly (hashOfWire hash) typeAndValue t name prefixLen ↔
          ∀ v ∈ t.nodes, v.name.map typeAndValue = (name.take prefixLen).map typeAndValue →
            v.name = name.take prefixLen) := by
  have hstep : ∀ (t : HashedTree Block φ π μ σ) (op : Op Block φ π μ σ),
      Sound (hashOfWire hash) typeAndValue t →
        (Sound (hashOfWire hash) typeAndValue (t.step options (hashOfWire hash) op) ↔
          EncodedAlike typeAndValue t op) :=
    fun t op hs => hs.step_iff op
  have hempty : Sound (hashOfWire hash) typeAndValue (empty options : HashedTree Block φ π μ σ) :=
    sound_empty
  refine ⟨Run.invariant_iff_meets _ hstep hempty, fun hmeets name prefixLen => ?_⟩
  have hsound := Run.invariant_of_meets _ (fun t op hs => (hstep t op hs).mpr) hempty hmeets
  exact hsound.findExactMatch_exact_iff name prefixLen

/-- A generic component `A` in its minimal encoding. -/
def minimalA : Block :=
  .make 8 [0x41] (by decide) (by decide) (by decide)

/-- The same component with its length written in three bytes. -/
def longA : Block where
  type := 8
  value := [0x41]
  header := [8, 0xFD, 0, 1]
  readHeader_header := fun _ => rfl

/-- A small hashtable that is never resized. -/
def smallTable : HashtableOptions where
  initialSize := 1
  minSize := 1
  expandThreshold := fun _ => 10
  shrinkThreshold := fun _ => 0
  expandedSize := fun n => n
  shrunkSize := fun n => n
  minSize_pos := by decide
  minSize_le := by decide
  expandedSize_pos := fun _ h => h

/-- A name that is looked up in two encodings has two nodes. -/
theorem not_sound_lookup_twice :
    ¬ Sound (hashOfWire fun _ => 0) typeAndValue
      (Run.run (step smallTable (hashOfWire fun _ => 0))
        (empty smallTable : HashedTree Block Unit Unit Unit Unit)
        [.lookup [minimalA] 1, .lookup [longA] 1]) := by
  intro hs
  generalize ht : Run.run (step smallTable (hashOfWire fun _ => 0))
    (empty smallTable : HashedTree Block Unit Unit Unit Unit)
    [.lookup [minimalA] 1, .lookup [longA] 1] = t at hs
  have hnames : t.nodes.map Node.name = [[longA], [minimalA], []] := by
    rw [← ht]
    decide
  have hlong : t.HasName [longA] := mem_map.mp (by simp [hnames])
  have hminimal : t.HasName [minimalA] := mem_map.mp (by simp [hnames])
  have heq := (sound_iff hs.toWellFormed).mp hs _ _ hlong hminimal rfl
  exact absurd heq (by decide)

end Wire

end HashedTree

end NdnFc
