import NdnFc.Lib.Traversal
import NdnFc.Table.NameTreeMatch
import NdnFc.Table.Pit

/-!
# Strategy choice

The strategy choice table assigns strategies to prefixes
(`NFD-FC/daemon/table/strategy-choice.cpp`). The items of StrategyInfo on PIT entries, their records
and measurements entries are cleared when the effective strategy changes to another type:
`changeStrategy` enumerates the nodes under the prefix down to the next choices. `StrategyRegistry`
stands for `fw::Strategy`. A strategy is known by its instance name.
-/

namespace NdnFc

open Option List NameTree LongestPrefix

/-! ### Enumeration of a part of the tree -/

namespace NameTree

variable {φ π μ σ : Type*} (t : NameTree φ π μ σ)

def getChildren (e : Entry φ π μ σ) : List (Entry φ π μ σ) :=
  e.children.filterMap t.find?

/-- How far the tree may reach below a node. -/
def heightOf (e : Entry φ π μ σ) : ℕ := maxDepth - e.name.length

/-- `partialEnumerate`: the selected nodes in the order of the traversal from the node of `name`. -/
def partialEnumerate (name : Name)
    (entrySubTreeSelector : Entry φ π μ σ → Bool × Bool) : List (Entry φ π μ σ) :=
  match t.findExactMatch name name.length with
  | none => []
  | some e => (Traversal.enter t.getChildren entrySubTreeSelector heightOf e).map Prod.fst

variable {t : NameTree φ π μ σ} {e : Entry φ π μ σ} {name : Name}

theorem named (t : NameTree φ π μ σ) : Traversal.Named t.getChildren Entry.name (· ∈ t.nodes) where
  name_inj v w hv hw h :=
    some.inj ((find?_eq_some_iff.mpr ⟨hv, h⟩).symm.trans (find?_eq_some_iff.mpr ⟨hw, rfl⟩))
  exists_of_isPrefix w hw l hl := mem_map.mp (mem_names_of_isPrefix hw hl)
  mem_children_iff v hv c := by
    rw [getChildren, mem_filterMap]
    simp only [find?_eq_some_iff, t.wellFormed.mem_children_iff v hv]
    constructor
    · rintro ⟨n, ⟨-, hne, hdrop⟩, hc, rfl⟩
      exact ⟨hc, hne, hdrop⟩
    · rintro ⟨hc, hne, hdrop⟩
      exact ⟨c.name, ⟨mem_map_of_mem hc, hne, hdrop⟩, hc, rfl⟩

theorem graded (t : NameTree φ π μ σ) : Traversal.Graded t.getChildren heightOf (· ∈ t.nodes) :=
  t.named.graded t.wellFormed.length_le

theorem mem_partialEnumerate_iff {pred : Entry φ π μ σ → Bool × Bool} :
    e ∈ t.partialEnumerate name pred ↔ e ∈ t.nodes ∧ name <+: e.name ∧ (pred e).1 = true ∧
      ∀ u ∈ t.nodes, name <+: u.name → u.name <+: e.name → u ≠ e → (pred u).2 = true := by
  rw [partialEnumerate, findExactMatch_length]
  split
  next hnone =>
    refine iff_of_false not_mem_nil ?_
    rintro ⟨he, hpre, -⟩
    have hsome := isSome_find?_of_isPrefix
      (isSome_of_eq_some (find?_eq_some_iff.mpr ⟨he, rfl⟩)) hpre
    rw [hnone] at hsome
    cases hsome
  next ref href =>
    obtain ⟨hmem, rfl⟩ := find?_eq_some_iff.mp href
    exact t.named.mem_enter_iff t.graded hmem

/-- What is enumerated when the children of the nodes below with a value of their own are skipped. -/
theorem mem_partialEnumerate_iff_covers {pred : Entry φ π μ σ → Bool × Bool} {f : Name → Option β}
    {P : Entry φ π μ σ → Prop} (hself : ∀ u, (pred u).1 = true ↔ (pred u).2 = true ∧ P u)
    (hopen : ∀ u ∈ t.nodes, name <+: u.name →
      ((pred u).2 = true ↔ (u.name ≠ name → f u.name = none))) :
    e ∈ t.partialEnumerate name pred ↔ e ∈ t.nodes ∧ Covers f name e.name ∧ P e := by
  rw [mem_partialEnumerate_iff, Covers]
  refine and_congr_right fun he => ?_
  constructor
  · rintro ⟨hpre, hvisit, hbetween⟩
    obtain ⟨hlast, hP⟩ := (hself e).mp hvisit
    refine ⟨⟨hpre, fun q hnq hq hne => ?_⟩, hP⟩
    obtain ⟨u, hu, rfl⟩ := t.named.exists_of_isPrefix e he q hq
    refine (hopen u hu hnq).mp ?_ hne
    rcases eq_or_ne u e with rfl | hune
    · exact hlast
    · exact hbetween u hu hnq hq hune
  · rintro ⟨⟨hpre, hnone⟩, hP⟩
    have hall : ∀ u ∈ t.nodes, name <+: u.name → u.name <+: e.name → (pred u).2 = true :=
      fun u hu hnu hue => (hopen u hu hnu).mpr (hnone u.name hnu hue)
    exact ⟨hpre, (hself e).mpr ⟨hall e he hpre prefix_rfl, hP⟩,
      fun u hu hnu hue _ => hall u hu hnu hue⟩

theorem nodup_getChildren (he : e ∈ t.nodes) : (t.getChildren e).Nodup := by
  have hnames : (t.getChildren e).map Entry.name = e.children := by
    rw [getChildren, map_filterMap]
    refine (filterMap_congr fun c hc => ?_).trans filterMap_some
    obtain ⟨u, hu, rfl⟩ := mem_map.mp ((t.wellFormed.mem_children_iff e he c).mp hc).1
    rw [find?_eq_some_iff.mpr ⟨hu, rfl⟩, map_some]
  exact .of_map Entry.name (hnames ▸ t.wellFormed.nodup_children e he)

theorem nodup_partialEnumerate (t : NameTree φ π μ σ) (name : Name)
    (pred : Entry φ π μ σ → Bool × Bool) : (t.partialEnumerate name pred).Nodup := by
  rw [partialEnumerate]
  split
  next => exact nodup_nil
  next ref href =>
    rw [findExactMatch_length] at href
    obtain ⟨hmem, -⟩ := find?_eq_some_iff.mp href
    exact (t.named.nodup_subtree t.graded (fun _ hu => nodup_getChildren hu) hmem).sublist
      (t.graded.enter_sublist hmem)

end NameTree

/-- `find` is the registered type that an instance name refers to, and `construct` is the
constructor of a type, which gives the strategy its instance name or throws. -/
structure StrategyRegistry where
  find : Name → Option Name
  construct : Name → Name → Except String Name

namespace StrategyRegistry

def create (r : StrategyRegistry) (instanceName : Name) : Except String (Option Name) :=
  (r.find instanceName).mapM fun type => r.construct type instanceName

def areSameType (r : StrategyRegistry) (instanceNameA instanceNameB : Name) : Bool :=
  r.find instanceNameA == r.find instanceNameB

end StrategyRegistry

namespace StrategyChoice

/-- An entry of the table, with the instance name of its strategy. -/
structure Entry where
  entryPrefix : Name
  strategy : Name

/-- What items of StrategyInfo are placed on. -/
inductive Host where
  | pitEntry (id : ℕ)
  | inRecord (id : ℕ) (face : FaceId)
  | outRecord (id : ℕ) (face : FaceId)
  | measurementsEntry (name : Name)
deriving DecidableEq

inductive InsertResult where
  | ok
  | notRegistered
  | exception (message : String)
  | depthExceeded
deriving DecidableEq

end StrategyChoice

/-- The table, with the PIT on the same name tree and the items of StrategyInfo. -/
structure StrategyChoice (φ μ ι : Type*) where
  pit : Pit φ μ StrategyChoice.Entry
  nItems : ℕ
  infos : StrategyChoice.Host → List ι

namespace StrategyChoice

variable {φ μ ι : Type*}

/-- The name tree of the tables. -/
abbrev Tree (φ μ : Type*) := NameTree φ Pit.Entry μ Entry

variable (s : StrategyChoice φ μ ι)

def nameTree : Tree φ μ := s.pit.nameTree

def setNameTree (nameTree : Tree φ μ) : StrategyChoice φ μ ι :=
  { s with pit := { s.pit with nameTree := nameTree } }

variable (t : Tree φ μ)

def entryAt (name : Name) : Option Entry :=
  (t.tablesAt name).strategyChoiceEntry

def setStrategyChoiceEntry (name : Name) (entry : Option Entry) : Tree φ μ :=
  t.modifyTables name fun tables => { tables with strategyChoiceEntry := entry }

variable (nte : NameTree.Entry φ Pit.Entry μ Entry)

def nteHasStrategyChoiceEntry : Bool :=
  nte.strategyChoiceEntry.isSome

/-- `getStrategyChoiceEntry()->getStrategy()` -/
def strategyOf : Option Name :=
  nte.strategyChoiceEntry.map Entry.strategy

/-- `findEffectiveStrategy(prefix)`, or `none` where the assertion fails. -/
def findEffectiveStrategy (name : Name) : Option Name :=
  (t.findLongestPrefixMatch name nteHasStrategyChoiceEntry).bind strategyOf

/-- `findEffectiveStrategy(pitEntry)` -/
def findEffectiveStrategyPit (pitEntry : Pit.Entry) : Option Name :=
  (t.findLongestPrefixMatchPit pitEntry nteHasStrategyChoiceEntry).bind strategyOf

/-- `findEffectiveStrategy(measurementsEntry)`, for the entry on the node of `name`. -/
def findEffectiveStrategyMeasurements (name : Name) : Option Name :=
  (t.find? name).bind fun nte =>
    (t.findLongestPrefixMatchFrom nte nteHasStrategyChoiceEntry).bind strategyOf

/-- A PIT entry and its records. -/
def pitHosts (pitEntry : Pit.Entry) : List Host :=
  .pitEntry pitEntry.id ::
    (pitEntry.inRecords.map fun inRecord => .inRecord pitEntry.id inRecord.face) ++
    pitEntry.outRecords.map fun outRecord => .outRecord pitEntry.id outRecord.face

/-- What `clearStrategyInfo` clears on a node. -/
def hosts (name : Name) (tables : TableEntries φ Pit.Entry μ Entry) : List Host :=
  tables.pitEntries.flatMap pitHosts ++
    if tables.measurementsEntry.isSome then [.measurementsEntry name] else []

def clearStrategyInfo (infos : Host → List ι) (nte : NameTree.Entry φ Pit.Entry μ Entry)
    (host : Host) : List ι :=
  if host ∈ hosts nte.name nte.tables then [] else infos host

/-- The selector in `changeStrategy`. Nodes are compared by their names. -/
def isChanged (rootNte : Name) (nte : NameTree.Entry φ Pit.Entry μ Entry) : Bool × Bool :=
  if nte.name = rootNte then (true, true)
  else if nte.strategyChoiceEntry.isSome then (false, false)
  else (true, true)

variable (r : StrategyRegistry)

/-- `changeStrategy`, for an entry on the node `rootNte`. -/
def changeStrategy (t : Tree φ μ) (infos : Host → List ι) (rootNte : Name)
    (entry : Entry) (oldStrategy newStrategy : Name) : Host → List ι :=
  if r.areSameType oldStrategy newStrategy then infos
  else (t.partialEnumerate entry.entryPrefix (isChanged rootNte)).foldl clearStrategyInfo infos

theorem length_le_length (name : Name) : name.length ≤ name.length := le_rfl

def insert (s : StrategyChoice φ μ ι) (name strategyName : Name) :
    Except String (InsertResult × StrategyChoice φ μ ι) :=
  if hdepth : name.length ≤ maxDepth then
    match r.create strategyName with
    | .error message => pure (.exception message, s)
    | .ok none => pure (.notRegistered, s)
    | .ok (some strategy) =>
      let t := s.nameTree.lookup name name.length (length_le_length name) hdepth
      match entryAt t name with
      | some entry =>
        if entry.strategy = strategy then pure (.ok, s.setNameTree t)
        else
          let infos := changeStrategy r t s.infos name entry entry.strategy strategy
          let t := setStrategyChoiceEntry t name (some { entry with strategy := strategy })
          pure (.ok, { s.setNameTree t with infos := infos })
      | none =>
        match findEffectiveStrategy t name with
        | none => throw "assertion failed: nte != nullptr"
        | some oldStrategy =>
          -- the new entry is attached first, and its strategy is not looked at by `changeStrategy`
          let entry := ⟨name, strategy⟩
          let t := setStrategyChoiceEntry t name (some entry)
          let infos := changeStrategy r t s.infos name entry oldStrategy strategy
          pure (.ok, { s.setNameTree t with nItems := s.nItems + 1, infos := infos })
  else pure (.depthExceeded, s)

def erase (s : StrategyChoice φ μ ι) (name : Name) : Except String (StrategyChoice φ μ ι) :=
  if name = [] then throw "assertion failed: prefix.size() > 0"
  else
    match s.nameTree.findExactMatch name name.length with
    | none => pure s
    | some nte =>
      match nte.strategyChoiceEntry with
      | none => pure s
      | some entry =>
        match findEffectiveStrategy s.nameTree name.dropLast with
        | none => throw "assertion failed: nte != nullptr"
        | some parentStrategy =>
          let infos := changeStrategy r s.nameTree s.infos name entry entry.strategy parentStrategy
          let t := (setStrategyChoiceEntry s.nameTree name none).eraseIfEmpty name true
          pure { s.setNameTree t with nItems := s.nItems - 1, infos := infos }

/-- `setDefaultStrategy`, with a strategy that has been created. -/
def setDefaultStrategy (strategy : Name) : StrategyChoice φ μ ι :=
  let t := s.nameTree.lookup [] 0 le_rfl (Nat.zero_le _)
  { s.setNameTree (setStrategyChoiceEntry t [] (some ⟨[], strategy⟩)) with nItems := s.nItems + 1 }

/-! ### Effective strategies -/

section Effective

variable {t : Tree φ μ} {name n : Name}

def strategyAt (t : Tree φ μ) (name : Name) : Option Name :=
  (entryAt t name).map Entry.strategy

theorem nteHasStrategyChoiceEntry_eq :
    (nteHasStrategyChoiceEntry : NameTree.Entry φ Pit.Entry μ Entry → Bool) =
      fun nte => (nte.tables.strategyChoiceEntry.map Entry.strategy).isSome :=
  funext fun _ => isSome_map.symm

theorem findEffectiveStrategy_eq (t : Tree φ μ) (name : Name) :
    findEffectiveStrategy t name = find (strategyAt t) name := by
  rw [findEffectiveStrategy, nteHasStrategyChoiceEntry_eq]
  exact bind_findLongestPrefixMatch
    (fun tables => tables.strategyChoiceEntry.map Entry.strategy) rfl t name

theorem findEffectiveStrategyPit_eq {e : Pit.Entry} (hnode : e.nameTreeEntry = e.interest.nodeName)
    (hnte : (t.find? e.nameTreeEntry).isSome) :
    findEffectiveStrategyPit t e =
      find (strategyAt t) (NameTree.lookupName e) := by
  rw [findEffectiveStrategyPit, nteHasStrategyChoiceEntry_eq]
  exact bind_findLongestPrefixMatchPit hnode hnte
    (fun tables => tables.strategyChoiceEntry.map Entry.strategy) rfl

theorem findEffectiveStrategyMeasurements_eq (hnte : (t.find? name).isSome) :
    findEffectiveStrategyMeasurements t name = find (strategyAt t) name := by
  obtain ⟨nte, hfind⟩ := isSome_iff_exists.mp hnte
  obtain ⟨hmem, rfl⟩ := find?_eq_some_iff.mp hfind
  rw [findEffectiveStrategyMeasurements, hfind, nteHasStrategyChoiceEntry_eq]
  exact bind_findLongestPrefixMatchFrom
    (fun tables => tables.strategyChoiceEntry.map Entry.strategy) rfl hmem

theorem strategyAt_of_maxDepth_lt (h : maxDepth < n.length) : strategyAt t n = none := by
  rw [strategyAt, entryAt, tablesAt_of_maxDepth_lt h]
  rfl

end Effective

/-! ### What is cleared -/

section Cleared

variable {t : Tree φ μ} {name n : Name} {infos : Host → List ι} {host : Host}
  {r : StrategyRegistry} {entry : Entry} {oldStrategy newStrategy : Name}

theorem mem_partialEnumerate_isChanged_iff {nte : NameTree.Entry φ Pit.Entry μ Entry} :
    nte ∈ t.partialEnumerate name (isChanged name) ↔
      nte ∈ t.nodes ∧ Covers (strategyAt t) name nte.name := by
  have hstrategy : ∀ u ∈ t.nodes, strategyAt t u.name = strategyOf u := fun u hu => by
    rw [strategyAt, entryAt, tablesAt_of_find? (find?_eq_some_iff.mpr ⟨hu, rfl⟩)]
    rfl
  rw [mem_partialEnumerate_iff_covers (P := fun _ => True) (f := strategyAt t), and_true]
  · intro u
    rw [isChanged]
    split_ifs <;> simp
  · intro u hu _
    rw [hstrategy u hu, isChanged, strategyOf]
    split
    next h => simp [h]
    next h => cases u.strategyChoiceEntry <;> simp [h]

theorem foldl_clearStrategyInfo (ntes : List (NameTree.Entry φ Pit.Entry μ Entry)) :
    ntes.foldl clearStrategyInfo infos host =
      if ∃ nte ∈ ntes, host ∈ hosts nte.name nte.tables then [] else infos host := by
  induction ntes generalizing infos with
  | nil => simp
  | cons nte ntes ih =>
    rw [foldl_cons, ih]
    by_cases hrest : ∃ nte ∈ ntes, host ∈ hosts nte.name nte.tables
    · rw [if_pos hrest, if_pos]
      obtain ⟨nte', hmem, hhost⟩ := hrest
      exact ⟨nte', mem_cons_of_mem nte hmem, hhost⟩
    · rw [if_neg hrest, clearStrategyInfo]
      exact if_congr (by simp [hrest]) rfl rfl

theorem isSome_find?_of_mem_hosts (h : host ∈ hosts n (t.tablesAt n)) : (t.find? n).isSome := by
  by_contra hnone
  rw [tablesAt_of_find?_none (not_isSome_iff_eq_none.mp hnone)] at h
  simp [hosts] at h

theorem changeStrategy_eq_nil (hentry : entry.entryPrefix = name)
    (htype : ¬ r.areSameType oldStrategy newStrategy)
    (hcovers : Covers (strategyAt t) name n) (hhost : host ∈ hosts n (t.tablesAt n)) :
    changeStrategy r t infos name entry oldStrategy newStrategy host = [] := by
  obtain ⟨nte, hfind⟩ := isSome_iff_exists.mp (isSome_find?_of_mem_hosts hhost)
  obtain ⟨hmem, rfl⟩ := find?_eq_some_iff.mp hfind
  rw [changeStrategy, if_neg htype, hentry, foldl_clearStrategyInfo, if_pos]
  rw [tablesAt_of_find? hfind] at hhost
  exact ⟨nte, mem_partialEnumerate_isChanged_iff.mpr ⟨hmem, hcovers⟩, hhost⟩

theorem changeStrategy_eq_self (hentry : entry.entryPrefix = name)
    (h : r.areSameType oldStrategy newStrategy ∨
      ∀ n, Covers (strategyAt t) name n → host ∉ hosts n (t.tablesAt n)) :
    changeStrategy r t infos name entry oldStrategy newStrategy host = infos host := by
  rw [changeStrategy]
  split
  next => rfl
  next htype =>
    rw [hentry, foldl_clearStrategyInfo, if_neg]
    rintro ⟨nte, hnte, hhost⟩
    obtain ⟨hmem, hcovers⟩ := mem_partialEnumerate_isChanged_iff.mp hnte
    refine h.resolve_left htype _ hcovers ?_
    rwa [tablesAt_of_find? (find?_eq_some_iff.mpr ⟨hmem, rfl⟩)]

end Cleared

/-! ### Calls -/

/-- A call of `insert` or `erase`. The root entry is not erased. -/
inductive Call where
  | insert (name strategyName : Name)
  | erase (name : Name) (hname : name ≠ [])

def Call.run (r : StrategyRegistry) (s : StrategyChoice φ μ ι) :
    Call → Except String (StrategyChoice φ μ ι)
  | .insert name strategyName => Prod.snd <$> s.insert r name strategyName
  | .erase name _ => s.erase r name

/-- The prefix of a call, its effective strategy and the one it is to have. There is no change if
the strategy cannot be created, or nothing is to be erased. -/
def Call.change (r : StrategyRegistry) (t : Tree φ μ) : Call → Option (Name × Name × Name)
  | .insert name strategyName =>
    if name.length ≤ maxDepth then
      match r.create strategyName with
      | .ok (some strategy) => (findEffectiveStrategy t name).map (name, ·, strategy)
      | _ => none
    else none
  | .erase name _ =>
    (strategyAt t name).bind fun strategy =>
      (findEffectiveStrategy t name.dropLast).map (name, strategy, ·)

/-- Every PIT entry hangs on its node, every entry of this table on the node of its prefix, and the
root has a strategy. -/
structure Inv (s : StrategyChoice φ μ ι) : Prop where
  pit : s.pit.Inv
  entryPrefix_eq : ∀ n entry, entryAt s.nameTree n = some entry → entry.entryPrefix = n
  root : (strategyAt s.nameTree []).isSome

/-- What a call does that changes the strategy of a prefix from `old` to `new`. -/
structure Changed (r : StrategyRegistry) (s s' : StrategyChoice φ μ ι) (name old new : Name) :
    Prop where
  length_le : name.length ≤ maxDepth
  nextId_eq : s'.pit.nextId = s.pit.nextId
  tablesAt_eq : ∀ n, s'.nameTree.tablesAt n =
    { s.nameTree.tablesAt n with strategyChoiceEntry := entryAt s'.nameTree n }
  entryAt_of_ne : ∀ n, n ≠ name → entryAt s'.nameTree n = entryAt s.nameTree n
  entryPrefix_eq : ∀ entry, entryAt s'.nameTree name = some entry → entry.entryPrefix = name
  find_eq_old : find (strategyAt s.nameTree) name = some old
  find_eq_new : find (strategyAt s'.nameTree) name = some new
  cleared : ¬ r.areSameType old new → ∀ n, Covers (strategyAt s.nameTree) name n →
    ∀ host ∈ hosts n (s.nameTree.tablesAt n), s'.infos host = []
  kept : ∀ host, (r.areSameType old new ∨ ∀ n, Covers (strategyAt s.nameTree) name n →
    host ∉ hosts n (s.nameTree.tablesAt n)) → s'.infos host = s.infos host

section Calls

variable {r : StrategyRegistry} {s : StrategyChoice φ μ ι} {name : Name}

theorem Inv.exists_find (h : s.Inv) (n : Name) :
    ∃ strategy, find (strategyAt s.nameTree) n = some strategy := by
  rw [← isSome_iff_exists, isSome_iff_ne_none, Ne, find_eq_none_iff]
  intro hnone
  have hroot := h.root
  rw [hnone [] List.nil_prefix] at hroot
  cases hroot

theorem tablesAt_setStrategyChoiceEntry {t : Tree φ μ} {entry : Option Entry} {n : Name}
    (h : entry = none ∨ (t.find? name).isSome) :
    (setStrategyChoiceEntry t name entry).tablesAt n =
      if n = name then { t.tablesAt n with strategyChoiceEntry := entry } else t.tablesAt n := by
  rw [setStrategyChoiceEntry, tablesAt_modifyTables (h.imp_left fun h => by rw [h])]

/-- The trees have the same tables but for the entry of a name. -/
def SetsEntry (t t' : Tree φ μ) (name : Name) (entry : Option Entry) : Prop :=
  ∀ n, t'.tablesAt n =
    if n = name then { t.tablesAt n with strategyChoiceEntry := entry } else t.tablesAt n

section SetsEntry

variable {t t' : Tree φ μ} {entry : Entry} {entry' : Option Entry}

theorem SetsEntry.entryAt_eq (h : SetsEntry t t' name entry') (n : Name) :
    entryAt t' n = if n = name then entry' else entryAt t n := by
  rw [entryAt, h, entryAt]
  split <;> rfl

theorem setsEntry_of_eq (h : ∀ n, t'.tablesAt n = t.tablesAt n) (hentry : entryAt t name = entry') :
    SetsEntry t t' name entry' := by
  intro n
  rw [h]
  split
  next hn => rw [hn, ← hentry, entryAt]
  next => rfl

theorem find_strategyAt (h : entryAt t name = some entry) :
    find (strategyAt t) name = some entry.strategy :=
  find_of_eq_some (by rw [strategyAt, h]; rfl)

end SetsEntry

theorem changed_of_setEntry {t t' : Tree φ μ} {entry entry' : Option Entry}
    {changing : Entry} {old new : Name} (n' : ℕ) (hlen : name.length ≤ maxDepth)
    (ht : SetsEntry s.nameTree t name entry) (ht' : SetsEntry s.nameTree t' name entry')
    (hchanging : changing.entryPrefix = name)
    (hentry' : ∀ e, entry' = some e → e.entryPrefix = name)
    (hold : find (strategyAt s.nameTree) name = some old)
    (hnew : find (strategyAt t') name = some new) :
    Changed r s { s.setNameTree t' with
      nItems := n', infos := changeStrategy r t s.infos name changing old new } name old new := by
  have hentryAt : ∀ n, n ≠ name → strategyAt t n = strategyAt s.nameTree n := fun n hn => by
    rw [strategyAt, ht.entryAt_eq, if_neg hn, strategyAt]
  have hhosts : ∀ n, hosts n (t.tablesAt n) = hosts n (s.nameTree.tablesAt n) := fun n => by
    rw [ht]
    split <;> rfl
  constructor
  · exact hlen
  · rfl
  · intro n
    change t'.tablesAt n = { s.nameTree.tablesAt n with strategyChoiceEntry := entryAt t' n }
    rw [ht'.entryAt_eq, ht']
    split <;> rfl
  · intro n hn
    exact (ht'.entryAt_eq n).trans (if_neg hn)
  · intro e he
    exact hentry' e (((ht'.entryAt_eq name).trans (if_pos rfl)).symm.trans he)
  · exact hold
  · exact hnew
  · intro htype n hcovers host hhost
    exact changeStrategy_eq_nil hchanging htype ((covers_congr hentryAt).mpr hcovers)
      (hhosts n ▸ hhost)
  · intro host hkept
    refine changeStrategy_eq_self hchanging (hkept.imp_right fun hout n hcovers => ?_)
    rw [hhosts]
    exact hout n ((covers_congr hentryAt).mp hcovers)

theorem areSameType_self (r : StrategyRegistry) (a : Name) : r.areSameType a a := beq_self_eq_true _

theorem Inv.insert_spec (h : s.Inv) (hlen : name.length ≤ maxDepth)
    {strategyName strategy : Name} (hcreate : r.create strategyName = .ok (some strategy)) :
    ∃ old s', find (strategyAt s.nameTree) name = some old ∧
      s.insert r name strategyName = .ok (.ok, s') ∧ Changed r s s' name old strategy := by
  have hlookup : ∀ n, (s.nameTree.lookup name name.length (length_le_length name) hlen).tablesAt n =
      s.nameTree.tablesAt n := fun n => tablesAt_lookup _ hlen
  have hnode := isSome_find?_lookup (t := s.nameTree) (length_le_length name) hlen
  rw [insert, dif_pos hlen, hcreate]
  generalize s.nameTree.lookup name name.length (length_le_length name) hlen = t
    at hlookup hnode ⊢
  rw [take_length] at hnode
  have hset : ∀ entry', SetsEntry s.nameTree (setStrategyChoiceEntry t name entry') name entry' :=
    fun entry' n => by rw [tablesAt_setStrategyChoiceEntry (.inr hnode), hlookup]
  have hfind : ∀ entry' : Entry,
      find (strategyAt (setStrategyChoiceEntry t name (some entry'))) name =
        some entry'.strategy := fun entry' =>
    find_strategyAt (((hset _).entryAt_eq name).trans (if_pos rfl))
  have hentryAt : entryAt t = entryAt s.nameTree := funext fun n => by
    rw [entryAt, hlookup, entryAt]
  have hsame : SetsEntry s.nameTree t name (entryAt s.nameTree name) := setsEntry_of_eq hlookup rfl
  have hstrategyAt : strategyAt t = strategyAt s.nameTree := funext fun n => by
    rw [strategyAt, hentryAt, strategyAt]
  simp only [hentryAt]
  cases hentry : entryAt s.nameTree name with
  | some entry =>
    have hprefixes := h.entryPrefix_eq name entry hentry
    have hold := find_strategyAt hentry
    refine ⟨entry.strategy, ?_⟩
    simp only
    split
    next heq =>
      subst heq
      have hchanged := changed_of_setEntry (r := r) s.nItems hlen hsame hsame hprefixes
        (h.entryPrefix_eq name) hold (hstrategyAt ▸ hold)
      rw [changeStrategy, if_pos (areSameType_self r _)] at hchanged
      exact ⟨_, hold, rfl, hchanged⟩
    next => exact ⟨_, hold, rfl, changed_of_setEntry s.nItems hlen hsame (hset _) hprefixes
        (fun e he => some.inj he ▸ hprefixes) hold (hfind _)⟩
  | none =>
    obtain ⟨old, hold⟩ := h.exists_find name
    refine ⟨old, ?_⟩
    simp only [findEffectiveStrategy_eq, hstrategyAt, hold]
    exact ⟨_, trivial, rfl, changed_of_setEntry _ hlen (hset _) (hset _) rfl
      (fun e he => some.inj he ▸ rfl) hold (hfind _)⟩

theorem Inv.erase_spec (h : s.Inv) (hname : name ≠ []) {entry : Entry}
    (hentry : entryAt s.nameTree name = some entry) :
    ∃ new s', find (strategyAt s.nameTree) name.dropLast = some new ∧
      s.erase r name = .ok s' ∧ Changed r s s' name entry.strategy new := by
  obtain ⟨new, hnew⟩ := h.exists_find name.dropLast
  obtain ⟨nte, hfind⟩ : ∃ nte, s.nameTree.find? name = some nte := by
    refine ne_none_iff_exists'.mp fun hnone => ?_
    rw [entryAt, tablesAt_of_find?_none hnone] at hentry
    cases hentry
  have hnteEntry : nte.strategyChoiceEntry = some entry := by
    rw [← hentry, entryAt, tablesAt_of_find? hfind]
    rfl
  have hset : SetsEntry s.nameTree
      ((setStrategyChoiceEntry s.nameTree name none).eraseIfEmpty name true) name none := fun n => by
    rw [tablesAt_eraseIfEmpty, tablesAt_setStrategyChoiceEntry (.inl rfl)]
  have hparent : find
      (strategyAt ((setStrategyChoiceEntry s.nameTree name none).eraseIfEmpty name true)) name =
        some new := by
    rw [← find_dropLast (by rw [strategyAt, hset.entryAt_eq, if_pos rfl]; rfl), ← hnew]
    refine find_congr fun q hq => ?_
    have hne : q ≠ name := by
      rintro rfl
      have hlen := hq.length_le
      have hpos := length_pos_iff.mpr hname
      rw [length_dropLast] at hlen
      omega
    rw [strategyAt, hset.entryAt_eq, if_neg hne, strategyAt]
  have hlen : name.length ≤ maxDepth := by
    obtain ⟨hmem, rfl⟩ := find?_eq_some_iff.mp hfind
    exact s.nameTree.wellFormed.length_le nte hmem
  refine ⟨new, _, hnew, ?_, changed_of_setEntry (s.nItems - 1) hlen
    (setsEntry_of_eq (fun _ => rfl) hentry) hset (h.entryPrefix_eq name entry hentry)
    (fun _ he => by cases he) (find_strategyAt hentry) hparent⟩
  rw [erase, if_neg hname, findExactMatch_length, hfind]
  simp only [hnteEntry, findEffectiveStrategy_eq, hnew]
  rfl

theorem Inv.run_spec (h : s.Inv) (call : Call) :
    ∃ s', call.run r s = .ok s' ∧ match call.change r s.nameTree with
      | none => s' = s
      | some (name, old, new) => Changed r s s' name old new := by
  cases call with
  | insert name strategyName =>
    rw [Call.run, Call.change]
    by_cases hlen : name.length ≤ maxDepth
    swap
    · rw [if_neg hlen, insert, dif_neg hlen]
      exact ⟨s, rfl, rfl⟩
    · rw [if_pos hlen]
      rcases hcreate : r.create strategyName with message | _ | strategy
      · rw [insert, dif_pos hlen, hcreate]
        exact ⟨s, rfl, rfl⟩
      · rw [insert, dif_pos hlen, hcreate]
        exact ⟨s, rfl, rfl⟩
      · obtain ⟨old, s', hold, hinsert, hchanged⟩ := h.insert_spec hlen hcreate
        rw [hinsert]
        simp only [findEffectiveStrategy_eq, hold]
        exact ⟨s', rfl, hchanged⟩
  | erase name hname =>
    rw [Call.run, Call.change]
    cases hentry : entryAt s.nameTree name with
    | none =>
      refine ⟨s, ?_, ?_⟩
      · rw [erase, if_neg hname, findExactMatch_length]
        cases hfind : s.nameTree.find? name with
        | none => rfl
        | some nte =>
          have hnone : nte.strategyChoiceEntry = none := by
            rw [← hentry, entryAt, tablesAt_of_find? hfind]
            rfl
          simp only [hnone]
          rfl
      · rw [strategyAt, hentry]
        rfl
    | some entry =>
      obtain ⟨new, s', hnew, herase, hchanged⟩ := h.erase_spec (r := r) hname hentry
      refine ⟨s', herase, ?_⟩
      rw [strategyAt, hentry, findEffectiveStrategy_eq, hnew]
      exact hchanged

end Calls

end StrategyChoice

end NdnFc
