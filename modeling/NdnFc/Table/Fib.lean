import NdnFc.Table.NameTreeMatch

/-!
# Forwarding Information Base

A FIB entry has a prefix and next hops, at most one for each face and in the order of their costs
(`NFD-FC/daemon/table/fib-entry.cpp`, `fib.cpp`), and hangs on a node of the name tree. The order in
which `std::sort` leaves next hops of equal cost is arbitrary here (`Fib.NextHopSort`).
-/

namespace NdnFc

open Option KeyedList LongestPrefix

namespace Fib

structure NextHop where
  face : FaceId
  cost : ℕ
deriving DecidableEq

def NextHop.setCost (cost : ℕ) (nextHop : NextHop) : NextHop :=
  { nextHop with cost := cost }

/-- An implementation of `std::sort` by cost. -/
structure NextHopSort where
  sort : List NextHop → List NextHop
  perm : ∀ l, (sort l).Perm l
  sorted : ∀ l, (sort l).Pairwise fun a b => a.cost ≤ b.cost

@[ext] structure Entry where
  name : Name
  nextHops : List NextHop
  nodup : (nextHops.map NextHop.face).Nodup
  sorted : nextHops.Pairwise fun a b => a.cost ≤ b.cost
deriving DecidableEq

namespace Entry

/-- The constructor `Entry(prefix)`. -/
def create (name : Name) : Entry where
  name := name
  nextHops := []
  nodup := List.nodup_nil
  sorted := List.Pairwise.nil

variable (e : Entry)

def hasNextHops : Bool :=
  !e.nextHops.isEmpty

def findNextHop (face : FaceId) : Option NextHop :=
  e.nextHops.find? (·.face == face)

variable (s : NextHopSort)

/-- `addOrUpdateNextHop`, and whether the next hop is new. -/
def addOrUpdateNextHop (e : Entry) (face : FaceId) (cost : ℕ) : Entry × Bool :=
  if h : (e.findNextHop face).isSome then
    ({ name := e.name
       nextHops := s.sort (update NextHop.face e.nextHops face (NextHop.setCost cost))
       nodup := by
        rw [((s.perm _).map _).nodup_iff,
          map_key_update (f := NextHop.setCost cost) fun _ => rfl]
        exact e.nodup
       sorted := s.sorted _ }, false)
  else
    ({ name := e.name
       nextHops := s.sort (e.nextHops ++ [⟨face, cost⟩])
       nodup := by
        rw [((s.perm _).map _).nodup_iff]
        exact nodup_map_key_append_singleton e.nodup
          (by simpa [findNextHop, get?, beq_iff_eq] using h)
       sorted := s.sorted _ }, true)

/-- `removeNextHop`, and whether there was one to remove. -/
def removeNextHop (face : FaceId) : Entry × Bool :=
  ({ name := e.name
     nextHops := e.nextHops.eraseP (·.face == face)
     nodup := e.nodup.sublist (List.eraseP_sublist.map _)
     sorted := e.sorted.sublist List.eraseP_sublist }, (e.findNextHop face).isSome)

/-- The next hop under the iterator that `addOrUpdateNextHop` returns. The iterator is a place in the
list, and is taken before the list is sorted. -/
def returned (e : Entry) (face : FaceId) (cost : ℕ) : Option NextHop :=
  (e.addOrUpdateNextHop s face cost).1.nextHops[e.nextHops.findIdx (·.face == face)]?

/-- What `addOrUpdateNextHop` of the table emits on `afterNewNextHop`. -/
def afterNewNextHop (e : Entry) (face : FaceId) (cost : ℕ) : List (Name × NextHop) :=
  if (e.addOrUpdateNextHop s face cost).2 then
    (e.returned s face cost).toList.map fun nextHop => (e.name, nextHop)
  else []

end Entry

/-- `s_emptyEntry` -/
def emptyEntry : Entry := .create []

inductive RemoveNextHopResult where
  | noSuchNextHop
  | fibEntryRemoved
  | nextHopRemoved
deriving DecidableEq

end Fib

/-- The table. `nItems` is an unsigned counter. -/
structure Fib (π μ σ : Type*) where
  nameTree : NameTree Fib.Entry π μ σ
  nItems : UInt64

namespace Fib

variable {π μ σ : Type*}

def nteHasFibEntry (nte : NameTree.Entry Entry π μ σ) : Bool :=
  nte.fibEntry.isSome

variable (t : NameTree Entry π μ σ)

def entryAt (name : Name) : Option Entry :=
  (t.tablesAt name).fibEntry

def setFibEntry (name : Name) (entry : Option Entry) : NameTree Entry π μ σ :=
  t.modifyTables name fun tables => { tables with fibEntry := entry }

variable (fib : Fib π μ σ) (name : Name)

def findLongestPrefixMatch : Entry :=
  ((fib.nameTree.findLongestPrefixMatch name nteHasFibEntry).bind (·.fibEntry)).getD emptyEntry

def findLongestPrefixMatchPit (fib : Fib Pit.Entry μ σ) (pitEntry : Pit.Entry) : Entry :=
  ((fib.nameTree.findLongestPrefixMatchPit pitEntry nteHasFibEntry).bind (·.fibEntry)).getD
    emptyEntry

/-- `insert`, for a prefix that is not deeper than the tree may be. -/
def insert (hdepth : name.length ≤ NameTree.maxDepth) : Fib π μ σ :=
  let nameTree := fib.nameTree.lookup name name.length le_rfl hdepth
  match entryAt nameTree name with
  | some _ => { fib with nameTree := nameTree }
  | none =>
    { nameTree := setFibEntry nameTree name (some (.create name))
      nItems := fib.nItems + 1 }

/-- `erase` of the entry on a node. -/
def eraseAt (canDeleteNte : Bool) : Fib π μ σ where
  nameTree :=
    let t := setFibEntry fib.nameTree name none
    if canDeleteNte then t.eraseIfEmpty name true else t
  nItems := fib.nItems - 1

/-- `erase` by prefix. The source takes the node for one that has an entry. -/
def erase : Fib π μ σ :=
  match fib.nameTree.findExactMatch name name.length with
  | none => fib
  | some nte => fib.eraseAt nte.name true

/-- `erase` by entry, which is given by the node it hangs on. Only the empty entry hangs on none. -/
def eraseEntry (nte : Option Name) : Fib π μ σ :=
  match nte with
  | none => fib
  | some name => fib.eraseAt name true

/-- `addOrUpdateNextHop` on the entry of a prefix. -/
def addOrUpdateNextHop (s : NextHopSort) (fib : Fib π μ σ) (name : Name) (face : FaceId)
    (cost : ℕ) : Fib π μ σ :=
  match entryAt fib.nameTree name with
  | none => fib
  | some entry =>
    { fib with
      nameTree := setFibEntry fib.nameTree name (some (entry.addOrUpdateNextHop s face cost).1) }

/-- `removeNextHop` on the entry of a prefix. -/
def removeNextHop (face : FaceId) : Fib π μ σ × RemoveNextHopResult :=
  match entryAt fib.nameTree name with
  | none => (fib, .noSuchNextHop)
  | some entry =>
    let (entry', isRemoved) := entry.removeNextHop face
    let fib' := { fib with nameTree := setFibEntry fib.nameTree name (some entry') }
    if !isRemoved then (fib', .noSuchNextHop)
    else if !entry'.hasNextHops then (fib'.eraseAt name false, .fibEntryRemoved)
    else (fib', .nextHopRemoved)

/-! ### Lookups -/

/-- The entry is that of the longest prefix of the name that has one, and the empty entry if there
is none. -/
def IsLongestMatch (entry : Entry) : Prop :=
  (∃ p, p <+: name ∧ entryAt t p = some entry ∧
    ∀ q, q <+: name → (entryAt t q).isSome → q.length ≤ p.length) ∨
  (entry = emptyEntry ∧ ∀ p, p <+: name → entryAt t p = none)

variable {t : NameTree Entry π μ σ} {name : Name}

theorem isLongestMatch_iff {entry : Entry} :
    IsLongestMatch t name entry ↔
      entry = (find (entryAt t) name).getD emptyEntry := by
  constructor
  · rintro (⟨p, hp, hentry, hlongest⟩ | ⟨rfl, hall⟩)
    · have hfind := find_eq_some_iff.mpr ⟨p, ⟨hp, fun q hpq hq hne => ?_⟩, hentry⟩
      · rw [hfind, getD_some]
      · refine eq_none_iff_forall_ne_some.mpr fun other hother => hne ?_
        have hle := hlongest q hq (isSome_of_eq_some hother)
        exact (hpq.eq_of_length_le hle).symm
    · rw [find_eq_none_iff.mpr hall, getD_none]
  · rintro rfl
    cases hfind : find (entryAt t) name with
    | none => exact .inr ⟨rfl, find_eq_none_iff.mp hfind⟩
    | some entry =>
      obtain ⟨p, ⟨hp, hcovers⟩, hentry⟩ := find_eq_some_iff.mp hfind
      refine .inl ⟨p, hp, hentry, fun q hq hsome => ?_⟩
      rcases List.prefix_or_prefix_of_prefix hp hq with hpq | hqp
      · by_cases hne : q = p
        · rw [hne]
        · rw [hcovers q hpq hq hne] at hsome
          cases hsome
      · exact hqp.length_le

theorem findLongestPrefixMatch_eq (fib : Fib π μ σ) (name : Name) :
    fib.findLongestPrefixMatch name =
      (find (entryAt fib.nameTree) name).getD emptyEntry :=
  congrArg (getD · emptyEntry)
    (NameTree.bind_findLongestPrefixMatch TableEntries.fibEntry rfl fib.nameTree name)

theorem findLongestPrefixMatchPit_eq (fib : Fib Pit.Entry μ σ) {pitEntry : Pit.Entry}
    (hnode : pitEntry.nameTreeEntry = pitEntry.interest.nodeName)
    (hnte : (fib.nameTree.find? pitEntry.nameTreeEntry).isSome) :
    fib.findLongestPrefixMatchPit pitEntry =
      (find (entryAt fib.nameTree) (NameTree.lookupName pitEntry)).getD emptyEntry :=
  congrArg (getD · emptyEntry)
    (NameTree.bind_findLongestPrefixMatchPit hnode hnte TableEntries.fibEntry rfl)

theorem find_entryAt_take (t : NameTree Entry π μ σ) (name : Name) :
    find (entryAt t) (name.take NameTree.maxDepth) =
      find (entryAt t) name :=
  NameTree.find_tablesAt_take TableEntries.fibEntry rfl t name

theorem entryAt_lookup {prefixLen : ℕ} (hlen : prefixLen ≤ name.length)
    (hdepth : prefixLen ≤ NameTree.maxDepth) (n : Name) :
    entryAt (t.lookup name prefixLen hlen hdepth) n = entryAt t n := by
  rw [entryAt, NameTree.tablesAt_lookup, entryAt]

theorem entryAt_setFibEntry {entry : Option Entry} (h : entry = none ∨ (t.find? name).isSome)
    (n : Name) :
    entryAt (setFibEntry t name entry) n = if n = name then entry else entryAt t n := by
  rw [entryAt, setFibEntry, NameTree.tablesAt_modifyTables (h.imp_left fun h => by rw [h])]
  split <;> rfl

end Fib

end NdnFc
