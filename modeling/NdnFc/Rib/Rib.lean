import NdnFc.Lib.KeyedList
import NdnFc.Lib.PrefixForest
import NdnFc.Lib.SortedTable
import NdnFc.Name.Basic

/-!
# The routing information base

The RIB (`NFD-FC/daemon/rib/rib.cpp`) holds entries sorted by name. An entry (`rib-entry.cpp`) holds
routes, at most one for each face and origin, and counts those with the capture flag. The links of
the tree of entries are kept here in a table by name. An index of the faces refers to entries by
address, since an entry may be erased and made anew.
-/

namespace NdnFc

open PrefixForest (Link)

/-- `Route`, without its expiration. -/
structure Route where
  faceId : ℕ
  origin : ℕ
  cost : ℕ
  flags : ℕ
deriving DecidableEq

namespace Route

variable (r : Route)

def isChildInherit : Bool := r.flags.testBit 0

def isRibCapture : Bool := r.flags.testBit 1

/-- The face and the origin, which `compareFaceIdAndOrigin` compares. -/
def key : ℕ × ℕ := (r.faceId, r.origin)

end Route

/-- `RibEntry`, without the routes that it has inherited, and without its links in the tree. -/
structure RibEntry where
  name : Name
  address : ℕ
  routes : List Route
  nRoutesWithCaptureSet : UInt64
deriving DecidableEq

namespace RibEntry

variable (e : RibEntry) (route : Route)

def findRoute : Option Route :=
  KeyedList.get? Route.key e.routes route.key

/-- `insertRoute` for a route that is not there. -/
def insertRoute : RibEntry :=
  { e with
    routes := e.routes ++ [route]
    nRoutesWithCaptureSet :=
      if route.isRibCapture then e.nRoutesWithCaptureSet + 1 else e.nRoutesWithCaptureSet }

/-- The assignment of a route to the one with the same face and origin. -/
def replaceRoute : RibEntry :=
  { e with routes := KeyedList.update Route.key e.routes route.key fun _ => route }

/-- `eraseRoute` for the route that was found. -/
def eraseRoute (existing : Route) : RibEntry :=
  { e with
    routes := KeyedList.erase Route.key e.routes existing.key
    nRoutesWithCaptureSet :=
      if existing.isRibCapture then e.nRoutesWithCaptureSet - 1 else e.nRoutesWithCaptureSet }

def hasFaceId (faceId : ℕ) : Bool :=
  e.routes.any fun r => r.faceId == faceId

def hasCapture : Bool :=
  decide (0 < e.nRoutesWithCaptureSet)

end RibEntry

/-- `Rib`, without its queue of updates. The links of the entries are in a table by name. The last
number is an unused address. -/
structure Rib where
  entries : List RibEntry
  links : Name → Link Component
  faceEntries : List (ℕ × ℕ)
  nItems : ℕ
  nextAddress : ℕ

namespace Rib

def empty : Rib := ⟨[], fun _ => ⟨none, []⟩, [], 0, 0⟩

variable (rib : Rib) (name : Name)

def find : Option RibEntry :=
  KeyedList.get? RibEntry.name rib.entries name

/-- `find(prefix, route)` -/
def findRoute (route : Route) : Option Route :=
  (rib.find name).bind fun entry => entry.findRoute route

/-- A change of the entry of a name. -/
def update (f : RibEntry → RibEntry) : Rib :=
  { rib with entries := KeyedList.update RibEntry.name rib.entries name f }

/-! ### The tree -/

/-- The loop of `findParent`: the longest of the prefixes with less than `n` components. -/
def findShorter (rib : Rib) (name : Name) : ℕ → Option RibEntry
  | 0 => none
  | n + 1 => (rib.find (name.take n)).or (findShorter rib name n)

def findParent : Option RibEntry :=
  rib.findShorter name name.length

def findLongestPrefix (route : Route) : Option Route :=
  (rib.findRoute name route).or
    ((rib.findParent name).bind fun parent => rib.findRoute parent.name route)

/-- `findDescendants`: the entries after the one of the name, as long as it is a prefix. -/
def findDescendants : List RibEntry :=
  ((rib.entries.dropWhile fun e => e.name ≠ name).drop 1).takeWhile fun e => name.isPrefixOf e.name

variable (links : Name → Link Component)

def addChild (parent child : Name) : Name → Link Component :=
  fun n =>
    { parent := if n = child then some parent else (links n).parent
      children := if n = parent then (links n).children ++ [child] else (links n).children }

def removeChild (parent child : Name) : Name → Link Component :=
  fun n =>
    { parent := if n = child then none else (links n).parent
      children :=
        if n = parent then (links n).children.filter (· ≠ child) else (links n).children }

/-- A child is moved from a former parent to a new one, either of which may be absent. -/
def moveChild (old new : Option Name) (links : Name → Link Component) (child : Name) :
    Name → Link Component :=
  let removed := match old with
    | some parent => removeChild links parent child
    | none => links
  match new with
  | some parent => addChild removed parent child
  | none => removed

/-! ### Insertion and removal -/

/-- The part of `insert` for a name that is in the RIB. -/
def insertIntoEntry (entry : RibEntry) (route : Route) : Rib :=
  if (entry.findRoute route).isSome then rib.update entry.name fun e => e.replaceRoute route
  else
    { rib.update entry.name fun e => e.insertRoute route with
      nItems := rib.nItems + 1
      faceEntries := rib.faceEntries ++ [(route.faceId, entry.address)] }

def addEntry (route : Route) : Rib :=
  let entry := RibEntry.insertRoute ⟨name, rib.nextAddress, [], 0⟩ route
  { entries := SortedTable.emplace (fun a b => Name.compare a.name b.name) entry rib.entries
    links := fun n => if n = name then ⟨none, []⟩ else rib.links n
    faceEntries := rib.faceEntries ++ [(route.faceId, rib.nextAddress)]
    nItems := rib.nItems + 1
    nextAddress := rib.nextAddress + 1 }

/-- The part of `insert` for a new name. -/
def insertEntry (route : Route) : Rib :=
  let added := rib.addEntry name route
  let parent := (added.findParent name).map RibEntry.name
  let links := moveChild none parent added.links name
  let children := ((added.findDescendants name).map RibEntry.name).filter fun child =>
    (links child).parent = parent
  { added with links := children.foldl (moveChild parent (some name)) links }

def insert (route : Route) : Rib :=
  match rib.find name with
  | some entry => rib.insertIntoEntry entry route
  | none => rib.insertEntry name route

def eraseEntry : Rib :=
  let parent := (rib.links name).parent
  { rib with
    entries := KeyedList.erase RibEntry.name rib.entries name
    links := (rib.links name).children.foldl (moveChild (some name) parent)
      (moveChild parent none rib.links name) }

def erase (route : Route) : Rib :=
  match rib.find name with
  | none => rib
  | some entry =>
    match entry.findRoute route with
    | none => rib
    | some existing =>
      let erased := entry.eraseRoute existing
      let rib' : Rib :=
        { rib.update name fun e => e.eraseRoute existing with
          nItems := rib.nItems - 1
          faceEntries := if erased.hasFaceId route.faceId then rib.faceEntries
            else rib.faceEntries.erase (route.faceId, entry.address) }
      if erased.routes = [] then rib'.eraseEntry name else rib'

end Rib

end NdnFc
