import NdnFc.Lib.HandleLists
import NdnFc.Table.ContentStore

/-!
# Replacement policy priority FIFO

The content store with its priority FIFO policy (`NFD-FC/daemon/table/cs-policy-priority-fifo.cpp`,
`cs.cpp`). References to the entries are in three queues, for unsolicited, stale and other entries;
a map holds the type of the queue, an iterator into it, and the event that moves the entry to the
stale queue. Iterators and events are numbers that are not used again. An operation has no result
when an assertion fails or something erased is used.
-/

namespace NdnFc

open Function Option List KeyedList

inductive QueueType where
  | unsolicited
  | stale
  | fifo
deriving DecidableEq, Repr

structure EntryInfo where
  queueType : QueueType
  queueIt : ℕ
  moveStaleEventId : Option ℕ
deriving DecidableEq

/-- One eviction: the entry, the queues and the entries of the table just before. -/
structure PriorityEviction where
  evicted : EntryRef
  queues : QueueType → List EntryRef
  present : List EntryRef

/-- The entry is in the table, and it is the head of the unsolicited queue if there is one, else of
the stale queue, else of the FIFO queue. -/
def PriorityEviction.TakesHead (v : PriorityEviction) : Prop :=
  v.evicted ∈ v.present ∧
    if v.queues .unsolicited ≠ [] then (v.queues .unsolicited).head? = some v.evicted
    else if v.queues .stale ≠ [] then (v.queues .stale).head? = some v.evicted
    else (v.queues .fifo).head? = some v.evicted

/-- The content store, the queues and the map of its policy, the pending events, and the history. -/
structure PriorityFifoStore where
  cs : ContentStore
  queues : QueueType → List (ℕ × EntryRef)
  entryInfoMap : EntryRef → Option EntryInfo
  events : List (ℕ × EntryRef)
  nextIterator : ℕ
  nextEventId : ℕ
  evictions : List PriorityEviction

namespace PriorityFifoStore

open ContentStore (Entry keyOf)

variable (s : PriorityFifoStore)

def refs (type : QueueType) : List EntryRef :=
  (s.queues type).map Prod.snd

/-- The entries that pending events refer to. -/
def eventRefs : List EntryRef :=
  s.events.map Prod.snd

/-- `erase` of a queue at an iterator. -/
def eraseFromQueue (type : QueueType) (it : ℕ) : Option PriorityFifoStore :=
  if (s.queues type).any fun node => node.1 = it then
    some { s with queues :=
      Function.update s.queues type (erase Prod.fst (s.queues type) it) }
  else none

/-- `insert` at the end of a queue. The iterator is `nextIterator`. -/
def insertToQueue (type : QueueType) (k : EntryRef) : PriorityFifoStore :=
  { s with
    queues := Function.update s.queues type (s.queues type ++ [(s.nextIterator, k)])
    nextIterator := s.nextIterator + 1 }

def cancel : Option ℕ → PriorityFifoStore
  | some id => { s with events := erase Prod.fst s.events id }
  | none => s

/-! ### Callbacks of the policy -/

def detachQueue (k : EntryRef) : Option PriorityFifoStore := do
  let entryInfo ← s.entryInfoMap k
  let s := if entryInfo.queueType = .fifo then s.cancel entryInfo.moveStaleEventId else s
  let s ← s.eraseFromQueue entryInfo.queueType entryInfo.queueIt
  pure { s with entryInfoMap := Function.update s.entryInfoMap k none }

variable [Sha256] (s : PriorityFifoStore) (k : EntryRef)

/-- The entry that a reference leads to. -/
def entryAt : Option Entry :=
  s.cs.table.find? fun e => keyOf e.data = k

omit [Sha256] in
def queueTypeOf (entry : Entry) (now : Time) : QueueType :=
  if entry.isUnsolicited then .unsolicited else if !entry.isFresh now then .stale else .fifo

def attachQueue (now : Time) : Option PriorityFifoStore :=
  if (s.entryInfoMap k).isSome then none
  else do
    let entry ← s.entryAt k
    let queueType := queueTypeOf entry now
    let moveStaleEventId := if queueType = .fifo then some s.nextEventId else none
    let entryInfo : EntryInfo := ⟨queueType, s.nextIterator, moveStaleEventId⟩
    let s := match moveStaleEventId with
      | some id => { s with events := s.events ++ [(id, k)], nextEventId := s.nextEventId + 1 }
      | none => s
    pure { s.insertToQueue queueType k with
      entryInfoMap := Function.update s.entryInfoMap k (some entryInfo) }

def moveToStaleQueue : Option PriorityFifoStore := do
  let _ ← s.entryAt k
  let entryInfo ← s.entryInfoMap k
  if entryInfo.queueType ≠ .fifo then none
  else do
    let s ← s.eraseFromQueue .fifo entryInfo.queueIt
    pure { s.insertToQueue .stale k with
      entryInfoMap := Function.update s.entryInfoMap k
        (some { entryInfo with queueType := .stale, queueIt := s.nextIterator }) }

def eraseFromTable : PriorityFifoStore :=
  { s with cs := s.cs.eraseKey k }

omit [Sha256] in
/-- The entry that `evictOne` takes. -/
def victim : Option EntryRef :=
  if s.queues .unsolicited ≠ [] then (s.refs .unsolicited).head?
  else if s.queues .stale ≠ [] then (s.refs .stale).head?
  else (s.refs .fifo).head?

/-- `evictOne`: on the signal `beforeEvict` the store erases the entry. -/
def evictOne : Option PriorityFifoStore := do
  let k ← s.victim
  let detached ← s.detachQueue k
  pure { detached.eraseFromTable k with
    evictions := s.evictions ++ [⟨k, s.refs, s.cs.keys⟩] }

/-- The loop in `evictEntries`, at most `n` rounds. -/
def evictLoop : ℕ → PriorityFifoStore → Option PriorityFifoStore
  | 0, s => some s
  | n + 1, s => if s.cs.limit < s.cs.table.length then s.evictOne.bind (evictLoop n) else some s

/-- `evictEntries`. Each round shortens the table. -/
def evictEntries : Option PriorityFifoStore :=
  evictLoop s.cs.table.length s

/-! ### Operations of the store -/

/-- `insert` at time `now`. The policy looks at the freshness of the entry at a time of its own. -/
def insert (s : PriorityFifoStore) (d : DataPacket) (isUnsolicited noCache : Bool)
    (now attachTime : Time) : Option PriorityFifoStore :=
  if !s.cs.shouldAdmit || s.cs.limit == 0 || noCache then some s
  else
    let stored := { s with cs := s.cs.insert d isUnsolicited noCache now }
    if s.cs.table.any fun e => ContentStore.compareDataWithData e.data d == .eq then do
      -- `doAfterRefresh`
      let detached ← stored.detachQueue (keyOf d)
      detached.attachQueue (keyOf d) attachTime
    else do
      -- `doAfterInsert`
      let attached ← stored.attachQueue (keyOf d) attachTime
      attached.evictEntries

/-- One round of the loop in `eraseImpl`, with `doBeforeErase`. -/
def eraseEntry (e : Entry) : Option PriorityFifoStore := do
  let detached ← s.detachQueue (keyOf e.data)
  pure (detached.eraseFromTable (keyOf e.data))

/-- The entries that `eraseImpl` erases. Computing the range may throw. -/
def erased (name : Name) (limit : ℕ) : List Entry :=
  match s.cs.findPrefixRange name with
  | .ok (first, last) => (SortedTable.range first last s.cs.table).take limit
  | .error _ => []

/-- The operations on the store, and the firing of an event. -/
inductive Op where
  | insert (d : DataPacket) (isUnsolicited noCache : Bool) (now attachTime : Time)
  | erase (name : Name) (limit : ℕ)
  | find (interest : Interest) (now : Time)
  | setLimit (nMaxPackets : ℕ)
  | enableAdmit (shouldAdmit : Bool)
  | enableServe (shouldServe : Bool)
  | fire (event : ℕ)

/-- One operation. A lookup and an operation that throws leave the store as it is, and an event that
is not pending does not fire. -/
def step : Op → Option PriorityFifoStore
  | .insert d isUnsolicited noCache now attachTime =>
    s.insert d isUnsolicited noCache now attachTime
  | .erase name limit => (s.erased name limit).foldlM eraseEntry s
  | .find interest now => match s.cs.find interest now with
    -- `doBeforeUse`
    | .ok (some e) => if (s.entryInfoMap (keyOf e.data)).isSome then some s else none
    | _ => some s
  | .setLimit nMaxPackets => evictEntries { s with cs := { s.cs with limit := nMaxPackets } }
  | .enableAdmit shouldAdmit => some { s with cs := { s.cs with shouldAdmit := shouldAdmit } }
  | .enableServe shouldServe => some { s with cs := { s.cs with shouldServe := shouldServe } }
  | .fire event => match get? Prod.fst s.events event with
    | some (id, k) => moveToStaleQueue { s with events := erase Prod.fst s.events id } k
    | none => some s

omit [Sha256] in
def init (nMaxPackets : ℕ) : PriorityFifoStore where
  cs := ContentStore.init nMaxPackets
  queues _ := []
  entryInfoMap _ := none
  events := []
  nextIterator := 0
  nextEventId := 0
  evictions := []

/-! ### Queues, events and the map -/

section

omit [Sha256]

variable {s : PriorityFifoStore} {k : EntryRef} {entryInfo : EntryInfo}

variable (entryInfoMap : EntryRef → Option EntryInfo)

/-- Where the map says that an entry is. -/
def queueIndex (k : EntryRef) : Option (QueueType × ℕ) :=
  (entryInfoMap k).map fun entryInfo => (entryInfo.queueType, entryInfo.queueIt)

/-- Which event the map says that an entry has. What it says about an entry outside the FIFO queue
does not count. -/
def eventIndex (k : EntryRef) : Option (Unit × ℕ) :=
  (entryInfoMap k).bind fun entryInfo =>
    if entryInfo.queueType = .fifo then entryInfo.moveStaleEventId.map fun id => ((), id) else none

section

variable (entryInfoMap : EntryRef → Option EntryInfo) (k : EntryRef) (entryInfo : Option EntryInfo)

theorem queueIndex_update :
    queueIndex (Function.update entryInfoMap k entryInfo) =
      Function.update (queueIndex entryInfoMap) k
        (entryInfo.map fun entryInfo => (entryInfo.queueType, entryInfo.queueIt)) :=
  comp_update (Option.map _) entryInfoMap k entryInfo

theorem eventIndex_update :
    eventIndex (Function.update entryInfoMap k entryInfo) =
      Function.update (eventIndex entryInfoMap) k (entryInfo.bind fun entryInfo =>
        if entryInfo.queueType = .fifo then entryInfo.moveStaleEventId.map fun id => ((), id)
        else none) :=
  comp_update (Option.bind · _) entryInfoMap k entryInfo

end

/-- The map tells for each entry its place in the queues and its pending event, and the entries of
the FIFO queue have one. -/
structure Queued (s : PriorityFifoStore) : Prop where
  queues : HandleLists.Indexed s.queues (queueIndex s.entryInfoMap) s.nextIterator
  events : HandleLists.Indexed (fun _ : Unit => s.events) (eventIndex s.entryInfoMap) s.nextEventId
  isSome_event : ∀ k entryInfo, s.entryInfoMap k = some entryInfo → entryInfo.queueType = .fifo →
    entryInfo.moveStaleEventId.isSome

theorem queueIndex_eq (hk : s.entryInfoMap k = some entryInfo) :
    queueIndex s.entryInfoMap k = some (entryInfo.queueType, entryInfo.queueIt) := by
  rw [queueIndex, hk]
  rfl

theorem Queued.isSome_event_update (h : s.Queued) (k : EntryRef) (info : Option EntryInfo)
    (hinfo : ∀ entryInfo, info = some entryInfo → entryInfo.queueType = .fifo →
      entryInfo.moveStaleEventId.isSome) (k' : EntryRef) (entryInfo : EntryInfo)
    (hk' : Function.update s.entryInfoMap k info k' = some entryInfo)
    (hfifo : entryInfo.queueType = .fifo) : entryInfo.moveStaleEventId.isSome := by
  by_cases heq : k' = k
  · rw [heq, update_self] at hk'
    exact hinfo entryInfo hk' hfifo
  · rw [update_of_ne heq] at hk'
    exact h.isSome_event k' entryInfo hk' hfifo

theorem Queued.any_queue (h : s.Queued) (hk : s.entryInfoMap k = some entryInfo) :
    (s.queues entryInfo.queueType).any (fun node => node.1 = entryInfo.queueIt) = true :=
  any_eq_true.mpr ⟨(entryInfo.queueIt, k),
    (h.queues.mem_iff _ _ _).mpr (queueIndex_eq hk), decide_eq_true rfl⟩

theorem update_unit {α : Type*} (f : Unit → α) (value : α) :
    Function.update f () value = fun _ => value := by
  funext
  exact update_self () value f

theorem Queued.exists_detachQueue (h : s.Queued) (hk : s.entryInfoMap k = some entryInfo) :
    ∃ s', s.detachQueue k = some s' ∧ s'.Queued ∧
      s'.entryInfoMap = Function.update s.entryInfoMap k none ∧ s'.cs = s.cs ∧
      s'.evictions = s.evictions := by
  have hqueues := h.queues.remove (queueIndex_eq hk)
  rw [← Option.map_none, ← queueIndex_update] at hqueues
  obtain ⟨events, hcancel, hevents⟩ : ∃ events,
      (if entryInfo.queueType = .fifo then s.cancel entryInfo.moveStaleEventId else s) =
        { s with events } ∧
      HandleLists.Indexed (fun _ : Unit => events)
        (eventIndex (Function.update s.entryInfoMap k none)) s.nextEventId := by
    rw [eventIndex_update, bind_none]
    by_cases hfifo : entryInfo.queueType = .fifo
    · obtain ⟨id, hid⟩ := isSome_iff_exists.mp (h.isSome_event k entryInfo hk hfifo)
      have hindex : eventIndex s.entryInfoMap k = some ((), id) := by
        rw [eventIndex, hk, bind_some, if_pos hfifo, hid]
        rfl
      have hevents := h.events.remove hindex
      rw [update_unit] at hevents
      exact ⟨_, by rw [if_pos hfifo, hid]; rfl, hevents⟩
    · have hindex : eventIndex s.entryInfoMap k = none := by
        rw [eventIndex, hk, bind_some, if_neg hfifo]
      exact ⟨s.events, if_neg hfifo, by rw [← hindex, update_eq_self]; exact h.events⟩
  refine ⟨{ s with
    events
    queues := Function.update s.queues entryInfo.queueType
      (erase Prod.fst (s.queues entryInfo.queueType) entryInfo.queueIt)
    entryInfoMap := Function.update s.entryInfoMap k none }, ?_,
    ⟨hqueues, hevents, h.isSome_event_update k none (by simp)⟩, rfl, rfl, rfl⟩
  simp only [detachQueue, hk, bind_eq_bind, bind_some, hcancel, eraseFromQueue, h.any_queue hk,
    if_true]
  rfl

end

theorem Queued.exists_attachQueue {s : PriorityFifoStore} (h : s.Queued) {k : EntryRef}
    (hk : s.entryInfoMap k = none) {entry : Entry} (hentry : s.entryAt k = some entry)
    (now : Time) :
    ∃ s' entryInfo, s.attachQueue k now = some s' ∧ s'.Queued ∧
      s'.entryInfoMap = Function.update s.entryInfoMap k (some entryInfo) ∧
      entryInfo.queueType = queueTypeOf entry now ∧ s'.cs = s.cs ∧ s'.evictions = s.evictions := by
  have hindex : queueIndex s.entryInfoMap k = none := by
    rw [queueIndex, hk]
    rfl
  have hindex' : eventIndex s.entryInfoMap k = none := by
    rw [eventIndex, hk]
    rfl
  have hopen : (none : Option EntryInfo).isSome = true ↔ False := by simp
  let id := if queueTypeOf entry now = .fifo then some s.nextEventId else none
  let entryInfo : EntryInfo := ⟨queueTypeOf entry now, s.nextIterator, id⟩
  have hqueues := h.queues.push hindex (queueTypeOf entry now)
  obtain ⟨events, nextEventId, hschedule, hevents⟩ : ∃ events nextEventId,
      (match id with
        | some id => { s with events := s.events ++ [(id, k)], nextEventId := s.nextEventId + 1 }
        | none => s) = { s with events, nextEventId } ∧
      HandleLists.Indexed (fun _ : Unit => events)
        (eventIndex (Function.update s.entryInfoMap k (some entryInfo))) nextEventId := by
    rw [eventIndex_update, bind_some]
    by_cases hfifo : queueTypeOf entry now = .fifo
    · have hevents := h.events.push hindex' ()
      rw [update_unit] at hevents
      simp only [entryInfo, id, if_pos hfifo]
      exact ⟨_, _, rfl, hevents⟩
    · simp only [entryInfo, id, if_neg hfifo]
      exact ⟨_, _, rfl, by rw [← hindex', update_eq_self]; exact h.events⟩
  refine ⟨{ s with
    events, nextEventId
    queues := Function.update s.queues (queueTypeOf entry now)
      (s.queues (queueTypeOf entry now) ++ [(s.nextIterator, k)])
    nextIterator := s.nextIterator + 1
    entryInfoMap := Function.update s.entryInfoMap k (some entryInfo) }, entryInfo, ?_,
    ⟨?_, hevents, h.isSome_event_update k (some entryInfo) ?_⟩, rfl, rfl, rfl, rfl⟩
  · simp only [attachQueue, hk, hopen, if_false, hentry, bind_eq_bind, bind_some]
    exact congrArg some (by rw [hschedule]; rfl)
  · rw [queueIndex_update]
    exact hqueues
  · rintro _ ⟨⟩ hfifo
    exact isSome_iff_exists.mpr ⟨_, if_pos hfifo⟩

theorem Queued.exists_moveToStaleQueue {s : PriorityFifoStore} (h : s.Queued) {id : ℕ}
    {k : EntryRef}
    (hevent : (id, k) ∈ s.events) {entry : Entry} (hentry : s.entryAt k = some entry) :
    ∃ s' entryInfo entryInfo', moveToStaleQueue
        { s with events := erase Prod.fst s.events id } k = some s' ∧ s'.Queued ∧
      s.entryInfoMap k = some entryInfo ∧ entryInfo.queueType = .fifo ∧
      s'.entryInfoMap = Function.update s.entryInfoMap k (some entryInfo') ∧
      entryInfo'.queueType = .stale ∧ s'.cs = s.cs ∧ s'.evictions = s.evictions := by
  have hindex : eventIndex s.entryInfoMap k = some ((), id) := (h.events.mem_iff () id k).mp hevent
  obtain ⟨entryInfo, hk, hfifo, hid⟩ : ∃ entryInfo, s.entryInfoMap k = some entryInfo ∧
      entryInfo.queueType = .fifo ∧ entryInfo.moveStaleEventId = some id := by
    obtain ⟨entryInfo, hk, hsome⟩ := bind_eq_some_iff.mp hindex
    split_ifs at hsome with hfifo
    obtain ⟨id', hid', heq⟩ := map_eq_some_iff.mp hsome
    cases heq
    exact ⟨entryInfo, hk, hfifo, hid'⟩
  have hany := h.any_queue hk
  rw [hfifo] at hany
  have hremoved := h.queues.remove (queueIndex_eq hk)
  have hfree : Function.update (queueIndex s.entryInfoMap) k none k = none :=
    update_self ..
  have hqueues := hremoved.push hfree .stale
  rw [update_idem, hfifo] at hqueues
  have hevents := h.events.remove hindex
  rw [update_unit] at hevents
  let entryInfo' : EntryInfo := { entryInfo with queueType := .stale, queueIt := s.nextIterator }
  let queues := Function.update s.queues .fifo
    (erase Prod.fst (s.queues .fifo) entryInfo.queueIt)
  have herase : eraseFromQueue { s with events := erase Prod.fst s.events id } .fifo
      entryInfo.queueIt =
      some { s with events := erase Prod.fst s.events id, queues } := if_pos hany
  have hentry' : entryAt { s with events := erase Prod.fst s.events id } k = some entry :=
    hentry
  refine ⟨{ s with
    events := erase Prod.fst s.events id
    queues := Function.update queues .stale (queues .stale ++ [(s.nextIterator, k)])
    nextIterator := s.nextIterator + 1
    entryInfoMap := Function.update s.entryInfoMap k (some entryInfo') }, entryInfo, entryInfo', ?_,
    ⟨?_, ?_, h.isSome_event_update k (some entryInfo') ?_⟩, hk, hfifo, rfl, rfl, rfl, rfl⟩
  · simp only [moveToStaleQueue, hentry', hk, bind_eq_bind, bind_some, hfifo, ne_eq,
      not_true_eq_false, if_false, herase]
    rfl
  · rw [queueIndex_update]
    exact hqueues
  · rw [eventIndex_update]
    exact hevents
  · rintro _ ⟨⟩ ⟨⟩

/-! ### The table and the map -/

/-- The table is sorted, the map holds exactly its entries, exactly the unsolicited ones are in the
unsolicited queue, and every eviction took the head of the first queue that was not empty. -/
structure Linked (s : PriorityFifoStore) : Prop extends Queued s where
  inv : s.cs.Inv
  mem_keys : ∀ k, (s.entryInfoMap k).isSome ↔ k ∈ s.cs.keys
  flags : ∀ e ∈ s.cs.table, ∀ entryInfo, s.entryInfoMap (keyOf e.data) = some entryInfo →
    (entryInfo.queueType = .unsolicited ↔ e.isUnsolicited = true)
  takesHead : ∀ v ∈ s.evictions, v.TakesHead

/-- One entry of the table is not in the map. -/
structure LinkedExcept (s : PriorityFifoStore) (k : EntryRef) : Prop extends Queued s where
  inv : s.cs.Inv
  mem_keys : ∀ k', (s.entryInfoMap k').isSome ↔ k' ∈ s.cs.keys ∧ k' ≠ k
  flags : ∀ e ∈ s.cs.table, ∀ entryInfo, s.entryInfoMap (keyOf e.data) = some entryInfo →
    (entryInfo.queueType = .unsolicited ↔ e.isUnsolicited = true)
  takesHead : ∀ v ∈ s.evictions, v.TakesHead

variable {s : PriorityFifoStore} {k : EntryRef}

theorem LinkedExcept.entryInfoMap_eq_none (h : s.LinkedExcept k) : s.entryInfoMap k = none := by
  rw [← not_isSome_iff_eq_none, h.mem_keys]
  exact fun hk => hk.2 rfl

theorem exists_entryAt (hk : k ∈ s.cs.keys) :
    ∃ entry ∈ s.cs.table, keyOf entry.data = k ∧ s.entryAt k = some entry := by
  obtain ⟨e, he, hkey⟩ := mem_map.mp hk
  cases hfind : s.entryAt k with
  | none => exact absurd hkey (by simpa using find?_eq_none.mp hfind e he)
  | some entry =>
    exact ⟨entry, mem_of_find?_eq_some hfind, by simpa using find?_some hfind, rfl⟩

theorem Linked.exists_detachQueue (h : s.Linked) (hk : k ∈ s.cs.keys) :
    ∃ s', s.detachQueue k = some s' ∧ s'.LinkedExcept k ∧ s'.cs = s.cs ∧
      s'.evictions = s.evictions := by
  obtain ⟨entryInfo, hinfo⟩ := isSome_iff_exists.mp ((h.mem_keys k).mpr hk)
  obtain ⟨s', hs', hqueued, hmap, hcs, hevictions⟩ := h.toQueued.exists_detachQueue hinfo
  refine ⟨s', hs', ⟨hqueued, ?_, fun k' => ?_, fun e he info' hinfo' => ?_, ?_⟩, hcs, hevictions⟩
  · rw [hcs]
    exact h.inv
  · rw [hmap, hcs]
    by_cases hk' : k' = k
    · rw [hk', update_self]
      simp
    · rw [update_of_ne hk', h.mem_keys, and_iff_left hk']
  · rw [hcs] at he
    rw [hmap] at hinfo'
    by_cases hk' : keyOf e.data = k
    · rw [hk', update_self] at hinfo'
      cases hinfo'
    · rw [update_of_ne hk'] at hinfo'
      exact h.flags e he info' hinfo'
  · rw [hevictions]
    exact h.takesHead

theorem LinkedExcept.exists_attachQueue (h : s.LinkedExcept k) (hk : k ∈ s.cs.keys) (now : Time) :
    ∃ s', s.attachQueue k now = some s' ∧ s'.Linked ∧ s'.cs = s.cs ∧
      s'.evictions = s.evictions := by
  obtain ⟨entry, hentry, hkey, hat⟩ := exists_entryAt hk
  obtain ⟨s', entryInfo, hs', hqueued, hmap, htype, hcs, hevictions⟩ :=
    h.toQueued.exists_attachQueue h.entryInfoMap_eq_none hat now
  refine ⟨s', hs', ⟨hqueued, ?_, fun k' => ?_, fun e he info' hinfo' => ?_, ?_⟩, hcs, hevictions⟩
  · rw [hcs]
    exact h.inv
  · rw [hmap, hcs]
    by_cases hk' : k' = k
    · rw [hk', update_self]
      simpa using hk
    · rw [update_of_ne hk', h.mem_keys, and_iff_left hk']
  · rw [hcs] at he
    rw [hmap] at hinfo'
    by_cases hk' : keyOf e.data = k
    · rw [hk', update_self] at hinfo'
      cases hinfo'
      obtain rfl : e = entry := inj_on_of_nodup_map (ContentStore.nodup_keys h.inv) he hentry
        (hk'.trans hkey.symm)
      rw [htype, queueTypeOf]
      split_ifs with hunsolicited hfresh <;> simp [hunsolicited]
    · rw [update_of_ne hk'] at hinfo'
      exact h.flags e he info' hinfo'
  · rw [hevictions]
    exact h.takesHead

theorem Linked.linkedExcept (h : s.Linked) (hk : k ∉ s.cs.keys) : s.LinkedExcept k := by
  refine ⟨h.toQueued, h.inv, fun k' => ?_, h.flags, h.takesHead⟩
  rw [h.mem_keys]
  constructor
  · intro hk'
    exact ⟨hk', fun heq => hk (heq ▸ hk')⟩
  · exact And.left

theorem LinkedExcept.eraseFromTable (h : s.LinkedExcept k) : (s.eraseFromTable k).Linked where
  toQueued := ⟨h.queues, h.events, h.isSome_event⟩
  inv := SortedTable.Sorted.filter h.inv _
  mem_keys k' := (h.mem_keys k').trans ContentStore.mem_keys_eraseKey.symm
  flags e he := h.flags e (mem_of_mem_filter he)
  takesHead := h.takesHead

theorem LinkedExcept.insert {d : DataPacket} {isUnsolicited noCache : Bool} {now : Time}
    (h : s.LinkedExcept (keyOf d))
    (hopen : (!s.cs.shouldAdmit || s.cs.limit == 0 || noCache) = false) :
    LinkedExcept { s with cs := s.cs.insert d isUnsolicited noCache now } (keyOf d) where
  toQueued := ⟨h.queues, h.events, h.isSome_event⟩
  inv := h.inv.insert d isUnsolicited noCache now
  mem_keys k' := by
    rw [h.mem_keys, ContentStore.mem_keys_insert hopen]
    constructor
    · rintro ⟨hk', hne⟩
      exact ⟨.inl hk', hne⟩
    · rintro ⟨hk' | hk', hne⟩
      · exact ⟨hk', hne⟩
      · exact absurd hk' hne
  flags e he entryInfo hinfo := by
    rcases ContentStore.mem_table_insert hopen he with he | hkey
    · exact h.flags e he entryInfo hinfo
    · rw [hkey, h.entryInfoMap_eq_none] at hinfo
      cases hinfo
  takesHead := h.takesHead

/-! ### Evictions -/

theorem Linked.exists_victim (h : s.Linked) (hpos : 0 < s.cs.table.length) :
    ∃ k ∈ s.cs.keys, s.victim = some k ∧
      PriorityEviction.TakesHead ⟨k, s.refs, s.cs.keys⟩ := by
  have hmem : ∀ type, ∀ k ∈ s.refs type, k ∈ s.cs.keys := by
    intro type k hk
    obtain ⟨it, hindex⟩ := h.queues.mem_map_snd_iff.mp hk
    obtain ⟨entryInfo, hinfo, -⟩ := map_eq_some_iff.mp hindex
    rw [← h.mem_keys, hinfo]
    rfl
  have hnil : ∀ type, s.refs type = [] ↔ s.queues type = [] := fun type => map_eq_nil_iff
  have hhead : ∀ type, s.queues type ≠ [] → ∃ k ∈ s.cs.keys, (s.refs type).head? = some k := by
    intro type hne
    obtain ⟨k, rest, hrefs⟩ := exists_cons_of_ne_nil (mt (hnil type).mp hne)
    refine ⟨k, hmem type k ?_, by rw [hrefs]; rfl⟩
    rw [hrefs]
    exact mem_cons_self
  by_cases hunsolicited : s.queues .unsolicited = []
  · by_cases hstale : s.queues .stale = []
    · have hfifo : s.queues .fifo ≠ [] := by
        obtain ⟨e, he⟩ := exists_mem_of_length_pos hpos
        have hkey : keyOf e.data ∈ s.cs.keys := mem_map_of_mem he
        obtain ⟨entryInfo, hinfo⟩ := isSome_iff_exists.mp ((h.mem_keys _).mpr hkey)
        have hqueue := (h.queues.mem_iff _ _ _).mpr (queueIndex_eq hinfo)
        intro hfifo
        cases htype : entryInfo.queueType <;> rw [htype] at hqueue <;> simp_all
      obtain ⟨k, hk, hfirst⟩ := hhead .fifo hfifo
      refine ⟨k, hk, ?_, hk, ?_⟩
      · rw [victim, if_neg (not_not.mpr hunsolicited), if_neg (not_not.mpr hstale), hfirst]
      · rw [if_neg (not_not.mpr ((hnil _).mpr hunsolicited)),
          if_neg (not_not.mpr ((hnil _).mpr hstale)), hfirst]
    · obtain ⟨k, hk, hfirst⟩ := hhead .stale hstale
      refine ⟨k, hk, ?_, hk, ?_⟩
      · rw [victim, if_neg (not_not.mpr hunsolicited), if_pos hstale, hfirst]
      · rw [if_neg (not_not.mpr ((hnil _).mpr hunsolicited)), if_pos (mt (hnil _).mp hstale),
          hfirst]
  · obtain ⟨k, hk, hfirst⟩ := hhead .unsolicited hunsolicited
    refine ⟨k, hk, ?_, hk, ?_⟩
    · rw [victim, if_pos hunsolicited, hfirst]
    · rw [if_pos (mt (hnil _).mp hunsolicited), hfirst]

theorem length_eraseKey {cs : ContentStore} (h : cs.Inv) (hk : k ∈ cs.keys) :
    (cs.eraseKey k).table.length + 1 = cs.table.length := by
  obtain ⟨e, he, rfl⟩ := mem_map.mp hk
  have hperm : cs.table.Perm (e :: (cs.eraseKey (keyOf e.data)).table) :=
    perm_cons_erase (ContentStore.nodup_keys h) he
  exact hperm.length_eq.symm

theorem Linked.exists_evictOne (h : s.Linked) (hpos : 0 < s.cs.table.length) :
    ∃ s', s.evictOne = some s' ∧ s'.Linked ∧ s'.cs.table.length + 1 = s.cs.table.length ∧
      s'.cs.limit = s.cs.limit := by
  obtain ⟨k, hk, hvictim, hhead⟩ := h.exists_victim hpos
  obtain ⟨detached, hdetached, hexcept, hcs, hevictions⟩ := h.exists_detachQueue hk
  have hlinked := hexcept.eraseFromTable
  refine ⟨{ detached.eraseFromTable k with
    evictions := s.evictions ++ [⟨k, s.refs, s.cs.keys⟩] }, ?_, ?_, ?_, ?_⟩
  · rw [evictOne, hvictim, bind_eq_bind, bind_some, hdetached]
    rfl
  · refine ⟨⟨hlinked.queues, hlinked.events, hlinked.isSome_event⟩, hlinked.inv, hlinked.mem_keys,
      hlinked.flags, ?_⟩
    exact forall_mem_append.mpr ⟨h.takesHead, forall_mem_singleton.mpr hhead⟩
  · dsimp only [eraseFromTable]
    rw [hcs]
    exact length_eraseKey h.inv hk
  · dsimp only [eraseFromTable]
    rw [hcs]
    rfl

theorem Linked.exists_evictLoop {n : ℕ} (h : s.Linked) (hn : s.cs.table.length ≤ n) :
    ∃ s', evictLoop n s = some s' ∧ s'.Linked ∧ s'.cs.table.length ≤ s'.cs.limit := by
  induction n generalizing s with
  | zero => exact ⟨s, rfl, h, by omega⟩
  | succ n ih =>
    rw [evictLoop]
    split_ifs with hlt
    · obtain ⟨s₁, hs₁, hlinked, hlength, -⟩ := h.exists_evictOne (by omega)
      rw [hs₁, bind_some]
      exact ih hlinked (by omega)
    · exact ⟨s, rfl, h, by omega⟩

theorem Linked.exists_evictEntries (h : s.Linked) :
    ∃ s', s.evictEntries = some s' ∧ s'.Linked ∧ s'.cs.table.length ≤ s'.cs.limit :=
  h.exists_evictLoop le_rfl

/-! ### Operations -/

omit [Sha256] in
theorem detachQueue_withCs (cs : ContentStore) :
    detachQueue { s with cs } k = (s.detachQueue k).map fun s' => { s' with cs } := by
  simp only [detachQueue, bind_eq_bind, map_bind]
  cases s.entryInfoMap k with
  | none => rfl
  | some entryInfo =>
    have herase : ∀ s₀ : PriorityFifoStore,
        eraseFromQueue { s₀ with cs } entryInfo.queueType entryInfo.queueIt =
          (s₀.eraseFromQueue entryInfo.queueType entryInfo.queueIt).map
            fun s' => { s' with cs } := by
      intro s₀
      unfold eraseFromQueue
      dsimp only
      split_ifs <;> rfl
    have hcancel : (if entryInfo.queueType = .fifo then
        cancel { s with cs } entryInfo.moveStaleEventId else { s with cs }) =
        { (if entryInfo.queueType = .fifo then s.cancel entryInfo.moveStaleEventId else s) with
          cs } := by
      split_ifs
      · cases entryInfo.moveStaleEventId <;> rfl
      · rfl
    simp only [bind_some, comp_apply]
    rw [hcancel, herase]
    cases eraseFromQueue _ _ _ <;> rfl

theorem Linked.exists_insert (h : s.Linked) (hsize : s.cs.table.length ≤ s.cs.limit)
    (d : DataPacket) (isUnsolicited noCache : Bool) (now attachTime : Time) :
    ∃ s', s.insert d isUnsolicited noCache now attachTime = some s' ∧ s'.Linked ∧
      s'.cs.table.length ≤ s'.cs.limit := by
  rw [insert]
  by_cases hclosed : (!s.cs.shouldAdmit || s.cs.limit == 0 || noCache) = true
  · rw [if_pos hclosed]
    exact ⟨s, rfl, h, hsize⟩
  rw [if_neg hclosed]
  rw [Bool.not_eq_true] at hclosed
  have hkey : keyOf d ∈ (s.cs.insert d isUnsolicited noCache now).keys :=
    (ContentStore.mem_keys_insert hclosed).mpr (.inr rfl)
  by_cases hany : (s.cs.table.any fun e => ContentStore.compareDataWithData e.data d == .eq) = true
  · have hold := ContentStore.any_compare_iff.mp hany
    obtain ⟨detached, hdetached, hexcept, hcs, -⟩ := h.exists_detachQueue hold
    rw [← hcs] at hclosed hkey
    obtain ⟨s', hs', hlinked, hcs', -⟩ :=
      (hexcept.insert hclosed).exists_attachQueue hkey attachTime
    refine ⟨s', ?_, hlinked, ?_⟩
    · dsimp only
      rw [if_pos hany, detachQueue_withCs, hdetached, ← hcs]
      exact hs'
    · rw [hcs', ContentStore.limit_insert, ContentStore.length_insert (hcs ▸ hold), hcs]
      exact hsize
  · have hnew : keyOf d ∉ s.cs.keys := fun hold => hany (ContentStore.any_compare_iff.mpr hold)
    obtain ⟨attached, hattached, hlinked, -⟩ :=
      ((h.linkedExcept hnew).insert hclosed).exists_attachQueue hkey attachTime
    dsimp only
    rw [if_neg hany, hattached]
    exact hlinked.exists_evictEntries

theorem Linked.exists_foldlM_eraseEntry (h : s.Linked) {entries : List Entry}
    (hnodup : (entries.map fun e => keyOf e.data).Nodup)
    (hmem : ∀ e ∈ entries, keyOf e.data ∈ s.cs.keys) :
    ∃ s', entries.foldlM eraseEntry s = some s' ∧ s'.Linked ∧
      s'.cs.table.length ≤ s.cs.table.length ∧ s'.cs.limit = s.cs.limit := by
  induction entries generalizing s with
  | nil => exact ⟨s, rfl, h, le_rfl, rfl⟩
  | cons e entries ih =>
    rw [map_cons, nodup_cons] at hnodup
    obtain ⟨detached, hdetached, hexcept, hcs, -⟩ :=
      h.exists_detachQueue (hmem e mem_cons_self)
    have herase : s.eraseEntry e = some (detached.eraseFromTable (keyOf e.data)) := by
      rw [eraseEntry, hdetached]
      rfl
    obtain ⟨s', hs', hlinked, hlength, hlimit⟩ := ih hexcept.eraseFromTable hnodup.2
      fun e' he' => by
        refine ContentStore.mem_keys_eraseKey.mpr ⟨?_, fun heq => hnodup.1 ?_⟩
        · rw [hcs]
          exact hmem e' (mem_cons_of_mem e he')
        · rw [← heq]
          exact mem_map_of_mem he'
    refine ⟨s', ?_, hlinked, hlength.trans ?_, hlimit.trans ?_⟩
    · rw [foldlM_cons, herase]
      exact hs'
    · rw [eraseFromTable, hcs]
      exact length_filter_le _ _
    · rw [eraseFromTable, hcs]
      rfl

theorem Linked.exists_step (h : s.Linked) (hsize : s.cs.table.length ≤ s.cs.limit) (op : Op) :
    ∃ s', s.step op = some s' ∧ s'.Linked ∧ s'.cs.table.length ≤ s'.cs.limit := by
  cases op with
  | insert d isUnsolicited noCache now attachTime =>
    exact h.exists_insert hsize d isUnsolicited noCache now attachTime
  | erase name limit =>
    have hsub : (s.erased name limit).Sublist s.cs.table := by
      rw [erased]
      split
      · exact (take_sublist _ _).trans ((drop_sublist _ _).trans (take_sublist _ _))
      · exact nil_sublist _
    obtain ⟨s', hs', hlinked, hlength, hlimit⟩ := h.exists_foldlM_eraseEntry
      ((hsub.map _).nodup (ContentStore.nodup_keys h.inv)) fun e he =>
        mem_map_of_mem (hsub.subset he)
    exact ⟨s', hs', hlinked, by omega⟩
  | find interest now =>
    refine ⟨s, ?_, h, hsize⟩
    rw [step]
    split
    next e hfind =>
      have hkey : keyOf e.data ∈ s.cs.keys :=
        mem_map_of_mem (ContentStore.mem_table_of_find hfind)
      rw [if_pos ((h.mem_keys _).mpr hkey)]
    next => rfl
  | setLimit nMaxPackets =>
    refine Linked.exists_evictEntries ?_
    exact ⟨⟨h.queues, h.events, h.isSome_event⟩, h.inv, h.mem_keys, h.flags, h.takesHead⟩
  | enableAdmit shouldAdmit | enableServe shouldServe =>
    exact ⟨_, rfl, ⟨⟨h.queues, h.events, h.isSome_event⟩, h.inv, h.mem_keys, h.flags, h.takesHead⟩,
      hsize⟩
  | fire event =>
    rw [step]
    cases hevent : get? Prod.fst s.events event with
    | none => exact ⟨s, rfl, h, hsize⟩
    | some node =>
      obtain ⟨id, k⟩ := node
      have hmem : (id, k) ∈ s.events := mem_of_get? hevent
      have hk : k ∈ s.cs.keys := by
        obtain ⟨entryInfo, hinfo, -⟩ :=
          bind_eq_some_iff.mp ((h.events.mem_iff () id k).mp hmem)
        rw [← h.mem_keys, hinfo]
        rfl
      obtain ⟨entry, -, -, hentry⟩ := exists_entryAt hk
      obtain ⟨s', entryInfo, entryInfo', hs', hqueued, hinfo, hfifo, hmap, htype, hcs,
        hevictions⟩ := h.toQueued.exists_moveToStaleQueue hmem hentry
      refine ⟨s', hs', ⟨hqueued, ?_, fun k' => ?_, fun e he info' hinfo' => ?_, ?_⟩, ?_⟩
      · rw [hcs]
        exact h.inv
      · rw [hmap, hcs, ← h.mem_keys]
        by_cases hk' : k' = k
        · rw [hk', update_self, hinfo]
          rfl
        · rw [update_of_ne hk']
      · rw [hcs] at he
        rw [hmap] at hinfo'
        by_cases hk' : keyOf e.data = k
        · rw [hk', update_self] at hinfo'
          cases hinfo'
          rw [htype, ← h.flags e he entryInfo (hk' ▸ hinfo), hfifo]
          simp
        · rw [update_of_ne hk'] at hinfo'
          exact h.flags e he info' hinfo'
      · rw [hevictions]
        exact h.takesHead
      · rw [hcs]
        exact hsize

/-! ### Runs -/

/-- Each entry of the table is once in the queue that the map says and in no other, and nothing else
is in the map and the queues. Exactly the entries of the FIFO queue have a pending event, one each.
The table is within the limit, and every eviction took the head of the first queue that was not
empty. -/
structure Sound (s : PriorityFifoStore) : Prop where
  placed : ∀ k ∈ s.cs.keys, ∃ entryInfo, s.entryInfoMap k = some entryInfo ∧
    ∀ type, (s.refs type).count k = if type = entryInfo.queueType then 1 else 0
  mapped : ∀ k, (s.entryInfoMap k).isSome → k ∈ s.cs.keys
  present : ∀ type, ∀ k ∈ s.refs type, k ∈ s.cs.keys
  timed : ∀ k, s.eventRefs.count k = if k ∈ s.refs .fifo then 1 else 0
  pending : ∀ k ∈ s.eventRefs, k ∈ s.cs.keys
  size_le : s.cs.table.length ≤ s.cs.limit
  takesHead : ∀ v ∈ s.evictions, v.TakesHead

theorem linked_init (nMaxPackets : ℕ) : (init nMaxPackets).Linked where
  queues := HandleLists.indexed_nil
  events := HandleLists.indexed_nil
  isSome_event _ _ h := by cases h
  inv := ContentStore.inv_init nMaxPackets
  mem_keys k := by simp [init, ContentStore.init, ContentStore.keys]
  flags e he := absurd he not_mem_nil
  takesHead v hv := absurd hv not_mem_nil

omit [Sha256] in
theorem Queued.mem_refs_iff (h : s.Queued) {type : QueueType} : k ∈ s.refs type ↔
    ∃ entryInfo, s.entryInfoMap k = some entryInfo ∧ entryInfo.queueType = type := by
  rw [refs, h.queues.mem_map_snd_iff]
  constructor
  · rintro ⟨it, hindex⟩
    obtain ⟨entryInfo, hinfo, heq⟩ := map_eq_some_iff.mp hindex
    exact ⟨entryInfo, hinfo, congrArg Prod.fst heq⟩
  · rintro ⟨entryInfo, hinfo, rfl⟩
    exact ⟨entryInfo.queueIt, queueIndex_eq hinfo⟩

omit [Sha256] in
theorem Queued.mem_eventRefs_iff (h : s.Queued) : k ∈ s.eventRefs ↔ k ∈ s.refs .fifo := by
  rw [h.mem_refs_iff, eventRefs, h.events.mem_map_snd_iff (t := ())]
  constructor
  · rintro ⟨id, hindex⟩
    obtain ⟨entryInfo, hinfo, hsome⟩ := bind_eq_some_iff.mp hindex
    split_ifs at hsome with hfifo
    exact ⟨entryInfo, hinfo, hfifo⟩
  · rintro ⟨entryInfo, hinfo, hfifo⟩
    obtain ⟨id, hid⟩ := isSome_iff_exists.mp (h.isSome_event k entryInfo hinfo hfifo)
    refine ⟨id, ?_⟩
    rw [eventIndex, hinfo, bind_some, if_pos hfifo, hid]
    rfl

theorem Linked.sound (h : s.Linked) (hsize : s.cs.table.length ≤ s.cs.limit) : s.Sound where
  placed k hk := by
    obtain ⟨entryInfo, hinfo⟩ := isSome_iff_exists.mp ((h.mem_keys k).mpr hk)
    refine ⟨entryInfo, hinfo, fun type => ?_⟩
    have hmem : k ∈ s.refs type ↔ type = entryInfo.queueType := by
      rw [h.mem_refs_iff, hinfo]
      simp [eq_comm]
    rw [refs, h.queues.count_map_snd]
    exact if_congr hmem rfl rfl
  mapped k := (h.mem_keys k).mp
  present type k hk := by
    obtain ⟨entryInfo, hinfo, -⟩ := h.mem_refs_iff.mp hk
    rw [← h.mem_keys, hinfo]
    rfl
  timed k := by
    rw [eventRefs, h.events.count_map_snd ()]
    exact if_congr h.mem_eventRefs_iff rfl rfl
  pending k hk := by
    obtain ⟨entryInfo, hinfo, -⟩ := h.mem_refs_iff.mp (h.mem_eventRefs_iff.mp hk)
    rw [← h.mem_keys, hinfo]
    rfl
  size_le := hsize
  takesHead := h.takesHead

/-- Every sequence of operations and events, from an empty store, has a result, in which table,
queues, map, events and limit belong together. -/
theorem exists_sound_run (nMaxPackets : ℕ) (ops : List Op) :
    ∃ s, Run.run (fun s op => s.bind fun s => s.step op) (some (init nMaxPackets)) ops = some s ∧
      s.Sound := by
  let inv : Option PriorityFifoStore → Prop := fun result =>
    ∃ s, result = some s ∧ s.Linked ∧ s.cs.table.length ≤ s.cs.limit
  have hstep : ∀ result op, inv result → inv (result.bind fun s => s.step op) := by
    rintro _ op ⟨s, rfl, hlinked, hsize⟩
    exact hlinked.exists_step hsize op
  obtain ⟨s, hs, hlinked, hsize⟩ := Run.invariant inv hstep
    ⟨init nMaxPackets, rfl, linked_init nMaxPackets, Nat.zero_le _⟩ ops
  exact ⟨s, hs, hlinked.sound hsize⟩

end PriorityFifoStore

end NdnFc
