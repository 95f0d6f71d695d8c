import NdnFc.Lib.Recency
import NdnFc.Table.ContentStore

/-!
# Replacement policy LRU

The content store with its least-recently-used policy (`NFD-FC/daemon/table/cs-policy-lru.cpp`,
`cs.cpp`). An insertion appends a reference to a queue and evicts from its front while the table is
over its limit, a refresh and a lookup move the reference to the end. The state also records the
history.
-/

namespace NdnFc

open List

/-- One eviction: the entry, the entries of the table just before, and the entries inserted,
refreshed or used up to then. -/
structure Eviction where
  evicted : EntryRef
  present : List EntryRef
  touches : List EntryRef

/-- Every other entry was inserted, refreshed or used later than the evicted one. -/
def Eviction.LeastRecent (v : Eviction) : Prop :=
  v.evicted ∈ v.present ∧
    ∀ k ∈ v.present, k ≠ v.evicted → Recency.Before v.touches v.evicted k

/-- The content store, the queue of its policy, and the history. -/
structure LruStore where
  cs : ContentStore
  queue : List EntryRef
  touches : List EntryRef
  evictions : List Eviction

namespace LruStore

open ContentStore (Entry keyOf)

variable [Sha256] (s : LruStore)

def keys : List EntryRef :=
  s.cs.table.map fun e => keyOf e.data

def eraseFromTable (k : EntryRef) : LruStore :=
  { s with cs := { s.cs with table := s.cs.table.filter fun e => keyOf e.data ≠ k } }

/-! ### Callbacks of the policy -/

omit [Sha256] in
/-- `insertToQueue`. `push_back` does nothing when the queue has the entry. -/
def insertToQueue (k : EntryRef) (isNewEntry : Bool) : LruStore :=
  let queue := if k ∈ s.queue then s.queue else s.queue ++ [k]
  { s with queue := if isNewEntry then queue else queue.erase k ++ [k] }

/-- One round of the loop in `evictEntries`: take the front of the queue and signal `beforeEvict`,
on which the store erases the entry. -/
def evictFront : LruStore :=
  match s.queue with
  | [] => s
  | k :: rest =>
    { s.eraseFromTable k with
      queue := rest
      evictions := s.evictions ++ [⟨k, s.keys, s.touches⟩] }

/-- The loop in `evictEntries`, at most `n` rounds. -/
def evictLoop : ℕ → LruStore → LruStore
  | 0, s => s
  | n + 1, s => if s.cs.limit < s.cs.table.length then evictLoop n s.evictFront else s

/-- `evictEntries`. Each round shortens the queue, and the source asserts that it is not empty. -/
def evictEntries : LruStore :=
  evictLoop s.queue.length s

def afterInsert (k : EntryRef) : LruStore :=
  (s.insertToQueue k true).evictEntries

section

omit [Sha256]

variable (k : EntryRef)

def afterRefresh : LruStore :=
  s.insertToQueue k false

def beforeErase : LruStore :=
  { s with queue := s.queue.erase k }

def beforeUse : LruStore :=
  s.insertToQueue k false

/-! ### Operations of the store -/

/-- Note in the history that an entry is inserted, refreshed or used. -/
def touch : LruStore :=
  { s with touches := s.touches ++ [k] }

end

def insert (d : DataPacket) (isUnsolicited noCache : Bool) (now : Time) : LruStore :=
  if !s.cs.shouldAdmit || s.cs.limit == 0 || noCache then s
  else
    let stored := { s with cs := s.cs.insert d isUnsolicited noCache now }
    if s.cs.table.any fun e => ContentStore.compareDataWithData e.data d == .eq then
      (stored.touch (keyOf d)).afterRefresh (keyOf d)
    else (stored.touch (keyOf d)).afterInsert (keyOf d)

/-- One round of the loop in `eraseImpl`. -/
def eraseEntry (e : Entry) : LruStore :=
  (s.beforeErase (keyOf e.data)).eraseFromTable (keyOf e.data)

/-- `eraseImpl` -/
def erase (name : Name) (limit : ℕ) : Except String LruStore := do
  let (first, last) ← s.cs.findPrefixRange name
  pure (((SortedTable.range first last s.cs.table).take limit).foldl eraseEntry s)

/-- `findImpl` and the entry it returns. -/
def find (interest : Interest) (now : Time) :
    Except String (LruStore × Option Entry) := do
  match ← s.cs.find interest now with
  | none => pure (s, none)
  | some e => pure ((s.touch (keyOf e.data)).beforeUse (keyOf e.data), some e)

def setLimit (nMaxPackets : ℕ) : LruStore :=
  evictEntries { s with cs := { s.cs with limit := nMaxPackets } }

inductive Op where
  | insert (d : DataPacket) (isUnsolicited noCache : Bool) (now : Time)
  | erase (name : Name) (limit : ℕ)
  | find (interest : Interest) (now : Time)
  | setLimit (nMaxPackets : ℕ)
  | enableAdmit (shouldAdmit : Bool)
  | enableServe (shouldServe : Bool)

/-- One operation. An operation that throws leaves the store as it is. -/
def step : Op → LruStore
  | .insert d isUnsolicited noCache now => s.insert d isUnsolicited noCache now
  | .erase name limit => match s.erase name limit with
    | .ok s' => s'
    | .error _ => s
  | .find interest now => match s.find interest now with
    | .ok (s', _) => s'
    | .error _ => s
  | .setLimit nMaxPackets => s.setLimit nMaxPackets
  | .enableAdmit shouldAdmit => { s with cs := { s.cs with shouldAdmit := shouldAdmit } }
  | .enableServe shouldServe => { s with cs := { s.cs with shouldServe := shouldServe } }

omit [Sha256] in
def init (nMaxPackets : ℕ) : LruStore := ⟨ContentStore.init nMaxPackets, [], [], []⟩

/-! ### Table and queue -/

/-- The table is sorted, the queue refers to exactly its entries, once each and least recently
touched first, and every evicted entry was the least recent one. -/
structure Linked : Prop where
  inv : s.cs.Inv
  nodup : s.queue.Nodup
  mem_queue : ∀ k, k ∈ s.queue ↔ k ∈ s.keys
  chronological : s.queue.Pairwise (Recency.Before s.touches)
  leastRecent : ∀ v ∈ s.evictions, v.LeastRecent

/-- Table and queue are linked and the table is within its limit. -/
structure Sound : Prop extends Linked s where
  size_le : s.cs.table.length ≤ s.cs.limit

variable {s : LruStore} {k : EntryRef}

theorem mem_keys_eraseFromTable {k' : EntryRef} :
    k' ∈ (s.eraseFromTable k).keys ↔ k' ∈ s.keys ∧ k' ≠ k :=
  ContentStore.mem_keys_eraseKey

theorem Linked.length_queue (h : s.Linked) : s.queue.length = s.cs.table.length := by
  have hperm : s.queue.Perm s.keys :=
    (perm_ext_iff_of_nodup h.nodup (ContentStore.nodup_keys h.inv)).mpr h.mem_queue
  rw [hperm.length_eq, keys, length_map]

theorem Linked.evictFront (h : s.Linked) : s.evictFront.Linked := by
  unfold LruStore.evictFront
  split
  next => exact h
  next k rest hqueue =>
    have hnodup := h.nodup
    have hchron := h.chronological
    have hmem := h.mem_queue
    rw [hqueue] at hnodup hchron hmem
    obtain ⟨hk, hrest⟩ := nodup_cons.mp hnodup
    obtain ⟨hfirst, hlater⟩ := pairwise_cons.mp hchron
    refine ⟨SortedTable.Sorted.filter h.inv _, hrest, fun k' => ?_, hlater,
      forall_mem_append.mpr ⟨h.leastRecent, forall_mem_singleton.mpr ?_⟩⟩
    · change _ ↔ k' ∈ (s.eraseFromTable k).keys
      rw [mem_keys_eraseFromTable, ← hmem, mem_cons]
      constructor
      · intro hk'
        exact ⟨.inr hk', fun heq => hk (heq ▸ hk')⟩
      · rintro ⟨rfl | hk', hne⟩
        · exact absurd rfl hne
        · exact hk'
    · refine ⟨(hmem k).mp mem_cons_self, fun k' hk' hne => hfirst k' ?_⟩
      exact (mem_cons.mp ((hmem k').mpr hk')).resolve_left hne

theorem limit_evictFront : s.evictFront.cs.limit = s.cs.limit := by
  unfold evictFront
  split <;> rfl

theorem length_queue_evictFront : s.evictFront.queue.length = s.queue.length - 1 := by
  unfold evictFront
  split
  next h => simp [h]
  next h => simp [h]

theorem Linked.evictLoop (n : ℕ) (h : s.Linked) :
    (evictLoop n s).Linked ∧
      (s.queue.length ≤ n → (evictLoop n s).cs.table.length ≤ (evictLoop n s).cs.limit) := by
  induction n generalizing s with
  | zero =>
    refine ⟨h, fun hn => ?_⟩
    have hlen := h.length_queue
    simp only [evictLoop]
    omega
  | succ n ih =>
    unfold evictLoop
    split
    · obtain ⟨hlinked, hsize⟩ := ih h.evictFront
      exact ⟨hlinked, fun hn => hsize (by rw [length_queue_evictFront]; omega)⟩
    · rename_i hle
      exact ⟨h, fun _ => Nat.not_lt.mp hle⟩

theorem Linked.evictEntries (h : s.Linked) : s.evictEntries.Sound where
  toLinked := (h.evictLoop _).1
  size_le := (h.evictLoop _).2 le_rfl

/-! ### Operations keep the link -/

theorem Linked.relocate (h : s.Linked) (hk : k ∈ s.keys) :
    ((s.touch k).insertToQueue k false).Linked := by
  have hqueue : k ∈ s.queue := (h.mem_queue k).mpr hk
  have heq : ((s.touch k).insertToQueue k false).queue = s.queue.erase k ++ [k] := by
    simp [insertToQueue, touch, hqueue]
  refine ⟨h.inv, ?_, fun k' => ?_, ?_, h.leastRecent⟩
  · rw [heq, ← concat_eq_append]
    exact (h.nodup.erase k).concat h.nodup.not_mem_erase
  · rw [heq, mem_append, mem_singleton, h.nodup.mem_erase_iff]
    change _ ↔ k' ∈ s.keys
    rw [h.mem_queue]
    constructor
    · rintro (⟨-, hk'⟩ | rfl)
      · exact hk'
      · exact hk
    · intro hk'
      by_cases hkk : k' = k
      · exact .inr hkk
      · exact .inl ⟨hkk, hk'⟩
  · rw [heq]
    exact Recency.pairwise_relocate h.chronological h.nodup

theorem Linked.eraseEntry (h : s.Linked) (e : Entry) : (s.eraseEntry e).Linked where
  inv := SortedTable.Sorted.filter h.inv _
  nodup := h.nodup.erase _
  mem_queue k := by
    change k ∈ s.queue.erase _ ↔ k ∈ (s.eraseFromTable (keyOf e.data)).keys
    rw [h.nodup.mem_erase_iff, mem_keys_eraseFromTable, h.mem_queue, and_comm]
  chronological := h.chronological.sublist erase_sublist
  leastRecent := h.leastRecent

variable {d : DataPacket} {isUnsolicited noCache : Bool} {now : Time}

section

variable (hopen : (!s.cs.shouldAdmit || s.cs.limit == 0 || noCache) = false)

include hopen

theorem mem_keys_insert :
    k ∈ keys { s with cs := s.cs.insert d isUnsolicited noCache now } ↔
      k ∈ s.keys ∨ k = keyOf d :=
  ContentStore.mem_keys_insert hopen

theorem Linked.enqueue (h : s.Linked) (hnew : keyOf d ∉ s.keys) :
    ((touch { s with cs := s.cs.insert d isUnsolicited noCache now } (keyOf d)).insertToQueue
      (keyOf d) true).Linked := by
  have hqueue : keyOf d ∉ s.queue := fun hk => hnew ((h.mem_queue _).mp hk)
  have heq : ((touch { s with cs := s.cs.insert d isUnsolicited noCache now }
      (keyOf d)).insertToQueue (keyOf d) true).queue = s.queue ++ [keyOf d] := by
    simp [insertToQueue, touch, hqueue]
  refine ⟨h.inv.insert d isUnsolicited noCache now, ?_, fun k => ?_, ?_, h.leastRecent⟩
  · rw [heq, ← concat_eq_append]
    exact h.nodup.concat hqueue
  · rw [heq, mem_append, mem_singleton, h.mem_queue]
    exact (mem_keys_insert hopen).symm
  · rw [heq]
    exact Recency.pairwise_concat h.chronological hqueue

theorem Linked.refresh (h : s.Linked) (hold : keyOf d ∈ s.keys) :
    Linked { s with cs := s.cs.insert d isUnsolicited noCache now } where
  inv := h.inv.insert d isUnsolicited noCache now
  nodup := h.nodup
  mem_queue k := by
    rw [mem_keys_insert hopen, ← h.mem_queue]
    constructor
    · exact .inl
    · rintro (hk | rfl)
      · exact hk
      · exact (h.mem_queue _).mpr hold
  chronological := h.chronological
  leastRecent := h.leastRecent

end

theorem Sound.insert (h : s.Sound) (d : DataPacket) (isUnsolicited noCache : Bool) (now : Time) :
    (s.insert d isUnsolicited noCache now).Sound := by
  unfold LruStore.insert
  split
  · exact h
  rename_i hclosed
  rw [Bool.not_eq_true] at hclosed
  split
  next hany =>
    have hold := ContentStore.any_compare_iff.mp hany
    have hlinked : Linked { s with cs := s.cs.insert d isUnsolicited noCache now } :=
      h.toLinked.refresh hclosed hold
    refine ⟨hlinked.relocate ((mem_keys_insert hclosed).mpr (.inl hold)), ?_⟩
    have hsize : s.queue.length = (s.cs.insert d isUnsolicited noCache now).table.length :=
      hlinked.length_queue
    calc (s.cs.insert d isUnsolicited noCache now).table.length
        = s.cs.table.length := hsize.symm.trans h.length_queue
      _ ≤ s.cs.limit := h.size_le
      _ = _ := ContentStore.limit_insert.symm
  next hany =>
    exact (h.enqueue hclosed fun hold => hany (ContentStore.any_compare_iff.mpr hold)).evictEntries

theorem Linked.withLimit (h : s.Linked) (nMaxPackets : ℕ) :
    Linked { s with cs := { s.cs with limit := nMaxPackets } } :=
  ⟨h.inv, h.nodup, h.mem_queue, h.chronological, h.leastRecent⟩

theorem Sound.foldl_eraseEntry (h : s.Sound) (l : List Entry) :
    (l.foldl eraseEntry s).Sound := by
  induction l generalizing s with
  | nil => exact h
  | cons e l ih => exact ih ⟨h.eraseEntry e, (length_filter_le _ _).trans h.size_le⟩

theorem Sound.step (h : s.Sound) (op : Op) : (s.step op).Sound := by
  cases op with
  | insert d isUnsolicited noCache now => exact h.insert d isUnsolicited noCache now
  | erase name limit =>
    simp only [LruStore.step]
    split
    next s' herase =>
      obtain ⟨⟨first, last⟩, -, hs'⟩ := Fallible.bind_eq_ok_iff.mp herase
      cases hs'
      exact h.foldl_eraseEntry _
    next => exact h
  | find interest now =>
    simp only [LruStore.step]
    split
    next s' result hfind =>
      obtain ⟨found, hfound, hs'⟩ := Fallible.bind_eq_ok_iff.mp hfind
      cases found with
      | none => cases hs'; exact h
      | some e =>
        cases hs'
        have hmem : keyOf e.data ∈ s.keys :=
          mem_map_of_mem (ContentStore.mem_table_of_find hfound)
        exact ⟨h.relocate hmem, h.size_le⟩
    next => exact h
  | setLimit nMaxPackets => exact (h.withLimit nMaxPackets).evictEntries
  | enableAdmit shouldAdmit | enableServe shouldServe =>
    exact ⟨⟨h.inv, h.nodup, h.mem_queue, h.chronological, h.leastRecent⟩, h.size_le⟩

variable (nMaxPackets : ℕ)

theorem sound_init : (init nMaxPackets).Sound where
  inv := ContentStore.inv_init nMaxPackets
  nodup := nodup_nil
  mem_queue _ := Iff.rfl
  chronological := List.Pairwise.nil
  leastRecent _ hv := absurd hv not_mem_nil
  size_le := Nat.zero_le _

/-! ### The entry just inserted -/

theorem Linked.evictLoop_evictions (n : ℕ) (h : s.Linked) (hlimit : 0 < s.cs.limit)
    {front : List EntryRef} (hqueue : s.queue = front ++ [k]) :
    ∃ new, (LruStore.evictLoop n s).evictions = s.evictions ++ new ∧ ∀ v ∈ new, v.evicted ≠ k := by
  induction n generalizing s front with
  | zero => exact ⟨[], by simp [LruStore.evictLoop], by simp⟩
  | succ n ih =>
    unfold LruStore.evictLoop
    split
    next hlt =>
      have hlen := h.length_queue
      rw [hqueue, length_append, length_singleton] at hlen
      cases front with
      | nil => simp only [length_nil] at hlen; omega
      | cons a front =>
        have hfront : s.evictFront.queue = front ++ [k] ∧
            s.evictFront.evictions = s.evictions ++ [⟨a, s.keys, s.touches⟩] := by
          simp [LruStore.evictFront, hqueue]
        have hnodup := h.nodup
        rw [hqueue] at hnodup
        have hak : a ≠ k := fun heq => (nodup_cons.mp hnodup).1 (by simp [heq])
        obtain ⟨new, hnew, hkept⟩ :=
          ih h.evictFront (by rwa [limit_evictFront]) hfront.1
        refine ⟨⟨a, s.keys, s.touches⟩ :: new, ?_, ?_⟩
        · rw [hnew, hfront.2, append_assoc, singleton_append]
        · exact forall_mem_cons.mpr ⟨hak, hkept⟩
    next => exact ⟨[], by simp, by simp⟩

theorem Linked.insert_evictions (h : s.Linked) (d : DataPacket) (isUnsolicited noCache : Bool)
    (now : Time) :
    ∃ new, (s.insert d isUnsolicited noCache now).evictions = s.evictions ++ new ∧
      ∀ v ∈ new, v.evicted ≠ keyOf d := by
  unfold insert
  split
  · exact ⟨[], by simp, by simp⟩
  rename_i hclosed
  rw [Bool.not_eq_true] at hclosed
  split
  · exact ⟨[], by simp [touch, afterRefresh, insertToQueue], by simp⟩
  next hany =>
    have hnew : keyOf d ∉ s.keys := fun hold => hany (ContentStore.any_compare_iff.mpr hold)
    have hqueue : keyOf d ∉ s.queue := fun hk => hnew ((h.mem_queue _).mp hk)
    have hlimit : 0 < s.cs.limit := by
      simp only [Bool.or_eq_false_iff, beq_eq_false_iff_ne] at hclosed
      exact Nat.pos_of_ne_zero hclosed.1.2
    refine Linked.evictLoop_evictions _ (h.enqueue hclosed hnew) ?_ (?_ : _ = s.queue ++ [keyOf d])
    · exact hlimit.trans_eq ContentStore.limit_insert.symm
    · simp [insertToQueue, touch, hqueue]

/-- After every run the queue refers to exactly the entries of the table, once each, the table is
within its limit, and every evicted entry was the least recently touched one. An insertion does not
evict the packet it inserts. -/
theorem sound_and_insert_evictions (ops : List Op) :
    (Run.run step (init nMaxPackets) ops).Sound ∧
      ∀ d isUnsolicited noCache now, ∃ new,
        ((Run.run step (init nMaxPackets) ops).insert d isUnsolicited noCache now).evictions =
          (Run.run step (init nMaxPackets) ops).evictions ++ new ∧
        ∀ v ∈ new, v.evicted ≠ keyOf d := by
  have hsound := Run.invariant Sound (fun _ op h => h.step op) (sound_init nMaxPackets) ops
  exact ⟨hsound, hsound.insert_evictions⟩

end LruStore

end NdnFc
