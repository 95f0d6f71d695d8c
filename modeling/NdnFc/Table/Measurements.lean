import NdnFc.Lib.Run
import NdnFc.Table.FibOperations

/-!
# Lifetime of measurements entries

A measurements entry knows when it expires and which event of the scheduler will remove it
(`NFD-FC/daemon/table/measurements.cpp`). The clock does not move during a call.
-/

namespace NdnFc

open List NameTree KeyedList

namespace Measurements

/-- A scheduled call of `cleanup`, for the entry on a node. -/
structure Event where
  expireTime : ℤ
  name : Name
deriving DecidableEq

structure Entry where
  expiry : ℤ
  cleanup : Event

end Measurements

/-- The table, with its pending events and the clock. -/
structure Measurements (φ π σ : Type*) where
  nameTree : NameTree φ π Measurements.Entry σ
  nItems : ℕ
  events : List Measurements.Event
  now : ℤ

namespace Measurements

variable {φ π σ : Type*}

/-- `getInitialLifetime`, in nanoseconds. -/
def initialLifetime : ℤ := 4000000000

def entryAt (t : NameTree φ π Entry σ) (name : Name) : Option Entry :=
  (t.tablesAt name).measurementsEntry

def setEntry (t : NameTree φ π Entry σ) (name : Name) (entry : Option Entry) :
    NameTree φ π Entry σ :=
  t.modifyTables name fun tables => { tables with measurementsEntry := entry }

variable (s : Measurements φ π σ) (name : Name)

/-- Set the expiry of an entry and schedule its removal. -/
def schedule (lifetime : ℤ) : Measurements φ π σ :=
  let event := ⟨s.now + lifetime, name⟩
  { s with
    nameTree := setEntry s.nameTree name (some ⟨s.now + lifetime, event⟩)
    events := event :: s.events }

/-- `get` for a node. The other forms and `getParent` look up the node first. -/
def get : Measurements φ π σ :=
  match s.nameTree.find? name with
  | none => s
  | some nte =>
    match nte.measurementsEntry with
    | some _ => s
    | none => schedule { s with nItems := s.nItems + 1 } name initialLifetime

def extendLifetime (lifetime : ℤ) : Measurements φ π σ :=
  match entryAt s.nameTree name with
  | none => s
  | some entry =>
    if s.now + lifetime ≤ entry.expiry then s
    else schedule { s with events := s.events.filter (· ≠ entry.cleanup) } name lifetime

def cleanup : Measurements φ π σ :=
  { s with
    nameTree := (setEntry s.nameTree name none).eraseIfEmpty name true
    nItems := s.nItems - 1 }

/-- The scheduler runs an event whose time has come. -/
def execute (event : Event) : Measurements φ π σ :=
  if event ∈ s.events ∧ event.expireTime ≤ s.now then
    cleanup { s with events := s.events.filter (· ≠ event) } event.name
  else s

/-- The calls of `Measurements`, the events, the clock, and what the other tables do to the tree,
such as `lookup` and `eraseIfEmpty`. -/
inductive Op (φ π σ : Type*) where
  | get (name : Name)
  | extendLifetime (name : Name) (lifetime : ℤ)
  | execute (event : Event)
  | tick (elapsed : ℕ)
  | other (change : NameTree φ π Entry σ → NameTree φ π Entry σ)
      (hchange : ∀ t n, entryAt (change t) n = entryAt t n)

def step : Op φ π σ → Measurements φ π σ
  | .get name => s.get name
  | .extendLifetime name lifetime => s.extendLifetime name lifetime
  | .execute event => s.execute event
  | .tick elapsed => { s with now := s.now + elapsed }
  | .other change _ => { s with nameTree := change s.nameTree }

/-- The latest expiry that the entry of a node has been given, after an operation. -/
def latest (n : Name) (expiry : ℤ) : Op φ π σ → ℤ
  | .extendLifetime name lifetime => if name = n then max expiry (s.now + lifetime) else expiry
  | _ => expiry

/-- The removal of an entry is scheduled for its expiry. An operation leaves it with its latest
expiry, unless it runs that event at or after the expiry: then the entry is removed, and with it all
nodes where nothing else is left. -/
def KeepsUntilExpiry (op : Op φ π σ) : Prop :=
  ∀ n entry, entryAt s.nameTree n = some entry → ⟨entry.expiry, n⟩ ∈ s.events ∧
    (op = .execute ⟨entry.expiry, n⟩ ∧ entry.expiry ≤ s.now →
      entryAt (s.step op).nameTree n = none ∧
        ∀ m, (s.step op).nameTree.EmptyAt m → m ≠ n ∧ s.nameTree.EmptyAt m) ∧
    (¬ (op = .execute ⟨entry.expiry, n⟩ ∧ entry.expiry ≤ s.now) →
      ∃ entry', entryAt (s.step op).nameTree n = some entry' ∧
        entry'.expiry = s.latest n entry.expiry op)

/-- The entries are those that the pending events are to remove. -/
structure Scheduled : Prop where
  entryAt_eq : ∀ n, entryAt s.nameTree n =
    (get? Event.name s.events n).map fun event => ⟨event.expireTime, event⟩
  nodup : (s.events.map Event.name).Nodup
  nItems_eq : s.nItems = s.events.length

variable {s name} {t : NameTree φ π Entry σ} {n : Name} {entry : Entry} {lifetime : ℤ}
  {event : Event}

theorem entryAt_setEntry {entry : Option Entry} (h : entry = none ∨ (t.find? name).isSome) :
    entryAt (setEntry t name entry) n = if n = name then entry else entryAt t n := by
  rw [entryAt, setEntry, tablesAt_modifyTables (h.imp_left fun h => by rw [h])]
  split <;> rfl

theorem entryAt_eq_bind (t : NameTree φ π Entry σ) (n : Name) :
    entryAt t n = (t.find? n).bind (·.measurementsEntry) := by
  cases h : t.find? n with
  | none => rw [entryAt, tablesAt_of_find?_none h, Option.bind_none]
  | some nte =>
    rw [entryAt, tablesAt_of_find? h]
    rfl

theorem isSome_find?_of_entryAt (h : entryAt t n = some entry) : (t.find? n).isSome := by
  obtain ⟨nte, hfind, -⟩ := Option.bind_eq_some_iff.mp ((entryAt_eq_bind t n).symm.trans h)
  exact Option.isSome_of_eq_some hfind

/-- `get` leaves what there is, or schedules the removal of a new entry. -/
theorem get_eq (s : Measurements φ π σ) (name : Name) : s.get name = s ∨
    (s.nameTree.find? name).isSome ∧ entryAt s.nameTree name = none ∧
      s.get name = schedule { s with nItems := s.nItems + 1 } name initialLifetime := by
  rw [get, entryAt_eq_bind]
  cases s.nameTree.find? name with
  | none => exact .inl rfl
  | some nte =>
    cases hentry : nte.measurementsEntry with
    | none => exact .inr ⟨rfl, hentry, by simp [hentry]⟩
    | some => exact .inl (by simp [hentry])

theorem entryAt_cleanup :
    entryAt (s.cleanup name).nameTree n = if n = name then none else entryAt s.nameTree n := by
  rw [cleanup, entryAt, tablesAt_eraseIfEmpty, ← entryAt, entryAt_setEntry (.inl rfl)]

namespace Scheduled

/-- Scheduling for a node without a pending event. -/
theorem schedule (hnode : (s.nameTree.find? name).isSome)
    (hentryAt : ∀ n ≠ name, entryAt s.nameTree n =
      (get? Event.name s.events n).map fun event => ⟨event.expireTime, event⟩)
    (hnone : get? Event.name s.events name = none) (hnodup : (s.events.map Event.name).Nodup)
    (hitems : s.nItems = s.events.length + 1) : (s.schedule name lifetime).Scheduled where
  entryAt_eq n := by
    rw [Measurements.schedule, entryAt_setEntry (.inr hnode), get?]
    split
    next hn => simp [hn]
    next hn =>
      rw [find?_cons_of_neg (by simpa using Ne.symm hn)]
      exact hentryAt n hn
  nodup := nodup_map_key_cons hnodup hnone
  nItems_eq := hitems

section

variable (h : s.Scheduled)

include h

theorem exists_event (hentry : entryAt s.nameTree n = some entry) :
    entry.cleanup = ⟨entry.expiry, n⟩ ∧ get? Event.name s.events n = some entry.cleanup := by
  rw [h.entryAt_eq] at hentry
  obtain ⟨event, hevent, rfl⟩ := Option.map_eq_some_iff.mp hentry
  obtain rfl := key_of_get? hevent
  exact ⟨rfl, hevent⟩

theorem filter_ne_eq (hevent : event ∈ s.events) :
    s.events.filter (· ≠ event) = erase Event.name s.events event.name := by
  refine filter_congr fun other hother => decide_eq_decide.mpr (not_congr ⟨?_, ?_⟩)
  · rintro rfl
    rfl
  · exact fun hname => inj_on_of_nodup_map h.nodup hother hevent hname

theorem get : (s.get name).Scheduled := by
  rcases get_eq s name with hget | ⟨hnode, hnone, hget⟩
  · rwa [hget]
  · rw [hget]
    refine .schedule hnode (fun n _ => h.entryAt_eq n) ?_ h.nodup (congrArg (· + 1) h.nItems_eq)
    rwa [h.entryAt_eq, Option.map_eq_none_iff] at hnone

theorem extendLifetime : (s.extendLifetime name lifetime).Scheduled := by
  rw [Measurements.extendLifetime]
  split
  next => exact h
  next entry hentry =>
    split
    next => exact h
    next =>
      obtain ⟨hcleanup, hevent⟩ := h.exists_event hentry
      have hmem := mem_of_get? hevent
      have hlength := (perm_cons_erase h.nodup hmem).length_eq
      rw [h.filter_ne_eq hmem]
      rw [hcleanup] at hlength ⊢
      refine .schedule (isSome_find?_of_entryAt hentry) (fun n hn => ?_) ?_
        (nodup_map_key_erase h.nodup) (h.nItems_eq.trans hlength)
      · rw [get?_erase, if_neg hn, h.entryAt_eq]
      · rw [get?_erase, if_pos rfl]

theorem execute : (s.execute event).Scheduled := by
  rw [Measurements.execute]
  split
  next hdue =>
    have hlength := (perm_cons_erase h.nodup hdue.1).length_eq
    rw [h.filter_ne_eq hdue.1]
    refine ⟨fun n => ?_, nodup_map_key_erase h.nodup, ?_⟩
    · rw [entryAt_cleanup, cleanup, get?_erase, h.entryAt_eq]
      split <;> rfl
    · rw [cleanup, h.nItems_eq, hlength]
      rfl
  next => exact h

theorem step (op : Op φ π σ) : (s.step op).Scheduled := by
  cases op with
  | get => exact h.get
  | extendLifetime => exact h.extendLifetime
  | execute => exact h.execute
  | tick => exact ⟨h.entryAt_eq, h.nodup, h.nItems_eq⟩
  | other change hchange =>
    exact ⟨fun n => (hchange _ n).trans (h.entryAt_eq n), h.nodup, h.nItems_eq⟩

/-- The counter is the number of events, and so the number of nodes with an entry. -/
theorem nItems_eq_countP :
    s.nItems = s.nameTree.nodes.countP (·.measurementsEntry.isSome) := by
  rw [countP_eq_length_filter, h.nItems_eq, ← length_map Event.name,
    ← length_map NameTree.Entry.name]
  refine ((perm_ext_iff_of_nodup h.nodup
    (s.nameTree.wellFormed.nodup.sublist (filter_sublist.map _))).mpr fun n => ?_).length_eq
  rw [← isSome_get?_iff, ← Option.isSome_map, ← h.entryAt_eq, entryAt_eq_bind,
    Option.isSome_bind, mem_map]
  simp only [Option.any_eq_true, find?_eq_some_iff, mem_filter, and_assoc]
  exact exists_congr fun nte => and_congr_right fun _ => and_comm

theorem keepsUntilExpiry (op : Op φ π σ) : s.KeepsUntilExpiry op := by
  intro n entry hentry
  obtain ⟨hcleanup, hevent⟩ := h.exists_event hentry
  rw [hcleanup] at hevent
  refine ⟨mem_of_get? hevent, ?_⟩
  cases op with
  | execute event =>
    refine ⟨?_, fun hnot => ⟨entry, ?_, rfl⟩⟩
    · rintro ⟨heq, hle⟩
      cases heq
      rw [Measurements.step, Measurements.execute, if_pos ⟨mem_of_get? hevent, hle⟩]
      refine ⟨entryAt_cleanup.trans (if_pos rfl), fun m hempty => ?_⟩
      obtain ⟨hm, hset⟩ := hempty.of_eraseIfEmpty
      exact ⟨hm, hset.of_modifyTables hm⟩
    · rw [Measurements.step, Measurements.execute]
      split
      next hdue =>
        rw [entryAt_cleanup, if_neg]
        · exact hentry
        · rintro rfl
          have heq := Option.some.inj ((get?_of_mem h.nodup hdue.1).symm.trans hevent)
          exact hnot ⟨congrArg _ heq, (congrArg Event.expireTime heq).symm.trans_le hdue.2⟩
      next => exact hentry
  | get name =>
    refine ⟨nofun, fun _ => ⟨entry, ?_, rfl⟩⟩
    rw [Measurements.step]
    rcases get_eq s name with hget | ⟨hnode, hnone, hget⟩
    · rwa [hget]
    · rw [hget, Measurements.schedule, entryAt_setEntry (.inr hnode), if_neg]
      · exact hentry
      · rintro rfl
        rw [hentry] at hnone
        cases hnone
  | extendLifetime name lifetime =>
    refine ⟨nofun, fun _ => ?_⟩
    rw [Measurements.step, latest, Measurements.extendLifetime]
    by_cases hn : name = n
    · subst hn
      simp only [hentry, if_true]
      split
      next hle => exact ⟨entry, hentry, (max_eq_left hle).symm⟩
      next hlt =>
        rw [Measurements.schedule, entryAt_setEntry (.inr (isSome_find?_of_entryAt hentry)),
          if_pos rfl]
        exact ⟨_, rfl, (max_eq_right (not_le.mp hlt).le).symm⟩
    · refine ⟨entry, ?_, (if_neg hn).symm⟩
      split
      next => exact hentry
      next hold =>
        split
        next => exact hentry
        next =>
          rwa [Measurements.schedule, entryAt_setEntry (.inr (isSome_find?_of_entryAt hold)),
            if_neg (Ne.symm hn)]
  | tick elapsed => exact ⟨nofun, fun _ => ⟨entry, hentry, rfl⟩⟩
  | other change hchange => exact ⟨nofun, fun _ => ⟨entry, (hchange _ n).trans hentry, rfl⟩⟩

end

end Scheduled

theorem le_latest (expiry : ℤ) (op : Op φ π σ) : expiry ≤ s.latest n expiry op := by
  cases op with
  | extendLifetime =>
    rw [latest]
    split
    · exact le_max_left ..
    · exact le_rfl
  | _ => exact le_rfl

/-- In every run the counter is the number of nodes with an entry, and the entries stay until their
latest expiry, which no operation lowers. -/
theorem run_keepsUntilExpiry (now : ℤ) (ops : List (Op φ π σ)) :
    let s := Run.run step ⟨empty, 0, [], now⟩ ops
    s.nItems = s.nameTree.nodes.countP (·.measurementsEntry.isSome) ∧
      ∀ op : Op φ π σ, s.KeepsUntilExpiry op ∧ ∀ n expiry, expiry ≤ s.latest n expiry op := by
  intro s
  have hempty : Scheduled (⟨empty, 0, [], now⟩ : Measurements φ π σ) :=
    ⟨fun _ => rfl, nodup_nil, rfl⟩
  have hs : s.Scheduled := Run.invariant Scheduled (fun s op h => h.step op) hempty ops
  exact ⟨hs.nItems_eq_countP, fun op => ⟨hs.keepsUntilExpiry op, fun n e => le_latest e op⟩⟩

end Measurements

end NdnFc
