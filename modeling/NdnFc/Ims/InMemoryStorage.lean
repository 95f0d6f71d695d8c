import NdnFc.Lib.Run
import NdnFc.Lib.SortedTable
import NdnFc.Packet.Interest

/-!
# The in-memory storage of an application

The pool of entries and the lookup of `ndn-cxx/ims/in-memory-storage.cpp`.
-/

namespace NdnFc

open List SortedTable Run

namespace InMemoryStorage

structure Entry where
  data : DataPacket
  isFresh : Bool
deriving DecidableEq

abbrev Cache := List Entry

/-- The position of the entry that a replacement policy evicts. -/
abbrev Policy := Cache → ℕ

variable [Sha256]

def Entry.getFullName (e : Entry) : Name :=
  e.data.getFullName

/-- The order of the index of this name. -/
def byFullName (a b : Entry) : Ordering :=
  a.getFullName.compare b.getFullName

instance : Std.TransCmp byFullName where
  eq_swap {a b} := (Std.OrientedCmp.eq_swap : a.getFullName.compare b.getFullName = _)
  isLE_trans {a _ c} hab hbc :=
    (Std.TransCmp.isLE_trans hab hbc : (a.getFullName.compare c.getFullName).isLE)

end InMemoryStorage

open InMemoryStorage

/-- The entries in use, in the order of their full names, and the number of free ones. `m_nPackets`
is the length of the cache. -/
structure InMemoryStorage [Sha256] where
  limit : ℕ
  capacity : ℕ
  freeEntries : ℕ
  cache : Cache
  sorted : Sorted byFullName cache
  failed : Bool

namespace InMemoryStorage

abbrev initCapacity : ℕ := 16

variable [Sha256] {s : InMemoryStorage} {cache rest : Cache} {i : Interest} {e : Entry} {n : ℕ}
  (policy : Policy)

def init (limit : ℕ) : InMemoryStorage where
  limit := limit
  capacity := min initCapacity limit
  freeEntries := min initCapacity limit
  cache := []
  sorted := .nil
  failed := false

def isFull (s : InMemoryStorage) : Bool :=
  decide (s.capacity ≤ s.cache.length)

/-- Keep a part of the entries and free the others (`freeEntry`). -/
def keep (s : InMemoryStorage) (cache : Cache) (h : cache <+ s.cache) : InMemoryStorage :=
  { s with
    cache := cache
    sorted := s.sorted.sublist h
    freeEntries := s.freeEntries + (s.cache.length - cache.length) }

def evict (policy : Policy) (cache : Cache) : Cache :=
  cache.eraseIdx (policy cache % cache.length)

omit [Sha256] in
theorem iterate_evict_sublist (n : ℕ) (cache : Cache) : (evict policy)^[n] cache <+ cache := by
  induction n generalizing cache with
  | zero => exact .refl _
  | succ n ih => exact (ih _).trans (eraseIdx_sublist ..)

def evictItem (policy : Policy) (s : InMemoryStorage) : InMemoryStorage :=
  s.keep (evict policy s.cache) (eraseIdx_sublist ..)

/-- `setCapacity`. The pool grows or shrinks by the difference of the capacities. -/
def setCapacity (policy : Policy) (capacity : ℕ) (s : InMemoryStorage) : InMemoryStorage :=
  let capacity := max capacity initCapacity
  let s' := s.keep ((evict policy)^[s.cache.length - capacity] s.cache)
    (iterate_evict_sublist ..)
  { s' with
    capacity := capacity
    freeEntries := s'.freeEntries + capacity - s.capacity }

/-- The end of `insert`: an entry of the pool is taken for the Data. -/
def use (data : DataPacket) (s : InMemoryStorage) : InMemoryStorage :=
  if s.freeEntries = 0 then { s with failed := true }
  else { s with
    freeEntries := s.freeEntries - 1
    cache := emplace byFullName ⟨data, true⟩ s.cache
    sorted := s.sorted.emplace _ }

/-- `insert`. The sizes are natural numbers: the memory runs out before twice the capacity exceeds a
`size_t`. -/
def insert (data : DataPacket) (policy : Policy) (s : InMemoryStorage) : InMemoryStorage :=
  if s.cache.any (·.getFullName == data.getFullName) then s
  else
    let doesReachLimit := s.limit == s.capacity
    let s₁ := if s.isFull && !doesReachLimit then
      s.setCapacity policy (min (2 * s.capacity) s.limit) else s
    (if s₁.isFull && doesReachLimit then s₁.evictItem policy else s₁).use data

/-- The entries that stay when a name is erased, or `none` when no Data has the full name. -/
def remaining (name : Name) (isPrefix : Bool) (cache : Cache) : Option Cache :=
  if isPrefix then
    let k := lowerBound (fun e => e.getFullName.compare name == .lt) cache
    some (cache.take k ++ (cache.drop k).dropWhile fun e => name.isPrefixOf e.data.name)
  else if cache.any (·.getFullName == name) then
    some (cache.filter (·.getFullName != name))
  else none

theorem remaining_sublist {name : Name} {isPrefix : Bool}
    (h : remaining name isPrefix cache = some rest) : rest <+ cache := by
  unfold remaining at h
  split_ifs at h <;> cases h
  · exact ((Sublist.refl _).append (dropWhile_sublist _)).trans (by rw [take_append_drop])
  · exact filter_sublist

def erase (name : Name) (isPrefix : Bool) (policy : Policy) (s : InMemoryStorage) :
    InMemoryStorage :=
  match h : remaining name isPrefix s.cache with
  | none => s
  | some rest =>
    let s' := s.keep rest (remaining_sublist h)
    if 2 * s'.cache.length < s'.freeEntries then s'.setCapacity policy (s'.capacity / 2) else s'

inductive Event where
  | insert (data : DataPacket) (policy : Policy)
  | erase (name : Name) (isPrefix : Bool) (policy : Policy)

def step (s : InMemoryStorage) : Event → InMemoryStorage
  | .insert data policy => s.insert data policy
  | .erase name isPrefix policy => s.erase name isPrefix policy

/-- The pool is in order: no more entries than the limit, each in use or free, and no insertion was
without a free entry. -/
def Pooled (s : InMemoryStorage) : Prop :=
  s.cache.length ≤ s.capacity ∧ s.capacity ≤ s.limit ∧
    s.cache.length + s.freeEntries = s.capacity ∧ s.failed = false

/-- The storage may hold the initial capacity, or the erasure leaves at least a third of the pool in
use. -/
def KeepsCapacity (s : InMemoryStorage) : Event → Prop
  | .insert .. => True
  | .erase name isPrefix _ => ∀ rest ∈ remaining name isPrefix s.cache,
      initCapacity ≤ s.limit ∨ s.capacity ≤ 3 * rest.length

/-- The capacity is never below the initial one that the limit allows. -/
def Grown (s : InMemoryStorage) : Prop :=
  0 < s.limit ∧ min initCapacity s.limit ≤ s.capacity

theorem grown_setCapacity (h : s.Grown) (n : ℕ) : (s.setCapacity policy n).Grown :=
  ⟨h.1, (min_le_left ..).trans (le_max_right ..)⟩

theorem grown_use (h : s.Grown) (data : DataPacket) : (s.use data).Grown := by
  unfold use
  split_ifs <;> exact h

theorem grown_step (h : s.Grown) (ev : Event) : (s.step ev).Grown := by
  cases ev with
  | insert data policy =>
    simp only [step, insert]
    split_ifs
    · exact h
    all_goals apply grown_use
    all_goals first | exact h | exact grown_setCapacity policy h _
  | erase name isPrefix policy =>
    simp only [step, erase]
    split
    · exact h
    · split_ifs
      · exact grown_setCapacity policy (s := s.keep ..) h _
      · exact h

/-- No entry is evicted when the new capacity suffices for all. -/
theorem cache_setCapacity (hn : s.cache.length ≤ max n initCapacity) :
    (s.setCapacity policy n).cache = s.cache := by
  simp only [setCapacity, keep, Nat.sub_eq_zero_of_le hn, Function.iterate_zero, id]

theorem pooled_setCapacity_iff (h : s.Pooled) (hn : s.cache.length ≤ max n initCapacity) :
    (s.setCapacity policy n).Pooled ↔ max n initCapacity ≤ s.limit := by
  obtain ⟨-, -, hfree, hok⟩ := h
  simp only [Pooled, cache_setCapacity policy hn]
  constructor
  · exact fun h => h.2.1
  · refine fun hlimit => ⟨hn, hlimit, ?_, hok⟩
    simp only [setCapacity, keep, Nat.sub_eq_zero_of_le hn, Function.iterate_zero, id]
    omega

theorem pooled_keep (h : s.Pooled) (hrest : rest <+ s.cache) : (s.keep rest hrest).Pooled := by
  obtain ⟨hsize, hlimit, hfree, hok⟩ := h
  have := hrest.length_le
  exact ⟨this.trans hsize, hlimit, by simp only [keep]; omega, hok⟩

omit [Sha256] in
theorem length_evict (h : cache ≠ []) : (evict policy cache).length = cache.length - 1 :=
  length_eraseIdx_of_lt (Nat.mod_lt _ (length_pos_of_ne_nil h))

theorem pooled_use {data : DataPacket} (h : s.Pooled) (hroom : s.cache.length < s.capacity)
    (hnew : ∀ e ∈ s.cache, e.getFullName ≠ data.getFullName) : (s.use data).Pooled := by
  obtain ⟨-, hlimit, hfree, hok⟩ := h
  rw [use, if_neg (by omega)]
  have hlength : (emplace byFullName ⟨data, true⟩ s.cache).length = s.cache.length + 1 :=
    (emplace_perm fun e he heq =>
      hnew e he (Std.LawfulEqCmp.eq_of_compare (show Name.compare _ _ = _ from heq)).symm).length_eq
  exact ⟨by dsimp only; omega, hlimit, by dsimp only; omega, hok⟩

theorem pooled_insert (hgrown : s.Grown) (h : s.Pooled) (data : DataPacket) :
    (s.insert data policy).Pooled := by
  obtain ⟨hpos, hgrown⟩ := hgrown
  obtain ⟨hsize, hlimit, -⟩ := id h
  have hinit : initCapacity = 16 := rfl
  unfold insert
  split_ifs with hany
  · exact h
  have hnew : ∀ e ∈ s.cache, e.getFullName ≠ data.getFullName := by simpa using hany
  by_cases hfull : s.isFull
  swap
  · simp only [hfull, Bool.false_and, Bool.false_eq_true, if_false]
    exact pooled_use h (by simpa [isFull] using hfull) hnew
  have hlength : s.cache.length = s.capacity := hsize.antisymm (by simpa [isFull] using hfull)
  by_cases hreach : s.limit = s.capacity
  · have hne : s.cache ≠ [] := length_pos_iff.mp (by omega)
    have hsub : evict policy s.cache <+ s.cache := eraseIdx_sublist ..
    simp only [hfull, hreach, beq_self_eq_true, Bool.not_true, Bool.and_false, if_false,
      Bool.and_true, if_true, Bool.false_eq_true]
    refine pooled_use (pooled_keep h hsub) ?_ fun e he => hnew e (hsub.subset he)
    change (evict policy s.cache).length < s.capacity
    rw [length_evict policy hne]
    omega
  · simp only [hfull, beq_eq_false_iff_ne.mpr hreach, Bool.not_false, Bool.and_true, if_true,
      Bool.and_false, Bool.false_eq_true, if_false]
    have hcache := cache_setCapacity policy (n := min (2 * s.capacity) s.limit) (s := s) (by omega)
    refine pooled_use ((pooled_setCapacity_iff policy h (by omega)).mpr (by omega)) ?_ ?_
    · rw [hcache]
      exact lt_max_of_lt_left (lt_min (by omega) (by omega))
    · rwa [hcache]

theorem pooled_erase_iff (h : s.Pooled) (name : Name) (isPrefix : Bool) :
    (s.erase name isPrefix policy).Pooled ↔ s.KeepsCapacity (.erase name isPrefix policy) := by
  simp only [erase, KeepsCapacity]
  split
  case h_1 hnone => simpa [hnone] using h
  case h_2 rest hrest =>
    have hkeep := pooled_keep h (remaining_sublist hrest)
    have hlimit := h.2.1
    have hfree : rest.length + (s.keep rest (remaining_sublist hrest)).freeEntries = s.capacity :=
      hkeep.2.2.1
    have hcache : (s.keep rest (remaining_sublist hrest)).cache = rest := rfl
    have hcapacity : (s.keep rest (remaining_sublist hrest)).capacity = s.capacity := rfl
    simp only [hrest, Option.mem_def, Option.some.injEq, forall_eq', hcache, hcapacity]
    split_ifs with hshrink
    · rw [pooled_setCapacity_iff policy hkeep (by rw [hcache]; omega)]
      change max (s.capacity / 2) _ ≤ s.limit ↔ _
      omega
    · exact iff_of_true hkeep (by omega)

/-- With a limit of at least one, the pool stays in order in a run exactly when no erasure shrinks a
pool whose limit is below the initial capacity. -/
theorem pooled_run_iff (limit : ℕ) (hlimit : 0 < limit) (events : List Event) :
    (∀ front, front <+: events → (run step (init limit) front).Pooled) ↔
      Meets step KeepsCapacity (init limit) events := by
  refine invariant_iff_meets_of Grown Pooled (fun s ev h => grown_step h ev) ?_ ⟨hlimit, le_rfl⟩
    ⟨Nat.zero_le _, min_le_right .., Nat.zero_add _, rfl⟩
  rintro s (⟨data, policy⟩ | ⟨name, isPrefix, policy⟩) hgrown h
  · exact iff_of_true (pooled_insert policy hgrown h data) trivial
  · exact pooled_erase_iff policy h name isPrefix

omit [Sha256] in
theorem pooled_run_erase : ∃ _ : Sha256, ∀ front, front <+: [Event.erase [] true fun _ => 0] →
    (run step (init 16) front).Pooled :=
  ⟨Sha256.constant, (@pooled_run_iff Sha256.constant 16 (by decide) [_]).mpr
    ⟨fun _ _ => .inl le_rfl, trivial⟩⟩

omit [Sha256] in
/-- An erasure in an empty storage for one Data raises the capacity to 16. -/
theorem not_pooled_run : ∃ _ : Sha256,
    (run step (init 1) [Event.erase [] true fun _ => 0]).capacity = 16 ∧
      ¬ (run step (init 1) [Event.erase [] true fun _ => 0]).Pooled :=
  ⟨Sha256.constant, rfl, fun h => absurd h.2.1 (by decide)⟩

/-! ### Lookup -/

def answers (i : Interest) (e : Entry) : Bool :=
  i.matchesData e.data && (!i.mustBeFresh || e.isFresh)

/-- The loop of `selectChild`, from the entry after the starting point. -/
def iterateRight (i : Interest) : Cache → Option Entry
  | [] => none
  | e :: rest =>
    -- `findNextFresh`
    if i.mustBeFresh && !e.isFresh then iterateRight i rest
    else if !i.name.isPrefixOf e.getFullName then none
    else if i.matchesData e.data then some e
    else iterateRight i rest

/-- `selectChild`, for the entries from the starting point on. -/
def selectChild (i : Interest) (entries : Cache) : Option Entry :=
  match if i.mustBeFresh then entries.dropWhile (!·.isFresh) else entries with
  | [] => none
  | e :: rest => if i.matchesData e.data then some e else iterateRight i rest

/-- `find(interest)`: the entry found and whether `afterAccess` is called for it. -/
def find (i : Interest) (s : InMemoryStorage) : Option (Entry × Bool) :=
  match s.cache.find? (·.getFullName == i.name) with
  | some e => some (e, false)
  | none =>
    let k := lowerBound (fun e => e.getFullName.compare i.name == .lt) s.cache
    if k = s.cache.length then none
    else (selectChild i (s.cache.drop (k - 1))).map (·, true)

theorem selectChild_cons (i : Interest) (e : Entry) (rest : Cache) :
    selectChild i (e :: rest) = if i.mustBeFresh && !e.isFresh then selectChild i rest
      else if i.matchesData e.data then some e else iterateRight i rest := by
  cases hfresh : i.mustBeFresh <;> cases he : e.isFresh <;>
    simp [selectChild, hfresh, he]

theorem isPrefix_of_matchesData {d : DataPacket} (h : i.matchesData d) :
    i.name <+: d.getFullName := by
  unfold Interest.matchesData at h
  have hname : d.name <+: d.getFullName := prefix_append ..
  split_ifs at h <;> simp only [Bool.and_eq_true, beq_iff_eq, isPrefixOf_iff_prefix] at h
  · exact h.1.2 ▸ prefix_rfl
  · exact h.1.trans hname
  · exact h.1 ▸ hname

/-- The names that have the name of the Interest as a prefix come first. -/
def PrefixFirst (i : Interest) (entries : Cache) : Prop :=
  entries.Pairwise fun a b => i.name <+: b.getFullName → i.name <+: a.getFullName

theorem iterateRight_eq_find? (h : PrefixFirst i cache) :
    iterateRight i cache = cache.find? (answers i) := by
  induction cache with
  | nil => rfl
  | cons e rest ih =>
    obtain ⟨he, hrest⟩ := pairwise_cons.mp h
    rw [iterateRight, ih hrest]
    split_ifs with hstale hprefix hmatches
    · grind [answers]
    · -- No later name has the prefix either.
      simp only [Bool.not_eq_true', ← Bool.not_eq_true, isPrefixOf_iff_prefix] at hprefix
      refine (find?_eq_none.mpr fun a ha hanswers => hprefix ?_).symm
      have hanswers := isPrefix_of_matchesData (Bool.and_eq_true_iff.mp hanswers).1
      rcases mem_cons.mp ha with rfl | ha
      · exact hanswers
      · exact he a ha hanswers
    all_goals grind [answers]

theorem selectChild_eq_find? (h : PrefixFirst i cache) :
    selectChild i cache = cache.find? (answers i) := by
  induction cache with
  | nil => simp [selectChild]
  | cons e rest ih =>
    have hrest := (pairwise_cons.mp h).2
    rw [selectChild_cons, ih hrest, iterateRight_eq_find? hrest]
    grind [answers]

/-- The entry before the lower bound is never the one found. -/
theorem selectChild_cons_eq_find? (h : PrefixFirst i rest)
    (he : ¬ i.name <+: e.getFullName) : selectChild i (e :: rest) = rest.find? (answers i) := by
  have hmatches : i.matchesData e.data = false :=
    Bool.eq_false_iff.mpr fun h => he (isPrefix_of_matchesData h)
  simp [selectChild_cons, selectChild_eq_find? h, iterateRight_eq_find? h, hmatches]

abbrev below (i : Interest) (e : Entry) : Bool :=
  e.getFullName.compare i.name == .lt

theorem not_isPrefix_of_below (h : below i e) : ¬ i.name <+: e.getFullName := by
  intro hprefix
  have hgt : i.name.compare e.getFullName = .gt := Std.OrientedCmp.gt_iff_lt.mpr (by simpa using h)
  by_cases heq : i.name = e.getFullName
  · cases hgt.symm.trans (Std.LawfulEqCmp.compare_eq_iff_eq.mpr heq)
  · cases hgt.symm.trans (LexOrder.compareLex_of_isPrefix_of_ne hprefix heq)

theorem pairwise_below (i : Interest) (s : InMemoryStorage) :
    s.cache.Pairwise fun a b => below i b → below i a := by
  refine s.sorted.imp fun {a b} hab hb => ?_
  have hlt : a.getFullName.compare i.name = .lt :=
    Std.TransCmp.lt_trans hab (show b.getFullName.compare i.name = .lt by simpa using hb)
  simpa using hlt

theorem prefixFirst_drop (i : Interest) (s : InMemoryStorage) :
    PrefixFirst i (s.cache.drop (lowerBound (below i) s.cache)) := by
  rw [(take_drop_lowerBound (pairwise_below i s)).2]
  refine (s.sorted.filter _).imp_of_mem fun {a b} ha hb hab hprefix => ?_
  have hge : (a.getFullName.compare i.name).isGE :=
    Ordering.isGE_iff_ne_lt.mpr (by simpa using (mem_filter.mp ha).2)
  exact LexOrder.isPrefix_of_between (Std.OrientedCmp.isGE_iff_isLE.mp hge)
    (Ordering.isLE_of_eq_lt hab) hprefix

theorem find_eq (h : ∀ e ∈ s.cache, e.getFullName ≠ i.name) :
    s.find i = (s.cache.find? (answers i)).map (·, true) := by
  have hnone : s.cache.find? (·.getFullName == i.name) = none := by simpa using h
  have hdrop := prefixFirst_drop i s
  have htake := (take_drop_lowerBound (pairwise_below i s)).1
  simp only [find, hnone]
  generalize hk : lowerBound (below i) s.cache = k at hdrop htake ⊢
  have hbefore : ∀ e ∈ s.cache.take k, ¬ i.name <+: e.getFullName := fun e he =>
    not_isPrefix_of_below (mem_filter.mp (htake ▸ he)).2
  have hfind : s.cache.find? (answers i) = (s.cache.drop k).find? (answers i) := by
    have htake : (s.cache.take k).find? (answers i) = none := find?_eq_none.mpr fun e he hanswers =>
      hbefore e he (isPrefix_of_matchesData (Bool.and_eq_true_iff.mp hanswers).1)
    conv_lhs => rw [← take_append_drop k s.cache, find?_append, htake, Option.none_or]
  rw [hfind]
  split_ifs with hend
  · simp [hend]
  · cases k with
    | zero => exact congrArg _ (selectChild_eq_find? hdrop)
    | succ k =>
      have hlt : k + 1 ≤ s.cache.length := by
        rw [← hk]
        exact findIdx_le_length
      rw [Nat.add_sub_cancel, drop_eq_getElem_cons hlt, selectChild_cons_eq_find? hdrop]
      exact hbefore _ (mem_take_iff_getElem.mpr ⟨k, by omega, rfl⟩)

end InMemoryStorage

end NdnFc
