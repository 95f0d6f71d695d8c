import NdnFc.Lib.Run
import NdnFc.Lib.SortedTable
import NdnFc.Table.PitEntry

/-!
# Content Store

The Content Store keeps Data packets ordered by name and implicit digest
(`NFD-FC/daemon/table/cs.cpp`, `cs-entry.cpp`). A lookup searches between the digest-stripped Name
of the Interest followed by its Function and the successor of that name. The replacement policy may
evict any entry at any time.
-/

namespace NdnFc

open List SortedTable

/-- What `operator<` of `EntryRef` looks at: the name and the digest of the entry. -/
abbrev EntryRef := Name × Component

namespace ContentStore

/-- An entry: a Data packet, whether it was unsolicited and until when it is fresh. -/
structure Entry where
  data : DataPacket
  isUnsolicited : Bool
  freshUntil : Time
deriving DecidableEq

variable [Sha256]

/-- The implicit digest component of a Data packet. -/
def digestOf (d : DataPacket) : Component :=
  Name.implicitDigest (Sha256.digest d.wire)

def compareQueryWithData (queryName : Name) (d : DataPacket) : Ordering :=
  match queryName.getLast? with
  | some last =>
    if last.isImplicitSha256Digest then
      (Name.compare queryName.dropLast d.name).then (Component.compare last (digestOf d))
    else (Name.compare queryName d.name).then .lt
  | none => (Name.compare queryName d.name).then .lt

def compareDataWithData (lhs rhs : DataPacket) : Ordering :=
  (Name.compare lhs.name rhs.name).then (Component.compare (digestOf lhs) (digestOf rhs))

namespace Entry

def compare (lhs rhs : Entry) : Ordering :=
  compareDataWithData lhs.data rhs.data

/-- `operator<(entry, queryName)` -/
def isBelow (queryName : Name) (entry : Entry) : Bool :=
  compareQueryWithData queryName entry.data == .gt

omit [Sha256] in
def isFresh (entry : Entry) (now : Time) : Bool :=
  decide (now ≤ entry.freshUntil)

def canSatisfy (entry : Entry) (interest : Interest) (now : Time) : Bool :=
  interest.matchesDataWFunction entry.data && !(interest.mustBeFresh && !entry.isFresh now)

omit [Sha256] in
def updateFreshUntil (entry : Entry) (now : Time) : Entry :=
  { entry with freshUntil := now + entry.data.freshnessPeriod }

end Entry

end ContentStore

/-- The Content Store: its table, the limit of the policy and the two switches. -/
structure ContentStore where
  table : List ContentStore.Entry
  limit : ℕ
  shouldAdmit : Bool
  shouldServe : Bool

namespace ContentStore

variable [Sha256]

/-- What `insert` does to an equivalent entry that is already stored. -/
def refresh (entry : Entry) (now : Time) (isUnsolicited : Bool) : Entry :=
  { entry.updateFreshUntil now with isUnsolicited := entry.isUnsolicited && isUnsolicited }

variable (cs : ContentStore)

/-- `insert` at time `now`. The flag `noCache` is the NO_CACHE tag of the packet. Evictions by the
policy are steps of their own. -/
def insert (d : DataPacket) (isUnsolicited noCache : Bool) (now : Time) : ContentStore :=
  if !cs.shouldAdmit || cs.limit == 0 || noCache then cs
  else
    let entry : Entry := ⟨d, isUnsolicited, now + d.freshnessPeriod⟩
    { cs with
      table :=
        if cs.table.any fun e => e.compare entry == .eq then
          cs.table.map fun e => if e.compare entry = .eq then refresh e now isUnsolicited else e
        else emplace Entry.compare entry cs.table }

/-- `findPrefixRange`: the positions of the first entry of the range and of the first entry after
it. Computing the successor may throw. -/
def findPrefixRange (name : Name) : Except String (ℕ × ℕ) := do
  let first := lowerBound (Entry.isBelow name) cs.table
  if name = [] then pure (first, cs.table.length)
  else
    let successor ← name.getSuccessor
    pure (first, lowerBound (Entry.isBelow successor) cs.table)

/-- `eraseImpl`: remove up to `limit` entries from the front of the range. -/
def erase (name : Name) (limit : ℕ) : Except String ContentStore := do
  let (first, last) ← cs.findPrefixRange name
  let nErased := min limit (last - first)
  pure { cs with table := cs.table.take first ++ cs.table.drop (first + nErased) }

def find (interest : Interest) (now : Time) : Except String (Option Entry) :=
  if !cs.shouldServe || cs.limit == 0 then pure none
  else do
    let (first, last) ← cs.findPrefixRange interest.getNameFunction
    pure ((range first last cs.table).find? fun e => e.canSatisfy interest now)

/-- The operations on the store, and the evictions of its policy. -/
inductive Op where
  | insert (d : DataPacket) (isUnsolicited noCache : Bool) (now : Time)
  | erase (name : Name) (limit : ℕ)
  | find (interest : Interest) (now : Time)
  | setLimit (nMaxPackets : ℕ)
  | enableAdmit (shouldAdmit : Bool)
  | enableServe (shouldServe : Bool)
  | evict (entry : Entry)

/-- One operation. A lookup and an operation that throws leave the store as it is. -/
def step : Op → ContentStore
  | .insert d isUnsolicited noCache now => cs.insert d isUnsolicited noCache now
  | .erase name limit => match cs.erase name limit with
    | .ok cs' => cs'
    | .error _ => cs
  | .find _ _ => cs
  | .setLimit nMaxPackets => { cs with limit := nMaxPackets }
  | .enableAdmit shouldAdmit => { cs with shouldAdmit := shouldAdmit }
  | .enableServe shouldServe => { cs with shouldServe := shouldServe }
  | .evict entry => { cs with table := cs.table.filter (· ≠ entry) }

def init (nMaxPackets : ℕ) : ContentStore := ⟨[], nMaxPackets, true, true⟩

/-! ### Order of the table -/

/-- Name and digest, by which the table is ordered. -/
def keyOf (d : DataPacket) : Name × Component := (d.name, digestOf d)

/-- Lexicographic comparison of keys. -/
def keyCompare : Name × Component → Name × Component → Ordering :=
  compareLex (compareOn Prod.fst) (compareOn Prod.snd)

instance : Std.TransCmp keyCompare :=
  inferInstanceAs (Std.TransCmp (compareLex (compareOn Prod.fst) (compareOn Prod.snd)))

instance : Std.TransCmp Entry.compare where
  eq_swap {a b} :=
    (Std.OrientedCmp.eq_swap : keyCompare (keyOf a.data) (keyOf b.data) = _)
  isLE_trans {a b c} hab hbc :=
    (Std.TransCmp.isLE_trans (b := keyOf b.data) hab hbc :
      (keyCompare (keyOf a.data) (keyOf c.data)).isLE)

variable {entry e e' : Entry} {X next : Name}

theorem isBelow_digest_iff {p : Name} {c : Component} (hc : c.isImplicitSha256Digest) :
    entry.isBelow (p ++ [c]) ↔ keyCompare (p, c) (keyOf entry.data) = .gt := by
  simp only [Entry.isBelow, compareQueryWithData, getLast?_concat, hc, if_true,
    dropLast_concat, beq_iff_eq]
  rfl

theorem isBelow_iff (h : X.endsWithDigest = false) :
    entry.isBelow X ↔ Name.compare X entry.data.name = .gt := by
  have hlt : ∀ o : Ordering, (o.then .lt == .gt) = true ↔ o = .gt := by decide
  unfold Entry.isBelow compareQueryWithData
  split
  next last hlast =>
    have : last.isImplicitSha256Digest = false := by simpa [Name.endsWithDigest, hlast] using h
    simp only [this, Bool.false_eq_true, if_false, hlt]
  next => exact hlt _

theorem isBelow_of_compare_lt (hlt : e.compare e' = .lt) (h : e'.isBelow X) : e.isBelow X := by
  by_cases hX : X.endsWithDigest
  · obtain ⟨c, hc, hXc⟩ := Name.eq_stripDigest_append hX
    rw [hXc] at h ⊢
    rw [isBelow_digest_iff hc] at h ⊢
    exact Std.TransCmp.gt_trans h (Std.OrientedCmp.gt_of_lt hlt)
  · rw [isBelow_iff (by simpa using hX)] at h ⊢
    have hname : (Name.compare e.data.name e'.data.name).isLE := by
      have hle : (e.compare e').isLE := by rw [hlt]; rfl
      exact (Ordering.isLE_then_iff_and.mp hle).1
    exact Std.TransCmp.gt_of_gt_of_isGE h (Std.OrientedCmp.isGE_iff_isLE.mpr hname)

theorem pairwise_isBelow {l : List Entry} (h : Sorted Entry.compare l) (X : Name) :
    l.Pairwise fun a b => b.isBelow X → a.isBelow X :=
  h.imp fun hlt => isBelow_of_compare_lt hlt

theorem isBelow_getSuccessor (hX : X ≠ []) (hnext : X.getSuccessor = .ok next)
    (h : entry.isBelow X) : entry.isBelow next := by
  induction X using reverseRecOn with
  | nil => exact absurd rfl hX
  | append_singleton p c _ =>
    obtain ⟨c', hc', rfl⟩ := Name.getSuccessor_append_singleton_eq_ok_iff.mp hnext
    have hlt := Component.compare_getSuccessor hc'
    have hgt : Component.compare c' c = .gt := Std.OrientedCmp.gt_of_lt hlt
    by_cases hd : c.isImplicitSha256Digest
    · rw [isBelow_digest_iff hd] at h
      by_cases hd' : c'.isImplicitSha256Digest
      · rw [isBelow_digest_iff hd']
        refine Std.TransCmp.gt_trans (b := (p, c)) ?_ h
        simp only [keyCompare, compareLex, compareOn, Std.ReflCmp.compare_self, Ordering.eq_then]
        exact hgt
      · -- past the last digest: the name without the digest is a proper prefix of the bound
        rw [isBelow_iff (by simpa using hd')]
        have hge : (Name.compare p entry.data.name).isGE := by
          change (Name.compare p entry.data.name).then _ = .gt at h
          cases hcmp : Name.compare p entry.data.name with
          | lt => rw [hcmp] at h; cases h
          | eq | gt => rfl
        have hext : Name.compare (p ++ [c']) p = .gt := by
          have h : Name.compare (p ++ [c']) (p ++ []) = _ :=
            LexOrder.compareLex_append_append p [c'] []
          rwa [append_nil] at h
        exact Std.TransCmp.gt_of_gt_of_isGE hext hge
    · have hd' : ¬ c'.isImplicitSha256Digest := fun hd' =>
        hd (Component.isImplicitSha256Digest_of_getSuccessor hc' hd')
      rw [isBelow_iff (by simpa using hd)] at h
      rw [isBelow_iff (by simpa using hd')]
      refine Std.TransCmp.gt_trans ?_ h
      rw [Name.compare, LexOrder.compareLex_append_append, List.compareLex_cons_cons, hgt]
      rfl

/-! ### The table stays sorted -/

/-- The table is ordered by name and digest, without repetition. -/
def Inv : Prop :=
  Sorted Entry.compare cs.table

variable {cs : ContentStore}

theorem Inv.insert (h : cs.Inv) (d : DataPacket) (isUnsolicited noCache : Bool) (now : Time) :
    (cs.insert d isUnsolicited noCache now).Inv := by
  have hdata : ∀ (e entry : Entry),
      (if e.compare entry = .eq then refresh e now isUnsolicited else e).data = e.data := by
    intro e entry
    split <;> rfl
  unfold ContentStore.insert
  split
  · exact h
  · dsimp only
    split
    · exact Sorted.map h fun a b => by rw [Entry.compare, hdata, hdata]; rfl
    · exact Sorted.emplace h _

theorem Inv.erase {cs cs' : ContentStore} (h : cs.Inv) {name : Name} {limit : ℕ}
    (herase : cs.erase name limit = .ok cs') : cs'.Inv := by
  obtain ⟨⟨first, last⟩, -, hcs⟩ := Fallible.bind_eq_ok_iff.mp herase
  cases hcs
  refine Pairwise.sublist ?_ h
  conv_rhs => rw [← take_append_drop first cs.table]
  rw [← drop_drop]
  exact Sublist.append_left (drop_sublist _ _) _

theorem Inv.step (h : cs.Inv) (op : Op) : (cs.step op).Inv := by
  cases op with
  | insert d isUnsolicited noCache now => exact h.insert d isUnsolicited noCache now
  | erase name limit =>
    simp only [ContentStore.step]
    split
    next cs' herase => exact h.erase herase
    next => exact h
  | evict entry => exact Sorted.filter h _
  | find _ _ | setLimit _ | enableAdmit _ | enableServe _ => exact h

theorem inv_init (nMaxPackets : ℕ) : (init nMaxPackets).Inv := Pairwise.nil

theorem inv_run (nMaxPackets : ℕ) (ops : List Op) : (Run.run step (init nMaxPackets) ops).Inv :=
  Run.invariant Inv (fun _ op h => h.step op) (inv_init nMaxPackets) ops

/-! ### References to the entries -/

/-- The names and digests of the entries, which iterators into the table refer to. -/
def keys : List EntryRef :=
  cs.table.map fun e => keyOf e.data

def eraseKey (k : EntryRef) : ContentStore :=
  { cs with table := cs.table.filter fun e => keyOf e.data ≠ k }

variable {cs : ContentStore} {k : EntryRef} {d : DataPacket} {isUnsolicited noCache : Bool}
  {now : Time}

theorem compare_eq_iff {d d' : DataPacket} :
    compareDataWithData d d' = .eq ↔ keyOf d = keyOf d' := by
  simp [compareDataWithData, keyOf, Ordering.then_eq_eq, Std.LawfulEqCmp.compare_eq_iff_eq]

theorem nodup_keys (h : cs.Inv) : cs.keys.Nodup := by
  refine pairwise_map.mpr (h.imp fun {a b} hlt heq => ?_)
  have : a.compare b = .eq := compare_eq_iff.mpr heq
  rw [hlt] at this
  cases this

theorem mem_keys_eraseKey {k' : EntryRef} : k' ∈ (cs.eraseKey k).keys ↔ k' ∈ cs.keys ∧ k' ≠ k := by
  simp only [keys, eraseKey, mem_map, mem_filter, decide_eq_true_eq]
  constructor
  · rintro ⟨e, ⟨he, hne⟩, rfl⟩
    exact ⟨⟨e, he, rfl⟩, hne⟩
  · rintro ⟨⟨e, he, rfl⟩, hne⟩
    exact ⟨e, ⟨he, hne⟩, rfl⟩

theorem any_compare_iff :
    (cs.table.any fun e => compareDataWithData e.data d == .eq) ↔ keyOf d ∈ cs.keys := by
  simp [keys, compare_eq_iff]

theorem limit_insert : (cs.insert d isUnsolicited noCache now).limit = cs.limit := by
  unfold insert
  split <;> rfl

theorem length_insert (hk : keyOf d ∈ cs.keys) :
    (cs.insert d isUnsolicited noCache now).table.length = cs.table.length := by
  have hany : (cs.table.any fun e => Entry.compare e ⟨d, isUnsolicited, now + d.freshnessPeriod⟩ ==
      .eq) = true := any_compare_iff.mpr hk
  unfold insert
  split
  · rfl
  · dsimp only
    rw [if_pos hany, length_map]

theorem mem_table_insert (hopen : (!cs.shouldAdmit || cs.limit == 0 || noCache) = false)
    (h : e ∈ (cs.insert d isUnsolicited noCache now).table) :
    e ∈ cs.table ∨ keyOf e.data = keyOf d := by
  simp only [insert, hopen, Bool.false_eq_true, if_false] at h
  split at h
  · obtain ⟨old, hold, rfl⟩ := mem_map.mp h
    split_ifs with hsame
    · exact .inr (compare_eq_iff.mp hsame)
    · exact .inl hold
  · rcases mem_of_mem_emplace h with rfl | h
    · exact .inr rfl
    · exact .inl h

theorem mem_keys_insert (hopen : (!cs.shouldAdmit || cs.limit == 0 || noCache) = false) :
    k ∈ (cs.insert d isUnsolicited noCache now).keys ↔ k ∈ cs.keys ∨ k = keyOf d := by
  simp only [keys, insert, hopen, Bool.false_eq_true, if_false]
  split
  next hany =>
    have hsame : (cs.table.map fun e => if e.compare ⟨d, isUnsolicited, now + d.freshnessPeriod⟩ =
        .eq then refresh e now isUnsolicited else e).map (fun e => keyOf e.data) = cs.keys := by
      rw [map_map]
      refine map_congr_left fun e _ => ?_
      simp only [Function.comp_apply]
      split <;> rfl
    rw [hsame]
    have hd : keyOf d ∈ cs.keys := any_compare_iff.mp hany
    constructor
    · exact .inl
    · rintro (hk | rfl)
      · exact hk
      · exact hd
  next hany =>
    have hfresh : ∀ e ∈ cs.table,
        Entry.compare ⟨d, isUnsolicited, now + d.freshnessPeriod⟩ e ≠ .eq := by
      intro e he heq
      exact hany (any_compare_iff.mpr (mem_map.mpr ⟨e, he, (compare_eq_iff.mp heq).symm⟩))
    simp only [mem_map]
    constructor
    · rintro ⟨e, he, rfl⟩
      rcases mem_of_mem_emplace he with rfl | he
      · exact .inr rfl
      · exact .inl ⟨e, he, rfl⟩
    · rintro (⟨e, he, rfl⟩ | rfl)
      · exact ⟨e, mem_emplace_of_mem he, rfl⟩
      · exact ⟨_, (emplace_perm hfresh).mem_iff.mpr mem_cons_self, rfl⟩

theorem mem_table_of_find {interest : Interest} (hfind : cs.find interest now = .ok (some e)) :
    e ∈ cs.table := by
  unfold find at hfind
  split at hfind
  · cases hfind
  · obtain ⟨⟨first, last⟩, -, hfound⟩ := Fallible.bind_eq_ok_iff.mp hfind
    have hmem := mem_of_find?_eq_some (Except.ok.inj hfound)
    exact mem_of_mem_take (mem_of_mem_drop hmem)

/-! ### Lookup -/

/-- A lookup succeeds, hits exactly when some stored entry satisfies the Interest, and returns a
stored entry that satisfies it. -/
def AgreesWithScan (cs : ContentStore) (i : Interest) (now : Time) : Prop :=
  ∃ result, cs.find i now = .ok result ∧
    (result.isSome ↔ ∃ e ∈ cs.table, e.canSatisfy i now) ∧
    ∀ e, result = some e → e ∈ cs.table ∧ e.canSatisfy i now

/-- The entry is not before `X`, and it is before the successor of `X`. -/
def InSearchRange (X : Name) (entry : Entry) : Prop :=
  X = [] ∨ ∃ next, X.getSuccessor = .ok next ∧ ¬ entry.isBelow X ∧ entry.isBelow next

theorem not_isBelow_nil : ¬ entry.isBelow [] := by
  rw [isBelow_iff rfl]
  cases entry.data.name <;> simp [Name.compare, List.compareLex_nil_cons, List.compareLex_nil_nil]

theorem findPrefixRange_cases (h : cs.Inv) (X : Name) :
    (∃ first last, cs.findPrefixRange X = .ok (first, last) ∧
      ∀ e, e ∈ range first last cs.table ↔ e ∈ cs.table ∧ InSearchRange X e) ∨
    (X ≠ [] ∧ ∃ error, X.getSuccessor = .error error ∧ cs.findPrefixRange X = .error error) := by
  unfold findPrefixRange
  by_cases hX : X = []
  · subst hX
    refine .inl ⟨_, _, if_pos rfl, fun e => ?_⟩
    rw [SortedTable.range, take_length,
      mem_drop_lowerBound_iff (pairwise_isBelow h _)]
    simp [not_isBelow_nil, InSearchRange]
  · simp only [hX, if_false]
    cases hnext : X.getSuccessor with
    | error error => exact .inr ⟨hX, error, rfl, rfl⟩
    | ok next =>
      refine .inl ⟨_, _, rfl, fun e => ?_⟩
      rw [mem_range_iff (pairwise_isBelow h _) (pairwise_isBelow h _)
        fun a _ => isBelow_getSuccessor hX hnext]
      simp [InSearchRange, hX, hnext]

theorem Inv.agrees_iff (h : cs.Inv) (hserve : cs.shouldServe = true) (hlimit : 0 < cs.limit)
    (i : Interest) (now : Time) :
    cs.AgreesWithScan i now ↔
      (i.getNameFunction = [] ∨ ∃ next, i.getNameFunction.getSuccessor = .ok next) ∧
      ((∃ e ∈ cs.table, e.canSatisfy i now) →
        ∃ e ∈ cs.table, e.canSatisfy i now ∧ InSearchRange i.getNameFunction e) := by
  have hopen : (!cs.shouldServe || cs.limit == 0) = false := by
    simp [hserve, Nat.pos_iff_ne_zero.mp hlimit]
  unfold AgreesWithScan find
  rw [if_neg (by simp [hopen])]
  rcases findPrefixRange_cases h i.getNameFunction with
    ⟨first, last, hrange, hmem⟩ | ⟨hX, error, hnext, hrange⟩
  · have hbound : i.getNameFunction = [] ∨ ∃ next, i.getNameFunction.getSuccessor = .ok next := by
      by_cases hX : i.getNameFunction = []
      · exact .inl hX
      · cases hnext : i.getNameFunction.getSuccessor with
        | ok next => exact .inr ⟨next, rfl⟩
        | error error => simp [findPrefixRange, hX, hnext] at hrange
    simp only [hrange, Fallible.ok_bind, Fallible.pure_eq_ok, Except.ok.injEq, exists_eq_left',
      hbound, true_and]
    have hfound : ((range first last cs.table).find?
        fun e => e.canSatisfy i now).isSome ↔
          ∃ e ∈ cs.table, e.canSatisfy i now ∧ InSearchRange i.getNameFunction e := by
      simp only [find?_isSome, hmem]
      constructor
      · rintro ⟨e, ⟨he, hr⟩, hs⟩
        exact ⟨e, he, hs, hr⟩
      · rintro ⟨e, he, hs, hr⟩
        exact ⟨e, ⟨he, hr⟩, hs⟩
    have hresult : ∀ e, (range first last cs.table).find?
        (fun e => e.canSatisfy i now) = some e → e ∈ cs.table ∧ e.canSatisfy i now := by
      intro e he
      have hsat := find?_some he
      exact ⟨((hmem e).mp (mem_of_find?_eq_some he)).1, hsat⟩
    rw [hfound]
    constructor
    · rintro ⟨hiff, -⟩
      exact hiff.mpr
    · intro hsome
      refine ⟨⟨?_, hsome⟩, hresult⟩
      rintro ⟨e, he, hs, -⟩
      exact ⟨e, he, hs⟩
  · simp [hrange, hX, hnext]

end ContentStore

end NdnFc
