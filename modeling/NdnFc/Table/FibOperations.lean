import NdnFc.Table.Cleanup

/-!
# Operations of the FIB

What the operations of the FIB do to the next hops, to the count of the entries and to the name
tree. `Fib::erase(prefix)` takes any node for one with a FIB entry and counts an entry less
(`NFD-FC/daemon/table/fib.cpp`, lines 107 to 114). `fib::Entry::addOrUpdateNextHop` returns an
iterator from before the sorting.
-/

namespace NdnFc

open List Option

namespace Fib

open KeyedList

/-! ### Announcing a next hop -/

variable (rank : NextHop → ℕ)

/-- By cost, and then by rank. -/
def RankLE (a b : NextHop) : Prop :=
  a.cost < b.cost ∨ a.cost = b.cost ∧ rank a ≤ rank b

instance (rank : NextHop → ℕ) : DecidableRel (RankLE rank) := fun _ _ =>
  inferInstanceAs (Decidable (_ ∨ _))

theorem pairwise_rankLE (l : List NextHop) :
    (l.insertionSort (RankLE rank)).Pairwise (RankLE rank) := by
  have : Std.Total (RankLE rank) := ⟨fun a b => by rw [RankLE, RankLE]; omega⟩
  have : IsTrans NextHop (RankLE rank) := ⟨fun a b c => by rw [RankLE, RankLE, RankLE]; omega⟩
  exact pairwise_insertionSort _ l

/-- A sort by cost that breaks ties by rank. -/
def rankSort : NextHopSort where
  sort := insertionSort (RankLE rank)
  perm l := perm_insertionSort _ l
  sorted l := (pairwise_rankLE rank l).imp fun h => h.elim le_of_lt fun h => h.1.le

namespace Entry

variable {e : Entry} {face : FaceId} {cost : ℕ} (s : NextHopSort)

theorem afterNewNextHop_eq (cost : ℕ) (hnew : e.findNextHop face = none) :
    ∃ front last, s.sort (e.nextHops ++ [⟨face, cost⟩]) = front ++ [last] ∧
      e.afterNewNextHop s face cost = [(e.name, last)] := by
  have hlength : (s.sort (e.nextHops ++ [⟨face, cost⟩])).length = e.nextHops.length + 1 := by
    rw [(s.perm _).length_eq, length_append, length_singleton]
  have hadded : e.addOrUpdateNextHop s face cost = (⟨e.name, s.sort _, _, s.sorted _⟩, true) :=
    dif_neg (by rw [hnew]; exact Bool.false_ne_true)
  have hplace : e.nextHops.findIdx (·.face == face) = e.nextHops.length :=
    findIdx_eq_length.mpr (by simpa [findNextHop] using hnew)
  obtain ⟨front, last, hsplit⟩ : ∃ front last, s.sort (e.nextHops ++ [⟨face, cost⟩]) =
      front ++ [last] :=
    ⟨_, _, (dropLast_append_getLast (ne_nil_of_length_eq_add_one hlength)).symm⟩
  refine ⟨front, last, hsplit, ?_⟩
  have hfront : front.length = e.nextHops.length := by
    rw [hsplit, length_append, length_singleton] at hlength
    omega
  have hreturned : e.returned s face cost =
      (s.sort (e.nextHops ++ [⟨face, cost⟩]))[e.nextHops.length]? := by
    rw [returned, hadded, hplace]
  rw [afterNewNextHop, hadded, if_pos rfl, hreturned, hsplit, ← hfront]
  simp

/-- A new next hop is announced, whatever the sort does with ties, exactly if its cost is above
those of the other next hops. -/
theorem afterNewNextHop_iff (hnew : e.findNextHop face = none) :
    (∀ s, e.afterNewNextHop s face cost = [(e.name, ⟨face, cost⟩)]) ↔
      ∀ nextHop ∈ e.nextHops, nextHop.cost < cost := by
  constructor
  · intro h nextHop hmem
    -- the sort puts the new next hop before others of the same cost
    let rank : NextHop → ℕ := fun a => if a.face = face then 0 else 1
    obtain ⟨front, last, hsplit, hemits⟩ := afterNewNextHop_eq (rankSort rank) cost hnew
    rw [h, cons.injEq, Prod.mk.injEq] at hemits
    obtain rfl : ⟨face, cost⟩ = last := hemits.1.2
    have hface : nextHop.face ≠ face := by
      intro heq
      rw [findNextHop, find?_eq_none] at hnew
      exact hnew nextHop hmem (by rw [heq, beq_self_eq_true])
    have hmem' : nextHop ∈ front ++ [⟨face, cost⟩] := by
      rw [← hsplit]
      exact ((rankSort rank).perm _).mem_iff.mpr (mem_append_left _ hmem)
    have hfront : nextHop ∈ front := by
      refine (mem_append.mp hmem').resolve_right fun hlast => hface ?_
      rw [mem_singleton.mp hlast]
    have hsorted := pairwise_rankLE rank (e.nextHops ++ [⟨face, cost⟩])
    change ((rankSort rank).sort _).Pairwise _ at hsorted
    rw [hsplit] at hsorted
    rcases (pairwise_append.mp hsorted).2.2 _ hfront _ (mem_singleton_self _) with
      hlt | ⟨-, hrank⟩
    · exact hlt
    · simp [rank, hface] at hrank
  · intro h s
    obtain ⟨front, last, hsplit, hemits⟩ := afterNewNextHop_eq s cost hnew
    rw [hemits]
    have hperm := s.perm (e.nextHops ++ [⟨face, cost⟩])
    have hsorted := s.sorted (e.nextHops ++ [⟨face, cost⟩])
    rw [hsplit] at hperm hsorted
    have hlast : last ∈ e.nextHops ++ [⟨face, cost⟩] := hperm.mem_iff.mp (by simp)
    have hadded : ⟨face, cost⟩ ∈ front ++ [last] := hperm.mem_iff.mpr (by simp)
    suffices heq : last = ⟨face, cost⟩ by rw [heq]
    rcases mem_append.mp hadded with hfront | hend
    · have hle := (pairwise_append.mp hsorted).2.2 _ hfront last (mem_singleton_self _)
      rcases mem_append.mp hlast with hold | hsame
      · exact absurd (h last hold) (not_lt.mpr hle)
      · exact mem_singleton.mp hsame
    · exact (mem_singleton.mp hend).symm

/-- An entry with one next hop, of cost 10. -/
def oneNextHop : Entry where
  name := []
  nextHops := [⟨1, 10⟩]
  nodup := nodup_singleton _
  sorted := pairwise_singleton _ _

theorem afterNewNextHop_oneNextHop :
    oneNextHop.afterNewNextHop Tables.costSort 2 20 = [([], ⟨2, 20⟩)] :=
  (afterNewNextHop_iff (show oneNextHop.findNextHop 2 = none from rfl)).mpr (by decide) _

/-- When a next hop of cost 5 is added, the one of cost 10 is announced. -/
theorem afterNewNextHop_cheaper :
    oneNextHop.findNextHop 2 = none ∧
      oneNextHop.afterNewNextHop Tables.costSort 2 5 = [([], ⟨1, 10⟩)] := by
  decide

/-! ### Costs -/

theorem nextHops_addOrUpdateNextHop (e : Entry) (face : FaceId) (cost : ℕ) :
    (e.addOrUpdateNextHop s face cost).1.nextHops.Perm
      (if (e.findNextHop face).isSome then
        update NextHop.face e.nextHops face (NextHop.setCost cost)
      else e.nextHops ++ [⟨face, cost⟩]) := by
  rw [addOrUpdateNextHop]
  split
  next h => exact s.perm _
  next h => exact s.perm _

def costOf (e : Entry) (face : FaceId) : Option ℕ :=
  (e.findNextHop face).map NextHop.cost

theorem costOf_eq (e : Entry) (face : FaceId) :
    e.costOf face = (get? NextHop.face e.nextHops face).map NextHop.cost := rfl

theorem costOf_addOrUpdateNextHop (e : Entry) (face : FaceId) (cost : ℕ) :
    (e.addOrUpdateNextHop s face cost).1.costOf = Function.update e.costOf face (some cost) := by
  funext other
  rw [costOf_eq, get?_perm (e.addOrUpdateNextHop s face cost).1.nodup
    (nextHops_addOrUpdateNextHop s e face cost), Function.update_apply, costOf_eq]
  cases h : e.findNextHop face with
  | none =>
    have hget : get? NextHop.face e.nextHops (NextHop.mk face cost).face = none := h
    rw [isSome_none, if_neg Bool.false_ne_true, get?_append_singleton hget]
    split <;> rfl
  | some nextHop =>
    have hget : get? NextHop.face e.nextHops face = some nextHop := h
    have hface : ∀ v, (NextHop.setCost cost v).face = v.face := fun _ => rfl
    rw [if_pos isSome_some, get?_update hface, hget]
    split <;> rfl

theorem costOf_removeNextHop (e : Entry) (face : FaceId) :
    (e.removeNextHop face).1.costOf = Function.update e.costOf face none := by
  have hnextHops : (e.removeNextHop face).1.nextHops =
      KeyedList.erase NextHop.face e.nextHops face := eraseP_eq_erase e.nodup
  funext other
  rw [costOf_eq, hnextHops, get?_erase, Function.update_apply, costOf_eq]
  split <;> rfl

end Entry

end Fib

/-! ### Nodes -/

namespace NameTree

variable {φ π μ σ : Type*} {t : NameTree φ π μ σ} {name n : Name}

theorem isSome_find?_lookup_iff {prefixLen : ℕ} (hlen : prefixLen ≤ name.length)
    (hdepth : prefixLen ≤ maxDepth) :
    ((t.lookup name prefixLen hlen hdepth).find? n).isSome ↔
      (t.find? n).isSome ∨ n <+: name.take prefixLen := by
  rw [find?, KeyedList.isSome_get?_iff, find?, KeyedList.isSome_get?_iff]
  exact mem_names_lookupNodes_iff hlen

theorem EmptyAt.of_lookup {prefixLen : ℕ} {hlen : prefixLen ≤ name.length}
    {hdepth : prefixLen ≤ maxDepth} (h : (t.lookup name prefixLen hlen hdepth).EmptyAt n) :
    n = name.take prefixLen ∨ t.EmptyAt n := by
  obtain ⟨hsome, htables, hleaf⟩ := emptyAt_iff.mp h
  simp only [isSome_find?_lookup_iff] at hsome hleaf
  rw [tablesAt_lookup] at htables
  by_cases hold : (t.find? n).isSome
  · exact .inr (emptyAt_iff.mpr ⟨hold, htables, fun c hc => hleaf c (.inl hc)⟩)
  · refine .inl ?_
    obtain ⟨rest, hrest⟩ := hsome.resolve_left hold
    cases rest with
    | nil => rw [← hrest, append_nil]
    | cons c rest =>
      have hchild : (n ++ [c]).dropLast = n := dropLast_concat
      refine absurd hchild (hleaf (n ++ [c]) (.inr ?_) (by simp))
      exact ⟨rest, by rw [← hrest, append_assoc, singleton_append]⟩

theorem EmptyAt.of_eraseIfEmpty (h : (t.eraseIfEmpty name true).EmptyAt n) :
    n ≠ name ∧ t.EmptyAt n := by
  obtain ⟨nte, hfind, hempty⟩ := h
  obtain ⟨hmem, rfl⟩ := find?_eq_some_iff.mp hfind
  obtain ⟨hin, hne⟩ := isEmpty_of_mem_eraseNodes t.wellFormed le_rfl hmem hempty
  exact ⟨hne, nte, find?_eq_some_iff.mpr ⟨hin, rfl⟩, hempty⟩

end NameTree

namespace Fib

variable {π μ σ : Type*} {t : NameTree Entry π μ σ} {fib : Fib π μ σ} {name n : Name}

variable {entry : Option Entry}

theorem EmptyAt.of_setFibEntry (h : (setFibEntry t name entry).EmptyAt n) :
    (n = name ∧ entry = none) ∨ t.EmptyAt n := by
  by_cases hn : n = name
  · subst hn
    obtain ⟨hsome, htables, -⟩ := NameTree.emptyAt_iff.mp h
    rw [tablesAt_setFibEntry (.inr (isSome_find?_setFibEntry.mp hsome)), if_pos rfl] at htables
    cases entry with
    | none => exact .inl ⟨rfl, rfl⟩
    | some entry => cases htables
  · exact .inr (NameTree.EmptyAt.of_modifyTables h hn)

theorem entryAt_of_emptyAt (h : t.EmptyAt n) : entryAt t n = none := by
  obtain ⟨-, htables, -⟩ := NameTree.emptyAt_iff.mp h
  rw [TableEntries.isEmpty, Bool.and_eq_true, Bool.and_eq_true, Bool.and_eq_true] at htables
  exact isNone_iff_eq_none.mp htables.1.1.1

/-! ### Entries -/

def entryCount (t : NameTree Entry π μ σ) : ℕ :=
  t.nodes.countP nteHasFibEntry

def prefixes (t : NameTree Entry π μ σ) : List Name :=
  (t.nodes.filter nteHasFibEntry).map NameTree.Entry.name

theorem length_prefixes (t : NameTree Entry π μ σ) : (prefixes t).length = entryCount t := by
  rw [prefixes, length_map, entryCount, countP_eq_length_filter]

theorem nodup_prefixes (t : NameTree Entry π μ σ) : (prefixes t).Nodup :=
  t.wellFormed.nodup.sublist (filter_sublist.map _)

theorem mem_prefixes_iff : n ∈ prefixes t ↔ (entryAt t n).isSome := by
  rw [prefixes, List.mem_map, entryAt]
  constructor
  · rintro ⟨nte, hmem, rfl⟩
    obtain ⟨hin, hentry⟩ := mem_filter.mp hmem
    rw [NameTree.tablesAt_of_find? (NameTree.find?_eq_some_iff.mpr ⟨hin, rfl⟩)]
    exact hentry
  · intro hentry
    cases hfind : t.find? n with
    | none =>
      rw [NameTree.tablesAt_of_find?_none hfind] at hentry
      cases hentry
    | some nte =>
      rw [NameTree.tablesAt_of_find? hfind] at hentry
      obtain ⟨hin, rfl⟩ := NameTree.find?_eq_some_iff.mp hfind
      exact ⟨nte, mem_filter.mpr ⟨hin, hentry⟩, rfl⟩

variable {t' : NameTree Entry π μ σ}

theorem entryCount_congr (h : ∀ n, (entryAt t' n).isSome = (entryAt t n).isSome) :
    entryCount t' = entryCount t := by
  rw [← length_prefixes, ← length_prefixes]
  refine ((perm_ext_iff_of_nodup (nodup_prefixes t') (nodup_prefixes t)).mpr ?_).length_eq
  intro n
  rw [mem_prefixes_iff, mem_prefixes_iff, h]

theorem entryCount_change (h : ∀ n, entryAt t' n = if n = name then entry else entryAt t n) :
    entryCount t' + (entryAt t name).toList.length = entryCount t + entry.toList.length := by
  have hlength : ∀ t : NameTree Entry π μ σ, entryCount t =
      ((prefixes t).erase name).length + (entryAt t name).toList.length := by
    intro t
    have hmem := mem_prefixes_iff (t := t) (n := name)
    rw [← length_prefixes, length_erase]
    cases hentry : entryAt t name with
    | none => simp [hmem, hentry]
    | some old =>
      have hin : name ∈ prefixes t := hmem.mpr (isSome_of_eq_some hentry)
      have hpos := length_pos_of_mem hin
      simp only [hin, if_true, toList_some, length_singleton]
      omega
  have hperm : ((prefixes t').erase name).Perm ((prefixes t).erase name) := by
    refine (perm_ext_iff_of_nodup ((nodup_prefixes t').erase _)
      ((nodup_prefixes t).erase _)).mpr fun n => ?_
    rw [(nodup_prefixes t').mem_erase_iff, (nodup_prefixes t).mem_erase_iff, mem_prefixes_iff,
      mem_prefixes_iff, h]
    exact and_congr_right fun hn => by rw [if_neg hn]
  rw [hlength t', hlength t, hperm.length_eq, h name, if_pos rfl]
  omega

theorem entryAt_insert (name : Name) (hdepth : name.length ≤ NameTree.maxDepth) (n : Name) :
    entryAt (fib.insert name hdepth).nameTree n =
      if n = name then some ((entryAt fib.nameTree name).getD (.create name))
      else entryAt fib.nameTree n := by
  have hnode := NameTree.isSome_find?_lookup (t := fib.nameTree) (le_refl name.length) hdepth
  rw [take_length] at hnode
  rw [insert]
  split
  next entry hentry =>
    rw [entryAt_lookup] at hentry ⊢
    split
    next hn => rw [hn, hentry, getD_some]
    next => rfl
  next hnone =>
    rw [entryAt_lookup] at hnone
    rw [entryAt_setFibEntry (.inr hnode), entryAt_lookup, hnone, getD_none]

theorem entryAt_eraseAt (name : Name) (canDeleteNte : Bool) (n : Name) :
    entryAt (fib.eraseAt name canDeleteNte).nameTree n =
      if n = name then none else entryAt fib.nameTree n := by
  rw [← entryAt_setFibEntry (.inl rfl), eraseAt]
  dsimp only
  split
  · rw [entryAt, NameTree.tablesAt_eraseIfEmpty, ← entryAt]
  · rfl

/-! ### Sequences of operations -/

/-- The states of the FIB after operations, with the cost that each entry was given last for each
face and the prefixes removed by `removeNextHop`. A prefix is erased only if its node has an entry.
In between, the other tables leave the FIB entries on their nodes and no new node empty. -/
inductive Operated (s : NextHopSort) :
    Fib π μ σ → (Name → FaceId → Option ℕ) → List Name → Prop
  | init (nameTree : NameTree Entry π μ σ) (hfib : ∀ n, entryAt nameTree n = none)
      (hempty : ∀ n, ¬ nameTree.EmptyAt n) : Operated s ⟨nameTree, 0⟩ (fun _ _ => none) []
  | insert {fib given left} (h : Operated s fib given left) (name : Name)
      (hdepth : name.length ≤ NameTree.maxDepth) : Operated s (fib.insert name hdepth) given left
  | addOrUpdateNextHop {fib given left} (h : Operated s fib given left) {name : Name}
      (hentry : (entryAt fib.nameTree name).isSome) (face : FaceId) (cost : ℕ) :
      Operated s (fib.addOrUpdateNextHop s name face cost)
        (Function.update given name (Function.update (given name) face (some cost))) left
  | removeNextHop {fib given left} (h : Operated s fib given left) {name : Name}
      (hentry : (entryAt fib.nameTree name).isSome) (face : FaceId) :
      Operated s (fib.removeNextHop name face).1
        (Function.update given name (Function.update (given name) face none))
        (if (fib.removeNextHop name face).2 = .fibEntryRemoved then name :: left else left)
  | erase {fib given left} (h : Operated s fib given left) (name : Name)
      (hentry : (fib.nameTree.find? name).isSome → (entryAt fib.nameTree name).isSome) :
      Operated s (fib.erase name) (Function.update given name fun _ => none) left
  | eraseEntry {fib given left} (h : Operated s fib given left) {name : Name}
      (hentry : (entryAt fib.nameTree name).isSome) :
      Operated s (fib.eraseEntry (some name)) (Function.update given name fun _ => none) left
  | other {fib given left} (h : Operated s fib given left) (nameTree : NameTree Entry π μ σ)
      (hfib : ∀ n, entryAt nameTree n = entryAt fib.nameTree n)
      (hempty : ∀ n, nameTree.EmptyAt n → fib.nameTree.EmptyAt n) :
      Operated s { fib with nameTree := nameTree } given left

/-- The count is right, the next hops of every entry are sorted by cost and have each face once with
the cost given last, and a node is empty only if `removeNextHop` removed its entry. -/
structure Bookkept (fib : Fib π μ σ) (given : Name → FaceId → Option ℕ) (left : List Name) :
    Prop where
  size : fib.nItems = UInt64.ofNat (entryCount fib.nameTree)
  sorted : ∀ n, ∀ entry ∈ entryAt fib.nameTree n,
    entry.nextHops.Pairwise (fun a b => a.cost ≤ b.cost) ∧
      (entry.nextHops.map NextHop.face).Nodup
  costs : ∀ n face, (entryAt fib.nameTree n).bind (·.costOf face) = given n face
  nodes : ∀ n, fib.nameTree.EmptyAt n → n ∈ left

variable {given : Name → FaceId → Option ℕ} {left : List Name}

theorem Bookkept.of (hsize : fib.nItems = UInt64.ofNat (entryCount fib.nameTree))
    (hcosts : ∀ n face, (entryAt fib.nameTree n).bind (·.costOf face) = given n face)
    (hnodes : ∀ n, fib.nameTree.EmptyAt n → n ∈ left) : fib.Bookkept given left :=
  ⟨hsize, fun _ entry _ => ⟨entry.sorted, entry.nodup⟩, hcosts, hnodes⟩

section

variable (h : fib.Bookkept given left)

include h

theorem Bookkept.given_eq {entry : Entry} (hentry : entryAt fib.nameTree name = some entry) :
    given name = entry.costOf := by
  funext face
  rw [← h.costs, hentry, bind_some]

theorem Bookkept.change {fib' : Fib π μ σ} {costs : FaceId → Option ℕ} {left' : List Name}
    (hentryAt : ∀ n, entryAt fib'.nameTree n = if n = name then entry else entryAt fib.nameTree n)
    (hitems : fib'.nItems + UInt64.ofNat (entryAt fib.nameTree name).toList.length = fib.nItems + UInt64.ofNat entry.toList.length)
    (hcosts : ∀ face, entry.bind (·.costOf face) = costs face)
    (hnodes : ∀ n, fib'.nameTree.EmptyAt n → n ∈ left') :
    fib'.Bookkept (Function.update given name costs) left' := by
  refine .of ?_ (fun n face => ?_) hnodes
  · have hcount := congrArg UInt64.ofNat (entryCount_change hentryAt)
    rw [UInt64.ofNat_add, UInt64.ofNat_add, ← h.size, ← hitems] at hcount
    exact ((UInt64.add_left_inj _).mp hcount).symm
  · rw [hentryAt, Function.update_apply]
    split
    next => exact hcosts face
    next => exact h.costs n face

variable {hdepth : name.length ≤ NameTree.maxDepth}

omit h in
theorem insert_of_none (hnone : entryAt fib.nameTree name = none) :
    fib.insert name hdepth =
      ⟨setFibEntry (fib.nameTree.lookup name name.length le_rfl hdepth) name (some (.create name)),
        fib.nItems + 1⟩ := by
  rw [insert]
  split
  next entry hentry =>
    rw [entryAt_lookup, hnone] at hentry
    cases hentry
  next => rfl

omit h in
theorem insert_of_some {entry : Entry} (hsome : entryAt fib.nameTree name = some entry) :
    fib.insert name hdepth =
      ⟨fib.nameTree.lookup name name.length le_rfl hdepth, fib.nItems⟩ := by
  rw [insert]
  split
  next => rfl
  next hnone =>
    rw [entryAt_lookup, hsome] at hnone
    cases hnone

theorem Bookkept.insert (name : Name) (hdepth : name.length ≤ NameTree.maxDepth) :
    (fib.insert name hdepth).Bookkept given left := by
  have hentryAt : ∀ n, entryAt (fib.insert name hdepth).nameTree n = _ :=
    entryAt_insert name hdepth
  have hcosts : ∀ face, (some ((entryAt fib.nameTree name).getD (.create name))).bind
      (·.costOf face) = given name face := by
    intro face
    rw [← h.costs name face]
    cases entryAt fib.nameTree name <;> rfl
  have hnodes : ∀ n, (fib.insert name hdepth).nameTree.EmptyAt n →
      (fib.nameTree.lookup name name.length le_rfl hdepth).EmptyAt n → n ∈ left := by
    intro n hempty hlookup
    refine h.nodes n (hlookup.of_lookup.resolve_left fun hn => ?_)
    have hnone := entryAt_of_emptyAt hempty
    rw [hentryAt, if_pos (hn.trans take_length)] at hnone
    cases hnone
  rw [← Function.update_eq_self name given]
  refine h.change hentryAt ?_ hcosts fun n hempty => hnodes n hempty ?_
  · cases hentry : entryAt fib.nameTree name with
    | none =>
      rw [insert_of_none hentry]
      exact UInt64.add_zero _
    | some entry => rw [insert_of_some hentry]; rfl
  · cases hentry : entryAt fib.nameTree name with
    | none =>
      rw [insert_of_none hentry] at hempty
      exact (EmptyAt.of_setFibEntry hempty).resolve_left fun hset => some_ne_none _ hset.2
    | some entry => rwa [insert_of_some hentry] at hempty

theorem Bookkept.eraseAt (hentry : (entryAt fib.nameTree name).isSome) :
    (fib.eraseAt name true).Bookkept (Function.update given name fun _ => none) left := by
  obtain ⟨entry, hsome⟩ := isSome_iff_exists.mp hentry
  refine h.change (entryAt_eraseAt name true) ?_ (fun _ => rfl) fun n hempty => ?_
  · rw [hsome]
    exact (UInt64.sub_add_cancel _ _).trans (UInt64.add_zero _).symm
  · obtain ⟨hne, hset⟩ := NameTree.EmptyAt.of_eraseIfEmpty hempty
    exact h.nodes n ((EmptyAt.of_setFibEntry hset).resolve_left fun hsame => hne hsame.1)

theorem Bookkept.addOrUpdateNextHop (s : NextHopSort) (hentry : (entryAt fib.nameTree name).isSome)
    (face : FaceId) (cost : ℕ) :
    (fib.addOrUpdateNextHop s name face cost).Bookkept
      (Function.update given name (Function.update (given name) face (some cost))) left := by
  obtain ⟨entry, hsome⟩ := isSome_iff_exists.mp hentry
  rw [Fib.addOrUpdateNextHop, hsome]
  refine h.change (entryAt_setFibEntry (.inr (isSome_find?_of_entryAt hsome))) (by rw [hsome]; rfl)
    (fun other => ?_) fun n hempty => h.nodes n ?_
  · rw [bind_some, Entry.costOf_addOrUpdateNextHop, h.given_eq hsome]
  · exact (EmptyAt.of_setFibEntry hempty).resolve_left fun hset => some_ne_none _ hset.2

omit h in
theorem removeNextHop_result {entry : Entry} (hentry : entryAt fib.nameTree name = some entry)
    (face : FaceId) :
    (fib.removeNextHop name face).2 = .fibEntryRemoved ↔ entry.without face = none := by
  rw [removeNextHop, hentry, Entry.without]
  cases hremoved : (entry.removeNextHop face).2 with
  | false => simp [hremoved]
  | true =>
    cases hhops : (entry.removeNextHop face).1.hasNextHops <;> simp [hremoved, hhops]

omit h in
theorem Entry.bind_costOf_without (entry : Entry) (face other : FaceId) :
    (entry.without face).bind (·.costOf other) = Function.update entry.costOf face none other := by
  rw [← costOf_removeNextHop, without]
  split
  next hgone =>
    -- no next hops are left, so no face has a cost
    obtain ⟨-, hnone⟩ := Bool.and_eq_true_iff.mp hgone
    rw [hasNextHops, Bool.not_not, List.isEmpty_iff] at hnone
    rw [costOf_eq, hnone]
    rfl
  next => rfl

theorem Bookkept.removeNextHop (hentry : (entryAt fib.nameTree name).isSome) (face : FaceId) :
    (fib.removeNextHop name face).1.Bookkept
      (Function.update given name (Function.update (given name) face none))
      (if (fib.removeNextHop name face).2 = .fibEntryRemoved then name :: left else left) := by
  obtain ⟨entry, hsome⟩ := isSome_iff_exists.mp hentry
  obtain ⟨htables, hfind, hitems⟩ := removeNextHop_spec fib name face
  have hentryAt : ∀ n, entryAt (fib.removeNextHop name face).1.nameTree n =
      if n = name then entry.without face else entryAt fib.nameTree n := by
    intro n
    rw [entryAt, htables]
    split
    next hn =>
      rw [entryAt] at hsome
      rw [hn, hsome, bind_some]
    next => rfl
  rw [hsome, any_some] at hitems
  refine h.change hentryAt ?_ (fun other => ?_) fun n hempty => ?_
  · rw [hitems, hsome]
    cases entry.without face with
    | none => exact (UInt64.sub_add_cancel _ _).trans (UInt64.add_zero _).symm
    | some entry' => exact congrArg (· + _) (UInt64.sub_zero _)
  · rw [Entry.bind_costOf_without, h.given_eq hsome]
  · by_cases hn : n = name
    · have hnone := entryAt_of_emptyAt hempty
      rw [hentryAt, if_pos hn] at hnone
      rw [if_pos ((removeNextHop_result hsome face).mpr hnone), hn]
      exact mem_cons_self
    · have hold : n ∈ left := by
        refine h.nodes n (NameTree.emptyAt_iff.mpr ?_)
        obtain ⟨hnode, hnone, hleaf⟩ := NameTree.emptyAt_iff.mp hempty
        rw [htables, if_neg hn] at hnone
        exact ⟨(hfind n).mp hnode, hnone, fun c hc => hleaf c ((hfind c).mpr hc)⟩
      split
      · exact mem_cons_of_mem _ hold
      · exact hold

end

/-- The books are right after every sequence of operations. -/
theorem Operated.bookkept {s : NextHopSort} (h : Operated s fib given left) :
    fib.Bookkept given left := by
  induction h with
  | init nameTree hfib hempty =>
    have hcount : entryCount nameTree = 0 := by
      rw [← length_prefixes, length_eq_zero_iff, eq_nil_iff_forall_not_mem]
      intro n hn
      rw [mem_prefixes_iff, hfib] at hn
      cases hn
    refine .of (by rw [hcount]; rfl) (fun n face => ?_) fun n h => absurd h (hempty n)
    rw [hfib, bind_none]
  | insert h name hdepth ih => exact ih.insert name hdepth
  | addOrUpdateNextHop h hentry face cost ih => exact ih.addOrUpdateNextHop s hentry face cost
  | removeNextHop h hentry face ih => exact ih.removeNextHop hentry face
  | @erase fib given left h name hentry ih =>
    rw [Fib.erase, NameTree.findExactMatch_length]
    cases hfind : fib.nameTree.find? name with
    | none =>
      -- nothing is erased, and no costs were given
      have hnone : given name = fun _ => none := by
        funext face
        rw [← ih.costs, entryAt, NameTree.tablesAt_of_find?_none hfind, bind_none]
      rwa [← hnone, Function.update_eq_self]
    | some nte =>
      obtain ⟨-, rfl⟩ := NameTree.find?_eq_some_iff.mp hfind
      exact ih.eraseAt (hentry (isSome_of_eq_some hfind))
  | eraseEntry h hentry ih => exact ih.eraseAt hentry
  | other h nameTree hfib hempty ih =>
    refine .of ?_ (fun n face => ?_) fun n h => ih.nodes n (hempty n h)
    · rw [ih.size, entryCount_congr fun n => congrArg isSome (hfib n)]
    · rw [hfib]
      exact ih.costs n face

def prefixA : Name := [.generic [65]]

def prefixB : Name := [.generic [66]]

def oneEntry : Fib Unit Unit Unit :=
  ((⟨.empty, 0⟩ : Fib Unit Unit Unit).insert prefixA (by decide)).addOrUpdateNextHop Tables.costSort
    prefixA 1 10

theorem bookkept_oneEntry :
    oneEntry.Bookkept (Function.update (fun _ _ => none) prefixA
      (Function.update (fun _ => none) 1 (some 10))) [] :=
  (Operated.addOrUpdateNextHop
    (.insert (.init .empty (fun _ => rfl) fun _ ⟨_, hfind, _⟩ => by cases hfind) prefixA (by decide))
    (by decide) 1 10 : Operated Tables.costSort oneEntry _ []).bookkept

/-- When the next hop of `/A` is removed and `/B` is inserted and erased, the node of `/A` stays. -/
theorem emptyAt_of_removeNextHop :
    (((oneEntry.removeNextHop prefixA 1).1.insert prefixB (by decide)).erase prefixB).nameTree.EmptyAt
      prefixA :=
  ⟨_, rfl, by decide⟩

end Fib

end NdnFc
