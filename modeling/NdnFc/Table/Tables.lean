import NdnFc.Table.Fib
import NdnFc.Table.Pit

/-!
# Tables of the forwarder

The FIB and the PIT share the nodes of one name tree with the measurements table and the strategy
choice table. This file puts the FIB and the PIT side by side and says what their operations leave
alone.
-/

namespace NdnFc

open Option KeyedList NameTree List

def TableEntries.isEmpty {φ π μ σ : Type*} (tables : TableEntries φ π μ σ) : Bool :=
  tables.fibEntry.isNone && tables.pitEntries.isEmpty && tables.measurementsEntry.isNone &&
    tables.strategyChoiceEntry.isNone

namespace NameTree

variable {φ π μ σ : Type*} {t : NameTree φ π μ σ} {name n : Name}

theorem Entry.hasTableEntries_eq (e : Entry φ π μ σ) : e.hasTableEntries = !e.tables.isEmpty := by
  simp [hasTableEntries, TableEntries.isEmpty, tables, not_isNone, Bool.not_and]

variable {f : TableEntries φ π μ σ → TableEntries φ π μ σ}

theorem isSome_find?_modifyTables :
    ((t.modifyTables name f).find? n).isSome ↔ (t.find? n).isSome := by
  rw [find?, find?, isSome_get?_iff, isSome_get?_iff, modifyTables,
    map_key_update (f := Entry.mapTables f) fun _ => rfl]

theorem tablesAt_modifyTables_eq :
    (t.modifyTables name f).tablesAt n =
      if n = name ∧ (t.find? name).isSome then f (t.tablesAt n) else t.tablesAt n := by
  by_cases hsome : (t.find? name).isSome
  · simp only [tablesAt_modifyTables (.inr hsome), hsome, and_true]
  · have hnone : ∀ f, (t.modifyTables name f).find? name = none := fun f =>
      not_isSome_iff_eq_none.mp fun h => hsome (isSome_find?_modifyTables.mp h)
    rw [if_neg fun h => hsome h.2]
    by_cases hn : n = name
    · rw [hn, tablesAt_of_find?_none (hnone f),
        tablesAt_of_find?_none (not_isSome_iff_eq_none.mp hsome)]
    · rw [tablesAt, tablesOf, modifyTables,
        get?_update (f := Entry.mapTables f) fun _ => rfl, if_neg hn, tablesAt, tablesOf]

/-- The name has a node without table entries and children. -/
def EmptyAt (t : NameTree φ π μ σ) (n : Name) : Prop :=
  ∃ nte, t.find? n = some nte ∧ nte.isEmpty

theorem emptyAt_iff :
    t.EmptyAt n ↔ (t.find? n).isSome ∧ (t.tablesAt n).isEmpty ∧
      ∀ c, (t.find? c).isSome → c ≠ [] → c.dropLast ≠ n := by
  rw [isSome_iff_exists, ← exists_and_right]
  refine exists_congr fun nte => and_congr_right fun hfind => ?_
  obtain ⟨hmem, rfl⟩ := find?_eq_some_iff.mp hfind
  rw [Entry.isEmpty, Entry.hasTableEntries_eq, tablesAt_of_find? hfind,
    Bool.not_not, Bool.and_eq_true, and_comm, List.isEmpty_iff, List.eq_nil_iff_forall_not_mem]
  refine and_congr_right fun _ => forall_congr' fun c => ?_
  rw [t.wellFormed.mem_children_iff nte hmem, find?, isSome_get?_iff]
  tauto

theorem EmptyAt.of_modifyTables (h : (t.modifyTables name f).EmptyAt n) (hn : n ≠ name) :
    t.EmptyAt n := by
  rw [emptyAt_iff, tablesAt_modifyTables_eq, if_neg fun h => hn h.1] at h
  simpa only [isSome_find?_modifyTables, ← emptyAt_iff] using h

end NameTree

namespace Pit.Entry

/-- The records of an entry are on distinct faces. -/
structure Distinct (e : Entry) : Prop where
  inRecords : (e.inRecords.map InRecord.face).Nodup
  outRecords : (e.outRecords.map OutRecord.face).Nodup

/-- What can be done to the records of an entry. The last case is a change of anything else. -/
inductive Updates (e : Entry) : Entry → Prop
  | insertOrUpdateInRecord (face : FaceId) (interest : Interest) (now : Time) :
      Updates e (e.insertOrUpdateInRecord face interest now)
  | deleteInRecord (face : FaceId) : Updates e (e.deleteInRecord face)
  | clearInRecords : Updates e e.clearInRecords
  | insertOrUpdateOutRecord (face : FaceId) (interest : Interest) (now : Time) :
      Updates e (e.insertOrUpdateOutRecord face interest now)
  | setIncomingNack (face : FaceId) (hasIncomingNack : Bool) :
      Updates e { e with outRecords := e.outRecords.map fun r =>
        if r.face = face then { r with hasIncomingNack := hasIncomingNack } else r }
  | deleteOutRecord (face : FaceId) : Updates e (e.deleteOutRecord face)
  | other (e' : Entry) (hin : e'.inRecords = e.inRecords) (hout : e'.outRecords = e.outRecords) :
      Updates e e'

variable {e e' : Entry}

theorem Distinct.updates (h : e.Distinct) (hupdates : e.Updates e') : e'.Distinct := by
  cases hupdates with
  | insertOrUpdateInRecord face interest now =>
    refine ⟨?_, ?_⟩
    · rw [insertOrUpdateInRecord]
      split
      next =>
        change ((update InRecord.face e.inRecords face _).map InRecord.face).Nodup
        exact nodup_map_key_update h.inRecords fun _ _ => rfl
      next hany =>
        refine nodup_map_key_cons h.inRecords (get?_eq_none_iff.mpr ?_)
        simpa using hany
    · rw [insertOrUpdateInRecord]
      split <;> exact h.outRecords
  | deleteInRecord face => exact ⟨h.inRecords.sublist (eraseP_sublist.map _), h.outRecords⟩
  | clearInRecords => exact ⟨nodup_nil, h.outRecords⟩
  | insertOrUpdateOutRecord face interest now =>
    refine ⟨?_, ?_⟩
    · rw [insertOrUpdateOutRecord]
      split <;> exact h.inRecords
    · rw [insertOrUpdateOutRecord]
      split
      next =>
        change ((update OutRecord.face e.outRecords face fun r =>
          ⟨face, interest.nonce, now, recordExpiry now interest, r.hasIncomingNack⟩).map
            OutRecord.face).Nodup
        exact nodup_map_key_update h.outRecords fun _ _ => rfl
      next hany =>
        refine nodup_map_key_cons h.outRecords (get?_eq_none_iff.mpr ?_)
        simpa using hany
  | setIncomingNack face hasIncomingNack =>
    refine ⟨h.inRecords, ?_⟩
    change ((update OutRecord.face e.outRecords face fun r =>
      { r with hasIncomingNack := hasIncomingNack }).map OutRecord.face).Nodup
    exact nodup_map_key_update h.outRecords fun _ hr => hr
  | deleteOutRecord face => exact ⟨h.inRecords, h.outRecords.sublist (eraseP_sublist.map _)⟩
  | other _ hin hout => exact ⟨hin ▸ h.inRecords, hout ▸ h.outRecords⟩

end Pit.Entry

/-! ### What the FIB does to the entries -/

namespace Fib

/-- What is left of an entry when the next hop on a face is removed. -/
def Entry.without (face : FaceId) (entry : Entry) : Option Entry :=
  if (entry.removeNextHop face).2 && !(entry.removeNextHop face).1.hasNextHops then none
  else some (entry.removeNextHop face).1

theorem Entry.without_eq_some_iff {face : FaceId} {entry entry' : Entry} :
    entry.without face = some entry' ↔
      entry'.name = entry.name ∧ entry'.nextHops = entry.nextHops.filter (·.face ≠ face) ∧
        (entry'.nextHops = [] → entry.nextHops = []) := by
  have hnextHops : (entry.removeNextHop face).1.nextHops =
      entry.nextHops.filter (·.face ≠ face) := eraseP_eq_erase entry.nodup
  have hremoved : (entry.removeNextHop face).2 = false ↔
      entry.nextHops.filter (·.face ≠ face) = entry.nextHops := by
    simp [removeNextHop, findNextHop, filter_eq_self]
  constructor
  · intro h
    rw [without] at h
    split_ifs at h with hkeep
    obtain rfl := Option.some.inj h
    refine ⟨rfl, hnextHops, fun hnil => ?_⟩
    rw [hasNextHops, hnil, isEmpty_nil, Bool.not_true, Bool.not_false, Bool.and_true,
      Bool.not_eq_true, hremoved, ← hnextHops, hnil] at hkeep
    exact hkeep.symm
  · rintro ⟨hname, hhops, hnil⟩
    have heq : (entry.removeNextHop face).1 = entry' :=
      Entry.ext hname.symm (hnextHops.trans hhops.symm)
    rw [without, if_neg, heq]
    intro hgone
    rw [heq, hasNextHops, Bool.not_not, Bool.and_eq_true, List.isEmpty_iff] at hgone
    have hall := hremoved.mpr (hhops ▸ (hgone.2.trans (hnil hgone.2).symm))
    rw [hall] at hgone
    exact absurd hgone.1 Bool.false_ne_true

variable {π μ σ : Type*} {t : NameTree Entry π μ σ} {fib : Fib π μ σ} {n : Name}
  {entry : Option Entry}

theorem tablesAt_setFibEntry {name : Name} (h : entry = none ∨ (t.find? name).isSome) :
    (setFibEntry t name entry).tablesAt n =
      if n = name then { t.tablesAt n with fibEntry := entry } else t.tablesAt n := by
  rw [setFibEntry, tablesAt_modifyTables (h.imp_left fun h => by rw [h])]

theorem isSome_find?_setFibEntry {name : Name} :
    ((setFibEntry t name entry).find? n).isSome ↔ (t.find? n).isSome :=
  isSome_find?_modifyTables

theorem isSome_find?_of_entryAt {entry : Entry} (h : entryAt t n = some entry) :
    (t.find? n).isSome := by
  by_contra hnone
  rw [entryAt, tablesAt_of_find?_none (not_isSome_iff_eq_none.mp hnone)] at h
  cases h

theorem removeNextHop_spec (fib : Fib π μ σ) (name : Name) (face : FaceId) :
    (∀ n, (fib.removeNextHop name face).1.nameTree.tablesAt n =
      if n = name then
        { fib.nameTree.tablesAt n with
          fibEntry := (fib.nameTree.tablesAt n).fibEntry.bind (Entry.without face) }
      else fib.nameTree.tablesAt n) ∧
    (∀ n, ((fib.removeNextHop name face).1.nameTree.find? n).isSome ↔
      (fib.nameTree.find? n).isSome) ∧
    (fib.removeNextHop name face).1.nItems =
      fib.nItems - if (entryAt fib.nameTree name).any fun e => (e.without face).isNone then 1
        else 0 := by
  rw [removeNextHop]
  split
  next hnone =>
    refine ⟨fun n => ?_, fun n => Iff.rfl, by simp [hnone]⟩
    split
    next hn =>
      rw [hn]
      rw [entryAt] at hnone
      rw [hnone, bind_none, ← hnone]
    next => rfl
  next entry hentry =>
    have hnode := isSome_find?_of_entryAt hentry
    have hset : ∀ entry' : Option Entry, entry.without face = entry' → ∀ n,
        (setFibEntry fib.nameTree name entry').tablesAt n =
          if n = name then
            { fib.nameTree.tablesAt n with
              fibEntry := (fib.nameTree.tablesAt n).fibEntry.bind (Entry.without face) }
          else fib.nameTree.tablesAt n := by
      intro entry' hwithout n
      rw [tablesAt_setFibEntry (.inr hnode)]
      split
      next hn =>
        rw [entryAt] at hentry
        rw [hn, hentry, bind_some, hwithout]
      next => rfl
    rcases hr : entry.removeNextHop face with ⟨entry', isRemoved⟩
    have hwithout : entry.without face =
        if isRemoved && !entry'.hasNextHops then none else some entry' := by
      rw [Entry.without, hr]
    simp only [hentry, any_some]
    by_cases hkeep : isRemoved && !entry'.hasNextHops
    · rw [if_pos hkeep] at hwithout
      obtain ⟨hremoved, hempty⟩ := Bool.and_eq_true_iff.mp hkeep
      simp only [hremoved, hempty, Bool.not_true, Bool.false_eq_true, if_false, if_true, hwithout,
        isNone_none]
      refine ⟨fun n => ?_, fun n => isSome_find?_setFibEntry.trans isSome_find?_setFibEntry, rfl⟩
      rw [← hset none hwithout n, tablesAt_setFibEntry (.inl rfl), eraseAt,
        if_neg Bool.false_ne_true, tablesAt_setFibEntry (.inl rfl),
        tablesAt_setFibEntry (.inr hnode)]
      split <;> rfl
    · rw [if_neg hkeep] at hwithout
      simp only [hwithout, isNone_some, Bool.false_eq_true, if_false, UInt64.sub_zero]
      rw [Bool.and_eq_true_iff, not_and_or, Bool.not_eq_true, Bool.not_eq_true] at hkeep
      rcases hkeep with hkeep | hkeep
      · simp only [hkeep, Bool.not_false, if_true]
        exact ⟨hset _ hwithout, fun n => isSome_find?_setFibEntry, trivial⟩
      · simp only [hkeep, Bool.false_eq_true, if_false]
        split_ifs
        all_goals exact ⟨hset _ hwithout, fun n => isSome_find?_setFibEntry, rfl⟩

variable (name : Name)

theorem pitEntriesAt_setFibEntry (entry : Option Entry) :
    (setFibEntry t name entry).pitEntriesAt n = t.pitEntriesAt n := by
  rw [pitEntriesAt_eq, setFibEntry, tablesAt_modifyTables_eq,
    pitEntriesAt_eq]
  split <;> rfl

theorem pitEntriesAt_insert (hdepth : name.length ≤ maxDepth) :
    (fib.insert name hdepth).nameTree.pitEntriesAt n = fib.nameTree.pitEntriesAt n := by
  rw [insert]
  split
  next => exact pitEntriesAt_lookup le_rfl hdepth
  next => rw [pitEntriesAt_setFibEntry, pitEntriesAt_lookup]

theorem pitEntriesAt_eraseAt (canDeleteNte : Bool) :
    (fib.eraseAt name canDeleteNte).nameTree.pitEntriesAt n = fib.nameTree.pitEntriesAt n := by
  rw [eraseAt]
  dsimp only
  split
  · rw [pitEntriesAt_eraseIfEmpty, pitEntriesAt_setFibEntry]
  · rw [pitEntriesAt_setFibEntry]

theorem pitEntriesAt_erase :
    (fib.erase name).nameTree.pitEntriesAt n = fib.nameTree.pitEntriesAt n := by
  rw [erase]
  split
  · rfl
  · exact pitEntriesAt_eraseAt _ _

theorem pitEntriesAt_addOrUpdateNextHop (s : NextHopSort) (name : Name) (face : FaceId) (cost : ℕ) :
    (fib.addOrUpdateNextHop s name face cost).nameTree.pitEntriesAt n =
      fib.nameTree.pitEntriesAt n := by
  rw [addOrUpdateNextHop]
  split
  · rfl
  · exact pitEntriesAt_setFibEntry _ _

theorem pitEntriesAt_removeNextHop (face : FaceId) :
    (fib.removeNextHop name face).1.nameTree.pitEntriesAt n = fib.nameTree.pitEntriesAt n := by
  rw [removeNextHop]
  split
  · rfl
  · dsimp only
    split_ifs
    · exact pitEntriesAt_setFibEntry _ _
    · rw [pitEntriesAt_eraseAt, pitEntriesAt_setFibEntry]
    · exact pitEntriesAt_setFibEntry _ _

end Fib

/-- The name tree with the counters of the FIB and of the PIT. `nextId` is an address for a PIT
entry that is not used so far. -/
structure Tables (μ σ : Type*) where
  nameTree : NameTree Fib.Entry Pit.Entry μ σ
  nFibItems : UInt64
  nPitItems : ℕ
  nextId : ℕ

namespace Tables

variable {μ σ : Type*} (t : Tables μ σ)

def fib : Fib Pit.Entry μ σ := ⟨t.nameTree, t.nFibItems⟩

def setFib (fib : Fib Pit.Entry μ σ) : Tables μ σ :=
  { t with nameTree := fib.nameTree, nFibItems := fib.nItems }

def pit : Pit Fib.Entry μ σ := ⟨t.nameTree, t.nPitItems, t.nextId⟩

def setPit (pit : Pit Fib.Entry μ σ) : Tables μ σ :=
  { t with nameTree := pit.nameTree, nPitItems := pit.nItems, nextId := pit.nextId }

/-- The tables after a change of one PIT entry. -/
def updatePitEntry (entry entry' : Pit.Entry) : Tables μ σ :=
  { t with
    nameTree := t.nameTree.modifyPitEntries entry.nameTreeEntry fun entries =>
      update Pit.Entry.id entries entry.id fun _ => entry' }

variable {t : Tables μ σ}

/-- The PIT entries have at most one in-record and one out-record for a face. -/
def Distinct (nameTree : NameTree Fib.Entry Pit.Entry μ σ) : Prop :=
  ∀ n, ∀ e ∈ nameTree.pitEntriesAt n, e.Distinct

theorem Distinct.congr {nameTree nameTree' : NameTree Fib.Entry Pit.Entry μ σ}
    (h : Distinct nameTree) (hpit : ∀ n, nameTree'.pitEntriesAt n = nameTree.pitEntriesAt n) :
    Distinct nameTree' := by
  intro n e he
  rw [hpit] at he
  exact h n e he

theorem Distinct.pitInsert (h : Distinct t.nameTree) (interest : Interest) :
    Distinct (t.pit.insert interest).1.nameTree := by
  intro n e he
  rcases Pit.Contains.of_insert ⟨n, he⟩ with ⟨m, hm⟩ | rfl
  · exact h m e hm
  · exact ⟨nodup_nil, nodup_nil⟩

theorem Distinct.pitErase (h : Distinct t.nameTree) (entry : Pit.Entry) (canDeleteNte : Bool) :
    Distinct (t.pit.erase entry canDeleteNte).nameTree := by
  intro n e he
  obtain ⟨m, hm⟩ := Pit.Contains.of_erase ⟨n, he⟩
  exact h m e hm

variable {entry entry' e : Pit.Entry}

theorem contains_updatePitEntry (h : (t.updatePitEntry entry entry').pit.Contains e) :
    e = entry' ∨ t.pit.Contains e := by
  obtain ⟨n, hn⟩ := h
  change e ∈ (t.nameTree.modifyPitEntries _ _).pitEntriesAt n at hn
  rw [pitEntriesAt_modifyPitEntries (.inl rfl)] at hn
  split at hn
  · obtain ⟨e₀, he₀, rfl⟩ := mem_map.mp hn
    split
    · exact .inl rfl
    · exact .inr ⟨n, he₀⟩
  · exact .inr ⟨n, hn⟩

theorem Distinct.updatePitEntry (h : Distinct t.nameTree) (hentry : t.pit.Contains entry)
    (hupdates : entry.Updates entry') : Distinct (t.updatePitEntry entry entry').nameTree := by
  obtain ⟨n₀, hn₀⟩ := hentry
  intro n e he
  rcases contains_updatePitEntry ⟨n, he⟩ with rfl | ⟨m, hm⟩
  · exact (h n₀ entry hn₀).updates hupdates
  · exact h m e hm

end Tables

end NdnFc
