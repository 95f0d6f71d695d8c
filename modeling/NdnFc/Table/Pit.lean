import NdnFc.Table.PitEntry

/-!
# Pending Interest Table

The PIT files an entry on the name tree node of its lookup name, which is the digest-stripped
Name of the representative Interest followed by its Function, cut at the depth of the tree
(`NFD-FC/daemon/table/pit.cpp`, lines 42 to 120).
-/

namespace NdnFc

open KeyedList List NameTree

/-- The table. `nextId` is an address not used so far. -/
structure Pit (φ μ σ : Type*) where
  nameTree : NameTree φ Pit.Entry μ σ
  nItems : ℕ
  nextId : ℕ

namespace Pit

variable {φ μ σ : Type*} (p : Pit φ μ σ)

/-- The entry is stored in the table. -/
def Contains (e : Entry) : Prop :=
  ∃ n, e ∈ p.nameTree.pitEntriesAt n

/-- `findOrInsert`: the table afterwards, the entry found or created, and whether it is new. -/
def findOrInsert (interest : Interest) (allowInsert : Bool) : Pit φ μ σ × Option Entry × Bool :=
  let name := interest.getNameFunction
  let nteDepth := min name.length maxDepth
  let nteName := name.take nteDepth
  let nameTree := if allowInsert then
      p.nameTree.lookup name nteDepth (Nat.min_le_left _ _) (Nat.min_le_right _ _)
    else p.nameTree
  let p := { p with nameTree := nameTree }
  if allowInsert = false ∧ p.nameTree.findExactMatch name nteDepth = none then (p, none, true)
  else
    match (p.nameTree.pitEntriesAt nteName).find? (·.canMatchWFunction interest nteDepth) with
    | some entry => (p, some entry, false)
    | none =>
      if allowInsert then
        let entry := Entry.create p.nextId interest nteName
        ({ nameTree := p.nameTree.modifyPitEntries nteName (· ++ [entry])
           nItems := p.nItems + 1
           nextId := p.nextId + 1 }, some entry, true)
      else (p, none, true)

def find (interest : Interest) : Option Entry :=
  (p.findOrInsert interest false).2.1

def insert (interest : Interest) : Pit φ μ σ × Option Entry × Bool :=
  p.findOrInsert interest true

/-- `findAllDataMatches`: the entries on the nodes above the lookup name of the Data that the Data
satisfies, Function aside. -/
def findAllDataMatches [Sha256] (p : Pit φ μ σ) (data : DataPacket) : List Entry :=
  (p.nameTree.findAllMatches data.getNameFunction fun nte => !nte.pitEntries.isEmpty).flatMap
    fun nte => nte.pitEntries.filter fun entry => entry.interest.matchesData data

/-- `erase`: take the entry off its node (`erasePitEntry`) and prune the tree. -/
def erase (entry : Entry) (canDeleteNte : Bool) : Pit φ μ σ where
  nameTree :=
    let t := p.nameTree.modifyPitEntries entry.nameTreeEntry
      (swapRemove Entry.id · entry.id)
    if canDeleteNte then t.eraseIfEmpty entry.nameTreeEntry true else t
  nItems := p.nItems - 1
  nextId := p.nextId

/-- The tables that insertions and erasures lead to. The tree may hold nodes of the other tables
to begin with. -/
inductive Reachable : Pit φ μ σ → Prop
  | init (t : NameTree φ Entry μ σ) (hempty : ∀ n, t.pitEntriesAt n = []) :
      Reachable ⟨t, 0, 0⟩
  | insert {p : Pit φ μ σ} (h : Reachable p) (interest : Interest) :
      Reachable (p.insert interest).1
  | erase {p : Pit φ μ σ} (h : Reachable p) {entry : Entry} (hentry : p.Contains entry)
      (canDeleteNte : Bool) : Reachable (p.erase entry canDeleteNte)

/-! ### Invariant -/

/-- Every entry hangs on the node of its key, and no two entries share an address or a key. -/
structure Inv : Prop where
  nodeName_eq : ∀ n, ∀ e ∈ p.nameTree.pitEntriesAt n,
    e.nameTreeEntry = n ∧ e.interest.nodeName = n
  id_lt : ∀ e, p.Contains e → e.id < p.nextId
  id_inj : ∀ e e', p.Contains e → p.Contains e' → e.id = e'.id → e = e'
  key_inj : ∀ e e', p.Contains e → p.Contains e' → e.interest.SameKey e'.interest → e = e'
  nodup : ∀ n, ((p.nameTree.pitEntriesAt n).map Entry.id).Nodup

variable {p : Pit φ μ σ} {e : Entry} {i : Interest}

theorem Inv.mem_nodeName (h : p.Inv) (he : p.Contains e) :
    e ∈ p.nameTree.pitEntriesAt e.interest.nodeName := by
  obtain ⟨n, hn⟩ := he
  rwa [(h.nodeName_eq n e hn).2]

theorem Inv.nameTreeEntry_eq (h : p.Inv) (he : p.Contains e) :
    e.nameTreeEntry = e.interest.nodeName :=
  (h.nodeName_eq _ e (h.mem_nodeName he)).1

theorem Inv.exists_node (h : p.Inv) (he : p.Contains e) :
    ∃ nte ∈ p.nameTree.nodes, nte.name = e.interest.nodeName ∧
      p.nameTree.find? e.nameTreeEntry = some nte := by
  obtain ⟨nte, hnte, hname, -⟩ := mem_pitEntriesAt_iff.mp (h.mem_nodeName he)
  exact ⟨nte, hnte, hname, find?_eq_some_iff.mpr
    ⟨hnte, hname.trans (h.nameTreeEntry_eq he).symm⟩⟩

/-- The entry `findOrInsert` looks for. -/
def matching? (p : Pit φ μ σ) (i : Interest) : Option Entry :=
  (p.nameTree.pitEntriesAt i.nodeName).find?
    (·.canMatchWFunction i (min i.getNameFunction.length maxDepth))

theorem Inv.matching?_eq_some_iff (h : p.Inv) :
    p.matching? i = some e ↔ p.Contains e ∧ e.interest.SameKey i := by
  have htest : ∀ e ∈ p.nameTree.pitEntriesAt i.nodeName,
      (e.canMatchWFunction i (min i.getNameFunction.length maxDepth) ↔
        e.interest.SameKey i) := fun e he =>
    Entry.canMatchWFunction_iff (h.nodeName_eq _ e he).2
  constructor
  · intro hfind
    have hmem := mem_of_find?_eq_some hfind
    have hpass := find?_some hfind
    exact ⟨⟨_, hmem⟩, (htest e hmem).mp hpass⟩
  · rintro ⟨he, hkey⟩
    have hmem : e ∈ p.nameTree.pitEntriesAt i.nodeName := hkey.nodeName_eq ▸ h.mem_nodeName he
    cases hfind : p.matching? i with
    | none => exact absurd ((htest e hmem).mpr hkey) (find?_eq_none.mp hfind e hmem)
    | some e' =>
      have hmem' := mem_of_find?_eq_some hfind
      have hpass := find?_some hfind
      have hkey' := (htest e' hmem').mp hpass
      rw [h.key_inj e e' he ⟨_, hmem'⟩ (hkey.trans hkey'.symm)]

/-- The tree in which the node of the Interest exists. -/
def lookupTree (p : Pit φ μ σ) (i : Interest) : NameTree φ Entry μ σ :=
  p.nameTree.lookup i.getNameFunction (min i.getNameFunction.length maxDepth)
    (Nat.min_le_left _ _) (Nat.min_le_right _ _)

theorem pitEntriesAt_lookupTree (n : Name) :
    (p.lookupTree i).pitEntriesAt n = p.nameTree.pitEntriesAt n :=
  pitEntriesAt_lookup _ _

theorem isSome_find?_lookupTree : ((p.lookupTree i).find? i.nodeName).isSome := by
  rw [Interest.nodeName, ← Entry.take_min_length]
  exact isSome_find?_lookup _ _

theorem insert_eq (p : Pit φ μ σ) (i : Interest) :
    p.insert i = match p.matching? i with
      | some e => ({ p with nameTree := p.lookupTree i }, some e, false)
      | none =>
        ({ nameTree := (p.lookupTree i).modifyPitEntries i.nodeName
              (· ++ [.create p.nextId i i.nodeName])
           nItems := p.nItems + 1
           nextId := p.nextId + 1 }, some (.create p.nextId i i.nodeName), true) := by
  simp only [insert, findOrInsert, if_true, Bool.true_eq_false, false_and, if_false,
    Entry.take_min_length, pitEntriesAt_lookup]
  rfl

theorem find_eq (p : Pit φ μ σ) (i : Interest) :
    p.findOrInsert i false = match p.matching? i with
      | some e => (p, some e, false)
      | none => (p, none, true) := by
  simp only [findOrInsert, Bool.false_eq_true, if_false, true_and, Entry.take_min_length]
  split
  next hexact =>
    -- without the node there is no entry on it
    have hnone : p.matching? i = none := by
      rw [matching?, find?_eq_none]
      intro e he
      obtain ⟨nte, hnte, hname, -⟩ := mem_pitEntriesAt_iff.mp he
      have hfind := find?_eq_some_iff.mpr ⟨hnte, hname⟩
      have hmin : min i.getNameFunction.length (min i.getNameFunction.length maxDepth) =
          min i.getNameFunction.length maxDepth := by omega
      rw [findExactMatch, hmin, if_neg (by omega), Entry.take_min_length] at hexact
      rw [Interest.nodeName, hexact] at hfind
      cases hfind
    rw [hnone]
  next => rfl

theorem Inv.matching?_eq_none_iff (h : p.Inv) :
    p.matching? i = none ↔ ∀ e, p.Contains e → ¬ e.interest.SameKey i := by
  rw [Option.eq_none_iff_forall_ne_some]
  exact forall_congr' fun e => by rw [Ne, h.matching?_eq_some_iff, not_and]

theorem pitEntriesAt_insert (h : p.matching? i = none) (n : Name) :
    (p.insert i).1.nameTree.pitEntriesAt n =
      if n = i.nodeName then p.nameTree.pitEntriesAt n ++ [.create p.nextId i i.nodeName]
      else p.nameTree.pitEntriesAt n := by
  simp only [insert_eq, h, pitEntriesAt_modifyPitEntries (.inr isSome_find?_lookupTree),
    pitEntriesAt_lookupTree]

theorem contains_insert_iff (h : p.matching? i = none) :
    (p.insert i).1.Contains e ↔ p.Contains e ∨ e = .create p.nextId i i.nodeName := by
  simp only [Contains, pitEntriesAt_insert h]
  constructor
  · rintro ⟨n, hn⟩
    split at hn
    · rcases mem_append.mp hn with hn | hn
      · exact .inl ⟨n, hn⟩
      · exact .inr (mem_singleton.mp hn)
    · exact .inl ⟨n, hn⟩
  · rintro (⟨n, hn⟩ | rfl)
    · refine ⟨n, ?_⟩
      split
      · exact mem_append_left _ hn
      · exact hn
    · exact ⟨i.nodeName, by simp⟩

theorem Contains.of_insert (h : (p.insert i).1.Contains e) :
    p.Contains e ∨ e = .create p.nextId i i.nodeName := by
  cases hmatch : p.matching? i with
  | some found =>
    obtain ⟨n, hn⟩ := h
    rw [insert_eq, hmatch] at hn
    exact .inl ⟨n, by rwa [pitEntriesAt_lookupTree] at hn⟩
  | none => exact (contains_insert_iff hmatch).mp h

theorem Inv.map {p' : Pit φ μ σ} (h : p.Inv) (hnext : p'.nextId = p.nextId) {f : Entry → Entry}
    (hpit : ∀ n, p'.nameTree.pitEntriesAt n = (p.nameTree.pitEntriesAt n).map f)
    (hf : ∀ e, p.Contains e → (f e).id = e.id ∧ (f e).nameTreeEntry = e.nameTreeEntry ∧
      (f e).interest = e.interest) : p'.Inv := by
  have hc : ∀ e', p'.Contains e' → ∃ e, p.Contains e ∧ f e = e' := by
    rintro e' ⟨n, hn⟩
    rw [hpit] at hn
    obtain ⟨e, he, rfl⟩ := mem_map.mp hn
    exact ⟨e, ⟨n, he⟩, rfl⟩
  constructor
  · intro n e' he'
    rw [hpit] at he'
    obtain ⟨e, he, rfl⟩ := mem_map.mp he'
    obtain ⟨-, hnode, hinterest⟩ := hf e ⟨n, he⟩
    rw [hnode, hinterest]
    exact h.nodeName_eq n e he
  · intro e' he'
    obtain ⟨e, he, rfl⟩ := hc e' he'
    rw [hnext, (hf e he).1]
    exact h.id_lt e he
  · intro a b ha hb hid
    obtain ⟨e, he, rfl⟩ := hc a ha
    obtain ⟨e', he', rfl⟩ := hc b hb
    rw [(hf e he).1, (hf e' he').1] at hid
    rw [h.id_inj e e' he he' hid]
  · intro a b ha hb hkey
    obtain ⟨e, he, rfl⟩ := hc a ha
    obtain ⟨e', he', rfl⟩ := hc b hb
    rw [(hf e he).2.2, (hf e' he').2.2] at hkey
    rw [h.key_inj e e' he he' hkey]
  · intro n
    have hids : ((p.nameTree.pitEntriesAt n).map f).map Entry.id =
        (p.nameTree.pitEntriesAt n).map Entry.id := by
      rw [map_map]
      exact map_congr_left fun e he => (hf e ⟨n, he⟩).1
    rw [hpit, hids]
    exact h.nodup n

theorem Inv.congr {p' : Pit φ μ σ} (h : p.Inv) (hnext : p'.nextId = p.nextId)
    (hpit : ∀ n, p'.nameTree.pitEntriesAt n = p.nameTree.pitEntriesAt n) : p'.Inv :=
  h.map hnext (f := id) (fun n => (hpit n).trans (map_id _).symm) fun _ _ => ⟨rfl, rfl, rfl⟩

theorem Inv.insert (h : p.Inv) (i : Interest) : (p.insert i).1.Inv := by
  cases hm : p.matching? i with
  | some e =>
    rw [insert_eq, hm]
    exact h.congr rfl pitEntriesAt_lookupTree
  | none =>
    have hfresh : ∀ e, p.Contains e → e.id ≠ p.nextId := fun e he => (h.id_lt e he).ne
    have hkey := h.matching?_eq_none_iff.mp hm
    have hnext : (p.insert i).1.nextId = p.nextId + 1 := by simp only [insert_eq, hm]
    constructor
    · intro n e he
      rw [pitEntriesAt_insert hm] at he
      split at he
      next hn =>
        rcases mem_append.mp he with he | he
        · exact h.nodeName_eq n e he
        · rw [mem_singleton.mp he, hn]
          exact ⟨rfl, rfl⟩
      next => exact h.nodeName_eq n e he
    · intro e he
      rw [hnext]
      rcases (contains_insert_iff hm).mp he with he | rfl
      · exact Nat.lt_succ_of_lt (h.id_lt e he)
      · exact Nat.lt_succ_self _
    · intro e e' he he' hid
      rcases (contains_insert_iff hm).mp he with he | rfl <;>
        rcases (contains_insert_iff hm).mp he' with he' | rfl
      · exact h.id_inj e e' he he' hid
      · exact absurd hid (hfresh e he)
      · exact absurd hid.symm (hfresh e' he')
      · rfl
    · intro e e' he he' hk
      rcases (contains_insert_iff hm).mp he with he | rfl <;>
        rcases (contains_insert_iff hm).mp he' with he' | rfl
      · exact h.key_inj e e' he he' hk
      · exact absurd hk (hkey e he)
      · exact absurd hk.symm (hkey e' he')
      · rfl
    · intro n
      rw [pitEntriesAt_insert hm]
      split
      · exact nodup_map_key_append_singleton (h.nodup n)
          (get?_eq_none_iff.mpr fun e he => hfresh e ⟨n, he⟩)
      · exact h.nodup n

theorem pitEntriesAt_erase (canDeleteNte : Bool) (n : Name) :
    (p.erase e canDeleteNte).nameTree.pitEntriesAt n =
      if n = e.nameTreeEntry then swapRemove Entry.id (p.nameTree.pitEntriesAt n) e.id
      else p.nameTree.pitEntriesAt n := by
  rw [← pitEntriesAt_modifyPitEntries (f := fun l => swapRemove Entry.id l e.id)
    (.inl rfl)]
  simp only [erase]
  split
  · exact pitEntriesAt_eraseIfEmpty true
  · rfl

theorem pitEntriesAt_erase_subset (e₀ : Entry) (canDeleteNte : Bool) (n : Name) :
    (p.erase e₀ canDeleteNte).nameTree.pitEntriesAt n ⊆ p.nameTree.pitEntriesAt n := by
  rw [pitEntriesAt_erase]
  split
  · exact fun e he => mem_of_mem_eraseP (swapRemove_perm.mem_iff.mp he)
  · exact Subset.refl _

theorem Contains.of_erase {e₀ : Entry} {canDeleteNte : Bool}
    (h : (p.erase e₀ canDeleteNte).Contains e) : p.Contains e :=
  h.imp fun n hn => pitEntriesAt_erase_subset e₀ canDeleteNte n hn

theorem Inv.erase (h : p.Inv) (e₀ : Entry) (canDeleteNte : Bool) :
    (p.erase e₀ canDeleteNte).Inv := by
  constructor
  · exact fun n e he => h.nodeName_eq n e (pitEntriesAt_erase_subset e₀ canDeleteNte n he)
  · exact fun e he => h.id_lt e he.of_erase
  · exact fun e e' he he' => h.id_inj e e' he.of_erase he'.of_erase
  · exact fun e e' he he' => h.key_inj e e' he.of_erase he'.of_erase
  · intro n
    rw [pitEntriesAt_erase]
    split
    · exact nodup_map_key_swapRemove (h.nodup n)
    · exact h.nodup n

theorem Reachable.inv (h : p.Reachable) : p.Inv := by
  induction h with
  | init t hempty => constructor <;> simp [Contains, hempty]
  | insert _ i ih => exact ih.insert i
  | erase _ _ canDeleteNte ih => exact ih.erase _ canDeleteNte

/-! ### Interests that share an entry -/

/-- A lookup for the Interest returns a stored entry exactly when the representative Interest of the
entry matches it, and an insertion creates an entry when there is none. -/
def SharesExactly (p : Pit φ μ σ) (i : Interest) : Prop :=
  (∀ allowInsert e, p.Contains e →
    ((p.findOrInsert i allowInsert).2 = (some e, false) ↔
      e.interest.matchesInterestWFunction i)) ∧
  ((∀ e, p.Contains e → ¬ e.interest.matchesInterestWFunction i) →
    ∃ e, (p.insert i).2 = (some e, true) ∧ e.interest = i ∧ ¬ p.Contains e)

theorem Inv.findOrInsert_eq_iff (h : p.Inv) (he : p.Contains e) (allowInsert : Bool) :
    (p.findOrInsert i allowInsert).2 = (some e, false) ↔ e.interest.SameKey i := by
  have hm := h.matching?_eq_some_iff (e := e) (i := i)
  cases allowInsert with
  | true =>
    change (p.insert i).2 = _ ↔ _
    rw [insert_eq]
    cases hcase : p.matching? i <;> simp_all
  | false =>
    rw [find_eq]
    cases hcase : p.matching? i <;> simp_all

theorem Inv.not_sharesExactly (h : p.Inv) (he : p.Contains e) (hkey : e.interest.SameKey i)
    (hne : ¬ (e.interest.name = i.name ∧ e.interest.function = i.function)) :
    ¬ p.SharesExactly i := by
  rintro ⟨hfind, -⟩
  have := (hfind true e he).mp ((h.findOrInsert_eq_iff he true).mpr hkey)
  obtain ⟨hn, hf, -⟩ := Interest.matchesInterestWFunction_iff.mp this
  exact hne ⟨hn, hf⟩

def empty : Pit φ μ σ := ⟨NameTree.empty, 0, 0⟩

theorem reachable_empty : (empty : Pit φ μ σ).Reachable :=
  .init NameTree.empty fun _ => rfl

theorem contains_empty_insert (i : Interest) :
    ((empty : Pit φ μ σ).insert i).1.Contains (.create 0 i i.nodeName) :=
  (contains_insert_iff rfl).mpr (.inr rfl)

section DataMatches

variable [Sha256] {d : DataPacket}

theorem Inv.mem_findAllDataMatches_iff (h : p.Inv) :
    e ∈ p.findAllDataMatches d ↔
      p.Contains e ∧ e.interest.nodeName <+: d.getNameFunction ∧ e.interest.matchesData d := by
  simp only [findAllDataMatches, mem_flatMap, mem_findAllMatches_iff,
    mem_filter]
  constructor
  · rintro ⟨nte, ⟨hnte, -, hpre⟩, hmem, hmatch⟩
    have hat := mem_pitEntriesAt_iff.mpr ⟨nte, hnte, rfl, hmem⟩
    exact ⟨⟨_, hat⟩, (h.nodeName_eq _ e hat).2.symm ▸ hpre, hmatch⟩
  · rintro ⟨he, hpre, hmatch⟩
    obtain ⟨nte, hnte, hname, hmem⟩ := mem_pitEntriesAt_iff.mp (h.mem_nodeName he)
    refine ⟨nte, ⟨hnte, ?_, hname.symm ▸ hpre⟩, hmem, hmatch⟩
    cases hentries : nte.pitEntries with
    | nil => simp [hentries] at hmem
    | cons _ _ => rfl

theorem Inv.nodup_findAllDataMatches (h : p.Inv) : (p.findAllDataMatches d).Nodup := by
  have hat : ∀ {nte : NameTree.Entry φ Entry μ σ}, nte ∈ p.nameTree.nodes → ∀ {e},
      e ∈ nte.pitEntries → e ∈ p.nameTree.pitEntriesAt nte.name := fun hnte _ he =>
    mem_pitEntriesAt_iff.mpr ⟨_, hnte, rfl, he⟩
  refine nodup_flatMap.mpr ⟨fun nte hnte => List.Nodup.filter _ ?_, ?_⟩
  · obtain ⟨hmem, -⟩ := mem_findAllMatches_iff.mp hnte
    have hpits : p.nameTree.pitEntriesAt nte.name = nte.pitEntries := by
      simp only [pitEntriesAt, pitEntriesOf,
        get?_of_mem p.nameTree.wellFormed.nodup hmem, Option.map_some, Option.getD_some]
    exact (hpits ▸ h.nodup nte.name).of_map
  · -- an entry hangs on one node only
    refine (nodup_findAllMatches).imp_of_mem fun ha hb hab e hea heb => hab ?_
    obtain ⟨hamem, -⟩ := mem_findAllMatches_iff.mp ha
    obtain ⟨hbmem, -⟩ := mem_findAllMatches_iff.mp hb
    have hna := (h.nodeName_eq _ e (hat hamem (mem_filter.mp hea).1)).2
    have hnb := (h.nodeName_eq _ e (hat hbmem (mem_filter.mp heb).1)).2
    exact Option.some.inj ((find?_eq_some_iff.mpr ⟨hamem, rfl⟩).symm.trans
      (find?_eq_some_iff.mpr ⟨hbmem, hnb.symm.trans hna⟩))

/-- `findAllDataMatches` returns the entries whose Interest the Data satisfies, each once. -/
def FindsExactly (p : Pit φ μ σ) (d : DataPacket) : Prop :=
  (∀ e, e ∈ p.findAllDataMatches d ↔ p.Contains e ∧ e.interest.matchesDataWFunction d) ∧
    (p.findAllDataMatches d).Nodup

theorem Inv.not_findsExactly (h : p.Inv) (he : p.Contains e) (hmatch : e.interest.matchesData d)
    (hne : ¬ (e.interest.nodeName <+: d.getNameFunction ↔ e.interest.function = d.function)) :
    ¬ p.FindsExactly d := by
  rintro ⟨hfind, -⟩
  have hiff := hfind e
  rw [h.mem_findAllDataMatches_iff, Interest.matchesDataWFunction_iff] at hiff
  tauto

end DataMatches

end Pit

end NdnFc
