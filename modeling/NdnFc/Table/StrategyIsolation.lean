import NdnFc.Table.StrategyChoice

/-!
# Isolation of strategies

`StrategyChoice::insert` and `erase` have to clear the StrategyInfo of exactly the entries whose
effective strategy they change to another type. The effective strategy of a PIT entry is looked up
by the name of its Interest, which can be longer than that of its node: an implicit digest at the
end of a Name without Function is not part of it. `changeStrategy` enumerates nodes, so that it can
err about such an entry.
-/

namespace NdnFc

namespace StrategyChoice

open List NameTree LongestPrefix

variable {φ μ ι : Type*}

/-! ### Isolation -/

section Isolation

variable {r : StrategyRegistry} {s s' : StrategyChoice φ μ ι} {name old new n : Name}

/-- The items on `hosts` are cleared if the effective strategy changes to one of another type, and
are untouched if it does not change. -/
def IsolatedAt (r : StrategyRegistry) (s s' : StrategyChoice φ μ ι) (before after : Option Name)
    (hosts : List Host) : Prop :=
  (∀ a b, before = some a → after = some b → ¬ r.areSameType a b →
    ∀ host ∈ hosts, s'.infos host = []) ∧
  (after = before → ∀ host ∈ hosts, s'.infos host = s.infos host)

/-- The StrategyInfo of every PIT entry, with its records, and of every measurements entry is
cleared or untouched as its effective strategy changes. -/
def Isolated (r : StrategyRegistry) (s s' : StrategyChoice φ μ ι) : Prop :=
  (∀ e, s.pit.Contains e → IsolatedAt r s s' (findEffectiveStrategyPit s.nameTree e)
    (findEffectiveStrategyPit s'.nameTree e) (pitHosts e)) ∧
  ∀ n, (s.nameTree.tablesAt n).measurementsEntry.isSome →
    IsolatedAt r s s' (findEffectiveStrategyMeasurements s.nameTree n)
      (findEffectiveStrategyMeasurements s'.nameTree n) [.measurementsEntry n]

/-- The call returns, and then everything is isolated. -/
def Isolates (r : StrategyRegistry) (s : StrategyChoice φ μ ι) (call : Call) : Prop :=
  ∃ s', call.run r s = .ok s' ∧ Isolated r s s'

/-- The PIT entry or one of its records has StrategyInfo. -/
def HasStrategyInfo (s : StrategyChoice φ μ ι) (e : Pit.Entry) : Prop :=
  ∃ host ∈ pitHosts e, s.infos host ≠ []

/-- The Name of the entry is longer than that of its node, and is the changed prefix or has a
strategy of its own while the node depends on the changed prefix. -/
def Detached (t : Tree φ μ) (name : Name) (e : Pit.Entry) : Prop :=
  e.nameTreeEntry.length < e.interest.name.length ∧
    (name = e.interest.name ∨ Covers (strategyAt t) name e.nameTreeEntry ∧
      (strategyAt t e.interest.name).isSome)

theorem isolatedAt_self (r : StrategyRegistry) (s : StrategyChoice φ μ ι) (strategy : Option Name)
    (hs : List Host) : IsolatedAt r s s strategy strategy hs := by
  refine ⟨fun a b ha hb htype => absurd ?_ htype, fun _ _ _ => rfl⟩
  obtain rfl := Option.some.inj (ha.symm.trans hb)
  exact areSameType_self r a

section

variable (h : Changed r s s' name old new)

include h

theorem Changed.strategyAt_of_ne (n : Name) (hn : n ≠ name) :
    strategyAt s.nameTree n = strategyAt s'.nameTree n := by
  rw [strategyAt, strategyAt, h.entryAt_of_ne n hn]

theorem Changed.find_of_covers (hcovers : Covers (strategyAt s.nameTree) name n) :
    find (strategyAt s.nameTree) n = some old ∧
      find (strategyAt s'.nameTree) n = some new := by
  have hcovers' := (covers_congr h.strategyAt_of_ne).mp hcovers
  exact ⟨(find_eq_of_covers hcovers).trans h.find_eq_old,
    (find_eq_of_covers hcovers').trans h.find_eq_new⟩

theorem Changed.find_of_not_covers (hcovers : ¬ Covers (strategyAt s.nameTree) name n) :
    find (strategyAt s'.nameTree) n = find (strategyAt s.nameTree) n :=
  (find_congr_of_not_covers h.strategyAt_of_ne hcovers).symm

theorem Changed.isolatedAt_iff {node : Name} {hs : List Host}
    (hmem : ∀ host ∈ hs, host ∈ hosts node (s.nameTree.tablesAt node))
    (honly : ∀ host ∈ hs, ∀ m, host ∈ hosts m (s.nameTree.tablesAt m) → m = node) :
    IsolatedAt r s s' (find (strategyAt s.nameTree) n)
        (find (strategyAt s'.nameTree) n) hs ↔
      r.areSameType old new ∨
        (Covers (strategyAt s.nameTree) name n ↔
          Covers (strategyAt s.nameTree) name node) ∨
        ∀ host ∈ hs, s.infos host = [] := by
  have hcleared : ¬ r.areSameType old new →
      Covers (strategyAt s.nameTree) name node → ∀ host ∈ hs, s'.infos host = [] :=
    fun htype hcovers host hhost => h.cleared htype node hcovers host (hmem host hhost)
  have hkept : (r.areSameType old new ∨
      ¬ Covers (strategyAt s.nameTree) name node) →
      ∀ host ∈ hs, s'.infos host = s.infos host := fun hor host hhost =>
    h.kept host (hor.imp_right fun hnot m hcovers hm => hnot (honly host hhost m hm ▸ hcovers))
  constructor
  · rintro ⟨hdiffers, hunchanged⟩
    refine or_iff_not_imp_left.mpr fun htype => or_iff_not_imp_left.mpr fun hiff host hhost => ?_
    by_cases hcovers : Covers (strategyAt s.nameTree) name n
    · obtain ⟨hold, hnew⟩ := h.find_of_covers hcovers
      rw [← hkept (.inr fun hnode => hiff (iff_of_true hcovers hnode)) host hhost,
        hdiffers old new hold hnew htype host hhost]
    · have hnode := by_contra fun hnode => hiff (iff_of_false hcovers hnode)
      rw [← hunchanged (h.find_of_not_covers hcovers) host hhost, hcleared htype hnode host hhost]
  · intro hor
    refine ⟨fun a b ha hb htype host hhost => ?_, fun heq host hhost => ?_⟩
    · by_cases hcovers : Covers (strategyAt s.nameTree) name n
      · obtain ⟨hold, hnew⟩ := h.find_of_covers hcovers
        obtain rfl := Option.some.inj (ha.symm.trans hold)
        obtain rfl := Option.some.inj (hb.symm.trans hnew)
        by_cases hnode : Covers (strategyAt s.nameTree) name node
        · exact hcleared htype hnode host hhost
        · rw [hkept (.inr hnode) host hhost]
          exact (hor.resolve_left htype).resolve_left (fun hiff => hnode (hiff.mp hcovers)) host hhost
      · rw [h.find_of_not_covers hcovers, ha] at hb
        obtain rfl := Option.some.inj hb
        exact absurd (areSameType_self r a) htype
    · by_cases hboth : r.areSameType old new ∨
          ¬ Covers (strategyAt s.nameTree) name node
      · exact hkept hboth host hhost
      · obtain ⟨htype, hnode⟩ := not_or.mp hboth
        rw [not_not] at hnode
        rcases hor.resolve_left htype with hiff | hempty
        · obtain ⟨hold, hnew⟩ := h.find_of_covers (hiff.mpr hnode)
          rw [hold, hnew] at heq
          obtain rfl := Option.some.inj heq
          exact absurd (areSameType_self r new) htype
        · rw [hempty host hhost, hcleared htype hnode host hhost]

end

variable {e : Pit.Entry}

theorem detached_iff {t : Tree φ μ} (hnode : e.nameTreeEntry = e.interest.nodeName)
    (hlen : name.length ≤ maxDepth) :
    Detached t name e ↔
      ¬ (Covers (strategyAt t) name (lookupName e) ↔
        Covers (strategyAt t) name e.nameTreeEntry) := by
  rw [Detached, lookupName]
  split
  swap
  next hnot => simp [hnot]
  next hlt =>
    have hpath : e.nameTreeEntry <+: e.interest.name := by
      rw [hnode] at hlt ⊢
      exact Interest.nodeName_isPrefix_of_lt hlt
    have hdepth : e.nameTreeEntry.length = maxDepth ∨
        e.nameTreeEntry.length + 1 = e.interest.name.length := by
      rw [hnode] at hlt ⊢
      exact Interest.length_nodeName_of_lt hlt
    by_cases hself : name = e.interest.name
    · have hcovers : Covers (strategyAt t) name e.interest.name := by
        rw [hself]
        exact ⟨prefix_rfl, fun q hq hq' hne => absurd
          (hq'.eq_of_length_le hq.length_le) hne⟩
      have hnot : ¬ Covers (strategyAt t) name e.nameTreeEntry := fun h => by
        have hle := h.1.length_le
        rw [hself] at hle
        omega
      exact iff_of_true ⟨hlt, .inl hself⟩ fun hiff => hnot (hiff.mp hcovers)
    · have hup : Covers (strategyAt t) name e.interest.name →
          Covers (strategyAt t) name e.nameTreeEntry := fun h => by
        refine h.of_isPrefix hpath ?_
        have hle := h.1.length_le
        have hne : name.length ≠ e.interest.name.length := fun heq => hself (h.1.eq_of_length heq)
        omega
      have hdown : Covers (strategyAt t) name e.nameTreeEntry →
          (Covers (strategyAt t) name e.interest.name ↔
            strategyAt t e.interest.name = none) := fun h => by
        refine ⟨fun h' => h'.2 _ h'.1 prefix_rfl (Ne.symm hself), fun hnone => ?_⟩
        refine h.extend hpath fun q hq hlong => ?_
        rcases hdepth with hdepth | hdepth
        · exact strategyAt_of_maxDepth_lt (hdepth ▸ hlong)
        · have hle := hq.length_le
          rw [hq.eq_of_length (by omega), hnone]
      rw [Option.isSome_iff_ne_none]
      tauto

/-- The PIT entry to which a host belongs. -/
def Host.pitEntryId : Host → Option ℕ
  | .pitEntry id | .inRecord id _ | .outRecord id _ => some id
  | .measurementsEntry _ => none

variable {host : Host}

theorem pitEntryId_of_mem_pitHosts (h : host ∈ pitHosts e) : host.pitEntryId = some e.id := by
  simp only [pitHosts, cons_append, mem_cons, mem_append, mem_map] at h
  rcases h with rfl | ⟨_, _, rfl⟩ | ⟨_, _, rfl⟩ <;> rfl

theorem Inv.eq_of_mem_hosts (h : s.Inv) (he : s.pit.Contains e) (hhost : host ∈ pitHosts e)
    {m : Name} (hm : host ∈ hosts m (s.nameTree.tablesAt m)) :
    m = e.nameTreeEntry := by
  have hid := pitEntryId_of_mem_pitHosts hhost
  rw [hosts, mem_append] at hm
  rcases hm with hm | hm
  · obtain ⟨e', he', hhost'⟩ := mem_flatMap.mp hm
    have hmem : e' ∈ s.pit.nameTree.pitEntriesAt m := by
      rw [pitEntriesAt_eq]
      exact he'
    obtain rfl := h.pit.id_inj e' e ⟨m, hmem⟩ he
      (Option.some.inj ((pitEntryId_of_mem_pitHosts hhost').symm.trans hid))
    exact (h.pit.nodeName_eq m e' hmem).1.symm
  · split at hm
    · rw [mem_singleton.mp hm] at hid
      cases hid
    · cases hm

theorem Inv.mem_hosts (h : s.Inv) (he : s.pit.Contains e) (hhost : host ∈ pitHosts e) :
    host ∈ hosts e.nameTreeEntry (s.nameTree.tablesAt e.nameTreeEntry) := by
  obtain ⟨n, hn⟩ := he
  rw [hosts, (h.pit.nodeName_eq n e hn).1, mem_append]
  rw [pitEntriesAt_eq] at hn
  exact .inl (mem_flatMap.mpr ⟨e, hn, hhost⟩)

theorem measurementsEntry_mem_hosts_iff {m : Name} {tables : TableEntries φ Pit.Entry μ Entry} :
    Host.measurementsEntry n ∈ hosts m tables ↔ m = n ∧ tables.measurementsEntry.isSome := by
  rw [hosts, mem_append, mem_flatMap]
  constructor
  · rintro (⟨e, -, he⟩ | hm)
    · cases pitEntryId_of_mem_pitHosts he
    · split at hm
      next hsome => exact ⟨(Host.measurementsEntry.inj (mem_singleton.mp hm)).symm, hsome⟩
      next => cases hm
  · rintro ⟨rfl, hsome⟩
    rw [if_pos hsome]
    exact .inr (mem_singleton_self _)

theorem Changed.isolated_iff (hchanged : Changed r s s' name old new) (h : s.Inv) :
    Isolated r s s' ↔ r.areSameType old new ∨
      ∀ e, s.pit.Contains e → s.HasStrategyInfo e → ¬ Detached s.nameTree name e := by
  have hhosts : ∀ n, hosts n (s'.nameTree.tablesAt n) = hosts n (s.nameTree.tablesAt n) :=
    fun n => by
      rw [hchanged.tablesAt_eq]
      rfl
  have hpit : ∀ e, s.pit.Contains e →
      (IsolatedAt r s s' (findEffectiveStrategyPit s.nameTree e)
        (findEffectiveStrategyPit s'.nameTree e) (pitHosts e) ↔
        r.areSameType old new ∨ (s.HasStrategyInfo e → ¬ Detached s.nameTree name e)) := by
    intro e he
    have hnode := h.pit.nameTreeEntry_eq he
    have hself : Host.pitEntry e.id ∈ pitHosts e := mem_cons_self
    have hmem := h.mem_hosts he hself
    have hmem' := hmem
    rw [← hhosts] at hmem'
    rw [findEffectiveStrategyPit_eq hnode (isSome_find?_of_mem_hosts hmem),
      findEffectiveStrategyPit_eq hnode (isSome_find?_of_mem_hosts hmem'),
      hchanged.isolatedAt_iff (fun host => h.mem_hosts he) fun host hhost m =>
        h.eq_of_mem_hosts he hhost,
      detached_iff hnode hchanged.length_le, not_not, HasStrategyInfo]
    refine or_congr_right ?_
    simp only [ne_eq, or_iff_not_imp_right, forall_exists_index, and_imp, not_forall]
  have hmeasurements : ∀ n, (s.nameTree.tablesAt n).measurementsEntry.isSome →
      IsolatedAt r s s' (findEffectiveStrategyMeasurements s.nameTree n)
        (findEffectiveStrategyMeasurements s'.nameTree n) [.measurementsEntry n] := by
    intro n hn
    have hmem : Host.measurementsEntry n ∈ hosts n (s.nameTree.tablesAt n) :=
      measurementsEntry_mem_hosts_iff.mpr ⟨rfl, hn⟩
    have hmem' := hmem
    rw [← hhosts] at hmem'
    rw [findEffectiveStrategyMeasurements_eq (isSome_find?_of_mem_hosts hmem),
      findEffectiveStrategyMeasurements_eq (isSome_find?_of_mem_hosts hmem')]
    refine (hchanged.isolatedAt_iff ?_ ?_).mpr (.inr (.inl Iff.rfl))
    · intro host hhost
      rwa [mem_singleton.mp hhost]
    · intro host hhost m hm
      rw [mem_singleton.mp hhost] at hm
      exact (measurementsEntry_mem_hosts_iff.mp hm).1
  rw [Isolated, and_iff_left hmeasurements, forall₂_congr hpit]
  by_cases htype : r.areSameType old new <;> simp [htype]

end Isolation

/-! ### Reachable states -/

section Reachable

variable {r : StrategyRegistry} {s : StrategyChoice φ μ ι}

/-- The states that calls, insertions into the PIT and erasures lead to from a default strategy. In
between, strategies place StrategyInfo, PIT entries change in all but their Interest, and the other
tables leave the entries on their nodes. -/
inductive Reachable (r : StrategyRegistry) : StrategyChoice φ μ ι → Prop
  | init (t : Tree φ μ) (hpit : ∀ n, t.pitEntriesAt n = []) (hentry : ∀ n, entryAt t n = none)
      (strategy : Name) : Reachable r (setDefaultStrategy ⟨⟨t, 0, 0⟩, 0, fun _ => []⟩ strategy)
  | call {s s' : StrategyChoice φ μ ι} (h : Reachable r s) (call : Call)
      (hrun : call.run r s = .ok s') : Reachable r s'
  | pitInsert {s : StrategyChoice φ μ ι} (h : Reachable r s) (interest : Interest) :
      Reachable r { s with pit := (s.pit.insert interest).1 }
  | pitErase {s : StrategyChoice φ μ ι} (h : Reachable r s) {entry : Pit.Entry}
      (hentry : s.pit.Contains entry) (canDeleteNte : Bool) :
      Reachable r { s with pit := s.pit.erase entry canDeleteNte }
  | setStrategyInfo {s : StrategyChoice φ μ ι} (h : Reachable r s) (host : Host) (items : List ι) :
      Reachable r { s with infos := Function.update s.infos host items }
  | other {s : StrategyChoice φ μ ι} (h : Reachable r s) (t : Tree φ μ) (f : Pit.Entry → Pit.Entry)
      (hf : ∀ e, s.pit.Contains e → (f e).id = e.id ∧ (f e).nameTreeEntry = e.nameTreeEntry ∧
        (f e).interest = e.interest)
      (hpit : ∀ n, t.pitEntriesAt n = (s.nameTree.pitEntriesAt n).map f)
      (hentry : ∀ n, entryAt t n = entryAt s.nameTree n) : Reachable r (s.setNameTree t)

variable {s' : StrategyChoice φ μ ι}

theorem Inv.congr (h : s.Inv) (hpit : s'.pit.Inv)
    (hentry : ∀ n, entryAt s'.nameTree n = entryAt s.nameTree n) : s'.Inv where
  pit := hpit
  entryPrefix_eq n entry he := h.entryPrefix_eq n entry (hentry n ▸ he)
  root := by
    rw [strategyAt, hentry]
    exact h.root

theorem entryAt_modifyPitEntries {t : Tree φ μ} (name n : Name)
    {f : List Pit.Entry → List Pit.Entry} (h : f [] = [] ∨ (t.find? name).isSome) :
    entryAt (t.modifyPitEntries name f) n = entryAt t n := by
  rw [entryAt, modifyPitEntries_eq,
    tablesAt_modifyTables (h.imp_left fun h => by rw [h]), entryAt]
  split <;> rfl

theorem entryAt_pitInsert (p : Pit φ μ Entry) (interest : Interest) (n : Name) :
    entryAt (p.insert interest).1.nameTree n = entryAt p.nameTree n := by
  have hlookup : entryAt (p.lookupTree interest) n = entryAt p.nameTree n := by
    rw [entryAt, Pit.lookupTree, tablesAt_lookup, entryAt]
  rw [Pit.insert_eq]
  split
  · exact hlookup
  · exact (entryAt_modifyPitEntries _ _ (.inr Pit.isSome_find?_lookupTree)).trans hlookup

theorem entryAt_pitErase (p : Pit φ μ Entry) (entry : Pit.Entry) (canDeleteNte : Bool) (n : Name) :
    entryAt (p.erase entry canDeleteNte).nameTree n = entryAt p.nameTree n := by
  rw [← entryAt_modifyPitEntries (t := p.nameTree) entry.nameTreeEntry n
    (f := fun l => KeyedList.swapRemove Pit.Entry.id l entry.id) (.inl rfl)]
  simp only [Pit.erase]
  split
  · rw [entryAt, tablesAt_eraseIfEmpty, entryAt]
  · rfl

theorem Changed.inv {name old new : Name} (hchanged : Changed r s s' name old new) (h : s.Inv) :
    s'.Inv where
  pit := h.pit.congr hchanged.nextId_eq fun n => by
    rw [pitEntriesAt_eq, pitEntriesAt_eq]
    exact (congrArg TableEntries.pitEntries (hchanged.tablesAt_eq n)).trans rfl
  entryPrefix_eq n entry he := by
    by_cases hn : n = name
    · rw [hn] at he ⊢
      exact hchanged.entryPrefix_eq entry he
    · exact h.entryPrefix_eq n entry (hchanged.entryAt_of_ne n hn ▸ he)
  root := by
    by_cases hname : name = []
    · obtain rfl := hname
      rw [Option.isSome_iff_exists]
      exact ⟨new, hchanged.find_eq_new⟩
    · rw [← hchanged.strategyAt_of_ne [] (Ne.symm hname)]
      exact h.root

theorem setsEntry_setDefaultStrategy (s : StrategyChoice φ μ ι) (strategy : Name) :
    SetsEntry s.nameTree (s.setDefaultStrategy strategy).nameTree [] (some ⟨[], strategy⟩) := by
  intro n
  have hnode : ((s.nameTree.lookup [] 0 le_rfl (Nat.zero_le _)).find? []).isSome :=
    isSome_find?_lookup le_rfl (Nat.zero_le _)
  refine (tablesAt_setStrategyChoiceEntry (.inr hnode)).trans ?_
  rw [tablesAt_lookup]

theorem inv_setDefaultStrategy (hpit : s.pit.Inv) (hentry : ∀ n, entryAt s.nameTree n = none)
    (strategy : Name) : (s.setDefaultStrategy strategy).Inv := by
  have hset := setsEntry_setDefaultStrategy s strategy
  refine ⟨hpit.congr rfl fun n => ?_, fun n entry he => ?_, ?_⟩
  · rw [pitEntriesAt_eq, pitEntriesAt_eq]
    refine (congrArg TableEntries.pitEntries (hset n)).trans ?_
    split <;> rfl
  · rw [hset.entryAt_eq, hentry] at he
    split at he
    next hn => rw [hn, ← Option.some.inj he]
    next => cases he
  · rw [strategyAt, hset.entryAt_eq]
    rfl

theorem Reachable.inv (h : Reachable r s) : s.Inv := by
  induction h with
  | init t hpit hentry strategy =>
    exact inv_setDefaultStrategy (s := ⟨⟨t, 0, 0⟩, 0, fun _ => []⟩)
      (Pit.Reachable.init t hpit).inv hentry strategy
  | call _ call hrun ih =>
    obtain ⟨s', hrun', hspec⟩ := ih.run_spec (r := r) call
    obtain rfl := Except.ok.inj (hrun.symm.trans hrun')
    split at hspec
    · exact hspec ▸ ih
    · exact hspec.inv ih
  | pitInsert _ interest ih =>
    exact ih.congr (ih.pit.insert interest) (entryAt_pitInsert _ interest)
  | pitErase _ _ canDeleteNte ih =>
    exact ih.congr (ih.pit.erase _ canDeleteNte) (entryAt_pitErase _ _ canDeleteNte)
  | setStrategyInfo _ host items ih => exact ih.congr ih.pit fun _ => rfl
  | other _ t f hf hpit hentry ih => exact ih.congr (ih.pit.map rfl hpit hf) hentry

end Reachable

/-! ### A PIT entry that is missed -/

/-- A registry in which every name is a type of its own. -/
def sampleRegistry : StrategyRegistry where
  find := some
  construct _ instanceName := pure instanceName

/-- A Name that ends with a digest. -/
def sampleName : Name := [.generic [97], Name.implicitDigest (List.replicate digestSize 0)]

/-- Tables with a default strategy. -/
def sampleDefault : StrategyChoice Unit Unit Unit :=
  setDefaultStrategy ⟨⟨empty, 0, 0⟩, 0, fun _ => []⟩ [.generic [65]]

/-- There is a PIT entry for the sample name, on which the strategy has placed an item. -/
def sampleState : StrategyChoice Unit Unit Unit where
  pit := (sampleDefault.pit.insert (.ofName sampleName [])).1
  nItems := sampleDefault.nItems
  infos := Function.update sampleDefault.infos (.pitEntry 0) [()]

theorem reachable_sampleState : Reachable sampleRegistry sampleState := by
  have hdefault : Reachable sampleRegistry sampleDefault :=
    .init empty (fun _ => rfl) (fun _ => rfl) _
  exact (hdefault.pitInsert (.ofName sampleName [])).setStrategyInfo (.pitEntry 0) [()]

end StrategyChoice

end NdnFc
