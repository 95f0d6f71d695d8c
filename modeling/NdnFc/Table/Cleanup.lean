import Mathlib.Data.List.Sort
import NdnFc.Table.Tables

/-!
# Cleaning up after a face

When a face is removed (`NFD-FC/daemon/table/cleanup.cpp`, lines 30 to 59), one pass over the nodes
of the name tree removes its next hops, the FIB entries that lose their last next hop, and its PIT
records. The nodes left without table entries are erased, longer names first, if they have no
children.
-/

namespace NdnFc

open KeyedList Option List NameTree

def Pit.Entry.deleteInOutRecords (face : FaceId) (e : Pit.Entry) : Pit.Entry :=
  (e.deleteInRecord face).deleteOutRecord face

namespace Tables

variable {μ σ : Type*}

/-- `emplace` in a multimap that has the lengths of names as its keys. -/
def emplace (name : Name) : List Name → List Name
  | [] => [name]
  | other :: names =>
    if other.length ≤ name.length then other :: emplace name names else name :: other :: names

/-- The next hop and the records on a node are removed. -/
def removeFaceAt (face : FaceId) (t : Tables μ σ) (name : Name) : Tables μ σ :=
  let t := t.setFib (t.fib.removeNextHop name face).1
  { t with
    nameTree := t.nameTree.modifyPitEntries name (·.map (Pit.Entry.deleteInOutRecords face)) }

/-- The pass visits a node. The second part of the state is `maybeEmptyNtes`. -/
def visit (face : FaceId) (state : Tables μ σ × List Name) (name : Name) : Tables μ σ × List Name :=
  let t := state.1.removeFaceAt face name
  match t.nameTree.find? name with
  | none => (t, state.2)
  | some nte => if nte.hasTableEntries then (t, state.2) else (t, emplace name state.2)

/-- The loop that erases nodes. -/
def eraseEmptyNodes (nameTree : NameTree Fib.Entry Pit.Entry μ σ) (names : List Name) :
    NameTree Fib.Entry Pit.Entry μ σ :=
  names.foldl (fun t name => t.eraseIfEmpty name false) nameTree

/-- `cleanupOnFaceRemoval`, where the nodes are enumerated in the given order. -/
def cleanupOnFaceRemoval (t : Tables μ σ) (order : List Name) (face : FaceId) :
    Except String (Tables μ σ) :=
  let (t, maybeEmptyNtes) := order.foldl (visit face) (t, [])
  let t := { t with nameTree := eraseEmptyNodes t.nameTree maybeEmptyNtes.reverse }
  if t.nameTree.nodes.any Entry.isEmpty then
    throw "assertion failed: nt.size() == 0 || std::none_of(nt.begin(), nt.end(), ..)"
  else pure t

/-! ### The pass over the nodes -/

section Pass

variable {t : Tables μ σ} {face : FaceId} {name n : Name}

/-- What is left on a node when the face is removed. -/
def withoutFace (face : FaceId) (tables : TableEntries Fib.Entry Pit.Entry μ σ) :
    TableEntries Fib.Entry Pit.Entry μ σ :=
  { tables with
    fibEntry := tables.fibEntry.bind (Fib.Entry.without face)
    pitEntries := tables.pitEntries.map (Pit.Entry.deleteInOutRecords face) }

/-- The FIB entry of a node goes with its last next hop. -/
def losesEntry (face : FaceId) (tables : TableEntries Fib.Entry Pit.Entry μ σ) : Bool :=
  tables.fibEntry.any fun entry => (entry.without face).isNone

theorem tablesAt_removeFaceAt :
    (t.removeFaceAt face name).nameTree.tablesAt n =
      if n = name then withoutFace face (t.nameTree.tablesAt n) else t.nameTree.tablesAt n := by
  have htables := (t.fib.removeNextHop_spec name face).1 n
  change ((t.fib.removeNextHop name face).1.nameTree.modifyPitEntries name _).tablesAt n = _
  rw [modifyPitEntries_eq, tablesAt_modifyTables (.inl rfl), htables]
  split <;> rfl

theorem isSome_find?_removeFaceAt :
    ((t.removeFaceAt face name).nameTree.find? n).isSome ↔ (t.nameTree.find? n).isSome := by
  change (((t.fib.removeNextHop name face).1.nameTree.modifyPitEntries name _).find? n).isSome ↔ _
  rw [modifyPitEntries_eq, isSome_find?_modifyTables]
  exact (t.fib.removeNextHop_spec name face).2.1 n

theorem nFibItems_removeFaceAt :
    (t.removeFaceAt face name).nFibItems =
      t.nFibItems - if losesEntry face (t.nameTree.tablesAt name) then 1 else 0 :=
  (t.fib.removeNextHop_spec name face).2.2

theorem visit_eq (h : (t.nameTree.find? name).isSome) (names : List Name) :
    visit face (t, names) name = (t.removeFaceAt face name,
      if (withoutFace face (t.nameTree.tablesAt name)).isEmpty then emplace name names
      else names) := by
  obtain ⟨nte, hfind⟩ := isSome_iff_exists.mp (isSome_find?_removeFaceAt.mpr h)
  have hnte : nte.hasTableEntries = !(withoutFace face (t.nameTree.tablesAt name)).isEmpty := by
    rw [Entry.hasTableEntries_eq, ← tablesAt_of_find? hfind,
      tablesAt_removeFaceAt, if_pos rfl]
  simp only [visit, hfind, hnte]
  cases (withoutFace face (t.nameTree.tablesAt name)).isEmpty <;> rfl

theorem emplace_eq_insert (name : Name) (names : List Name) :
    emplace name names = OrderedList.insert (compareOn List.length) name names := by
  induction names with
  | nil => rfl
  | cons other names ih =>
    rw [emplace, OrderedList.insert, ih]
    exact (ite_not ..).symm.trans (if_congr (not_le.trans compare_lt_iff_lt.symm) rfl rfl)

theorem mem_emplace_iff {names : List Name} : n ∈ emplace name names ↔ n = name ∨ n ∈ names := by
  rw [emplace_eq_insert, OrderedList.mem_insert]

theorem sorted_emplace {names : List Name} (h : names.Pairwise fun a b => a.length ≤ b.length) :
    (emplace name names).Pairwise fun a b => a.length ≤ b.length := by
  have hordered : OrderedList.Ordered (compareOn List.length) names :=
    h.imp fun hle hlt => (compare_lt_iff_lt.mp hlt).not_ge hle
  rw [emplace_eq_insert]
  exact (hordered.insert name).imp fun hle => not_lt.mp fun hlt => hle (compare_lt_iff_lt.mpr hlt)

/-- What the pass has done to the tables after the nodes of `order`, and which nodes it remembers.
-/
structure Passed (face : FaceId) (t : Tables μ σ) (names order : List Name)
    (state : Tables μ σ × List Name) : Prop where
  tablesAt : ∀ n, state.1.nameTree.tablesAt n =
    if n ∈ order then withoutFace face (t.nameTree.tablesAt n) else t.nameTree.tablesAt n
  find? : ∀ n, (state.1.nameTree.find? n).isSome ↔ (t.nameTree.find? n).isSome
  nFibItems : state.1.nFibItems = t.nFibItems -
    UInt64.ofNat (order.countP fun n => losesEntry face (t.nameTree.tablesAt n))
  nPitItems : state.1.nPitItems = t.nPitItems
  nextId : state.1.nextId = t.nextId
  mem_iff : ∀ n, n ∈ state.2 ↔
    n ∈ names ∨ n ∈ order ∧ (withoutFace face (t.nameTree.tablesAt n)).isEmpty
  sorted : names.Pairwise (fun a b => a.length ≤ b.length) →
    state.2.Pairwise fun a b => a.length ≤ b.length

theorem passed_foldl_visit (face : FaceId) {order : List Name} (hnodup : order.Nodup)
    (hnodes : ∀ n ∈ order, (t.nameTree.find? n).isSome) (names : List Name) :
    Passed face t names order (order.foldl (visit face) (t, names)) := by
  induction order generalizing t names with
  | nil =>
    constructor
    · intro n
      simp
    · exact fun n => Iff.rfl
    · exact (UInt64.sub_zero _).symm
    · rfl
    · rfl
    · intro n
      simp
    · exact id
  | cons a order ih =>
    obtain ⟨ha, hnodup⟩ := nodup_cons.mp hnodup
    rw [foldl_cons, visit_eq (hnodes a mem_cons_self)]
    have hrest := ih (t := t.removeFaceAt face a) hnodup
      (fun n hn => isSome_find?_removeFaceAt.mpr (hnodes n (mem_cons_of_mem a hn)))
      (if (withoutFace face (t.nameTree.tablesAt a)).isEmpty then emplace a names else names)
    have hsame : ∀ n ∈ order, (t.removeFaceAt face a).nameTree.tablesAt n =
        t.nameTree.tablesAt n := fun n hn => by
      rw [tablesAt_removeFaceAt, if_neg]
      rintro rfl
      exact ha hn
    constructor
    · intro n
      rw [hrest.tablesAt]
      by_cases hn : n = a
      · rw [hn, if_neg ha, if_pos mem_cons_self, tablesAt_removeFaceAt, if_pos rfl]
      · simp only [tablesAt_removeFaceAt, hn, if_false, mem_cons, false_or]
    · exact fun n => (hrest.find? n).trans isSome_find?_removeFaceAt
    · have hcount : order.countP (fun n =>
          losesEntry face ((t.removeFaceAt face a).nameTree.tablesAt n)) =
          order.countP fun n => losesEntry face (t.nameTree.tablesAt n) :=
        countP_congr fun n hn => by rw [hsame n hn]
      rw [hrest.nFibItems, nFibItems_removeFaceAt, hcount, countP_cons, UInt64.ofNat_add]
      split <;> grind
    · exact hrest.nPitItems
    · exact hrest.nextId
    · intro n
      rw [hrest.mem_iff]
      have hiff : n ∈ order ∧
          (withoutFace face ((t.removeFaceAt face a).nameTree.tablesAt n)).isEmpty ↔
          n ∈ order ∧ (withoutFace face (t.nameTree.tablesAt n)).isEmpty :=
        and_congr_right fun hn => by rw [hsame n hn]
      rw [hiff, mem_cons]
      split
      next hempty =>
        rw [mem_emplace_iff]
        by_cases hn : n = a
        · simp [hn, hempty]
        · simp [hn]
      next hfull =>
        by_cases hn : n = a
        · simp [hn, ha, hfull]
        · simp [hn]
    · intro hsorted
      refine hrest.sorted ?_
      split
      · exact sorted_emplace hsorted
      · exact hsorted

end Pass

/-! ### Erasing the empty nodes -/

section Erase

variable {φ π : Type*} {t : NameTree φ π μ σ} {name n : Name}

theorem isSome_find?_eraseIfEmpty :
    ((t.eraseIfEmpty name false).find? n).isSome ↔
      (t.find? n).isSome ∧ ¬ (n = name ∧ t.EmptyAt name) := by
  rw [EmptyAt]
  cases hfind : t.find? name with
  | none =>
    have hsame : (t.eraseIfEmpty name false).nodes = t.nodes := by
      rw [NameTree.find?] at hfind
      change eraseNodes false t.nodes.length t.nodes name = t.nodes
      cases t.nodes.length with
      | zero => rfl
      | succ k => rw [eraseNodes, hfind]
    simp [NameTree.find?, hsame]
  | some nte =>
    obtain ⟨hmem, hname⟩ := find?_eq_some_iff.mp hfind
    have hparent := t.wellFormed.parent_eq nte hmem
    obtain ⟨k, hk⟩ := Nat.exists_eq_succ_of_ne_zero (length_pos_of_mem hmem).ne'
    have hnodes : (t.eraseIfEmpty name false).nodes =
        if nte.isEmpty then removeNode t.nodes name (parentName name)
        else t.nodes := by
      rw [NameTree.find?] at hfind
      change eraseNodes false t.nodes.length t.nodes name = _
      rw [hk, eraseNodes, hfind, ← hname, ← hparent]
    rw [NameTree.find?, NameTree.find?, isSome_get?_iff, isSome_get?_iff,
      hnodes]
    by_cases hempty : nte.isEmpty
    · rw [if_pos hempty, mem_map_name_removeNode_iff]
      simp [hempty]
    · simp [hempty]

variable {t : NameTree Fib.Entry Pit.Entry μ σ}

theorem tablesAt_eraseEmptyNodes (names : List Name) :
    (eraseEmptyNodes t names).tablesAt n = t.tablesAt n := by
  induction names generalizing t with
  | nil => rfl
  | cons a names ih => exact ih.trans (tablesAt_eraseIfEmpty false)

theorem find?_eraseEmptyNodes (names : List Name) :
    (((eraseEmptyNodes t names).find? n).isSome → (t.find? n).isSome) ∧
      (n ∉ names → (t.find? n).isSome → ((eraseEmptyNodes t names).find? n).isSome) := by
  induction names generalizing t with
  | nil => exact ⟨id, fun _ => id⟩
  | cons a names ih =>
    refine ⟨fun h => (isSome_find?_eraseIfEmpty.mp (ih.1 h)).1, fun hn h => ?_⟩
    rw [mem_cons, not_or] at hn
    exact ih.2 hn.2 (isSome_find?_eraseIfEmpty.mpr ⟨h, fun heq => hn.1 heq.1⟩)

theorem not_emptyAt_eraseEmptyNodes {names : List Name}
    (hsorted : names.Pairwise fun a b => b.length ≤ a.length) (hn : n ∈ names) :
    ¬ (eraseEmptyNodes t names).EmptyAt n := by
  induction names generalizing t with
  | nil => cases hn
  | cons a names ih =>
    obtain ⟨ha, hnames⟩ := pairwise_cons.mp hsorted
    rcases mem_cons.mp hn with rfl | hn
    · intro hempty
      obtain ⟨hstay, htables, hleaf⟩ := emptyAt_iff.mp hempty
      obtain ⟨hsome, hnot⟩ := isSome_find?_eraseIfEmpty.mp ((find?_eraseEmptyNodes names).1 hstay)
      refine hnot ⟨rfl, emptyAt_iff.mpr ⟨hsome, ?_, fun c hc hne hparent => ?_⟩⟩
      · rwa [tablesAt_eraseEmptyNodes] at htables
      · -- a child of the node is longer than what is still to be looked at
        have hlong : n.length < c.length := by
          have := length_pos_iff.mpr hne
          rw [← hparent, length_dropLast]
          omega
        refine hleaf c ((find?_eraseEmptyNodes names).2 (fun hc' => ?_) ?_) hne hparent
        · have := ha c hc'
          omega
        · refine isSome_find?_eraseIfEmpty.mpr ⟨hc, fun h => ?_⟩
          rw [h.1] at hlong
          omega
    · exact ih hnames hn

end Erase

/-! ### The tables after the removal -/

section Cleaned

variable {t t' : Tables μ σ} {face : FaceId} {order : List Name}

theorem cleanupOnFaceRemoval_spec (t : Tables μ σ) (face : FaceId)
    (horder : order.Perm (t.nameTree.nodes.map Entry.name)) :
    ∃ t', t.cleanupOnFaceRemoval order face = .ok t' ∧
      (∀ n, t'.nameTree.tablesAt n = withoutFace face (t.nameTree.tablesAt n)) ∧
      (∀ n, (t'.nameTree.find? n).isSome → (t.nameTree.find? n).isSome) ∧
      (∀ nte ∈ t'.nameTree.nodes, ¬ nte.isEmpty) ∧
      t'.nFibItems = t.nFibItems - UInt64.ofNat ((t.nameTree.nodes.map Entry.name).countP
        fun n => losesEntry face (t.nameTree.tablesAt n)) ∧
      t'.nPitItems = t.nPitItems := by
  have hmem : ∀ n, n ∈ order ↔ (t.nameTree.find? n).isSome := fun n => by
    rw [horder.mem_iff, NameTree.find?, isSome_get?_iff]
  have hpassed := passed_foldl_visit face
    (horder.nodup_iff.mpr t.nameTree.wellFormed.nodup) (fun n => (hmem n).mp) []
  rcases hpass : order.foldl (visit face) (t, []) with ⟨passed, maybeEmptyNtes⟩
  rw [hpass] at hpassed
  have htables : ∀ n, (eraseEmptyNodes passed.nameTree maybeEmptyNtes.reverse).tablesAt n =
      withoutFace face (t.nameTree.tablesAt n) := fun n => by
    rw [tablesAt_eraseEmptyNodes, hpassed.tablesAt]
    split
    next => rfl
    next hn =>
      rw [hmem, not_isSome_iff_eq_none] at hn
      rw [tablesAt_of_find?_none hn]
      rfl
  have hnodes : ∀ n,
      ((eraseEmptyNodes passed.nameTree maybeEmptyNtes.reverse).find? n).isSome →
        (t.nameTree.find? n).isSome := fun n hn =>
    (hpassed.find? n).mp ((find?_eraseEmptyNodes _).1 hn)
  have hfull : ∀ nte ∈ (eraseEmptyNodes passed.nameTree maybeEmptyNtes.reverse).nodes,
      ¬ nte.isEmpty := by
    intro nte hnte hempty
    have hemptyAt : EmptyAt _ nte.name := ⟨nte, find?_eq_some_iff.mpr ⟨hnte, rfl⟩, hempty⟩
    obtain ⟨hsome, htable, -⟩ := emptyAt_iff.mp hemptyAt
    refine not_emptyAt_eraseEmptyNodes ?_ ?_ hemptyAt
    · exact pairwise_reverse.mpr (hpassed.sorted Pairwise.nil)
    · rw [mem_reverse, hpassed.mem_iff, ← htables, hmem]
      exact .inr ⟨hnodes _ hsome, htable⟩
  refine ⟨{ passed with nameTree := eraseEmptyNodes passed.nameTree maybeEmptyNtes.reverse },
    ?_, htables, hnodes, hfull, ?_, hpassed.nPitItems⟩
  · rw [cleanupOnFaceRemoval, hpass]
    exact if_neg fun hany => by
      obtain ⟨nte, hnte, hempty⟩ := any_eq_true.mp hany
      exact hfull nte hnte hempty
  · rw [← horder.countP_eq]
    exact hpassed.nFibItems

/-- The states that the operations of the FIB and the PIT and the removal of faces lead to, while
the other tables may do anything that leaves the FIB and PIT entries on their nodes. -/
inductive Reachable (s : Fib.NextHopSort) : Tables μ σ → Prop
  | init (nameTree : NameTree Fib.Entry Pit.Entry μ σ)
      (hfib : ∀ n, Fib.entryAt nameTree n = none) (hpit : ∀ n, nameTree.pitEntriesAt n = []) :
      Reachable s ⟨nameTree, 0, 0, 0⟩
  | fibInsert {t : Tables μ σ} (h : Reachable s t) (name : Name)
      (hdepth : name.length ≤ maxDepth) : Reachable s (t.setFib (t.fib.insert name hdepth))
  | fibErase {t : Tables μ σ} (h : Reachable s t) (name : Name) :
      Reachable s (t.setFib (t.fib.erase name))
  | addOrUpdateNextHop {t : Tables μ σ} (h : Reachable s t) (name : Name) (face : FaceId)
      (cost : ℕ) : Reachable s (t.setFib (t.fib.addOrUpdateNextHop s name face cost))
  | removeNextHop {t : Tables μ σ} (h : Reachable s t) (name : Name) (face : FaceId) :
      Reachable s (t.setFib (t.fib.removeNextHop name face).1)
  | pitInsert {t : Tables μ σ} (h : Reachable s t) (interest : Interest) :
      Reachable s (t.setPit (t.pit.insert interest).1)
  | pitErase {t : Tables μ σ} (h : Reachable s t) {entry : Pit.Entry}
      (hentry : t.pit.Contains entry) (canDeleteNte : Bool) :
      Reachable s (t.setPit (t.pit.erase entry canDeleteNte))
  | updatePitEntry {t : Tables μ σ} (h : Reachable s t) {entry entry' : Pit.Entry}
      (hentry : t.pit.Contains entry) (hupdates : entry.Updates entry') :
      Reachable s (t.updatePitEntry entry entry')
  | cleanupOnFaceRemoval {t t' : Tables μ σ} (h : Reachable s t) {order : List Name}
      (horder : order.Perm (t.nameTree.nodes.map Entry.name)) (face : FaceId)
      (hcleanup : t.cleanupOnFaceRemoval order face = .ok t') : Reachable s t'
  | other {t : Tables μ σ} (h : Reachable s t) (nameTree : NameTree Fib.Entry Pit.Entry μ σ)
      (hfib : ∀ n, Fib.entryAt nameTree n = Fib.entryAt t.nameTree n)
      (hpit : ∀ n, nameTree.pitEntriesAt n = t.nameTree.pitEntriesAt n) :
      Reachable s { t with nameTree := nameTree }

variable {s : Fib.NextHopSort}

theorem Reachable.distinct (h : Reachable s t) : Distinct t.nameTree := by
  induction h with
  | init nameTree _ hpit =>
    intro n e he
    rw [hpit] at he
    cases he
  | fibInsert _ name hdepth ih => exact ih.congr fun n => Fib.pitEntriesAt_insert name hdepth
  | fibErase _ name ih => exact ih.congr fun n => Fib.pitEntriesAt_erase name
  | addOrUpdateNextHop _ name face cost ih =>
    exact ih.congr fun n => Fib.pitEntriesAt_addOrUpdateNextHop s name face cost
  | removeNextHop _ name face ih =>
    exact ih.congr fun n => Fib.pitEntriesAt_removeNextHop name face
  | pitInsert _ interest ih => exact ih.pitInsert interest
  | pitErase _ _ canDeleteNte ih => exact ih.pitErase _ canDeleteNte
  | updatePitEntry _ hentry hupdates ih => exact ih.updatePitEntry hentry hupdates
  | @cleanupOnFaceRemoval t t' _ order horder face hcleanup ih =>
    obtain ⟨t'', heq, htables, -⟩ := cleanupOnFaceRemoval_spec t face horder
    obtain rfl : t' = t'' := Except.ok.inj (hcleanup.symm.trans heq)
    intro n e he
    rw [pitEntriesAt_eq, htables] at he
    obtain ⟨old, hold, rfl⟩ := mem_map.mp he
    rw [← pitEntriesAt_eq] at hold
    exact ((ih n old hold).updates (.deleteInRecord face)).updates (.deleteOutRecord face)
  | other _ nameTree _ hpit ih => exact ih.congr hpit

/-- The tables `t'` are `t` without the next hops and the records on a face. -/
structure Cleaned (face : FaceId) (t t' : Tables μ σ) : Prop where
  /-- No FIB entry has a next hop on the face. -/
  face_notMem_nextHops : ∀ n entry, Fib.entryAt t'.nameTree n = some entry →
    ∀ nextHop ∈ entry.nextHops, nextHop.face ≠ face
  /-- No PIT entry has a record on the face. -/
  face_notMem_records : ∀ n, ∀ e ∈ t'.nameTree.pitEntriesAt n,
    (∀ r ∈ e.inRecords, r.face ≠ face) ∧ ∀ r ∈ e.outRecords, r.face ≠ face
  /-- No FIB entry has lost all its next hops. -/
  hasNextHops_or_entryAt : ∀ n entry, Fib.entryAt t'.nameTree n = some entry →
    entry.hasNextHops ∨ Fib.entryAt t.nameTree n = some entry
  not_isEmpty : ∀ nte ∈ t'.nameTree.nodes, ¬ nte.isEmpty
  /-- The FIB entries are the earlier ones that have a next hop on another face, or had no next hops
  before. They keep the next hops on other faces. -/
  entryAt_iff : ∀ n entry', Fib.entryAt t'.nameTree n = some entry' ↔
    ∃ entry, Fib.entryAt t.nameTree n = some entry ∧ entry'.name = entry.name ∧
      entry'.nextHops = entry.nextHops.filter (·.face ≠ face) ∧
      (entry'.nextHops = [] → entry.nextHops = [])
  /-- The PIT entries are the earlier ones, with the records on other faces and all the rest. -/
  pitEntriesAt_eq : ∀ n, t'.nameTree.pitEntriesAt n = (t.nameTree.pitEntriesAt n).map fun e =>
    { e with
      inRecords := e.inRecords.filter (·.face ≠ face)
      outRecords := e.outRecords.filter (·.face ≠ face) }
  /-- The entries of the other tables are the earlier ones. -/
  measurementsEntry_eq : ∀ n, (t'.nameTree.tablesAt n).measurementsEntry =
    (t.nameTree.tablesAt n).measurementsEntry
  strategyChoiceEntry_eq : ∀ n, (t'.nameTree.tablesAt n).strategyChoiceEntry =
    (t.nameTree.tablesAt n).strategyChoiceEntry
  /-- There are no new nodes. -/
  isSome_find? : ∀ n, (t'.nameTree.find? n).isSome → (t.nameTree.find? n).isSome
  nPitItems_eq : t'.nPitItems = t.nPitItems
  /-- The FIB counts the entries that have gone. -/
  nFibItems_eq : t'.nFibItems = t.nFibItems -
    UInt64.ofNat ((t.nameTree.nodes.map Entry.name).countP fun n =>
      (Fib.entryAt t.nameTree n).isSome && (Fib.entryAt t'.nameTree n).isNone)

/-- From every reachable state and in every order of the nodes, the removal of a face takes its next
hops and records from the tables, with what is empty after that. -/
theorem Reachable.cleaned (h : Reachable s t)
    (horder : order.Perm (t.nameTree.nodes.map Entry.name)) (face : FaceId) :
    ∃ t', t.cleanupOnFaceRemoval order face = .ok t' ∧ Cleaned face t t' := by
  obtain ⟨t', hcleanup, htables, hnodes, hfull, hcount, hnPitItems⟩ :=
    cleanupOnFaceRemoval_spec t face horder
  have hentryAt : ∀ n, Fib.entryAt t'.nameTree n =
      (Fib.entryAt t.nameTree n).bind (Fib.Entry.without face) := fun n => by
    rw [Fib.entryAt, htables]
    rfl
  have hentryAt_iff : ∀ n entry', Fib.entryAt t'.nameTree n = some entry' ↔
      ∃ entry, Fib.entryAt t.nameTree n = some entry ∧ entry'.name = entry.name ∧
        entry'.nextHops = entry.nextHops.filter (·.face ≠ face) ∧
        (entry'.nextHops = [] → entry.nextHops = []) := fun n entry' => by
    rw [hentryAt, bind_eq_some_iff]
    exact exists_congr fun entry => and_congr_right fun _ => Fib.Entry.without_eq_some_iff
  have hpit : ∀ n, t'.nameTree.pitEntriesAt n = (t.nameTree.pitEntriesAt n).map fun e =>
      { e with
        inRecords := e.inRecords.filter (·.face ≠ face)
        outRecords := e.outRecords.filter (·.face ≠ face) } := fun n => by
    rw [pitEntriesAt_eq, htables, pitEntriesAt_eq]
    refine map_congr_left fun e he => ?_
    rw [← pitEntriesAt_eq] at he
    obtain ⟨hin, hout⟩ := h.distinct n e he
    rw [Pit.Entry.deleteInOutRecords, Pit.Entry.deleteInRecord, Pit.Entry.deleteOutRecord]
    congr 1
    · exact eraseP_eq_erase hin
    · exact eraseP_eq_erase hout
  refine ⟨t', hcleanup, ?_, ?_, ?_, hfull, hentryAt_iff, hpit, ?_, ?_, hnodes, hnPitItems, ?_⟩
  · intro n entry' hentry' nextHop hnextHop
    obtain ⟨entry, -, -, hhops, -⟩ := (hentryAt_iff n entry').mp hentry'
    rw [hhops] at hnextHop
    simpa using of_mem_filter hnextHop
  · intro n e he
    rw [hpit] at he
    obtain ⟨old, -, rfl⟩ := mem_map.mp he
    exact ⟨fun r hr => by simpa using of_mem_filter hr,
      fun r hr => by simpa using of_mem_filter hr⟩
  · intro n entry' hentry'
    obtain ⟨entry, hentry, hname, hhops, hnil⟩ := (hentryAt_iff n entry').mp hentry'
    by_cases hempty : entry'.nextHops = []
    · refine .inr (hentry.trans (congrArg some (Fib.Entry.ext hname.symm ?_)))
      rw [hempty, hnil hempty]
    · left
      simpa [Fib.Entry.hasNextHops] using hempty
  · intro n
    rw [htables]
    rfl
  · intro n
    rw [htables]
    rfl
  · rw [hcount]
    congr 3
    funext n
    rw [hentryAt, losesEntry, ← Fib.entryAt]
    cases Fib.entryAt t.nameTree n <;> rfl

end Cleaned

def costSort : Fib.NextHopSort where
  sort := insertionSort fun a b => a.cost ≤ b.cost
  perm l := perm_insertionSort _ l
  sorted l :=
    have : Std.Total fun a b : Fib.NextHop => a.cost ≤ b.cost := ⟨fun _ _ => Nat.le_total _ _⟩
    have : IsTrans Fib.NextHop fun a b => a.cost ≤ b.cost := ⟨fun _ _ _ => Nat.le_trans⟩
    pairwise_insertionSort _ l

def sampleTables : Tables Unit Unit :=
  let t : Tables Unit Unit := ⟨empty, 0, 0, 0⟩
  let t := t.setFib (t.fib.insert [.generic [97]] (by decide))
  t.setFib (t.fib.addOrUpdateNextHop costSort [.generic [97]] 1 0)

theorem reachable_sampleTables : Reachable costSort sampleTables :=
  .addOrUpdateNextHop (.fibInsert (.init empty (fun _ => rfl) fun _ => rfl) _ _) _ _ _

/-- With the face of its only next hop, the FIB entry is removed. -/
theorem cleaned_sampleTables :
    ∃ t', sampleTables.cleanupOnFaceRemoval [[.generic [97]], []] 1 = .ok t' ∧
      Cleaned 1 sampleTables t' :=
  reachable_sampleTables.cleaned (by decide) 1

/-- The count of the FIB does not stay as it is. -/
theorem not_nFibItems_unchanged :
    ¬ ∀ (t : Tables Unit Unit), Reachable costSort t → ∀ order : List Name,
      order.Perm (t.nameTree.nodes.map Entry.name) → ∀ face t',
      t.cleanupOnFaceRemoval order face = .ok t' → t'.nFibItems = t.nFibItems := by
  intro h
  have horder : [[.generic [97]], []].Perm
      (sampleTables.nameTree.nodes.map Entry.name) := by decide
  obtain ⟨t', hcleanup, -, -, -, hcount, -⟩ := cleanupOnFaceRemoval_spec sampleTables 1 horder
  have hsame := h _ reachable_sampleTables _ horder _ _ hcleanup
  have hgone : (sampleTables.nameTree.nodes.map Entry.name).countP
      (fun n => losesEntry 1 (sampleTables.nameTree.tablesAt n)) = 1 := by decide
  rw [hsame, hgone] at hcount
  exact absurd hcount (by decide)

end Tables

end NdnFc
