import NdnFc.Table.PitShortcut
import NdnFc.Table.StrategyChoice
import NdnFc.Table.Tables

/-!
# Announcing a new next hop to the strategies

When a FIB entry gets a next hop, `Forwarder::onNewNextHop` (`NFD-FC/daemon/fw/forwarder.cpp`, lines
533 to 555) calls the strategies of the PIT entries on the nodes under the prefix, down to longer
FIB prefixes. A PIT entry for a Name that ends with a digest hangs on the node above the Name, but
its FIB lookup starts at the node of the Name if there is one.
-/

namespace NdnFc

namespace Forwarder

open List NameTree LongestPrefix

variable {μ : Type*}

abbrev Tree (μ : Type*) := NameTree Fib.Entry Pit.Entry μ StrategyChoice.Entry

/-- A call of `afterNewNextHop` of a strategy. -/
structure NewNextHopCall where
  strategy : Option Name
  nextHop : Fib.NextHop
  pitEntry : Pit.Entry

/-- The selector in `onNewNextHop`. -/
def isAffected (name : Name) (nte : Entry Fib.Entry Pit.Entry μ StrategyChoice.Entry) :
    Bool × Bool :=
  if nte.fibEntry.isSome ∧ nte.name.length > name.length then (false, false)
  else (!nte.pitEntries.isEmpty, true)

def onNewNextHop (t : Tree μ) (name : Name) (nextHop : Fib.NextHop) : List NewNextHopCall :=
  (t.partialEnumerate name (isAffected name)).flatMap fun nte =>
    nte.pitEntries.map fun pitEntry =>
      ⟨StrategyChoice.findEffectiveStrategyPit t pitEntry, nextHop, pitEntry⟩

/-- The prefix of the FIB entry that `Fib::findLongestPrefixMatch` finds for a PIT entry. -/
def fibPrefix (t : Tree μ) (pitEntry : Pit.Entry) : Option Name :=
  (t.findLongestPrefixMatchPit pitEntry Fib.nteHasFibEntry).map Entry.name

/-- The states that operations of the PIT lead to. In between, the other tables may do anything that
leaves the PIT entries on their nodes, and a PIT entry may change in all but its address and its
Interest. -/
inductive Reachable : Pit Fib.Entry μ StrategyChoice.Entry → Prop
  | init (t : Tree μ) (hempty : ∀ n, t.pitEntriesAt n = []) : Reachable ⟨t, 0, 0⟩
  | insert {p : Pit Fib.Entry μ StrategyChoice.Entry} (h : Reachable p) (interest : Interest) :
      Reachable (p.insert interest).1
  | erase {p : Pit Fib.Entry μ StrategyChoice.Entry} (h : Reachable p) {entry : Pit.Entry}
      (hentry : p.Contains entry) (canDeleteNte : Bool) : Reachable (p.erase entry canDeleteNte)
  | update {p : Pit Fib.Entry μ StrategyChoice.Entry} (h : Reachable p) (t : Tree μ)
      (f : Pit.Entry → Pit.Entry)
      (hsame : ∀ n, t.pitEntriesAt n = (p.nameTree.pitEntriesAt n).map f)
      (hf : ∀ e, p.Contains e → (f e).id = e.id ∧ (f e).nameTreeEntry = e.nameTreeEntry ∧
        (f e).interest = e.interest) : Reachable { p with nameTree := t }

theorem Reachable.inv {p : Pit Fib.Entry μ StrategyChoice.Entry} (h : Reachable p) : p.Inv := by
  induction h with
  | init t hempty => constructor <;> simp [Pit.Contains, hempty]
  | insert _ interest ih => exact ih.insert interest
  | erase _ _ canDeleteNte ih => exact ih.erase _ canDeleteNte
  | update _ t f hsame hf ih => exact ih.map rfl hsame hf

/-! ### The calls -/

variable {t : Tree μ} {name : Name} {nextHop : Fib.NextHop}

variable {nte : Entry Fib.Entry Pit.Entry μ StrategyChoice.Entry}

theorem mem_partialEnumerate_isAffected_iff :
    nte ∈ t.partialEnumerate name (isAffected name) ↔
      nte ∈ t.nodes ∧ Covers (Fib.entryAt t) name nte.name ∧ nte.pitEntries ≠ [] := by
  refine mem_partialEnumerate_iff_covers (P := fun u => u.pitEntries ≠ []) (fun u => ?_)
    fun u hu hpre => ?_
  · rw [isAffected]
    split <;> simp
  have hlength : u.name.length > name.length ↔ u.name ≠ name := by
    refine ⟨fun hlt heq => by rw [heq] at hlt; omega, fun hne => ?_⟩
    exact lt_of_le_of_ne hpre.length_le fun heq => hne (hpre.eq_of_length heq).symm
  have hentry : Fib.entryAt t u.name = u.fibEntry := by
    rw [Fib.entryAt, tablesAt_of_find? (find?_eq_some_iff.mpr ⟨hu, rfl⟩)]
    rfl
  rw [hentry]
  cases hfib : u.fibEntry with
  | none => simp [isAffected, hfib]
  | some entry =>
    by_cases hne : u.name = name
    · simp [isAffected, hfib, hne]
    · simp [isAffected, hfib, hne, hlength.mpr hne]

theorem mem_onNewNextHop_iff {pitEntry : Pit.Entry} :
    pitEntry ∈ (onNewNextHop t name nextHop).map NewNextHopCall.pitEntry ↔
      ∃ n, pitEntry ∈ t.pitEntriesAt n ∧ Covers (Fib.entryAt t) name n := by
  rw [onNewNextHop, map_flatMap, mem_flatMap]
  simp only [map_map, Function.comp_def, map_id_fun', id_eq]
  constructor
  · rintro ⟨nte, hnte, hmem⟩
    obtain ⟨hin, hcovers, -⟩ := mem_partialEnumerate_isAffected_iff.mp hnte
    exact ⟨nte.name, mem_pitEntriesAt_iff.mpr ⟨nte, hin, rfl, hmem⟩, hcovers⟩
  · rintro ⟨n, hmem, hcovers⟩
    obtain ⟨nte, hin, rfl, hpit⟩ := mem_pitEntriesAt_iff.mp hmem
    refine ⟨nte, mem_partialEnumerate_isAffected_iff.mpr ⟨hin, hcovers, ?_⟩, hpit⟩
    exact ne_nil_of_mem hpit

variable {p : Pit Fib.Entry μ StrategyChoice.Entry} {e : Pit.Entry}

theorem nodup_onNewNextHop (h : p.Inv) :
    ((onNewNextHop p.nameTree name nextHop).map fun call => call.pitEntry.id).Nodup := by
  have hat : ∀ nte ∈ p.nameTree.nodes, p.nameTree.pitEntriesAt nte.name = nte.pitEntries := by
    intro nte hnte
    rw [pitEntriesAt_eq,
      tablesAt_of_find? (find?_eq_some_iff.mpr ⟨hnte, rfl⟩)]
    rfl
  rw [onNewNextHop, map_flatMap, nodup_flatMap]
  simp only [map_map, Function.comp_def]
  constructor
  · intro nte hnte
    have hin := (mem_partialEnumerate_isAffected_iff.mp hnte).1
    rw [← hat nte hin]
    exact h.nodup nte.name
  · refine (nodup_partialEnumerate p.nameTree name (isAffected name)).imp_of_mem ?_
    intro a b ha hb hne
    have hain := (mem_partialEnumerate_isAffected_iff.mp ha).1
    have hbin := (mem_partialEnumerate_isAffected_iff.mp hb).1
    -- an entry is on one node only
    refine disjoint_left.mpr fun id hid hid' => ?_
    obtain ⟨e, he, rfl⟩ := mem_map.mp hid
    obtain ⟨e', he', heq⟩ := mem_map.mp hid'
    rw [← hat a hain] at he
    rw [← hat b hbin] at he'
    obtain rfl := h.id_inj e' e ⟨_, he'⟩ ⟨_, he⟩ heq
    have hnames := (h.nodeName_eq _ _ he).1.symm.trans (h.nodeName_eq _ _ he').1
    exact hne (p.nameTree.named.name_inj a b hain hbin hnames)

/-! ### FIB lookups -/

theorem exists_node_of_entryAt (h : (Fib.entryAt t name).isSome) :
    ∃ nte ∈ t.nodes, nte.name = name ∧ Fib.nteHasFibEntry nte := by
  obtain ⟨entry, hentry⟩ := Option.isSome_iff_exists.mp h
  cases hfind : t.find? name with
  | none =>
    rw [Fib.entryAt, tablesAt_of_find?_none hfind] at hentry
    cases hentry
  | some nte =>
    obtain ⟨hmem, hname⟩ := find?_eq_some_iff.mp hfind
    rw [Fib.entryAt, tablesAt_of_find? hfind] at h
    exact ⟨nte, hmem, hname, h⟩

theorem isSome_entryAt_of_mem (hnte : nte ∈ t.nodes) (h : Fib.nteHasFibEntry nte) :
    (Fib.entryAt t nte.name).isSome := by
  rw [Fib.entryAt, tablesAt_of_find? (find?_eq_some_iff.mpr ⟨hnte, rfl⟩)]
  exact h

theorem covers_of_findLongestPrefixMatch {l : Name}
    (h : t.findLongestPrefixMatch l Fib.nteHasFibEntry = some nte) :
    (Fib.entryAt t nte.name).isSome ∧ Covers (Fib.entryAt t) nte.name l := by
  obtain ⟨hnte, hsel, j, hj, hname, hmax⟩ := longestMatchFrom_eq_some h
  refine ⟨isSome_entryAt_of_mem hnte hsel, hname ▸ List.take_prefix _ _, fun q hpq hq hne => ?_⟩
  -- an entry on the way would have been found first
  by_contra hentry
  obtain ⟨u, hu, rfl, hsel'⟩ := exists_node_of_entryAt (Option.isSome_iff_ne_none.mpr hentry)
  have hdepth := t.wellFormed.length_le u hu
  have hlen := hq.length_le
  have hlt : nte.name.length < u.name.length :=
    lt_of_le_of_ne hpq.length_le fun heq => hne (hpq.eq_of_length heq).symm
  rw [hname, length_take, Nat.min_eq_left (by omega)] at hlt
  exact hmax u.name.length hlt (by omega) u hu (prefix_iff_eq_take.mp hq) hsel'

theorem fibPrefix_eq_some_iff (h : p.Inv) (he : p.Contains e) :
    fibPrefix p.nameTree e = some name ↔
      (Fib.entryAt p.nameTree name).isSome ∧
        Covers (Fib.entryAt p.nameTree) name (lookupName e) := by
  rw [fibPrefix, h.findLongestPrefixMatchPit_eq he, Option.map_eq_some_iff]
  constructor
  · rintro ⟨nte, hfind, rfl⟩
    exact covers_of_findLongestPrefixMatch hfind
  · rintro ⟨hsome, hcovers⟩
    cases hfind : p.nameTree.findLongestPrefixMatch (lookupName e) Fib.nteHasFibEntry with
    | none =>
      obtain ⟨nte, hnte, rfl, hsel⟩ := exists_node_of_entryAt hsome
      have hdepth := p.nameTree.wellFormed.length_le nte hnte
      exact absurd hsel (longestMatchFrom_eq_none hfind
        (Nat.le_min.mpr ⟨hcovers.1.length_le, hdepth⟩) hnte
        (prefix_iff_eq_take.mp hcovers.1))
    | some nte =>
      obtain ⟨hsome', hcovers'⟩ := covers_of_findLongestPrefixMatch hfind
      exact ⟨nte, rfl, hcovers'.unique hcovers (Option.isSome_iff_ne_none.mp hsome')
        (Option.isSome_iff_ne_none.mp hsome)⟩

/-! ### Whom to call -/

/-- The calls are for the PIT entries whose FIB lookup yields the prefix, and not for entries with a
longer one, and for each once. -/
structure Notified (t : Tree μ) (stored : Pit.Entry → Prop) (name : Name)
    (calls : List NewNextHopCall) : Prop where
  called : ∀ e, stored e → fibPrefix t e = some name → e ∈ calls.map NewNextHopCall.pitEntry
  not_called : ∀ e, stored e → ∀ longer, fibPrefix t e = some longer →
    name.length < longer.length → e ∉ calls.map NewNextHopCall.pitEntry
  once : (calls.map fun call => call.pitEntry.id).Nodup

/-- The Interest has a FIB entry for its full Name, with the digest that its node is without. -/
def HasDigestPrefix (t : Tree μ) (e : Pit.Entry) : Prop :=
  e.nameTreeEntry.length < e.interest.name.length ∧ (Fib.entryAt t e.interest.name).isSome

theorem called_iff (h : p.Inv) (he : p.Contains e) :
    e ∈ (onNewNextHop p.nameTree name nextHop).map NewNextHopCall.pitEntry ↔
      Covers (Fib.entryAt p.nameTree) name e.nameTreeEntry := by
  rw [mem_onNewNextHop_iff]
  constructor
  · rintro ⟨n, hmem, hcovers⟩
    rwa [(h.nodeName_eq n e hmem).1]
  · intro hcovers
    obtain ⟨n, hn⟩ := he
    exact ⟨n, hn, (h.nodeName_eq n e hn).1 ▸ hcovers⟩

theorem covers_lookupName_iff (h : p.Inv) (he : p.Contains e)
    (hdigest : ¬ HasDigestPrefix p.nameTree e) (hname : (Fib.entryAt p.nameTree name).isSome) :
    Covers (Fib.entryAt p.nameTree) name (lookupName e) ↔
      Covers (Fib.entryAt p.nameTree) name e.nameTreeEntry := by
  rw [lookupName]
  split
  next hlt =>
    have hnone : Fib.entryAt p.nameTree e.interest.name = none :=
      Option.not_isSome_iff_eq_none.mp fun hsome => hdigest ⟨hlt, hsome⟩
    rw [h.nameTreeEntry_eq he] at hlt ⊢
    have hpath := Interest.nodeName_isPrefix_of_lt hlt
    have hdeeper : ∀ q, q <+: e.interest.name → e.interest.nodeName.length < q.length →
        Fib.entryAt p.nameTree q = none := by
      intro q hq hlonger
      rcases Interest.length_nodeName_of_lt hlt with hdepth | hone
      · rw [Fib.entryAt, tablesAt_of_maxDepth_lt (by omega)]
      · have hle := hq.length_le
        rw [hq.eq_of_length (by omega), hnone]
    constructor
    · intro hcovers
      refine hcovers.of_isPrefix hpath (not_lt.mp fun hlonger => ?_)
      rw [hdeeper name hcovers.1 hlonger] at hname
      cases hname
    · exact fun hcovers => hcovers.extend hpath hdeeper
  next => exact Iff.rfl

theorem HasDigestPrefix.fibPrefix_eq (h : p.Inv) (he : p.Contains e)
    (hdigest : HasDigestPrefix p.nameTree e) :
    fibPrefix p.nameTree e = some e.interest.name := by
  refine (fibPrefix_eq_some_iff h he).mpr ⟨hdigest.2, ?_⟩
  rw [lookupName, if_pos hdigest.1]
  refine ⟨prefix_rfl, fun q hpq hq hne => absurd ?_ hne⟩
  exact (hpq.eq_of_length_le hq.length_le).symm

def shortName : Name := [.generic [65]]

/-- A Name under `/A` that ends with a digest. -/
def digestName : Name := [.generic [65], Name.implicitDigest (List.replicate digestSize 0)]

def oneFibEntry (name : Name) (hdepth : name.length ≤ maxDepth) : Tree Unit :=
  ((⟨empty, 0⟩ : Fib Pit.Entry Unit StrategyChoice.Entry).insert name hdepth).nameTree

theorem pitEntriesAt_oneFibEntry (name : Name) (hdepth : name.length ≤ maxDepth)
    (n : Name) : (oneFibEntry name hdepth).pitEntriesAt n = [] := by
  rw [oneFibEntry, Fib.pitEntriesAt_insert]
  rfl

theorem reachable_oneFibEntry (name : Name) (hdepth : name.length ≤ maxDepth) :
    Reachable ⟨oneFibEntry name hdepth, 0, 0⟩ :=
  .init _ (pitEntriesAt_oneFibEntry name hdepth)

/-- A FIB entry for `/A` and a PIT entry for the Name with the digest. -/
def digestPit : Pit Fib.Entry Unit StrategyChoice.Entry :=
  ((⟨oneFibEntry shortName (by decide), 0, 0⟩ : Pit Fib.Entry Unit StrategyChoice.Entry).insert
    (.ofName digestName [])).1

/-- A FIB entry for the Name with the digest, and a PIT entry for the same Name. -/
def missedPit : Pit Fib.Entry Unit StrategyChoice.Entry :=
  ((⟨oneFibEntry digestName (by decide), 0, 0⟩ : Pit Fib.Entry Unit StrategyChoice.Entry).insert
    (.ofName digestName [])).1

end Forwarder

end NdnFc
