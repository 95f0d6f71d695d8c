import NdnFc.Fw.FunctionChainStrategy
import NdnFc.Table.StrategyIsolation

/-!
# Measurements of the ASF strategy

Where the strategy keeps its measurements for an Interest (`NFD-FC/daemon/fw/asf-measurements.cpp`,
`daemon/table/measurements-accessor.cpp`).
-/

namespace NdnFc.AsfMeasurements

open Option List NameTree StrategyChoice LongestPrefix

variable {μ ι : Type*} {t : Tree Fib.Entry μ} {owner name n : Name}

/-- `get` of the accessor, for a strategy that was chosen for the prefix `owner`: the name of the
entry, which is made if there is none, unless another strategy is effective for it. -/
def get (owner : Name) (t : Tree Fib.Entry μ) (name : Name) : Tree Fib.Entry μ × Option Name :=
  let depth := min name.length maxDepth
  let t := t.lookup name depth (min_le_left ..) (min_le_right ..)
  let effective := (t.find? (name.take depth)).bind fun nte =>
    (t.findLongestPrefixMatchFrom nte nteHasStrategyChoiceEntry).bind (·.strategyChoiceEntry)
  (t, if effective.map (·.entryPrefix) = some owner then some (name.take depth) else none)

/-- The loop of `getOrCreateNamespaceInfo`, for a number of rounds. -/
def search (owner name : Name) : ℕ → ℕ → Tree Fib.Entry μ → Option Name
  | 0, _, _ => none
  | rounds + 1, prefixLen, t =>
    match get owner t (name.take prefixLen) with
    | (_, some me) => some me
    | (t, none) => search owner name rounds (prefixLen + 1) t

/-- `getOrCreateNamespaceInfo`, or `none` where the assertion fails. -/
def getOrCreateNamespaceInfo (owner : Name) (t : Tree Fib.Entry μ) (fibEntry : Fib.Entry)
    (name : Name) : Option Name :=
  let prefixLen := fibEntry.name.length
  match get owner t fibEntry.name with
  | (_, some me) => some me
  | (t, none) => search owner name (name.length - prefixLen) (prefixLen + 1) t

/-- The lookups of `afterReceiveInterest`, by the effective strategy of the PIT entry. -/
def afterReceiveInterest (fw : Fw.Forwarder μ Entry) (interest : Interest)
    (e : Pit.Entry) : Except String Name := do
  let t := fw.fib.nameTree
  let entry ← ((t.findLongestPrefixMatchPit e nteHasStrategyChoiceEntry).bind
    (·.strategyChoiceEntry)).getDM (throw "assertion failed: nte != nullptr")
  let fibEntry ← fw.lookupFib e
  (getOrCreateNamespaceInfo entry.entryPrefix t fibEntry interest.name).getDM
    (throw "assertion failed: me != nullptr")

/-- The prefix whose strategy is effective for a name. -/
def effectivePrefix (t : Tree Fib.Entry μ) (name : Name) : Option Name :=
  (find (entryAt t) name).map (·.entryPrefix)

section

variable (owner : Name) (t : Tree Fib.Entry μ) (name : Name)

theorem entryAt_get : entryAt (get owner t name).1 = entryAt t :=
  funext fun _ => congrArg TableEntries.strategyChoiceEntry
    (tablesAt_lookup (min_le_left ..) (min_le_right ..))

theorem isSome_get_iff : (get owner t name).2.isSome ↔ effectivePrefix t name = some owner := by
  let t' := (get owner t name).1
  obtain ⟨nte, hnte⟩ : ∃ nte, t'.find? (name.take (min name.length maxDepth)) = some nte :=
    isSome_iff_exists.mp (isSome_find?_lookup (min_le_left ..) (min_le_right ..))
  obtain ⟨hmem, hname⟩ := find?_eq_some_iff.mp hnte
  have hfind : (t'.findLongestPrefixMatchFrom nte nteHasStrategyChoiceEntry).bind
      (·.strategyChoiceEntry) = find (entryAt t) name := by
    refine (bind_findLongestPrefixMatchFrom (·.strategyChoiceEntry) rfl hmem).trans ?_
    change find (entryAt t') nte.name = _
    rw [entryAt_get, hname, take_eq_take_iff.mpr (by omega : _ = min maxDepth name.length)]
    exact find_tablesAt_take (·.strategyChoiceEntry) rfl t name
  refine isSome_ite.trans ?_
  change ((t'.find? _).bind fun nte => (t'.findLongestPrefixMatchFrom nte _).bind _).map _ = _ ↔ _
  rw [hnte, bind_some, hfind]
  rfl

theorem effectivePrefix_get : effectivePrefix (get owner t name).1 = effectivePrefix t := by
  funext n
  rw [effectivePrefix, entryAt_get, effectivePrefix]

end

theorem isSome_search_iff (owner name : Name) (rounds prefixLen : ℕ) (t : Tree Fib.Entry μ) :
    (search owner name rounds prefixLen t).isSome ↔ ∃ k, prefixLen ≤ k ∧ k < prefixLen + rounds ∧
      effectivePrefix t (name.take k) = some owner := by
  induction rounds generalizing prefixLen t with
  | zero => simpa [search] using fun k hk hlt => absurd hlt hk.not_gt
  | succ rounds ih =>
    have hget := isSome_get_iff owner t (name.take prefixLen)
    have htree := effectivePrefix_get owner t (name.take prefixLen)
    rw [search]
    split
    next me heq =>
      rw [heq] at hget
      exact iff_of_true rfl ⟨prefixLen, le_rfl, by omega, hget.mp rfl⟩
    next t' heq =>
      rw [heq] at hget htree
      rw [ih, htree]
      constructor
      · rintro ⟨k, hk, hlt, hk'⟩
        exact ⟨k, by omega, by omega, hk'⟩
      · rintro ⟨k, hk, hlt, hk'⟩
        refine ⟨k, lt_of_le_of_ne hk ?_, by omega, hk'⟩
        rintro rfl
        cases hget.mpr hk'

theorem exists_getDM_iff {me : Option Name} {error : String} :
    (∃ n, (me.getDM (throw error) : Except String Name) = .ok n) ↔ me.isSome := by
  cases me with
  | none => exact iff_of_false (by rintro ⟨n, ⟨⟩⟩) (by simp)
  | some n => exact iff_of_true ⟨n, rfl⟩ rfl

/-- An entry lies at its prefix. -/
def Labelled (t : Tree Fib.Entry μ) : Prop :=
  ∀ n entry, entryAt t n = some entry → entry.entryPrefix = n

theorem effectivePrefix_eq_some_iff (ht : Labelled t) : effectivePrefix t name = some owner ↔
    Covers (entryAt t) owner name ∧ (entryAt t owner).isSome := by
  rw [effectivePrefix, map_eq_some_iff]
  simp only [find_eq_some_iff]
  constructor
  · rintro ⟨entry, ⟨p, hcovers, hp⟩, rfl⟩
    rw [ht p entry hp, hp]
    exact ⟨hcovers, rfl⟩
  · rintro ⟨hcovers, hsome⟩
    obtain ⟨entry, hentry⟩ := isSome_iff_exists.mp hsome
    exact ⟨entry, ⟨owner, hcovers, hentry⟩, ht owner entry hentry⟩

theorem isSome_getOrCreateNamespaceInfo_iff (ht : Labelled t) (fibEntry : Fib.Entry) :
    (getOrCreateNamespaceInfo owner t fibEntry name).isSome ↔
      effectivePrefix t fibEntry.name = some owner ∨
        max (fibEntry.name.length + 1) owner.length ≤ name.length ∧
          effectivePrefix t (name.take (max (fibEntry.name.length + 1) owner.length)) =
            some owner := by
  have hget := isSome_get_iff owner t fibEntry.name
  have htree := effectivePrefix_get owner t fibEntry.name
  rw [getOrCreateNamespaceInfo]
  split
  next me heq =>
    rw [heq] at hget
    exact iff_of_true rfl (.inl (hget.mp rfl))
  next t' heq =>
    rw [heq] at hget htree
    rw [isSome_search_iff, htree]
    constructor
    · rintro ⟨k, hk, hlt, heffective⟩
      obtain ⟨hcovers, hentry⟩ := (effectivePrefix_eq_some_iff ht).mp heffective
      have hlen := hcovers.1.length_le
      rw [length_take] at hlen
      -- A shorter prefix, but not above the prefix of the strategy, has the same strategy.
      have hcovers' := hcovers.of_isPrefix
        (take_prefix_take_left (by omega : max (fibEntry.name.length + 1) owner.length ≤ k))
        (by rw [length_take]; omega)
      exact .inr ⟨by omega, (effectivePrefix_eq_some_iff ht).mpr ⟨hcovers', hentry⟩⟩
    · rintro (hfib | ⟨hle, heffective⟩)
      · cases hget.mpr hfib
      · exact ⟨_, le_max_left .., by omega, heffective⟩

section

variable {r : StrategyRegistry} {s : StrategyChoice Fib.Entry μ ι} (h : Reachable r s)
  {e : Pit.Entry} (he : s.pit.Contains e)

include h he

theorem effectiveEntry_eq :
    (s.nameTree.findLongestPrefixMatchPit e nteHasStrategyChoiceEntry).bind
      (·.strategyChoiceEntry) = find (entryAt s.nameTree) (lookupName e) := by
  obtain ⟨nte, -, -, hfind⟩ := h.inv.pit.exists_node he
  exact bind_findLongestPrefixMatchPit (h.inv.pit.nameTreeEntry_eq he) (isSome_of_eq_some hfind)
    (·.strategyChoiceEntry) rfl

end

def sampleInterest : Interest := .ofName [.generic [97]] [.generic [102]]

def sampleEntry : Pit.Entry := .create 0 sampleInterest sampleInterest.nodeName

def sampleDefault : StrategyChoice Fib.Entry Unit Unit :=
  setDefaultStrategy ⟨⟨.empty, 0, 0⟩, 0, fun _ => []⟩ [.generic [65]]

/-- A strategy for a prefix, and a PIT entry for `/a` with Function `/f`. -/
def sampleTables (owner : Name) : StrategyChoice Fib.Entry Unit Unit :=
  let s := (Call.run sampleRegistry sampleDefault (.insert owner [.generic [66]])).toOption.getD
    sampleDefault
  { s with pit := (s.pit.insert sampleInterest).1 }

def sampleForwarder (owner : Name) : Fw.Forwarder Unit Entry where
  fib := ⟨(sampleTables owner).nameTree, 0⟩
  networkRegionTable := []
  faces _ := ⟨.nonLocal, .pointToPoint⟩

theorem reachable_sampleTables (owner : Name) : Reachable sampleRegistry (sampleTables owner) := by
  have hdefault : Reachable sampleRegistry sampleDefault :=
    .init .empty (fun _ => rfl) (fun _ => rfl) _
  obtain ⟨s', hrun, -⟩ := hdefault.inv.run_spec (.insert owner [.generic [66]])
  rw [sampleTables, hrun]
  exact (hdefault.call _ hrun).pitInsert sampleInterest

end NdnFc.AsfMeasurements
