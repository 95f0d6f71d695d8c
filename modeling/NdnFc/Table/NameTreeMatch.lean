import NdnFc.Lib.LongestPrefix
import NdnFc.Table.PitEntry

/-!
# Longest prefix match in the name tree

The entry that governs a name, a node or a PIT entry is looked up
(`NFD-FC/daemon/table/name-tree.cpp`, lines 161 to 210) by trying every prefix, by climbing the
parent pointers, or from the node of the PIT entry or a deeper node when the name of the entry is
longer.
-/

namespace NdnFc

namespace NameTree

open Option List LongestPrefix

variable {φ π μ σ β : Type*} {t : NameTree φ π μ σ} {e : Entry φ π μ σ} {name n : Name}

/-- `findLongestPrefixMatch(entry, ..)`: the first selected node on the way to the root. -/
def findLongestPrefixMatchFrom (t : NameTree φ π μ σ) (entry : Entry φ π μ σ)
    (entrySelector : Entry φ π μ σ → Bool) : Option (Entry φ π μ σ) :=
  (t.selfAndAncestors entry.name.length entry).find? entrySelector

/-- The loop in `findLongestPrefixMatch(pitEntry, ..)` that goes deeper, from prefix length `i` on and
for a number of rounds. -/
def goDeeper (t : NameTree φ π μ σ) (name : Name) : ℕ → ℕ → Entry φ π μ σ → Entry φ π μ σ
  | 0, _, nte => nte
  | rounds + 1, i, nte =>
    match t.findExactMatch name i with
    | none => nte
    | some exact => goDeeper t name rounds (i + 1) exact

/-- `findLongestPrefixMatch(pitEntry, ..)` -/
def findLongestPrefixMatchPit (t : NameTree φ Pit.Entry μ σ) (pitEntry : Pit.Entry)
    (entrySelector : Entry φ Pit.Entry μ σ → Bool) : Option (Entry φ Pit.Entry μ σ) := do
  let nte ← t.find? pitEntry.nameTreeEntry
  let name := pitEntry.interest.name
  let depth := min name.length maxDepth
  let nte := if nte.name.length < name.length then
      t.goDeeper name (depth - nte.name.length) (nte.name.length + 1) nte
    else nte
  t.findLongestPrefixMatchFrom nte entrySelector

/-! ### Paths in the tree -/

variable {t : NameTree φ π μ σ} {e : Entry φ π μ σ} {name n : Name}
  {entrySelector : Entry φ π μ σ → Bool}

theorem mem_names_of_isPrefix (he : e ∈ t.nodes) (h : n <+: e.name) :
    n ∈ t.nodes.map Entry.name := by
  induction hk : e.name.length generalizing e with
  | zero =>
    rw [length_eq_zero_iff.mp hk, prefix_nil] at h
    rw [h, ← length_eq_zero_iff.mp hk]
    exact mem_map_of_mem he
  | succ k ih =>
    have hne : e.name ≠ [] := ne_nil_of_length_eq_add_one hk
    rw [← dropLast_append_getLast hne, prefix_concat_iff,
      dropLast_append_getLast hne] at h
    rcases h with rfl | h
    · exact mem_map_of_mem he
    · obtain ⟨p, hp, hpname⟩ := mem_map.mp (t.wellFormed.dropLast_mem e he hne)
      exact ih hp (hpname ▸ h) (by rw [hpname, length_dropLast, hk, Nat.add_sub_cancel])

theorem isSome_find?_of_isPrefix (he : (t.find? name).isSome) (h : n <+: name) :
    (t.find? n).isSome := by
  obtain ⟨e, he⟩ := isSome_iff_exists.mp he
  obtain ⟨hmem, rfl⟩ := find?_eq_some_iff.mp he
  exact KeyedList.isSome_get?_iff.mpr (mem_names_of_isPrefix hmem h)

theorem longestMatchFrom_eq (he : e ∈ t.nodes) {i : ℕ} (hi : i ≤ name.length)
    (hname : e.name = name.take i) :
    t.longestMatchFrom name entrySelector i = t.findLongestPrefixMatchFrom e entrySelector := by
  have hfind : t.find? (name.take i) = some e := find?_eq_some_iff.mpr ⟨he, hname⟩
  have hlen : e.name.length = i := by rw [hname, length_take, Nat.min_eq_left hi]
  rw [findLongestPrefixMatchFrom, hlen]
  induction i generalizing e with
  | zero =>
    rw [longestMatchFrom, hfind, selfAndAncestors]
    cases hsel : entrySelector e <;> simp [hsel]
  | succ i ih =>
    have hne : e.name ≠ [] := ne_nil_of_length_eq_add_one hlen
    obtain ⟨p, hp, hpname⟩ := mem_map.mp (t.wellFormed.dropLast_mem e he hne)
    have hparent : e.name.dropLast = name.take i := by rw [hname, dropLast_take hi]; rfl
    have hpfind : t.find? (name.take i) = some p := find?_eq_some_iff.mpr ⟨hp, hpname.trans hparent⟩
    rw [longestMatchFrom, hfind, selfAndAncestors, t.wellFormed.parent_eq e he, parentName,
      if_neg hne, hparent, bind_some, hpfind,
      ih hp (by omega) (hpname.trans hparent) hpfind
        (by rw [hpname, length_dropLast, hlen, Nat.add_sub_cancel])]
    cases hsel : entrySelector e <;> simp [hsel, Option.filter]

theorem longestMatchFrom_of_none {i j : ℕ} (hij : i ≤ j)
    (h : ∀ k, i < k → k ≤ j → t.find? (name.take k) = none) :
    t.longestMatchFrom name entrySelector j = t.longestMatchFrom name entrySelector i := by
  induction j with
  | zero => rw [Nat.le_zero.mp hij]
  | succ j ih =>
    rcases Nat.lt_or_ge j i with hlt | hge
    · rw [show i = j + 1 by omega]
    · rw [longestMatchFrom, h (j + 1) (by omega) le_rfl, filter_none, none_or]
      exact ih hge fun k hik hkj => h k hik (by omega)

theorem goDeeper_spec {rounds j depth : ℕ} (he : e ∈ t.nodes) (hname : e.name = name.take j)
    (hrounds : j + rounds = depth) (hlen : depth ≤ name.length) (hdepth : depth ≤ maxDepth) :
    ∃ j', j' ≤ depth ∧ t.goDeeper name rounds (j + 1) e ∈ t.nodes ∧
      (t.goDeeper name rounds (j + 1) e).name = name.take j' ∧
      ∀ k, j' < k → k ≤ depth → t.find? (name.take k) = none := by
  induction rounds generalizing j e with
  | zero => exact ⟨j, by omega, he, hname, fun k _ _ => by omega⟩
  | succ rounds ih =>
    have hexact : t.findExactMatch name (j + 1) = t.find? (name.take (j + 1)) := by
      have hmin : min name.length (j + 1) = j + 1 := by omega
      rw [findExactMatch, hmin, if_neg (by omega)]
    rw [goDeeper, hexact]
    cases hfind : t.find? (name.take (j + 1)) with
    | none =>
      refine ⟨j, by omega, he, hname, fun k hjk hk => ?_⟩
      -- a node further down would have a node here above it
      by_contra hne
      have hsome := isSome_find?_of_isPrefix (isSome_iff_ne_none.mpr hne)
        (take_prefix_take_left (by omega : j + 1 ≤ k))
      rw [hfind] at hsome
      cases hsome
    | some e' =>
      obtain ⟨he', hname'⟩ := find?_eq_some_iff.mp hfind
      exact ih he' hname' (by omega)

/-! ### Entries by name -/

theorem tablesAt_of_find? (h : t.find? n = some e) : t.tablesAt n = e.tables := by
  rw [tablesAt, tablesOf, ← find?, h]
  rfl

theorem tablesAt_of_find?_none (h : t.find? n = none) : t.tablesAt n = ⟨none, [], none, none⟩ := by
  rw [tablesAt, tablesOf, ← find?, h]
  rfl

theorem find?_of_maxDepth_lt (h : maxDepth < n.length) : t.find? n = none := by
  refine eq_none_iff_forall_ne_some.mpr fun e he => ?_
  obtain ⟨hmem, rfl⟩ := find?_eq_some_iff.mp he
  exact absurd (t.wellFormed.length_le e hmem) (by omega)

theorem findExactMatch_length (t : NameTree φ π μ σ) (name : Name) :
    t.findExactMatch name name.length = t.find? name := by
  rw [findExactMatch, Nat.min_self, take_length]
  split
  next hdepth => exact (find?_of_maxDepth_lt hdepth).symm
  next => rfl

theorem tablesAt_of_maxDepth_lt (h : maxDepth < n.length) : t.tablesAt n = ⟨none, [], none, none⟩ :=
  tablesAt_of_find?_none (find?_of_maxDepth_lt h)

/-! ### Values at the longest prefix -/

/-- The name by which a PIT entry is looked up. -/
def lookupName (pitEntry : Pit.Entry) : Name :=
  if pitEntry.nameTreeEntry.length < pitEntry.interest.name.length then pitEntry.interest.name
  else pitEntry.nameTreeEntry

section Values

variable (value : TableEntries φ π μ σ → Option β)
  (hvalue : value ⟨none, [], none, none⟩ = none)

include hvalue in
theorem bind_longestMatchFrom (t : NameTree φ π μ σ) (name : Name) (i : ℕ) :
    (t.longestMatchFrom name (fun e => (value e.tables).isSome) i).bind
        (fun e => value e.tables) =
      findUpTo (fun n => value (t.tablesAt n)) name i := by
  have hone : ∀ n, ((t.find? n).filter fun e => (value e.tables).isSome).bind
      (fun e => value e.tables) = value (t.tablesAt n) := by
    intro n
    cases hfind : t.find? n with
    | none => rw [tablesAt_of_find?_none hfind, hvalue]; rfl
    | some e =>
      rw [tablesAt_of_find? hfind, filter_some]
      cases hv : value e.tables <;> simp [hv]
  induction i with
  | zero => exact hone _
  | succ i ih =>
    rw [longestMatchFrom, findUpTo, ← hone, ← ih]
    cases hcase : (t.find? (name.take (i + 1))).filter fun e => (value e.tables).isSome with
    | none => rfl
    | some e =>
      obtain ⟨b, hb⟩ := isSome_iff_exists.mp (filter_eq_some_iff.mp hcase).2
      simp [hb]

include hvalue in
theorem find_tablesAt_take (t : NameTree φ π μ σ) (name : Name) :
    find (fun n => value (t.tablesAt n)) (name.take maxDepth) =
      find (fun n => value (t.tablesAt n)) name :=
  find_take_eq fun q hq => by rw [tablesAt_of_maxDepth_lt hq, hvalue]

include hvalue in
theorem bind_findLongestPrefixMatch (t : NameTree φ π μ σ) (name : Name) :
    (t.findLongestPrefixMatch name fun e => (value e.tables).isSome).bind
        (fun e => value e.tables) =
      find (fun n => value (t.tablesAt n)) name := by
  have hdepth : name.take (min name.length maxDepth) = name.take maxDepth :=
    take_eq_take_iff.mpr (by omega)
  rw [findLongestPrefixMatch, bind_longestMatchFrom value hvalue,
    ← findUpTo_take (Nat.min_le_left _ _), hdepth, find_tablesAt_take value hvalue]

include hvalue in
theorem bind_findLongestPrefixMatchFrom (he : e ∈ t.nodes) :
    (t.findLongestPrefixMatchFrom e fun e => (value e.tables).isSome).bind
        (fun e => value e.tables) =
      find (fun n => value (t.tablesAt n)) e.name := by
  rw [← longestMatchFrom_eq he le_rfl (take_length).symm,
    bind_longestMatchFrom value hvalue, find]

end Values

section Pit

variable {t : NameTree φ Pit.Entry μ σ} {pitEntry : Pit.Entry}
  (hnode : pitEntry.nameTreeEntry = pitEntry.interest.nodeName)
  (hnte : (t.find? pitEntry.nameTreeEntry).isSome)

include hnode hnte

theorem findLongestPrefixMatchPit_eq (entrySelector : Entry φ Pit.Entry μ σ → Bool) :
    t.findLongestPrefixMatchPit pitEntry entrySelector =
      t.findLongestPrefixMatch (lookupName pitEntry) entrySelector := by
  obtain ⟨nte, hfind⟩ := isSome_iff_exists.mp hnte
  obtain ⟨hmem, hname⟩ := find?_eq_some_iff.mp hfind
  have hdepth := t.wellFormed.length_le nte hmem
  rw [findLongestPrefixMatchPit, hfind, lookupName, ← hname, findLongestPrefixMatch]
  simp only [bind_eq_bind, bind_some]
  split
  next hlt =>
    have hpath : nte.name = pitEntry.interest.name.take nte.name.length := by
      rw [hname, hnode] at hlt ⊢
      exact prefix_iff_eq_take.mp (Interest.nodeName_isPrefix_of_lt hlt)
    obtain ⟨j, hj, hmem', hname', hnone⟩ := goDeeper_spec hmem hpath
      (by omega : nte.name.length + (min pitEntry.interest.name.length maxDepth -
        nte.name.length) = min pitEntry.interest.name.length maxDepth)
      (Nat.min_le_left _ _) (Nat.min_le_right _ _)
    rw [longestMatchFrom_of_none hj hnone, longestMatchFrom_eq hmem' (by omega) hname']
  next => rw [Nat.min_eq_left hdepth, longestMatchFrom_eq hmem le_rfl take_length.symm]

theorem bind_findLongestPrefixMatchPit (value : TableEntries φ Pit.Entry μ σ → Option β)
    (hvalue : value ⟨none, [], none, none⟩ = none) :
    (t.findLongestPrefixMatchPit pitEntry fun e => (value e.tables).isSome).bind
        (fun e => value e.tables) =
      find (fun n => value (t.tablesAt n)) (lookupName pitEntry) := by
  rw [findLongestPrefixMatchPit_eq hnode hnte, bind_findLongestPrefixMatch value hvalue]

end Pit

end NameTree

end NdnFc
