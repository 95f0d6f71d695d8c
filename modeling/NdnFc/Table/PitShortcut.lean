import NdnFc.Table.NameTreeMatch
import NdnFc.Table.Pit

/-!
# Lookups through PIT entries

`NameTree::lookup(pitEntry)` and `NameTree::findLongestPrefixMatch(pitEntry, ..)`
(`NFD-FC/daemon/table/name-tree.cpp`, lines 81 to 98 and 190 to 210) start at the node the entry
hangs on. They expect the digest-stripped Name there; `Pit::findOrInsert` files an Interest under
the digest-stripped Name followed by the Function.
-/

namespace NdnFc

open List

namespace NameTree

variable {φ μ σ : Type*} {π : Type*}

/-- `lookup(name, prefixLen)`: the tree afterwards and the node returned. -/
def lookupNode (t : NameTree φ π μ σ) (name : Name) (prefixLen : ℕ) (hlen : prefixLen ≤ name.length)
    (hdepth : prefixLen ≤ maxDepth) : NameTree φ π μ σ × Option (Entry φ π μ σ) :=
  (t.lookup name prefixLen hlen hdepth,
    (t.lookup name prefixLen hlen hdepth).find? (name.take prefixLen))

/-- `lookup(pitEntry)`: the tree afterwards and the node returned. -/
def lookupPit (t : NameTree φ Pit.Entry μ σ) (pitEntry : Pit.Entry) :
    NameTree φ Pit.Entry μ σ × Option (Entry φ Pit.Entry μ σ) :=
  let name := pitEntry.interest.name
  if h : name.endsWithDigest = true ∧ name.length ≤ maxDepth then
    t.lookupNode name name.length le_rfl h.2
  else (t, t.find? pitEntry.nameTreeEntry)

variable {t : NameTree φ π μ σ} {name : Name}

theorem lookup_eq_self {prefixLen : ℕ} (hlen : prefixLen ≤ name.length)
    (hdepth : prefixLen ≤ maxDepth) (h : (t.find? (name.take prefixLen)).isSome) :
    t.lookup name prefixLen hlen hdepth = t := by
  have hnodes : ∀ i ≤ prefixLen, lookupNodes t.nodes name i = t.nodes := by
    intro i hi
    have hsome : ∀ j ≤ prefixLen, (KeyedList.get? Entry.name t.nodes (name.take j)).isSome :=
      fun j hj => isSome_find?_of_isPrefix h (take_prefix_take_left hj)
    induction i with
    | zero => exact if_pos (hsome 0 hi)
    | succ i ih => rw [lookupNodes, ih (by omega), ensureNode, if_pos (hsome (i + 1) hi)]
  cases t
  simp only [lookup, hnodes prefixLen le_rfl]

end NameTree

/-! ### The node of an Interest -/

namespace Interest

open NameTree (maxDepth)

theorem nodeName_eq_take {i : Interest} (h : i.nodeName <+: i.name)
    (hdigest : ¬ (i.name.endsWithDigest = true ∧ i.name.length ≤ maxDepth)) :
    i.nodeName = i.name.take (min i.name.length maxDepth) := by
  have hle := h.length_le
  have hlen : i.nodeName.length = min (i.name.stripDigest.length + i.function.length) maxDepth := by
    rw [nodeName, length_take, getNameFunction, Name.getNameFunction, length_append,
      Nat.min_comm]
  rw [prefix_iff_eq_take.mp h]
  congr 1
  by_cases hd : i.name.endsWithDigest = true
  · have hshort : i.name.stripDigest.length = i.name.length - 1 := by
      rw [Name.stripDigest, if_pos hd, length_dropLast]
    have hlong : maxDepth < i.name.length := Nat.not_le.mp fun hle => hdigest ⟨hd, hle⟩
    omega
  · rw [Name.stripDigest, if_neg hd] at hlen
    omega

end Interest

namespace Pit

variable {φ μ σ : Type*} {p : Pit φ μ σ} {e : Entry}

/-- The tables that insertions and erasures lead to when in between the other tables change the tree
in any way that leaves the PIT entries on their nodes. -/
inductive ReachableWith : Pit φ μ σ → Prop
  | init (t : NameTree φ Entry μ σ) (hempty : ∀ n, t.pitEntriesAt n = []) :
      ReachableWith ⟨t, 0, 0⟩
  | insert {p : Pit φ μ σ} (h : ReachableWith p) (interest : Interest) :
      ReachableWith (p.insert interest).1
  | erase {p : Pit φ μ σ} (h : ReachableWith p) {entry : Entry} (hentry : p.Contains entry)
      (canDeleteNte : Bool) : ReachableWith (p.erase entry canDeleteNte)
  | other {p : Pit φ μ σ} (h : ReachableWith p) (t : NameTree φ Entry μ σ)
      (hsame : ∀ n, t.pitEntriesAt n = p.nameTree.pitEntriesAt n) :
      ReachableWith { p with nameTree := t }

theorem ReachableWith.inv (h : p.ReachableWith) : p.Inv := by
  induction h with
  | init t hempty => constructor <;> simp [Contains, hempty]
  | insert _ i ih => exact ih.insert i
  | erase _ _ canDeleteNte ih => exact ih.erase _ canDeleteNte
  | other _ t hsame ih => exact ih.congr rfl hsame

/-- For the entry, the two functions return what the functions for the Name of its Interest return. -/
def ShortcutAgrees (p : Pit φ μ σ) (e : Entry) : Prop :=
  p.nameTree.lookupPit e =
      p.nameTree.lookupNode e.interest.name (min e.interest.name.length NameTree.maxDepth)
        (Nat.min_le_left _ _) (Nat.min_le_right _ _) ∧
    ∀ entrySelector, p.nameTree.findLongestPrefixMatchPit e entrySelector =
      p.nameTree.findLongestPrefixMatch e.interest.name entrySelector

section

variable (h : p.Inv) (he : p.Contains e)

include h he

theorem Inv.lookupPit_eq (hpath : e.interest.nodeName <+: e.interest.name) :
    p.nameTree.lookupPit e =
      p.nameTree.lookupNode e.interest.name (min e.interest.name.length NameTree.maxDepth)
        (Nat.min_le_left _ _) (Nat.min_le_right _ _) := by
  unfold NameTree.lookupPit
  simp only
  split
  next hdigest => simp only [Nat.min_eq_left hdigest.2]
  next hdigest =>
    obtain ⟨nte, hnte, hname, hfind⟩ := h.exists_node he
    have hnode : p.nameTree.find? (e.interest.name.take
        (min e.interest.name.length NameTree.maxDepth)) = some nte := by
      rw [← Interest.nodeName_eq_take hpath hdigest]
      exact NameTree.find?_eq_some_iff.mpr ⟨hnte, hname⟩
    rw [NameTree.lookupNode, NameTree.lookup_eq_self _ _ (by rw [hnode]; rfl), hnode, hfind]

theorem Inv.findLongestPrefixMatchPit_eq (entrySelector : NameTree.Entry φ Entry μ σ → Bool) :
    p.nameTree.findLongestPrefixMatchPit e entrySelector =
      p.nameTree.findLongestPrefixMatch (NameTree.lookupName e) entrySelector := by
  obtain ⟨nte, -, -, hfind⟩ := h.exists_node he
  exact NameTree.findLongestPrefixMatchPit_eq (h.nameTreeEntry_eq he)
    (Option.isSome_of_eq_some hfind) entrySelector

theorem Inv.lookupName_eq (hpath : e.interest.nodeName <+: e.interest.name) :
    NameTree.lookupName e = e.interest.name := by
  rw [NameTree.lookupName, h.nameTreeEntry_eq he]
  split
  next => rfl
  next hge => exact hpath.eq_of_length_le (not_lt.mp hge)

theorem Inv.isPrefix_of_shortcutAgrees (hagrees : p.ShortcutAgrees e) :
    e.interest.nodeName <+: e.interest.name := by
  by_cases hlt : e.interest.nodeName.length < e.interest.name.length
  · exact Interest.nodeName_isPrefix_of_lt hlt
  obtain ⟨nte, hnte, hname, hfind⟩ := h.exists_node he
  have hself : p.nameTree.findLongestPrefixMatchPit e (fun _ => true) = some nte := by
    rw [NameTree.findLongestPrefixMatchPit, hfind]
    simp only [Option.bind_eq_bind, Option.bind_some, hname, hlt, if_false]
    rw [NameTree.findLongestPrefixMatchFrom]
    cases nte.name.length <;> rfl
  rw [hagrees.2, NameTree.findLongestPrefixMatch] at hself
  obtain ⟨-, -, j, -, hj, -⟩ := NameTree.longestMatchFrom_eq_some hself
  rw [← hname, hj]
  exact take_prefix _ _

end

end Pit

end NdnFc
