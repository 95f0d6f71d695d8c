import NdnFc.Rib.RibContents

/-!
# The tree of the RIB after any sequence of operations

The links of the entries are those of the forest of their names. An entry that is inserted finds the
entries below its name among those after it, because the entries are sorted by name and a name between
a prefix and a name with the prefix has the prefix too.
-/

namespace NdnFc.Rib

open List KeyedList PrefixForest

variable {rib : Rib} {n m : Name} {e : RibEntry} {r : Route}

def Sorted (rib : Rib) : Prop :=
  (rib.entries.map RibEntry.name).Pairwise fun a b => Name.compare a b = .lt

theorem ne_of_compare_lt {a b : Name} (h : Name.compare a b = .lt) : a ≠ b := by
  rintro rfl
  have hself : Name.compare a a = .eq := Std.ReflCmp.compare_self
  rw [hself] at h
  cases h

theorem takeWhile_isPrefixOf_eq_filter {l : List RibEntry}
    (hafter : ∀ x ∈ l, Name.compare n x.name = .lt)
    (hsorted : l.Pairwise fun a b => Name.compare a.name b.name = .lt) :
    l.takeWhile (fun e => n.isPrefixOf e.name) =
      l.filter fun e => n.isPrefixOf e.name ∧ n ≠ e.name := by
  induction l with
  | nil => rfl
  | cons x l ih =>
    have hx := hafter x mem_cons_self
    obtain ⟨hlt, hl⟩ := pairwise_cons.mp hsorted
    by_cases hprefix : n.isPrefixOf x.name = true
    · rw [takeWhile_cons_of_pos (by exact hprefix),
        filter_cons_of_pos (by simp_all [ne_of_compare_lt hx]),
        ih (fun y hy => hafter y (mem_cons_of_mem x hy)) hl]
    · rw [takeWhile_cons_of_neg (by exact hprefix), filter_cons_of_neg (by simp_all)]
      refine (filter_eq_nil_iff.mpr fun y hy hbelow => hprefix ?_).symm
      have hy' : n <+: y.name := by simp_all
      exact isPrefixOf_iff_prefix.mpr (LexOrder.isPrefix_of_between
        (Ordering.isLE_of_eq_lt hx) (Ordering.isLE_of_eq_lt (hlt y hy)) hy')

theorem Sorted.findDescendants_eq (h : rib.Sorted) (hfind : rib.find n = some e) :
    rib.findDescendants n = rib.entries.filter fun e => n.isPrefixOf e.name ∧ n ≠ e.name := by
  obtain ⟨before, after, hsplit⟩ := append_of_mem (mem_of_get? hfind)
  have hname := name_of_find hfind
  rw [Sorted, hsplit, pairwise_map, pairwise_append, pairwise_cons, hname] at h
  obtain ⟨-, ⟨hafter, hsorted⟩, hbefore⟩ := h
  have hlt : ∀ x ∈ before, Name.compare x.name n = .lt := fun x hx =>
    hname ▸ hbefore x hx e mem_cons_self
  have hdrop : (before ++ e :: after).dropWhile (fun e => e.name ≠ n) = e :: after := by
    rw [dropWhile_append_of_pos fun x hx => by simpa using ne_of_compare_lt (hlt x hx),
      dropWhile_cons_of_neg (by simpa using hname)]
  have hnone : before.filter (fun e => n.isPrefixOf e.name ∧ n ≠ e.name) = [] := by
    refine filter_eq_nil_iff.mpr fun x hx hbelow => ?_
    obtain ⟨hpre, hne⟩ : n <+: x.name ∧ n ≠ x.name := by simpa using hbelow
    have hgt : Name.compare n x.name = .lt := LexOrder.compareLex_of_isPrefix_of_ne hpre hne
    exact Std.OrientedCmp.not_lt_of_lt hgt (hlt x hx)
  rw [findDescendants, hsplit, hdrop, filter_append, hnone,
    filter_cons_of_neg (by simp [hname]), nil_append, drop_succ_cons, drop_zero]
  exact takeWhile_isPrefixOf_eq_filter hafter hsorted

/-! ### A new entry -/

theorem Sorted.addEntry (h : rib.Sorted) : (rib.addEntry n r).Sorted := by
  have hcmp : Std.TransCmp fun a b : RibEntry => Name.compare a.name b.name :=
    { eq_swap := Std.OrientedCmp.eq_swap, isLE_trans := Std.TransCmp.isLE_trans }
  rw [Sorted, pairwise_map] at h ⊢
  exact SortedTable.Sorted.emplace h _

theorem has_addEntry_iff (hfind : rib.find n = none) :
    (rib.addEntry n r).Has m ↔ m = n ∨ rib.Has m := by
  simp only [Has, find, isSome_get?_iff, ((perm_addEntry hfind).map _).mem_iff,
    map_cons, mem_cons]
  rfl

theorem children_spec {p : Option Name} {links : Name → Link Component} (hsorted : rib.Sorted)
    (h : rib.Distinct) (hfind : rib.find n = none) {kids : List Name}
    (hkids : kids = (((rib.addEntry n r).findDescendants n).map RibEntry.name).filter fun child =>
      (links child).parent = p) :
    kids.Nodup ∧ ∀ m, m ∈ kids ↔ rib.Has m ∧ IsBelow n m ∧ (links m).parent = p := by
  have hself : (rib.addEntry n r).Has n := (has_addEntry_iff hfind).mpr (.inl rfl)
  obtain ⟨e, he⟩ := Option.isSome_iff_exists.mp hself
  have hnodup : ((rib.addEntry n r).entries.map RibEntry.name).Nodup :=
    ((perm_addEntry hfind).map _).nodup_iff.mpr (nodup_map_key_cons h hfind)
  have hhas : ∀ m, m ≠ n → (rib.Has m ↔ ∃ e ∈ (rib.addEntry n r).entries, e.name = m) := by
    intro m hm
    rw [← mem_map, ← isSome_get?_iff]
    exact ((has_addEntry_iff hfind).trans (or_iff_right hm)).symm
  rw [hkids, hsorted.addEntry.findDescendants_eq he]
  refine ⟨(hnodup.sublist (filter_sublist.map _)).filter _, fun m => ?_⟩
  simp only [mem_map, mem_filter, decide_eq_true_eq, isPrefixOf_iff_prefix]
  constructor
  · rintro ⟨⟨x, ⟨hx, hbelow⟩, rfl⟩, hp⟩
    exact ⟨(hhas _ hbelow.2.symm).mpr ⟨x, hx, rfl⟩, hbelow, hp⟩
  · rintro ⟨hm, hbelow, hp⟩
    obtain ⟨x, hx, rfl⟩ := (hhas _ hbelow.2.symm).mp hm
    exact ⟨⟨x, ⟨hx, hbelow⟩, rfl⟩, hp⟩

theorem forest_insertEntry (hsorted : rib.Sorted) (h : rib.Distinct)
    (hforest : Forest rib.Has rib.links) (hfind : rib.find n = none) :
    Forest (rib.insertEntry n r).Has (rib.insertEntry n r).links := by
  have hp : IsParent rib.Has n (((rib.addEntry n r).findParent n).map RibEntry.name) :=
    (isParent_findParent (rib.addEntry n r) n).congr fun q hq =>
      ((has_addEntry_iff hfind).trans (or_iff_right hq.2)).symm
  simp only [insertEntry]
  generalize ((rib.addEntry n r).findParent n).map RibEntry.name = p at hp
  have hpn : p ≠ some n := by
    rintro rfl
    exact hp.2.1.2 rfl
  have hfirst : ∀ m, moveChild none p (rib.addEntry n r).links n m =
      Link.move none p [n] m ((rib.addEntry n r).links m) := by
    intro m
    cases p with
    | none => by_cases hm : m = n <;> simp [moveChild, Link.move, addEntry, hm]
    | some p => exact moveChild_eq (by simp) _ _
  have hlinks : ∀ m, m ≠ n → (rib.addEntry n r).links m = rib.links m := fun m hm => if_neg hm
  obtain ⟨hnodup, hkids⟩ := children_spec (r := r) (p := p) hsorted h hfind rfl
  generalize hmoved : (((rib.addEntry n r).findDescendants n).map RibEntry.name).filter
    (fun child => (moveChild none p (rib.addEntry n r).links n child).parent = p) = kids
    at hnodup hkids
  have hnot : n ∉ kids := fun hn => ((hkids n).mp hn).2.1.2 rfl
  refine hforest.insert (by simp [Has, hfind]) hp hnodup (fun l => ?_)
    (fun q => has_addEntry_iff hfind) ?_ fun l hl => ?_
  · rw [hkids]
    refine and_congr_right fun _ => and_congr_right fun hbelow => ?_
    rw [hfirst, hlinks l hbelow.2.symm]
    simp [Link.move, hbelow.2.symm]
  · rw [foldl_moveChild hpn, hfirst]
    simp [Link.move, addEntry, hnot, hpn]
  · rw [foldl_moveChild hpn, hfirst, hlinks l hl]

/-! ### The other operations -/

theorem forest_eraseEntry (h : Forest rib.Has rib.links) (hn : rib.Has n) :
    Forest (rib.eraseEntry n).Has (rib.eraseEntry n).links := by
  have hp := (h n hn).1
  have hpn : some n ≠ (rib.links n).parent := by
    intro hself
    rw [← hself] at hp
    exact hp.2.1.2 rfl
  refine h.erase hn (fun q => ?_) fun l hl => ?_
  · rw [Has, find, eraseEntry, get?_erase]
    by_cases hq : q = n <;> simp [hq, Has, find]
  · refine (foldl_moveChild hpn _ _).trans (congrArg _ ?_)
    cases hparent : (rib.links n).parent with
    | none => simp [moveChild, Link.move, hl]
    | some p => exact moveChild_eq (by simp) _ _

/-- The entries are sorted and sound, and the links form the forest of their names. -/
structure Linked (rib : Rib) : Prop where
  sorted : rib.Sorted
  forest : Forest rib.Has rib.links

variable {f : RibEntry → RibEntry}

theorem map_name_update (hf : ∀ e, (f e).name = e.name) :
    (rib.update n f).entries.map RibEntry.name = rib.entries.map RibEntry.name :=
  map_key_update hf

theorem has_update (hf : ∀ e, (f e).name = e.name) : (rib.update n f).Has = rib.Has := by
  funext m
  simp only [Has, find, isSome_get?_iff, map_name_update hf]

theorem Linked.update (h : rib.Linked) (hf : ∀ e, (f e).name = e.name) :
    (rib.update n f).Linked where
  sorted := by
    rw [Sorted, map_name_update hf]
    exact h.sorted
  forest := by
    rw [has_update hf]
    exact h.forest

theorem Linked.insert (h : rib.Linked) (hd : rib.Distinct) : (rib.insert n r).Linked := by
  cases hfind : rib.find n with
  | none =>
    rw [Rib.insert, hfind]
    exact ⟨h.sorted.addEntry, forest_insertEntry h.sorted hd h.forest hfind⟩
  | some e =>
    have hreplace := h.update (n := e.name) (f := fun e => e.replaceRoute r) fun _ => rfl
    have hinsert := h.update (n := e.name) (f := fun e => e.insertRoute r) fun _ => rfl
    simp only [Rib.insert, hfind, insertIntoEntry]
    split_ifs
    · exact hreplace
    · exact ⟨hinsert.sorted, hinsert.forest⟩

theorem Linked.erase (h : rib.Linked) : (rib.erase n r).Linked := by
  cases hfind : rib.find n with
  | none =>
    rw [Rib.erase, hfind]
    exact h
  | some e =>
    cases hroute : e.findRoute r with
    | none =>
      simp only [Rib.erase, hfind, hroute]
      exact h
    | some existing =>
      have hname : ∀ e : RibEntry, (e.eraseRoute existing).name = e.name := fun _ => rfl
      have herase := h.update (n := n) hname
      have hhas : (rib.update n fun e => e.eraseRoute existing).Has n := by
        rw [has_update hname]
        exact has_of_find hfind
      simp only [Rib.erase, hfind, hroute]
      by_cases hnil : (e.eraseRoute existing).routes = []
      · rw [if_pos hnil]
        exact ⟨Pairwise.sublist (filter_sublist.map _) herase.sorted,
          forest_eraseEntry herase.forest hhas⟩
      · rw [if_neg hnil]
        exact ⟨herase.sorted, herase.forest⟩

theorem linked_run (ops : List Op) :
    (Run.run step empty ops).Sound ∧ (Run.run step empty ops).Linked := by
  refine Run.invariant (fun rib : Rib => rib.Sound ∧ rib.Linked) (fun rib op h => ?_)
    ⟨sound_empty, Pairwise.nil, fun l hl => by cases hl⟩ ops
  refine ⟨h.1.step op, ?_⟩
  cases op with
  | insert n r => exact h.2.insert h.1.slots.names
  | erase n r => exact h.2.erase

end NdnFc.Rib
