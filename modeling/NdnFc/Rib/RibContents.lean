import NdnFc.Rib.RibTree

/-!
# What the RIB contains

Insertion and removal of a route change one entry. What they do to the entries is said here once, and
invariants follow from it: the routes of an entry have different faces or origins, the size is the
number of routes, and the addresses of the entries are different.
-/

namespace NdnFc.Rib

open List KeyedList

variable {rib : Rib} {n m : Name} {e : RibEntry} {r existing : Route}

/-- The entries apart from that of a name. -/
def others (rib : Rib) (name : Name) : List RibEntry :=
  KeyedList.erase RibEntry.name rib.entries name

def Distinct (rib : Rib) : Prop :=
  (rib.entries.map RibEntry.name).Nodup

/-! ### Operations -/

inductive Op where
  | insert (name : Name) (route : Route)
  | erase (name : Name) (route : Route)
deriving DecidableEq

namespace Op

def name : Op → Name
  | insert name _ => name
  | erase name _ => name

/-- What the operation does to the entry, which has no routes if it is not in the RIB. -/
def apply (e : RibEntry) : Op → RibEntry
  | insert _ route => if (e.findRoute route).isSome then e.replaceRoute route else e.insertRoute route
  | erase _ route =>
    match e.findRoute route with
    | some existing => e.eraseRoute existing
    | none => e

/-- What the operation does to the index of the faces. -/
def index (e : RibEntry) (pairs : List (ℕ × ℕ)) : Op → List (ℕ × ℕ)
  | insert _ route =>
    if (e.findRoute route).isSome then pairs else pairs ++ [(route.faceId, e.address)]
  | erase _ route =>
    match e.findRoute route with
    | some existing =>
      if (e.eraseRoute existing).hasFaceId route.faceId then pairs
      else pairs.erase (route.faceId, e.address)
    | none => pairs

theorem insert_apply_ne_nil : ((insert n r).apply e).routes ≠ [] := by
  rw [apply]
  split_ifs with hsome
  · obtain ⟨existing, hexisting⟩ := Option.isSome_iff_exists.mp hsome
    exact fun hnil =>
      ne_nil_of_mem (mem_of_get? hexisting) (map_eq_nil_iff.mp hnil)
  · exact concat_ne_nil r e.routes

theorem name_apply (op : Op) : (op.apply e).name = e.name := by
  cases op with
  | insert n r => rw [apply]; split_ifs <;> rfl
  | erase n r => rw [apply]; split <;> rfl

theorem address_apply (op : Op) : (op.apply e).address = e.address := by
  cases op with
  | insert n r => rw [apply]; split_ifs <;> rfl
  | erase n r => rw [apply]; split <;> rfl

theorem nodup_apply (op : Op) (hkeys : (e.routes.map Route.key).Nodup) :
    ((op.apply e).routes.map Route.key).Nodup := by
  cases op with
  | insert n r =>
    rw [apply]
    split_ifs with hsome
    · exact nodup_map_key_update hkeys fun _ _ => rfl
    · exact nodup_map_key_append_singleton hkeys (Option.not_isSome_iff_eq_none.mp hsome)
  | erase n r =>
    rw [apply]
    split
    · exact nodup_map_key_erase hkeys
    · exact hkeys

end Op

def step (rib : Rib) : Op → Rib
  | .insert name route => rib.insert name route
  | .erase name route => rib.erase name route

/-- The entry of a name, or one without routes that is not in the RIB. -/
def slot (rib : Rib) (name : Name) : RibEntry :=
  (rib.find name).getD ⟨name, rib.nextAddress, [], 0⟩

/-- An entry is in the RIB if it has a route. -/
def shown (e : RibEntry) : List RibEntry :=
  if e.routes = [] then [] else [e]

theorem shown_of_ne (h : e.routes ≠ []) : shown e = [e] :=
  if_neg h

theorem mem_shown {x : RibEntry} : x ∈ shown e ↔ x = e ∧ e.routes ≠ [] := by
  rw [shown]
  split_ifs with hnil <;> simp [hnil]

theorem slot_of_find (hfind : rib.find n = some e) : rib.slot n = e := by
  rw [slot, hfind, Option.getD_some]

theorem slot_of_not (hfind : rib.find n = none) : rib.slot n = ⟨n, rib.nextAddress, [], 0⟩ := by
  rw [slot, hfind, Option.getD_none]

theorem others_of_not (hfind : rib.find n = none) : rib.others n = rib.entries :=
  erase_eq_self (get?_eq_none_iff_notMem.mp hfind)

/-! ### Sound contents -/

/-- The properties of entries, of which some may be without routes. -/
structure Slots (l : List RibEntry) (nItems : ℕ) : Prop where
  names : (l.map RibEntry.name).Nodup
  addresses : (l.map RibEntry.address).Nodup
  keys : ∀ e ∈ l, (e.routes.map Route.key).Nodup
  size : nItems = (l.map fun e => e.routes.length).sum

structure Sound (rib : Rib) : Prop where
  slots : Slots rib.entries rib.nItems
  routes : ∀ e ∈ rib.entries, e.routes ≠ []
  lt_next : ∀ e ∈ rib.entries, e.address < rib.nextAddress

theorem Slots.perm {l l' : List RibEntry} {k : ℕ} (h : Slots l k) (hperm : l.Perm l') :
    Slots l' k where
  names := (hperm.map _).nodup_iff.mp h.names
  addresses := (hperm.map _).nodup_iff.mp h.addresses
  keys e he := h.keys e (hperm.mem_iff.mpr he)
  size := h.size.trans (hperm.map _).sum_nat

theorem Slots.shown {l : List RibEntry} {k : ℕ} (h : Slots (e :: l) k) : Slots (shown e ++ l) k := by
  by_cases hnil : e.routes = []
  · rw [Rib.shown, if_pos hnil]
    refine ⟨(nodup_cons.mp h.names).2, (nodup_cons.mp h.addresses).2,
      fun e he => h.keys e (mem_cons_of_mem _ he), ?_⟩
    rw [h.size, map_cons, sum_cons, hnil, length_nil, Nat.zero_add]
    rfl
  · rw [Rib.shown, if_neg hnil]
    exact h

theorem perm_of_find (h : rib.Distinct) (hfind : rib.find n = some e) :
    rib.entries.Perm (e :: rib.others n) := by
  rw [← name_of_find hfind]
  exact perm_cons_erase h (mem_of_get? hfind)

theorem Sound.contents (h : rib.Sound) (n : Name) :
    rib.entries.Perm (shown (rib.slot n) ++ rib.others n) := by
  cases hfind : rib.find n with
  | none => rw [slot_of_not hfind, others_of_not hfind]; rfl
  | some e =>
    rw [slot_of_find hfind, shown_of_ne (h.routes e (mem_of_get? hfind))]
    exact perm_of_find h.slots.names hfind

theorem Sound.slots_slot (h : rib.Sound) (n : Name) :
    Slots (rib.slot n :: rib.others n) rib.nItems := by
  cases hfind : rib.find n with
  | some e =>
    rw [slot_of_find hfind]
    exact h.slots.perm (perm_of_find h.slots.names hfind)
  | none =>
    rw [slot_of_not hfind, others_of_not hfind]
    refine ⟨nodup_map_key_cons h.slots.names hfind, nodup_cons.mpr ⟨fun hmem => ?_,
      h.slots.addresses⟩, forall_mem_cons.mpr ⟨nodup_nil, h.slots.keys⟩, ?_⟩
    · obtain ⟨e, he, hnext⟩ := mem_map.mp hmem
      exact (h.lt_next e he).ne hnext
    · rw [map_cons, sum_cons, length_nil, Nat.zero_add]
      exact h.slots.size

/-! ### What an operation does -/

/-- What an operation on an entry does, apart from the links of the tree. -/
structure Effect (rib : Rib) (op : Op) (e : RibEntry) (rib' : Rib) : Prop where
  contents : rib'.entries.Perm (shown (op.apply e) ++ rib.others op.name)
  nItems : rib'.nItems + e.routes.length = rib.nItems + (op.apply e).routes.length
  faceEntries : rib'.faceEntries = op.index e rib.faceEntries
  next_le : rib.nextAddress ≤ rib'.nextAddress
  lt_next : (op.apply e).routes ≠ [] → e.address < rib'.nextAddress

theorem perm_addEntry (hfind : rib.find n = none) :
    (rib.addEntry n r).entries.Perm
      (RibEntry.insertRoute ⟨n, rib.nextAddress, [], 0⟩ r :: rib.entries) :=
  SortedTable.emplace_perm fun e he heq =>
    get?_eq_none_iff.mp hfind e he (Std.LawfulEqCmp.eq_of_compare heq).symm

theorem effect_of_update {op : Op} {rib' : Rib} (f : RibEntry → RibEntry) (h : rib.Sound)
    (hfind : rib.find op.name = some e) (happly : op.apply e = f e) (hne : (f e).routes ≠ [])
    (hentries : rib'.entries = (rib.update op.name f).entries)
    (hitems : rib'.nItems + e.routes.length = rib.nItems + (f e).routes.length)
    (hindex : rib'.faceEntries = op.index e rib.faceEntries)
    (hnext : rib'.nextAddress = rib.nextAddress) : Effect rib op (rib.slot op.name) rib' := by
  rw [slot_of_find hfind]
  refine ⟨?_, happly ▸ hitems, hindex, hnext.ge, fun _ => ?_⟩
  · rw [happly, shown_of_ne hne, hentries]
    exact perm_update h.slots.names hfind
  · rw [hnext]
    exact h.lt_next e (mem_of_get? hfind)

theorem effect_insert (h : rib.Sound) : Effect rib (.insert n r) (rib.slot n) (rib.insert n r) := by
  cases hfind : rib.find n with
  | none =>
    have hinsert : rib.insert n r = rib.insertEntry n r := by rw [insert, hfind]
    rw [hinsert, slot_of_not hfind]
    refine ⟨?_, rfl, rfl, Nat.le_succ _, fun _ => Nat.lt_succ_self _⟩
    rw [Op.name, others_of_not hfind]
    exact perm_addEntry hfind
  | some e =>
    have hinsert : rib.insert n r = rib.insertIntoEntry e r := by rw [insert, hfind]
    rw [hinsert, insertIntoEntry, name_of_find hfind]
    split_ifs with hsome
    · have happly : (Op.insert n r).apply e = e.replaceRoute r := if_pos hsome
      refine effect_of_update (·.replaceRoute r) h hfind happly (happly ▸ Op.insert_apply_ne_nil)
        rfl ?_ (if_pos hsome).symm rfl
      exact congrArg (rib.nItems + ·) (length_map _).symm
    · have happly : (Op.insert n r).apply e = e.insertRoute r := if_neg hsome
      refine effect_of_update (·.insertRoute r) h hfind happly (happly ▸ Op.insert_apply_ne_nil)
        rfl ?_ (if_neg hsome).symm rfl
      rw [RibEntry.insertRoute, length_append]
      exact (Nat.add_right_comm _ _ _).trans (Nat.add_assoc _ _ _)


theorem effect_of_not_found (h : rib.Sound) (hroute : (rib.slot n).findRoute r = none) :
    Effect rib (.erase n r) (rib.slot n) rib := by
  have happly : (Op.erase n r).apply (rib.slot n) = rib.slot n := by rw [Op.apply, hroute]
  have hcontents := h.contents n
  refine ⟨happly.symm ▸ hcontents, by rw [happly], by rw [Op.index, hroute], le_rfl, fun hne => ?_⟩
  rw [happly] at hne
  rw [shown_of_ne hne] at hcontents
  exact h.lt_next _ (hcontents.mem_iff.mpr mem_cons_self)

theorem effect_erase (h : rib.Sound) : Effect rib (.erase n r) (rib.slot n) (rib.erase n r) := by
  cases hfind : rib.find n with
  | none =>
    have herase : rib.erase n r = rib := by rw [erase, hfind]
    rw [herase]
    refine effect_of_not_found h ?_
    rw [slot_of_not hfind]
    rfl
  | some e =>
    have hslots := h.slots_slot n
    rw [slot_of_find hfind] at hslots
    cases hexisting : e.findRoute r with
    | none =>
      have herase : rib.erase n r = rib := by rw [erase, hfind]; simp only [hexisting]
      rw [herase]
      exact effect_of_not_found h (by rw [slot_of_find hfind, hexisting])
    | some existing =>
      have happly : (Op.erase n r).apply e = e.eraseRoute existing := by rw [Op.apply, hexisting]
      have hlength : (e.eraseRoute existing).routes.length + 1 = e.routes.length :=
        (perm_cons_erase (hslots.keys _ mem_cons_self)
          (mem_of_get? hexisting)).length_eq.symm
      have hsize : rib.nItems = e.routes.length + _ := hslots.size
      have hitems : rib.nItems - 1 + e.routes.length =
          rib.nItems + (e.eraseRoute existing).routes.length := by omega
      have hindex : (Op.erase n r).index e rib.faceEntries =
          if (e.eraseRoute existing).hasFaceId r.faceId then rib.faceEntries
            else rib.faceEntries.erase (r.faceId, e.address) := by rw [Op.index, hexisting]
      rw [erase, hfind]
      simp only [hexisting]
      by_cases hnil : (e.eraseRoute existing).routes = []
      · rw [if_pos hnil, slot_of_find hfind]
        refine ⟨?_, happly.symm ▸ hitems, hindex.symm, le_rfl, fun hne => ?_⟩
        · rw [happly, shown, if_pos hnil]
          exact .of_eq (erase_update_self fun _ => rfl)
        · exact absurd (happly.symm ▸ hnil) hne
      · rw [if_neg hnil]
        exact effect_of_update (·.eraseRoute existing) h hfind happly hnil rfl hitems hindex.symm rfl

theorem effect (h : rib.Sound) (op : Op) : Effect rib op (rib.slot op.name) (rib.step op) := by
  cases op with
  | insert n r => exact effect_insert h
  | erase n r => exact effect_erase h

theorem Sound.slots_step (h : rib.Sound) (op : Op) :
    Slots (op.apply (rib.slot op.name) :: rib.others op.name) (rib.step op).nItems := by
  have hslots := h.slots_slot op.name
  have hitems := (effect h op).nItems
  constructor
  · rw [map_cons, op.name_apply]
    exact hslots.names
  · rw [map_cons, op.address_apply]
    exact hslots.addresses
  · exact forall_mem_cons.mpr ⟨op.nodup_apply (hslots.keys _ mem_cons_self),
      fun e he => hslots.keys e (mem_cons_of_mem _ he)⟩
  · have hsize := hslots.size
    rw [map_cons, sum_cons] at hsize ⊢
    omega

theorem Sound.mem_step_iff (h : rib.Sound) (op : Op) {x : RibEntry} :
    x ∈ (rib.step op).entries ↔
      (x = op.apply (rib.slot op.name) ∧ (op.apply (rib.slot op.name)).routes ≠ []) ∨
        (x.name ≠ op.name ∧ x ∈ rib.entries) := by
  rw [(effect h op).contents.mem_iff, mem_append, mem_shown, others, KeyedList.erase,
    mem_filter, decide_eq_true_eq, and_comm (a := x ∈ _)]

theorem name_slot : (rib.slot n).name = n := by
  cases hfind : rib.find n with
  | none => rw [slot_of_not hfind]
  | some e => rw [slot_of_find hfind, name_of_find hfind]

theorem Sound.has_step_iff (h : rib.Sound) (op : Op) (hm : m ≠ op.name) :
    (rib.step op).Has m ↔ rib.Has m := by
  simp only [Has, find, isSome_get?_iff, mem_map, h.mem_step_iff]
  constructor
  · rintro ⟨e, ⟨rfl, -⟩ | ⟨-, he⟩, rfl⟩
    · exact absurd (op.name_apply.trans name_slot) hm
    · exact ⟨e, he, rfl⟩
  · rintro ⟨e, he, rfl⟩
    exact ⟨e, .inr ⟨hm, he⟩, rfl⟩

theorem Sound.step (h : rib.Sound) (op : Op) : (rib.step op).Sound := by
  have heffect := effect h op
  refine ⟨(h.slots_step op).shown.perm heffect.contents.symm, fun e he => ?_, fun e he => ?_⟩
  · rcases (h.mem_step_iff op).mp he with ⟨rfl, hne⟩ | ⟨-, hmem⟩
    · exact hne
    · exact h.routes e hmem
  · rcases (h.mem_step_iff op).mp he with ⟨rfl, hne⟩ | ⟨-, hmem⟩
    · rw [op.address_apply]
      exact heffect.lt_next hne
    · exact (h.lt_next e hmem).trans_le heffect.next_le

theorem sound_empty : empty.Sound where
  slots := ⟨nodup_nil, nodup_nil, fun _ he => (not_mem_nil he).elim, rfl⟩
  routes _ he := (not_mem_nil he).elim
  lt_next _ he := (not_mem_nil he).elim

theorem sound_run (ops : List Op) : (Run.run step empty ops).Sound :=
  Run.invariant Sound (fun _ op h => h.step op) sound_empty ops

end NdnFc.Rib
