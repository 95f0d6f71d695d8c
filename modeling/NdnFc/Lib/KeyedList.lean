import Mathlib.Data.List.Induction
import Mathlib.Data.List.Nodup
import Mathlib.Data.List.Perm.Basic

/-!
# Lists of records with a key

A table kept as a list of records, each found by a key that no two records share: what changing,
removing and adding a record do to the partial function from keys to records. `swapRemove` moves the
last record into the gap.
-/

namespace KeyedList

open List

variable {K V : Type*} [DecidableEq K] (key : V → K)

def get? (l : List V) (k : K) : Option V :=
  l.find? fun v => key v = k

def update (l : List V) (k : K) (f : V → V) : List V :=
  l.map fun v => if key v = k then f v else v

def erase (l : List V) (k : K) : List V :=
  l.filter fun v => key v ≠ k

/-- Change the record with key `k`; when there is none, put a changed blank one to the front. -/
def insertOrUpdate (l : List V) (k : K) (blank : V) (f : V → V) : List V :=
  if (get? key l k).isSome then update key l k f else f blank :: l

variable {key} {l : List V} {k k' : K} {v : V} {f : V → V}

theorem key_of_get? (h : get? key l k = some v) : key v = k := by
  simpa using find?_some h

theorem mem_of_get? (h : get? key l k = some v) : v ∈ l :=
  mem_of_find?_eq_some h

theorem get?_eq_none_iff : get? key l k = none ↔ ∀ v ∈ l, key v ≠ k := by
  simp [get?]

theorem get?_eq_none_iff_notMem : get? key l k = none ↔ k ∉ l.map key := by
  simp [get?_eq_none_iff]

theorem isSome_get?_iff : (get? key l k).isSome ↔ k ∈ l.map key := by
  rw [← not_iff_not, Option.not_isSome_iff_eq_none, get?_eq_none_iff_notMem]

theorem map_key_update_of_key_eq (hf : ∀ v, key v = k → key (f v) = k) :
    (update key l k f).map key = l.map key := by
  rw [update, map_map]
  refine map_congr_left fun v _ => ?_
  by_cases h : key v = k
  · simp [h, hf v h]
  · simp [h]

section

variable (hf : ∀ v, key (f v) = key v)

include hf

theorem map_key_update : (update key l k f).map key = l.map key :=
  map_key_update_of_key_eq fun v hv => (hf v).trans hv

theorem get?_update :
    get? key (update key l k f) k' = if k' = k then (get? key l k).map f else get? key l k' := by
  induction l with
  | nil => simp [get?, update]
  | cons v l ih =>
    simp only [get?, update, map_cons] at ih ⊢
    by_cases hv : key v = k
    · by_cases hk : k' = k
      · simp [hv, hk, hf]
      · have : k ≠ k' := Ne.symm hk
        simpa [hv, hk, hf, this] using ih
    · by_cases hk : key v = k'
      · subst hk
        simp [hv]
      · simpa [hv, hk] using ih

theorem get?_update_self : get? key (update key l k f) k = (get? key l k).map f := by
  rw [get?_update hf, if_pos rfl]

theorem get?_insertOrUpdate_self {blank : V} (hblank : key blank = k) :
    get? key (insertOrUpdate key l k blank f) k = some (f ((get? key l k).getD blank)) := by
  unfold insertOrUpdate
  cases h : get? key l k with
  | none =>
    rw [if_neg (by simp), Option.getD_none, get?, find?_cons_of_pos]
    simp [hf, hblank]
  | some v =>
    rw [if_pos Option.isSome_some, get?_update_self hf, h]
    rfl

end

theorem get?_erase : get? key (erase key l k) k' = if k' = k then none else get? key l k' := by
  by_cases h : k' = k
  · subst h
    rw [if_pos rfl, get?_eq_none_iff]
    intro v hv
    simpa using (mem_filter.mp hv).2
  · rw [if_neg h, get?, erase, find?_filter, get?]
    congr 1
    funext v
    by_cases hv : key v = k' <;> simp [hv, h]

theorem erase_eq_self (h : k ∉ l.map key) : erase key l k = l := by
  rw [erase, filter_eq_self]
  intro v hv
  have hk : key v ≠ k := fun hk => h (hk ▸ mem_map_of_mem hv)
  simpa using hk

theorem erase_update_self (hf : ∀ v, key (f v) = key v) :
    erase key (update key l k f) k = erase key l k := by
  induction l with
  | nil => rfl
  | cons v l ih =>
    simp only [erase, update, map_cons] at ih ⊢
    by_cases hv : key v = k
    · simpa [hv, hf] using ih
    · simpa [hv] using ih

theorem get?_append_singleton (h : get? key l (key v) = none) :
    get? key (l ++ [v]) k' = if k' = key v then some v else get? key l k' := by
  rw [get?, find?_append]
  by_cases hk : k' = key v
  · subst hk
    rw [get?] at h
    simp [h]
  · have : key v ≠ k' := Ne.symm hk
    simp [hk, this, get?]

variable (hl : (l.map key).Nodup)

include hl

theorem get?_of_mem (h : v ∈ l) : get? key l (key v) = some v := by
  induction l with
  | nil => simp at h
  | cons w l ih =>
    rw [map_cons, nodup_cons] at hl
    rcases mem_cons.mp h with rfl | h
    · simp [get?]
    · have hne : key w ≠ key v := fun he => hl.1 (he ▸ mem_map_of_mem h)
      rw [get?, find?_cons_of_neg (by simpa using hne)]
      exact ih hl.2 h

theorem get?_eq_some_iff : get? key l k = some v ↔ v ∈ l ∧ key v = k :=
  ⟨fun h => ⟨mem_of_get? h, key_of_get? h⟩, fun ⟨hm, hk⟩ => hk ▸ get?_of_mem hl hm⟩

theorem get?_perm {l' : List V} (h : l.Perm l') : get? key l k = get? key l' k := by
  ext v
  rw [get?_eq_some_iff hl, get?_eq_some_iff ((h.map key).nodup_iff.mp hl), h.mem_iff]

theorem nodup_map_key_update (hf : ∀ v, key v = k → key (f v) = k) :
    ((update key l k f).map key).Nodup := by
  rwa [map_key_update_of_key_eq hf]

theorem nodup_map_key_insertOrUpdate {blank : V} (hf : ∀ v, key (f v) = key v)
    (hblank : key blank = k) :
    ((insertOrUpdate key l k blank f).map key).Nodup := by
  unfold insertOrUpdate
  split
  · rwa [map_key_update hf]
  next h =>
    rw [isSome_get?_iff] at h
    rw [map_cons, hf, hblank]
    exact nodup_cons.mpr ⟨h, hl⟩

theorem nodup_map_key_erase : ((erase key l k).map key).Nodup :=
  hl.sublist (filter_sublist.map key)

theorem perm_cons_erase (h : v ∈ l) : l.Perm (v :: erase key l (key v)) := by
  obtain ⟨before, after, rfl⟩ := append_of_mem h
  rw [map_append, map_cons] at hl
  have hv := (nodup_cons.mp (perm_middle.nodup_iff.mp hl)).1
  rw [mem_append, not_or] at hv
  have herase : erase key (before ++ v :: after) (key v) = before ++ after := by
    rw [← erase_eq_self hv.1, ← erase_eq_self hv.2]
    simp [erase]
  rw [herase]
  exact perm_middle

theorem perm_update (h : get? key l k = some v) :
    (update key l k f).Perm (f v :: erase key l k) := by
  obtain rfl := key_of_get? h
  have hcongr : ∀ w ∈ erase key l (key v), (if key w = key v then f w else w) = w := fun w hw =>
    if_neg (by simpa using (mem_filter.mp hw).2)
  refine ((perm_cons_erase hl (mem_of_get? h)).map _).trans ?_
  rw [map_cons, if_pos rfl, map_congr_left hcongr, map_id']

theorem eraseP_eq_erase : l.eraseP (fun v => key v = k) = erase key l k := by
  induction l with
  | nil => rfl
  | cons w l ih =>
    rw [map_cons, nodup_cons] at hl
    by_cases hw : key w = k
    · rw [eraseP_cons_of_pos (by simpa using hw), erase,
        filter_cons_of_neg (by simpa using hw)]
      exact (erase_eq_self (hw ▸ hl.1)).symm
    · rw [eraseP_cons_of_neg (by simpa using hw), ih hl.2, erase, erase,
        filter_cons_of_pos (by simpa using hw)]

theorem nodup_map_key_append_singleton (h : get? key l (key v) = none) :
    ((l ++ [v]).map key).Nodup := by
  rw [map_append, map_singleton, nodup_append]
  refine ⟨hl, nodup_singleton _, ?_⟩
  rintro a ha b hb rfl
  obtain ⟨w, hw, hwa⟩ := mem_map.mp ha
  exact get?_eq_none_iff.mp h w hw (hwa.trans (mem_singleton.mp hb))

theorem nodup_map_key_cons (h : get? key l (key v) = none) : ((v :: l).map key).Nodup := by
  rw [map_cons, nodup_cons]
  exact ⟨get?_eq_none_iff_notMem.mp h, hl⟩

/-! ### Removal by moving the last record -/

/-- Overwrite position `i` with the last record and drop the last position. -/
def swapRemoveIdx (l : List V) (i : ℕ) : List V :=
  match l.getLast? with
  | none => []
  | some last => (l.set i last).dropLast

variable (key) in
/-- Remove the first record with key `k` by `swapRemoveIdx`. -/
def swapRemove (l : List V) (k : K) : List V :=
  match l.findIdx? fun v => key v = k with
  | none => l
  | some i => swapRemoveIdx l i

omit hl in
omit [DecidableEq K] in
theorem swapRemoveIdx_perm {i : ℕ} (h : i < l.length) :
    (swapRemoveIdx l i).Perm (l.eraseIdx i) := by
  induction l using List.reverseRecOn with
  | nil => simp at h
  | append_singleton l last _ =>
    rw [length_append, length_singleton] at h
    simp only [swapRemoveIdx, getLast?_concat]
    by_cases hi : i < l.length
    · rw [set_append_left _ _ hi, dropLast_concat, eraseIdx_append_of_lt_length hi]
      exact (set_perm_cons_eraseIdx hi last).trans (perm_append_singleton _ _).symm
    · obtain rfl : i = l.length := by omega
      simp [eraseIdx_append_of_length_le, set_append_right]

omit hl in
theorem swapRemove_perm : (swapRemove key l k).Perm (l.eraseP fun v => key v = k) := by
  rw [eraseP_eq_eraseIdx, swapRemove]
  split
  next h => rw [h]
  next i h =>
    rw [h]
    exact swapRemoveIdx_perm (findIdx?_eq_some_iff_getElem.mp h).1

theorem nodup_map_key_swapRemove : ((swapRemove key l k).map key).Nodup :=
  ((swapRemove_perm.map key).nodup_iff).mpr (hl.sublist (eraseP_sublist.map key))

end KeyedList
