import NdnFc.Rib.RibContents

/-!
# The capture count and the face index of the RIB

An entry counts its routes with the capture flag, and an index of the RIB holds a pair for each
entry with a route on a face. The count is not changed when a route is replaced by one with another
flag, and the index gets a further pair when an entry gets another route on a face.
-/

namespace NdnFc

open List KeyedList Run

namespace RibEntry

variable {e : RibEntry} {r existing : Route}

theorem perm_replaceRoute (hkeys : (e.routes.map Route.key).Nodup)
    (hfound : e.findRoute r = some existing) :
    (e.replaceRoute r).routes.Perm (r :: erase Route.key e.routes r.key) :=
  perm_update hkeys hfound

theorem perm_of_findRoute (hkeys : (e.routes.map Route.key).Nodup)
    (hfound : e.findRoute r = some existing) :
    e.routes.Perm (existing :: (e.eraseRoute existing).routes) :=
  perm_cons_erase hkeys (mem_of_get? hfound)

/-! ### The count of the routes with the capture flag -/

/-- The count is the number of the routes with the flag. -/
def CountsCapture (e : RibEntry) : Prop :=
  e.nRoutesWithCaptureSet.toNat = e.routes.countP Route.isRibCapture

theorem CountsCapture.hasCapture_iff (h : e.CountsCapture) :
    e.hasCapture = true ↔ ∃ r ∈ e.routes, r.isRibCapture = true := by
  rw [hasCapture, decide_eq_true_iff, UInt64.lt_iff_toNat_lt, h, ← countP_pos_iff]
  rfl

end RibEntry

namespace Rib

variable {rib : Rib} {e : RibEntry}

/-- An insertion that replaces a route keeps its capture flag, and one of a new route does not
overflow the count. -/
def Op.KeepsCapture (e : RibEntry) : Op → Prop
  | insert _ r =>
    match e.findRoute r with
    | some existing => r.isRibCapture = existing.isRibCapture
    | none => r.isRibCapture = true → e.routes.countP Route.isRibCapture + 1 < 2 ^ 64
  | erase _ _ => True

theorem countsCapture_apply_iff (op : Op) (hkeys : (e.routes.map Route.key).Nodup)
    (h : e.CountsCapture) : (op.apply e).CountsCapture ↔ op.KeepsCapture e := by
  have hcount : e.nRoutesWithCaptureSet.toNat = e.routes.countP Route.isRibCapture := h
  cases op with
  | insert n r =>
    rw [Op.apply, Op.KeepsCapture]
    cases hfound : e.findRoute r with
    | some existing =>
      have hold := (RibEntry.perm_of_findRoute hkeys hfound).countP_eq Route.isRibCapture
      have hnew := (RibEntry.perm_replaceRoute hkeys hfound).countP_eq Route.isRibCapture
      rw [← key_of_get? hfound, countP_cons] at hnew
      rw [countP_cons] at hold
      have hcongr : (e.replaceRoute r).CountsCapture ↔
          e.nRoutesWithCaptureSet.toNat = (e.replaceRoute r).routes.countP Route.isRibCapture :=
        Iff.rfl
      rw [Option.isSome_some, if_pos rfl, hcongr, hcount, hold, hnew]
      cases r.isRibCapture <;> cases hexisting : existing.isRibCapture <;>
        simp [RibEntry.eraseRoute, hexisting]
    | none =>
      simp only [Option.isSome_none, Bool.false_eq_true, if_false, RibEntry.CountsCapture,
        RibEntry.insertRoute, countP_append, countP_singleton]
      cases r.isRibCapture <;> simp [hcount]
  | erase n r =>
    rw [Op.apply, Op.KeepsCapture, iff_true]
    cases hfound : e.findRoute r with
    | none => exact h
    | some existing =>
      have hold := (RibEntry.perm_of_findRoute hkeys hfound).countP_eq Route.isRibCapture
      rw [countP_cons] at hold
      have hnew : (e.eraseRoute existing).nRoutesWithCaptureSet =
        if existing.isRibCapture then e.nRoutesWithCaptureSet - 1 else e.nRoutesWithCaptureSet := rfl
      rw [RibEntry.CountsCapture, hnew]
      split_ifs with hcapture
      · rw [if_pos hcapture] at hold
        have hle : 1 ≤ e.nRoutesWithCaptureSet := by
          rw [UInt64.le_iff_toNat_le, hcount, hold]
          exact Nat.le_add_left 1 _
        rw [UInt64.toNat_sub_of_le _ _ hle, hcount, hold]
        exact Nat.add_sub_cancel _ 1
      · rw [if_neg hcapture] at hold
        exact hcount.trans hold

/-- The capture counts, and what `hasCapture` says, are right throughout a run exactly when no update
of a route changes its capture flag. -/
theorem capture_run_iff (ops : List Op) :
    (∀ front, front <+: ops → ∀ e ∈ (run step empty front).entries,
      e.nRoutesWithCaptureSet.toNat = e.routes.countP Route.isRibCapture ∧
        (e.hasCapture = true ↔ ∃ r ∈ e.routes, r.isRibCapture = true)) ↔
      Meets step (fun rib op => op.KeepsCapture (rib.slot op.name)) empty ops := by
  have hinv : ∀ rib : Rib, (∀ e ∈ rib.entries, e.CountsCapture) ↔ ∀ e ∈ rib.entries,
      e.nRoutesWithCaptureSet.toNat = e.routes.countP Route.isRibCapture ∧
        (e.hasCapture = true ↔ ∃ r ∈ e.routes, r.isRibCapture = true) := fun rib =>
    forall₂_congr fun e _ => ⟨fun h => ⟨h, h.hasCapture_iff⟩, fun h => h.1⟩
  simp only [← hinv]
  refine invariant_iff_meets_of Sound (fun rib => ∀ e ∈ rib.entries, e.CountsCapture)
    (fun _ op h => h.step op) (fun rib op h hcounts => ?_) sound_empty
    fun _ he => (not_mem_nil he).elim
  have hslot : (rib.slot op.name).CountsCapture := by
    cases hfind : rib.find op.name with
    | none => rw [slot_of_not hfind]; rfl
    | some e =>
      rw [slot_of_find hfind]
      exact hcounts e (mem_of_get? hfind)
  have hkeys := (h.slots_slot op.name).keys _ mem_cons_self
  rw [← countsCapture_apply_iff op hkeys hslot]
  constructor
  · intro hstep
    cases op with
    | insert n r => exact hstep _ ((h.mem_step_iff _).mpr (.inl ⟨rfl, Op.insert_apply_ne_nil⟩))
    | erase n r => exact (countsCapture_apply_iff (.erase n r) hkeys hslot).mpr trivial
  · intro happly e he
    rcases (h.mem_step_iff op).mp he with ⟨rfl, -⟩ | ⟨-, he⟩
    · exact happly
    · exact hcounts e he

/-- A route is replaced by one without the flag, which the count does not notice. -/
theorem capture_run_replaced :
    ¬ ∀ e ∈ (run step empty [.insert [] ⟨1, 0, 0, 2⟩, .insert [] ⟨1, 0, 0, 0⟩]).entries,
      e.nRoutesWithCaptureSet.toNat = e.routes.countP Route.isRibCapture ∧
        (e.hasCapture = true ↔ ∃ r ∈ e.routes, r.isRibCapture = true) := by
  decide

/-! ### The index of the faces -/

/-- The updates that `enqueueRemoveFace` queues, each with the name and the route. -/
def enqueueRemoveFace (e : RibEntry) (faceId : ℕ) : List (Name × Route) :=
  (e.routes.filter fun r => r.faceId = faceId).map fun r => (e.name, r)

/-- The updates that `beginRemoveFace` queues. An entry that is not in the RIB any more has no routes,
but the index may refer to it. -/
def beginRemoveFace (rib : Rib) (faceId : ℕ) : List (Name × Route) :=
  (rib.faceEntries.filter fun pair => pair.1 = faceId).flatMap fun pair =>
    match get? RibEntry.address rib.entries pair.2 with
    | some e => enqueueRemoveFace e faceId
    | none => []

/-- How often the index has to contain a pair of a face and an entry. -/
def expected (rib : Rib) (f a : ℕ) : ℕ :=
  if ∃ e ∈ rib.entries, e.address = a ∧ e.hasFaceId f = true then 1 else 0

/-- An insertion of a new route is on a face on which the entry has no route. -/
def Op.OnNewFace (e : RibEntry) : Op → Prop
  | insert _ r => e.findRoute r = none → e.hasFaceId r.faceId = false
  | erase _ _ => True

theorem hasFaceId_eq_of_perm {e' : RibEntry} {r : Route} {l : List Route}
    (h : e'.routes.Perm (r :: l)) (f : ℕ) :
    e'.hasFaceId f = (r.faceId == f || l.any fun r => r.faceId == f) := by
  rw [RibEntry.hasFaceId, h.any_eq, any_cons]

variable {pairs : List (ℕ × ℕ)}

theorem index_apply_iff (op : Op) (hkeys : (e.routes.map Route.key).Nodup)
    (h : ∀ f, pairs.count (f, e.address) = if e.hasFaceId f then 1 else 0) :
    (∀ f, (op.index e pairs).count (f, e.address) = if (op.apply e).hasFaceId f then 1 else 0) ↔
      op.OnNewFace e := by
  cases op with
  | insert n r =>
    rw [Op.apply, Op.index, Op.OnNewFace]
    cases hfound : e.findRoute r with
    | some existing =>
      have hkey : existing.faceId = r.faceId := congrArg Prod.fst (key_of_get? hfound)
      have hsame : ∀ f, (e.replaceRoute r).hasFaceId f = e.hasFaceId f := by
        intro f
        rw [hasFaceId_eq_of_perm (RibEntry.perm_replaceRoute hkeys hfound),
          hasFaceId_eq_of_perm (RibEntry.perm_of_findRoute hkeys hfound), hkey,
          ← key_of_get? hfound]
        rfl
      simpa [hsame] using h
    | none =>
      have hnew : ∀ f, (e.insertRoute r).hasFaceId f = (e.hasFaceId f || r.faceId == f) := by
        intro f
        simp [RibEntry.hasFaceId, RibEntry.insertRoute]
      simp only [Option.isSome_none, Bool.false_eq_true, if_false, count_append, h, hnew,
        forall_const]
      constructor
      · intro hall
        have hface := hall r.faceId
        cases hold : e.hasFaceId r.faceId
        · rfl
        · simp [hold] at hface
      · intro hface f
        by_cases hf : r.faceId = f
        · subst hf
          simp [hface]
        · simp [hf]
  | erase n r =>
    rw [Op.apply, Op.index, Op.OnNewFace, iff_true]
    cases hfound : e.findRoute r with
    | none => exact h
    | some existing =>
      have hkey : existing.faceId = r.faceId := congrArg Prod.fst (key_of_get? hfound)
      intro f
      have hold := hasFaceId_eq_of_perm (RibEntry.perm_of_findRoute hkeys hfound) f
      have hcount := h f
      rw [hkey] at hold
      change e.hasFaceId f = (r.faceId == f || (e.eraseRoute existing).hasFaceId f) at hold
      by_cases hf : r.faceId = f
      · subst hf
        cases hleft : (e.eraseRoute existing).hasFaceId r.faceId <;> simp_all
      · have hne : (f, e.address) ≠ (r.faceId, e.address) := fun heq =>
          hf (congrArg Prod.fst heq).symm
        have hsame : (e.eraseRoute existing).hasFaceId f = e.hasFaceId f := by simp [hold, hf]
        rw [hsame, ← hcount]
        dsimp only
        split_ifs
        · rfl
        · exact count_erase_of_ne hne

theorem count_index_of_ne (op : Op) {f a : ℕ} (ha : a ≠ e.address) :
    (op.index e pairs).count (f, a) = pairs.count (f, a) := by
  have hne : ∀ g, (f, a) ≠ (g, e.address) := fun g heq => ha (congrArg Prod.snd heq)
  cases op with
  | insert n r =>
    rw [Op.index]
    split_ifs
    · rfl
    · rw [count_append, count_singleton, if_neg (by simpa using (hne r.faceId).symm),
        Nat.add_zero]
  | erase n r =>
    rw [Op.index]
    split
    · split_ifs
      · rfl
      · exact count_erase_of_ne (hne r.faceId)
    · rfl

theorem expected_eq {l : List RibEntry} {k : ℕ} (hslots : Slots (e :: l) k)
    (hcontents : rib.entries.Perm (shown e ++ l)) (f a : ℕ) :
    rib.expected f a = if a = e.address then if e.hasFaceId f then 1 else 0
      else if ∃ x ∈ l, x.address = a ∧ x.hasFaceId f = true then 1 else 0 := by
  have hface : e.hasFaceId f = true → e.routes ≠ [] := by
    intro hf hnil
    rw [RibEntry.hasFaceId, hnil] at hf
    cases hf
  have hiff : (∃ x ∈ rib.entries, x.address = a ∧ x.hasFaceId f = true) ↔
      (e.address = a ∧ e.hasFaceId f = true) ∨ ∃ x ∈ l, x.address = a ∧ x.hasFaceId f = true := by
    simp only [hcontents.mem_iff, mem_append, mem_shown]
    constructor
    · rintro ⟨x, ⟨rfl, -⟩ | hx, h⟩
      · exact .inl h
      · exact .inr ⟨x, hx, h⟩
    · rintro (⟨ha, hf⟩ | ⟨x, hx, h⟩)
      · exact ⟨e, .inl ⟨rfl, hface hf⟩, ha, hf⟩
      · exact ⟨x, .inr hx, h⟩
  have hnot : a = e.address → ¬ ∃ x ∈ l, x.address = a ∧ x.hasFaceId f = true := by
    rintro rfl ⟨x, hx, hxa, -⟩
    exact (nodup_cons.mp hslots.addresses).1 (mem_map.mpr ⟨x, hx, hxa⟩)
  rw [expected]
  by_cases ha : a = e.address
  · subst ha
    simp [hiff, hnot rfl]
  · simp [hiff, ha, Ne.symm ha]

theorem Sound.index_step_iff (h : rib.Sound) (op : Op)
    (hindex : ∀ f a, rib.faceEntries.count (f, a) = rib.expected f a) :
    (∀ f a, (rib.step op).faceEntries.count (f, a) = (rib.step op).expected f a) ↔
      op.OnNewFace (rib.slot op.name) := by
  have hold := expected_eq (h.slots_slot op.name) (h.contents op.name)
  have hnew := expected_eq (h.slots_step op) (effect h op).contents
  simp only [hold] at hindex
  have hslot : ∀ f, rib.faceEntries.count (f, (rib.slot op.name).address) = _ := fun f =>
    (hindex f _).trans (if_pos rfl)
  have hkeys := (h.slots_slot op.name).keys _ mem_cons_self
  rw [← index_apply_iff op hkeys hslot]
  simp only [hnew, (effect h op).faceEntries, op.address_apply]
  constructor
  · intro hall f
    exact (hall f _).trans (if_pos rfl)
  · intro hall f a
    by_cases ha : a = (rib.slot op.name).address
    · subst ha
      exact (hall f).trans (if_pos rfl).symm
    · rw [count_index_of_ne op ha, hindex, if_neg ha, if_neg ha]

theorem Sound.perm_beginRemoveFace (h : rib.Sound)
    (hindex : ∀ f a, rib.faceEntries.count (f, a) = rib.expected f a) (f : ℕ) :
    (rib.beginRemoveFace f).Perm (rib.entries.flatMap fun e => enqueueRemoveFace e f) := by
  have hnodup := h.slots.addresses
  have hpairs : (rib.faceEntries.filter fun pair => pair.1 = f).Perm
      ((rib.entries.filter (·.hasFaceId f)).map fun e => (f, e.address)) := by
    have hright : ((rib.entries.filter (·.hasFaceId f)).map fun e => (f, e.address)).Nodup := by
      have hsub := hnodup.sublist ((filter_sublist (p := (·.hasFaceId f))).map RibEntry.address)
      have hmap := hsub.map (Prod.mk_right_injective f)
      rwa [map_map] at hmap
    refine perm_iff_count.mpr fun ⟨g, a⟩ => ?_
    rw [hright.count]
    by_cases hg : g = f
    · subst hg
      rw [count_filter (by simp), hindex, expected]
      exact if_congr (by simp [and_comm, and_left_comm]) rfl rfl
    · rw [count_eq_zero_of_not_mem (by simp [hg]), if_neg (by simp [Ne.symm hg])]
  refine (hpairs.flatMap_right _).trans (.of_eq ?_)
  rw [flatMap_map]
  have hget : ∀ e ∈ rib.entries.filter (·.hasFaceId f),
      get? RibEntry.address rib.entries e.address = some e :=
    fun e he => get?_of_mem hnodup (mem_of_mem_filter he)
  rw [flatMap_congr fun e he => by rw [hget e he]]
  -- the entries without a route on the face queue nothing
  induction rib.entries with
  | nil => rfl
  | cons e l ih =>
    rw [filter_cons, flatMap_cons, ← ih]
    split_ifs with hface
    · rfl
    · have hnone : enqueueRemoveFace e f = [] := by
        simpa [enqueueRemoveFace, RibEntry.hasFaceId] using hface
      rw [hnone, nil_append]

/-- The index and the updates for the removal of a face are right throughout a run exactly when
every new route is on a face on which its entry has no route. -/
theorem index_run_iff (ops : List Op) :
    (∀ front, front <+: ops →
      (∀ f a, (run step empty front).faceEntries.count (f, a) =
        if ∃ e ∈ (run step empty front).entries, e.address = a ∧ e.hasFaceId f = true then 1
          else 0) ∧
      ∀ f, ((run step empty front).beginRemoveFace f).Perm
        ((run step empty front).entries.flatMap fun e => enqueueRemoveFace e f)) ↔
      Meets step (fun rib op => op.OnNewFace (rib.slot op.name)) empty ops := by
  rw [← invariant_iff_meets_of Sound
    (fun rib => ∀ f a, rib.faceEntries.count (f, a) = rib.expected f a) (fun _ op h => h.step op)
    (fun rib op h hindex => h.index_step_iff op hindex) sound_empty (fun _ _ => rfl)]
  refine forall₂_congr fun front _ => ⟨fun h => h.1, fun h => ⟨h, fun f => ?_⟩⟩
  exact (sound_run front).perm_beginRemoveFace h f

/-- With routes of two origins on a face, the index has the pair twice, each route is removed twice,
and after that a pair of an entry outside the RIB is left. -/
theorem index_run_origins :
    let two : List Op := [.insert [] ⟨1, 0, 0, 0⟩, .insert [] ⟨1, 1, 0, 0⟩]
    let erased : List Op := two ++ [.erase [] ⟨1, 0, 0, 0⟩, .erase [] ⟨1, 1, 0, 0⟩]
    ¬ (∀ f a, (run step empty two).faceEntries.count (f, a) =
        if ∃ e ∈ (run step empty two).entries, e.address = a ∧ e.hasFaceId f = true then 1
          else 0) ∧
      ¬ ((run step empty two).beginRemoveFace 1).Perm
        ((run step empty two).entries.flatMap fun e => enqueueRemoveFace e 1) ∧
      (run step empty erased).entries = [] ∧
      (run step empty erased).faceEntries = [(1, 0)] :=
  ⟨fun h => absurd (h 1 0) (by decide), by decide, by decide, by decide⟩

end Rib

end NdnFc
