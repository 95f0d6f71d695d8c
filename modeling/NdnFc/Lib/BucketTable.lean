import Mathlib.Data.List.Basic
import Mathlib.Data.List.Flatten

/-!
# Hash tables with chaining

A table is a list of buckets of nodes. A node belongs to the bucket that its hash gives modulo the
number of buckets (`BucketTable.Placed`). Resizing attaches all nodes anew. Hash values may
coincide.
-/

namespace BucketTable

open List

variable {ν : Type*} (hash : ν → ℕ) (buckets : List (List ν))

def bucket (h : ℕ) : List ν :=
  buckets.getD (h % buckets.length) []

def attach (v : ν) : List (List ν) :=
  buckets.modify (hash v % buckets.length) (v :: ·)

/-- Take the nodes with a property out of the bucket of a hash value. -/
def detach (p : ν → Bool) (buckets : List (List ν)) (h : ℕ) : List (List ν) :=
  buckets.modify (h % buckets.length) (·.filter fun v => !p v)

/-- Attach all nodes anew to the given number of buckets. -/
def resize (n : ℕ) : List (List ν) :=
  if buckets.length = n then buckets
  else buckets.flatten.foldl (attach hash) (replicate n [])

/-- There is a bucket, and every node is in the bucket of its hash. -/
structure Placed (buckets : List (List ν)) : Prop where
  length_pos : 0 < buckets.length
  mod_eq : ∀ i b, buckets[i]? = some b → ∀ v ∈ b, hash v % buckets.length = i

variable {hash} {buckets : List (List ν)} {v w : ν} {h : ℕ}

theorem Placed.mem_bucket_iff (hp : Placed hash buckets) :
    v ∈ bucket buckets h ↔ v ∈ buckets.flatten ∧ hash v % buckets.length = h % buckets.length := by
  have hlt : h % buckets.length < buckets.length := Nat.mod_lt _ hp.length_pos
  rw [bucket, getD_eq_getElem?_getD, getElem?_eq_getElem hlt, Option.getD_some,
    mem_flatten]
  constructor
  · intro hv
    exact ⟨⟨_, getElem_mem hlt, hv⟩, hp.mod_eq _ _ (getElem?_eq_getElem hlt) v hv⟩
  · rintro ⟨⟨b, hb, hv⟩, hmod⟩
    obtain ⟨i, hi⟩ := mem_iff_getElem?.mp hb
    have hi' := hp.mod_eq i b hi v hv
    rw [hmod] at hi'
    subst hi'
    rw [getElem?_eq_getElem hlt] at hi
    rwa [Option.some.inj hi]

@[simp] theorem length_attach : (attach hash buckets v).length = buckets.length :=
  length_modify ..

variable {p : ν → Bool}

theorem exists_modify_eq {f : List ν → List ν} {i : ℕ} (hi : i < buckets.length) :
    ∃ before b after, buckets = before ++ b :: after ∧ before.length = i ∧
      buckets.modify i f = before ++ f b :: after := by
  refine ⟨buckets.take i, buckets[i], buckets.drop (i + 1), ?_, ?_, ?_⟩
  · rw [getElem_cons_drop, take_append_drop]
  · rw [length_take, Nat.min_eq_left (Nat.le_of_lt hi)]
  · rw [modify_eq_take_cons_drop hi]

theorem flatten_attach_perm (hpos : 0 < buckets.length) :
    (attach hash buckets v).flatten.Perm (v :: buckets.flatten) := by
  obtain ⟨before, b, after, hb, -, hmodify⟩ :=
    exists_modify_eq (f := (v :: ·)) (Nat.mod_lt (hash v) hpos)
  rw [attach, hmodify, hb]
  simp only [flatten_append, flatten_cons, cons_append]
  exact perm_middle

section

variable (hp : Placed hash buckets)

include hp

theorem Placed.modify {k : ℕ} {f : List ν → List ν}
    (hf : ∀ b, ∀ w ∈ f b, w ∈ b ∨ hash w % buckets.length = k) :
    Placed hash (buckets.modify k f) where
  length_pos := by rw [length_modify]; exact hp.length_pos
  mod_eq i b hb w hw := by
    rw [length_modify]
    rw [getElem?_modify] at hb
    split at hb
    next hi =>
      subst hi
      obtain ⟨b', hb', rfl⟩ := Option.map_eq_some_iff.mp hb
      rcases hf b' w hw with hw | hw
      · exact hp.mod_eq _ b' hb' w hw
      · exact hw
    next => exact hp.mod_eq i b (by simpa using hb) w hw

theorem Placed.attach (v : ν) : Placed hash (attach hash buckets v) := by
  refine hp.modify fun b w hw => ?_
  rcases mem_cons.mp hw with rfl | hw
  · exact .inr rfl
  · exact .inl hw

theorem flatten_detach
    (hall : ∀ v ∈ buckets.flatten, p v → hash v % buckets.length = h % buckets.length) :
    (detach p buckets h).flatten = buckets.flatten.filter fun v => !p v := by
  obtain ⟨before, b, after, hb, hlen, hmodify⟩ :=
    exists_modify_eq (f := (·.filter fun v => !p v)) (Nat.mod_lt h hp.length_pos)
  -- The other buckets hold no node with the property.
  have hother : ∀ i c, i ≠ before.length → buckets[i]? = some c →
      c.filter (fun v => !p v) = c := by
    intro i c hi hc
    rw [filter_eq_self]
    intro v hv
    rw [Bool.not_eq_true', ← Bool.not_eq_true]
    intro hpv
    have hmod := hp.mod_eq i c hc v hv
    rw [hall v (mem_flatten.mpr ⟨c, mem_of_getElem? hc, hv⟩) hpv, ← hlen] at hmod
    exact hi hmod.symm
  have hbefore : before.map (filter fun v => !p v) = before := by
    refine (map_congr_left fun c hc => ?_).trans (map_id _)
    obtain ⟨i, hi, rfl⟩ := mem_iff_getElem.mp hc
    refine hother i _ (Nat.ne_of_lt hi) ?_
    rw [hb, getElem?_append_left hi, getElem?_eq_getElem hi]
  have hafter : after.map (filter fun v => !p v) = after := by
    refine (map_congr_left fun c hc => ?_).trans (map_id _)
    obtain ⟨i, hi, rfl⟩ := mem_iff_getElem.mp hc
    refine hother (before.length + (i + 1)) _ (by omega) ?_
    rw [hb, getElem?_append_right (Nat.le_add_right _ _), Nat.add_sub_cancel_left,
      getElem?_cons_succ, getElem?_eq_getElem hi]
  rw [detach, hmodify, hb, filter_flatten, map_append, map_cons, hbefore, hafter]

theorem Placed.detach : Placed hash (detach p buckets h) :=
  hp.modify fun _ _ hw => .inl (mem_of_mem_filter hw)

omit hp in
variable (hash) in
theorem placed_replicate {n : ℕ} (hn : 0 < n) : Placed hash (replicate n ([] : List ν)) where
  length_pos := by rwa [length_replicate]
  mod_eq i b hb v hv := by
    rw [eq_of_mem_replicate (mem_of_getElem? hb)] at hv
    cases hv

theorem Placed.foldl_attach (l : List ν) :
    Placed hash (l.foldl (BucketTable.attach hash) buckets) ∧
      (l.foldl (BucketTable.attach hash) buckets).flatten.Perm (l ++ buckets.flatten) ∧
      (l.foldl (BucketTable.attach hash) buckets).length = buckets.length := by
  induction l generalizing buckets with
  | nil => exact ⟨hp, .rfl, rfl⟩
  | cons v l ih =>
    obtain ⟨hplaced, hperm, hlen⟩ := ih (hp.attach v)
    refine ⟨hplaced, hperm.trans ?_, hlen.trans length_attach⟩
    exact ((flatten_attach_perm hp.length_pos).append_left l).trans perm_middle

theorem Placed.resize {n : ℕ} (hn : 0 < n) :
    Placed hash (resize hash buckets n) ∧ (resize hash buckets n).flatten.Perm buckets.flatten ∧
      (resize hash buckets n).length = n := by
  unfold BucketTable.resize
  split
  next heq => exact ⟨hp, .rfl, heq⟩
  next =>
    obtain ⟨hplaced, hperm, hlen⟩ :=
      (placed_replicate hash hn).foldl_attach buckets.flatten
    refine ⟨hplaced, ?_, by rw [hlen, length_replicate]⟩
    simpa using hperm

theorem Placed.map {f : ν → ν} (hf : ∀ v, hash (f v) = hash v) :
    Placed hash (buckets.map (map f)) where
  length_pos := by rw [length_map]; exact hp.length_pos
  mod_eq i b hb v hv := by
    rw [length_map]
    rw [getElem?_map] at hb
    obtain ⟨b', hb', rfl⟩ := Option.map_eq_some_iff.mp hb
    obtain ⟨w, hw, rfl⟩ := mem_map.mp hv
    rw [hf]
    exact hp.mod_eq i b' hb' w hw

end

theorem flatten_map_map {f : ν → ν} : (buckets.map (map f)).flatten = buckets.flatten.map f :=
  map_flatten.symm

end BucketTable
