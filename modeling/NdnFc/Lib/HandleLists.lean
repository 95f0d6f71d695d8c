import Mathlib.Data.List.Count
import NdnFc.Lib.KeyedList

/-!
# Lists of elements with handles

A family of lists holds elements under handles, numbers that stay the same while elements come and
go. The lists are indexed when an element is in a list under a handle exactly if an index says so.
Adding an element under a new handle and removing one by its handle keep the lists indexed.
-/

namespace HandleLists

open Function List

variable {T K : Type*} [DecidableEq T] [DecidableEq K]

/-- The index tells where each element is. All handles so far are below `next`. -/
structure Indexed (lists : T → List (ℕ × K)) (index : K → Option (T × ℕ)) (next : ℕ) : Prop where
  mem_iff : ∀ t handle k, (handle, k) ∈ lists t ↔ index k = some (t, handle)
  nodup : ∀ t, ((lists t).map Prod.fst).Nodup
  lt_next : ∀ t, ∀ node ∈ lists t, node.1 < next

variable {lists : T → List (ℕ × K)} {index : K → Option (T × ℕ)} {next : ℕ} {t : T} {k : K}

omit [DecidableEq T] [DecidableEq K] in
theorem indexed_nil : Indexed (fun _ : T => ([] : List (ℕ × K))) (fun _ => none) next where
  mem_iff := by simp
  nodup := by simp
  lt_next := by simp

theorem Indexed.push (h : Indexed lists index next) (hk : index k = none) (t : T) :
    Indexed (update lists t (lists t ++ [(next, k)]))
      (update index k (some (t, next))) (next + 1) where
  mem_iff t' handle k' := by
    by_cases ht : t' = t
    · subst ht
      rw [update_self, mem_append, mem_singleton, h.mem_iff]
      by_cases hk' : k' = k
      · subst hk'
        rw [update_self, hk]
        simp [eq_comm]
      · rw [update_of_ne hk']
        simp [hk']
    · rw [update_of_ne ht, h.mem_iff]
      by_cases hk' : k' = k
      · subst hk'
        rw [update_self, hk]
        simp [Ne.symm ht]
      · rw [update_of_ne hk']
  nodup t' := by
    by_cases ht : t' = t
    · subst ht
      rw [update_self, map_append, map_singleton, ← concat_eq_append]
      refine (h.nodup t').concat fun hmem => ?_
      obtain ⟨node, hnode, hnext⟩ := mem_map.mp hmem
      exact absurd (h.lt_next t' node hnode) (hnext ▸ Nat.lt_irrefl next)
    · rw [update_of_ne ht]
      exact h.nodup t'
  lt_next t' node hnode := by
    by_cases ht : t' = t
    · subst ht
      rw [update_self, mem_append, mem_singleton] at hnode
      rcases hnode with hnode | rfl
      · exact Nat.lt_succ_of_lt (h.lt_next t' node hnode)
      · exact Nat.lt_succ_self next
    · rw [update_of_ne ht] at hnode
      exact Nat.lt_succ_of_lt (h.lt_next t' node hnode)

theorem Indexed.remove (h : Indexed lists index next) {handle : ℕ}
    (hk : index k = some (t, handle)) :
    Indexed (update lists t (KeyedList.erase Prod.fst (lists t) handle))
      (update index k none) next where
  mem_iff t' handle' k' := by
    have hsame : index k' = some (t, handle) → k' = k := by
      intro hk'
      exact congrArg Prod.snd (inj_on_of_nodup_map (h.nodup t)
        ((h.mem_iff t handle k').mpr hk') ((h.mem_iff t handle k).mpr hk) rfl)
    by_cases ht : t' = t
    · subst ht
      rw [update_self, KeyedList.erase, mem_filter, h.mem_iff, decide_eq_true_eq]
      by_cases hk' : k' = k
      · subst hk'
        rw [update_self, hk]
        simp +contextual [eq_comm]
      · rw [update_of_ne hk', and_iff_left_iff_imp]
        rintro hindex rfl
        exact hk' (hsame hindex)
    · rw [update_of_ne ht, h.mem_iff]
      by_cases hk' : k' = k
      · subst hk'
        rw [update_self, hk]
        simp [Ne.symm ht]
      · rw [update_of_ne hk']
  nodup t' := by
    by_cases ht : t' = t
    · subst ht
      rw [update_self]
      exact KeyedList.nodup_map_key_erase (h.nodup t')
    · rw [update_of_ne ht]
      exact h.nodup t'
  lt_next t' node hnode := by
    by_cases ht : t' = t
    · subst ht
      rw [update_self] at hnode
      exact h.lt_next t' node (mem_of_mem_filter hnode)
    · rw [update_of_ne ht] at hnode
      exact h.lt_next t' node hnode

section

omit [DecidableEq T] [DecidableEq K]

theorem Indexed.mem_map_snd_iff (h : Indexed lists index next) :
    k ∈ (lists t).map Prod.snd ↔ ∃ handle, index k = some (t, handle) := by
  simp only [mem_map, Prod.exists, exists_eq_right, h.mem_iff]

theorem Indexed.nodup_map_snd (h : Indexed lists index next) : ((lists t).map Prod.snd).Nodup := by
  have hnodup : (lists t).Nodup := (h.nodup t).of_map
  refine (nodup_map_iff_inj_on hnodup).mpr ?_
  rintro ⟨handle, k⟩ hnode ⟨handle', k'⟩ hnode' (rfl : k = k')
  rw [h.mem_iff] at hnode hnode'
  obtain rfl : handle = handle' := congrArg Prod.snd (Option.some.inj (hnode.symm.trans hnode'))
  rfl

theorem Indexed.count_map_snd [BEq K] [LawfulBEq K] (h : Indexed lists index next) (t : T) (k : K) :
    ((lists t).map Prod.snd).count k = if k ∈ (lists t).map Prod.snd then 1 else 0 := by
  split_ifs with hk
  · exact count_eq_one_of_mem h.nodup_map_snd hk
  · exact count_eq_zero_of_not_mem hk

end

end HandleLists
