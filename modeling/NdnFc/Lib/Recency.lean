import Mathlib.Data.List.Nodup
import Mathlib.Data.List.Pairwise

/-!
# Queues in order of last use

`Recency.Before history a b` says that the last use of `b` is later than every use of `a`. A queue
that moves an element to its end at each use stays in this order (`Recency.pairwise_relocate`,
`Recency.pairwise_concat`).
-/

namespace Recency

variable {α : Type*} {history : List α} {a b k : α} {queue : List α}

/-- From some point of the history on, `b` was used and `a` was not. -/
def Before (history : List α) (a b : α) : Prop :=
  ∃ early late, history = early ++ late ∧ a ∉ late ∧ b ∈ late

theorem Before.concat (h : Before history a b) (hk : a ≠ k) : Before (history ++ [k]) a b := by
  obtain ⟨early, late, rfl, ha, hb⟩ := h
  exact ⟨early, late ++ [k], List.append_assoc .., by simp [ha, hk], by simp [hb]⟩

theorem pairwise_concat (h : queue.Pairwise (Before history)) (hk : k ∉ queue) :
    (queue ++ [k]).Pairwise (Before (history ++ [k])) := by
  have hne : ∀ a ∈ queue, a ≠ k := fun a ha hak => hk (hak ▸ ha)
  rw [List.pairwise_append]
  refine ⟨h.imp_of_mem fun ha _ hab => hab.concat (hne _ ha), List.pairwise_singleton _ _, ?_⟩
  intro a ha b hb
  obtain rfl := List.mem_singleton.mp hb
  exact ⟨history, [b], rfl, by simpa using hne a ha, by simp⟩

theorem pairwise_relocate [BEq α] [LawfulBEq α] (h : queue.Pairwise (Before history))
    (hnodup : queue.Nodup) :
    (queue.erase k ++ [k]).Pairwise (Before (history ++ [k])) :=
  pairwise_concat (h.sublist List.erase_sublist) hnodup.not_mem_erase

end Recency
