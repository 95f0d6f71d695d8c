import Mathlib.Data.List.Forall2

/-!
# Computations that may fail

Rules for taking apart a chain of `Except` computations: `Fallible.bind_eq_ok_iff` peels one step
off a chain that succeeded, and `Fallible.raises_bind_iff` finds the step at which a chain failed.
-/

namespace Fallible

open List

universe u v

variable {ε : Type u} {α β : Type v}

@[simp] theorem ok_bind (a : α) (f : α → Except ε β) : (Except.ok a >>= f) = f a := rfl

@[simp] theorem error_bind (e : ε) (f : α → Except ε β) :
    (Except.error e >>= f) = .error e := rfl

@[simp] theorem pure_eq_ok (a : α) : (pure a : Except ε α) = .ok a := rfl

@[simp] theorem throw_eq_error (e : ε) : (throw e : Except ε α) = .error e := rfl

variable {f : α → Except ε β} {x : Except ε α} {l : List α} {b : β}

theorem bind_eq_ok_iff : (x >>= f) = .ok b ↔ ∃ a, x = .ok a ∧ f a = .ok b := by
  cases x <;> simp

/-- The computation fails. -/
def Raises (x : Except ε α) : Prop :=
  ∃ e, x = .error e

@[simp] theorem not_raises_ok (a : α) : ¬Raises (.ok a : Except ε α) := by
  simp [Raises]

@[simp] theorem raises_error (e : ε) : Raises (.error e : Except ε α) :=
  ⟨e, rfl⟩

@[simp] theorem not_raises_ite_ok (c : Prop) [Decidable c] (a b : α) :
    ¬Raises (if c then .ok a else .ok b : Except ε α) := by
  split <;> simp

theorem raises_bind_iff : Raises (x >>= f) ↔ Raises x ∨ ∃ a, x = .ok a ∧ Raises (f a) := by
  cases x <;> simp

theorem not_raises_iff : ¬Raises x ↔ ∃ a, x = .ok a := by
  cases x <;> simp

variable {out : List β}

theorem mapM_eq_ok_iff : l.mapM f = .ok out ↔ List.Forall₂ (fun a b => f a = .ok b) l out := by
  induction l generalizing out with
  | nil =>
    rw [mapM_nil, pure_eq_ok, Except.ok.injEq, forall₂_nil_left_iff, eq_comm]
  | cons a l ih =>
    rw [mapM_cons, bind_eq_ok_iff]
    constructor
    · rintro ⟨b, hb, h⟩
      obtain ⟨rest, hrest, h⟩ := bind_eq_ok_iff.mp h
      cases h
      exact .cons hb (ih.mp hrest)
    · intro h
      cases h with
      | cons hb hrest => exact ⟨_, hb, bind_eq_ok_iff.mpr ⟨_, ih.mpr hrest, rfl⟩⟩

theorem exists_of_mem_mapM (h : l.mapM f = .ok out) (hb : b ∈ out) : ∃ a ∈ l, f a = .ok b := by
  have hall := mapM_eq_ok_iff.mp h
  clear h
  induction hall with
  | nil => simp at hb
  | cons ha _ ih =>
    rcases mem_cons.mp hb with rfl | hb
    · exact ⟨_, mem_cons_self, ha⟩
    · obtain ⟨a, hmem, hf⟩ := ih hb
      exact ⟨a, mem_cons_of_mem _ hmem, hf⟩

theorem exists_mapM_iff : (∃ out, l.mapM f = .ok out) ↔ ∀ a ∈ l, ∃ b, f a = .ok b := by
  constructor
  · rintro ⟨out, hout⟩ a ha
    have hall := mapM_eq_ok_iff.mp hout
    clear hout
    induction hall with
    | nil => simp at ha
    | cons hb _ ih =>
      rcases mem_cons.mp ha with rfl | ha
      · exact ⟨_, hb⟩
      · exact ih ha
  · intro h
    induction l with
    | nil => exact ⟨[], rfl⟩
    | cons a l ih =>
      obtain ⟨b, hb⟩ := h a mem_cons_self
      obtain ⟨out, hout⟩ := ih fun a' ha' => h a' (mem_cons_of_mem a ha')
      refine ⟨b :: out, ?_⟩
      rw [mapM_cons, hb, hout]
      rfl

end Fallible
