import Mathlib.Data.List.Basic

/-!
# Runs of a state machine

A state machine is a step function `step : S → A → S`. A run from a state is a list of actions. An
invariant that every step preserves, possibly under a condition on the state and the action, holds
after every run whose steps meet the condition.
-/

namespace Run

variable {S A : Type*} (step : S → A → S)

def run (s : S) (as : List A) : S :=
  as.foldl step s

/-- Every step of the run meets the condition in the state in which it is taken. -/
def Meets (cond : S → A → Prop) : S → List A → Prop
  | _, [] => True
  | s, a :: as => cond s a ∧ Meets cond (step s a) as

instance Meets.decidable (cond : S → A → Prop) [∀ s a, Decidable (cond s a)] :
    ∀ s as, Decidable (Meets step cond s as)
  | _, [] => .isTrue trivial
  | s, a :: as => @instDecidableAnd _ _ _ (Meets.decidable cond (step s a) as)

variable {step} {cond : S → A → Prop} {s : S} {as : List A}

@[simp] theorem run_nil : run step s [] = s := rfl

@[simp] theorem run_cons (a : A) : run step s (a :: as) = run step (step s a) as := rfl

theorem run_append (as bs : List A) : run step s (as ++ bs) = run step (run step s as) bs :=
  List.foldl_append

theorem meets_congr {cond' : S → A → Prop} (h : ∀ s a, cond s a ↔ cond' s a) :
    Meets step cond s as ↔ Meets step cond' s as := by
  induction as generalizing s with
  | nil => exact Iff.rfl
  | cons a as ih => exact and_congr (h s a) ih

theorem Meets.and {cond' : S → A → Prop} (h : Meets step cond s as) (h' : Meets step cond' s as) :
    Meets step (fun s a => cond s a ∧ cond' s a) s as := by
  induction as generalizing s with
  | nil => trivial
  | cons a as ih => exact ⟨⟨h.1, h'.1⟩, ih h.2 h'.2⟩

theorem Meets.of_isPrefix {front : List A} (h : Meets step cond s as) (hfront : front <+: as) :
    Meets step cond s front := by
  induction as generalizing s front with
  | nil =>
    obtain rfl := List.prefix_nil.mp hfront
    trivial
  | cons a as ih =>
    cases front with
    | nil => trivial
    | cons b front =>
      obtain ⟨rfl, hrest⟩ := List.cons_prefix_cons.mp hfront
      exact ⟨h.1, ih h.2 hrest⟩

variable (inv : S → Prop)

theorem invariant_of_meets
    (hstep : ∀ s a, inv s → cond s a → inv (step s a)) (hs : inv s) (h : Meets step cond s as) :
    inv (run step s as) := by
  induction as generalizing s with
  | nil => exact hs
  | cons a as ih => exact ih (hstep s a hs h.1) h.2

theorem meets_of_meets {prop : S → A → Prop}
    (hstep : ∀ s a, inv s → cond s a → inv (step s a) ∧ prop s a) (hs : inv s)
    (h : Meets step cond s as) : Meets step prop s as := by
  induction as generalizing s with
  | nil => trivial
  | cons a as ih =>
    obtain ⟨hinv, hprop⟩ := hstep s a hs h.1
    exact ⟨hprop, ih hinv h.2⟩

theorem invariant_iff_meets_of (always inv : S → Prop) (hkept : ∀ s a, always s → always (step s a))
    (hstep : ∀ s a, always s → inv s → (inv (step s a) ↔ cond s a)) (halways : always s)
    (hs : inv s) : (∀ front, front <+: as → inv (run step s front)) ↔ Meets step cond s as := by
  induction as generalizing s with
  | nil => simpa [Meets] using hs
  | cons a as ih =>
    constructor
    · intro h
      have ha : inv (step s a) := h [a] (by simp)
      refine ⟨(hstep s a halways hs).mp ha, (ih (hkept s a halways) ha).mp fun front hfront => ?_⟩
      exact h (a :: front) (by simpa using hfront)
    · rintro ⟨hc, hmeets⟩ front hfront
      cases front with
      | nil => exact hs
      | cons b front =>
        obtain ⟨rfl, hrest⟩ := List.cons_prefix_cons.mp hfront
        exact (ih (hkept s b halways) ((hstep s b halways hs).mpr hc)).mpr hmeets front hrest

theorem invariant_iff_meets
    (hstep : ∀ s a, inv s → (inv (step s a) ↔ cond s a)) (hs : inv s) :
    (∀ front, front <+: as → inv (run step s front)) ↔ Meets step cond s as :=
  invariant_iff_meets_of (fun _ => True) inv (fun _ _ _ => trivial) (fun s a _ => hstep s a) trivial
    hs

theorem meets_iff_meets {prop legal : S → A → Prop}
    (hinv : ∀ s a, inv s → legal s a → cond s a → inv (step s a))
    (hiff : ∀ s a, inv s → legal s a → (prop s a ↔ cond s a)) (hs : inv s)
    (hlegal : Meets step legal s as) : Meets step prop s as ↔ Meets step cond s as := by
  induction as generalizing s with
  | nil => exact Iff.rfl
  | cons a as ih =>
    refine (and_congr_left' (hiff s a hs hlegal.1)).trans (and_congr_right fun hcond => ?_)
    exact ih (hinv s a hs hlegal.1 hcond) hlegal.2

theorem invariant (hstep : ∀ s a, inv s → inv (step s a)) (hs : inv s)
    (as : List A) : inv (run step s as) := by
  induction as generalizing s with
  | nil => exact hs
  | cons a as ih => exact ih (hstep s a hs)

end Run
