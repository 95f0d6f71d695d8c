import NdnFc.Lib.Run

/-!
# Stores of independent slots

A store keeps at most one value under each key, and an action works on the slot of one key or on
none. What happens to a slot is then a run of its own, over the actions for that key, and neither
the slot nor the result of an action depends on the actions for other keys.
-/

namespace SlotStore

variable {K V A R : Type*} [DecidableEq K] (key : A → Option K)
  (slotStep : Option V → A → R × Option V)

def step (s : K → Option V) (a : A) : K → Option V :=
  match key a with
  | none => s
  | some k => Function.update s k (slotStep (s k) a).2

/-- What an action returns. An action without a slot sees none. -/
def result (s : K → Option V) (a : A) : R :=
  match key a with
  | none => (slotStep none a).1
  | some k => (slotStep (s k) a).1

/-- The slot of one key after a run over the actions for this key. -/
def slotRun (v : Option V) (as : List A) : Option V :=
  Run.run (fun v a => (slotStep v a).2) v as

variable {key slotStep} {s : K → Option V} {as : List A} {a : A} {k : K}

theorem step_apply_of_eq (h : key a = some k) : step key slotStep s a k = (slotStep (s k) a).2 := by
  simp [step, h]

theorem step_apply_of_ne (h : key a ≠ some k) : step key slotStep s a k = s k := by
  cases hkey : key a with
  | none => simp [step, hkey]
  | some k' =>
    have hne : k ≠ k' := by
      rintro rfl
      exact h hkey
    simp [step, hkey, hne]

theorem run_apply (s : K → Option V) (as : List A) (k : K) :
    Run.run (step key slotStep) s as k =
      slotRun slotStep (s k) (as.filter fun a => key a = some k) := by
  induction as generalizing s with
  | nil => rfl
  | cons a as ih =>
    rw [Run.run_cons, ih]
    by_cases h : key a = some k
    · rw [List.filter_cons_of_pos (by simpa using h), step_apply_of_eq h]
      rfl
    · rw [List.filter_cons_of_neg (by simpa using h), step_apply_of_ne h]

omit [DecidableEq K] in
theorem result_congr {s t : K → Option V} (h : ∀ k, key a = some k → s k = t k) :
    result key slotStep s a = result key slotStep t a := by
  unfold result
  split
  next => rfl
  next k hk => rw [h k hk]

theorem run_filter_apply {k k' : K} (h : k' ≠ k) :
    Run.run (step key slotStep) s (as.filter fun a => key a ≠ some k) k' =
      Run.run (step key slotStep) s as k' := by
  rw [run_apply, run_apply, List.filter_filter]
  congr 1
  refine List.filter_congr fun a _ => ?_
  by_cases hk' : key a = some k' <;> simp [hk', h]

theorem result_run_filter (h : key a ≠ some k) :
    result key slotStep (Run.run (step key slotStep) s (as.filter fun a => key a ≠ some k)) a =
      result key slotStep (Run.run (step key slotStep) s as) a := by
  refine result_congr fun k' hk' => run_filter_apply ?_
  rintro rfl
  exact h hk'

end SlotStore
