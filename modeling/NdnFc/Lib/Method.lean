import Mathlib.Tactic.Common

/-!
# Methods of mutable objects

A method of an object may throw after it has changed some fields, and the changes stay. `EStateM`
has this behaviour. This module has the rules for taking a successful run apart, and the methods of
a part of an object.
-/

namespace Method

variable {ε σ τ α β : Type}

/-- The object after a call, which may have thrown. -/
def after (m : EStateM ε σ α) (s : σ) : σ :=
  match m.run s with
  | .ok _ t => t
  | .error _ t => t

/-- The outcome of a call without the object. -/
def toExcept (m : EStateM ε σ α) (s : σ) : Except ε σ :=
  match m.run s with
  | .ok _ t => .ok t
  | .error e _ => .error e

/-- A computation that does not read or change the object. -/
def ofExcept : Except ε α → EStateM ε σ α
  | .ok a => pure a
  | .error e => throw e

/-- A method of a part of the object; what it changed before throwing stays. -/
def zoom (part : σ → τ) (put : τ → σ → σ) (m : EStateM ε τ α) : EStateM ε σ α := fun s =>
  match m.run (part s) with
  | .ok a t => .ok a (put t s)
  | .error e t => .error e (put t s)

/-- A call leaves an aspect of the object as it was, also when it throws. -/
def Keeps {γ : Type} (aspect : σ → γ) (m : EStateM ε σ α) : Prop :=
  ∀ s, aspect (after m s) = aspect s

/-- A call keeps a property of the object, also when it throws. -/
def Preserves (P : σ → Prop) (m : EStateM ε σ α) : Prop :=
  ∀ s, P s → P (after m s)

/-- The object after a successful call is the same whatever it was before. -/
def Overwrites (m : EStateM ε σ α) : Prop :=
  ∀ ⦃s a t⦄, m.run s = .ok a t → ∀ s', m.run s' = .ok a t

section Run

variable {m : EStateM ε σ α} {s t : σ} {a : α} {b : β}

@[simp] theorem run_throw (e : ε) : (throw e : EStateM ε σ α).run s = .error e s := rfl

@[simp] theorem run_modify_bind (f : σ → σ) (k : PUnit → EStateM ε σ α) :
    (modify f >>= k).run s = (k ⟨⟩).run (f s) := rfl

@[simp] theorem run_set_bind (u : σ) (k : PUnit → EStateM ε σ α) :
    (set u >>= k).run s = (k ⟨⟩).run u := rfl

@[simp] theorem run_get_bind (k : σ → EStateM ε σ α) : (get >>= k).run s = (k s).run s := rfl

@[simp] theorem run_ofExcept_ok : (ofExcept (Except.ok a) : EStateM ε σ α).run s = .ok a s := rfl

@[simp] theorem run_ofExcept_error (e : ε) :
    (ofExcept (Except.error e) : EStateM ε σ α).run s = .error e s := rfl

@[simp] theorem ofExcept_ok_bind (f : α → EStateM ε σ β) :
    (ofExcept (Except.ok a) >>= f) = f a := rfl

@[simp] theorem ofExcept_error_bind (e : ε) (f : α → EStateM ε σ β) :
    (ofExcept (Except.error e) >>= f) = throw e := rfl

theorem run_ofExcept_eq_ok_iff {x : Except ε α} :
    (ofExcept x).run s = .ok a t ↔ x = .ok a ∧ t = s := by
  cases x <;> simp [eq_comm]

variable {f : α → EStateM ε σ β} {e : ε} {part : σ → τ} {put : τ → σ → σ}

theorem run_bind_eq_ok_iff :
    (m >>= f).run s = .ok b t ↔ ∃ a s', m.run s = .ok a s' ∧ (f a).run s' = .ok b t := by
  rw [EStateM.run_bind]
  cases m.run s <;> simp

theorem run_ofExcept_bind_eq_ok_iff {x : Except ε α} :
    (ofExcept x >>= f).run s = .ok b t ↔ ∃ a, x = .ok a ∧ (f a).run s = .ok b t := by
  rw [EStateM.run_bind]
  cases x <;> simp

theorem run_bind_of_ok (h : m.run s = .ok a t) : (m >>= f).run s = (f a).run t := by
  rw [EStateM.run_bind, h]

theorem run_bind_of_error (h : m.run s = .error e t) : (m >>= f).run s = .error e t := by
  rw [EStateM.run_bind, h]

theorem run_ite_throw_eq_ok_iff {c : Prop} [Decidable c] :
    (if c then throw e else m).run s = .ok a t ↔ ¬c ∧ m.run s = .ok a t := by
  split <;> simp [*]

theorem run_zoom_eq_ok_iff {m : EStateM ε τ α} :
    (zoom part put m).run s = .ok a t ↔ ∃ u, m.run (part s) = .ok a u ∧ t = put u s := by
  unfold zoom
  change (match m.run (part s) with
    | .ok a t => EStateM.Result.ok a (put t s)
    | .error e t => .error e (put t s)) = _ ↔ _
  cases m.run (part s) <;> simp [eq_comm]

theorem run_zoom_of_error {m : EStateM ε τ α} {u : τ} (h : m.run (part s) = .error e u) :
    (zoom part put m).run s = .error e (put u s) := by
  change (match m.run (part s) with
    | .ok a t => EStateM.Result.ok a (put t s)
    | .error e t => .error e (put t s)) = _
  rw [h]

theorem after_of_run_ok (h : m.run s = .ok a t) : after m s = t := by
  rw [after, h]

theorem after_of_run_error (h : m.run s = .error e t) : after m s = t := by
  rw [after, h]

@[simp] theorem after_modify_bind (f : σ → σ) (k : PUnit → EStateM ε σ α) :
    after (modify f >>= k) s = after (k ⟨⟩) (f s) := rfl

@[simp] theorem after_get_bind (k : σ → EStateM ε σ α) : after (get >>= k) s = after (k s) s := rfl

@[simp] theorem after_throw (e : ε) : after (throw e : EStateM ε σ α) s = s := rfl

@[simp] theorem after_pure (a : α) : after (pure a : EStateM ε σ α) s = s := rfl

@[simp] theorem after_modify (f : σ → σ) : after (modify f : EStateM ε σ PUnit) s = f s := rfl

theorem after_bind_of_ok (h : m.run s = .ok a t) : after (m >>= f) s = after (f a) t := by
  rw [after, run_bind_of_ok h, after]

theorem after_bind_of_error (h : m.run s = .error e t) : after (m >>= f) s = t :=
  after_of_run_error (run_bind_of_error h)

theorem toExcept_eq_ok_iff {m : EStateM ε σ Unit} : toExcept m s = .ok t ↔ m.run s = .ok () t := by
  unfold toExcept
  cases m.run s <;> simp

end Run

section Preserves

variable {P : σ → Prop}

theorem preserves_pure (a : α) : Preserves P (pure a : EStateM ε σ α) := fun _ hs => hs

theorem preserves_throw (e : ε) : Preserves P (throw e : EStateM ε σ α) := fun _ hs => hs

theorem preserves_ofExcept (x : Except ε α) : Preserves P (ofExcept x : EStateM ε σ α) := by
  cases x
  · exact preserves_throw _
  · exact preserves_pure _

theorem preserves_modify {f : σ → σ} (h : ∀ s, P s → P (f s)) :
    Preserves P (modify f : EStateM ε σ PUnit) := h

theorem preserves_get_bind {f : σ → EStateM ε σ α} (h : ∀ s, P s → P (after (f s) s)) :
    Preserves P (get >>= f) := h

theorem Preserves.bind {m : EStateM ε σ α} {f : α → EStateM ε σ β} (hm : Preserves P m)
    (hf : ∀ a, Preserves P (f a)) : Preserves P (m >>= f) := by
  intro s hs
  have hafter := hm s hs
  cases hrun : m.run s with
  | ok a t =>
    rw [after_of_run_ok hrun] at hafter
    rw [after_bind_of_ok hrun]
    exact hf a t hafter
  | error e t =>
    rw [after_of_run_error hrun] at hafter
    rw [after_bind_of_error hrun]
    exact hafter

end Preserves

section Keeps

variable {γ : Type} {aspect : σ → γ}

theorem keeps_pure (a : α) : Keeps aspect (pure a : EStateM ε σ α) := fun _ => rfl

theorem keeps_throw (e : ε) : Keeps aspect (throw e : EStateM ε σ α) := fun _ => rfl

theorem keeps_get : Keeps aspect (get : EStateM ε σ σ) := fun _ => rfl

theorem keeps_ofExcept (x : Except ε α) : Keeps aspect (ofExcept x : EStateM ε σ α) := by
  cases x
  · exact keeps_throw _
  · exact keeps_pure _

theorem keeps_modify {f : σ → σ} (h : ∀ s, aspect (f s) = aspect s) :
    Keeps aspect (modify f : EStateM ε σ PUnit) := h

theorem keeps_zoom {part : σ → τ} {put : τ → σ → σ} (h : ∀ t s, aspect (put t s) = aspect s)
    (m : EStateM ε τ α) : Keeps aspect (zoom part put m) := by
  intro s
  change aspect (match (match m.run (part s) with
    | .ok a t => EStateM.Result.ok a (put t s)
    | .error e t => .error e (put t s)) with
    | .ok _ t => t
    | .error _ t => t) = _
  cases m.run (part s) <;> exact h _ s

theorem Keeps.bind {m : EStateM ε σ α} {f : α → EStateM ε σ β} (hm : Keeps aspect m)
    (hf : ∀ a, Keeps aspect (f a)) : Keeps aspect (m >>= f) := by
  intro s
  have hs := hm s
  unfold after at hs ⊢
  rw [EStateM.run_bind]
  cases hrun : m.run s with
  | ok a t => rw [hrun] at hs; exact (hf a t).trans hs
  | error e t => rw [hrun] at hs; exact hs

theorem Keeps.ite {c : Prop} [Decidable c] {m n : EStateM ε σ α} (hm : Keeps aspect m)
    (hn : Keeps aspect n) : Keeps aspect (if c then m else n) := by
  split
  · exact hm
  · exact hn

theorem after_bind_of_keeps {m : EStateM ε σ α} {f : α → EStateM ε σ β}
    (hf : ∀ a, Keeps (fun s => s) (f a)) (s : σ) : after (m >>= f) s = after m s := by
  cases h : m.run s with
  | ok a t =>
    rw [after_bind_of_ok h, after_of_run_ok h]
    exact hf a t
  | error e t => rw [after_bind_of_error h, after_of_run_error h]

@[simp] theorem after_bind_pure {m : EStateM ε σ α} {s : σ} (f : α → β) :
    after (m >>= fun a => pure (f a)) s = after m s :=
  after_bind_of_keeps (fun _ => keeps_pure _) s

theorem Keeps.of_toExcept {m : EStateM ε σ α} {s t : σ} (h : Keeps aspect m)
    (hs : toExcept m s = .ok t) : aspect t = aspect s := by
  have hafter := h s
  unfold toExcept at hs
  unfold after at hafter
  cases hrun : m.run s with
  | ok a t' =>
    rw [hrun] at hs hafter
    cases hs
    exact hafter
  | error e t' =>
    rw [hrun] at hs
    cases hs

end Keeps

end Method
