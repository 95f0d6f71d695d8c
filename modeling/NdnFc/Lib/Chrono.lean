import Mathlib.Algebra.Order.Ring.Int

/-!
# Points in time on a 64-bit clock

A clock counts nanoseconds in a signed 64-bit number, and durations are in milliseconds. The
conversion and the sum can leave the range. A time point carries the proof that it is in the range,
so that an overflow has no result.
-/

namespace Chrono

/-- The values of a signed 64-bit counter. -/
def InRange (count : ℤ) : Prop :=
  -2 ^ 63 ≤ count ∧ count < 2 ^ 63

instance (count : ℤ) : Decidable (InRange count) :=
  inferInstanceAs (Decidable (_ ∧ _))

@[ext] structure TimePoint where
  count : ℤ
  inRange : InRange count
deriving DecidableEq

/-- What a clock shows that counts from its start. -/
structure Reading extends TimePoint where
  nonneg : 0 ≤ count
deriving DecidableEq

/-- The number of nanoseconds in a number of milliseconds. -/
def nanoseconds (milliseconds : ℤ) : ℤ :=
  milliseconds * 10 ^ 6

namespace TimePoint

/-- The sum of a point in time and a duration in milliseconds. There is none when the duration or the
sum is not a 64-bit number of nanoseconds. -/
def add (t : TimePoint) (milliseconds : ℤ) : Option TimePoint :=
  if InRange (nanoseconds milliseconds) then
    if h : InRange (t.count + nanoseconds milliseconds) then some ⟨_, h⟩ else none
  else none

/-- The nanoseconds from the second point to the first, unless they are too many. -/
def sub (t u : TimePoint) : Option ℤ :=
  if InRange (t.count - u.count) then some (t.count - u.count) else none

variable {t u : TimePoint} {milliseconds : ℤ}

theorem add_eq_some_iff :
    t.add milliseconds = some u ↔
      InRange (nanoseconds milliseconds) ∧ u.count = t.count + nanoseconds milliseconds := by
  unfold add
  split
  next hduration =>
    split
    next hsum => simp [hduration, TimePoint.ext_iff, eq_comm]
    next hsum =>
      simp only [reduceCtorEq, hduration, true_and, false_iff]
      intro hcount
      exact hsum (hcount ▸ u.inRange)
  next hduration => simp [hduration]

end TimePoint

/-- `duration_cast` to milliseconds rounds toward zero. -/
def toMilliseconds (nanoseconds : ℤ) : ℤ :=
  nanoseconds.tdiv (10 ^ 6)

theorem lt_nanoseconds_toMilliseconds_add_one (count : ℤ) :
    count < nanoseconds (toMilliseconds count + 1) := by
  have hdiv := Int.mul_tdiv_add_tmod count (10 ^ 6)
  have hmod : count.tmod (10 ^ 6) < 10 ^ 6 := Int.tmod_lt_of_pos _ (by decide)
  rw [nanoseconds, toMilliseconds]
  omega

end Chrono
