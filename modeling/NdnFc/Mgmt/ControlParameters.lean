import NdnFc.Lib.Chrono
import NdnFc.Rib.Rib
import NdnFc.Tlv.Number

/-!
# Control parameters: flag bits and the expiration of routes

A command sets single bits of the flags and the mask in its parameters
(`ndn-cxx/mgmt/nfd/control-parameters.cpp`). The constant that is shifted is an `int`. The command
that registers a route carries a period in milliseconds, which becomes signed, then nanoseconds and
then a point in time (`NFD-FC/daemon/mgmt/rib-manager.cpp`, lines 127 to 157 and 219 to 248).
-/

namespace NdnFc

/-- `ControlParameters`, with the two fields that hold bits. -/
structure ControlParameters where
  flags : Option (BitVec 64)
  mask : Option (BitVec 64)
deriving DecidableEq

namespace ControlParameters

/-- The expression `1 << bit` on 32 bits, converted to 64. It is undefined for larger shifts. -/
def shiftedOne (bit : ℕ) : Option (BitVec 64) :=
  if bit < 32 then some (((1 : BitVec 32) <<< bit).signExtend 64) else none

/-- The test that `hasFlagBit` and `getFlagBit` make on a field. The inner result is absent when
the shift is undefined. -/
def testBit (field : Option (BitVec 64)) (bit : ℕ) : Except String (Option Bool) :=
  if 64 ≤ bit then throw "bit must be within range [0, 64)"
  else match field with
    | none => pure (some false)
    | some bits => pure ((shiftedOne bit).map fun one => bits &&& one != 0)

variable (p : ControlParameters)

def hasFlagBit (bit : ℕ) : Except String (Option Bool) := testBit p.mask bit

def getFlagBit (bit : ℕ) : Except String (Option Bool) := testBit p.flags bit

def setFlagBit (bit : ℕ) (value : Bool) (wantMask : Bool := true) :
    Except String (Option ControlParameters) :=
  if 64 ≤ bit then throw "bit must be within range [0, 64)"
  else pure ((shiftedOne bit).map fun one =>
    let flags := p.flags.getD 0
    { flags := some (if value then flags ||| one else flags &&& ~~~one)
      mask := if wantMask then some (p.mask.getD 0 ||| one) else p.mask })

/-- The bit has the given value, it is in the mask when that is wanted, and no other bit of the two
fields changes. -/
def SetsBit (bit : ℕ) (value wantMask : Bool) : Prop :=
  ∃ p', p.setFlagBit bit value wantMask = .ok (some p') ∧ p'.getFlagBit bit = .ok (some value) ∧
    (wantMask = true → p'.hasFlagBit bit = .ok (some true)) ∧
    ∀ other ≠ bit, (p'.flags.getD 0).getLsbD other = (p.flags.getD 0).getLsbD other ∧
      (p'.mask.getD 0).getLsbD other = (p.mask.getD 0).getLsbD other

/-- The bits that the shifted constant has: from the 31st on, the sign is extended. -/
def IsShifted (bit i : ℕ) : Prop :=
  i < 64 ∧ (i = bit ∨ bit = 31 ∧ 31 < i)

instance (bit i : ℕ) : Decidable (IsShifted bit i) :=
  inferInstanceAs (Decidable (_ ∧ _))

theorem exists_shiftedOne {bit : ℕ} (h : bit < 32) :
    ∃ one, shiftedOne bit = some one ∧ ∀ i, one.getLsbD i = decide (IsShifted bit i) := by
  refine ⟨_, if_pos h, fun i => ?_⟩
  by_cases hi : i < 64
  · revert bit i
    decide
  · rw [BitVec.getLsbD_of_ge _ _ (not_lt.mp hi), decide_eq_false fun h => hi h.1]

section

variable {bits one : BitVec 64} {bit : ℕ} (hone : ∀ i, one.getLsbD i = decide (IsShifted bit i))

include hone

theorem getLsbD_assign (value : Bool) (i : ℕ) :
    (if value then bits ||| one else bits &&& ~~~one).getLsbD i =
      if IsShifted bit i then value else bits.getLsbD i := by
  by_cases hi : IsShifted bit i
  · have hlt : i < 64 := hi.1
    cases value <;> simp [-BitVec.getLsbD_eq_getElem, hone, hi, hlt]
  · rw [if_neg hi]
    by_cases hlt : i < 64
    · cases value <;> simp [-BitVec.getLsbD_eq_getElem, hone, hi, hlt]
    · rw [BitVec.getLsbD_of_ge _ _ (not_lt.mp hlt), BitVec.getLsbD_of_ge _ _ (not_lt.mp hlt)]

theorem testBit_eq {value : Bool} (hbit : bit < 32) (hshift : shiftedOne bit = some one)
    (h : ∀ i, IsShifted bit i → bits.getLsbD i = value) :
    testBit (some bits) bit = .ok (some value) := by
  have hself : IsShifted bit bit := ⟨by omega, .inl rfl⟩
  have hand : (bits &&& one != 0) = value := by
    cases value with
    | true =>
      rw [bne_iff_ne]
      intro hzero
      have hbit := congrArg (·.getLsbD bit) hzero
      simp [h bit hself, hone, hself] at hbit
    | false =>
      rw [bne_eq_false_iff_eq]
      refine BitVec.eq_of_getLsbD_eq fun i hi => ?_
      by_cases hshifted : IsShifted bit i <;> simp [hone, hshifted, h]
  rw [testBit, if_neg (by omega), hshift, Option.map_some, hand]
  rfl

end

/-- A bit is set alone exactly when it is below the 31st, or is the 31st and the higher bits of the
flags have its value already and are in the mask if that is wanted. -/
theorem setsBit_iff (bit : ℕ) (hbit : bit < 64) (value wantMask : Bool) :
    p.SetsBit bit value wantMask ↔ bit < 31 ∨ bit = 31 ∧ ∀ i, 31 < i → i < 64 →
      (p.flags.getD 0).getLsbD i = value ∧
        (wantMask = true → (p.mask.getD 0).getLsbD i = true) := by
  rw [SetsBit, setFlagBit, if_neg (by omega)]
  by_cases h32 : bit < 32
  · obtain ⟨one, hshift, hone⟩ := exists_shiftedOne h32
    have hflags : ∀ i, IsShifted bit i → (if value then p.flags.getD 0 ||| one
        else p.flags.getD 0 &&& ~~~one).getLsbD i = value := fun i hi => by
      rw [getLsbD_assign hone, if_pos hi]
    -- the mask is assigned like flags that get the value true
    have hmask : ∀ i, (p.mask.getD 0 ||| one).getLsbD i = _ := getLsbD_assign hone true
    rw [hshift]
    constructor
    · rintro ⟨_, ⟨⟩, -, -, hother⟩
      rcases Nat.lt_succ_iff_lt_or_eq.mp h32 with h31 | rfl
      · exact .inl h31
      · refine .inr ⟨rfl, fun i hlow hhigh => ?_⟩
        have hi : IsShifted 31 i := ⟨hhigh, .inr ⟨rfl, hlow⟩⟩
        obtain ⟨hf, hm⟩ := hother i hlow.ne'
        refine ⟨hf.symm.trans (hflags i hi), fun hwant => ?_⟩
        subst hwant
        rw [← hm]
        exact (hmask i).trans (if_pos hi)
    · intro hcond
      have hsame : ∀ i ≠ bit, IsShifted bit i → (p.flags.getD 0).getLsbD i = value ∧
          (wantMask = true → (p.mask.getD 0).getLsbD i = true) := by
        rintro i hne ⟨hhigh, rfl | ⟨rfl, hlow⟩⟩
        · exact absurd rfl hne
        · exact (hcond.resolve_left (lt_irrefl 31)).2 i hlow hhigh
      refine ⟨_, rfl, testBit_eq hone h32 hshift hflags, fun hwant => ?_,
        fun i hne => ⟨?_, ?_⟩⟩
      · subst hwant
        exact testBit_eq hone h32 hshift fun i hi => (hmask i).trans (if_pos hi)
      · rw [Option.getD_some, getLsbD_assign hone]
        split_ifs with hi
        · exact (hsame i hne hi).1.symm
        · rfl
      · dsimp only
        split_ifs with hwant
        · refine (hmask i).trans ?_
          split_ifs with hi
          · exact ((hsame i hne hi).2 hwant).symm
          · rfl
        · rfl
  · rw [shiftedOne, if_neg h32]
    constructor
    · rintro ⟨_, ⟨⟩, -⟩
    · omega

theorem setsBit_zero : (⟨none, none⟩ : ControlParameters).SetsBit 0 true true :=
  (setsBit_iff ⟨none, none⟩ 0 (by decide) true true).mpr (.inl (by decide))

/-- The 31st bit is set together with all higher ones, and the 32nd cannot be set. -/
theorem not_setsBit :
    ((⟨none, none⟩ : ControlParameters).setFlagBit 31 true =
        .ok (some ⟨some 0xFFFFFFFF80000000, some 0xFFFFFFFF80000000⟩) ∧
      ¬ (⟨none, none⟩ : ControlParameters).SetsBit 31 true true) ∧
    (⟨none, none⟩ : ControlParameters).setFlagBit 32 true = .ok none ∧
      ¬ (⟨none, none⟩ : ControlParameters).SetsBit 32 true true := by
  refine ⟨⟨by decide, ?_⟩, by decide, ?_⟩
  · rintro ⟨_, ⟨⟩, -, -, hother⟩
    exact absurd (hother 32 (by decide)).1 (by decide)
  · rintro ⟨_, ⟨⟩, -⟩

end ControlParameters

namespace RibManager

open Chrono

/-- What becomes of a command to register a route: a refusal, the removal of a route that counts as
expired, or the update of the RIB with the expiration of the route and of its event. -/
inductive Outcome where
  | refused (code : ℕ) (text : String)
  | expired (route : Route)
  | registers (route : Route) (expires event : Option TimePoint)

def addNanoseconds (t : TimePoint) (duration : ℤ) : Option TimePoint :=
  if h : InRange (t.count + duration) then some ⟨_, h⟩ else none

/-- The end of `beginAddRoute` for a route that expires after the given time: it has expired, or an
event is scheduled for its removal. -/
def addExpiring (route : Route) (expires : TimePoint) (duration : ℤ) (later : TimePoint) :
    Option Outcome :=
  if duration ≤ 0 then some (.expired route)
  else (addNanoseconds later duration).map fun event => .registers route (some expires) (some event)

/-- `beginAddRoute` with the readings of the clock for the expiration and for its event. There is no
result when a number leaves its range. -/
def beginAddRoute (route : Route) (routeExpires : Option TimePoint) (expires : Option ℤ)
    (now later : TimePoint) : Option Outcome :=
  match expires, routeExpires with
  | some duration, _ =>
    (addNanoseconds now duration).bind fun t => addExpiring route t duration later
  | none, some t => (t.sub now).bind fun duration => addExpiring route t duration later
  | none, none => some (.registers route none none)

/-- `registerEntry` for the route of the command, with the decoded `ExpirationPeriod`. -/
def registerEntry (name : Name) (route : Route) (expirationPeriod : Option ℤ)
    (now later : TimePoint) : Option Outcome :=
  if 32 < name.length then some (.refused 414 "Route prefix cannot exceed 32 components")
  else match expirationPeriod.filter (· ≠ 2 ^ 63 - 1) with
    | none => beginAddRoute route none none now later
    | some period =>
      if InRange (nanoseconds period) then
        beginAddRoute route none (some (nanoseconds period)) now later
      else none

/-- The route is registered with the period after the command as its expiration, or with none for
the largest number of milliseconds. -/
def RegistersFor (outcome : Option Outcome) (route : Route) (period : ℕ) (now : TimePoint) : Prop :=
  ∃ expires event, outcome = some (.registers route expires event) ∧
    expires.map (·.count) =
      if period = 2 ^ 63 - 1 then none else some (now.count + nanoseconds period)

theorem exists_beginAddRoute_iff {route : Route} {duration : ℤ} {now later : TimePoint} :
    (∃ expires event,
      beginAddRoute route none (some duration) now later = some (.registers route expires event) ∧
        expires.map (·.count) = some (now.count + duration)) ↔
      0 < duration ∧ InRange (now.count + duration) ∧ InRange (later.count + duration) := by
  by_cases hnow : InRange (now.count + duration) <;>
    by_cases hlater : InRange (later.count + duration) <;>
    by_cases hpos : duration ≤ 0 <;>
    simp [beginAddRoute, addExpiring, addNanoseconds, hnow, hlater, hpos, not_le.mp]

/-- A route is registered for a period exactly when the period in nanoseconds can be added to the
clock, or is the largest number of milliseconds. -/
theorem registersFor_iff (name : Name) (hname : name.length ≤ 32) (route : Route) (period : ℕ)
    (hpos : 0 < period) (hlt : period < 2 ^ 64) (now later : Reading)
    (hle : now.count ≤ later.count) :
    RegistersFor (registerEntry name route (some (Tlv.toMilliseconds period)) now.toTimePoint
        later.toTimePoint) route period now.toTimePoint ↔
      period = 2 ^ 63 - 1 ∨ later.count + nanoseconds period < 2 ^ 63 := by
  unfold RegistersFor registerEntry
  rw [if_neg (not_lt.mpr hname)]
  have hclock := now.nonneg
  by_cases hmax : period = 2 ^ 63 - 1
  · subst hmax
    exact iff_of_true ⟨none, none, rfl, rfl⟩ (.inl rfl)
  · have hne : Tlv.toMilliseconds period ≠ 2 ^ 63 - 1 := by
      unfold Tlv.toMilliseconds
      split <;> omega
    rw [Option.filter_some, if_pos (decide_eq_true hne), if_neg hmax]
    by_cases hsigned : period < 2 ^ 63
    · rw [Tlv.toMilliseconds_of_lt hsigned]
      dsimp only
      split_ifs with hrange
      · rw [exists_beginAddRoute_iff]
        unfold InRange nanoseconds at *
        omega
      · unfold InRange nanoseconds at *
        simp only [false_and, exists_const, false_iff]
        omega
    · have hneg := Tlv.toMilliseconds_neg (not_lt.mp hsigned) hlt
      refine iff_of_false ?_ (by unfold nanoseconds; omega)
      dsimp only
      split_ifs with hrange
      · have hnonpos : nanoseconds (Tlv.toMilliseconds period) ≤ 0 := by
          unfold nanoseconds
          omega
        rintro ⟨_, _, h, -⟩
        obtain ⟨_, -, h⟩ := Option.bind_eq_some_iff.mp h
        rw [addExpiring, if_pos hnonpos] at h
        cases h
      · simp

theorem registersFor_one :
    RegistersFor (registerEntry [] ⟨1, 0, 0, 0⟩ (some (Tlv.toMilliseconds 1)) ⟨0, by decide⟩
      ⟨0, by decide⟩) ⟨1, 0, 0, 0⟩ 1 ⟨0, by decide⟩ :=
  (registersFor_iff [] (by decide) ⟨1, 0, 0, 0⟩ 1 (by decide) (by decide) ⟨⟨0, by decide⟩, le_rfl⟩
    ⟨⟨0, by decide⟩, le_rfl⟩ le_rfl).mpr (.inr (by decide))

/-- A route with the longest period counts as expired, and the nanoseconds of a shorter period leave
their range. -/
theorem not_registersFor :
    (registerEntry [] ⟨1, 0, 0, 0⟩ (some (Tlv.toMilliseconds (2 ^ 64 - 1))) ⟨0, by decide⟩
        ⟨0, by decide⟩ = some (.expired ⟨1, 0, 0, 0⟩) ∧
      ¬ RegistersFor (registerEntry [] ⟨1, 0, 0, 0⟩ (some (Tlv.toMilliseconds (2 ^ 64 - 1)))
        ⟨0, by decide⟩ ⟨0, by decide⟩) ⟨1, 0, 0, 0⟩ (2 ^ 64 - 1) ⟨0, by decide⟩) ∧
    registerEntry [] ⟨1, 0, 0, 0⟩ (some (Tlv.toMilliseconds (10 ^ 13))) ⟨0, by decide⟩
        ⟨0, by decide⟩ = none := by
  refine ⟨⟨rfl, ?_⟩, rfl⟩
  rintro ⟨_, _, ⟨⟩, -⟩

end RibManager

end NdnFc
