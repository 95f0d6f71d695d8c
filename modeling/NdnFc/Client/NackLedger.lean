import NdnFc.Client.DataDispatch

/-!
# The ledger of a client face

A record of the client face counts the destinations that have not answered with a Nack
(`ndn-cxx/impl/pending-interest.hpp`, lines 101 to 152): the forwarder and the matching filters. A
Nack counts for every record that it matches by `matchesInterest`, which does not look at the
Function. A ledger beside the face says what the count should be.
-/

namespace NdnFc.Client

open List

/-! ### What a Nack does to the records -/

variable (nack : Nack) (entry : PendingInterest)

/-- The Nack that is reported for a record: it is matched and no destination is left. -/
def report : Option Nack :=
  if nack.interest.matchesInterest entry.interest then (entry.recordNack nack).2 else none

/-- What is left of a record. -/
def remains : Option PendingInterest :=
  if nack.interest.matchesInterest entry.interest then
    if (entry.recordNack nack).2.isNone then some (entry.recordNack nack).1 else none
  else some entry

/-- The call of the Nack callback of a record. -/
def nackCalls : List Output :=
  match report nack entry with
  | some reported =>
    if entry.origin = .app ∧ entry.callbacks.onNack then
      [.nackCallback entry.id entry.interest reported]
    else []
  | none => []

variable (pending : List PendingInterest)

/-- The Nack that is reported for the last record of the forwarder. -/
def lastReport : Option Nack :=
  ((pending.filter fun entry => entry.origin = .forwarder).filterMap (report nack)).getLast?

theorem lastReport_cons (rest : List PendingInterest) :
    lastReport nack (entry :: rest) = (lastReport nack rest).or
      (if entry.origin = .forwarder then report nack entry else none) := by
  unfold lastReport
  by_cases horigin : entry.origin = .forwarder
  · rw [filter_cons_of_pos (by simpa using horigin), if_pos horigin]
    cases hreport : report nack entry with
    | none => rw [filterMap_cons_none hreport, Option.or_none]
    | some reported =>
      rw [filterMap_cons_some hreport, getLast?_cons]
      cases (List.filterMap _ _).getLast? <;> rfl
  · rw [filter_cons_of_neg (by simpa using horigin), if_neg horigin, Option.or_none]

theorem nackLoop_eq (outNack : Option Nack) :
    nackLoop nack pending outNack = (pending.filterMap (remains nack),
      pending.flatMap (nackCalls nack), (lastReport nack pending).or outNack) := by
  induction pending generalizing outNack with
  | nil => rfl
  | cons entry rest ih =>
    rw [nackLoop, filterMap_cons, flatMap_cons, lastReport_cons]
    cases hmatch : nack.interest.matchesInterest entry.interest with
    | false =>
      have hreport : report nack entry = none := by rw [report, hmatch]; rfl
      have hremains : remains nack entry = some entry := by rw [remains, hmatch]; rfl
      rw [ih, hremains, nackCalls, hreport, ite_self, Option.or_none]
      rfl
    | true =>
      have hreport : report nack entry = (entry.recordNack nack).2 := by rw [report, hmatch]; rfl
      have horigin : (entry.recordNack nack).1.origin = entry.origin := rfl
      have hcalls : ∀ reported, (entry.recordNack nack).2 = some reported →
          (if (entry.recordNack nack).1.callbacks.onNack then
            [Output.nackCallback (entry.recordNack nack).1.id (entry.recordNack nack).1.interest
              reported] else []) =
          if entry.callbacks.onNack then [Output.nackCallback entry.id entry.interest reported]
            else [] := fun _ _ => rfl
      rw [remains, hmatch, nackCalls, hreport]
      generalize entry.recordNack nack = record at *
      obtain ⟨entry', reported⟩ := record
      cases reported with
      | none => simp [ih]
      | some reported =>
        cases hentry : entry.origin with
        | app | forwarder => simp_all

/-! ### The ledger -/

/-- What is known about the Interest of a record: how many destinations it was forwarded to, and the
Nacks for it. -/
structure Account where
  destinations : ℕ
  nacks : List Nack

/-- A face, with an account for the number of each record. -/
structure Audited where
  face : Face
  ledger : ℕ → Account

def Audited.init (env : Option Bool) : Audited :=
  ⟨Face.init env, fun _ => ⟨0, []⟩⟩

/-- The number of filters that match an Interest of the given origin. -/
def matchingFilters (face : Face) (entry : PendingInterest) : ℕ :=
  face.filters.countP fun record => (record.doesMatch face.env entry).toOption.getD false

def Event.nack? : Event → Option Nack
  | .receiveNack nack => some nack
  | .putNack nack _ => some nack
  | _ => none

/-- A Nack is entered for the pending Interests that agree with its Interest, Function included. -/
def enterNack (s : Audited) (id : ℕ) : Account :=
  match KeyedList.get? PendingInterest.id s.face.pending id with
  | some entry =>
    if nack.interest.matchesInterestWFunction entry.interest then
      { s.ledger id with nacks := (s.ledger id).nacks ++ [nack] }
    else s.ledger id
  | none => s.ledger id

variable (s : Audited)

def enter : Event → ℕ → Account
  | .expressInterest id interest callbacks _ =>
    Function.update s.ledger id
      ⟨matchingFilters s.face (PendingInterest.ofApp id interest callbacks) + 1, []⟩
  | .receiveInterest interest =>
    let id := s.face.lastPendingId + 1
    Function.update s.ledger id
      ⟨matchingFilters s.face (PendingInterest.ofForwarder id interest), []⟩
  | .receiveNack nack => enterNack nack s
  | .putNack nack _ => enterNack nack s
  | _ => s.ledger

/-- The number of an expressed Interest has been allocated and is not in use. -/
def Legal : Event → Prop
  | .expressInterest id _ _ _ =>
    id ≤ s.face.lastPendingId ∧ ∀ entry ∈ s.face.pending, entry.id ≠ id
  | _ => True

/-- The count of a record is that of its account, and not negative. -/
def Balances (account : Account) (entry : PendingInterest) : Prop :=
  entry.nNotNacked = account.destinations - account.nacks.length ∧ 0 ≤ entry.nNotNacked

/-- One of the Nacks has the reason, and none has a less severe one. -/
def IsLeastSevere (reason : NackReason) (nacks : List Nack) : Prop :=
  (∃ nack ∈ nacks, nack.reason = reason) ∧
    ∀ nack ∈ nacks, isLessSevere nack.reason reason = false

/-- The Nacks with which the callback of a record is called. -/
def nackCallsOf (id : ℕ) (outputs : List Output) : List Nack :=
  outputs.filterMap fun
    | .nackCallback id' _ nack => if id' = id then some nack else none
    | _ => none

theorem nackCallsOf_append (id : ℕ) (front rest : List Output) :
    nackCallsOf id (front ++ rest) = nackCallsOf id front ++ nackCallsOf id rest :=
  filterMap_append

def nacksSent (outputs : List Output) : List Nack :=
  outputs.filterMap fun
    | .sendNack nack => some nack
    | _ => none

theorem nacksSent_append (front rest : List Output) :
    nacksSent (front ++ rest) = nacksSent front ++ nacksSent rest :=
  filterMap_append

/-- The event is a Nack for the Interest of the record, and with it every destination has answered
with a Nack. -/
def Completes (event : Event) (entry : PendingInterest) : Prop :=
  (∃ nack ∈ event.nack?, nack.interest.matchesInterestWFunction entry.interest) ∧
    (enter s event entry.id).nacks.length = (enter s event entry.id).destinations

section

variable [Sha256]

def Audited.step (s : Audited) (event : Event) : Audited :=
  ⟨Client.step s.face event, enter s event⟩

/-- What a step should do: the counts are those of the ledger and never negative, a record of
another Function does not change, and when every destination has answered, the callback is called
once or one Nack is sent, with the least severe reason. -/
structure KeepsAccount (s : Audited) (event : Event) : Prop where
  balances : ∀ entry ∈ (s.step event).face.pending, Balances ((s.step event).ledger entry.id) entry
  counted : ∀ nack ∈ event.nack?, ∀ entry ∈ s.face.pending,
    nack.interest.matchesInterest entry.interest →
      Balances ((s.step event).ledger entry.id) (entry.recordNack nack).1
  isolated : ∀ nack ∈ event.nack?, ∀ entry ∈ s.face.pending,
    entry.interest.name = nack.interest.name → entry.interest.function ≠ nack.interest.function →
      entry ∈ (s.step event).face.pending
  called : ∀ entry ∈ s.face.pending, entry.origin = .app → entry.callbacks.onNack →
    Completes s event entry → ∃ nack, nackCallsOf entry.id (react s.face event).2 = [nack] ∧
      nack.interest.matchesInterestWFunction entry.interest ∧
      IsLeastSevere nack.reason (enter s event entry.id).nacks
  notCalled : ∀ entry ∈ s.face.pending, ¬ Completes s event entry →
    nackCallsOf entry.id (react s.face event).2 = []
  sends : ∀ entry ∈ s.face.pending, entry.origin = .forwarder → Completes s event entry →
    ∃ nack ∈ nacksSent (react s.face event).2,
      nack.interest.matchesInterestWFunction entry.interest ∧
      IsLeastSevere nack.reason (enter s event entry.id).nacks
  sent : nacksSent (react s.face event).2 ≠ [] →
    ∃ entry ∈ s.face.pending, entry.origin = .forwarder ∧ Completes s event entry

end

/-- A Nack answers the record: it is matched, and all other destinations have answered. -/
def Answers (s : Audited) (nack : Nack) (entry : PendingInterest) : Prop :=
  nack.interest.matchesInterest entry.interest ∧
    (s.ledger entry.id).nacks.length + 1 = (s.ledger entry.id).destinations

/-- The event is a Nack of the application that can be sent to the forwarder. -/
def Event.delivers : Event → Bool
  | .putNack _ sent => (thrownBy sent).isNone
  | _ => false

/-- A Nack matches only records with its own Function and a destination. As the last answer for a
record of the forwarder, it was put by the application and can be sent, and several such records
agree on the least severe reason. -/
structure Attributable (s : Audited) (event : Event) : Prop where
  function : ∀ nack ∈ event.nack?, ∀ entry ∈ s.face.pending,
    nack.interest.matchesInterest entry.interest →
      entry.interest.function = nack.interest.function
  forwarded : ∀ nack ∈ event.nack?, ∀ entry ∈ s.face.pending,
    nack.interest.matchesInterest entry.interest → (s.ledger entry.id).destinations ≠ 0
  delivered : ∀ nack ∈ event.nack?, ∀ entry ∈ s.face.pending, entry.origin = .forwarder →
    Answers s nack entry → event.delivers
  agreed : ∀ nack ∈ event.nack?, ∀ entry ∈ s.face.pending, ∀ other ∈ s.face.pending,
    entry.origin = .forwarder → other.origin = .forwarder →
    Answers s nack entry → Answers s nack other → ∀ reason,
      IsLeastSevere reason ((s.ledger entry.id).nacks ++ [nack]) →
      IsLeastSevere reason ((s.ledger other.id).nacks ++ [nack])

theorem attributable_of_nack?_eq_none {s : Audited} {event : Event} (h : event.nack? = none) :
    Attributable s event := by
  have hother : ∀ nack, nack ∉ event.nack? := by simp [h]
  constructor
  all_goals exact fun nack hnack => absurd hnack (hother nack)

/-! ### Severity -/

/-- The place of a reason in the order of severity. A Nack without a reason is the most severe. -/
def severity : NackReason → ℕ
  | .none => 200
  | reason => reason.toNat

variable {x y : NackReason}

theorem isLessSevere_iff : isLessSevere x y ↔ severity x < severity y := by
  cases x <;> cases y <;> decide

theorem isLessSevere_eq_false_iff : isLessSevere x y = false ↔ severity y ≤ severity x := by
  rw [← Bool.not_eq_true, isLessSevere_iff, not_lt]

theorem severity_inj : severity x = severity y ↔ x = y := by
  cases x <;> cases y <;> decide

theorem IsLeastSevere.unique {nacks : List Nack} (hx : IsLeastSevere x nacks)
    (hy : IsLeastSevere y nacks) : x = y := by
  obtain ⟨⟨nack, hnack, rfl⟩, hx⟩ := hx
  obtain ⟨⟨other, hother, rfl⟩, hy⟩ := hy
  rw [← severity_inj]
  exact le_antisymm (isLessSevere_eq_false_iff.mp (hx other hother))
    (isLessSevere_eq_false_iff.mp (hy nack hnack))

theorem isLeastSevere_singleton (nack : Nack) : IsLeastSevere nack.reason [nack] := by
  refine ⟨⟨nack, mem_singleton_self nack, rfl⟩, forall_mem_singleton.mpr ?_⟩
  exact isLessSevere_eq_false_iff.mpr le_rfl

theorem IsLeastSevere.append {reason : NackReason} {nacks : List Nack}
    (h : IsLeastSevere reason nacks) (nack : Nack) :
    IsLeastSevere (if isLessSevere nack.reason reason then nack.reason else reason)
      (nacks ++ [nack]) := by
  obtain ⟨⟨least, hleast, rfl⟩, hall⟩ := h
  have hlast : nack ∈ nacks ++ [nack] := mem_append_right nacks (mem_singleton_self nack)
  split_ifs with hless
  · refine ⟨⟨nack, hlast, rfl⟩, forall_mem_append.mpr ⟨fun other hother => ?_,
      (isLeastSevere_singleton nack).2⟩⟩
    have hother := isLessSevere_eq_false_iff.mp (hall other hother)
    exact isLessSevere_eq_false_iff.mpr ((isLessSevere_iff.mp hless).le.trans hother)
  · refine ⟨⟨least, mem_append_left [nack] hleast, rfl⟩, forall_mem_append.mpr ⟨hall, ?_⟩⟩
    exact forall_mem_singleton.mpr (Bool.eq_false_of_not_eq_true hless)

/-! ### Records and accounts -/

/-- A record that agrees with its account: the count, a Nack to come if there is a destination, and
the least severe of the Nacks for its Interest. -/
structure Recorded (account : Account) (entry : PendingInterest) : Prop where
  count : entry.nNotNacked = account.destinations - account.nacks.length
  outstanding : account.nacks.length < account.destinations ∨
    account.destinations = 0 ∧ account.nacks = []
  forInterest : ∀ nack ∈ account.nacks, nack.interest.matchesInterestWFunction entry.interest
  leastSevere : entry.leastSevereNack = none ∧ account.nacks = [] ∨
    ∃ least ∈ account.nacks, entry.leastSevereNack = some least ∧
      IsLeastSevere least.reason account.nacks

theorem Recorded.balances {account : Account} {entry : PendingInterest}
    (h : Recorded account entry) : Balances account entry := by
  refine ⟨h.count, ?_⟩
  rw [h.count]
  rcases h.outstanding with hlt | ⟨hzero, hnil⟩
  · omega
  · rw [hzero, hnil]
    rfl

theorem Recorded.exists_recordNack {account : Account} {entry : PendingInterest}
    (h : Recorded account entry) (nack : Nack) :
    ∃ least ∈ account.nacks ++ [nack], IsLeastSevere least.reason (account.nacks ++ [nack]) ∧
      entry.recordNack nack =
        ({ entry with nNotNacked := entry.nNotNacked - 1, leastSevereNack := some least },
          if 0 < entry.nNotNacked - 1 then none else some least) := by
  have hlast : nack ∈ account.nacks ++ [nack] :=
    mem_append_right account.nacks (mem_singleton_self nack)
  rcases h.leastSevere with ⟨hnone, hnil⟩ | ⟨least, hleast, hsome, hall⟩
  · refine ⟨nack, hlast, ?_, ?_⟩
    · rw [hnil]
      exact isLeastSevere_singleton nack
    · simp only [PendingInterest.recordNack, hnone]
  · have happend := hall.append nack
    by_cases hless : isLessSevere nack.reason least.reason = true
    · rw [if_pos hless] at happend
      refine ⟨nack, hlast, happend, ?_⟩
      simp only [PendingInterest.recordNack, hsome, hless, if_true]
    · rw [if_neg hless] at happend
      refine ⟨least, mem_append_left [nack] hleast, happend, ?_⟩
      simp only [PendingInterest.recordNack, hsome, hless, if_false, Bool.false_eq_true]

end NdnFc.Client
