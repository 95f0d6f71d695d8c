import Mathlib.Data.Finset.Card
import NdnFc.Lib.Run
import NdnFc.Security.CommandInterest

/-!
# Replay protection of command Interests

A command Interest is compared with the record of its key when its validation starts, and its
timestamp is recorded when the validation succeeds. In between other validations start and end.
Records expire by the steady clock while timestamps are compared with the system clock. Two
overlapping validations of one key both pass the comparison, and the one that ends last determines
the record.
-/

namespace NdnFc.Security.CommandInterest

open KeyedList List

/-- A command Interest with what `parseCommandInterest` reads from it. -/
structure Command (env : Option Bool) where
  interest : SignedInterest
  keyName : Name
  timestamp : ℤ
  parsed : parseCommandInterest env interest = .ok (keyName, timestamp)

/-- The command in an Interest, if `parseCommandInterest` accepts it. -/
def commandOf (env : Option Bool) (interest : Interest) : Option (Command env) :=
  match SignedInterest.ofInterest interest with
  | .error _ => none
  | .ok i =>
    match h : parseCommandInterest env i with
    | .error _ => none
    | .ok (keyName, timestamp) => some ⟨i, keyName, timestamp, h⟩

/-- The two clocks, the records, the validations that wait for the inner policy, and the commands
that were accepted, in the order in which their validations ended. -/
structure State (env : Option Bool) where
  steady : ℤ
  system : ℤ
  queue : List LastTimestampRecord
  inProgress : List (Command env)
  accepted : List (Command env)

/-- Time passes and the system clock may be adjusted, the validation of an Interest starts, or a
validation in progress succeeds or fails. -/
inductive Event where
  | tick (elapsed : ℕ) (adjustment : ℤ)
  | validate (interest : Interest)
  | succeed (index : ℕ)
  | fail (index : ℕ)

variable {env : Option Bool}

/-- `checkPolicy` up to the inner policy. -/
def check (options : Options) (command : Command env) (s : State env) : State env :=
  let queue := cleanup options s.steady s.queue
  match timestampError env options s.system queue command.keyName command.timestamp with
  | some _ => { s with queue }
  | none => { s with queue, inProgress := s.inProgress ++ [command] }

/-- The success callbacks: the Interest is accepted and its timestamp recorded. -/
def accept (command : Command env) (s : State env) : State env :=
  { s with
    queue := insertNewRecord s.steady command.keyName command.timestamp s.queue
    accepted := s.accepted ++ [command] }

def step (options : Options) (s : State env) : Event → State env
  | .tick elapsed adjustment =>
    { s with steady := s.steady + elapsed, system := s.system + elapsed + adjustment }
  | .validate interest =>
    match commandOf env interest with
    | none => s
    | some command => check options command s
  | .succeed index =>
    match s.inProgress[index]? with
    | none => s
    | some command => accept command { s with inProgress := s.inProgress.eraseIdx index }
  | .fail index => { s with inProgress := s.inProgress.eraseIdx index }

def start (env : Option Bool) (steady system : ℤ) : State env :=
  ⟨steady, system, [], [], []⟩

/-- The timestamps of the accepted commands of each key increase, and no Interest is accepted
twice. -/
def Protected (s : State env) : Prop :=
  (s.accepted.Pairwise fun a b => a.keyName = b.keyName → a.timestamp < b.timestamp) ∧
    (s.accepted.map fun a => a.interest.interest).Nodup

/-- The Interest is signed with one of the keys. -/
def SignedWith (env : Option Bool) (keys : Finset Name) : Event → Prop
  | .validate interest => ∀ command ∈ commandOf env interest, command.keyName ∈ keys
  | _ => True

/-- The system clock is not set back against the steady clock, and a validation starts only when none
of the same key is in progress. -/
def InTurn (s : State env) : Event → Prop
  | .tick _ adjustment => 0 ≤ adjustment
  | .validate interest =>
    ∀ command ∈ commandOf env interest, ∀ other ∈ s.inProgress, other.keyName ≠ command.keyName
  | _ => True

instance (keys : Finset Name) : ∀ event, Decidable (SignedWith env keys event)
  | .validate _ => inferInstanceAs (Decidable (∀ _ ∈ _, _))
  | .tick _ _ => .isTrue trivial
  | .succeed _ => .isTrue trivial
  | .fail _ => .isTrue trivial

instance (s : State env) : ∀ event, Decidable (InTurn s event)
  | .tick _ adjustment => inferInstanceAs (Decidable (0 ≤ adjustment))
  | .validate _ => inferInstanceAs (Decidable (∀ _ ∈ _, ∀ _ ∈ _, _))
  | .succeed _ => .isTrue trivial
  | .fail _ => .isTrue trivial

/-! ### The invariant -/

/-- An accepted command is remembered by a record with its timestamp or a later one, or is too old
to be accepted again. -/
structure Inv (options : Options) (keys : Finset Name) (s : State env) : Prop where
  nodup : (s.queue.map LastTimestampRecord.keyName).Nodup
  recordKeys : ∀ record ∈ s.queue, record.keyName ∈ keys
  -- a record was made within the grace period of its timestamp
  recent : ∀ record ∈ s.queue,
    record.timestamp - options.grace ≤ s.system - (s.steady - record.lastRefreshed)
  keysInProgress : ∀ command ∈ s.inProgress, command.keyName ∈ keys
  nodupInProgress : (s.inProgress.map Command.keyName).Nodup
  notAhead : ∀ command ∈ s.inProgress, command.timestamp ≤ s.system + options.grace
  later : ∀ command ∈ s.inProgress, ∀ a ∈ s.accepted, a.keyName = command.keyName →
    a.timestamp < command.timestamp
  remembered : ∀ a ∈ s.accepted, a.timestamp < s.system - options.grace ∨
    ∃ record ∈ s.queue, record.keyName = a.keyName ∧ a.timestamp ≤ record.timestamp
  increasing : s.accepted.Pairwise fun a b => a.keyName = b.keyName → a.timestamp < b.timestamp

namespace Inv

variable {options : Options} {keys : Finset Name} {s : State env} (h : Inv options keys s)

include h

theorem length_queue_le : s.queue.length ≤ keys.card := by
  have hsubset : (s.queue.map LastTimestampRecord.keyName).toFinset ⊆ keys := by
    intro keyName hmem
    obtain ⟨record, hrecord, rfl⟩ := mem_map.mp (mem_toFinset.mp hmem)
    exact h.recordKeys record hrecord
  have hcard := Finset.card_le_card hsubset
  rwa [toFinset_card_of_nodup h.nodup, length_map] at hcard

theorem tick {elapsed : ℕ} {adjustment : ℤ} (hforward : 0 ≤ adjustment) :
    Inv options keys (step options s (.tick elapsed adjustment)) where
  nodup := h.nodup
  recordKeys := h.recordKeys
  recent := by
    intro record hrecord
    have hrecent := h.recent record hrecord
    simp only [step]
    omega
  keysInProgress := h.keysInProgress
  nodupInProgress := h.nodupInProgress
  notAhead := by
    intro command hcommand
    have hnotAhead := h.notAhead command hcommand
    simp only [step]
    omega
  later := h.later
  remembered := by
    intro a ha
    rcases h.remembered a ha with hold | hrecord
    · left
      simp only [step]
      omega
    · exact .inr hrecord
  increasing := h.increasing

theorem cleanup (hkeys : options.maxRecords < 0 ∨ keys.card ≤ options.maxRecords)
    (hlifetime : 2 * options.grace < options.recordLifetime) :
    Inv options keys { s with queue := cleanup options s.steady s.queue } where
  nodup := h.nodup.sublist ((cleanup_suffix _ _ _).sublist.map _)
  recordKeys := fun record hrecord => h.recordKeys record ((cleanup_suffix _ _ _).subset hrecord)
  recent := fun record hrecord => h.recent record ((cleanup_suffix _ _ _).subset hrecord)
  keysInProgress := h.keysInProgress
  nodupInProgress := h.nodupInProgress
  notAhead := h.notAhead
  later := h.later
  remembered := by
    intro a ha
    rcases h.remembered a ha with hold | ⟨record, hrecord, hkey, hle⟩
    · exact .inl hold
    · by_cases hfresh : s.steady - options.recordLifetime < record.lastRefreshed
      · have hsize : options.maxRecords < 0 ∨ s.queue.length ≤ options.maxRecords := by
          have hlength := h.length_queue_le
          omega
        exact .inr ⟨record, mem_cleanup hsize hrecord hfresh, hkey, hle⟩
      · have hrecent := h.recent record hrecord
        left
        change a.timestamp < s.system - options.grace
        omega
  increasing := h.increasing

variable {command : Command env}

theorem lt_of_timestampError {a : Command env}
    (hcheck : timestampError env options s.system s.queue command.keyName command.timestamp = none)
    (ha : a ∈ s.accepted) (hkey : a.keyName = command.keyName) :
    a.timestamp < command.timestamp := by
  obtain ⟨hlow, -, hrecords⟩ := timestampError_eq_none_iff.mp hcheck
  rcases h.remembered a ha with hold | ⟨record, hrecord, hrecordKey, hle⟩
  · omega
  · have hget : get? LastTimestampRecord.keyName s.queue command.keyName = some record :=
      (get?_eq_some_iff h.nodup).mpr ⟨hrecord, hrecordKey.trans hkey⟩
    have hlt := hrecords record hget
    omega

theorem begin (hkey : command.keyName ∈ keys)
    (halone : ∀ other ∈ s.inProgress, other.keyName ≠ command.keyName)
    (hcheck : timestampError env options s.system s.queue command.keyName command.timestamp = none) :
    Inv options keys { s with inProgress := s.inProgress ++ [command] } where
  nodup := h.nodup
  recordKeys := h.recordKeys
  recent := h.recent
  keysInProgress := forall_mem_append.mpr ⟨h.keysInProgress, by simpa using hkey⟩
  nodupInProgress := by
    simpa [nodup_append] using ⟨h.nodupInProgress, halone⟩
  notAhead := by
    have hhigh := (timestampError_eq_none_iff.mp hcheck).2.1
    exact forall_mem_append.mpr ⟨h.notAhead, by simpa using hhigh⟩
  later := forall_mem_append.mpr ⟨h.later, forall_mem_singleton.mpr fun _ ha hsame =>
    h.lt_of_timestampError hcheck ha hsame⟩
  remembered := h.remembered
  increasing := h.increasing

theorem drop (index : ℕ) :
    Inv options keys { s with inProgress := s.inProgress.eraseIdx index } where
  nodup := h.nodup
  recordKeys := h.recordKeys
  recent := h.recent
  keysInProgress := fun c hc => h.keysInProgress c (mem_of_mem_eraseIdx hc)
  nodupInProgress := h.nodupInProgress.sublist ((eraseIdx_sublist _ _).map _)
  notAhead := fun c hc => h.notAhead c (mem_of_mem_eraseIdx hc)
  later := fun c hc => h.later c (mem_of_mem_eraseIdx hc)
  remembered := h.remembered
  increasing := h.increasing

theorem accept (hkey : command.keyName ∈ keys)
    (hnotAhead : command.timestamp ≤ s.system + options.grace)
    (hlater : ∀ a ∈ s.accepted, a.keyName = command.keyName → a.timestamp < command.timestamp)
    (halone : ∀ other ∈ s.inProgress, other.keyName ≠ command.keyName) :
    Inv options keys (accept command s) where
  nodup := nodup_map_key_append_singleton (nodup_map_key_erase h.nodup)
    (by simp [get?_erase])
  recordKeys := forall_mem_append.mpr
    ⟨fun record hrecord => h.recordKeys record (mem_filter.mp hrecord).1, by simpa using hkey⟩
  recent := by
    refine forall_mem_append.mpr
      ⟨fun record hrecord => h.recent record (mem_filter.mp hrecord).1, ?_⟩
    simpa [CommandInterest.accept] using hnotAhead
  keysInProgress := h.keysInProgress
  nodupInProgress := h.nodupInProgress
  notAhead := h.notAhead
  later c hc := forall_mem_append.mpr ⟨h.later c hc, forall_mem_singleton.mpr fun hsame =>
    absurd hsame.symm (halone c hc)⟩
  remembered := by
    intro a ha
    have hnew : (⟨command.keyName, command.timestamp, s.steady⟩ : LastTimestampRecord) ∈
        (CommandInterest.accept command s).queue := by
      simp [CommandInterest.accept, insertNewRecord]
    -- the new record also stands for the earlier commands of its key
    by_cases hsame : a.keyName = command.keyName
    · refine .inr ⟨_, hnew, hsame.symm, ?_⟩
      rcases mem_append.mp ha with ha | ha
      · exact (hlater a ha hsame).le
      · exact (congrArg Command.timestamp (mem_singleton.mp ha)).le
    · have hbefore : a ∈ s.accepted := by
        rcases mem_append.mp ha with ha | ha
        · exact ha
        · exact absurd (congrArg Command.keyName (mem_singleton.mp ha)) hsame
      rcases h.remembered a hbefore with hold | ⟨record, hrecord, hrecordKey, hle⟩
      · exact .inl hold
      · have hother : record.keyName ≠ command.keyName := fun heq => hsame (hrecordKey ▸ heq)
        exact .inr ⟨record, mem_append_left _ (by simpa [erase] using ⟨hrecord, hother⟩),
          hrecordKey, hle⟩
  increasing := by
    refine pairwise_append.mpr ⟨h.increasing, pairwise_singleton _ _, ?_⟩
    intro a ha b hb hsame
    obtain rfl := mem_singleton.mp hb
    exact hlater a ha hsame

theorem succeed (index : ℕ) : Inv options keys (step options s (.succeed index)) := by
  simp only [step]
  cases hcommand : s.inProgress[index]? with
  | none => exact h
  | some command =>
    have hmem := mem_of_getElem? hcommand
    refine (h.drop index).accept (h.keysInProgress command hmem) (h.notAhead command hmem)
      (h.later command hmem) ?_
    -- no other validation in progress has the same key
    obtain ⟨hindex, rfl⟩ := List.getElem?_eq_some_iff.mp hcommand
    have hperm := (getElem_cons_eraseIdx_perm hindex).map Command.keyName
    have hnodup := hperm.nodup_iff.mpr h.nodupInProgress
    intro other hother heq
    exact (nodup_cons.mp hnodup).1 (heq ▸ mem_map_of_mem hother)

theorem step (hkeys : options.maxRecords < 0 ∨ keys.card ≤ options.maxRecords)
    (hlifetime : 2 * options.grace < options.recordLifetime) {event : Event}
    (hsigned : SignedWith env keys event) (hturn : InTurn s event) :
    Inv options keys (step options s event) := by
  cases event with
  | tick elapsed adjustment => exact h.tick hturn
  | succeed index => exact h.succeed index
  | fail index => exact h.drop index
  | validate interest =>
    simp only [CommandInterest.step]
    cases hcommand : commandOf env interest with
    | none => exact h
    | some command =>
      have hclean := h.cleanup hkeys hlifetime
      simp only [check]
      cases hcheck : timestampError env options s.system
          (CommandInterest.cleanup options s.steady s.queue) command.keyName command.timestamp with
      | some e => exact hclean
      | none => exact hclean.begin (hsigned command hcommand) (hturn command hcommand) hcheck

end Inv

/-! ### Replay protection -/

theorem Command.eq_of_interest {a b : Command env} (h : a.interest.interest = b.interest.interest) :
    a.keyName = b.keyName ∧ a.timestamp = b.timestamp := by
  obtain ⟨⟨interest, signatureInfo, hinfo⟩, keyName, timestamp, hparsed⟩ := a
  obtain ⟨⟨interest', signatureInfo', hinfo'⟩, keyName', timestamp', hparsed'⟩ := b
  obtain rfl : interest = interest' := h
  obtain rfl : signatureInfo = signatureInfo' := by simpa using hinfo.symm.trans hinfo'
  simpa using hparsed.symm.trans hparsed'

theorem Inv.protected {options : Options} {keys : Finset Name} {s : State env}
    (h : Inv options keys s) : Protected s := by
  refine ⟨h.increasing, pairwise_map.mpr (h.increasing.imp ?_)⟩
  intro a b hlt hsame
  obtain ⟨hkey, htimestamp⟩ := Command.eq_of_interest hsame
  have hirrefl := hlt hkey
  omega

/-- When records outlive twice the grace period, there are no more keys than records, the system
clock is not set back and the validations of each key are made in turn, the timestamps of the
accepted commands of each key increase. -/
theorem protected_of_inTurn (options : Options) (keys : Finset Name)
    (hkeys : options.maxRecords < 0 ∨ keys.card ≤ options.maxRecords)
    (hlifetime : 2 * options.grace < options.recordLifetime) (steady system : ℤ)
    (events : List Event)
    (hevents : Run.Meets (step options) (fun s event => SignedWith env keys event ∧ InTurn s event)
      (start env steady system) events) :
    Protected (Run.run (step options) (start env steady system) events) :=
  Inv.protected <| Run.invariant_of_meets (Inv options keys)
    (fun _ _ hinv hevent => hinv.step hkeys hlifetime hevent.1 hevent.2)
    (by constructor <;> simp [start]) hevents

/-- Two commands, one after the other. -/
theorem protected_two_commands : let events : List Event :=
      [.validate (digestCommand 7), .succeed 0, .validate (digestCommand 8), .succeed 0]
    let s := Run.run (step .default) (start none 0 0) events
    s.accepted.map Command.timestamp = [7000000, 8000000] ∧ Protected s :=
  ⟨by decide, protected_of_inTurn .default {digestSha256Identity} (.inr (by decide)) (by decide) 0 0 _
    (by decide)⟩

/-- A command Interest is accepted twice when its validations overlap, although records outlive
twice the grace period, and when they are in turn and records live for exactly that time. -/
theorem not_protected :
    (∃ events : List Event, (∀ event ∈ events, SignedWith none {digestSha256Identity} event) ∧
      2 * Options.default.grace < Options.default.recordLifetime ∧
      ¬ Protected (Run.run (step .default) (start none 0 0) events)) ∧
    ∃ options : Options, ∃ events : List Event,
      Run.Meets (step options)
        (fun s event => SignedWith none {digestSha256Identity} event ∧ InTurn s event)
        (start none 0 0) events ∧
      1 ≤ options.maxRecords ∧ 2 * options.grace = options.recordLifetime ∧
      ¬ Protected (Run.run (step options) (start none 0 0) events) := by
  constructor
  · refine ⟨[.validate (digestCommand 7), .validate (digestCommand 7), .succeed 0, .succeed 0],
      by decide, by decide, ?_⟩
    rintro ⟨-, honce⟩
    exact absurd honce (by decide)
  · refine ⟨⟨7000000, 1000, 14000000⟩, [.validate (digestCommand 7), .succeed 0, .tick 14000000 0,
      .validate (digestCommand 7), .succeed 0], by decide, by decide, by decide, ?_⟩
    rintro ⟨-, honce⟩
    exact absurd honce (by decide)

end NdnFc.Security.CommandInterest
