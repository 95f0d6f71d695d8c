import NdnFc.Lib.KeyedList
import NdnFc.Security.SignedPacket

/-!
# The policy for command Interests

`ValidationPolicyCommandInterest` (`ndn-cxx/security/validation-policy-command-interest.cpp`) keeps
for each key the timestamp of the last accepted command Interest. A timestamp has to be near the
system clock and after the recorded one. The records are in a queue in the order of their last
refresh; the oldest are dropped after some time or when there are too many.
-/

namespace NdnFc.Security.CommandInterest

abbrev minSize : ℕ := 4

/-- `Options`, with durations in nanoseconds. -/
structure Options where
  gracePeriod : ℤ
  maxRecords : ℤ
  recordLifetime : ℤ

def Options.default : Options where
  gracePeriod := 2 * 60 * 10 ^ 9
  maxRecords := 1000
  recordLifetime := 60 * 60 * 10 ^ 9

/-- The grace period that the constructor stores. -/
def Options.grace (options : Options) : ℤ :=
  max options.gracePeriod 0

/-- `LastTimestampRecord`; the time of the last refresh is read from the steady clock. -/
structure LastTimestampRecord where
  keyName : Name
  timestamp : ℤ
  lastRefreshed : ℤ
deriving DecidableEq

/-! ### Parsing -/

variable (env : Option Bool)

/-- The timestamp in the name of a command Interest of version 0.2. -/
def timestampOfName (name : Name) : Except Refusal ℤ :=
  if name.length < minSize then
    throw (.failed ⟨.policyError, "Command interest name `" ++ uri env name ++ "` is too short"⟩)
  else
    match fromEnd name 4 with
    | none => throw (.thrown "Requested component does not exist (out of bounds)")
    | some component =>
      if !component.isNumber then
        throw (.failed ⟨.policyError,
          "Command interest `" ++ uri env name ++ "` doesn't include timestamp component"⟩)
      else do
        let count ← Refusal.propagate component.toNumber
        pure (fromUnixTimestamp (Tlv.toMilliseconds count))

/-- The timestamp of a command Interest of either version. -/
def timestampOf (i : SignedInterest) : Except Refusal ℤ :=
  match i.signatureInfo with
  | none => timestampOfName env i.interest.name
  | some si => do
    match ← Refusal.propagate si.getTime with
    | some timestamp => pure timestamp
    | none =>
      throw (.failed ⟨.policyError, "Signed Interest `" ++ uri env i.interest.name ++
        "` doesn't include required SignatureTime element"⟩)

def parseCommandInterest (i : SignedInterest) :
    Except Refusal (Name × ℤ) := do
  let timestamp ← timestampOf env i
  let keyName ← Refusal.report i.keyLocatorName
  pure (keyName, timestamp)

/-! ### Records -/

/-- The record at the front of the queue is dropped by `cleanup`. -/
def Options.drops (options : Options) (steady : ℤ) (record : LastTimestampRecord) (size : ℕ) : Prop :=
  record.lastRefreshed ≤ steady - options.recordLifetime ∨
    0 ≤ options.maxRecords ∧ options.maxRecords < size

instance (options : Options) (steady : ℤ) (record : LastTimestampRecord) (size : ℕ) :
    Decidable (options.drops steady record size) :=
  inferInstanceAs (Decidable (_ ∨ _))

/-- `cleanup`, at a time of the steady clock. -/
def cleanup (options : Options) (steady : ℤ) : List LastTimestampRecord → List LastTimestampRecord
  | [] => []
  | record :: rest =>
    if options.drops steady record (rest.length + 1) then cleanup options steady rest
    else record :: rest

/-- The checks of `checkTimestamp`, at a time of the system clock. -/
def timestampError (options : Options) (system : ℤ)
    (queue : List LastTimestampRecord) (keyName : Name) (timestamp : ℤ) :
    Option ValidationError :=
  if timestamp < system - options.grace ∨ system + options.grace < timestamp then
    some ⟨.policyError, "Timestamp is outside the grace period for key " ++ uri env keyName⟩
  else
    match KeyedList.get? LastTimestampRecord.keyName queue keyName with
    | none => none
    | some record =>
      if timestamp ≤ record.timestamp then
        some ⟨.policyError, "Timestamp is reordered for key " ++ uri env keyName⟩
      else none

/-- `insertNewRecord`: a record of the same key is replaced, whatever its timestamp. -/
def insertNewRecord (steady : ℤ) (keyName : Name) (timestamp : ℤ)
    (queue : List LastTimestampRecord) : List LastTimestampRecord :=
  KeyedList.erase LastTimestampRecord.keyName queue keyName ++ [⟨keyName, timestamp, steady⟩]

/-! ### What the checks say -/

variable {queue : List LastTimestampRecord} {env : Option Bool} {options : Options} {timestamp : ℤ}

theorem timestampError_eq_none_iff {system : ℤ} {keyName : Name} :
    timestampError env options system queue keyName timestamp = none ↔
      system - options.grace ≤ timestamp ∧ timestamp ≤ system + options.grace ∧
        ∀ record, KeyedList.get? LastTimestampRecord.keyName queue keyName = some record →
          record.timestamp < timestamp := by
  unfold timestampError
  split_ifs with h
  · refine iff_of_false (by simp) ?_
    rintro ⟨hlow, hhigh, -⟩
    omega
  · push Not at h
    cases KeyedList.get? LastTimestampRecord.keyName queue keyName with
    | none => simpa using h
    | some record => simp [h.1, h.2]

theorem cleanup_suffix (options : Options) (steady : ℤ) (queue : List LastTimestampRecord) :
    cleanup options steady queue <:+ queue := by
  induction queue with
  | nil => exact List.suffix_refl _
  | cons record rest ih =>
    rw [cleanup]
    split_ifs
    · exact ih.trans (List.suffix_cons _ _)
    · exact List.suffix_refl _

theorem mem_cleanup {steady : ℤ}
    (hsize : options.maxRecords < 0 ∨ queue.length ≤ options.maxRecords)
    {record : LastTimestampRecord} (h : record ∈ queue)
    (hfresh : steady - options.recordLifetime < record.lastRefreshed) :
    record ∈ cleanup options steady queue := by
  induction queue with
  | nil => exact h
  | cons front rest ih =>
    rw [List.length_cons] at hsize
    rw [cleanup]
    split_ifs with hdrop
    · have hold : front.lastRefreshed ≤ steady - options.recordLifetime := by
        rcases hdrop with hold | ⟨hnonneg, hmany⟩
        · exact hold
        · omega
      rcases List.mem_cons.mp h with rfl | hrest
      · omega
      · exact ih (by omega) hrest
    · exact h

theorem keyLocatorName_of_parseCommandInterest {i : SignedInterest} {keyName : Name}
    (h : parseCommandInterest env i = .ok (keyName, timestamp)) :
    i.keyLocatorName = .ok keyName := by
  obtain ⟨_, -, h⟩ := Fallible.bind_eq_ok_iff.mp h
  obtain ⟨klName, hkl, h⟩ := Fallible.bind_eq_ok_iff.mp h
  cases h
  exact Refusal.report_eq_ok_iff.mp hkl

/-! ### Examples -/

/-- A command Interest of version 0.3 with the given value of its SignatureInfo. -/
def sampleCommand (info : Bytes) : Interest :=
  { Interest.ofName [textComponent ['n', 'f', 'd']] [] with
    parameters :=
      (Block.parse ([36, 0, 44, UInt8.ofNat info.length] ++ info ++ [46, 0])).toOption.getD [] }

/-- A command Interest with a digest as its signature. -/
def digestCommand (milliseconds : UInt8) : Interest :=
  sampleCommand [27, 1, 0, 40, 1, milliseconds]

end NdnFc.Security.CommandInterest
