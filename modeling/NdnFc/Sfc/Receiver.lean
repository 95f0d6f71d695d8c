import NdnFc.Lib.OrderedMap
import NdnFc.Name.UriRoundTrip
import NdnFc.Sfc.Producer

/-!
# Receiving the segments of a content

The consumer (`NDN-FC-skeleton/sfc_consumer.cpp`, lines 58 to 140) and the function application
(`sfc_function.cpp`, lines 96 to 214) receive segments in the same way, in a buffer by segment
number. The first segment gives the number of the last one, and the others are asked for by names
that are read back from text. When the buffer has as many entries as there are segments, their
contents are joined.
-/

namespace NdnFc

open List Method

namespace Component

def isNumberWithMarker (marker : UInt8) (c : Component) : Bool :=
  (c.value.length == 2 || c.value.length == 3 || c.value.length == 5 || c.value.length == 9) &&
    c.value.head? == some marker

def toNumberWithMarker (marker : UInt8) (c : Component) : Except String ℕ :=
  if !c.isNumberWithMarker marker then
    throw ("Name component does not have the requested marker " ++
      "or the value is not a nonNegativeInteger")
  else Tlv.readNonNegativeInteger c.value.tail

/-- `toSegment`, when both conventions are decoded. -/
def toSegment (c : Component) : Except String ℕ :=
  if c.type = Tlv.genericNameComponent then c.toNumberWithMarker 0x00
  else if c.type = Tlv.segmentNameComponent then c.toNumber
  else throw "Not a Segment component"

@[simp] theorem toSegment_fromSegment {segment : ℕ} (h : segment < 2 ^ 64) :
    (fromSegment segment).toSegment = .ok segment := by
  have hnumber : (fromSegment segment).isNumber = true := by
    have hlength := Tlv.length_writeNonNegativeInteger segment
    unfold Tlv.sizeOfNonNegativeInteger at hlength
    simp only [isNumber, fromSegment, Bool.or_eq_true, beq_iff_eq]
    split_ifs at hlength <;> omega
  have hgeneric : (fromSegment segment).type ≠ Tlv.genericNameComponent :=
    (by decide : Tlv.segmentNameComponent ≠ Tlv.genericNameComponent)
  have htype : (fromSegment segment).type = Tlv.segmentNameComponent := rfl
  rw [toSegment, if_neg hgeneric, if_pos htype, toNumber, hnumber]
  exact Tlv.readNonNegativeInteger_write h

end Component

namespace Sfc

/-- The segment number of a Data, from the last component of its name. The source reads out of bounds
when the name is empty. -/
def segmentNumber (name : Name) : Except String ℕ :=
  match name.getLast? with
  | none => throw "name has no component"
  | some c => c.toSegment

/-- The number of the last segment. The source does not check that there is a final block. -/
def finalBlockNumber (data : Data) : Except String ℕ :=
  match data.metaInfo.finalBlockId with
  | none => throw "Data has no FinalBlockId"
  | some c => c.toSegment

variable (env : Option Bool)

/-- `getPrefix`: the text of all components but the last two is read as a name. -/
def getPrefix (name : Name) : Except String Name :=
  Name.ofUri ((name.take (name.length - 2)).flatMap fun c => '/' :: c.toUri env .envOrAlternate)

/-- The text of the last component but one. The source reads out of bounds when there is none. -/
def outputFilename (name : Name) : Except String (List Char) :=
  match name.dropLast.getLast? with
  | none => throw "name has no file name"
  | some c => .ok (c.toUri env .envOrAlternate)

/-- The file name as a name. -/
def getFilename (name : Name) : Except String Name := do
  let text ← outputFilename env name
  Name.ofUri text

section

variable [Sha256]

def newInterest (name function : Name) (lifetime : Int64) (mustBeFresh : Bool) :
    Except String Interest.Object :=
  toExcept
    (do
      Interest.Object.setName name
      Interest.Object.setFunction function
      Interest.Object.setInterestLifetime lifetime
      Interest.Object.setMustBeFresh mustBeFresh)
    Interest.Object.default

end

/-- The members that receive one content: its name, the segments and the joined contents, the number
of the last segment (not initialised at first), and the unanswered Interests. -/
structure Receiver where
  contentPrefix : Name
  filename : Name
  receiveBuffer : List (ℕ × Data)
  contentBuffer : Bytes
  incomingFinalBlockNumber : ℕ
  expressed : List Interest.Object

namespace Receiver

/-- What the messages that are printed unless the application is quiet read. -/
def describe (data : Data) : Except String Unit := do
  let _ ← getPrefix env data.name
  let _ ← segmentNumber data.name
  let _ ← finalBlockNumber data
  pure ()

/-- The name and the number of segments, from the first segment. -/
def acceptFirst (data : Data) : EStateM String Receiver Unit := do
  let contentPrefix ← Method.ofExcept (getPrefix env data.name)
  modify ({ · with contentPrefix })
  let filename ← Method.ofExcept (getFilename env data.name)
  modify ({ · with filename })
  let incomingFinalBlockNumber ← Method.ofExcept (finalBlockNumber data)
  modify ({ · with incomingFinalBlockNumber })

/-- `reassembleSegments`: the contents are added in the order of the segment numbers. -/
def reassembleSegments (r : Receiver) : Receiver :=
  { r with
    contentBuffer := r.contentBuffer ++ r.receiveBuffer.flatMap fun entry => entry.2.contentValue
    receiveBuffer := [] }

/-- The test for completeness at the end of `onData`. The result is the name of the file to be written
and its contents, when the content is complete. -/
def complete (data : Data) :
    EStateM String Receiver (Option (List Char × Bytes)) := do
  let r ← get
  if r.receiveBuffer.length = (r.incomingFinalBlockNumber + 1) % 2 ^ 64 then do
    modify reassembleSegments
    let filename ← Method.ofExcept (outputFilename env data.name)
    let r ← get
    modify ({ · with contentBuffer := [] })
    pure (some (filename, r.contentBuffer))
  else pure none

variable [Sha256]

def expressSegment (function : Name) (lifetime : Int64) (mustBeFresh : Bool) (segment : ℕ) :
    EStateM String Receiver Unit := do
  let r ← get
  let interest ← Method.ofExcept (newInterest
    (r.contentPrefix ++ r.filename ++ [Component.fromSegment segment]) function lifetime mustBeFresh)
  modify fun r => { r with expressed := r.expressed ++ [interest] }

/-- The Interests for the segments after the first. -/
def expressRest (function : Name) (lifetime : Int64) (mustBeFresh : Bool) :
    EStateM String Receiver Unit := do
  let r ← get
  forM (range' 1 r.incomingFinalBlockNumber) (expressSegment function lifetime mustBeFresh)

/-- The first segment tells which other segments there are. -/
def follow (env : Option Bool) (function : Name) (lifetime : Int64) (mustBeFresh : Bool)
    (segment : ℕ) (data : Data) : EStateM String Receiver Unit :=
  if segment = 0 then do
    acceptFirst env data
    expressRest function lifetime mustBeFresh
  else pure ()

/-- `onData` up to the point where the consumer and the function application differ. -/
def receive (env : Option Bool) (isQuiet : Bool) (function : Name) (lifetime : Int64)
    (mustBeFresh : Bool) (data : Data) : EStateM String Receiver (Option (List Char × Bytes)) := do
  Method.ofExcept (if isQuiet then pure () else describe env data)
  let segment ← Method.ofExcept (segmentNumber data.name)
  modify fun r => { r with receiveBuffer := OrderedMap.assign segment data r.receiveBuffer }
  follow env function lifetime mustBeFresh segment data
  complete env data

end Receiver

/-! ### The names -/

@[simp] theorem segmentNumber_append {name : Name} {segment : ℕ} (h : segment < 2 ^ 64) :
    segmentNumber (name ++ [Component.fromSegment segment]) = .ok segment := by
  rw [segmentNumber, getLast?_concat]
  exact Component.toSegment_fromSegment h

section

variable (front : Name) (filename last : Component)

theorem getPrefix_eq :
    getPrefix env (front ++ [filename] ++ [last]) = front.mapM (Component.throughUri env) := by
  have htake : (front ++ [filename] ++ [last]).take ((front ++ [filename] ++ [last]).length - 2) =
      front := by simp
  rw [getPrefix, htake]
  cases front with
  | nil => rfl
  | cons c front =>
    have huri := Name.ofUri_toUri env .envOrAlternate (c :: front)
    rw [Name.toUri, if_neg (cons_ne_nil c front)] at huri
    exact huri

theorem outputFilename_append :
    outputFilename env (front ++ [filename] ++ [last]) =
      .ok (filename.toUri env .envOrAlternate) := by
  rw [outputFilename, dropLast_concat, getLast?_concat]

theorem getFilename_append :
    getFilename env (front ++ [filename] ++ [last]) =
      [filename].mapM (Component.throughUri env) := by
  rw [getFilename, outputFilename_append]
  exact Name.ofUri_component env .envOrAlternate filename

end

/-! ### The Interests -/

def segmentInterest (name function : Name) (lifetime : Int64) (mustBeFresh : Bool) :
    Interest.Object :=
  { Interest.ofName name function with
    interestLifetime := lifetime.toInt, mustBeFresh, wire := none }

section

variable [Sha256]

theorem run_setName_default_eq_ok_iff {name : Name} {i : Interest.Object} :
    (Interest.Object.setName name).run Interest.Object.default = .ok () i ↔
      Interest.findParametersDigestComponent name ≠ .several ∧
        i = { Interest.ofName name [] with wire := none } := by
  by_cases hseveral : Interest.findParametersDigestComponent name = .several
  · simp [Interest.Object.setName, hseveral]
  have hnamed : (Interest.Object.setName name).run Interest.Object.default =
      .ok () { Interest.ofName name [] with wire := none } := by
    rw [Interest.Object.setName, if_neg hseveral]
    by_cases hempty : name = []
    · subst hempty
      rfl
    · have hdefault : name ≠ Interest.Object.default.name := hempty
      change EStateM.Result.ok () (if name = Interest.Object.default.name then _ else _) = _
      rw [if_neg hdefault]
      rfl
  rw [hnamed, EStateM.Result.ok.injEq, eq_comm (a := i)]
  simp [hseveral]

variable {lifetime : Int64}

omit [Sha256] in
theorem run_setInterestLifetime_eq_ok_iff {i j : Interest.Object} (hwire : i.wire = none) :
    (Interest.Object.setInterestLifetime lifetime).run i = .ok () j ↔
      0 ≤ lifetime.toInt ∧ j = { i with interestLifetime := lifetime.toInt } := by
  rw [Interest.Object.setInterestLifetime]
  split_ifs with hnegative
  · simp [not_le.mpr hnegative]
  · have hset : (if lifetime.toInt = i.interestLifetime then i
        else { i with interestLifetime := lifetime.toInt, wire := none }) =
        { i with interestLifetime := lifetime.toInt } := by
      obtain ⟨fields, wire⟩ := i
      obtain rfl : wire = none := hwire
      split_ifs with hsame
      · rw [hsame]
      · rfl
    change EStateM.Result.ok () (if lifetime.toInt = i.interestLifetime then i
        else { i with interestLifetime := lifetime.toInt, wire := none }) = _ ↔ _
    rw [hset, EStateM.Result.ok.injEq, eq_comm (a := j)]
    simp [not_lt.mp hnegative]

theorem newInterest_eq_ok_iff {name function : Name} {mustBeFresh : Bool}
    {interest : Interest.Object} :
    newInterest name function lifetime mustBeFresh = .ok interest ↔
      Interest.findParametersDigestComponent name ≠ .several ∧ 0 ≤ lifetime.toInt ∧
        interest = segmentInterest name function lifetime mustBeFresh := by
  rw [newInterest, toExcept_eq_ok_iff, run_bind_eq_ok_iff]
  constructor
  · rintro ⟨_, named, hnamed, h⟩
    rw [run_setName_default_eq_ok_iff] at hnamed
    obtain ⟨hseveral, rfl⟩ := hnamed
    rw [Interest.Object.setFunction, run_modify_bind, run_bind_eq_ok_iff] at h
    obtain ⟨_, lived, hlived, h⟩ := h
    rw [run_setInterestLifetime_eq_ok_iff rfl] at hlived
    obtain ⟨hlifetime, rfl⟩ := hlived
    cases h
    exact ⟨hseveral, hlifetime, rfl⟩
  · rintro ⟨hseveral, hlifetime, rfl⟩
    refine ⟨(), _, run_setName_default_eq_ok_iff.mpr ⟨hseveral, rfl⟩, ?_⟩
    rw [Interest.Object.setFunction, run_modify_bind]
    refine run_bind_eq_ok_iff.mpr
      ⟨(), _, (run_setInterestLifetime_eq_ok_iff rfl).mpr ⟨hlifetime, rfl⟩, ?_⟩
    rfl

namespace Receiver

theorem run_forM_expressSegment_eq_ok_iff {function : Name} {mustBeFresh : Bool} {segments : List ℕ}
    {r r' : Receiver} :
    (forM segments (expressSegment function lifetime mustBeFresh)).run r = .ok () r' ↔
      ∃ interests, (segments.mapM fun segment => newInterest
          (r.contentPrefix ++ r.filename ++ [Component.fromSegment segment]) function lifetime
          mustBeFresh) = .ok interests ∧
        r' = { r with expressed := r.expressed ++ interests } := by
  induction segments generalizing r with
  | nil =>
    simp only [forM_nil, mapM_nil]
    constructor
    · intro h
      cases h
      exact ⟨[], rfl, by simp⟩
    · rintro ⟨interests, h, rfl⟩
      cases h
      simp
  | cons segment segments ih =>
    rw [forM_cons, run_bind_eq_ok_iff]
    simp only [mapM_cons, Fallible.bind_eq_ok_iff]
    constructor
    · rintro ⟨_, r₁, hfirst, hrest⟩
      rw [expressSegment, Method.run_get_bind, Method.run_ofExcept_bind_eq_ok_iff] at hfirst
      obtain ⟨interest, hinterest, h⟩ := hfirst
      cases h
      obtain ⟨interests, hinterests, rfl⟩ := ih.mp hrest
      exact ⟨_, ⟨interest, hinterest, interests, hinterests, rfl⟩, by simp⟩
    · rintro ⟨_, ⟨interest, hinterest, interests, hinterests, h⟩, rfl⟩
      cases h
      refine ⟨(), { r with expressed := r.expressed ++ [interest] }, ?_,
        ih.mpr ⟨interests, hinterests, by simp⟩⟩
      rw [expressSegment, Method.run_get_bind]
      exact Method.run_ofExcept_bind_eq_ok_iff.mpr ⟨interest, hinterest, rfl⟩

variable {env : Option Bool} {data : Data}

section

omit [Sha256]

theorem run_acceptFirst_eq_ok_iff {r r' : Receiver} :
    (acceptFirst env data).run r = .ok () r' ↔
      ∃ contentPrefix filename last, getPrefix env data.name = .ok contentPrefix ∧
        getFilename env data.name = .ok filename ∧ finalBlockNumber data = .ok last ∧
        r' = { r with contentPrefix, filename, incomingFinalBlockNumber := last } := by
  rw [acceptFirst]
  simp only [Method.run_ofExcept_bind_eq_ok_iff, run_modify_bind]
  constructor
  · rintro ⟨contentPrefix, hfront, filename, hfilename, last, hlast, h⟩
    cases h
    exact ⟨contentPrefix, filename, last, hfront, hfilename, hlast, rfl⟩
  · rintro ⟨contentPrefix, filename, last, hfront, hfilename, hlast, rfl⟩
    exact ⟨contentPrefix, hfront, filename, hfilename, last, hlast, rfl⟩

theorem run_complete {r : Receiver} {text : List Char} (h : outputFilename env data.name = .ok text) :
    (complete env data).run r =
      if r.receiveBuffer.length = (r.incomingFinalBlockNumber + 1) % 2 ^ 64 then
        .ok (some (text, r.contentBuffer ++ r.receiveBuffer.flatMap fun entry =>
          entry.2.contentValue)) { r with receiveBuffer := [], contentBuffer := [] }
      else .ok none r := by
  rw [complete, Method.run_get_bind]
  split_ifs
  · rw [run_modify_bind, h]
    rfl
  · rfl

/-- What the messages read. -/
structure Describable (env : Option Bool) (data : Data) : Prop where
  front : ∃ contentPrefix, getPrefix env data.name = .ok contentPrefix
  last : ∃ last, finalBlockNumber data = .ok last

theorem messages_eq_ok_iff {isQuiet : Bool} {segment : ℕ}
    (hsegment : segmentNumber data.name = .ok segment) :
    (if isQuiet then pure () else describe env data) = .ok () ↔
      (isQuiet = false → Describable env data) := by
  cases isQuiet with
  | true => simp
  | false =>
    rw [if_neg (by decide), describe, hsegment]
    simp only [Fallible.bind_eq_ok_iff, Fallible.ok_bind]
    constructor
    · rintro ⟨contentPrefix, hfront, last, hlast, -⟩ -
      exact ⟨⟨contentPrefix, hfront⟩, last, hlast⟩
    · intro h
      obtain ⟨⟨contentPrefix, hfront⟩, last, hlast⟩ := h trivial
      exact ⟨contentPrefix, hfront, last, hlast, rfl⟩

end

variable {env : Option Bool} {isQuiet : Bool} {function : Name} {lifetime : Int64}
  {mustBeFresh : Bool} {data : Data} {segment last : ℕ} {r r' : Receiver}
  {out : Option (List Char × Bytes)}

theorem run_receive_iff :
    (receive env isQuiet function lifetime mustBeFresh data).run r = .ok out r' ↔
      ∃ segment, segmentNumber data.name = .ok segment ∧
        (isQuiet = false → Describable env data) ∧
        ∃ r₁, (follow env function lifetime mustBeFresh segment data).run
            { r with receiveBuffer := OrderedMap.assign segment data r.receiveBuffer } = .ok () r₁ ∧
          (complete env data).run r₁ = .ok out r' := by
  rw [receive, Method.run_ofExcept_bind_eq_ok_iff]
  constructor
  · rintro ⟨_, hquiet, h⟩
    obtain ⟨segment, hsegment, h⟩ := Method.run_ofExcept_bind_eq_ok_iff.mp h
    rw [run_modify_bind] at h
    obtain ⟨_, r₁, hfollow, hcomplete⟩ := run_bind_eq_ok_iff.mp h
    exact ⟨segment, hsegment, (messages_eq_ok_iff hsegment).mp hquiet, r₁, hfollow, hcomplete⟩
  · rintro ⟨segment, hsegment, hquiet, r₁, hfollow, hcomplete⟩
    refine ⟨(), (messages_eq_ok_iff hsegment).mpr hquiet,
      Method.run_ofExcept_bind_eq_ok_iff.mpr ⟨segment, hsegment, ?_⟩⟩
    rw [run_modify_bind]
    exact run_bind_eq_ok_iff.mpr ⟨(), r₁, hfollow, hcomplete⟩

theorem run_receive_eq_ok_iff (hsegment : segmentNumber data.name = .ok segment)
    (hlast : finalBlockNumber data = .ok last) :
    (receive env isQuiet function lifetime mustBeFresh data).run r = .ok out r' ↔
      (isQuiet = false → ∃ contentPrefix, getPrefix env data.name = .ok contentPrefix) ∧
      ∃ r₁, (follow env function lifetime mustBeFresh segment data).run
          { r with receiveBuffer := OrderedMap.assign segment data r.receiveBuffer } = .ok () r₁ ∧
        (complete env data).run r₁ = .ok out r' := by
  rw [run_receive_iff]
  constructor
  · rintro ⟨segment', hsegment', hquiet, h⟩
    cases hsegment.symm.trans hsegment'
    exact ⟨fun hloud => (hquiet hloud).front, h⟩
  · rintro ⟨hquiet, h⟩
    exact ⟨segment, hsegment, fun hloud => ⟨hquiet hloud, last, hlast⟩, h⟩

theorem buffers_of_run_follow {r₁ : Receiver}
    (h : (follow env function lifetime mustBeFresh segment data).run r = .ok () r₁) :
    r₁.receiveBuffer = r.receiveBuffer ∧ r₁.contentBuffer = r.contentBuffer ∧
      (segment ≠ 0 → r₁ = r) ∧
      (segment = 0 → ∃ contentPrefix filename, getPrefix env data.name = .ok contentPrefix ∧
        getFilename env data.name = .ok filename ∧ r₁.contentPrefix = contentPrefix ∧
        r₁.filename = filename) := by
  rw [follow] at h
  split_ifs at h with hzero
  · obtain ⟨_, r₂, haccept, hexpress⟩ := run_bind_eq_ok_iff.mp h
    obtain ⟨contentPrefix, filename, last, hfront, hfilename, -, rfl⟩ :=
      run_acceptFirst_eq_ok_iff.mp haccept
    obtain ⟨interests, -, rfl⟩ := run_forM_expressSegment_eq_ok_iff.mp hexpress
    exact ⟨rfl, rfl, fun hne => absurd hzero hne,
      fun _ => ⟨contentPrefix, filename, hfront, hfilename, rfl, rfl⟩⟩
  · cases h
    exact ⟨rfl, rfl, fun _ => rfl, fun h => absurd h hzero⟩

omit [Sha256] in
theorem run_complete_cases {r₁ : Receiver} (h : (complete env data).run r₁ = .ok out r') :
    out = none ∧ r' = r₁ ∨
      ∃ text, out = some (text, r₁.contentBuffer ++ r₁.receiveBuffer.flatMap fun entry =>
        entry.2.contentValue) ∧ r' = { r₁ with receiveBuffer := [], contentBuffer := [] } := by
  cases htext : outputFilename env data.name with
  | ok text =>
    rw [run_complete htext] at h
    split_ifs at h
    · cases h
      exact .inr ⟨text, rfl, rfl⟩
    · cases h
      exact .inl ⟨rfl, rfl⟩
  | error e =>
    rw [complete, Method.run_get_bind] at h
    split_ifs at h
    · rw [run_modify_bind, htext] at h
      cases h
    · cases h
      exact .inl ⟨rfl, rfl⟩

theorem run_receive_first_eq_ok_iff (hsegment : segmentNumber data.name = .ok 0)
    (hlast : finalBlockNumber data = .ok last) :
    (receive env isQuiet function lifetime mustBeFresh data).run r = .ok out r' ↔
      ∃ contentPrefix filename interests, getPrefix env data.name = .ok contentPrefix ∧
        getFilename env data.name = .ok filename ∧
        ((range' 1 last).mapM fun segment => newInterest
          (contentPrefix ++ filename ++ [Component.fromSegment segment]) function lifetime
          mustBeFresh) = .ok interests ∧
        (complete env data).run
          { r with
            contentPrefix, filename, incomingFinalBlockNumber := last
            receiveBuffer := OrderedMap.assign 0 data r.receiveBuffer
            expressed := r.expressed ++ interests } = .ok out r' := by
  rw [run_receive_eq_ok_iff hsegment hlast]
  constructor
  · rintro ⟨-, r₁, hfollow, hcomplete⟩
    rw [follow, if_pos rfl, run_bind_eq_ok_iff] at hfollow
    obtain ⟨_, r₂, haccept, hexpress⟩ := hfollow
    obtain ⟨contentPrefix, filename, last', hfront, hfilename, hlast', rfl⟩ :=
      run_acceptFirst_eq_ok_iff.mp haccept
    obtain rfl : last = last' := Except.ok.inj (hlast.symm.trans hlast')
    obtain ⟨interests, hinterests, rfl⟩ := run_forM_expressSegment_eq_ok_iff.mp hexpress
    exact ⟨contentPrefix, filename, interests, hfront, hfilename, hinterests, hcomplete⟩
  · rintro ⟨contentPrefix, filename, interests, hfront, hfilename, hinterests, hcomplete⟩
    refine ⟨fun _ => ⟨contentPrefix, hfront⟩, _, ?_, hcomplete⟩
    rw [follow, if_pos rfl]
    exact run_bind_eq_ok_iff.mpr ⟨(), _,
      run_acceptFirst_eq_ok_iff.mpr ⟨contentPrefix, filename, last, hfront, hfilename, hlast, rfl⟩,
      run_forM_expressSegment_eq_ok_iff.mpr ⟨interests, hinterests, rfl⟩⟩

theorem run_receive_other_eq_ok_iff (hsegment : segmentNumber data.name = .ok segment)
    (hpos : segment ≠ 0) (hlast : finalBlockNumber data = .ok last) :
    (receive env isQuiet function lifetime mustBeFresh data).run r = .ok out r' ↔
      (isQuiet = false → ∃ contentPrefix, getPrefix env data.name = .ok contentPrefix) ∧
        (complete env data).run
          { r with receiveBuffer := OrderedMap.assign segment data r.receiveBuffer } =
            .ok out r' := by
  rw [run_receive_eq_ok_iff hsegment hlast, follow, if_neg hpos]
  refine and_congr_right fun _ => ⟨?_, fun h => ⟨_, rfl, h⟩⟩
  rintro ⟨r₁, hfollow, h⟩
  cases hfollow
  exact h

end Receiver

end

end Sfc

end NdnFc
