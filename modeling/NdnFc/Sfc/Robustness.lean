import NdnFc.Sfc.ContentTransfer
import NdnFc.Sfc.FuncNode

/-!
# When the handlers of a function application return

The handlers of `Func` (`NDN-FC-skeleton/sfc_function.cpp`, lines 56 to 192 and 317 to 336) index
the store by the number that an Interest asks for, use the final block of a Data without looking
whether there is one, and copy names through their texts. An access out of bounds or an exception is
a fault. A call does not return when the content is to be cut into segments of size zero.
-/

namespace NdnFc.Sfc

namespace Receiver

open Method Fallible

variable [Sha256] {env : Option Bool} {isQuiet : Bool} {function : Name} {lifetime : Int64}
  {mustBeFresh : Bool} {data : Data} {r r' : Receiver} {out : Option (List Char × Bytes)}

/-- The content name and the number of the last segment that count when a segment has arrived: those of
the first segment, or those that are known. -/
def expected (r : Receiver) (env : Option Bool) (data : Data) (segment : ℕ) :
    Except String (Name × ℕ) :=
  if segment = 0 then do
    let contentPrefix ← getPrefix env data.name
    let filename ← getFilename env data.name
    let last ← finalBlockNumber data
    pure (contentPrefix ++ filename, last)
  else pure (r.contentPrefix ++ r.filename, r.incomingFinalBlockNumber)

def bufferWith (r : Receiver) (segment : ℕ) (data : Data) : List (ℕ × Data) :=
  OrderedMap.assign segment data r.receiveBuffer

def joinedWith (r : Receiver) (segment : ℕ) (data : Data) : Bytes :=
  r.contentBuffer ++ (r.bufferWith segment data).flatMap fun entry => entry.2.contentValue

/-- The content is complete with the segment that has arrived. -/
def CompleteWith (r : Receiver) (segment last : ℕ) (data : Data) : Prop :=
  (r.bufferWith segment data).length = (last + 1) % 2 ^ 64

/-- The Interests for the segments after the first can be made. -/
def Requestable (name : Name) (last : ℕ) (lifetime : Int64) : Prop :=
  0 < last → Interest.findParametersDigestComponent name ≠ .several ∧ 0 ≤ lifetime.toInt

variable {name : Name}

theorem exists_mapM_newInterest_iff {last : ℕ} :
    (∃ interests, ((List.range' 1 last).mapM fun segment => newInterest
      (name ++ [Component.fromSegment segment]) function lifetime mustBeFresh) = .ok interests) ↔
      Requestable name last lifetime := by
  rw [exists_mapM_iff]
  simp only [newInterest_eq_ok_iff, Ne, Interest.findParametersDigestComponent_append_segment]
  constructor
  · intro h hpos
    obtain ⟨_, hdigest, hlifetime, -⟩ := h 1 (List.mem_range'_1.mpr ⟨le_rfl, by omega⟩)
    exact ⟨hdigest, hlifetime⟩
  · intro h segment hsegment
    have hmem := List.mem_range'_1.mp hsegment
    obtain ⟨hdigest, hlifetime⟩ := h (by omega)
    exact ⟨_, hdigest, hlifetime, rfl⟩

theorem of_run_follow {segment : ℕ}
    (h : (follow env function lifetime mustBeFresh segment data).run r = .ok () r') :
    ∃ name last, r.expected env data segment = .ok (name, last) ∧
      (segment = 0 → Requestable name last lifetime) ∧
      r'.contentPrefix ++ r'.filename = name ∧ r'.incomingFinalBlockNumber = last ∧
      r'.receiveBuffer = r.receiveBuffer ∧ r'.contentBuffer = r.contentBuffer := by
  rw [follow] at h
  split_ifs at h with hzero
  · obtain ⟨_, r₁, haccept, hexpress⟩ := run_bind_eq_ok_iff.mp h
    obtain ⟨contentPrefix, filename, last, hfront, hfilename, hlast, rfl⟩ :=
      run_acceptFirst_eq_ok_iff.mp haccept
    obtain ⟨interests, hinterests, rfl⟩ := run_forM_expressSegment_eq_ok_iff.mp hexpress
    refine ⟨contentPrefix ++ filename, last, ?_, fun _ => ?_, rfl, rfl, rfl, rfl⟩
    · rw [expected, if_pos hzero, hfront, hfilename, hlast]
      rfl
    · exact exists_mapM_newInterest_iff.mp ⟨interests, hinterests⟩
  · cases h
    exact ⟨_, _, by rw [expected, if_neg hzero]; rfl, fun h => absurd h hzero, rfl, rfl, rfl, rfl⟩

theorem exists_run_follow {segment last : ℕ}
    (hexpected : r.expected env data segment = .ok (name, last))
    (hrequest : segment = 0 → Requestable name last lifetime) :
    ∃ r', (follow env function lifetime mustBeFresh segment data).run r = .ok () r' := by
  rw [follow]
  split_ifs with hzero
  · rw [expected, if_pos hzero] at hexpected
    obtain ⟨contentPrefix, hfront, h⟩ := bind_eq_ok_iff.mp hexpected
    obtain ⟨filename, hfilename, h⟩ := bind_eq_ok_iff.mp h
    obtain ⟨last', hlast, h⟩ := bind_eq_ok_iff.mp h
    cases h
    obtain ⟨interests, hinterests⟩ := exists_mapM_newInterest_iff.mpr (hrequest hzero)
    exact ⟨_, run_bind_eq_ok_iff.mpr ⟨(), _,
      run_acceptFirst_eq_ok_iff.mpr ⟨contentPrefix, filename, last, hfront, hfilename, hlast, rfl⟩,
      run_forM_expressSegment_eq_ok_iff.mpr ⟨interests, hinterests, rfl⟩⟩⟩
  · exact ⟨r, rfl⟩

/-- What a Data that was received needed, and what came of it. -/
structure Received (env : Option Bool) (isQuiet : Bool) (lifetime : Int64) (data : Data)
    (r : Receiver) (segment last : ℕ) (name : Name) : Prop where
  numbered : segmentNumber data.name = .ok segment
  described : isQuiet = false → Describable env data
  expects : r.expected env data segment = .ok (name, last)
  requestable : segment = 0 → Requestable name last lifetime

theorem of_run_receive
    (h : (receive env isQuiet function lifetime mustBeFresh data).run r = .ok out r') :
    ∃ segment last name, Received env isQuiet lifetime data r segment last name ∧
      r'.contentPrefix ++ r'.filename = name ∧
      (¬ r.CompleteWith segment last data ∧ out = none ∨
        r.CompleteWith segment last data ∧ ∃ text, outputFilename env data.name = .ok text ∧
          out = some (text, r.joinedWith segment data)) := by
  obtain ⟨segment, hsegment, hdescribed, r₁, hfollow, hcomplete⟩ := run_receive_iff.mp h
  obtain ⟨name, last, hexpected, hrequest, hname, hlast, hbuffer, hcontent⟩ :=
    of_run_follow hfollow
  refine ⟨segment, last, name, ⟨hsegment, hdescribed, hexpected, hrequest⟩, ?_⟩
  have hiff : r.CompleteWith segment last data ↔
      r₁.receiveBuffer.length = (r₁.incomingFinalBlockNumber + 1) % 2 ^ 64 := by
    rw [CompleteWith, bufferWith, hbuffer, hlast]
  cases htext : outputFilename env data.name with
  | ok text =>
    rw [run_complete htext] at hcomplete
    split_ifs at hcomplete with hlength
    · cases hcomplete
      refine ⟨hname, .inr ⟨hiff.mpr hlength, text, rfl, ?_⟩⟩
      rw [joinedWith, bufferWith, hcontent, hbuffer]
    · cases hcomplete
      exact ⟨hname, .inl ⟨fun hc => hlength (hiff.mp hc), rfl⟩⟩
  | error e =>
    rw [complete, run_get_bind] at hcomplete
    split_ifs at hcomplete with hlength
    · rw [run_modify_bind, htext] at hcomplete
      cases hcomplete
    · cases hcomplete
      exact ⟨hname, .inl ⟨fun hc => hlength (hiff.mp hc), rfl⟩⟩

theorem exists_run_receive {segment last : ℕ}
    (h : Received env isQuiet lifetime data r segment last name)
    (htext : r.CompleteWith segment last data → ∃ text, outputFilename env data.name = .ok text) :
    ∃ out r', (receive env isQuiet function lifetime mustBeFresh data).run r = .ok out r' := by
  obtain ⟨r₁, hfollow⟩ : ∃ r₁, (follow env function lifetime mustBeFresh segment data).run
      { r with receiveBuffer := r.bufferWith segment data } = .ok () r₁ :=
    exists_run_follow h.expects h.requestable
  suffices hcomplete : ∃ out r', (complete env data).run r₁ = .ok out r' by
    obtain ⟨out, r', hcomplete⟩ := hcomplete
    exact ⟨out, r', run_receive_iff.mpr
      ⟨segment, h.numbered, h.described, r₁, hfollow, hcomplete⟩⟩
  obtain ⟨name', last', hexpected, -, -, hlast, hbuffer, -⟩ := of_run_follow hfollow
  obtain ⟨rfl, rfl⟩ : name = name' ∧ last = last' :=
    Prod.mk.inj (Except.ok.inj (h.expects.symm.trans hexpected))
  rw [complete, run_get_bind]
  split_ifs with hlength
  · obtain ⟨text, htext⟩ := htext (by rw [CompleteWith, ← hlast, ← hlength, hbuffer])
    rw [run_modify_bind, htext]
    exact ⟨_, _, rfl⟩
  · exact ⟨_, _, rfl⟩

end Receiver

namespace Func

/-- A handler is called: an Interest matches the registered filter, or an Interest that has been
expressed is answered by Data or a Nack, or times out. -/
inductive Call where
  | interest (interest : Interest.Object)
  | data (interest : Interest.Object) (data : Data)
  | nack (interest : Interest.Object)
  | timeout (interest : Interest.Object)

section

variable (f : Func) (fresh : Nonce → Nonce) (program : List Char → Bytes → Bytes)

/-- `onNack`, which only prints. -/
def onNack (_ : Interest.Object) : EStateM String Node (List Data) :=
  pure []

/-- `onTimeout`, which prints the segment number unless the application is quiet. -/
def onTimeout (interest : Interest.Object) : EStateM String Node (List Data) := do
  if f.options.isQuiet then pure ()
  else
    let _ ← Method.ofExcept (segmentNumber interest.name)
  pure []

variable [Sha256]

def call : Call → EStateM String Node (List Data)
  | .interest interest => f.onInterest fresh interest
  | .data interest data => f.onData program interest data
  | .nack interest => onNack interest
  | .timeout interest => f.onTimeout interest

/-- The space for content in the segments of a content, when their Function can be made. -/
def contentSpace (f : Func) (name executedFunction : Name) : Except String ℤ := do
  let funcname ← f.funcname executedFunction
  pure (freeSpaceForContent f.options.maxSegmentSize
    (name.wireEncode.length + funcname.wireEncode.length))

/-- The call comes to read a file into a buffer of size zero, which has no end. -/
def Loops (n : Node) : Call → Prop
  | .data interest data => ∃ complete r',
      (Receiver.receive f.env f.options.isQuiet interest.function
        (Int64.ofInt interest.interestLifetime) interest.mustBeFresh data).run n.receiver =
          .ok (some complete) r' ∧
      f.contentSpace (r'.contentPrefix ++ r'.filename) data.function = .ok 0
  | _ => False

/-- The call returns, or does not end. -/
def NoFault (n : Node) (c : Call) : Prop :=
  (∃ puts n', (f.call fresh program c).run n = .ok puts n') ∨ f.Loops n c

/-- A file can be published: its segments have space for content and there is at least one, or there
is no end of reading it. -/
def Publishable (f : Func) (name executedFunction : Name) (file : Bytes) : Prop :=
  ∃ space, f.contentSpace name executedFunction = .ok space ∧ (space = 0 ∨ 0 < space ∧ file ≠ [])

/-- What a handler needs: the name of an Interest ends in a segment number; a later segment is in
the store, and for the first one the rest of the Function is accepted. A Data can be received, and a
completed content can be published. -/
def CallSafe (n : Node) : Call → Prop
  | .interest interest => ∃ segment, segmentNumber interest.name = .ok segment ∧
      if segment = 0 then ∀ c ∈ interest.function.tail, c.Accepted
      else segment < n.store.length
  | .data interest data => ∃ segment last name,
      Receiver.Received f.env f.options.isQuiet (Int64.ofInt interest.interestLifetime) data
        n.receiver segment last name ∧
      (n.receiver.CompleteWith segment last data → ∃ text,
        outputFilename f.env data.name = .ok text ∧
        f.Publishable name data.function (program text (n.receiver.joinedWith segment data)))
  | .nack _ => True
  | .timeout interest => f.options.isQuiet = false → ∃ segment,
      segmentNumber interest.name = .ok segment

end

/-! ### Interests -/

section

variable {f : Func} {fresh : Nonce → Nonce} {program : List Char → Bytes → Bytes} {n : Node}

variable {interest : Interest.Object}

theorem exists_forwardInterest_iff :
    (∃ forwarded, f.forwardInterest fresh interest = .ok forwarded) ↔
      ∀ c ∈ interest.function.tail, c.Accepted := by
  have hread : (∃ function, interest.function.removeHead f.env = .ok function) ↔
      ∀ c ∈ interest.function.tail, c.Accepted := by
    rw [Name.removeHead_eq]
    exact exists_mapM_throughUri_iff
  rw [← hread]
  constructor
  · rintro ⟨forwarded, h⟩
    exact ⟨_, function_of_forwardInterest h⟩
  · rintro ⟨function, hfunction⟩
    have hremove : (Interest.Object.removeHeadFunction f.env).run interest =
        .ok () { interest with function, wire := none } := by
      rw [Interest.Object.removeHeadFunction, Method.run_get_bind]
      exact Method.run_ofExcept_bind_eq_ok_iff.mpr ⟨function, hfunction, rfl⟩
    exact ⟨_, Method.toExcept_eq_ok_iff.mpr
      (Method.run_bind_eq_ok_iff.mpr ⟨(), _, hremove, rfl⟩)⟩

theorem exists_run_onInterest_iff :
    (∃ puts n', (f.onInterest fresh interest).run n = .ok puts n') ↔
      ∃ segment, segmentNumber interest.name = .ok segment ∧
        if segment = 0 then ∀ c ∈ interest.function.tail, c.Accepted
        else segment < n.store.length := by
  constructor
  · rintro ⟨puts, n', h⟩
    obtain ⟨segment, hsegment, h⟩ := Method.run_ofExcept_bind_eq_ok_iff.mp h
    refine ⟨segment, hsegment, ?_⟩
    split_ifs at h with hpos
    · rw [if_neg (Nat.pos_iff_ne_zero.mp hpos)]
      rw [Method.run_get_bind] at h
      by_contra hge
      rw [List.getElem?_eq_none (Nat.le_of_not_lt hge)] at h
      cases h
    · rw [if_pos (Nat.eq_zero_of_not_pos hpos)]
      obtain ⟨forwarded, hforwarded, -⟩ := Method.run_ofExcept_bind_eq_ok_iff.mp h
      exact exists_forwardInterest_iff.mp ⟨forwarded, hforwarded⟩
  · rintro ⟨segment, hsegment, h⟩
    split_ifs at h with hzero
    · obtain ⟨forwarded, hforwarded⟩ :
          ∃ forwarded, f.forwardInterest fresh interest = .ok forwarded :=
        exists_forwardInterest_iff.mpr h
      refine ⟨[], { n with
        receiver := { n.receiver with expressed := n.receiver.expressed ++ [forwarded] } },
        Method.run_ofExcept_bind_eq_ok_iff.mpr ⟨segment, hsegment, ?_⟩⟩
      rw [if_neg (by omega)]
      exact Method.run_ofExcept_bind_eq_ok_iff.mpr ⟨forwarded, hforwarded, rfl⟩
    · refine ⟨[n.store[segment]], n,
        Method.run_ofExcept_bind_eq_ok_iff.mpr ⟨segment, hsegment, ?_⟩⟩
      rw [if_pos (by omega), Method.run_get_bind, List.getElem?_eq_getElem h]
      rfl

/-! ### Data -/

theorem exists_populateStore_cons_iff (hperiod : 0 ≤ f.options.freshnessPeriod)
    (hsignature : SignatureFits f.signatureValue) {name executedFunction : Name} {file : Bytes} :
    (∃ first rest, f.populateStore name file executedFunction = .ok (first :: rest)) ↔
      ∃ space, f.contentSpace name executedFunction = .ok space ∧ 0 < space ∧ file ≠ [] := by
  constructor
  · rintro ⟨first, rest, h⟩
    obtain ⟨label, hlabel, hsegments⟩ := Fallible.bind_eq_ok_iff.mp h
    have hspace : f.contentSpace name executedFunction = .ok (freeSpaceForContent
        f.options.maxSegmentSize (name.wireEncode.length + label.wireEncode.length)) :=
      Fallible.bind_eq_ok_iff.mpr ⟨label, hlabel, rfl⟩
    have hpos : 0 < freeSpaceForContent f.options.maxSegmentSize
        (name.wireEncode.length + label.wireEncode.length) := by
      unfold segmentFile at hsegments
      split_ifs at hsegments
      omega
    refine ⟨_, hspace, hpos, ?_⟩
    rintro rfl
    cases h.symm.trans (populateStore_eq hlabel hperiod hsignature hpos [])
  · rintro ⟨space, hspace, hpos, hfile⟩
    obtain ⟨label, hlabel, h⟩ := Fallible.bind_eq_ok_iff.mp hspace
    obtain rfl := Except.ok.inj h
    rw [populateStore_eq hlabel hperiod hsignature hpos file]
    obtain ⟨part, parts, hparts⟩ := List.exists_cons_of_ne_nil
      (mt (readParts_eq_nil_iff (Int.lt_toNat.mpr hpos) file).mp hfile)
    rw [hparts]
    exact ⟨_, _, rfl⟩

theorem exists_run_publish_iff {text : List Char} {content : Bytes} {executedFunction : Name} :
    (∃ puts n', (f.publish program text content executedFunction).run n = .ok puts n') ↔
      ∃ first rest, f.populateStore (n.receiver.contentPrefix ++ n.receiver.filename)
        (program text content) executedFunction = .ok (first :: rest) := by
  constructor
  · rintro ⟨puts, n', h⟩
    rw [publish, Method.run_modify_bind, Method.run_get_bind,
      Method.run_ofExcept_bind_eq_ok_iff] at h
    obtain ⟨store, hstore, h⟩ := h
    rw [Method.run_modify_bind] at h
    cases store with
    | nil => cases h
    | cons first rest => exact ⟨first, rest, hstore⟩
  · rintro ⟨first, rest, hstore⟩
    refine ⟨[first], { n with store := first :: rest }, ?_⟩
    rw [publish, Method.run_modify_bind, Method.run_get_bind]
    exact Method.run_ofExcept_bind_eq_ok_iff.mpr ⟨first :: rest, hstore, rfl⟩

variable [Sha256]

theorem run_onData_iff {data : Data} {puts : List Data} {n' : Node} :
    (f.onData program interest data).run n = .ok puts n' ↔
      ∃ out r', (Receiver.receive f.env f.options.isQuiet interest.function
          (Int64.ofInt interest.interestLifetime) interest.mustBeFresh data).run n.receiver =
          .ok out r' ∧
        (match out with
          | none => pure []
          | some (filename, content) => f.publish program filename content data.function :
            EStateM String Node (List Data)).run { n with receiver := r' } = .ok puts n' := by
  rw [onData, Method.run_bind_eq_ok_iff]
  constructor
  · rintro ⟨out, n₁, hzoom, h⟩
    obtain ⟨r', hreceive, rfl⟩ := Method.run_zoom_eq_ok_iff.mp hzoom
    exact ⟨out, r', hreceive, h⟩
  · rintro ⟨out, r', hreceive, h⟩
    exact ⟨out, _, Method.run_zoom_eq_ok_iff.mpr ⟨r', hreceive, rfl⟩, h⟩

theorem noFault_data_iff (hperiod : 0 ≤ f.options.freshnessPeriod)
    (hsignature : SignatureFits f.signatureValue) {data : Data} :
    f.NoFault fresh program n (.data interest data) ↔
      f.CallSafe program n (.data interest data) := by
  constructor
  · rintro (⟨puts, n', h⟩ | ⟨complete, r', hreceive, hspace⟩)
    · obtain ⟨out, r', hreceive, h⟩ := run_onData_iff.mp h
      obtain ⟨segment, last, name, hreceived, hname, hout⟩ := Receiver.of_run_receive hreceive
      refine ⟨segment, last, name, hreceived, fun hcomplete => ?_⟩
      rcases hout with ⟨hnot, -⟩ | ⟨-, text, htext, rfl⟩
      · exact absurd hcomplete hnot
      · obtain ⟨space, hspace, hpos, hfile⟩ := (exists_populateStore_cons_iff hperiod hsignature).mp
          (exists_run_publish_iff.mp ⟨puts, n', h⟩)
        rw [hname] at hspace
        exact ⟨text, htext, space, hspace, .inr ⟨hpos, hfile⟩⟩
    · obtain ⟨segment, last, name, hreceived, hname, hout⟩ := Receiver.of_run_receive hreceive
      refine ⟨segment, last, name, hreceived, fun hcomplete => ?_⟩
      rcases hout with ⟨hnot, -⟩ | ⟨-, text, htext, -⟩
      · exact absurd hcomplete hnot
      · rw [hname] at hspace
        exact ⟨text, htext, 0, hspace, .inl rfl⟩
  · rintro ⟨segment, last, name, hreceived, hpublish⟩
    obtain ⟨out, r', hreceive⟩ : ∃ out r', (Receiver.receive f.env f.options.isQuiet
        interest.function (Int64.ofInt interest.interestLifetime) interest.mustBeFresh data).run
        n.receiver = .ok out r' :=
      Receiver.exists_run_receive hreceived fun hcomplete =>
        (hpublish hcomplete).imp fun _ h => h.1
    obtain ⟨segment', last', name', hreceived', hname, hout⟩ := Receiver.of_run_receive hreceive
    obtain rfl : segment = segment' :=
      Except.ok.inj (hreceived.numbered.symm.trans hreceived'.numbered)
    obtain ⟨rfl, rfl⟩ : name = name' ∧ last = last' :=
      Prod.mk.inj (Except.ok.inj (hreceived.expects.symm.trans hreceived'.expects))
    rcases hout with ⟨-, rfl⟩ | ⟨hcomplete, text, htext, rfl⟩
    · exact .inl ⟨[], _, run_onData_iff.mpr ⟨none, r', hreceive, rfl⟩⟩
    · obtain ⟨text', htext', space, hspace, hcases⟩ := hpublish hcomplete
      obtain rfl : text = text' := Except.ok.inj (htext.symm.trans htext')
      rw [← hname] at hspace
      rcases hcases with rfl | ⟨hpos, hfile⟩
      · exact .inr ⟨_, r', hreceive, hspace⟩
      · obtain ⟨puts, n', h⟩ : ∃ puts n', (f.publish program text
            (n.receiver.joinedWith segment data) data.function).run { n with receiver := r' } =
              .ok puts n' := by
          refine exists_run_publish_iff.mpr ?_
          exact (exists_populateStore_cons_iff hperiod hsignature).mpr ⟨space, hspace, hpos, hfile⟩
        exact .inl ⟨puts, n', run_onData_iff.mpr ⟨_, r', hreceive, h⟩⟩

end

/-- An application that prints nothing. -/
def quietFunc : Func where
  funcName := [.generic [102]]
  options := { isQuiet := true }
  env := none
  signatureInfo := .empty
  signatureValue _ := []

/-- An Interest for a segment of `/a` with the Function `/f`. -/
def requestFor (segment : ℕ) : Interest.Object :=
  segmentInterest ([.generic [97]] ++ [.fromSegment segment]) [.generic [102]] 4000 false

end Func

end NdnFc.Sfc
