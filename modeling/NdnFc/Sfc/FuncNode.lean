import NdnFc.Sfc.Receiver

/-!
# A function application at work

The handlers of a function application (`NDN-FC-skeleton/sfc_function.cpp`, lines 56 to 192). An
Interest for the first segment is forwarded upstream; the segments that come back are received, the
program, a parameter, is applied, and the result is published. Other Interests are answered from the
store. There is one receiver and one store, whatever the content.
-/

namespace NdnFc.Sfc.Func

open Method

/-- The members that change: those that receive a content, and the published segments. After an
exception the program does not run any more. -/
structure Node where
  receiver : Receiver
  store : List Data
  running : Bool

/-- A new application. The argument is what the number of the last segment is before it is set. -/
def Node.init (uninitialised : ℕ) : Node where
  receiver :=
    { contentPrefix := []
      filename := []
      receiveBuffer := []
      contentBuffer := []
      incomingFinalBlockNumber := uninitialised
      expressed := [] }
  store := []
  running := true

/-- A handler is called: an Interest matches the registered filter, or Data answers an Interest that
has been expressed. -/
inductive Event where
  | interest (interest : Interest.Object)
  | data (interest : Interest.Object) (data : Data)

section

variable (f : Func) (fresh : Nonce → Nonce) (program : List Char → Bytes → Bytes)

/-- `onInterest`. The result is the Data that is put. The source does not check that the store has the
segment. -/
def onInterest (interest : Interest.Object) : EStateM String Node (List Data) := do
  let segment ← Method.ofExcept (segmentNumber interest.name)
  if 0 < segment then do
    let n ← get
    match n.store[segment]? with
    | some data => pure [data]
    | none => throw "m_store has no such segment"
  else do
    let newInterest ← Method.ofExcept (f.forwardInterest fresh interest)
    modify fun n => { n with
      receiver := { n.receiver with expressed := n.receiver.expressed ++ [newInterest] } }
    pure []

/-- The end of `onData`, for a complete content: the program is applied to the file, the store is
filled with the result, and its first segment is put. -/
def publish (filename : List Char) (content : Bytes) (executedFunction : Name) :
    EStateM String Node (List Data) := do
  modify ({ · with store := [] })
  let n ← get
  let store ← Method.ofExcept (f.populateStore (n.receiver.contentPrefix ++ n.receiver.filename)
    (program filename content) executedFunction)
  modify ({ · with store })
  match store with
  | [] => throw "m_store is empty"
  | first :: _ => pure [first]

variable [Sha256]

def onData (interest : Interest.Object) (data : Data) : EStateM String Node (List Data) := do
  let complete ← Method.zoom Node.receiver (fun receiver n => { n with receiver })
    (Receiver.receive f.env f.options.isQuiet interest.function
      (Int64.ofInt interest.interestLifetime) interest.mustBeFresh data)
  match complete with
  | none => pure []
  | some (filename, content) => f.publish program filename content data.function

/-- The handler that an event calls. -/
def handle : Event → EStateM String Node (List Data)
  | .interest interest => f.onInterest fresh interest
  | .data interest data => f.onData program interest data

/-- The application after an event, and the Data that it has put. -/
def step (n : Node) (e : Event) : Node × List Data :=
  if n.running then
    match (f.handle fresh program e).run n with
    | .ok puts n' => (n', puts)
    | .error _ n' => ({ n' with running := false }, [])
  else (n, [])

end

/-! ### What the handlers do -/

section

variable [Sha256] {f : Func} {fresh : Nonce → Nonce} {program : List Char → Bytes → Bytes}
  {interest : Interest.Object} {puts : List Data}

omit [Sha256] in
theorem run_onInterest_eq_ok {n n' : Node} (h : (f.onInterest fresh interest).run n = .ok puts n') :
    (∃ segment data, segmentNumber interest.name = .ok segment ∧ 0 < segment ∧
      n.store[segment]? = some data ∧ puts = [data] ∧ n' = n) ∨
    (puts = [] ∧ ∃ expressed, n' = { n with receiver := { n.receiver with expressed } }) := by
  obtain ⟨segment, hsegment, h⟩ := run_ofExcept_bind_eq_ok_iff.mp h
  split_ifs at h with hpos
  · rw [run_get_bind] at h
    cases hdata : n.store[segment]? with
    | none =>
      rw [hdata] at h
      cases h
    | some data =>
      rw [hdata] at h
      cases h
      exact .inl ⟨segment, data, hsegment, hpos, hdata, rfl, rfl⟩
  · obtain ⟨newInterest, -, h⟩ := run_ofExcept_bind_eq_ok_iff.mp h
    cases h
    exact .inr ⟨rfl, _, rfl⟩

theorem run_onData_eq_ok {data : Data} {n n' : Node}
    (h : (f.onData program interest data).run n = .ok puts n') :
    ∃ out r', (Receiver.receive f.env f.options.isQuiet interest.function
        (Int64.ofInt interest.interestLifetime) interest.mustBeFresh data).run n.receiver =
        .ok out r' ∧
      (out = none ∧ puts = [] ∧ n' = { n with receiver := r' } ∨
        ∃ filename content first rest, out = some (filename, content) ∧
          f.populateStore (r'.contentPrefix ++ r'.filename) (program filename content)
            data.function = .ok (first :: rest) ∧
          puts = [first] ∧ n' = { n with receiver := r', store := first :: rest }) := by
  obtain ⟨out, n₁, hzoom, h⟩ := run_bind_eq_ok_iff.mp h
  obtain ⟨r', hreceive, rfl⟩ := run_zoom_eq_ok_iff.mp hzoom
  refine ⟨out, r', hreceive, ?_⟩
  cases out with
  | none =>
    cases h
    exact .inl ⟨rfl, rfl, rfl⟩
  | some result =>
    obtain ⟨filename, content⟩ := result
    dsimp only at h
    rw [publish, run_modify_bind, run_get_bind,
      run_ofExcept_bind_eq_ok_iff] at h
    obtain ⟨store, hstore, h⟩ := h
    rw [run_modify_bind] at h
    cases store with
    | nil => cases h
    | cons first rest =>
      cases h
      exact .inr ⟨filename, content, first, rest, rfl, hstore, rfl, rfl⟩

end

end NdnFc.Sfc.Func
