import NdnFc.Lib.Run
import NdnFc.Tlv.Block

/-!
# Stream transport of the client

The connection to the forwarder is read into a buffer of `MAX_NDN_PACKET_SIZE` bytes, and each
complete TLV element is passed to the receive callback
(`ndn-cxx/transport/detail/stream-transport-impl.hpp`). `pause` cancels the outstanding reads, and
`resume` empties the buffer and starts a read. When the callback calls them, the handler goes on
with its loop and starts another read.
-/

namespace NdnFc

open List Framing

/-- The connected transport. A read is represented by the position for which it was issued, oldest
first; a failure is an exception or undefined behaviour. -/
structure StreamTransportImpl where
  inputBuffer : FixedBuffer UInt8
  isReceiving : Bool
  outstanding : List ℕ
  delivered : List Block
  failure : Option String

namespace StreamTransportImpl

def init (cells : Bytes) : StreamTransportImpl := ⟨⟨cells, 0⟩, false, [], [], none⟩

/-- Calls that switch receiving. -/
inductive Call where
  | pause
  | resume
deriving DecidableEq, Repr

variable (t : StreamTransportImpl)

def asyncReceive : StreamTransportImpl :=
  { t with outstanding := t.outstanding ++ [t.inputBuffer.size] }

/-- `pause`. The handlers of the cancelled reads return at once. -/
def pause : StreamTransportImpl :=
  if t.isReceiving then { t with isReceiving := false, outstanding := [] } else t

def resume : StreamTransportImpl :=
  if !t.isReceiving then
    asyncReceive { t with isReceiving := true, inputBuffer := { t.inputBuffer with size := 0 } }
  else t

def call : Call → StreamTransportImpl
  | .pause => t.pause
  | .resume => t.resume

/-- `processAllReceived` from `offset` on, with the calls that the callback makes for each element:
the offset reached and whether all bytes have been processed. An element takes at least one byte. -/
def processAllReceived (nBytesAvailable : ℕ) :
    ℕ → List (List Call) → ℕ → StreamTransportImpl → StreamTransportImpl × ℕ × Bool
  | 0, _, offset, t => (t, offset, true)
  | fuel + 1, calls, offset, t =>
    if offset < nBytesAvailable then
      match Block.fromBuffer ((t.inputBuffer.cells.take nBytesAvailable).drop offset) with
      | none => (t, offset, false)
      | some element =>
        let t := (calls.headD []).foldl call { t with delivered := t.delivered ++ [element] }
        processAllReceived nBytesAvailable fuel calls.tail (offset + element.size) t
    else (t, offset, true)

/-- The part of `handleAsyncReceive` after the loop. Moving the rest of the buffer is undefined when
`resume` has emptied the buffer in the meantime. -/
def afterLoop (offset : ℕ) (hasProcessedSome : Bool) : StreamTransportImpl :=
  if !hasProcessedSome && t.inputBuffer.size == maxNdnPacketSize && offset == 0 then
    { t with failure := some "input buffer full, but a valid TLV cannot be decoded" }
  else if t.inputBuffer.size < offset then { t with failure := some "undefined behaviour" }
  else asyncReceive { t with inputBuffer := t.inputBuffer.discard offset }

/-- What the socket does before it calls the handler of the oldest read, which was issued for a
position, and the first assignment of the handler. -/
def store (position : ℕ) (chunk : Bytes) : StreamTransportImpl :=
  { t with
    outstanding := t.outstanding.tail
    inputBuffer := { t.inputBuffer.put position chunk with
      size := t.inputBuffer.size + chunk.length } }

/-- The rest of `handleAsyncReceive` without error. -/
def process (calls : List (List Call)) : StreamTransportImpl :=
  let (t, offset, hasProcessedSome) :=
    processAllReceived t.inputBuffer.size t.inputBuffer.size calls 0 t
  t.afterLoop offset hasProcessedSome

/-- `handleAsyncReceive` without error. -/
def handleAsyncReceive (position : ℕ) (chunk : Bytes)
    (calls : List (List Call)) : StreamTransportImpl :=
  (t.store position chunk).process calls

inductive Event where
  | receive (chunk : Bytes) (calls : List (List Call))
  | call (c : Call)

/-- One event. A transport that failed is closed. -/
def step (e : Event) : StreamTransportImpl :=
  if t.failure.isSome then t
  else match e with
    | .receive chunk calls => match t.outstanding with
      | [] => t
      | position :: _ => t.handleAsyncReceive position chunk calls
    | .call c => t.call c

/-- The bytes that an event takes from the socket. -/
def Event.bytes : Event → Bytes
  | .receive chunk _ => chunk
  | .call _ => []

/-- Only an outstanding read returns, with at least one byte and no more than it has room for. Bytes
that arrive while no read is outstanding stay in the socket. -/
def Fits : Event → Prop
  | .receive chunk _ => ∃ position ∈ t.outstanding.head?,
      chunk ≠ [] ∧ chunk.length ≤ maxNdnPacketSize - position
  | .call _ => True

/-- None of the calls resumes a paused transport. -/
def NoRestart : Bool → List Call → Prop
  | _, [] => True
  | _, .pause :: calls => NoRestart false calls
  | isReceiving, .resume :: calls => isReceiving = true ∧ NoRestart true calls

/-- A paused transport is resumed only with no part of an element in the buffer and not by the
callback, and a completed read was issued for the end of the buffer. -/
def Safe : Event → Prop
  | .receive _ calls =>
      t.outstanding.head? = some t.inputBuffer.size ∧ NoRestart t.isReceiving calls.flatten
  | .call .pause => True
  | .call .resume => t.isReceiving = true ∨ t.inputBuffer.size = 0

/-! ### Calls and the loop -/

variable {t t' : StreamTransportImpl} {bytes received rest rest' chunk : Bytes}
  {bs bs' : List Block}

/-- The two transports hold the same bytes and have delivered the same elements. -/
structure SameData (t t' : StreamTransportImpl) : Prop where
  inputBuffer : t'.inputBuffer = t.inputBuffer
  delivered : t'.delivered = t.delivered
  failure : t'.failure = t.failure

theorem sameData_pause (t : StreamTransportImpl) : SameData t t.pause := by
  unfold pause
  split <;> exact ⟨rfl, rfl, rfl⟩

theorem SameData.trans {t'' : StreamTransportImpl} (h : SameData t t') (h' : SameData t' t'') :
    SameData t t'' :=
  ⟨h'.1.trans h.1, h'.2.trans h.2, h'.3.trans h.3⟩

theorem sameData_foldl_call {calls later : List Call}
    (h : NoRestart t.isReceiving (calls ++ later)) :
    SameData t (calls.foldl call t) ∧ NoRestart (calls.foldl call t).isReceiving later := by
  induction calls generalizing t with
  | nil => exact ⟨⟨rfl, rfl, rfl⟩, h⟩
  | cons c calls ih =>
    cases c with
    | pause =>
      have hoff : t.pause.isReceiving = false := by
        unfold pause
        split
        · rfl
        · simp_all
      obtain ⟨hsame, hlater⟩ := ih (t := t.pause) (by rw [hoff]; exact h)
      exact ⟨(sameData_pause t).trans hsame, hlater⟩
    | resume =>
      obtain ⟨hon, h⟩ := h
      have hsame : t.call .resume = t := by simp [call, resume, hon]
      rw [foldl_cons, hsame]
      exact ih (by rw [hon]; exact h)

theorem processAllReceived_eq {n fuel offset : ℕ} (calls : List (List Call))
    (h : Block.framing.Splits ((t.inputBuffer.cells.take n).drop offset) bs rest)
    (hn : n ≤ t.inputBuffer.cells.length) (hoffset : offset ≤ n) (hfuel : n - offset ≤ fuel)
    (hcalls : NoRestart t.isReceiving calls.flatten) :
    ∃ t', processAllReceived n fuel calls offset t = (t', n - rest.length, decide (rest = [])) ∧
      SameData { t with delivered := t.delivered ++ bs } t' := by
  have hlen : (t.inputBuffer.cells.take n).length = n := by rw [length_take, Nat.min_eq_left hn]
  induction fuel generalizing t bs offset calls with
  | zero =>
    have hend : offset = n := by omega
    rw [drop_eq_nil_of_le (by omega)] at h
    obtain ⟨rfl, rfl⟩ := splits_of_nil h
    exact ⟨t, by simp [processAllReceived, hend], by simp, by simp, rfl⟩
  | succ fuel ih =>
    unfold processAllReceived
    split
    next hlt =>
      cases bs with
      | nil =>
        have hrest := (splits_nil_iff.mp h).1
        have hrestlen : rest.length = n - offset := by rw [← hrest, length_drop, hlen]
        have hne : rest ≠ [] := by
          rintro rfl
          simp only [length_nil] at hrestlen
          omega
        refine ⟨t, ?_, by simp, by simp, rfl⟩
        simp only [Block.fromBuffer_of_splits_nil h, hne, decide_false, hrestlen]
        congr 2
        omega
      | cons b bs =>
        obtain ⟨hsome, hnext, hle⟩ := Block.fromBuffer_of_splits_cons h
        have hpos := b.size_pos
        rw [drop_drop] at hnext
        rw [length_drop, hlen] at hle
        simp only [hsome]
        have hsplit : NoRestart t.isReceiving (calls.headD [] ++ calls.tail.flatten) := by
          cases calls with
          | nil | cons c calls => exact hcalls
        obtain ⟨hsame, hlater⟩ := sameData_foldl_call
          (t := { t with delivered := t.delivered ++ [b] }) hsplit
        rw [← hsame.inputBuffer] at hnext hn hlen
        obtain ⟨t', hloop, hdata⟩ := ih _ hnext hn (by omega) (by omega) hlater hlen
        refine ⟨t', hloop, ⟨?_, ?_, ?_⟩⟩
        · rw [hdata.inputBuffer, hsame.inputBuffer]
        · rw [hdata.delivered, hsame.delivered, append_assoc, singleton_append]
        · rw [hdata.failure, hsame.failure]
    next hge =>
      have hend : offset = n := by omega
      rw [drop_eq_nil_of_le (by omega)] at h
      obtain ⟨rfl, rfl⟩ := splits_of_nil h
      exact ⟨t, by simp [hend], by simp, by simp, rfl⟩

/-! ### Safe steps -/

/-- The bytes received split into the elements delivered and what is in the buffer. -/
structure Holds (received : Bytes) (bs : List Block) (rest : Bytes) (t : StreamTransportImpl) :
    Prop where
  splits : Block.framing.Splits received bs rest
  delivered : t.delivered = bs
  length_cells : t.inputBuffer.cells.length = maxNdnPacketSize
  size_le : t.inputBuffer.size ≤ maxNdnPacketSize
  pending : t.inputBuffer.pending = rest
  failure : t.failure = none

theorem Holds.of_sameData (h : Holds received bs rest t) (hsame : SameData t t') :
    Holds received bs rest t' where
  splits := h.splits
  delivered := hsame.delivered.trans h.delivered
  length_cells := hsame.inputBuffer ▸ h.length_cells
  size_le := hsame.inputBuffer ▸ h.size_le
  pending := hsame.inputBuffer ▸ h.pending
  failure := hsame.failure.trans h.failure

theorem Holds.store (h : Holds received bs rest t)
    (hroom : chunk.length ≤ maxNdnPacketSize - t.inputBuffer.size) :
    (t.store t.inputBuffer.size chunk).inputBuffer.cells.length = maxNdnPacketSize ∧
      (t.store t.inputBuffer.size chunk).inputBuffer.size ≤ maxNdnPacketSize ∧
      (t.store t.inputBuffer.size chunk).inputBuffer.pending = rest ++ chunk := by
  have hsize := h.size_le
  have hcells := h.length_cells
  refine ⟨?_, ?_, ?_⟩
  · rw [← hcells]
    exact FixedBuffer.length_fill (by omega)
  · change t.inputBuffer.size + chunk.length ≤ maxNdnPacketSize
    omega
  · rw [← h.pending]
    exact FixedBuffer.pending_fill chunk (by omega)

theorem Holds.process {calls : List (List Call)} (hdelivered : t.delivered = bs)
    (hcells : t.inputBuffer.cells.length = maxNdnPacketSize)
    (hsize : t.inputBuffer.size ≤ maxNdnPacketSize) (hfailure : t.failure = none)
    (hcalls : NoRestart t.isReceiving calls.flatten)
    (hreceived : Block.framing.Splits received (bs ++ bs') rest')
    (hsplits : Block.framing.Splits t.inputBuffer.pending bs' rest')
    (hrest : rest'.length < maxNdnPacketSize) :
    Holds received (bs ++ bs') rest' (t.process calls) := by
  have hle : t.inputBuffer.size ≤ t.inputBuffer.cells.length := by omega
  have hloop : Block.framing.Splits
      ((t.inputBuffer.cells.take t.inputBuffer.size).drop 0) bs' rest' := hsplits
  obtain ⟨t', hresult, hdata⟩ :=
    processAllReceived_eq calls hloop hle (Nat.zero_le _) (Nat.sub_le _ _) hcalls
  have hlen := hsplits.length_rest_le
  have hdrop := hsplits.drop_eq
  rw [FixedBuffer.length_pending hle] at hlen hdrop
  simp only [StreamTransportImpl.process, hresult, afterLoop, hdata.inputBuffer]
  rw [if_neg, if_neg]
  · refine ⟨hreceived, ?_, ?_, ?_, ?_, ?_⟩
    · simp only [asyncReceive, hdata.delivered, hdelivered]
    · simp only [asyncReceive, FixedBuffer.length_discard hle, hcells]
    · simp only [asyncReceive, FixedBuffer.size_discard]
      omega
    · simp only [asyncReceive, FixedBuffer.pending_discard hle, hdrop]
    · simp only [asyncReceive, hdata.failure, hfailure]
  · omega
  · simp only [Bool.and_eq_true, beq_iff_eq]
    omega

section

variable (hsize : ∀ b ∈ bs, b.size ≤ maxNdnPacketSize)

include hsize

theorem exists_splits_completed (hpre : received <+: bs.flatMap Block.wire) :
    ∃ rest, Block.framing.Splits received (Block.framing.completed bs received.length) rest ∧
      rest.length < maxNdnPacketSize := by
  have hnil : ∀ front : Bytes, front <+: [] → front.length ≤ 0 → Block.framing.read front = none := by
    intro front hfront _
    rw [prefix_nil.mp hfront]
    exact Block.framing.read_nil
  obtain ⟨rest, hsplits, hnext⟩ := splits_completed hnil
    (by rwa [append_nil]) hpre.length_le
  refine ⟨rest, hsplits, ?_⟩
  rcases hnext with hall | ⟨b, hb, hlt⟩
  · have hlen := congrArg List.length hsplits.1
    have hle : received.length ≤ (bs.flatMap Block.framing.wire).length := hpre.length_le
    rw [hall, length_append] at hlen
    unfold maxNdnPacketSize
    omega
  · exact hlt.trans_le (hsize b hb)

theorem Holds.step (h : Holds received (Block.framing.completed bs received.length) rest t)
    {e : Event} (hpre : received ++ e.bytes <+: bs.flatMap Block.wire) (hfits : Fits t e)
    (hsafe : Safe t e) :
    ∃ rest', Holds (received ++ e.bytes)
      (Block.framing.completed bs (received ++ e.bytes).length) rest' (t.step e) := by
  have hopen : ¬ t.failure.isSome = true := by simp [h.failure]
  unfold StreamTransportImpl.step
  rw [if_neg hopen]
  cases e with
  | receive chunk calls =>
    obtain ⟨position, hposition, -, hroom⟩ := hfits
    obtain ⟨hhead, hcalls⟩ := hsafe
    rw [hhead, Option.mem_some_iff] at hposition
    subst hposition
    obtain ⟨positions, houtstanding⟩ : ∃ l, t.outstanding = t.inputBuffer.size :: l := by
      cases hl : t.outstanding with
      | nil => rw [hl] at hhead; cases hhead
      | cons p l => rw [hl] at hhead; cases hhead; exact ⟨l, rfl⟩
    simp only [houtstanding]
    obtain ⟨rest', hsplits, hrest⟩ := exists_splits_completed hsize hpre
    obtain ⟨bs', hsplits', hbs⟩ := h.splits.of_append hsplits
    obtain ⟨hcells, hused, hpending⟩ := h.store hroom
    refine ⟨rest', ?_⟩
    rw [hbs] at hsplits ⊢
    exact Holds.process h.delivered hcells hused h.failure hcalls hsplits (hpending ▸ hsplits') hrest
  | call c =>
    simp only [Event.bytes, append_nil] at hpre ⊢
    cases c with
    | pause => exact ⟨rest, h.of_sameData (sameData_pause t)⟩
    | resume =>
      have hsame : SameData t t.resume := by
        unfold resume
        split
        next hoff =>
          have hempty : t.inputBuffer.size = 0 := hsafe.resolve_left (by simpa using hoff)
          refine ⟨?_, rfl, rfl⟩
          simp only [asyncReceive]
          rw [← hempty]
        next => exact ⟨rfl, rfl, rfl⟩
      exact ⟨rest, h.of_sameData hsame⟩

theorem Holds.run {events : List Event}
    (h : Holds received (Block.framing.completed bs received.length) rest t)
    (hpre : received ++ events.flatMap Event.bytes <+: bs.flatMap Block.wire)
    (hfits : Run.Meets StreamTransportImpl.step Fits t events)
    (hsafe : Run.Meets StreamTransportImpl.step Safe t events) :
    ∃ rest', Holds (received ++ events.flatMap Event.bytes)
      (Block.framing.completed bs (received ++ events.flatMap Event.bytes).length) rest'
      (Run.run StreamTransportImpl.step t events) := by
  induction events generalizing received rest t with
  | nil =>
    rw [flatMap_nil, append_nil]
    exact ⟨rest, h⟩
  | cons e events ih =>
    rw [flatMap_cons, ← append_assoc] at hpre ⊢
    obtain ⟨rest', h'⟩ :=
      h.step hsize ((prefix_append _ _).trans hpre) hfits.1 hsafe.1
    exact ih h' hpre hfits.2 hsafe.2

end

/-- In every run of safe steps on a stream of elements that fit the buffer, the callback has
received exactly the elements completed so far, in order, and nothing was thrown. -/
theorem delivers_of_safe (cells : Bytes) (hcells : cells.length = maxNdnPacketSize) (bs : List Block)
    (hsize : ∀ b ∈ bs, b.size ≤ maxNdnPacketSize) (events : List Event)
    (hpre : events.flatMap Event.bytes <+: bs.flatMap Block.wire)
    (hfits : Run.Meets step Fits (init cells) events)
    (hsafe : Run.Meets step Safe (init cells) events) :
    (Run.run step (init cells) events).delivered =
        Block.framing.completed bs (events.flatMap Event.bytes).length ∧
      (events.flatMap Event.bytes = bs.flatMap Block.wire →
        (Run.run step (init cells) events).delivered = bs) ∧
      (Run.run step (init cells) events).failure = none := by
  have hinit : Holds [] (Block.framing.completed bs 0) [] (init cells) := by
    rw [completed_zero]
    exact ⟨⟨rfl, Block.framing.read_nil⟩, rfl, hcells, Nat.zero_le _, rfl, rfl⟩
  obtain ⟨rest, h⟩ := hinit.run hsize hpre hfits hsafe
  refine ⟨h.delivered, fun hall => ?_, h.failure⟩
  rw [h.delivered, nil_append, hall]
  exact completed_of_le (Nat.le_refl _)

/-- The second byte and the third of an element arrive after the transport was paused and resumed, and
the element is lost. -/
theorem not_delivers_resume :
    ∃ cells bs events, cells.length = maxNdnPacketSize ∧ (∀ b ∈ bs, b.size ≤ maxNdnPacketSize) ∧
      events = [.call .resume, .receive [8] [], .call .pause, .call .resume, .receive [1, 65] []] ∧
      events.flatMap Event.bytes = bs.flatMap Block.wire ∧
      Run.Meets step Fits (init cells) events ∧
      (Run.run step (init cells) events).delivered ≠ bs := by
  refine ⟨List.replicate maxNdnPacketSize 0, [Block.make 8 [65] (by decide) (by decide) (by decide)],
    _, length_replicate, by decide, rfl, by decide, ?_, by decide⟩
  exact ⟨trivial, ⟨0, rfl, by decide, by decide⟩, trivial, trivial, ⟨0, rfl, by decide, by decide⟩,
    trivial⟩

/-- Pausing between two elements is safe. -/
theorem delivers_of_safe_sample :
    (Run.run step (init (List.replicate maxNdnPacketSize 0))
      [.call .resume, .receive [8, 1, 65] [], .call .pause, .call .resume,
        .receive [8, 0] [[.pause]]]).delivered =
      [Block.make 8 [65] (by decide) (by decide) (by decide),
        Block.make 8 [] (by decide) (by decide) (by decide)] := by
  refine (delivers_of_safe _ length_replicate _ (by decide) _ ?_ ?_ ?_).2.1 (by decide)
  · decide
  · exact ⟨trivial, ⟨0, rfl, by decide, by decide⟩, trivial, trivial,
      ⟨0, rfl, by decide, by decide⟩, trivial⟩
  · exact ⟨.inr rfl, ⟨rfl, trivial⟩, trivial, .inr rfl, ⟨rfl, trivial⟩, trivial⟩

end StreamTransportImpl

end NdnFc
