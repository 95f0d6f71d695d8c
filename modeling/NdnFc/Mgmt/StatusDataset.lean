import NdnFc.Sfc.Func

/-!
# Segments of a status dataset

A status dataset context (`ndn-cxx/mgmt/status-dataset-context.cpp`, lines 63 to 102) collects the
appended blocks in a buffer of the size of a payload. A full buffer is sent when more bytes follow,
and the rest is sent at the end.
-/

namespace NdnFc

open List

namespace StatusDatasetContext

inductive State where
  | initial
  | responded
  | finalized
deriving DecidableEq

/-- A call of the data sender. -/
structure Segment where
  name : Name
  payload : Bytes
  isFinalBlock : Bool

end StatusDatasetContext

/-- A context, with the calls of its data sender. -/
structure StatusDatasetContext where
  name : Name
  state : StatusDatasetContext.State := .initial
  buffer : Bytes := []
  segmentNo : ℕ := 0
  sent : List StatusDatasetContext.Segment := []

namespace StatusDatasetContext

variable (c : StatusDatasetContext)

def maxPayloadLength : ℕ := maxNdnPacketSize - 800

theorem maxPayloadLength_pos : 0 < maxPayloadLength := by decide

/-- The segment for which the data sender is called. -/
def segment (isFinalBlock : Bool) : Segment :=
  ⟨c.name ++ [Component.fromSegment c.segmentNo], c.buffer, isFinalBlock⟩

def nBytesToAppend (bytes : Bytes) : ℕ := min bytes.length (maxPayloadLength - c.buffer.length)

def fill (bytes : Bytes) : StatusDatasetContext :=
  { c with buffer := c.buffer ++ bytes.take (c.nBytesToAppend bytes) }

def flush : StatusDatasetContext :=
  { c with buffer := [], segmentNo := c.segmentNo + 1, sent := c.sent ++ [c.segment false] }

/-- The loop of `append` over the bytes that are left of a block. -/
def appendLoop (c : StatusDatasetContext) (bytes : Bytes) : Except String StatusDatasetContext :=
  if bytes = [] then pure c
  else if bytes.drop (c.nBytesToAppend bytes) = [] then pure (c.fill bytes)
  else if (c.fill bytes).buffer.length ≠ maxPayloadLength then
    throw "assertion failed: m_buffer.size() == MAX_PAYLOAD_LENGTH"
  else appendLoop (c.fill bytes).flush (bytes.drop (c.nBytesToAppend bytes))
termination_by bytes.length + if maxPayloadLength ≤ c.buffer.length then 1 else 0
decreasing_by
  have hpos := length_pos_of_ne_nil ‹bytes ≠ []›
  rw [flush, length_nil, if_neg maxPayloadLength_pos.not_ge, length_drop, nBytesToAppend]
  split_ifs <;> omega

def append (block : Bytes) : Except String StatusDatasetContext :=
  if c.state = .finalized then throw "cannot call append() on a finalized context"
  else appendLoop { c with state := .responded } block

/-- `end` -/
def finish : Except String StatusDatasetContext :=
  if c.state = .finalized then throw "cannot call end() on a finalized context"
  else pure { c with state := .finalized, sent := c.sent ++ [c.segment true] }

/-- The segments for payloads that are followed by others. -/
def numbered (name : Name) (payloads : List Bytes) : List Segment :=
  payloads.mapIdx fun i payload => ⟨name ++ [Component.fromSegment i], payload, false⟩

/-- The context has sent full payloads, which hold the appended bytes up to those in the buffer. -/
def Packs (name : Name) (appended : Bytes) : Prop :=
  ∃ payloads, c = { c with name, segmentNo := payloads.length, sent := numbered name payloads } ∧
    c.state ≠ .finalized ∧ (∀ payload ∈ payloads, payload.length = maxPayloadLength) ∧
    c.buffer.length ≤ maxPayloadLength ∧ payloads.flatten ++ c.buffer = appended

variable {c} {name : Name} {appended bytes : Bytes}

theorem length_buffer_fill : (c.fill bytes).buffer.length =
    c.buffer.length + min bytes.length (maxPayloadLength - c.buffer.length) := by
  rw [fill, length_append, length_take, nBytesToAppend, min_right_comm, min_self]

theorem Packs.fill (h : c.Packs name appended) :
    (c.fill bytes).Packs name (appended ++ bytes.take (c.nBytesToAppend bytes)) := by
  obtain ⟨payloads, hc, hstate, hall, hle, rfl⟩ := h
  refine ⟨payloads, ?_, hstate, hall, ?_, ?_⟩
  · rw [hc]
    rfl
  · rw [length_buffer_fill]
    omega
  · rw [fill, append_assoc]

theorem Packs.flush (h : c.Packs name appended) (hfull : c.buffer.length = maxPayloadLength) :
    c.flush.Packs name appended := by
  obtain ⟨payloads, hc, hstate, hall, -, rfl⟩ := h
  refine ⟨payloads ++ [c.buffer], ?_, hstate, ?_, Nat.zero_le _, ?_⟩
  · rw [hc]
    simp [flush, segment, numbered, mapIdx_append]
  · simpa [or_imp, forall_and] using ⟨hall, hfull⟩
  · simp [flush]

theorem Packs.exists_appendLoop (h : c.Packs name appended) (bytes : Bytes) :
    ∃ c', c.appendLoop bytes = .ok c' ∧ c'.Packs name (appended ++ bytes) := by
  fun_induction appendLoop c bytes generalizing appended with
  | case1 c => exact ⟨c, rfl, by rwa [append_nil]⟩
  | case2 c bytes hne hdrop =>
    have hfill : (c.fill bytes).Packs name _ := h.fill
    rw [← append_nil (take _ _), ← hdrop, take_append_drop] at hfill
    exact ⟨_, rfl, hfill⟩
  | case3 c bytes hne hdrop hfull =>
    obtain ⟨-, -, -, -, hle, -⟩ := h
    rw [drop_eq_nil_iff, nBytesToAppend] at hdrop
    refine absurd ?_ hfull
    rw [length_buffer_fill]
    omega
  | case4 c bytes hne hdrop hfull ih =>
    obtain ⟨c', hloop, hpacks⟩ := ih (h.fill.flush (not_not.mp hfull))
    rw [append_assoc, take_append_drop] at hpacks
    exact ⟨c', hloop, hpacks⟩

theorem Packs.exists_foldlM (h : c.Packs name appended) (blocks : List Bytes) :
    ∃ c', blocks.foldlM append c = .ok c' ∧ c'.Packs name (appended ++ blocks.flatten) := by
  induction blocks generalizing c appended with
  | nil => exact ⟨c, rfl, by rwa [flatten_nil, append_nil]⟩
  | cons block blocks ih =>
    obtain ⟨payloads, hc, hstate, hrest⟩ := h
    have hresponded : Packs { c with state := .responded } name appended :=
      ⟨payloads, by rw [hc], by simp, hrest⟩
    obtain ⟨c₁, happend, h₁⟩ := hresponded.exists_appendLoop block
    obtain ⟨c', hblocks, h'⟩ := ih h₁
    refine ⟨c', ?_, by rwa [flatten_cons, ← append_assoc]⟩
    rw [foldlM_cons, append, if_neg hstate, happend]
    exact hblocks

/-- Blocks of any sizes are sent in payloads of the maximal length, numbered from zero, up to the
last one, which is marked as final. -/
theorem exists_sent_eq (name : Name) (blocks : List Bytes) :
    ∃ c payloads payload, (blocks.foldlM append { name } >>= finish) = .ok c ∧
      c.sent = numbered name payloads ++
        [⟨name ++ [Component.fromSegment payloads.length], payload, true⟩] ∧
      (∀ payload ∈ payloads, payload.length = maxPayloadLength) ∧
      payload.length ≤ maxPayloadLength ∧ payloads.flatten ++ payload = blocks.flatten := by
  have hinit : Packs { name } name [] := ⟨[], rfl, by simp, by simp, Nat.zero_le _, rfl⟩
  obtain ⟨c, happend, payloads, hc, hstate, hfull, hle, hflatten⟩ := hinit.exists_foldlM blocks
  refine ⟨{ c with state := .finalized, sent := c.sent ++ [c.segment true] }, payloads, c.buffer,
    ?_, ?_, hfull, hle, hflatten⟩
  · rw [happend]
    exact if_neg hstate
  · rw [hc]
    rfl

end StatusDatasetContext

end NdnFc
