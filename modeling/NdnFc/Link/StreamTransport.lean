import NdnFc.Lib.Run
import NdnFc.Tlv.Block

/-!
# Stream transport of the forwarder

A TCP or Unix stream is read into a buffer of `MAX_NDN_PACKET_SIZE` bytes, and each complete TLV
element goes to the link service (`NFD-FC/daemon/face/stream-transport.hpp`, lines 225 to 279). The
rest moves to the front of the buffer.
-/

namespace NdnFc

open List Framing

/-- `TransportState`, as far as receiving depends on it. -/
inductive TransportState where
  | up
  | failed
deriving DecidableEq, Repr

structure StreamTransport where
  receiveBuffer : FixedBuffer UInt8
  state : TransportState
  delivered : List Block

namespace StreamTransport

/-- A new transport. The array `m_receiveBuffer` is not initialized. -/
def init (cells : Bytes) : StreamTransport := ⟨⟨cells, 0⟩, .up, []⟩

/-- The length of the buffer that `startReceive` offers to the socket. -/
def offered (t : StreamTransport) : ℕ :=
  maxNdnPacketSize - t.receiveBuffer.size

/-- What the loop of `handleReceive` works with. -/
structure Loop where
  offset : ℕ
  isOk : Bool
  elements : List Block

/-- The loop of `handleReceive` over the bytes in use. An element takes at least one byte, so as many
rounds as there are bytes suffice. -/
def receiveLoop (bytes : Bytes) : ℕ → Loop → Loop
  | 0, l => l
  | fuel + 1, l =>
    if 0 < bytes.length - l.offset then
      match Block.fromBuffer (bytes.drop l.offset) with
      | none => { l with isOk := false }
      | some element =>
        receiveLoop bytes fuel ⟨l.offset + element.size, true, l.elements ++ [element]⟩
    else l

/-- `handleReceive` without error, for a read that returned the given bytes. -/
def handleReceive (t : StreamTransport) (chunk : Bytes) : StreamTransport :=
  let buffer := t.receiveBuffer.fill chunk
  let l := receiveLoop buffer.pending buffer.size ⟨0, true, []⟩
  if !l.isOk && buffer.size == maxNdnPacketSize && l.offset == 0 then
    { t with receiveBuffer := buffer, state := .failed, delivered := t.delivered ++ l.elements }
  else
    { t with receiveBuffer := buffer.discard l.offset, delivered := t.delivered ++ l.elements }

/-- A read that is outstanding returns at least one byte and no more than it has room for. After a
failure no read is outstanding. -/
def Fits (t : StreamTransport) (chunk : Bytes) : Prop :=
  t.state = .up ∧ chunk ≠ [] ∧ chunk.length ≤ t.offered

/-! ### The loop -/

theorem loop_eq_of_le {bytes rest : Bytes} {bs : List Block} {l : Loop}
    (h : Block.framing.Splits (bytes.drop l.offset) bs rest) (hoffset : l.offset ≤ bytes.length)
    (hend : bytes.length ≤ l.offset) (hok : l.isOk = true) :
    l = ⟨bytes.length - rest.length, decide (rest = []), l.elements ++ bs⟩ := by
  rw [drop_eq_nil_of_le hend] at h
  obtain ⟨rfl, rfl⟩ := splits_of_nil h
  have hlast : l.offset = bytes.length := Nat.le_antisymm hoffset hend
  simp [← hlast, ← hok]

theorem receiveLoop_eq {bytes rest : Bytes} {bs : List Block} {fuel : ℕ} {l : Loop}
    (h : Block.framing.Splits (bytes.drop l.offset) bs rest) (hoffset : l.offset ≤ bytes.length)
    (hfuel : bytes.length - l.offset ≤ fuel) (hok : l.isOk = true) :
    receiveLoop bytes fuel l =
      ⟨bytes.length - rest.length, decide (rest = []), l.elements ++ bs⟩ := by
  induction fuel generalizing l bs with
  | zero =>
    have hend : bytes.length ≤ l.offset := by omega
    exact loop_eq_of_le h hoffset hend hok
  | succ fuel ih =>
    unfold receiveLoop
    split
    next hmore =>
      cases bs with
      | nil =>
        have hrest := (splits_nil_iff.mp h).1
        have hlen : rest.length = bytes.length - l.offset := by rw [← hrest, length_drop]
        have hne : rest ≠ [] := by
          rintro rfl
          simp only [length_nil] at hlen
          omega
        simp only [Block.fromBuffer_of_splits_nil h, hlen, hne, decide_false, append_nil]
        congr 1
        omega
      | cons b bs =>
        obtain ⟨hsome, hnext, hle⟩ := Block.fromBuffer_of_splits_cons h
        have hpos := b.size_pos
        rw [drop_drop] at hnext
        rw [length_drop] at hle
        simp only [hsome]
        have hrest := ih (l := ⟨l.offset + b.size, true, l.elements ++ [b]⟩) hnext
          (by simp only; omega) (by simp only; omega) rfl
        rw [hrest, append_assoc, singleton_append]
    next hdone => exact loop_eq_of_le h hoffset (by omega) hok

/-! ### One read -/

/-- The bytes received split into the delivered elements and a rest shorter than the buffer, which
is in use, and the array has its length. -/
structure Holds (received : Bytes) (bs : List Block) (rest : Bytes) (t : StreamTransport) :
    Prop where
  splits : Block.framing.Splits received bs rest
  delivered : t.delivered = bs
  length_cells : t.receiveBuffer.cells.length = maxNdnPacketSize
  size_le : t.receiveBuffer.size ≤ maxNdnPacketSize
  pending : t.receiveBuffer.pending = rest

variable {t : StreamTransport} {received rest rest' chunk : Bytes} {bs bs' : List Block}

theorem Holds.length_rest (h : Holds received bs rest t) : rest.length = t.receiveBuffer.size := by
  rw [← h.pending, FixedBuffer.length_pending (h.size_le.trans_eq h.length_cells.symm)]

theorem Holds.length_received (h : Holds received bs rest t) :
    received.length = (bs.flatMap Block.wire).length + rest.length := by
  rw [← length_append]
  exact congrArg List.length h.splits.1

theorem Holds.handleReceive (h : Holds received bs rest t) (hfits : t.Fits chunk)
    (hsplits : Block.framing.Splits (rest ++ chunk) bs' rest') :
    Holds (received ++ chunk) (bs ++ bs') rest' (t.handleReceive chunk) ∧
      ((t.handleReceive chunk).state = .failed ↔ rest'.length = maxNdnPacketSize) := by
  obtain ⟨hup, hchunk, hlen⟩ := hfits
  have hsize : t.receiveBuffer.size ≤ t.receiveBuffer.cells.length :=
    h.size_le.trans_eq h.length_cells.symm
  have hroom : t.receiveBuffer.size + chunk.length ≤ maxNdnPacketSize := by
    unfold offered at hlen
    have := h.size_le
    omega
  -- the read has filled in the chunk after the bytes in use
  generalize hbuffer : t.receiveBuffer.fill chunk = buffer
  have hused : buffer.size = t.receiveBuffer.size + chunk.length := by rw [← hbuffer]; rfl
  have hcells : buffer.cells.length = maxNdnPacketSize := by
    rw [← hbuffer, ← h.length_cells]
    exact FixedBuffer.length_fill (hroom.trans_eq h.length_cells.symm)
  have hle : buffer.size ≤ buffer.cells.length := by omega
  have hpending : buffer.pending = rest ++ chunk := by
    rw [← hbuffer, FixedBuffer.pending_fill chunk hsize, h.pending]
  have hlength : buffer.pending.length = buffer.size := FixedBuffer.length_pending hle
  have hloop : receiveLoop buffer.pending buffer.size ⟨0, true, []⟩ =
      ⟨buffer.size - rest'.length, decide (rest' = []), bs'⟩ := by
    have heq := receiveLoop_eq (l := ⟨0, true, []⟩) (hpending ▸ hsplits) (Nat.zero_le _)
      (Nat.le_of_eq hlength) rfl
    rwa [hlength] at heq
  have hsplits' := hsplits
  rw [← hpending] at hsplits'
  have hrest : rest'.length ≤ buffer.size := hlength ▸ hsplits'.length_rest_le
  have hdrop : buffer.pending.drop (buffer.size - rest'.length) = rest' := by
    have heq := hsplits'.drop_eq
    rwa [hlength] at heq
  have hpos : 0 < chunk.length := length_pos_iff.mpr hchunk
  simp only [StreamTransport.handleReceive, hbuffer, hloop]
  split
  next hfull =>
    simp only [Bool.and_eq_true, Bool.not_eq_true', decide_eq_false_iff_not, beq_iff_eq] at hfull
    obtain ⟨⟨-, hfull⟩, hoffset⟩ := hfull
    refine ⟨⟨h.splits.append hsplits, by rw [h.delivered], hcells, hfull.le, ?_⟩, ?_⟩
    · rw [← hdrop, hoffset, drop_zero]
    · simp only [true_iff]
      omega
  next hopen =>
    refine ⟨⟨h.splits.append hsplits, by rw [h.delivered], ?_, ?_, ?_⟩, ?_⟩
    · rw [FixedBuffer.length_discard hle, hcells]
    · rw [FixedBuffer.size_discard]
      omega
    · rw [FixedBuffer.pending_discard hle, hdrop]
    · simp only [hup, reduceCtorEq, false_iff]
      intro heq
      have hne : rest' ≠ [] := by
        rintro rfl
        cases heq
      refine hopen ?_
      simp only [hne, decide_false, Bool.not_false, Bool.true_and, Bool.and_eq_true, beq_iff_eq]
      omega

/-! ### All reads -/

/-- What has been received of a stream of elements: the completed ones have been delivered, the
array is not overrun, a transport that is up offers a buffer that is not empty, and it has failed
exactly when a full buffer follows the elements. -/
structure Receives (bs : List Block) (received : Bytes) (t : StreamTransport) : Prop where
  delivered : t.delivered = Block.framing.completed bs received.length
  all_delivered : (bs.flatMap Block.wire).length ≤ received.length → t.delivered = bs
  length_cells : t.receiveBuffer.cells.length = maxNdnPacketSize
  size_le : t.receiveBuffer.size ≤ maxNdnPacketSize
  offered_pos : t.state = .up → 0 < t.offered
  failed_iff : t.state = .failed ↔
    received.length = (bs.flatMap Block.wire).length + maxNdnPacketSize

variable {tail : Bytes} {chunks : List Bytes}

theorem Holds.receives (h : Holds received (Block.framing.completed bs received.length) rest t)
    (hfailed : t.state = .failed ↔ rest.length = maxNdnPacketSize)
    (hsize : ∀ b ∈ bs, b.size ≤ maxNdnPacketSize)
    (hnext : Block.framing.completed bs received.length = bs ∨
      ∃ b ∈ bs, rest.length < b.wire.length) :
    Receives bs received t where
  delivered := h.delivered
  all_delivered hle := h.delivered.trans (completed_of_le hle)
  length_cells := h.length_cells
  size_le := h.size_le
  offered_pos hup := by
    have hne : rest.length ≠ maxNdnPacketSize := fun heq => by
      rw [hfailed.mpr heq] at hup
      cases hup
    have := h.size_le
    have := h.length_rest
    unfold offered
    omega
  failed_iff := by
    have hlen := h.length_received
    rw [hfailed]
    constructor
    · intro hfull
      rcases hnext with hall | ⟨b, hb, hlt⟩
      · rw [hall] at hlen
        omega
      · have := hsize b hb
        simp only [Block.size] at this
        omega
    · intro htotal
      rw [completed_of_le (by rw [htotal]; exact Nat.le_add_right _ _)] at hlen
      omega

theorem Holds.receives_run
    (htail : ∀ front, front <+: tail → front.length ≤ maxNdnPacketSize →
      Block.fromBuffer front = none)
    (hsize : ∀ b ∈ bs, b.size ≤ maxNdnPacketSize)
    (hpre : received ++ chunks.flatten <+: bs.flatMap Block.wire ++ tail)
    (hlen : received.length ≤ (bs.flatMap Block.wire).length + maxNdnPacketSize)
    (h : Holds received (Block.framing.completed bs received.length) rest t)
    (hfailed : t.state = .failed ↔ rest.length = maxNdnPacketSize)
    (hmeets : Run.Meets StreamTransport.handleReceive Fits t chunks) :
    Receives bs (received ++ chunks.flatten) (Run.run StreamTransport.handleReceive t chunks) := by
  have hread : ∀ front, front <+: tail → front.length ≤ maxNdnPacketSize →
      Block.framing.read front = none := fun front hfront hle => by
    rw [Block.read_framing, htail front hfront hle, Option.map_none]
  induction chunks generalizing received rest t with
  | nil =>
    rw [flatten_nil, append_nil] at hpre ⊢
    obtain ⟨rest₀, hsplits, hnext⟩ := splits_completed hread hpre hlen
    obtain ⟨-, rfl⟩ := hsplits.unique h.splits
    exact h.receives hfailed hsize hnext
  | cons chunk chunks ih =>
    obtain ⟨hfits, hmeets⟩ := hmeets
    rw [flatten_cons, ← append_assoc] at hpre ⊢
    -- a transport that is up holds less than a full buffer, so the read stays within the bound
    have hlen' : (received ++ chunk).length ≤
        (bs.flatMap Block.wire).length + maxNdnPacketSize := by
      have hchunk := hfits.2.2
      have htotal := h.length_received
      have hdone : ((Block.framing.completed bs received.length).flatMap Block.wire).length ≤
          (bs.flatMap Block.wire).length :=
        Block.framing.length_completed_le bs _
      have := h.length_rest
      have := h.size_le
      rw [length_append]
      unfold offered at hchunk
      omega
    obtain ⟨rest', hsplits, -⟩ := splits_completed hread
      ((prefix_append _ _).trans hpre) hlen'
    obtain ⟨bs', hsplits', hbs⟩ := h.splits.of_append hsplits
    obtain ⟨hnext, hstate⟩ := h.handleReceive hfits hsplits'
    rw [← hbs] at hnext
    exact ih hpre hlen' hnext hstate hmeets

/-- However a stream of elements is cut into reads, each element is delivered by the read that
completes it, the buffer has room, and the transport does not fail unless `MAX_NDN_PACKET_SIZE`
bytes without an element follow. -/
theorem receives_of_fits (cells : Bytes) (hcells : cells.length = maxNdnPacketSize)
    (bs : List Block) (hsize : ∀ b ∈ bs, b.size ≤ maxNdnPacketSize) (tail : Bytes)
    (htail : ∀ front, front <+: tail → front.length ≤ maxNdnPacketSize →
      Block.fromBuffer front = none)
    (chunks : List Bytes) (hmeets : Run.Meets handleReceive Fits (init cells) chunks)
    (hpre : chunks.flatten <+: bs.flatMap Block.wire ++ tail) :
    Receives bs chunks.flatten (Run.run handleReceive (init cells) chunks) := by
  have hinit : Holds [] (Block.framing.completed bs 0) [] (init cells) := by
    rw [completed_zero]
    exact ⟨⟨rfl, Block.framing.read_nil⟩, rfl, hcells, Nat.zero_le _, rfl⟩
  exact hinit.receives_run htail hsize hpre (Nat.zero_le _)
    (by simp [init, maxNdnPacketSize]) hmeets

/-- An element cut after its first byte, followed by a byte with which no element starts. -/
theorem receives_of_fits_sample :
    Receives [Block.make 8 [65] (by decide) (by decide) (by decide)] [8, 1, 65, 0]
      (Run.run handleReceive (init (List.replicate maxNdnPacketSize 0)) [[8], [1, 65, 0]]) := by
  refine receives_of_fits _ length_replicate _ ?_ [0] ?_ [[8], [1, 65, 0]] ?_ ?_
  · decide
  · intro front hfront _
    rcases prefix_cons_iff.mp hfront with rfl | ⟨front, rfl, hnil⟩
    · rfl
    · rw [prefix_nil.mp hnil]
      rfl
  · exact ⟨⟨rfl, by decide, by decide⟩, ⟨rfl, by decide, by decide⟩, trivial⟩
  · decide

end StreamTransport

end NdnFc
