import NdnFc.Link.Reassembler

/-!
# Failed reassembly

`LpReassembler::receiveFragment` decodes the concatenated payloads before it erases the partial
packet (`NFD-FC/daemon/face/lp-reassembler.cpp`, lines 112 to 118). When they do not begin with an
element the exception passes through, and the partial packet stays until its timer fires.
-/

namespace NdnFc

open Lp

namespace LpReassembler

variable (options : Options)

/-- The fragment is stored and none is missing then. -/
structure Completes (fragIndex fragCount : ℕ) (pp : PartialPacket) : Prop where
  fragCount_eq : pp.fragCount = fragCount
  missing : (pp.fragments.getD fragIndex .empty).has sequenceField = false
  last : pp.nReceivedFragments + 1 = pp.fragCount

/-- When the fragment that comes is the last one of its message, the payloads begin with an
element. -/
def Event.Decodes (s : Store) : Event → Prop
  | .receive remoteEndpoint packet => ∀ key fragIndex fragCount,
      read options remoteEndpoint packet = .ok (.part key fragIndex fragCount) →
      Completes fragIndex fragCount ((s key).getD (.new fragCount)) →
      ∃ payloads netPkt,
        (((s key).getD (.new fragCount)).fragments.set fragIndex packet).mapM
          (fun frag => frag.get fragmentField 0) = .ok payloads ∧
        Block.ofBuffer payloads.flatten = .ok netPkt
  | .timeout _ => True

/-- The reassembly of the message under a key fails. -/
def Event.Fails (s : Store) (key : Key) : Event → Prop
  | .receive remoteEndpoint packet =>
      Event.key options (.receive remoteEndpoint packet) = some key ∧
      ∃ e, (receiveFragment options s remoteEndpoint packet).1 = .error e
  | .timeout key' => key' = key

/-- The fragments of a message that arrive from now on, in any order, with repetitions and among
events for other slots, are reassembled when the last of them arrives. -/
def Reassembles (m : Message options) (s : Store) : Prop :=
  ∀ es : List Event,
    (∀ e ∈ es, (∃ frag ∈ m.frags, e = m.arrival frag) ∨ e.key options ≠ some m.key) →
    ¬ m.Complete es → ∀ frag ∈ m.frags,
      (receiveFragment options (Run.run (step options) s es) m.key.remoteEndpoint frag).1 =
        if m.Complete (es ++ [m.arrival frag]) then .ok (some (m.netPkt, m.frags.headD .empty))
        else .ok none

/-- A failed reassembly leaves no partial packet, so that its message can be sent again with the
same numbers, and no event touches other messages. -/
structure Contained (s : Store) (e : Event) : Prop where
  cleared : ∀ key, e.Fails options s key → step options s e key = none
  fresh : ∀ m : Message options, e.Fails options s m.key → Reassembles options m (step options s e)
  others : ∀ key, e.key options ≠ some key → step options s e key = s key

variable {options} {s : Store} {fragCount fragIndex : ℕ} {packet : Packet}

variable {slot : Option PartialPacket}

theorem addFragment_eq_error_iff {e : String} :
    (addFragment packet fragIndex fragCount slot).1 = .error e ↔
      Completes fragIndex fragCount (slot.getD (.new fragCount)) ∧
        doReassembly ((slot.getD (.new fragCount)).fragments.set fragIndex packet) = .error e := by
  generalize hpp : slot.getD (.new fragCount) = pp
  have hsplit : Completes fragIndex fragCount pp ↔ pp.fragCount = fragCount ∧
      (pp.fragments.getD fragIndex .empty).has sequenceField = false ∧
      pp.nReceivedFragments + 1 = pp.fragCount :=
    ⟨fun h => ⟨h.1, h.2, h.3⟩, fun h => ⟨h.1, h.2.1, h.2.2⟩⟩
  rw [hsplit, addFragment, hpp]
  dsimp only
  by_cases hcount : pp.fragCount = fragCount
  · rw [if_neg (not_not.mpr hcount)]
    cases hhas : (pp.fragments.getD fragIndex .empty).has sequenceField with
    | true => simp
    | false =>
      rw [if_neg Bool.false_ne_true]
      by_cases hlast : pp.nReceivedFragments + 1 = pp.fragCount
      · rw [if_pos hlast]
        cases doReassembly (pp.fragments.set fragIndex packet) <;> simp [hcount, hlast]
      · simp [hlast]
  · simp [hcount]

theorem addFragment_of_error {e : String}
    (h : (addFragment packet fragIndex fragCount slot).1 = .error e) :
    (addFragment packet fragIndex fragCount slot).2 ≠ none := by
  obtain ⟨hcompletes, herror⟩ := addFragment_eq_error_iff.mp h
  rw [addFragment]
  dsimp only
  rw [if_neg (not_not.mpr hcompletes.fragCount_eq), hcompletes.missing,
    if_neg Bool.false_ne_true, if_pos hcompletes.last, herror]
  exact Option.some_ne_none _

theorem doReassembly_eq_ok_iff {fragments : List Packet} {netPkt : Block} :
    doReassembly fragments = .ok netPkt ↔
      ∃ payloads, fragments.mapM (fun frag => frag.get fragmentField 0) = .ok payloads ∧
        Block.ofBuffer payloads.flatten = .ok netPkt :=
  Fallible.bind_eq_ok_iff

variable {remoteEndpoint : EndpointId} {key : Key}

theorem receiveFragment_of_part
    (h : read options remoteEndpoint packet = .ok (.part key fragIndex fragCount)) :
    receiveFragment options s remoteEndpoint packet =
      ((addFragment packet fragIndex fragCount (s key)).1,
        Function.update s key (addFragment packet fragIndex fragCount (s key)).2) := by
  simp only [receiveFragment, h]

theorem exists_read_of_key (h : Event.key options (.receive remoteEndpoint packet) = some key) :
    ∃ fragIndex fragCount,
      read options remoteEndpoint packet = .ok (.part key fragIndex fragCount) := by
  simp only [Event.key] at h
  split at h
  next key' fragIndex fragCount hread =>
    cases h
    exact ⟨fragIndex, fragCount, hread⟩
  next => cases h

theorem step_eq_none_of_fails {e : Event} (hdecodes : e.Decodes options s)
    (h : e.Fails options s key) : step options s e key = none := by
  cases e with
  | timeout key' =>
    obtain rfl : key' = key := h
    exact Function.update_self key' none s
  | receive remoteEndpoint packet =>
    -- a fragment throws only if the payloads do not decode
    obtain ⟨hkey, error, herror⟩ := h
    obtain ⟨fragIndex, fragCount, hread⟩ := exists_read_of_key hkey
    rw [receiveFragment_of_part hread] at herror
    obtain ⟨hcompletes, hthrows⟩ := addFragment_eq_error_iff.mp herror
    obtain ⟨payloads, netPkt, hpayloads, hnetPkt⟩ :=
      hdecodes key fragIndex fragCount hread hcompletes
    rw [doReassembly_eq_ok_iff.mpr ⟨payloads, hpayloads, hnetPkt⟩] at hthrows
    cases hthrows

theorem contained_iff {e : Event} : Contained options s e ↔ e.Decodes options s := by
  constructor
  · intro h
    cases e with
    | timeout key => trivial
    | receive remoteEndpoint packet =>
      intro key fragIndex fragCount hread hcompletes
      cases hreassembly : doReassembly
          (((s key).getD (.new fragCount)).fragments.set fragIndex packet) with
      | ok netPkt =>
        obtain ⟨payloads, hpayloads, hnetPkt⟩ := doReassembly_eq_ok_iff.mp hreassembly
        exact ⟨payloads, netPkt, hpayloads, hnetPkt⟩
      | error e =>
        have herror := addFragment_eq_error_iff.mpr ⟨hcompletes, hreassembly⟩
        have hfails : (Event.receive remoteEndpoint packet).Fails options s key :=
          ⟨by simp only [Event.key, hread], e, by rw [receiveFragment_of_part hread, herror]⟩
        have hcleared := h.cleared key hfails
        rw [step, receiveFragment_of_part hread] at hcleared
        dsimp only at hcleared
        rw [Function.update_self] at hcleared
        exact absurd hcleared (addFragment_of_error herror)
  · intro h
    refine ⟨fun key => step_eq_none_of_fails h, fun m hfails => ?_, fun key hkey => ?_⟩
    · exact fun _ => m.result_own (step_eq_none_of_fails h hfails)
    · rw [step_eq, SlotStore.step_apply_of_ne hkey]

/-- For every sequence of arrivals, malformed ones included, and timeouts, the failures are
contained exactly when each fragment that is the last one missing makes the payloads begin with an
element. -/
theorem contained_throughout_iff (options : Options) (s : Store) (es : List Event) :
    Run.Meets (step options) (Contained options) s es ↔
      Run.Meets (step options) (fun s e => e.Decodes options s) s es :=
  Run.meets_congr fun _ _ => contained_iff

/-- One of two fragments, with the sequence number of the message. -/
def ofTwo (messageIdentifier : UInt64) (fragIndex : ℕ) (payload : Bytes) : Packet :=
  (do
    let frag ← Packet.empty.add fragIndexField fragIndex
    let frag ← frag.add fragCountField 2
    let frag ← frag.add sequenceField (messageIdentifier + UInt64.ofNat fragIndex)
    frag.add fragmentField payload).toOption.getD .empty

/-- The payloads announce more bytes than there are. The exception leaves the partial packet, and
the fragments of the next message with these numbers are dropped. -/
theorem not_contained_truncated : ∃ s t : Store,
    s = step {} .empty (.receive 5 (ofTwo 7 0 [6, 9])) ∧
    (receiveFragment {} s 5 (ofTwo 7 1 [1])).1 =
      .error "Not enough bytes in the buffer to fully parse TLV" ∧
    t = step {} s (.receive 5 (ofTwo 7 1 [1])) ∧ (t ⟨5, 7⟩).isSome ∧
    (receiveFragment {} .empty 5 (ofTwo 7 0 [6, 1])).1 = .ok none ∧
    (∃ netPkt first, (receiveFragment {} (step {} .empty (.receive 5 (ofTwo 7 0 [6, 1]))) 5
      (ofTwo 7 1 [65])).1 = .ok (some (netPkt, first))) ∧
    (receiveFragment {} t 5 (ofTwo 7 0 [6, 1])).1 = .ok none ∧
    (receiveFragment {} (step {} t (.receive 5 (ofTwo 7 0 [6, 1]))) 5 (ofTwo 7 1 [65])).1 =
      .ok none :=
  ⟨_, _, rfl, by decide, rfl, by decide, by decide, ⟨_, _, rfl⟩, by decide, by decide⟩

end LpReassembler

end NdnFc
