import NdnFc.Link.Fragmenter
import NdnFc.Link.Reassembler

/-!
# Fragmentation and reassembly

The fragments of a packet are a message of the reassembler, whatever the first sequence number is: a
fragment's sequence number less its index, modulo `2 ^ 64`, identifies the message. They are
reassembled in any order, with repetitions, and among other messages.
-/

namespace NdnFc

open Lp LpFragmenter LpReassembler GenericLinkService

variable {options : LpReassembler.Options} {count index : ℕ}

theorem read_of_isFragment {frag : Packet} {payload : Bytes} {seq : UInt64}
    (h : IsFragment count index payload frag) (hseq : frag.Holds sequenceField seq)
    (hindex : index < count) (hmany : 1 < count) (hmax : count ≤ options.nMaxFragments)
    (endpoint : EndpointId) :
    read options endpoint frag =
      .ok (.part ⟨endpoint, seq - UInt64.ofNat index⟩ index count) := by
  have hi : getOr fragIndexField 0 frag = .ok index := by
    rw [getOr, if_pos h.index.has_eq_true, h.index.get_eq_ok]
  have hc : getOr fragCountField 1 frag = .ok count := by
    rw [getOr, if_pos h.count.has_eq_true, h.count.get_eq_ok]
  rw [LpReassembler.read, hi, Fallible.ok_bind, hc, Fallible.ok_bind, if_neg (by omega),
    if_neg (by omega), if_neg (by omega), if_neg (by simp [hseq.has_eq_true]), hseq.get_eq_ok]
  rfl

/-! ### Positions in a list of fragments -/

theorem Numbered.isFragment_getElem {frags : List Packet} {payloads : List Bytes}
    (h : Numbered count index frags payloads) {k : ℕ} (hk : k < frags.length) :
    ∃ payload, IsFragment count (index + k) payload frags[k] := by
  induction frags generalizing index payloads k with
  | nil => simp at hk
  | cons frag frags ih =>
    cases payloads with
    | nil => exact h.elim
    | cons payload payloads =>
      obtain ⟨hfrag, hrest⟩ := h
      cases k with
      | zero => exact ⟨payload, hfrag⟩
      | succ k =>
        obtain ⟨payload', h'⟩ := ih hrest (by simpa using hk)
        have hadd : index + 1 + k = index + (k + 1) := by omega
        rw [hadd] at h'
        exact ⟨payload', h'⟩

theorem Numbered.mapM_get_fragment {frags : List Packet} {payloads : List Bytes}
    (h : Numbered count index frags payloads) :
    frags.mapM (fun frag => frag.get fragmentField 0) = .ok payloads := by
  induction frags generalizing index payloads with
  | nil =>
    cases payloads with
    | nil => rfl
    | cons _ _ => exact h.elim
  | cons frag frags ih =>
    cases payloads with
    | nil => exact h.elim
    | cons payload payloads =>
      obtain ⟨hfrag, hrest⟩ := h
      rw [List.mapM_cons, hfrag.fragment.get_eq_ok, Fallible.ok_bind, ih hrest]
      rfl

theorem GenericLinkService.Sequenced.holds_getElem {first : UInt64} {pkts : List Packet} (h : Sequenced first pkts)
    {k : ℕ} (hk : k < pkts.length) : pkts[k].Holds sequenceField (first + UInt64.ofNat k) := by
  induction pkts generalizing first k with
  | nil => simp at hk
  | cons pkt pkts ih =>
    obtain ⟨hpkt, hrest⟩ := h
    cases k with
    | zero => simpa using hpkt
    | succ k =>
      have hk' := ih hrest (by simpa using hk)
      have hadd : first + 1 + UInt64.ofNat k = first + UInt64.ofNat (k + 1) := by
        rw [UInt64.ofNat_add, UInt64.add_assoc, UInt64.add_comm 1]
        rfl
      rw [hadd] at hk'
      exact hk'

/-! ### The message -/

section

variable {fragOptions : LpFragmenter.Options} {packet : Packet} {netPkt : Block} {mtu : ℕ}
  {frags sent : List Packet} {lastSeqNo lastSeqNo' : UInt64}
  (hoptions : fragOptions.nMaxFragments ≤ options.nMaxFragments)
  (hindex : packet.has fragIndexField = false) (hcount : packet.has fragCountField = false)
  (hnet : packet.get fragmentField 0 = .ok netPkt.wire)
  (hfrags : fragmentPacket fragOptions packet mtu = .ok (some frags)) (hmany : 1 < frags.length)
  (hsent : assignSequences lastSeqNo frags = .ok (lastSeqNo', sent))

include hindex hcount hnet hfrags hmany hsent

theorem sent_spec :
    sent.length = frags.length ∧ frags.length ≤ fragOptions.nMaxFragments ∧
      Sequenced (lastSeqNo + 1) sent ∧
      (∃ payloads, payloads.flatten = netPkt.wire ∧ Numbered frags.length 0 sent payloads) ∧
      ∃ first ∈ sent.head?, ∀ type, type ∉ sequence :: fragmentationTypes →
        first.elementsOf type = packet.elementsOf type := by
  obtain ⟨hmax, -, ⟨payloads, hflat, hnum⟩, hhead⟩ :=
    fragmentPacket_spec hindex hcount hnet hfrags hmany
  obtain ⟨hseq, hall⟩ := assignSequences_spec hsent
  refine ⟨hall.length_eq.symm, hmax, hseq, ⟨payloads, hflat, numbered_of_forall₂ hnum hall⟩, ?_⟩
  cases hall with
  | nil => simp at hmany
  | @cons frag first _ _ hother _ =>
    refine ⟨first, rfl, fun type htype => ?_⟩
    obtain ⟨hsequence, htypes⟩ := not_or.mp (mt List.mem_cons.mpr htype)
    rw [hother type hsequence, hhead frag rfl type htypes]

include hoptions

/-- The numbered fragments of a packet are a message of the reassembler. -/
def fragmentedMessage (endpoint : EndpointId) : Message options where
  key := ⟨endpoint, lastSeqNo + 1⟩
  frags := sent
  netPkt := netPkt
  read_frag k hk := by
    obtain ⟨hlen, hmax, hseq, ⟨payloads, -, hnum⟩, -⟩ :=
      sent_spec hindex hcount hnet hfrags hmany hsent
    obtain ⟨payload, hfrag⟩ := hnum.isFragment_getElem hk
    rw [Nat.zero_add] at hfrag
    rw [read_of_isFragment hfrag (hseq.holds_getElem hk) (by omega) hmany (by omega) endpoint, hlen,
      UInt64.add_sub_cancel]
  doReassembly_frags := by
    obtain ⟨-, -, -, ⟨payloads, hflat, hnum⟩, -⟩ := sent_spec hindex hcount hnet hfrags hmany hsent
    rw [doReassembly, hnum.mapM_get_fragment, Fallible.ok_bind, hflat, Block.ofBuffer_wire]

/-- A packet is cut into several fragments, which arrive in any order, with repetitions, among
events `es` for other slots. The arrival after which none is missing returns the network packet and
the first fragment, with all fields but those that number it; no earlier one returns anything. Other
slots are as without the fragments. -/
theorem fragmentation_roundTrip (endpoint : EndpointId) {s : Store}
    (hs : s ⟨endpoint, lastSeqNo + 1⟩ = none) {es : List Event}
    (hes : ∀ e ∈ es, (∃ frag ∈ sent, e = .receive endpoint frag) ∨
      e.key options ≠ some ⟨endpoint, lastSeqNo + 1⟩) :
    ((∃ frag ∈ sent, .receive endpoint frag ∉ es) → ∀ frag ∈ sent,
      ((∀ other ∈ sent, .receive endpoint other ∈ es ++ [.receive endpoint frag]) →
        ∃ first ∈ sent.head?,
          (∀ type, type ∉ sequence :: fragmentationTypes →
            first.elementsOf type = packet.elementsOf type) ∧
          (receiveFragment options (Run.run (step options) s es) endpoint frag).1 =
            .ok (some (netPkt, first))) ∧
      ((∃ other ∈ sent, .receive endpoint other ∉ es ++ [.receive endpoint frag]) →
        (receiveFragment options (Run.run (step options) s es) endpoint frag).1 = .ok none)) ∧
    ∀ others, others = es.filter (fun e => e.key options ≠ some ⟨endpoint, lastSeqNo + 1⟩) →
      (∀ key, key ≠ ⟨endpoint, lastSeqNo + 1⟩ →
        Run.run (step options) s es key = Run.run (step options) s others key) ∧
      ∀ endpoint' packet', Event.key options (.receive endpoint' packet') ≠
          some ⟨endpoint, lastSeqNo + 1⟩ →
        (receiveFragment options (Run.run (step options) s es) endpoint' packet').1 =
          (receiveFragment options (Run.run (step options) s others) endpoint' packet').1 := by
  refine ⟨fun hmissing frag hfrag => ?_, ?_⟩
  · have hnot : ¬ ∀ frag ∈ sent, Event.receive endpoint frag ∈ es := by
      intro hall
      obtain ⟨frag, hfrag, hnotMem⟩ := hmissing
      exact hnotMem (hall frag hfrag)
    have hresult := (fragmentedMessage hoptions hindex hcount hnet hfrags hmany hsent
      endpoint).result_own hs hes hnot hfrag
    obtain ⟨-, -, -, -, first, hfirst, hother⟩ := sent_spec hindex hcount hnet hfrags hmany hsent
    constructor
    · intro hall
      have hhead : sent.headD .empty = first := by
        rw [List.headD_eq_head?_getD, Option.mem_def.mp hfirst, Option.getD_some]
      refine ⟨first, hfirst, hother, hresult.trans ((if_pos hall).trans ?_)⟩
      rw [← hhead]
      rfl
    · rintro ⟨other, hmem, hnotMem⟩
      exact hresult.trans (if_neg fun hall => hnotMem (hall other hmem))
  · rintro _ rfl
    simp only [receiveFragment_eq, run_eq]
    refine ⟨fun key hkey => (SlotStore.run_filter_apply hkey).symm, fun endpoint' packet' hkey => ?_⟩
    exact (SlotStore.result_run_filter hkey).symm

end

/-! ### A packet in three fragments -/

def sampleNetPkt : Block :=
  .make Tlv.data (List.replicate 38 7) (by decide) (by decide) (by decide)

def samplePacket : Packet :=
  (Packet.empty.add fragmentField sampleNetPkt.wire).toOption.getD .empty

def sampleFrags : List Packet :=
  (fragmentPacket {} samplePacket 69).toOption.join.getD []

def sampleSent : UInt64 × List Packet :=
  (assignSequences 18446744073709551613 sampleFrags).toOption.getD (0, [])

/-- The second and third fragment arrive twice, and all of them from another endpoint. -/
def sampleEvents : List Event :=
  (sampleSent.2.drop 1).reverse.map (.receive 5) ++ sampleSent.2.map (.receive 6) ++
    (sampleSent.2.drop 1).map (.receive 5)

set_option maxRecDepth 8000 in
theorem fragmentation_roundTrip_sample : ∃ first ∈ sampleSent.2.head?,
    (receiveFragment {} (Run.run (step {}) Store.empty sampleEvents) 5 first).1 =
      .ok (some (sampleNetPkt, first)) := by
  have hnet : samplePacket.get fragmentField 0 = .ok sampleNetPkt.wire := by decide
  have hfrags : fragmentPacket {} samplePacket 69 = .ok (some sampleFrags) := by decide
  have hsent : assignSequences 18446744073709551613 sampleFrags =
      .ok (sampleSent.1, sampleSent.2) := by decide
  have hs : Store.empty ⟨5, 18446744073709551613 + 1⟩ = none := rfl
  have hes : ∀ e ∈ sampleEvents, (∃ frag ∈ sampleSent.2, e = .receive 5 frag) ∨
      e.key {} ≠ some ⟨5, 18446744073709551613 + 1⟩ := by decide
  obtain ⟨frag, hhead⟩ : ∃ frag, sampleSent.2.head? = some frag :=
    Option.isSome_iff_exists.mp (by decide)
  have hmissing : ∃ frag ∈ sampleSent.2, Event.receive 5 frag ∉ sampleEvents := by decide
  have hall : ∀ frag ∈ sampleSent.2.head?, ∀ other ∈ sampleSent.2,
      Event.receive 5 other ∈ sampleEvents ++ [.receive 5 frag] := by decide
  obtain ⟨first, hfirst, -, hresult⟩ :=
    ((fragmentation_roundTrip le_rfl (by decide) (by decide) hnet hfrags (by decide) hsent 5 hs
      hes).1 hmissing frag (List.mem_of_mem_head? hhead)).1 (hall frag hhead)
  rw [hhead] at hfirst
  cases hfirst
  exact ⟨frag, hhead, hresult⟩

end NdnFc
