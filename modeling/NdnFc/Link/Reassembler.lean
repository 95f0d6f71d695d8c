import Mathlib.Data.List.Nodup
import NdnFc.Lib.SlotStore
import NdnFc.Link.Packet

/-!
# Reassembly of link packets

`LpReassembler` (`NFD-FC/daemon/face/lp-reassembler.cpp`) collects the fragments of a message under
the remote endpoint and the sequence number of the first fragment. It is a store of independent
slots.
-/

namespace NdnFc

open List Lp

abbrev EndpointId := UInt64

namespace LpReassembler

/-- `LpReassembler::Options`; the timeout is the scheduler's. -/
structure Options where
  nMaxFragments : ℕ := 400

/-- `LpReassembler::Key`: the remote endpoint and the message identifier. -/
structure Key where
  remoteEndpoint : EndpointId
  messageIdentifier : UInt64
deriving DecidableEq

structure PartialPacket where
  fragCount : ℕ
  nReceivedFragments : ℕ
  fragments : List Packet
deriving DecidableEq

/-- What `receiveFragment` returns: nothing, or a network packet and the packet of its first
fragment. -/
abbrev Outcome := Except String (Option (Block × Packet))

abbrev Store := Key → Option PartialPacket

def Store.empty : Store := fun _ => none

/-- A packet as its fragmentation fields are read. -/
inductive Reading where
  /-- The packet is dropped. -/
  | drop
  /-- The packet is not fragmented. -/
  | whole
  /-- The packet is one fragment of a message. -/
  | part (key : Key) (fragIndex fragCount : ℕ)
deriving DecidableEq

/-- The value of an integer field, or what it defaults to. -/
def getOr (f : FieldDecl ℕ) (default : ℕ) (packet : Packet) : Except String ℕ :=
  if packet.has f then packet.get f 0 else pure default

variable (options : Options)

/-- The checks at the start of `receiveFragment`. The message identifier is the sequence number of
the fragment with index 0. -/
def read (remoteEndpoint : EndpointId) (packet : Packet) :
    Except String Reading := do
  let fragIndex ← getOr fragIndexField 0 packet
  let fragCount ← getOr fragCountField 1 packet
  if fragCount ≤ fragIndex then pure .drop
  else if options.nMaxFragments < fragCount then pure .drop
  else if fragIndex = 0 ∧ fragCount = 1 then pure .whole
  else if packet.has sequenceField = false then pure .drop
  else do
    let seq ← packet.get sequenceField 0
    pure (.part ⟨remoteEndpoint, seq - UInt64.ofNat fragIndex⟩ fragIndex fragCount)

/-- The fast path for a packet that is not fragmented. -/
def receiveWhole (packet : Packet) : Outcome := do
  let bytes ← packet.get fragmentField 0
  let netPkt ← Block.ofBuffer bytes
  pure (some (netPkt, packet))

def doReassembly (fragments : List Packet) : Except String Block := do
  let payloads ← fragments.mapM fun frag => frag.get fragmentField 0
  Block.ofBuffer payloads.flatten

def PartialPacket.new (fragCount : ℕ) : PartialPacket :=
  ⟨fragCount, 0, List.replicate fragCount .empty⟩

/-- The rest of `receiveFragment`, on the slot of the message. When the reassembly throws, the
partial packet stays. -/
def addFragment (packet : Packet) (fragIndex fragCount : ℕ) (slot : Option PartialPacket) :
    Outcome × Option PartialPacket :=
  let pp := slot.getD (.new fragCount)
  if pp.fragCount ≠ fragCount then (.ok none, slot)
  else if (pp.fragments.getD fragIndex .empty).has sequenceField then (.ok none, slot)
  else
    let fragments := pp.fragments.set fragIndex packet
    let pp : PartialPacket := ⟨pp.fragCount, pp.nReceivedFragments + 1, fragments⟩
    if pp.nReceivedFragments = pp.fragCount then
      match doReassembly fragments with
      | .error e => (.error e, some pp)
      | .ok reassembled => (.ok (some (reassembled, fragments.headD .empty)), none)
    else (.ok none, some pp)

def receiveFragment (s : Store) (remoteEndpoint : EndpointId) (packet : Packet) : Outcome × Store :=
  match read options remoteEndpoint packet with
  | .error e => (.error e, s)
  | .ok .drop => (.ok none, s)
  | .ok .whole => (receiveWhole packet, s)
  | .ok (.part key fragIndex fragCount) =>
    let (outcome, slot) := addFragment packet fragIndex fragCount (s key)
    (outcome, Function.update s key slot)

def timeoutPartialPacket (s : Store) (key : Key) : Store :=
  Function.update s key none

/-! ### Events -/

inductive Event where
  | receive (remoteEndpoint : EndpointId) (packet : Packet)
  | timeout (key : Key)
deriving DecidableEq

def step (s : Store) : Event → Store
  | .receive remoteEndpoint packet => (receiveFragment options s remoteEndpoint packet).2
  | .timeout key => timeoutPartialPacket s key

def Event.key (options : Options) : Event → Option Key
  | .receive remoteEndpoint packet =>
    match read options remoteEndpoint packet with
    | .ok (.part key _ _) => some key
    | _ => none
  | .timeout key => some key

def slotStep (slot : Option PartialPacket) :
    Event → Outcome × Option PartialPacket
  | .receive remoteEndpoint packet =>
    match read options remoteEndpoint packet with
    | .error e => (.error e, slot)
    | .ok .drop => (.ok none, slot)
    | .ok .whole => (receiveWhole packet, slot)
    | .ok (.part _ fragIndex fragCount) => addFragment packet fragIndex fragCount slot
  | .timeout _ => (.ok none, none)

variable {options : Options} (s : Store)

theorem receiveFragment_eq (remoteEndpoint : EndpointId) (packet : Packet) :
    receiveFragment options s remoteEndpoint packet =
      (SlotStore.result (Event.key options) (slotStep options) s (.receive remoteEndpoint packet),
        SlotStore.step (Event.key options) (slotStep options) s
          (.receive remoteEndpoint packet)) := by
  rcases h : read options remoteEndpoint packet with e | _ | _ | _
  all_goals
    simp only [receiveFragment, SlotStore.result, SlotStore.step, Event.key, slotStep, h]

theorem step_eq (e : Event) :
    step options s e = SlotStore.step (Event.key options) (slotStep options) s e := by
  cases e with
  | receive remoteEndpoint packet => rw [step, receiveFragment_eq]
  | timeout key => rfl

theorem run_eq (es : List Event) :
    Run.run (step options) s es =
      Run.run (SlotStore.step (Event.key options) (slotStep options)) s es := by
  have hstep : step options = SlotStore.step (Event.key options) (slotStep options) := by
    funext s e
    exact step_eq s e
  rw [hstep]

theorem read_eq_part {remoteEndpoint : EndpointId} {packet : Packet} {key : Key}
    {fragIndex fragCount : ℕ}
    (h : read options remoteEndpoint packet = .ok (.part key fragIndex fragCount)) :
    fragIndex < fragCount ∧ packet.has sequenceField = true ∧
      key.remoteEndpoint = remoteEndpoint := by
  unfold read at h
  obtain ⟨i, -, h⟩ := Fallible.bind_eq_ok_iff.mp h
  obtain ⟨n, -, h⟩ := Fallible.bind_eq_ok_iff.mp h
  split_ifs at h with hlt _ _ hhas
  all_goals first | cases h | skip
  obtain ⟨seq, -, h⟩ := Fallible.bind_eq_ok_iff.mp h
  cases h
  exact ⟨by omega, by simpa using hhas, rfl⟩

/-! ### The fragments of one message -/

/-- The fragments of one message: each is read as the part that its place in the list says, and
together they are reassembled into the network packet. -/
structure Message (options : Options) where
  key : Key
  frags : List Packet
  netPkt : Block
  read_frag : ∀ (k : ℕ) (h : k < frags.length),
    read options key.remoteEndpoint frags[k] = .ok (.part key k frags.length)
  doReassembly_frags : doReassembly frags = .ok netPkt

namespace Message

variable (m : Message options)

def arrival (frag : Packet) : Event :=
  .receive m.key.remoteEndpoint frag

def Complete (es : List Event) : Prop :=
  ∀ frag ∈ m.frags, m.arrival frag ∈ es

instance (es : List Event) : Decidable (m.Complete es) :=
  inferInstanceAs (Decidable (∀ frag ∈ m.frags, m.arrival frag ∈ es))

/-- The partial packet that has received the fragments in a list. -/
def partialPacket (got : List Packet) : PartialPacket :=
  ⟨m.frags.length, got.length, m.frags.map fun frag => if frag ∈ got then frag else .empty⟩

/-- The slot holds the fragments in a list, each of them once. -/
structure Collected (got : List Packet) (slot : Option PartialPacket) : Prop where
  nodup : got.Nodup
  subset : got ⊆ m.frags
  slot_eq : slot.getD (.new m.frags.length) = m.partialPacket got

variable {m}

theorem index_injective {i j : ℕ} (hi : i < m.frags.length) (hj : j < m.frags.length)
    (h : m.frags[i] = m.frags[j]) : i = j := by
  have hread := m.read_frag i hi
  rw [h, m.read_frag j hj] at hread
  simpa using hread.symm

theorem nodup_frags : m.frags.Nodup := by
  rw [nodup_iff_injective_get]
  intro i j h
  exact Fin.ext (index_injective i.2 j.2 (by simpa using h))

theorem collected_nil : m.Collected [] none := by
  refine ⟨.nil, nil_subset _, ?_⟩
  simp [PartialPacket.new, partialPacket]

variable {got : List Packet} {slot : Option PartialPacket}

theorem Collected.length_eq_iff (h : m.Collected got slot) :
    got.length = m.frags.length ↔ m.frags ⊆ got := by
  have hsub : got.Subperm m.frags := subperm_of_subset h.nodup h.subset
  constructor
  · intro hlen
    exact (hsub.perm_of_length_le hlen.ge).symm.subset
  · intro hall
    exact le_antisymm hsub.length_le (subperm_of_subset nodup_frags hall).length_le

variable {k : ℕ}

theorem set_partialPacket (hk : k < m.frags.length) :
    (m.partialPacket got).fragments.set k m.frags[k] =
      (m.partialPacket (m.frags[k] :: got)).fragments := by
  refine ext_getElem (by simp [partialPacket]) fun j hj _ => ?_
  have hj' : j < m.frags.length := by simpa [partialPacket] using hj
  rw [getElem_set]
  by_cases hjk : k = j
  · subst hjk
    simp [partialPacket]
  · have hne : m.frags[j] ≠ m.frags[k] := fun he => hjk (index_injective hj' hk he).symm
    simp [partialPacket, hjk, hne]

theorem partialPacket_of_subset (h : m.frags ⊆ got) :
    (m.partialPacket got).fragments = m.frags := by
  refine (map_congr_left fun frag hfrag => if_pos (h hfrag)).trans ?_
  exact map_id _

theorem addFragment_of_mem (h : m.Collected got slot) (hk : k < m.frags.length)
    (hmem : m.frags[k] ∈ got) :
    addFragment m.frags[k] k m.frags.length slot = (.ok none, slot) := by
  obtain ⟨-, hhas, -⟩ := read_eq_part (m.read_frag k hk)
  have hget : (m.partialPacket got).fragments.getD k .empty = m.frags[k] := by
    simp [partialPacket, hk, hmem]
  have hcount : (m.partialPacket got).fragCount = m.frags.length := rfl
  unfold addFragment
  rw [h.slot_eq]
  dsimp only
  rw [if_neg (not_not.mpr hcount), hget, if_pos hhas]

theorem addFragment_of_notMem (h : m.Collected got slot) (hk : k < m.frags.length)
    (hmem : m.frags[k] ∉ got) :
    addFragment m.frags[k] k m.frags.length slot =
      if m.frags ⊆ m.frags[k] :: got then (.ok (some (m.netPkt, m.frags.headD .empty)), none)
      else (.ok none, some (m.partialPacket (m.frags[k] :: got))) := by
  have hnodup : (m.frags[k] :: got).Nodup := nodup_cons.mpr ⟨hmem, h.nodup⟩
  have hsubset : m.frags[k] :: got ⊆ m.frags :=
    cons_subset.mpr ⟨getElem_mem hk, h.subset⟩
  have hcollected : m.Collected (m.frags[k] :: got) (some (m.partialPacket (m.frags[k] :: got))) :=
    ⟨hnodup, hsubset, rfl⟩
  have hget : (m.partialPacket got).fragments.getD k .empty = .empty := by
    simp [partialPacket, hk, hmem]
  have hcount : (m.partialPacket got).fragCount = m.frags.length := rfl
  unfold addFragment
  rw [h.slot_eq]
  dsimp only
  rw [if_neg (not_not.mpr hcount), hget, if_neg (by decide), set_partialPacket hk]
  split
  next hall =>
    rw [if_pos (hcollected.length_eq_iff.mp hall), partialPacket_of_subset
      (hcollected.length_eq_iff.mp hall), m.doReassembly_frags]
  next hall =>
    rw [if_neg fun hsub => hall (hcollected.length_eq_iff.mpr hsub)]
    rfl

theorem key_arrival {frag : Packet} (h : frag ∈ m.frags) :
    (m.arrival frag).key options = some m.key := by
  obtain ⟨k, hk, rfl⟩ := getElem_of_mem h
  simp only [Event.key, arrival, m.read_frag k hk]

theorem arrival_inj {a b : Packet} : m.arrival a = m.arrival b ↔ a = b := by
  simp [arrival]

theorem collected_slotRun {es : List Event} (hown : ∀ e ∈ es, ∃ frag ∈ m.frags, e = m.arrival frag)
    (hmissing : ¬ m.Complete es) :
    ∃ got, m.Collected got (SlotStore.slotRun (slotStep options) none es) ∧
      ∀ frag, frag ∈ got ↔ m.arrival frag ∈ es := by
  induction es using List.reverseRecOn with
  | nil => exact ⟨[], collected_nil, by simp⟩
  | append_singleton es e ih =>
    have hbefore : ¬ m.Complete es := fun h =>
      hmissing fun frag hfrag => mem_append_left _ (h frag hfrag)
    obtain ⟨got, hgot, hiff⟩ := ih (fun e he => hown e (mem_append_left _ he)) hbefore
    obtain ⟨frag, hfrag, rfl⟩ := hown e (by simp)
    obtain ⟨k, hk, rfl⟩ := getElem_of_mem hfrag
    have hstep : SlotStore.slotRun (slotStep options) none (es ++ [m.arrival m.frags[k]]) =
        (addFragment m.frags[k] k m.frags.length
          (SlotStore.slotRun (slotStep options) none es)).2 := by
      simp only [SlotStore.slotRun, Run.run_append, Run.run_cons, slotStep, arrival, m.read_frag k hk]
      rfl
    rw [hstep]
    by_cases hmem : m.frags[k] ∈ got
    · rw [addFragment_of_mem hgot hk hmem]
      refine ⟨got, hgot, fun frag => ?_⟩
      rw [mem_append, mem_singleton, arrival_inj, hiff]
      constructor
      · exact Or.inl
      · rintro (h | rfl)
        · exact h
        · exact (hiff _).mp hmem
    · have hiff' : ∀ frag, frag ∈ m.frags[k] :: got ↔
          m.arrival frag ∈ es ++ [m.arrival m.frags[k]] := fun frag => by
        rw [mem_cons, mem_append, mem_singleton, arrival_inj, hiff, or_comm]
      have hnot : ¬ m.frags ⊆ m.frags[k] :: got := fun hall =>
        hmissing fun frag hfrag => (hiff' frag).mp (hall hfrag)
      rw [addFragment_of_notMem hgot hk hmem, if_neg hnot]
      refine ⟨m.frags[k] :: got, ⟨nodup_cons.mpr ⟨hmem, hgot.nodup⟩, ?_, rfl⟩, hiff'⟩
      exact cons_subset.mpr ⟨hfrag, hgot.subset⟩

theorem complete_filter_iff {es : List Event} :
    m.Complete (es.filter fun e => e.key options = some m.key) ↔ m.Complete es := by
  refine forall₂_congr fun frag hfrag => ?_
  simp [key_arrival hfrag]

section Run

variable {s : Store} {es : List Event} (hs : s m.key = none)
  (hes : ∀ e ∈ es, (∃ frag ∈ m.frags, e = m.arrival frag) ∨ e.key options ≠ some m.key)
  (hmissing : ¬ m.Complete es)

include hs hes hmissing

theorem collected_run :
    ∃ got, m.Collected got (Run.run (step options) s es m.key) ∧
      ∀ frag ∈ m.frags, frag ∈ got ↔ m.arrival frag ∈ es := by
  have hown : ∀ e ∈ es.filter fun e => e.key options = some m.key,
      ∃ frag ∈ m.frags, e = m.arrival frag := by
    intro e he
    obtain ⟨hmem, hkey⟩ := mem_filter.mp he
    exact (hes e hmem).resolve_right (not_not.mpr (by simpa using hkey))
  obtain ⟨got, hgot, hiff⟩ :=
    collected_slotRun hown fun h => hmissing (complete_filter_iff.mp h)
  rw [run_eq, SlotStore.run_apply, hs]
  refine ⟨got, hgot, fun frag hfrag => ?_⟩
  rw [hiff, mem_filter]
  simp [key_arrival hfrag]

theorem result_own {frag : Packet} (hfrag : frag ∈ m.frags) :
    (receiveFragment options (Run.run (step options) s es) m.key.remoteEndpoint frag).1 =
      if m.Complete (es ++ [m.arrival frag]) then .ok (some (m.netPkt, m.frags.headD .empty))
      else .ok none := by
  obtain ⟨got, hgot, hiff⟩ := collected_run hs hes hmissing
  obtain ⟨k, hk, rfl⟩ := getElem_of_mem hfrag
  have hresult : (receiveFragment options (Run.run (step options) s es) m.key.remoteEndpoint
      m.frags[k]).1 = (addFragment m.frags[k] k m.frags.length
        (Run.run (step options) s es m.key)).1 := by
    simp only [receiveFragment, m.read_frag k hk]
  have hcomplete : m.frags ⊆ m.frags[k] :: got ↔
      m.Complete (es ++ [m.arrival m.frags[k]]) := by
    refine forall₂_congr fun frag hfrag => ?_
    rw [mem_cons, hiff frag hfrag, mem_append, mem_singleton, arrival_inj, or_comm]
  rw [hresult]
  by_cases hmem : m.frags[k] ∈ got
  · have hnot : ¬ m.Complete (es ++ [m.arrival m.frags[k]]) := by
      rw [← hcomplete]
      intro hall
      refine hmissing fun frag hfrag => (hiff frag hfrag).mp ?_
      rcases mem_cons.mp (hall hfrag) with rfl | h
      · exact hmem
      · exact h
    rw [addFragment_of_mem hgot hk hmem, if_neg hnot]
  · rw [addFragment_of_notMem hgot hk hmem]
    by_cases hall : m.frags ⊆ m.frags[k] :: got
    · rw [if_pos hall, if_pos (hcomplete.mp hall)]
    · rw [if_neg hall, if_neg fun h => hall (hcomplete.mpr h)]

end Run

end Message

end LpReassembler

end NdnFc
