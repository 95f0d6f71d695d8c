import NdnFc.Lib.RecentKeys
import NdnFc.Link.AckQueue

/-!
# Suppression of duplicates

`LpReliability::processIncomingPacket` (`NFD-FC/daemon/face/lp-reliability.cpp`, lines 106 to 190)
remembers for one RTO the Sequence numbers of the packets that it acknowledges. A packet with such a
number is a duplicate. Acknowledgements are read first, and an exception there leaves everything as
it is. The RTO does not change.
-/

namespace NdnFc

open Option List Lp Run RecentKeys

namespace Lp

def txSequenceField : FieldDecl UInt64 :=
  ⟨⟨.header, txSequence, false⟩, by decide, fun n => BigEndian.ofNat 8 n.toNat, decodeUInt64⟩

def Packet.list {V : Type} (f : FieldDecl V) (p : Packet) : Except String (List V) :=
  (p.elementsOf f.tlvType).mapM f.decode

end Lp

namespace LpReliability

/-- What `LpReliability` keeps about received packets. -/
structure Receiver where
  ackQueue : List UInt64
  recentRecvSeqs : State UInt64

def Receiver.initial : Receiver := ⟨[], empty⟩

/-- `processIncomingPacket` at time `now`: whether the packet is new. -/
def processIncomingPacket (rto now : ℤ) (s : Receiver) (pkt : Packet) :
    Except String Bool × Receiver :=
  match pkt.list ackField with
  | .error e => (.error e, s)
  | .ok _ =>
    if pkt.has fragmentField && pkt.has txSequenceField then
      match pkt.get txSequenceField 0 with
      | .error e => (.error e, s)
      | .ok txSeq =>
        let s := { s with ackQueue := s.ackQueue ++ [txSeq] }
        if pkt.has sequenceField then
          match pkt.get sequenceField 0 with
          | .error e => (.error e, s)
          | .ok pktSequence =>
            let isDuplicate := (s.recentRecvSeqs.seen pktSequence).isSome
            (.ok (!isDuplicate),
              { s with
                recentRecvSeqs := arrive rto s.recentRecvSeqs (now, pktSequence) })
        else (.ok true, s)
    else (.ok true, s)

abbrev Arrival := ℤ × Packet

def receive (rto : ℤ) (s : Receiver) (a : Arrival) : Receiver :=
  (processIncomingPacket rto a.1 s a.2).2

/-- The Sequence number of a packet with a Fragment and a TxSequence. -/
def number (pkt : Packet) : Option UInt64 :=
  if (pkt.list ackField).toOption.isSome ∧ pkt.has fragmentField = true ∧
      (pkt.get txSequenceField 0).toOption.isSome ∧ pkt.has txSequenceField = true ∧
      pkt.has sequenceField = true then
    (pkt.get sequenceField 0).toOption
  else none

def numbered (a : Arrival) : Option (ℤ × UInt64) :=
  (number a.2).map fun seq => (a.1, seq)

variable {rto now : ℤ} {s : Receiver} {pkt : Packet} {seq : UInt64}

theorem processIncomingPacket_of_number (h : number pkt = some seq) :
    (processIncomingPacket rto now s pkt).1 = .ok !(s.recentRecvSeqs.seen seq).isSome ∧
      (processIncomingPacket rto now s pkt).2.recentRecvSeqs =
        arrive rto s.recentRecvSeqs (now, seq) := by
  rw [number] at h
  split_ifs at h with hfields
  obtain ⟨hacks, hfragment, htx, hhasTx, hhas⟩ := hfields
  unfold processIncomingPacket
  cases hlist : pkt.list ackField with
  | error e =>
    rw [hlist] at hacks
    cases hacks
  | ok acks =>
    cases hget : pkt.get txSequenceField 0 with
    | error e =>
      rw [hget] at htx
      cases htx
    | ok txSeq =>
      cases hseq : pkt.get sequenceField 0 with
      | error e =>
        rw [hseq] at h
        cases h
      | ok seq' =>
        rw [hseq] at h
        cases h
        simp [hfragment, hhasTx, hhas]

theorem processIncomingPacket_of_none (h : number pkt = none) :
    (processIncomingPacket rto now s pkt).1 ≠ .ok false ∧
      (processIncomingPacket rto now s pkt).2.recentRecvSeqs = s.recentRecvSeqs := by
  unfold processIncomingPacket
  split
  next => simp
  next acks hlist =>
    split_ifs with hfields hhas
    · split
      next => simp
      next txSeq htx =>
        split
        next => simp
        next seq hseq =>
          -- all fields are there
          rw [Bool.and_eq_true] at hfields
          rw [number, if_pos ⟨by rw [hlist]; rfl, hfields.1, by rw [htx]; rfl, hfields.2, hhas⟩,
            hseq] at h
          cases h
    · split <;> simp
    · simp

theorem recentRecvSeqs_receive (a : Arrival) :
    (receive rto s a).recentRecvSeqs =
      run (arrive rto) s.recentRecvSeqs (numbered a).toList := by
  cases h : number a.2 with
  | none =>
    rw [numbered, h]
    exact (processIncomingPacket_of_none h).2
  | some seq =>
    rw [numbered, h]
    exact (processIncomingPacket_of_number h).2

theorem recent_run (as : List Arrival) :
    (run (receive rto) s as).recentRecvSeqs =
      run (arrive rto) s.recentRecvSeqs (as.filterMap numbered) := by
  induction as generalizing s with
  | nil => rfl
  | cons a as ih =>
    rw [run_cons, ih, recentRecvSeqs_receive, ← run_append]
    cases h : numbered a <;> simp [h]

/-- Every packet comes when the clock shows more than the RTO. -/
def ClockPast (rto : ℤ) (as : List Arrival) : Prop :=
  ∀ a ∈ as, rto < a.1

theorem ClockPast.filterMap {as : List Arrival} (h : ClockPast rto as) :
    ∀ x ∈ as.filterMap numbered, rto < x.1 := by
  intro x hx
  obtain ⟨a, ha, hnumbered⟩ := mem_filterMap.mp hx
  obtain ⟨seq, -, rfl⟩ := map_eq_some_iff.mp hnumbered
  exact h a ha

theorem tracked_run {as : List Arrival} (h : ClockPast rto as) :
    Tracked ((as.filterMap numbered).map Prod.snd)
      (run (receive rto) Receiver.initial as).recentRecvSeqs := by
  rw [recent_run]
  exact tracked_empty.run h.filterMap

theorem run_range (as : ℕ → Arrival) {seqs : ℕ → UInt64} (h : ∀ n, number (as n).2 = some (seqs n))
    (n : ℕ) :
    (run (receive rto) s ((List.range n).map as)).recentRecvSeqs =
      after rto s.recentRecvSeqs (fun i => ((as i).1, seqs i)) n := by
  induction n with
  | zero => rfl
  | succ n ih =>
    have hlast : numbered (as n) = some ((as n).1, seqs n) := by rw [numbered, h, map_some]
    rw [range_succ, map_append, run_append, map_singleton, run_cons,
      run_nil, recentRecvSeqs_receive, hlast, ih]
    rfl

/-- While the clock shows more than the RTO, a number is a duplicate for an RTO after it first came
and a new one is not, every remembered number is in the queue, and no number is remembered with the
same time forever while numbers keep coming. A packet without a number is never a duplicate. -/
theorem duplicates_suppressed (rto : ℕ) :
    (∀ (as between : List Arrival) (a b : Arrival) (seq : UInt64),
      ClockPast rto (as ++ a :: between) → number a.2 = some seq → number b.2 = some seq →
      (run (receive rto) Receiver.initial as).recentRecvSeqs.seen seq = none →
      (∀ c ∈ between, c.1 ≤ a.1 + rto) →
      (processIncomingPacket rto b.1
        (run (receive rto) Receiver.initial (as ++ a :: between)) b.2).1 = .ok false) ∧
    (∀ (as : List Arrival) (b : Arrival), ClockPast rto as →
      (∀ seq, number b.2 = some seq → ∀ a ∈ as, number a.2 ≠ some seq) →
      (processIncomingPacket rto b.1 (run (receive rto) Receiver.initial as) b.2).1 ≠
        .ok false) ∧
    (∀ (as : List Arrival) (seq : UInt64), ClockPast rto as →
      (run (receive rto) Receiver.initial as).recentRecvSeqs.seen seq ≠ none →
      seq ∈ (run (receive rto) Receiver.initial as).recentRecvSeqs.queue) ∧
    (∀ (as : List Arrival) (later : ℕ → Arrival) (seq : UInt64) (t : ℤ), ClockPast rto as →
      (∀ n, rto < (later n).1 ∧ number (later n).2 ≠ none) →
      (∀ T, ∃ m, ∀ n, m ≤ n → T < (later n).1) →
      ∃ n, (run (receive rto) Receiver.initial
        (as ++ (List.range n).map later)).recentRecvSeqs.seen seq ≠ some t) := by
  refine ⟨?_, ?_, ?_, ?_⟩
  · intro as between a b seq hclock ha hb hnone hbetween
    obtain ⟨-, hlater⟩ := forall_mem_append.mp hclock
    obtain ⟨hnow, hlater⟩ := forall_mem_cons.mp hlater
    rw [(processIncomingPacket_of_number hb).1, run_append, run_cons, recent_run]
    have hfirst : (receive rto (run (receive rto) Receiver.initial as) a).recentRecvSeqs.seen
        seq = some a.1 := by
      rw [receive, (processIncomingPacket_of_number ha).2]
      exact seen_arrive_self hnow hnone
    have hwindow : ∀ x ∈ between.filterMap numbered, (rto : ℤ) < x.1 ∧ x.1 ≤ a.1 + rto := by
      intro x hx
      obtain ⟨c, hc, hnumbered⟩ := mem_filterMap.mp hx
      obtain ⟨_, -, rfl⟩ := map_eq_some_iff.mp hnumbered
      exact ⟨hlater c hc, hbetween c hc⟩
    rw [seen_run hfirst hwindow]
    rfl
  · intro as b hclock hnever
    cases hb : number b.2 with
    | none => exact (processIncomingPacket_of_none hb).1
    | some seq =>
      have htracked := tracked_run hclock
      have hunseen : (run (receive rto) Receiver.initial as).recentRecvSeqs.seen seq = none := by
        by_contra hseen
        obtain ⟨x, hx, rfl⟩ := mem_map.mp (htracked.came (htracked.queued seq hseen))
        obtain ⟨c, hc, hnumbered⟩ := mem_filterMap.mp hx
        obtain ⟨seq', hseq', rfl⟩ := map_eq_some_iff.mp hnumbered
        exact hnever seq' hb c hc hseq'
      rw [(processIncomingPacket_of_number hb).1, hunseen]
      simp
  · intro as seq hclock hseen
    exact (tracked_run hclock).queued seq hseen
  · intro as later seq t hclock hlater hforever
    by_cases hseen : (run (receive rto) Receiver.initial as).recentRecvSeqs.seen seq = none
    · refine ⟨0, ?_⟩
      rw [range_zero, map_nil, append_nil, hseen]
      exact some_ne_none t |>.symm
    · choose seqs hseqs using fun n => ne_none_iff_exists'.mp (hlater n).2
      obtain ⟨n, hn⟩ := exists_seen_ne (fun i => ((later i).1, seqs i))
        (Int.natCast_nonneg rto) (fun n => (hlater n).1) hforever ((tracked_run hclock).queued seq hseen) t
      refine ⟨n, ?_⟩
      rwa [run_append, run_range later hseqs]

def untracked : Packet :=
  (do
    let pkt ← Packet.empty.add sequenceField 7
    pkt.add fragmentField [1]).toOption.getD .empty

/-- The packet with a TxSequence as well. -/
def tracked : Packet :=
  (untracked.add txSequenceField 3).toOption.getD .empty

/-- With an RTO of 50, the number 7 that came at time 100 is a duplicate at time 150. -/
theorem duplicates_suppressed_tracked :
    (processIncomingPacket 50 150 (run (receive 50) Receiver.initial [(100, tracked)])
      tracked).1 = .ok false :=
  (duplicates_suppressed 50).1 [] [] (100, tracked) (150, tracked) 7
    (fun a ha => by
      obtain rfl := mem_singleton.mp ha
      decide)
    (by decide) (by decide) rfl (fun _ hc => absurd hc (not_mem_nil))

/-- At time 110 the number is still remembered, but it is not looked up for a packet without a
TxSequence. -/
theorem not_duplicate_untracked :
    untracked.has sequenceField = true ∧ untracked.get sequenceField 0 = .ok 7 ∧
      (run (receive 50) Receiver.initial [(100, tracked)]).recentRecvSeqs.seen 7 = some 100 ∧
      (processIncomingPacket 50 110 (run (receive 50) Receiver.initial [(100, tracked)])
        untracked).1 = .ok true := by
  decide

end LpReliability

end NdnFc
