import Mathlib.Data.Finset.Card
import NdnFc.Sfc.Consumer

/-!
# Content transfer

A file that a producer or a function application has published is fetched by a consumer; segments
after the first arrive in any order. An empty file is published as no segment at all. A name that is
not read back from its text sends the consumer after Data that nobody has published.
-/

namespace NdnFc

open Component List Fallible

variable {name : Name}

theorem Interest.findParametersDigestComponent_append_segment {segment : ℕ} :
    findParametersDigestComponent (name ++ [fromSegment segment]) = .several ↔
      findParametersDigestComponent name = .several := by
  have hsegment : (fromSegment segment).isParametersSha256Digest = false := rfl
  unfold findParametersDigestComponent
  rw [findIdx?_append]
  cases hname : name.findIdx? isParametersSha256Digest with
  | none => simp [findIdx?_cons, hsegment]
  | some index =>
    have hlt := (findIdx?_eq_some_iff_getElem.mp hname).1
    simp [drop_append_of_le_length (show index + 1 ≤ name.length by omega), hsegment]

namespace Sfc

theorem IsStore.read {parts : List Bytes} {store : List Data} (h : IsStore name parts store)
    (hlength : store.length < 2 ^ 64) {segment : ℕ} {data : Data}
    (hdata : store[segment]? = some data) :
    data.name = name ++ [fromSegment segment] ∧
      segmentNumber data.name = .ok segment ∧
      finalBlockNumber data = .ok (store.length - 1) := by
  obtain ⟨_, -, hsegment⟩ := h.isSegment segment data hdata
  have hlt := (List.getElem?_eq_some_iff.mp hdata).1
  refine ⟨hsegment.name_eq, ?_, ?_⟩
  · rw [hsegment.name_eq]
    exact segmentNumber_append (by omega)
  · rw [finalBlockNumber, hsegment.final_eq]
    exact toSegment_fromSegment (by omega)

namespace Consumer

variable [Sha256]

/-- The Interest for a segment of the content. -/
def interestFor (c : Consumer) (segment : ℕ) : Interest.Object :=
  segmentInterest (c.contentName ++ [fromSegment segment]) c.funcName
    c.options.interestLifetime c.options.mustBeFresh

omit [Sha256] in
/-- The consumer can fetch the segments: it can make the Interests and read the names, and when there
is more than one segment the names are read as the content name. -/
structure CanFetch (c : Consumer) (parts : List Bytes) (store : List Data) : Prop where
  isStore : IsStore c.contentName parts store
  length_pos : 0 < store.length
  length_lt : store.length < 2 ^ 64
  digest : Interest.findParametersDigestComponent c.contentName ≠ .several
  lifetime : 0 ≤ c.options.interestLifetime.toInt
  named : ∃ contentPrefix filename text,
    (∀ data ∈ store, getPrefix c.env data.name = .ok contentPrefix ∧
      getFilename c.env data.name = .ok filename ∧ outputFilename c.env data.name = .ok text) ∧
    (1 < store.length → contentPrefix ++ filename = c.contentName)

/-- The segments that a consumer with the given segments asks for. -/
def pendingSegments (store : List Data) (received : Finset ℕ) : List ℕ :=
  if 0 ∈ received then (range' 1 (store.length - 1)).filter (· ∉ received) else [0]

/-- The state of a consumer that has received the given segments. -/
structure Collected (c : Consumer) (store : List Data) (file : Bytes) (received : Finset ℕ)
    (s : State) : Prop where
  subset : received ⊆ Finset.range store.length
  first : 0 ∉ received → received = ∅
  expressed : s.receiver.expressed = (pendingSegments store received).map c.interestFor
  contentBuffer : s.receiver.contentBuffer = []
  last : 0 ∈ received → s.receiver.incomingFinalBlockNumber = store.length - 1
  sorted : OrderedMap.Sorted s.receiver.receiveBuffer
  incomplete : received ≠ Finset.range store.length → s.files = [] ∧
    ∀ entry, entry ∈ s.receiver.receiveBuffer ↔
      entry.1 ∈ received ∧ store[entry.1]? = some entry.2
  complete : received = Finset.range store.length → s.files = [file]

section

variable {c : Consumer} {parts : List Bytes} {store : List Data} {file : Bytes}

omit [Sha256] in
theorem interestFor_name (c : Consumer) (segment : ℕ) :
    (c.interestFor segment).name = c.contentName ++ [fromSegment segment] := rfl

section

variable (hdigest : Interest.findParametersDigestComponent c.contentName ≠ .several)
  (hlifetime : 0 ≤ c.options.interestLifetime.toInt)

include hdigest hlifetime

theorem newInterest_segment (segment : ℕ) :
    newInterest (c.contentName ++ [fromSegment segment]) c.funcName
      c.options.interestLifetime c.options.mustBeFresh = .ok (c.interestFor segment) :=
  newInterest_eq_ok_iff.mpr
    ⟨fun hseveral => hdigest (Interest.findParametersDigestComponent_append_segment.mp hseveral),
      hlifetime, rfl⟩

theorem expressed_run (uninitialised : ℕ) :
    (c.run uninitialised).receiver.expressed = [c.interestFor 0] := by
  rw [run, newInterest_segment hdigest hlifetime]

end

variable {received : Finset ℕ} {segment uninitialised : ℕ} {data : Data} {s : State}
  {buffer : List (ℕ × Data)}

section

variable (h : CanFetch c parts store)

include h

theorem CanFetch.collected_run (file : Bytes) (uninitialised : ℕ) :
    c.Collected store file ∅ (c.run uninitialised) where
  subset := by simp
  first := by simp
  expressed := expressed_run h.digest h.lifetime uninitialised
  contentBuffer := rfl
  last := by simp
  sorted := OrderedMap.sorted_nil
  incomplete := by
    intro _
    exact ⟨rfl, by simp [run]⟩
  complete := by
    intro hempty
    have := h.length_pos
    rw [eq_comm, Finset.range_eq_empty_iff] at hempty
    omega

/-! ### The buffer -/

section

omit h

omit [Sha256] in
theorem length_receiveBuffer (hsub : received ⊆ Finset.range store.length)
    (hsorted : OrderedMap.Sorted buffer)
    (hmem : ∀ entry, entry ∈ buffer ↔ entry.1 ∈ received ∧ store[entry.1]? = some entry.2) :
    buffer.length = received.card := by
  have hnodup : (buffer.map Prod.fst).Nodup :=
    pairwise_map.mpr (hsorted.imp fun h => ne_of_lt h)
  have hkeys : (buffer.map Prod.fst).toFinset = received := by
    ext segment
    rw [mem_toFinset, mem_map]
    constructor
    · rintro ⟨entry, hentry, rfl⟩
      exact ((hmem entry).mp hentry).1
    · intro hsegment
      have hlt := Finset.mem_range.mp (hsub hsegment)
      exact ⟨(segment, store[segment]),
        (hmem _).mpr ⟨hsegment, getElem?_eq_getElem hlt⟩, rfl⟩
  rw [← hkeys, toFinset_card_of_nodup hnodup, length_map]

omit [Sha256] in
theorem flatMap_receiveBuffer (hstore : IsStore name parts store)
    (hsorted : OrderedMap.Sorted buffer)
    (hmem : ∀ entry, entry ∈ buffer ↔ store[entry.1]? = some entry.2) :
    (buffer.flatMap fun entry => entry.2.contentValue) = parts.flatten := by
  have hbuffer : buffer = store.zipIdx.map fun entry => (entry.2, entry.1) := by
    refine hsorted.eq_of_mem_iff ?_ fun entry => ?_
    · refine pairwise_map.mpr ?_
      have hindices : (store.zipIdx.map Prod.snd).Pairwise (· < ·) := by
        rw [zipIdx_map_snd]
        exact pairwise_lt_range'
      exact pairwise_map.mp hindices
    · rw [hmem, mem_map]
      constructor
      · intro h
        exact ⟨(entry.2, entry.1), mem_zipIdx_iff_getElem?.mpr h, rfl⟩
      · rintro ⟨pair, hpair, rfl⟩
        exact mem_zipIdx_iff_getElem?.mp hpair
  have hcontents : store.map Data.contentValue = parts := by
    refine ext_getElem? fun segment => ?_
    rw [getElem?_map]
    cases hdata : store[segment]? with
    | none =>
      rw [getElem?_eq_none_iff, hstore.length_eq] at hdata
      rw [getElem?_eq_none hdata]
      rfl
    | some data =>
      obtain ⟨part, hpart, hsegment⟩ := hstore.isSegment segment data hdata
      rw [hpart, Option.map_some, hsegment.content_eq]
  calc (buffer.flatMap fun entry => entry.2.contentValue)
      = (store.zipIdx.map (Data.contentValue ∘ Prod.fst)).flatten := by
        rw [hbuffer, flatMap_map]
        rfl
    _ = parts.flatten := by rw [← map_map, zipIdx_map_fst, hcontents]

/-! ### The arrival of a segment -/

omit [Sha256] in
theorem mem_pendingSegments_iff (hlength : 0 < store.length) :
    segment ∈ pendingSegments store received ↔
      segment < store.length ∧ segment ∉ received ∧ (0 ∈ received ∨ segment = 0) := by
  unfold pendingSegments
  split_ifs with hfirst
  · have hne : segment ∉ received → segment ≠ 0 := fun hnot heq => hnot (heq ▸ hfirst)
    rw [mem_filter, mem_range'_1, decide_eq_true_eq]
    constructor
    · rintro ⟨hrange, hnot⟩
      exact ⟨by omega, hnot, .inl hfirst⟩
    · rintro ⟨hlt, hnot, -⟩
      have := hne hnot
      exact ⟨by omega, hnot⟩
  · rw [mem_singleton]
    constructor
    · rintro rfl
      exact ⟨hlength, hfirst, .inr rfl⟩
    · rintro ⟨-, -, h⟩
      exact h.resolve_left hfirst

omit [Sha256] in
theorem nodup_pendingSegments (store : List Data) (received : Finset ℕ) :
    (pendingSegments store received).Nodup := by
  unfold pendingSegments
  split_ifs
  · have hrange : (range' 1 (store.length - 1)).Nodup := nodup_range'
    exact hrange.filter _
  · exact nodup_singleton 0

omit [Sha256] in
theorem pendingSegments_insert (hfirst : 0 ∈ received) :
    pendingSegments store (insert segment received) =
      (pendingSegments store received).filter (· ≠ segment) := by
  rw [pendingSegments, pendingSegments, if_pos (Finset.mem_insert_of_mem hfirst), if_pos hfirst,
    filter_filter]
  refine filter_congr fun k _ => ?_
  simp [not_or]

omit [Sha256] in
theorem filter_interestFor (hlength : store.length < 2 ^ 64) (segments : List ℕ)
    (hlt : ∀ k ∈ segments, k < store.length)
    (hname : data.name = c.contentName ++ [fromSegment segment])
    (hnumber : segmentNumber data.name = .ok segment) :
    ((segments.map c.interestFor).filter fun interest => interest.name = data.name) =
        (segments.filter (· = segment)).map c.interestFor ∧
      ((segments.map c.interestFor).filter fun interest => interest.name ≠ data.name) =
        (segments.filter (· ≠ segment)).map c.interestFor := by
  have hiff : ∀ k ∈ segments, ((c.interestFor k).name = data.name ↔ k = segment) := by
    intro k hk
    refine ⟨fun heq => ?_, fun heq => by rw [interestFor_name, hname, heq]⟩
    rw [← heq, interestFor_name, segmentNumber_append ((hlt k hk).trans hlength)] at hnumber
    exact Except.ok.inj hnumber
  rw [filter_map, filter_map]
  constructor
  all_goals
    refine congrArg _ (filter_congr fun k hk => ?_)
    simp [hiff k hk]

end

theorem CanFetch.exists_receive (hs : c.Collected store file received s)
    (hdata : store[segment]? = some data) (hasked : segment ∈ pendingSegments store received) :
    ∃ r₁ : Receiver,
      r₁.receiveBuffer = OrderedMap.assign segment data s.receiver.receiveBuffer ∧
      r₁.contentBuffer = [] ∧ r₁.incomingFinalBlockNumber = store.length - 1 ∧
      r₁.expressed = (pendingSegments store (insert segment received)).map c.interestFor ∧
      ∀ out r', (Receiver.complete c.env data).run r₁ = .ok out r' →
        (Receiver.receive c.env c.options.isQuiet c.funcName c.options.interestLifetime
          c.options.mustBeFresh data).run { s.receiver with
            expressed := ((pendingSegments store received).filter (· ≠ segment)).map
              c.interestFor } = .ok out r' := by
  obtain ⟨-, hnew, hearlier⟩ := (mem_pendingSegments_iff h.length_pos).mp hasked
  obtain ⟨-, hnumber, hlast⟩ := h.isStore.read h.length_lt hdata
  obtain ⟨contentPrefix, filename, text, hnames, hcontentName⟩ := h.named
  obtain ⟨hfront, hfilename, -⟩ := hnames data (mem_of_getElem? hdata)
  by_cases hzero : segment = 0
  · subst hzero
    have hrest : pendingSegments store (insert 0 received) =
        range' 1 (store.length - 1) := by
      rw [pendingSegments, if_pos (Finset.mem_insert_self 0 received), hs.first hnew,
        filter_eq_self]
      intro k hk
      have := mem_range'_1.mp hk
      simp
      omega
    have hnothing : (pendingSegments store received).filter (· ≠ 0) = [] := by
      rw [pendingSegments, if_neg hnew]
      rfl
    have hinterests : ((range' 1 (store.length - 1)).mapM fun k => newInterest
        (contentPrefix ++ filename ++ [fromSegment k]) c.funcName
        c.options.interestLifetime c.options.mustBeFresh) =
        .ok ((range' 1 (store.length - 1)).map c.interestFor) := by
      refine mapM_eq_ok_iff.mpr (forall₂_map_right_iff.mpr
        (forall₂_same.mpr fun k hk => ?_))
      have := mem_range'_1.mp hk
      rw [hcontentName (by omega)]
      exact newInterest_segment h.digest h.lifetime k
    rw [hrest, hnothing]
    refine ⟨{ s.receiver with
      contentPrefix, filename, incomingFinalBlockNumber := store.length - 1
      receiveBuffer := OrderedMap.assign 0 data s.receiver.receiveBuffer
      expressed := (range' 1 (store.length - 1)).map c.interestFor },
      rfl, hs.contentBuffer, rfl, rfl, fun out r' hcomplete => ?_⟩
    exact (Receiver.run_receive_first_eq_ok_iff hnumber hlast).mpr
      ⟨contentPrefix, filename, _, hfront, hfilename, hinterests, hcomplete⟩
  · have hfirst : 0 ∈ received := hearlier.resolve_right hzero
    rw [pendingSegments_insert hfirst]
    refine ⟨{ s.receiver with
      receiveBuffer := OrderedMap.assign segment data s.receiver.receiveBuffer
      expressed := ((pendingSegments store received).filter (· ≠ segment)).map c.interestFor },
      rfl, hs.contentBuffer, hs.last hfirst, rfl, fun out r' hcomplete => ?_⟩
    exact (Receiver.run_receive_other_eq_ok_iff hnumber hzero hlast).mpr
      ⟨fun _ => ⟨contentPrefix, hfront⟩, hcomplete⟩

variable (hfile : parts.flatten = file)

include hfile

theorem CanFetch.collected_onData (hs : c.Collected store file received s)
    (hdata : store[segment]? = some data) (hasked : segment ∈ pendingSegments store received) :
    c.Collected store file (insert segment received)
      (c.onData data { s with receiver := { s.receiver with
        expressed := ((pendingSegments store received).filter (· ≠ segment)).map c.interestFor } }
        (c.interestFor segment)) := by
  obtain ⟨hsegment_lt, hnew, hearlier⟩ := (mem_pendingSegments_iff h.length_pos).mp hasked
  obtain ⟨_, _, text, hnames, _⟩ := h.named
  obtain ⟨-, -, htext⟩ := hnames data (mem_of_getElem? hdata)
  obtain ⟨r₁, hbuffer, hcontent, hfinal, hexpressed, hreceive⟩ := h.exists_receive hs hdata hasked
  -- the segment has not been received before, so the content was not complete
  have hbefore : received ≠ Finset.range store.length := by
    rintro rfl
    exact hnew (Finset.mem_range.mpr hsegment_lt)
  obtain ⟨hfiles, hmem⟩ := hs.incomplete hbefore
  have hsub : insert segment received ⊆ Finset.range store.length :=
    Finset.insert_subset (Finset.mem_range.mpr hsegment_lt) hs.subset
  have hsorted : OrderedMap.Sorted r₁.receiveBuffer := by
    rw [hbuffer]
    exact hs.sorted.assign segment data
  have hmem₁ : ∀ entry, entry ∈ r₁.receiveBuffer ↔
      entry.1 ∈ insert segment received ∧ store[entry.1]? = some entry.2 := by
    rintro ⟨k, d⟩
    rw [hbuffer, OrderedMap.mem_assign_iff hs.sorted, hmem, Finset.mem_insert]
    grind
  have hfirst : 0 ∉ insert segment received → insert segment received = ∅ := by
    intro hnone
    rw [Finset.mem_insert, not_or] at hnone
    exact absurd (hearlier.resolve_left hnone.2).symm hnone.1
  have hlength := length_receiveBuffer hsub hsorted hmem₁
  have htest : r₁.receiveBuffer.length = (r₁.incomingFinalBlockNumber + 1) % 2 ^ 64 ↔
      insert segment received = Finset.range store.length := by
    rw [hlength, hfinal, Nat.sub_add_cancel h.length_pos, Nat.mod_eq_of_lt h.length_lt]
    constructor
    · intro hcard
      exact Finset.eq_of_subset_of_card_le hsub (by rw [Finset.card_range, hcard])
    · intro hall
      rw [hall, Finset.card_range]
  have hrun := Receiver.run_complete (r := r₁) htext
  have hfunction : (c.interestFor segment).function = c.funcName := rfl
  by_cases hall : insert segment received = Finset.range store.length
  · rw [if_pos (htest.mpr hall)] at hrun
    rw [onData, hfunction, hreceive _ _ hrun]
    refine ⟨hsub, hfirst, hexpressed, rfl, fun _ => hfinal, OrderedMap.sorted_nil,
      fun hne => absurd hall hne, fun _ => ?_⟩
    have hmemall : ∀ entry, entry ∈ r₁.receiveBuffer ↔ store[entry.1]? = some entry.2 := by
      intro entry
      rw [hmem₁, hall, Finset.mem_range, and_iff_right_iff_imp]
      intro hentry
      exact (List.getElem?_eq_some_iff.mp hentry).1
    dsimp only
    rw [hfiles, hcontent, flatMap_receiveBuffer h.isStore hsorted hmemall, hfile]
    rfl
  · rw [if_neg (mt htest.mp hall)] at hrun
    rw [onData, hfunction, hreceive _ _ hrun]
    exact ⟨hsub, hfirst, hexpressed, hcontent, fun _ => hfinal, hsorted,
      fun _ => ⟨hfiles, hmem₁⟩, fun h => absurd h hall⟩

theorem CanFetch.collected_answer (hs : c.Collected store file received s)
    (hdata : store[segment]? = some data) :
    ∃ received', c.Collected store file received' (c.answer s data) ∧ received ⊆ received' ∧
      (segment = 0 ∨ 0 ∈ received → segment ∈ received') := by
  obtain ⟨hname, hnumber, -⟩ := h.isStore.read h.length_lt hdata
  obtain ⟨hasking, hothers⟩ := filter_interestFor h.length_lt (pendingSegments store received)
    (fun k hk => ((mem_pendingSegments_iff h.length_pos).mp hk).1) hname hnumber
  rw [answer, hs.expressed, hasking, hothers]
  by_cases hasked : segment ∈ pendingSegments store received
  · have hone : (pendingSegments store received).filter (· = segment) = [segment] := by
      have hcount := count_eq_one_of_mem (nodup_pendingSegments store received) hasked
      have hfilter := filter_beq (l := pendingSegments store received) segment
      rw [hcount] at hfilter
      exact hfilter
    rw [hone]
    exact ⟨_, h.collected_onData hfile hs hdata hasked, Finset.subset_insert segment received,
      fun _ => Finset.mem_insert_self segment received⟩
  · have hnone : (pendingSegments store received).filter (· = segment) = [] := by
      rw [filter_eq_nil_iff]
      intro k hk hsame
      rw [of_decide_eq_true hsame] at hk
      exact hasked hk
    have hsame : (pendingSegments store received).filter (· ≠ segment) =
        pendingSegments store received := by
      rw [filter_eq_self]
      intro k hk
      rw [decide_eq_true_eq]
      rintro rfl
      exact hasked hk
    rw [hnone, hsame, ← hs.expressed]
    refine ⟨received, hs, subset_rfl, fun hwanted => ?_⟩
    by_contra hmissing
    exact hasked ((mem_pendingSegments_iff h.length_pos).mpr
      ⟨(List.getElem?_eq_some_iff.mp hdata).1, hmissing, hwanted.symm⟩)

theorem CanFetch.collected_run_answer {arrivals : List Data} (harrivals : arrivals ⊆ store)
    (hs : c.Collected store file received s) :
    ∃ received', c.Collected store file received' (Run.run c.answer s arrivals) ∧
      received ⊆ received' ∧
      (0 ∈ received → ∀ segment data, data ∈ arrivals → store[segment]? = some data →
        segment ∈ received') := by
  induction arrivals generalizing received s with
  | nil => exact ⟨received, hs, subset_rfl, by simp⟩
  | cons data arrivals ih =>
    obtain ⟨hmem, hrest⟩ := cons_subset.mp harrivals
    obtain ⟨segment, hdata⟩ := getElem?_of_mem hmem
    obtain ⟨received₁, hs₁, hsub₁, hsegment⟩ := h.collected_answer hfile hs hdata
    obtain ⟨received₂, hs₂, hsub₂, hall⟩ := ih hrest hs₁
    refine ⟨received₂, hs₂, hsub₁.trans hsub₂, fun hfirst k d hd hk => ?_⟩
    rcases mem_cons.mp hd with rfl | hd
    · have hread := (h.isStore.read h.length_lt hk).2.1
      rw [Except.ok.inj (hread.symm.trans (h.isStore.read h.length_lt hdata).2.1)]
      exact hsub₂ (hsegment (.inr hfirst))
    · exact hall (hsub₁ hfirst) k d hd hk

omit hfile in
omit [Sha256] in
theorem CanFetch.received_of_settled (hs : c.Collected store file received s)
    (hsettled : Settled store s) :
    received = Finset.range store.length := by
  have hpending : ∀ segment, segment ∉ pendingSegments store received := by
    intro segment hsegment
    have hlt := ((mem_pendingSegments_iff h.length_pos).mp hsegment).1
    have hname := (h.isStore.read h.length_lt (getElem?_eq_getElem hlt)).1
    refine hsettled (c.interestFor segment) ?_ _ (getElem_mem hlt) hname.symm
    rw [hs.expressed]
    exact mem_map_of_mem hsegment
  have hfirst : 0 ∈ received := by
    by_contra hnone
    exact hpending 0 ((mem_pendingSegments_iff h.length_pos).mpr ⟨h.length_pos, hnone, .inr rfl⟩)
  refine hs.subset.antisymm fun segment hsegment => ?_
  by_contra hmissing
  exact hpending segment ((mem_pendingSegments_iff h.length_pos).mpr
    ⟨Finset.mem_range.mp hsegment, hmissing, .inl hfirst⟩)

theorem CanFetch.exists_collected (uninitialised : ℕ) {arrivals : List Data}
    (harrivals : arrivals ⊆ store) :
    ∃ received, c.Collected store file received (c.fetch uninitialised arrivals) := by
  obtain ⟨received, hs, -⟩ := h.collected_run_answer hfile harrivals
    (h.collected_run file uninitialised)
  exact ⟨received, hs⟩

theorem CanFetch.transfers (uninitialised : ℕ) : c.Transfers uninitialised store file where
  once := by
    intro arrivals harrivals
    obtain ⟨received, hs⟩ := h.exists_collected hfile uninitialised harrivals
    by_cases hall : received = Finset.range store.length
    · rw [hs.complete hall]
    · rw [(hs.incomplete hall).1]
      exact nil_prefix
  settled := by
    intro arrivals harrivals hsettled
    obtain ⟨received, hs⟩ := h.exists_collected hfile uninitialised harrivals
    exact hs.complete (h.received_of_settled hs hsettled)
  settles := by
    intro arrivals harrivals
    obtain ⟨received, hs⟩ := h.exists_collected hfile uninitialised harrivals
    rw [fetch] at hs
    -- the first segment, and then all segments in order
    have hpos := h.length_pos
    have hfirst : store[0]? = some store[0] := getElem?_eq_getElem h.length_pos
    obtain ⟨received₁, hs₁, -, hmem₁⟩ := h.collected_answer hfile hs hfirst
    obtain ⟨received₂, hs₂, -, hmem₂⟩ :=
      h.collected_run_answer hfile (List.Subset.refl store) hs₁
    have hall : received₂ = Finset.range store.length := by
      refine hs₂.subset.antisymm fun segment hsegment => ?_
      have hlt := Finset.mem_range.mp hsegment
      exact hmem₂ (hmem₁ (.inl rfl)) segment _ (getElem_mem hlt)
        (getElem?_eq_getElem hlt)
    refine ⟨store[0] :: store, cons_subset.mpr
      ⟨getElem_mem h.length_pos, List.Subset.refl store⟩, ?_⟩
    rw [fetch, Run.run_append, Run.run_cons]
    intro interest hinterest data _
    rw [hs₂.expressed, hall] at hinterest
    obtain ⟨segment, hsegment, -⟩ := mem_map.mp hinterest
    obtain ⟨hlt, hmissing, -⟩ := (mem_pendingSegments_iff h.length_pos).mp hsegment
    exact absurd (Finset.mem_range.mpr hlt) hmissing

end

/-! ### What a transfer needs -/

variable (h : c.Transfers uninitialised store file)

include h

theorem Transfers.not_settled (arrivals : List Data) (harrivals : arrivals ⊆ store)
    (hfiles : (c.fetch uninitialised arrivals).files = []) :
    ¬ Settled store (c.fetch uninitialised arrivals) := by
  intro hsettled
  have hall := h.settled arrivals harrivals hsettled
  rw [hfiles] at hall
  cases hall

theorem Transfers.exists_newInterest :
    store ≠ [] ∧ Interest.findParametersDigestComponent c.contentName ≠ .several := by
  constructor
  · rintro rfl
    refine h.not_settled [] (by simp) rfl ?_
    intro interest _ data hdata
    cases hdata
  · intro hseveral
    refine h.not_settled [] (by simp) rfl ?_
    have hnone : (c.run uninitialised).receiver.expressed = [] := by
      rw [run]
      dsimp only
      split
      next interest hinterest =>
        have hok := (newInterest_eq_ok_iff.mp hinterest).1
        exact absurd (Interest.findParametersDigestComponent_append_segment.mpr hseveral) hok
      next => rfl
    intro interest hinterest
    rw [fetch, Run.run_nil, hnone] at hinterest
    cases hinterest

theorem Transfers.exists_names (hstore : IsStore c.contentName parts store)
    (hlength : store.length < 2 ^ 64) (hlifetime : 0 ≤ c.options.interestLifetime.toInt) :
    ∃ contentPrefix filename,
      getPrefix c.env (c.contentName ++ [fromSegment 0]) = .ok contentPrefix ∧
      getFilename c.env (c.contentName ++ [fromSegment 0]) = .ok filename ∧
      (1 < store.length → contentPrefix ++ filename = c.contentName) := by
  obtain ⟨hne, hdigest⟩ := h.exists_newInterest
  have hpos := length_pos_of_ne_nil hne
  obtain ⟨hsegment, hnumber, hlast⟩ := hstore.read hlength (getElem?_eq_getElem hpos)
  have hsub : [store[0]] ⊆ store := cons_subset.mpr ⟨getElem_mem hpos, by simp⟩
  have hfetch : c.fetch uninitialised [store[0]] =
      c.onData store[0] { c.run uninitialised with
        receiver := { (c.run uninitialised).receiver with expressed := [] } } (c.interestFor 0) := by
    have hname : (c.interestFor 0).name = store[0].name := hsegment.symm
    rw [fetch, Run.run_cons, Run.run_nil, answer, expressed_run hdigest hlifetime]
    simp [hname]
  have hstuck := h.not_settled _ hsub
  rw [hfetch, onData] at hstuck
  cases hrun : (Receiver.receive c.env c.options.isQuiet (c.interestFor 0).function
      c.options.interestLifetime c.options.mustBeFresh store[0]).run
      { (c.run uninitialised).receiver with expressed := [] } with
  | error e r' =>
    rw [hrun] at hstuck
    refine absurd ?_ (hstuck rfl)
    intro interest hinterest
    cases hinterest
  | ok out r' =>
    obtain ⟨contentPrefix, filename, interests, hfront, hfilename, hinterests, hcomplete⟩ :=
      (Receiver.run_receive_first_eq_ok_iff hnumber hlast).mp hrun
    refine ⟨contentPrefix, filename, by rw [← hfront, hsegment],
      by rw [← hfilename, hsegment], fun hmore => ?_⟩
    -- with more than one segment the content is not complete yet
    obtain ⟨text, htext, -⟩ := bind_eq_ok_iff.mp hfilename
    rw [Receiver.run_complete htext, if_neg] at hcomplete
    · cases hcomplete
      rw [hrun] at hstuck
      by_contra hother
      refine hstuck rfl ?_
      intro interest hinterest data hdata hname
      obtain ⟨k, -, hk⟩ := exists_of_mem_mapM hinterests hinterest
      obtain ⟨-, -, rfl⟩ := newInterest_eq_ok_iff.mp hk
      obtain ⟨j, hj⟩ := getElem?_of_mem hdata
      rw [(hstore.read hlength hj).1] at hname
      exact hother (append_inj_left' hname rfl)
    · have hone : (OrderedMap.assign 0 store[0] (c.run uninitialised).receiver.receiveBuffer).length =
          1 := rfl
      dsimp only
      rw [hone, Nat.sub_add_cancel hpos, Nat.mod_eq_of_lt hlength]
      omega

end

end Consumer

/-! ### Names that can be fetched -/

theorem exists_mapM_throughUri_iff {env : Option Bool} :
    (∃ read, name.mapM (throughUri env) = .ok read) ↔ ∀ c ∈ name, c.Accepted :=
  Name.exists_mapM_toUri_iff

theorem exists_names_iff {env : Option Bool} {more : Prop} :
    (∃ contentPrefix filename,
      getPrefix env (name ++ [fromSegment 0]) = .ok contentPrefix ∧
      getFilename env (name ++ [fromSegment 0]) = .ok filename ∧
      (more → contentPrefix ++ filename = name)) ↔
    name ≠ [] ∧ (∀ c ∈ name, c.Accepted) ∧
      (more → ∀ c ∈ name, c.UriStable env .envOrAlternate) := by
  rcases eq_nil_or_concat name with rfl | ⟨front, last, rfl⟩
  · refine iff_of_false ?_ fun h => h.1 rfl
    rintro ⟨_, _, -, hfilename, -⟩
    cases hfilename
  rw [concat_eq_append, getPrefix_eq, getFilename_append]
  constructor
  · rintro ⟨contentPrefix, filename, hfront, hfilename, hmore⟩
    refine ⟨by simp, ?_, fun h => ?_⟩
    · exact forall_mem_append.mpr ⟨exists_mapM_throughUri_iff.mp ⟨_, hfront⟩,
        exists_mapM_throughUri_iff.mp ⟨_, hfilename⟩⟩
    · have hlength := (mapM_eq_ok_iff.mp hfilename).length_eq
      obtain ⟨rfl, rfl⟩ := append_inj' (hmore h) hlength.symm
      exact forall_mem_append.mpr ⟨Name.mapM_throughUri_eq_self_iff.mp hfront,
        Name.mapM_throughUri_eq_self_iff.mp hfilename⟩
  · rintro ⟨-, haccepted, hstable⟩
    by_cases hmore : more
    · obtain ⟨hfront, hlast⟩ := forall_mem_append.mp (hstable hmore)
      exact ⟨front, [last], Name.mapM_throughUri_eq_self_iff.mpr hfront,
        Name.mapM_throughUri_eq_self_iff.mpr hlast, fun _ => rfl⟩
    · obtain ⟨hfront, hlast⟩ := forall_mem_append.mp haccepted
      obtain ⟨contentPrefix, hfront⟩ := exists_mapM_throughUri_iff.mpr hfront
      obtain ⟨filename, hfilename⟩ := exists_mapM_throughUri_iff.mpr hlast
      exact ⟨contentPrefix, filename, hfront, hfilename, fun h => absurd h hmore⟩

theorem IsStore.fetched_iff [Sha256] {c : Consumer} {parts : List Bytes} {store : List Data}
    (hstore : IsStore c.contentName parts store) (hlength : store.length < 2 ^ 64)
    (hlifetime : 0 ≤ c.options.interestLifetime.toInt) (uninitialised : ℕ) :
    c.Transfers uninitialised store parts.flatten ↔
      store ≠ [] ∧ Interest.findParametersDigestComponent c.contentName ≠ .several ∧
      c.contentName ≠ [] ∧ (∀ component ∈ c.contentName, component.Accepted) ∧
      (1 < store.length →
        ∀ component ∈ c.contentName, component.UriStable c.env .envOrAlternate) := by
  constructor
  · intro h
    obtain ⟨hne, hdigest⟩ := h.exists_newInterest
    exact ⟨hne, hdigest, exists_names_iff.mp (h.exists_names hstore hlength hlifetime)⟩
  · rintro ⟨hne, hdigest, hnames⟩
    obtain ⟨contentPrefix, filename, hfront, hfilename, hmore⟩ := exists_names_iff.mpr hnames
    obtain ⟨front, last, hname⟩ := eq_nil_or_concat c.contentName |>.resolve_left hnames.1
    rw [concat_eq_append] at hname
    suffices hcan : c.CanFetch parts store from hcan.transfers rfl uninitialised
    refine ⟨hstore, length_pos_of_ne_nil hne, hlength, hdigest, hlifetime, contentPrefix,
      filename, last.toUri c.env .envOrAlternate, ?_, hmore⟩
    intro data hdata
    obtain ⟨segment, hsegment⟩ := getElem?_of_mem hdata
    -- the names of the segments differ only in the number
    rw [hname, getPrefix_eq] at hfront
    rw [hname, getFilename_append] at hfilename
    rw [(hstore.read hlength hsegment).1, hname, getPrefix_eq, getFilename_append, outputFilename_append]
    exact ⟨hfront, hfilename, rfl⟩

/-! ### Publishers -/

/-- What publishes a file: a producer, or a function application that has applied its program to Data
with the given Function. -/
inductive Publisher where
  | producer (p : Producer)
  | func (f : Func) (executedFunction : Name)

namespace Publisher

/-- `Producer::populateStore` and `Func::populateStore` -/
def populateStore (publisher : Publisher) (name : Name) (file : Bytes) :
    Except String (List Data) :=
  match publisher with
  | .producer p => p.populateStore name file
  | .func f executedFunction => f.populateStore name file executedFunction

def payloadSize (publisher : Publisher) (name : Name) : Except String ℤ :=
  match publisher with
  | .producer p =>
    pure (freeSpaceForContent p.options.maxSegmentSize name.wireEncode.length)
  | .func f executedFunction => do
    let funcname ← f.funcname executedFunction
    pure (freeSpaceForContent f.options.maxSegmentSize
      (name.wireEncode.length + funcname.wireEncode.length))

/-- The freshness period is not negative, as both programs check when they start, and the signatures
fit into a block. -/
def IsConfigured : Publisher → Prop
  | .producer p => 0 ≤ p.options.freshnessPeriod ∧ SignatureFits p.signatureValue
  | .func f _ => 0 ≤ f.options.freshnessPeriod ∧ SignatureFits f.signatureValue

theorem exists_populateStore {publisher : Publisher} (hconf : publisher.IsConfigured) {size : ℤ}
    (hsize : publisher.payloadSize name = .ok size) (hpos : 0 < size) (file : Bytes) :
    ∃ store, publisher.populateStore name file = .ok store ∧
      IsStore name (readParts size.toNat file.length file) store := by
  have hparts : ∀ maxSegmentSize occupied, ∀ part ∈
      readParts (freeSpaceForContent maxSegmentSize occupied).toNat file.length file,
      part.length < 2 ^ 64 := by
    intro maxSegmentSize occupied part hpart
    have hlt := freeSpaceForContent_lt maxSegmentSize occupied
    have hle := length_le_of_mem_readParts hpart
    omega
  cases publisher with
  | producer p =>
    cases hsize
    exact ⟨_, Producer.populateStore_eq hconf.1 hconf.2 hpos file,
      isStore_signedSegments (hparts _ _)⟩
  | func f executedFunction =>
    obtain ⟨funcname, hfuncname, h⟩ := bind_eq_ok_iff.mp hsize
    cases h
    exact ⟨_, Func.populateStore_eq hfuncname hconf.1 hconf.2 hpos file,
      isStore_signedSegments (hparts _ _)⟩

/-- A producer that leaves room for one byte of content after a name of nine bytes. -/
def samplePublisher : Publisher :=
  .producer ⟨{ maxSegmentSize := 308 }, .empty, fun _ => []⟩

/-- A consumer of a content whose name has the last component `component`. -/
def sampleConsumer (component : Component) : Consumer where
  contentName := [.generic [97], component]
  funcName := []
  options := {}
  env := none

theorem isConfigured_samplePublisher : samplePublisher.IsConfigured :=
  ⟨by decide, fun _ => by simp⟩

end Publisher

end Sfc

end NdnFc
