import NdnFc.Fw.Pipelines
import NdnFc.Packet.DataCache
import NdnFc.Packet.MetaInfoCodec
import NdnFc.Table.ContentStore

/-!
# The freshness period on a 64-bit clock

The FreshnessPeriod is an unsigned 64-bit number of milliseconds and is kept in a signed one
(`ndn-cxx/meta-info.cpp`). The content store adds it to the clock
(`NFD-FC/daemon/table/cs-entry.cpp`), and the forwarder asserts that it is not negative
(`fw/forwarder.cpp`). An overflow has no result.
-/

namespace NdnFc

open Method Chrono

/-! ### The period on the wire -/

namespace MetaInfo

/-- The number in the FreshnessPeriod element, which may follow ContentType; zero without one. -/
def freshnessPeriodOnWire (elements : List Block) : ℕ :=
  match (takeElement Tlv.freshnessPeriod (takeElement Tlv.contentType elements).2).1 with
  | some element => BigEndian.toNat element.value
  | none => 0

theorem freshnessPeriod_of_wireDecode {wire : Block} {s m : MetaInfo} {elements : List Block}
    (h : (wireDecode wire).run s = .ok () m) (hparse : Block.parse wire.value = .ok elements) :
    m.freshnessPeriod = Tlv.toMilliseconds (freshnessPeriodOnWire elements) ∧
      freshnessPeriodOnWire elements < 2 ^ 64 := by
  rw [wireDecode_eq, hparse] at h
  obtain ⟨r, hr, rfl⟩ := run_decodeFields_eq_ok_iff.mp h
  have hperiod := hr.freshnessPeriod
  unfold readFreshnessPeriod at hperiod
  unfold freshnessPeriodOnWire
  generalize (takeElement Tlv.freshnessPeriod (takeElement Tlv.contentType elements).2).1 =
    period at hperiod ⊢
  cases period with
  | none => exact ⟨(Except.ok.inj hperiod).symm, by decide⟩
  | some element =>
    obtain ⟨count, hcount, hperiod⟩ := Fallible.bind_eq_ok_iff.mp hperiod
    obtain ⟨hvalue, hlt⟩ := Tlv.toNat_of_readNonNegativeInteger hcount
    dsimp only
    rw [hvalue]
    exact ⟨(Except.ok.inj hperiod).symm, hlt⟩

end MetaInfo

namespace Data

/-- The freshness period that the elements of a packet ask for, in milliseconds. -/
def freshnessPeriodOnWire (elements : List Block) : ℕ :=
  match elements.find? fun element => element.type = Tlv.metaInfo with
  | some element =>
    match Block.parse element.value with
    | .ok metaInfo => MetaInfo.freshnessPeriodOnWire metaInfo
    | .error _ => 0
  | none => 0

theorem metaInfo_of_run_decodeElements {elements : List Block} {last : ℕ} {s t : Data}
    (h : (decodeElements last elements).run s = .ok () t) :
    match elements.find? fun element => element.type = Tlv.metaInfo with
    | some element => last < 2 ∧ (MetaInfo.wireDecode element).run s.metaInfo = .ok () t.metaInfo
    | none => t.metaInfo = s.metaInfo := by
  induction elements generalizing last s with
  | nil =>
    cases h
    rfl
  | cons element rest ih =>
    rw [decodeElements] at h
    split at h
    next htype =>
      obtain ⟨hlast, h⟩ := run_ite_throw_eq_ok_iff.mp h
      obtain ⟨_, _, hzoom, h⟩ := run_bind_eq_ok_iff.mp h
      obtain ⟨metaInfo, hmetaInfo, rfl⟩ := run_zoom_eq_ok_iff.mp hzoom
      rw [List.find?_cons_of_pos (by simpa using htype)]
      -- a second element would be out of order
      have hrest := ih h
      split at hrest
      · exact absurd hrest.1 (lt_irrefl 2)
      · rw [hrest]
        exact ⟨by omega, hmetaInfo⟩
    next htype =>
      rw [List.find?_cons_of_neg (by simpa using htype)]
      -- the other elements leave the MetaInfo, and it cannot come after them
      obtain ⟨last', s', h, hlast, hs⟩ : ∃ last' s', (decodeElements last' rest).run s' = .ok () t ∧
          last ≤ last' ∧ s'.metaInfo = s.metaInfo := by
        split at h
        · obtain ⟨hlast, h⟩ := run_ite_throw_eq_ok_iff.mp h
          rw [run_modify_bind] at h
          exact ⟨3, _, h, by omega, rfl⟩
        split at h
        · obtain ⟨hlast, h⟩ := run_ite_throw_eq_ok_iff.mp h
          obtain ⟨_, _, hzoom, h⟩ := run_bind_eq_ok_iff.mp h
          obtain ⟨info, -, rfl⟩ := run_zoom_eq_ok_iff.mp hzoom
          exact ⟨4, _, h, by omega, rfl⟩
        split at h
        · obtain ⟨hlast, h⟩ := run_ite_throw_eq_ok_iff.mp h
          rw [run_modify_bind] at h
          exact ⟨5, _, h, by omega, rfl⟩
        · obtain ⟨-, h⟩ := run_ite_throw_eq_ok_iff.mp h
          exact ⟨last, s, h, le_rfl, rfl⟩
      have hrest := ih h
      rw [hs] at hrest
      split at hrest
      · exact ⟨hlast.trans_lt hrest.1, hrest.2⟩
      · exact hrest

theorem freshnessPeriod_of_wireDecode {wire : PacketBlock} {d d' : Data} {elements : List Block}
    (h : (wireDecode wire).run d = .ok () d') (hparse : wire.parse = .ok elements) :
    d'.metaInfo.freshnessPeriod = Tlv.toMilliseconds (freshnessPeriodOnWire elements) ∧
      freshnessPeriodOnWire elements < 2 ^ 64 := by
  obtain ⟨-, _, name, function, rest, hparse', ⟨n, f, rfl, hn, hf, -, -⟩, hrest⟩ :=
    run_wireDecode_eq_ok_iff.mp h
  rw [hparse] at hparse'
  cases hparse'
  have hskip : (n :: f :: rest).find? (fun element => element.type = Tlv.metaInfo) =
      rest.find? fun element => element.type = Tlv.metaInfo := by
    rw [List.find?_cons_of_neg (by rw [hn]; decide), List.find?_cons_of_neg (by rw [hf]; decide)]
  obtain ⟨_, t, hloop, hend⟩ := run_bind_eq_ok_iff.mp hrest
  rw [run_get_bind] at hend
  obtain ⟨-, hend⟩ := run_ite_throw_eq_ok_iff.mp hend
  obtain ⟨-, hend⟩ := run_ite_throw_eq_ok_iff.mp hend
  cases hend
  have hloop := metaInfo_of_run_decodeElements hloop
  rw [freshnessPeriodOnWire, hskip]
  split at hloop
  next element =>
    obtain ⟨metaInfo, hsub, -⟩ := run_ofExcept_bind_eq_ok_iff.mp hloop.2
    rw [hsub]
    exact MetaInfo.freshnessPeriod_of_wireDecode hloop.2 hsub
  next =>
    rw [hloop]
    exact ⟨rfl, by decide⟩

end Data

/-! ### Entries of the content store -/

namespace ContentStore

/-- An entry, with the time of the code. -/
structure ClockedEntry where
  data : DataPacket
  isUnsolicited : Bool
  freshUntil : TimePoint
deriving DecidableEq

namespace ClockedEntry

/-- The time that `updateFreshUntil` computes. -/
def freshUntilAt (now : Reading) (data : DataPacket) : Option TimePoint :=
  now.toTimePoint.add data.freshnessPeriod

/-- The constructor `Entry(data, isUnsolicited)`. -/
def create (data : DataPacket) (isUnsolicited : Bool) (now : Reading) : Option ClockedEntry :=
  (freshUntilAt now data).map fun freshUntil => ⟨data, isUnsolicited, freshUntil⟩

def updateFreshUntil (entry : ClockedEntry) (now : Reading) : Option ClockedEntry :=
  (freshUntilAt now entry.data).map fun freshUntil => { entry with freshUntil }

def isFresh (entry : ClockedEntry) (now : Reading) : Bool :=
  decide (now.count ≤ entry.freshUntil.count)

end ClockedEntry

/-- The entry is there and is fresh from `now` for a number of milliseconds, and not longer. -/
def FreshFor (entry : Option ClockedEntry) (now : Reading) (period : ℕ) : Prop :=
  ∃ e, entry = some e ∧ ∀ t : Reading,
    (now.count ≤ t.count → t.count < now.count + nanoseconds period → e.isFresh t) ∧
      (now.count + nanoseconds period < t.count → ¬ e.isFresh t)

open ClockedEntry

theorem freshFor_of_freshUntilAt {now : Reading} {data : DataPacket} {period : ℕ}
    {freshUntil : TimePoint} (h : freshUntilAt now data = some freshUntil)
    (hperiod : data.freshnessPeriod = period) {entry : Option ClockedEntry} {e : ClockedEntry}
    (hentry : entry = some e) (he : e.freshUntil = freshUntil) : FreshFor entry now period := by
  have hcount := (TimePoint.add_eq_some_iff.mp h).2
  rw [hperiod] at hcount
  refine ⟨e, hentry, fun t => ⟨fun _ hlt => ?_, fun hlt => ?_⟩⟩
  · rw [isFresh, he, hcount, decide_eq_true_iff]
    exact hlt.le
  · rw [isFresh, he, hcount, decide_eq_true_iff]
    exact not_le.mpr hlt

/-- For an accepted packet, the assertion of the forwarder holds for every entry that it satisfies,
and a new or refreshed entry of the content store is fresh for its period, exactly when the period
is less than `2 ^ 63` milliseconds and ends before the clock does. -/
theorem freshness_iff {block : Block} {d d' : Data} {elements : List Block}
    (haccepted : (Data.wireDecode (.encoded block)).run d = .ok () d')
    (hparse : Block.parse block.value = .ok elements) (now : Reading) :
    (∀ entry, Fw.assertsFreshnessPeriod (Fw.markSatisfied entry (d'.packet block))) ∧
        (0 < Data.freshnessPeriodOnWire elements →
          (∀ isUnsolicited, FreshFor (create (d'.packet block) isUnsolicited now) now
            (Data.freshnessPeriodOnWire elements)) ∧
          ∀ e : ClockedEntry, e.data = d'.packet block →
            FreshFor (e.updateFreshUntil now) now (Data.freshnessPeriodOnWire elements)) ↔
      Data.freshnessPeriodOnWire elements < 2 ^ 63 ∧
        now.count + nanoseconds (Data.freshnessPeriodOnWire elements) < 2 ^ 63 := by
  obtain ⟨hperiod, hlt⟩ := Data.freshnessPeriod_of_wireDecode haccepted hparse
  have hpacket : (d'.packet block).freshnessPeriod = d'.metaInfo.freshnessPeriod := rfl
  have hnow := now.nonneg
  have hrange := now.inRange.2
  constructor
  · rintro ⟨hassert, hfresh⟩
    have hsigned : Data.freshnessPeriodOnWire elements < 2 ^ 63 := by
      by_contra hge
      have hneg := Tlv.toMilliseconds_neg (not_lt.mp hge) hlt
      have hpos := hassert (.create 0 (.ofName [] []) [])
      simp only [Fw.assertsFreshnessPeriod, Fw.markSatisfied, hpacket, hperiod, Bool.not_true,
        Bool.false_or, decide_eq_true_eq] at hpos
      omega
    refine ⟨hsigned, ?_⟩
    rcases Nat.eq_zero_or_pos (Data.freshnessPeriodOnWire elements) with hzero | hpos
    · rw [hzero]
      simpa [nanoseconds] using hrange
    · obtain ⟨e, he, -⟩ := (hfresh hpos).1 false
      obtain ⟨freshUntil, hadd, -⟩ := Option.map_eq_some_iff.mp he
      have hcount := (TimePoint.add_eq_some_iff.mp hadd).2
      rw [hpacket, hperiod, Tlv.toMilliseconds_of_lt hsigned] at hcount
      rw [← hcount]
      exact freshUntil.inRange.2
  · rintro ⟨hsigned, hsum⟩
    rw [Tlv.toMilliseconds_of_lt hsigned] at hperiod
    refine ⟨fun entry => ?_, fun _ => ?_⟩
    · simp [Fw.assertsFreshnessPeriod, Fw.markSatisfied, hpacket, hperiod]
    · obtain ⟨freshUntil, hadd⟩ :
          ∃ u, now.toTimePoint.add (Data.freshnessPeriodOnWire elements) = some u :=
        ⟨⟨_, by unfold nanoseconds InRange at *; omega⟩,
          TimePoint.add_eq_some_iff.mpr ⟨by unfold nanoseconds InRange at *; omega, rfl⟩⟩
      have hat : freshUntilAt now (d'.packet block) = some freshUntil := by
        rw [freshUntilAt, hpacket, hperiod, hadd]
      refine ⟨fun isUnsolicited => ?_, fun e he => ?_⟩
      · exact freshFor_of_freshUntilAt hat hperiod (by rw [create, hat, Option.map_some]) rfl
      · exact freshFor_of_freshUntilAt hat hperiod
          (by rw [updateFreshUntil, he, hat, Option.map_some]) rfl

/-- A Data packet with a FreshnessPeriod of eight bytes, six of which are equal. -/
def samplePacket (first middle last : UInt8) : Block :=
  .make Tlv.data ([7, 3, 8, 1, 65, 7, 0] ++
    [20, 10, 25, 8, first, middle, middle, middle, middle, middle, middle, last] ++
    [22, 3, 27, 1, 0, 23, 1, 0]) Tlv.data_pos Tlv.data_lt (by simp)

def sampleNow : Reading :=
  ⟨⟨60 * 10 ^ 9, by decide⟩, by decide⟩

/-- With a period of `2 ^ 64 - 1` milliseconds the assertion fails and the packet is not fresh when
it is stored; with `2 ^ 62` the conversion to nanoseconds overflows. -/
theorem not_fresh_signBit : ∃ d d' : Data, ∃ e,
    (Data.wireDecode (.encoded (samplePacket 255 255 255))).run (.create []) = .ok () d ∧
    ¬ Fw.assertsFreshnessPeriod (Fw.markSatisfied (.create 0 (.ofName [] []) [])
      (d.packet (samplePacket 255 255 255))) ∧
    create (d.packet (samplePacket 255 255 255)) false sampleNow = some e ∧
    ¬ e.isFresh sampleNow ∧
    (Data.wireDecode (.encoded (samplePacket 64 0 0))).run (.create []) = .ok () d' ∧
    create (d'.packet (samplePacket 64 0 0)) false sampleNow = none := by
  refine ⟨_, _, _, rfl, ?_, rfl, ?_, rfl, ?_⟩
  · decide
  · decide
  · rfl

/-- A packet with a period of a tenth of a second is fresh for this time. -/
theorem freshness_tenth : ∃ d' elements,
    (Data.wireDecode (.encoded (samplePacket 0 0 100))).run (.create []) = .ok () d' ∧
    Block.parse (samplePacket 0 0 100).value = .ok elements ∧
    FreshFor (create (d'.packet (samplePacket 0 0 100)) false sampleNow) sampleNow
      100 := by
  obtain ⟨d', haccepted⟩ : ∃ d',
      (Data.wireDecode (.encoded (samplePacket 0 0 100))).run (.create []) = .ok () d' := ⟨_, rfl⟩
  obtain ⟨elements, hparse, hperiod⟩ : ∃ elements,
      Block.parse (samplePacket 0 0 100).value = .ok elements ∧
        Data.freshnessPeriodOnWire elements = 100 := ⟨_, rfl, rfl⟩
  have hright := (freshness_iff haccepted hparse sampleNow).mpr (by rw [hperiod]; decide)
  rw [hperiod] at hright
  exact ⟨d', elements, haccepted, hparse, (hright.2 (by decide)).1 false⟩

end ContentStore

end NdnFc
