import Mathlib.Data.List.MinMax
import NdnFc.Lib.Chrono
import NdnFc.Packet.InterestDecode
import NdnFc.Table.PitEntry

/-!
# The expiry of PIT records

A record of a PIT entry expires the lifetime of its Interest after it was renewed
(`NFD-FC/daemon/table/pit-face-record.cpp`). The lifetime, an unsigned 64-bit number of
milliseconds, is kept in a signed one, bounded by ten days and added to a signed 64-bit clock in
nanoseconds. An overflow has no result.
-/

namespace NdnFc

open KeyedList Option Chrono

/-! ### The lifetime on the wire -/

namespace Interest

/-- The lifetime that the elements of a packet ask for, in milliseconds: the number in the
InterestLifetime element, and the default without one. -/
def lifetimeOnWire (elements : List Block) : ℕ :=
  match elements.find? fun element => element.type = Tlv.interestLifetime with
  | some element => BigEndian.toNat element.value
  | none => defaultInterestLifetime.toNat

namespace Object

theorem Reads.interestLifetime_cases {element : Block} {last last' : ℕ} {s s' : Object}
    (h : Reads element last s last' s') :
    (element.type = Tlv.interestLifetime ∧ last < 6 ∧ last' = 6 ∧ ∃ count,
      element.readNonNegativeInteger = .ok count ∧
        s'.interestLifetime = Tlv.toMilliseconds count) ∨
    (element.type ≠ Tlv.interestLifetime ∧ (last' < 6 → last < 6) ∧
      s'.interestLifetime = s.interestLifetime) := by
  cases h with
  | interestLifetime htype hlast hcount => exact .inl ⟨htype, hlast, rfl, _, hcount, rfl⟩
  | outOfOrder htype =>
    refine .inr ⟨?_, id, rfl⟩
    rcases htype with ⟨htype, -⟩ | ⟨htype, -⟩ <;> rw [htype] <;> decide
  | other _ _ hcritical =>
    refine .inr ⟨fun htype => ?_, id, by split <;> rfl⟩
    rw [htype] at hcritical
    cases hcritical
  | canBePrefix htype hlast | mustBeFresh htype hlast | forwardingHint htype hlast
  | nonce htype hlast | hopLimit htype hlast | applicationParameters htype hlast =>
    exact .inr ⟨by rw [htype]; decide, fun _ => by omega, rfl⟩

theorem interestLifetime_of_run_decodeElements {elements : List Block} {last : ℕ} {s t : Object}
    (h : (decodeElements last elements).run s = .ok () t) :
    match elements.find? fun element => element.type = Tlv.interestLifetime with
    | some element => last < 6 ∧ BigEndian.toNat element.value < 2 ^ 64 ∧
        t.interestLifetime = Tlv.toMilliseconds (BigEndian.toNat element.value)
    | none => t.interestLifetime = s.interestLifetime := by
  induction elements generalizing last s with
  | nil =>
    cases h
    rfl
  | cons element rest ih =>
    obtain ⟨last', s', hreads, h⟩ := run_decodeElements_cons.mp h
    have hrest := ih h
    obtain ⟨htype, hlast, rfl, count, hcount, hlifetime⟩ | ⟨htype, hlast, hlifetime⟩ :=
      hreads.interestLifetime_cases
    · rw [List.find?_cons_of_pos (by simpa using htype)]
      obtain ⟨hvalue, hlt⟩ := Tlv.toNat_of_readNonNegativeInteger hcount
      -- a second element would be out of order
      split at hrest
      · exact absurd hrest.1 (lt_irrefl 6)
      · rw [hvalue]
        exact ⟨hlast, hlt, hrest.trans hlifetime⟩
    · rw [List.find?_cons_of_neg (by simpa using htype)]
      split at hrest
      · exact ⟨hlast hrest.1, hrest.2⟩
      · exact hrest.trans hlifetime

variable [Sha256] {autoCheck : Bool} {wire : PacketBlock} {i j : Object} {elements : List Block}

theorem interestLifetime_of_wireDecode (h : (wireDecode autoCheck wire).run i = .ok () j)
    (hparse : wire.parse = .ok elements) :
    j.interestLifetime = Tlv.toMilliseconds (lifetimeOnWire elements) ∧
      lifetimeOnWire elements < 2 ^ 64 := by
  obtain ⟨-, _, name, function, rest, hparse', ⟨⟨n, f, rfl, hn, hf, -, -⟩, -, -⟩, hloop, -⟩ :=
    run_wireDecode_eq_ok_iff.mp h
  rw [hparse] at hparse'
  cases hparse'
  have hskip : (n :: f :: rest).find? (fun element => element.type = Tlv.interestLifetime) =
      rest.find? fun element => element.type = Tlv.interestLifetime := by
    rw [List.find?_cons_of_neg (by rw [hn]; decide), List.find?_cons_of_neg (by rw [hf]; decide)]
  have hloop := interestLifetime_of_run_decodeElements hloop
  rw [lifetimeOnWire, hskip]
  split at hloop
  · exact ⟨hloop.2.2, hloop.2.1⟩
  · exact ⟨hloop, by decide⟩

end Object

end Interest

/-! ### Records -/

namespace Pit

structure FaceRecord where
  face : FaceId
  lastNonce : Option Nonce
  lastRenewed : TimePoint
  expiry : TimePoint
deriving DecidableEq

namespace FaceRecord

/-- `TimePoint::min()` -/
def timePointMin : TimePoint :=
  ⟨-2 ^ 63, by decide⟩

/-- The constructor `FaceRecord(face)`. -/
def create (face : FaceId) : FaceRecord :=
  ⟨face, some ⟨[0, 0, 0, 0], rfl⟩, timePointMin, timePointMin⟩

/-- The expiry that `update` computes at time `now`. -/
def expiryAt (now : Reading) (interest : Interest) : Option TimePoint :=
  now.toTimePoint.add (min interest.interestLifetime maxLifetime)

/-- `update`, once the expiry has been computed. -/
def update (record : FaceRecord) (interest : Interest) (now : Reading) (expiry : TimePoint) :
    FaceRecord :=
  { record with lastNonce := interest.nonce, lastRenewed := now.toTimePoint, expiry }

/-- The record was renewed at `now` for the given lifetime, and has not expired then. -/
structure Renewed (record : FaceRecord) (now : Reading) (lifetime : ℕ) : Prop where
  lastRenewed : record.lastRenewed = now.toTimePoint
  not_expired : now.count ≤ record.expiry.count
  expiry : record.expiry.count = now.count + nanoseconds (min lifetime maxLifetime)

theorem exists_expiryAt_iff {now : Reading} {interest : Interest} {lifetime : ℕ}
    (hlifetime : interest.interestLifetime = Tlv.toMilliseconds lifetime)
    (hlt : lifetime < 2 ^ 64) :
    (∃ expiry, expiryAt now interest = some expiry ∧ now.count ≤ expiry.count ∧
      expiry.count = now.count + nanoseconds (min lifetime maxLifetime)) ↔
    lifetime < 2 ^ 63 ∧ now.count + nanoseconds (min lifetime maxLifetime) < 2 ^ 63 := by
  have hnow := now.nonneg
  simp only [expiryAt, TimePoint.add_eq_some_iff, hlifetime, nanoseconds, maxLifetime, InRange]
  constructor
  · rintro ⟨expiry, ⟨-, hcount⟩, hle, hexpiry⟩
    have hrange := expiry.inRange.2
    refine ⟨?_, hexpiry ▸ hrange⟩
    by_contra hge
    have hneg := Tlv.toMilliseconds_neg (not_lt.mp hge) hlt
    omega
  · rintro ⟨hsigned, hsum⟩
    rw [Tlv.toMilliseconds_of_lt hsigned]
    refine ⟨⟨now.count + min (lifetime : ℤ) (10 * 24 * 60 * 60 * 1000) * 10 ^ 6, ?_⟩, ⟨?_, rfl⟩, ?_,
      rfl⟩
    · exact ⟨by omega, hsum⟩
    · omega
    · dsimp only
      omega

end FaceRecord

/-- A downstream of an entry, with the last Interest received from it. -/
structure ClockedInRecord extends FaceRecord where
  interest : Option Interest
deriving DecidableEq

/-- An upstream of an entry, with a mark when it has answered with a Nack. -/
structure ClockedOutRecord extends FaceRecord where
  hasIncomingNack : Bool
deriving DecidableEq

def ClockedInRecord.update (record : ClockedInRecord) (interest : Interest) (now : Reading)
    (expiry : TimePoint) : ClockedInRecord :=
  ⟨record.toFaceRecord.update interest now expiry, some interest⟩

/-- An out-record is updated as a `FaceRecord`: a Nack stays on it. -/
def ClockedOutRecord.update (record : ClockedOutRecord) (interest : Interest) (now : Reading)
    (expiry : TimePoint) : ClockedOutRecord :=
  ⟨record.toFaceRecord.update interest now expiry, record.hasIncomingNack⟩

/-- The records of an entry, one for a face on either side. -/
structure ClockedEntry where
  inRecords : List ClockedInRecord
  outRecords : List ClockedOutRecord
  nodup_in : (inRecords.map fun r => r.face).Nodup
  nodup_out : (outRecords.map fun r => r.face).Nodup

namespace ClockedEntry

variable (e : ClockedEntry) (face : FaceId)

def getInRecord : Option ClockedInRecord :=
  get? (fun r => r.face) e.inRecords face

def getOutRecord : Option ClockedOutRecord :=
  get? (fun r => r.face) e.outRecords face

def insertOrUpdateInRecord (interest : Interest) (now : Reading) : Option ClockedEntry :=
  (FaceRecord.expiryAt now interest).map fun expiry =>
    { e with
      inRecords := insertOrUpdate (fun r => r.face) e.inRecords face ⟨.create face, none⟩
        fun r => r.update interest now expiry
      nodup_in := nodup_map_key_insertOrUpdate e.nodup_in (fun _ => rfl) rfl }

def insertOrUpdateOutRecord (interest : Interest) (now : Reading) : Option ClockedEntry :=
  (FaceRecord.expiryAt now interest).map fun expiry =>
    { e with
      outRecords := insertOrUpdate (fun r => r.face) e.outRecords face
        ⟨.create face, false⟩ fun r => r.update interest now expiry
      nodup_out := nodup_map_key_insertOrUpdate e.nodup_out (fun _ => rfl) rfl }

/-- The order of the counts that `std::max_element` compares. -/
local instance countPreorder : Preorder ℤ := Int.instLinearOrder.toPreorder

/-- The beginning of `onContentStoreMiss`: the in-record is renewed at `now`, and the timer is set
to the last expiry of the in-records, seen at `now'`. Returns the entry and the milliseconds left.
-/
def onContentStoreMiss (interest : Interest) (now now' : Reading) : Option (ClockedEntry × ℤ) := do
  let e ← e.insertOrUpdateInRecord face interest now
  let lastExpiring ← e.inRecords.argmax fun r => r.expiry.count
  let lastExpiryFromNow ← lastExpiring.expiry.sub now'.toTimePoint
  pure (e, max (toMilliseconds lastExpiryFromNow) 0)

variable {e e' : ClockedEntry} {face : FaceId} {interest : Interest} {now now' : Reading}

theorem insertOrUpdateInRecord_eq_some (h : e.insertOrUpdateInRecord face interest now = some e') :
    ∃ expiry, FaceRecord.expiryAt now interest = some expiry ∧ e'.getInRecord face =
      some (((e.getInRecord face).getD ⟨.create face, none⟩).update interest now expiry) := by
  obtain ⟨expiry, hexpiry, rfl⟩ := map_eq_some_iff.mp h
  refine ⟨expiry, hexpiry, ?_⟩
  dsimp only [getInRecord]
  rw [get?_insertOrUpdate_self (by intro r; rfl) (by rfl)]

theorem insertOrUpdateOutRecord_eq_some
    (h : e.insertOrUpdateOutRecord face interest now = some e') :
    ∃ expiry, FaceRecord.expiryAt now interest = some expiry ∧ e'.getOutRecord face =
      some (((e.getOutRecord face).getD ⟨.create face, false⟩).update interest now expiry) := by
  obtain ⟨expiry, hexpiry, rfl⟩ := map_eq_some_iff.mp h
  refine ⟨expiry, hexpiry, ?_⟩
  dsimp only [getOutRecord]
  rw [get?_insertOrUpdate_self (by intro r; rfl) (by rfl)]

theorem expiry_lt_of_onContentStoreMiss {timer : ℤ} {r : ClockedInRecord}
    (h : e.onContentStoreMiss face interest now now' = some (e', timer)) (hr : r ∈ e'.inRecords) :
    r.expiry.count < now'.count + nanoseconds (timer + 1) := by
  obtain ⟨e₁, -, h⟩ := bind_eq_some_iff.mp h
  obtain ⟨last, hlast, h⟩ := bind_eq_some_iff.mp h
  obtain ⟨rest, hrest, h⟩ := bind_eq_some_iff.mp h
  cases h
  have hle : r.expiry.count ≤ last.expiry.count :=
    List.le_of_mem_argmax (f := fun r : ClockedInRecord => r.expiry.count) hr hlast
  rw [TimePoint.sub] at hrest
  split_ifs at hrest
  cases hrest
  have hround := lt_nanoseconds_toMilliseconds_add_one (last.expiry.count - now'.count)
  unfold nanoseconds at hround ⊢
  omega

theorem exists_onContentStoreMiss {r : ClockedInRecord}
    (h : e.insertOrUpdateInRecord face interest now = some e')
    (hr : e'.getInRecord face = some r) (hexpiry : now.count ≤ r.expiry.count) :
    ∃ timer, e.onContentStoreMiss face interest now now' = some (e', timer) := by
  have hmem : r ∈ e'.inRecords := mem_of_get? hr
  obtain ⟨last, hlast⟩ : ∃ last, e'.inRecords.argmax (fun r => r.expiry.count) = some last := by
    refine ne_none_iff_exists'.mp fun hnone => ?_
    rw [List.argmax_eq_none.mp hnone] at hmem
    cases hmem
  have hle : r.expiry.count ≤ last.expiry.count :=
    List.le_of_mem_argmax (f := fun r : ClockedInRecord => r.expiry.count) hmem hlast
  -- the clock does not go below zero, so the difference is in the range
  have hsub : last.expiry.sub now'.toTimePoint = some (last.expiry.count - now'.count) := by
    have hnow := now.nonneg
    have hnow' := now'.nonneg
    have hrange := now'.inRange
    have hrange' := last.expiry.inRange
    unfold InRange at hrange hrange'
    rw [TimePoint.sub, if_pos ⟨by omega, by omega⟩]
  refine ⟨max (toMilliseconds (last.expiry.count - now'.count)) 0, ?_⟩
  simp only [onContentStoreMiss, h, hlast, hsub, bind_eq_bind, bind_some,
    pure_def]

/-- The in-record is renewed for the lifetime, is pending afterwards, and the timer of the entry leaves
it until the millisecond in which it expires. -/
def RenewsInRecord (e : ClockedEntry) (face : FaceId) (interest : Interest) (now now' : Reading)
    (lifetime : ℕ) : Prop :=
  ∃ e' timer, e.onContentStoreMiss face interest now now' = some (e', timer) ∧
    ∃ r, e'.getInRecord face = some r ∧ r.Renewed now lifetime ∧
      r.expiry.count < now'.count + nanoseconds (timer + 1)

/-- The out-record is renewed for the lifetime. -/
def RenewsOutRecord (e : ClockedEntry) (face : FaceId) (interest : Interest) (now : Reading)
    (lifetime : ℕ) : Prop :=
  ∃ e', e.insertOrUpdateOutRecord face interest now = some e' ∧
    ∃ r, e'.getOutRecord face = some r ∧ r.Renewed now lifetime

theorem renewsInRecord_iff {lifetime : ℕ} :
    e.RenewsInRecord face interest now now' lifetime ↔
      ∃ expiry, FaceRecord.expiryAt now interest = some expiry ∧ now.count ≤ expiry.count ∧
        expiry.count = now.count + nanoseconds (min lifetime maxLifetime) := by
  constructor
  · rintro ⟨e', timer, hmiss, r, hr, hrenewed, -⟩
    obtain ⟨e₁, hinsert, hmiss⟩ := bind_eq_some_iff.mp hmiss
    obtain ⟨last, -, hmiss⟩ := bind_eq_some_iff.mp hmiss
    obtain ⟨rest, -, hmiss⟩ := bind_eq_some_iff.mp hmiss
    cases hmiss
    obtain ⟨expiry, hexpiry, hget⟩ := insertOrUpdateInRecord_eq_some hinsert
    rw [hr] at hget
    cases hget
    exact ⟨expiry, hexpiry, hrenewed.not_expired, hrenewed.expiry⟩
  · rintro ⟨expiry, hexpiry, hle, hcount⟩
    obtain ⟨e', hinsert⟩ : ∃ e', e.insertOrUpdateInRecord face interest now = some e' :=
      ⟨_, by rw [insertOrUpdateInRecord, hexpiry, map_some]⟩
    obtain ⟨expiry', hexpiry', hget⟩ := insertOrUpdateInRecord_eq_some hinsert
    rw [hexpiry] at hexpiry'
    cases hexpiry'
    obtain ⟨timer, hmiss⟩ : ∃ timer, e.onContentStoreMiss face interest now now' = some (e', timer) :=
      exists_onContentStoreMiss hinsert hget hle
    exact ⟨e', timer, hmiss, _, hget, ⟨rfl, hle, hcount⟩,
      expiry_lt_of_onContentStoreMiss hmiss (mem_of_get? hget)⟩

theorem renewsOutRecord_iff {lifetime : ℕ} :
    e.RenewsOutRecord face interest now lifetime ↔
      ∃ expiry, FaceRecord.expiryAt now interest = some expiry ∧ now.count ≤ expiry.count ∧
        expiry.count = now.count + nanoseconds (min lifetime maxLifetime) := by
  constructor
  · rintro ⟨e', hinsert, r, hr, hrenewed⟩
    obtain ⟨expiry, hexpiry, hget⟩ := insertOrUpdateOutRecord_eq_some hinsert
    rw [hr] at hget
    cases hget
    exact ⟨expiry, hexpiry, hrenewed.not_expired, hrenewed.expiry⟩
  · rintro ⟨expiry, hexpiry, hle, hcount⟩
    obtain ⟨e', hinsert⟩ : ∃ e', e.insertOrUpdateOutRecord face interest now = some e' :=
      ⟨_, by rw [insertOrUpdateOutRecord, hexpiry, map_some]⟩
    obtain ⟨expiry', hexpiry', hget⟩ := insertOrUpdateOutRecord_eq_some hinsert
    rw [hexpiry] at hexpiry'
    cases hexpiry'
    exact ⟨e', hinsert, _, hget, rfl, hle, hcount⟩

/-- For an accepted packet, the records are renewed for the lifetime it asks for exactly when the
lifetime is less than `2 ^ 63` milliseconds and the clock is that lifetime, or ten days if it is
longer, before its end. -/
theorem renewed_iff [Sha256] {autoCheck : Bool} {wire : PacketBlock} {i j : Interest.Object}
    {elements : List Block}
    (haccepted : (Interest.Object.wireDecode autoCheck wire).run i = .ok () j)
    (hparse : wire.parse = .ok elements) (e : ClockedEntry) (face : FaceId) (now now' : Reading) :
    e.RenewsInRecord face j.toInterest now now' (Interest.lifetimeOnWire elements) ∧
        e.RenewsOutRecord face j.toInterest now (Interest.lifetimeOnWire elements) ↔
      Interest.lifetimeOnWire elements < 2 ^ 63 ∧
        now.count + nanoseconds (min (Interest.lifetimeOnWire elements) maxLifetime) < 2 ^ 63 := by
  obtain ⟨hlifetime, hlt⟩ := Interest.Object.interestLifetime_of_wireDecode haccepted hparse
  rw [renewsInRecord_iff, renewsOutRecord_iff, and_self_iff,
    FaceRecord.exists_expiryAt_iff hlifetime hlt]

/-- An Interest packet with an InterestLifetime of eight bytes: the first one, and seven times the
other. -/
def samplePacket (first other : UInt8) : PacketBlock :=
  .encoded (.make Tlv.interest
    [7, 3, 8, 1, 65, 7, 0, 12, 8, first, other, other, other, other, other, other, other]
    (by decide) (by decide) (by simp))

def sampleEntry : ClockedEntry :=
  ⟨[], [], by decide, by decide⟩

/-- A thousand seconds after the clock was started. -/
def sampleNow : Reading :=
  ⟨⟨10 ^ 12, by decide⟩, by decide⟩

/-- A lifetime of `2 ^ 64 - 1` milliseconds gives a record that expired before it was made; with `2
^ 63` the conversion to nanoseconds overflows. -/
theorem not_renewed_signBit : ∃ _ : Sha256, ∃ i j : Interest.Object, ∃ e' r,
    (Interest.Object.wireDecode true (samplePacket 255 255)).run .default = .ok () i ∧
    sampleEntry.insertOrUpdateInRecord 1 i.toInterest sampleNow = some e' ∧
    e'.getInRecord 1 = some r ∧ r.expiry.count < sampleNow.count ∧
    (Interest.Object.wireDecode true (samplePacket 128 0)).run .default = .ok () j ∧
    sampleEntry.insertOrUpdateInRecord 1 j.toInterest sampleNow = none ∧
    sampleEntry.insertOrUpdateOutRecord 1 j.toInterest sampleNow = none := by
  let _ := Sha256.constant
  refine ⟨Sha256.constant, _, _, _, _, rfl, rfl, rfl, ?_, rfl, ?_, ?_⟩
  · decide
  · rfl
  · rfl

/-- A lifetime of many years is renewed for ten days. -/
theorem renewed_tenDays : ∃ _ : Sha256, ∃ elements j,
    (Interest.Object.wireDecode true (samplePacket 0 1)).run .default = .ok () j ∧
    (samplePacket 0 1).parse = .ok elements ∧
    sampleEntry.RenewsInRecord 1 j.toInterest sampleNow sampleNow
      (Interest.lifetimeOnWire elements) ∧
    sampleEntry.RenewsOutRecord 1 j.toInterest sampleNow (Interest.lifetimeOnWire elements) := by
  let _ := Sha256.constant
  obtain ⟨j, haccepted⟩ : ∃ j, (Interest.Object.wireDecode true (samplePacket 0 1)).run .default =
      .ok () j := ⟨_, rfl⟩
  obtain ⟨elements, hparse, hlifetime⟩ : ∃ elements, (samplePacket 0 1).parse = .ok elements ∧
      Interest.lifetimeOnWire elements = 282578800148737 := ⟨_, rfl, rfl⟩
  refine ⟨Sha256.constant, elements, j, haccepted, hparse,
    (renewed_iff haccepted hparse _ _ _ _).mpr ?_⟩
  rw [hlifetime]
  decide

end ClockedEntry

end Pit

end NdnFc
