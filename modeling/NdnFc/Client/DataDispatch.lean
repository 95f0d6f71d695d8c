import NdnFc.Client.Face

/-!
# Which pending Interests a Data packet satisfies

The face compares a Data packet with its pending Interests by `Interest::matchesData`, which does
not look at the Function. So it satisfies the right records exactly when no pending Interest matches
the packet in everything but the Function.
-/

namespace NdnFc

namespace Client

variable [Sha256] (data : DataPacket)

/-- The calls of Data callbacks for the records with the given property. -/
def dataCallbacks (p : PendingInterest → Bool) (pending : List PendingInterest) : List Output :=
  (pending.filter fun entry => p entry && (entry.origin == .app && entry.callbacks.onData)).map
    fun entry => .dataCallback entry.id entry.interest data

theorem satisfyLoop_eq (pending : List PendingInterest) :
    (satisfyLoop data pending).1 = pending.filter (fun entry => !entry.interest.matchesData data) ∧
    (satisfyLoop data pending).2.1 =
      dataCallbacks data (fun entry => entry.interest.matchesData data) pending := by
  induction pending with
  | nil => exact ⟨rfl, rfl⟩
  | cons entry rest ih =>
    obtain ⟨hkept, houtputs⟩ := ih
    simp only [satisfyLoop, dataCallbacks] at houtputs ⊢
    cases hmatch : entry.interest.matchesData data with
    | false => simp [hmatch, hkept, houtputs]
    | true =>
      cases horigin : entry.origin with
      | app => cases hcallback : entry.callbacks.onData <;> simp [hmatch, hkept, houtputs, horigin,
          hcallback]
      | forwarder => simp [hmatch, hkept, houtputs, horigin]

theorem satisfyPendingInterests_eq (face : Face) :
    (satisfyPendingInterests data face).1.pending =
      face.pending.filter (fun entry => !entry.interest.matchesData data) ∧
    (satisfyPendingInterests data face).2.1 =
      dataCallbacks data (fun entry => entry.interest.matchesData data) face.pending :=
  satisfyLoop_eq data face.pending

/-- The Data callbacks of exactly the pending Interests that the Data satisfies, Function included,
are called once, and these are removed. -/
def SatisfiesExactly (face : Face) : Prop :=
  (satisfyPendingInterests data face).1.pending =
    face.pending.filter (fun entry => !entry.interest.matchesDataWFunction data) ∧
  (satisfyPendingInterests data face).2.1 =
    dataCallbacks data (fun entry => entry.interest.matchesDataWFunction data) face.pending

/-- A pending Interest that matches the Data in everything else has its Function. -/
def NoOtherFunction (face : Face) : Prop :=
  ∀ entry ∈ face.pending, entry.interest.matchesData data →
    entry.interest.function = data.function

theorem satisfiesExactly_iff {data : DataPacket} {face : Face} :
    SatisfiesExactly data face ↔ NoOtherFunction data face := by
  obtain ⟨hkept, hcalls⟩ := satisfyPendingInterests_eq data face
  constructor
  · rintro ⟨hexact, -⟩ entry hentry hmatch
    by_contra hfunction
    -- the record should stay, but it is removed
    have hstays : entry ∈ face.pending.filter
        (fun entry => !entry.interest.matchesDataWFunction data) := by
      refine List.mem_filter.mpr ⟨hentry, ?_⟩
      rw [Bool.not_eq_true', ← Bool.not_eq_true, Interest.matchesDataWFunction_iff]
      exact fun h => hfunction h.1
    rw [← hexact, hkept] at hstays
    simp [hmatch] at hstays
  · intro hother
    have hsame : ∀ entry ∈ face.pending,
        entry.interest.matchesData data = entry.interest.matchesDataWFunction data := by
      intro entry hentry
      rw [Bool.eq_iff_iff, Interest.matchesDataWFunction_iff]
      exact ⟨fun h => ⟨hother entry hentry h, h⟩, fun h => h.2⟩
    refine ⟨hkept.trans (List.filter_congr fun entry hentry => by rw [hsame entry hentry]),
      hcalls.trans ?_⟩
    refine congrArg _ (List.filter_congr fun entry hentry => ?_)
    dsimp only
    rw [hsame entry hentry]

/-- The Data packet that an event brings. -/
def Event.data? : Event → Option DataPacket
  | .receiveData data => some data
  | .putData data _ => some data
  | _ => none

/-- Every Data packet of a run satisfies exactly the pending Interests that it should exactly when
none matches a pending Interest of another Function. -/
theorem dispatch_iff (face : Face) (events : List Event) :
    Run.Meets step (fun face event => ∀ data ∈ event.data?, SatisfiesExactly data face) face events ↔
      Run.Meets step (fun face event => ∀ data ∈ event.data?, NoOtherFunction data face) face
        events :=
  Run.meets_congr fun _ _ => forall₂_congr fun _ _ => satisfiesExactly_iff

omit [Sha256] in
/-- The Interest `/A` with Function `/f` was received and `/A` without Function expressed. The Data
`/A` for the latter removes both. -/
theorem not_satisfiesExactly_function : ∃ _ : Sha256, ∃ (received expressed : Interest)
    (data : DataPacket), ∃ face, face = Run.run step (Face.init none)
      [.receiveInterest received, .allocateId,
        .expressInterest 2 expressed ⟨true, true, true⟩ (.ok ())] ∧
    received.matchesDataWFunction data = false ∧ expressed.matchesDataWFunction data = true ∧
    face.pending.map (fun entry => entry.interest) = [received, expressed] ∧
    (step face (.receiveData data)).pending = [] ∧ ¬ SatisfiesExactly data face := by
  let _ := Sha256.constant
  let received := Interest.ofName [.generic [65]] [.generic [102]]
  let expressed := Interest.ofName [.generic [65]] []
  let data : DataPacket := ⟨[.generic [65]], [], 0, []⟩
  refine ⟨Sha256.constant, received, expressed, data, _, rfl, by decide, by decide, by decide,
    by decide, ?_⟩
  rw [satisfiesExactly_iff]
  intro hother
  have hmem : (PendingInterest.ofForwarder 1 received) ∈ (Run.run step (Face.init none)
      [.receiveInterest received, .allocateId,
        .expressInterest 2 expressed ⟨true, true, true⟩ (.ok ())]).pending := by decide
  exact absurd (hother _ hmem (by decide)) (by decide)

end Client

end NdnFc
