import NdnFc.Packet.Interest
import NdnFc.Table.NameTree

/-!
# PIT entries

An entry of the Pending Interest Table keeps a representative Interest, the downstream faces it was
received from (in-records) and the upstream faces it was sent to (out-records)
(`NFD-FC/daemon/table/pit-entry.cpp`, `pit-face-record.cpp`). Times are in milliseconds.
-/

namespace NdnFc

open List

/-- Points in time, in milliseconds. -/
abbrev Time := ℤ

/-- Faces are known by their identifiers. -/
abbrev FaceId := ℕ

namespace Interest

/-- Two Interests have the same lookup name, CanBePrefix and MustBeFresh. -/
def SameKey (i j : Interest) : Prop :=
  i.getNameFunction = j.getNameFunction ∧ i.canBePrefix = j.canBePrefix ∧
    i.mustBeFresh = j.mustBeFresh

instance (i j : Interest) : Decidable (i.SameKey j) :=
  inferInstanceAs (Decidable (_ ∧ _))

/-- Name of the name tree node where the PIT files the Interest. -/
def nodeName (i : Interest) : Name :=
  i.getNameFunction.take NameTree.maxDepth

variable {i j : Interest}

theorem SameKey.nodeName_eq (h : i.SameKey j) : i.nodeName = j.nodeName := by
  rw [nodeName, nodeName, h.1]

theorem nodeName_isPrefix_of_lt (h : i.nodeName.length < i.name.length) :
    i.nodeName <+: i.name := by
  have hstrip := i.name.stripDigest_isPrefix
  have hshort := i.name.length_le_stripDigest
  rw [nodeName, getNameFunction, Name.getNameFunction] at h ⊢
  rw [length_take, length_append] at h
  by_cases hf : i.function = []
  · rw [hf, append_nil]
    exact (List.take_prefix _ _).trans hstrip
  · -- the cut removes the Function
    have := length_pos_iff.mpr hf
    rw [take_append_of_le_length (by omega)]
    exact (List.take_prefix _ _).trans hstrip

theorem length_nodeName_of_lt (h : i.nodeName.length < i.name.length) :
    i.nodeName.length = NameTree.maxDepth ∨ i.nodeName.length + 1 = i.name.length := by
  have hshort := i.name.length_le_stripDigest
  rw [nodeName, getNameFunction, Name.getNameFunction, length_take, length_append] at h ⊢
  omega

theorem SameKey.symm (h : i.SameKey j) : j.SameKey i :=
  ⟨h.1.symm, h.2.1.symm, h.2.2.symm⟩

theorem SameKey.trans {k : Interest} (h : i.SameKey j) (h' : j.SameKey k) : i.SameKey k :=
  ⟨h.1.trans h'.1, h.2.1.trans h'.2.1, h.2.2.trans h'.2.2⟩

theorem sameKey_of_matches (h : i.matchesInterestWFunction j) : i.SameKey j := by
  obtain ⟨hn, hf, hc, hm⟩ := matchesInterestWFunction_iff.mp h
  exact ⟨by rw [getNameFunction, getNameFunction, hn, hf], hc, hm⟩

end Interest

namespace Pit

/-- A downstream of an entry. -/
structure InRecord where
  face : FaceId
  lastNonce : Option Nonce
  lastRenewed : Time
  expiry : Time
  interest : Interest
deriving DecidableEq

/-- An upstream of an entry. -/
structure OutRecord where
  face : FaceId
  lastNonce : Option Nonce
  lastRenewed : Time
  expiry : Time
  hasIncomingNack : Bool
deriving DecidableEq

/-- An entry. `id` stands for its address, `nameTreeEntry` for the node it hangs on and
`expiryTimer` for the time at which its timer fires. -/
structure Entry where
  id : ℕ
  interest : Interest
  nameTreeEntry : Name
  inRecords : List InRecord
  outRecords : List OutRecord
  isSatisfied : Bool
  dataFreshnessPeriod : ℤ
  expiryTimer : Option Time
deriving DecidableEq

/-- `MAX_LIFETIME`: ten days. -/
def maxLifetime : ℤ := 10 * 24 * 60 * 60 * 1000

/-- The expiry that `FaceRecord::update` sets at time `now`. -/
def recordExpiry (now : Time) (interest : Interest) : Time :=
  now + min interest.interestLifetime maxLifetime

namespace Entry

/-- The constructor `Entry(interest)`, hung on a node. -/
def create (id : ℕ) (interest : Interest) (nameTreeEntry : Name) : Entry where
  id := id
  interest := interest
  nameTreeEntry := nameTreeEntry
  inRecords := []
  outRecords := []
  isSatisfied := false
  dataFreshnessPeriod := 0
  expiryTimer := none

variable (e : Entry)

/-- `canMatchWFunction`: the caller knows that the first `nEqualNameComps` components of the two
lookup names are equal. -/
def canMatchWFunction (interest : Interest) (nEqualNameComps : ℕ) : Bool :=
  let entryName := e.interest.getNameFunction
  let interestName := interest.getNameFunction
  Name.compare (entryName.drop nEqualNameComps) (interestName.drop nEqualNameComps) == .eq &&
    e.interest.canBePrefix == interest.canBePrefix &&
    e.interest.mustBeFresh == interest.mustBeFresh

theorem take_min_length (name : Name) :
    name.take (min name.length NameTree.maxDepth) = name.take NameTree.maxDepth := by
  rcases Nat.le_total name.length NameTree.maxDepth with h | h
  · rw [Nat.min_eq_left h, take_length, take_of_length_le h]
  · rw [Nat.min_eq_right h]

theorem canMatchWFunction_iff {e : Entry} {i : Interest} (hnode : e.interest.nodeName = i.nodeName) :
    e.canMatchWFunction i (min i.getNameFunction.length NameTree.maxDepth) ↔
      e.interest.SameKey i := by
  generalize hd : min i.getNameFunction.length NameTree.maxDepth = d
  have htake : e.interest.getNameFunction.take d = i.getNameFunction.take d := by
    have hdle : d ≤ NameTree.maxDepth := by omega
    have := congrArg (List.take d) hnode
    simpa only [Interest.nodeName, take_take, Nat.min_eq_left hdle] using this
  simp only [canMatchWFunction, Bool.and_eq_true, beq_iff_eq, Interest.SameKey, and_assoc]
  refine and_congr ?_ Iff.rfl
  rw [Std.LawfulEqCmp.compare_eq_iff_eq]
  constructor
  · intro hdrop
    rw [← take_append_drop d e.interest.getNameFunction, htake, hdrop,
      take_append_drop]
  · rintro h
    rw [h]

/-! ### Records -/

variable (face : FaceId)

def getInRecord : Option InRecord :=
  e.inRecords.find? (·.face == face)

/-- `insertOrUpdateInRecord` at time `now`; a new record goes to the front. -/
def insertOrUpdateInRecord (interest : Interest) (now : Time) : Entry :=
  let record : InRecord := ⟨face, interest.nonce, now, recordExpiry now interest, interest⟩
  if e.inRecords.any (·.face == face) then
    { e with inRecords := e.inRecords.map fun r => if r.face = face then record else r }
  else
    { e with inRecords := record :: e.inRecords }

def deleteInRecord : Entry :=
  { e with inRecords := e.inRecords.eraseP (·.face == face) }

def clearInRecords : Entry :=
  { e with inRecords := [] }

def getOutRecord : Option OutRecord :=
  e.outRecords.find? (·.face == face)

/-- `insertOrUpdateOutRecord` at time `now`. An update keeps the Nack of the record. -/
def insertOrUpdateOutRecord (interest : Interest) (now : Time) : Entry :=
  if e.outRecords.any (·.face == face) then
    { e with outRecords := e.outRecords.map fun r =>
        if r.face = face then
          ⟨face, interest.nonce, now, recordExpiry now interest, r.hasIncomingNack⟩ else r }
  else
    { e with outRecords :=
        ⟨face, interest.nonce, now, recordExpiry now interest, false⟩ :: e.outRecords }

def deleteOutRecord : Entry :=
  { e with outRecords := e.outRecords.eraseP (·.face == face) }

end Entry

end Pit

end NdnFc
