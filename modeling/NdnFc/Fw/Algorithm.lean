import NdnFc.Client.Face
import NdnFc.Table.Fib

/-!
# Choosing next hops

The functions that strategies share (`NFD-FC/daemon/fw/algorithm.cpp`), and the suppression of
retransmissions (`fw/retx-suppression-exponential.cpp`). Times are in milliseconds, and a failed
assertion is an error. The time of no record is `TimePoint::max()`, which is `none` here.
-/

namespace NdnFc

namespace Fw

open List

inductive FaceScope where
  | nonLocal
  | localScope
deriving DecidableEq

inductive LinkType where
  | pointToPoint
  | multiAccess
  | adHoc
deriving DecidableEq

structure FaceInfo where
  scope : FaceScope
  linkType : LinkType

/-- A name of one component with the given characters. -/
def scopeName (text : List Char) : Name :=
  [.generic (text.map PercentEncoding.byteOf)]

def localhost : Name := scopeName ['l', 'o', 'c', 'a', 'l', 'h', 'o', 's', 't']

def localhop : Name := scopeName ['l', 'o', 'c', 'a', 'l', 'h', 'o', 'p']

variable (faces : FaceId → FaceInfo) (inFace : FaceId)

def wouldViolateScope (interest : Interest) (outFace : FaceId) : Bool :=
  if (faces outFace).scope = .localScope then false
  else if localhost.isPrefixOf interest.name then true
  else if localhop.isPrefixOf interest.name then decide ((faces inFace).scope ≠ .localScope)
  else false

/-- `isNextHopEligible` without `wantUnused`. -/
def isEligible (interest : Interest) (nextHop : Fib.NextHop) : Bool :=
  !((nextHop.face == inFace && decide ((faces nextHop.face).linkType ≠ .adHoc)) ||
    wouldViolateScope faces inFace interest nextHop.face)

variable (e : Pit.Entry)

def isUnused (now : Time) (face : FaceId) : Bool :=
  match e.getOutRecord face with
  | none => true
  | some record => !decide (now < record.expiry)

/-- `isNextHopEligible`. A time is given if the next hop must be unused. -/
def isNextHopEligible (interest : Interest) (nextHop : Fib.NextHop)
    (e : Pit.Entry) (wantUnused : Option Time) : Bool :=
  isEligible faces inFace interest nextHop &&
    match wantUnused with
    | none => true
    | some now => isUnused e now nextHop.face

def hasPendingOutRecords (now : Time) : Bool :=
  e.outRecords.any fun record => decide (now ≤ record.expiry) && !record.hasIncomingNack

def getLastOutgoing : Except String Time :=
  match (e.outRecords.map Pit.OutRecord.lastRenewed).max? with
  | none => throw "assertion failed: lastOutgoing != pitEntry.out_end()"
  | some lastRenewed => pure lastRenewed

/-- The loop of `findEligibleNextHopWithEarliestOutRecord`. -/
def earliestLoop (inFace : FaceId) (interest : Interest) (e : Pit.Entry) :
    Option (Fib.NextHop × Time) → List Fib.NextHop → Except String (Option (Fib.NextHop × Time))
  | found, [] => pure found
  | found, nextHop :: rest =>
    if !isNextHopEligible faces inFace interest nextHop e none then
      earliestLoop inFace interest e found rest
    else
      match e.getOutRecord nextHop.face with
      | none => throw "assertion failed: outRecord != pitEntry->out_end()"
      | some record =>
        if found.all fun best => decide (record.lastRenewed < best.2) then
          earliestLoop inFace interest e (some (nextHop, record.lastRenewed)) rest
        else earliestLoop inFace interest e found rest

def findEligibleNextHopWithEarliestOutRecord (interest : Interest)
    (nextHops : List Fib.NextHop) (e : Pit.Entry) : Except String (Option Fib.NextHop) := do
  let found ← earliestLoop faces inFace interest e none nextHops
  pure (found.map Prod.fst)

/-! ### Suppression of retransmissions -/

inductive RetxSuppressionResult where
  | new
  | forward
  | suppress
deriving DecidableEq

structure RetxSuppressionExponential where
  initialInterval : ℤ
  multiplier : ℤ
  maxInterval : ℤ

/-- `decidePerPitEntry`, with the interval stored with the entry. The clock is read twice. Returns
the stored interval too. -/
def RetxSuppressionExponential.decidePerPitEntry (r : RetxSuppressionExponential) (e : Pit.Entry)
    (pitInfo : Option ℤ) (now now' : Time) : Except String (RetxSuppressionResult × Option ℤ) :=
  if !hasPendingOutRecords e now then pure (.new, pitInfo)
  else do
    let lastOutgoing ← getLastOutgoing e
    let suppressionInterval := pitInfo.getD r.initialInterval
    if now' - lastOutgoing < suppressionInterval then
      pure (.suppress, some suppressionInterval)
    else
      pure (.forward, some (min r.maxInterval (suppressionInterval * r.multiplier)))

/-! ### What the searches find -/

section Searches

variable {faces} {inFace : FaceId} {interest : Interest} {e : Pit.Entry}

/-- Forwarding to the face would violate the scope of the Interest. -/
def ViolatesScope (faces : FaceId → FaceInfo) (inFace : FaceId) (interest : Interest)
    (outFace : FaceId) : Prop :=
  (faces outFace).scope = .nonLocal ∧
    (localhost <+: interest.name ∨
      localhop <+: interest.name ∧ (faces inFace).scope = .nonLocal)

/-- The next hop is not the ingress, unless that is ad hoc, and does not violate the scope. -/
def Eligible (faces : FaceId → FaceInfo) (inFace : FaceId) (interest : Interest)
    (nextHop : Fib.NextHop) : Prop :=
  (nextHop.face ≠ inFace ∨ (faces nextHop.face).linkType = .adHoc) ∧
    ¬ ViolatesScope faces inFace interest nextHop.face

def Used (e : Pit.Entry) (now : Time) (face : FaceId) : Prop :=
  ∃ record, e.getOutRecord face = some record ∧ now < record.expiry

theorem FaceScope.ne_localScope_iff {scope : FaceScope} :
    scope ≠ .localScope ↔ scope = .nonLocal := by
  cases scope <;> decide

theorem wouldViolateScope_iff {outFace : FaceId} :
    wouldViolateScope faces inFace interest outFace ↔
      ViolatesScope faces inFace interest outFace := by
  rw [wouldViolateScope, ViolatesScope, ← FaceScope.ne_localScope_iff,
    ← FaceScope.ne_localScope_iff]
  by_cases hlocal : (faces outFace).scope = .localScope
  · simp [hlocal]
  · by_cases hhost : localhost <+: interest.name
    · simp [hlocal, hhost]
    · by_cases hhop : localhop <+: interest.name <;> simp [hlocal, hhost, hhop]

variable {nextHop : Fib.NextHop} {found : Option (Fib.NextHop × Time)} {seen : List Fib.NextHop}

theorem isNextHopEligible_iff {wantUnused : Option Time} :
    isNextHopEligible faces inFace interest nextHop e wantUnused ↔
      Eligible faces inFace interest nextHop ∧ ∀ now ∈ wantUnused, ¬ Used e now nextHop.face := by
  have heligible : isEligible faces inFace interest nextHop ↔
      Eligible faces inFace interest nextHop := by
    rw [isEligible, Eligible, ← wouldViolateScope_iff]
    by_cases hface : nextHop.face = inFace <;>
      by_cases hlink : (faces nextHop.face).linkType = .adHoc <;> simp_all
  have hunused : ∀ now, isUnused e now nextHop.face ↔ ¬ Used e now nextHop.face := by
    intro now
    rw [isUnused, Used]
    cases e.getOutRecord nextHop.face <;> simp
  cases wantUnused with
  | none => simp [isNextHopEligible, heligible]
  | some now => simp [isNextHopEligible, heligible, hunused]

theorem le_cost_of_find? {entry : Fib.Entry} {test : Fib.NextHop → Bool} {a b : Fib.NextHop}
    (h : entry.nextHops.find? test = some a) (hb : b ∈ entry.nextHops) (htest : test b) :
    a.cost ≤ b.cost := by
  obtain ⟨-, before, after, hsplit, hbefore⟩ := find?_eq_some_iff_append.mp h
  have hsorted := entry.sorted
  rw [hsplit] at hb hsorted
  rcases mem_append.mp hb with hb | hb
  · have hfail := hbefore b hb
    rw [htest] at hfail
    cases hfail
  · rcases mem_cons.mp hb with rfl | hb
    · exact le_rfl
    · exact (pairwise_cons.mp (pairwise_append.mp hsorted).2.1).1 b hb

/-- What the loop has found among the next hops it has seen: none if none is eligible, and else one
whose out-record was renewed earliest. -/
def IsEarliest (faces : FaceId → FaceInfo) (inFace : FaceId) (interest : Interest) (e : Pit.Entry)
    (seen : List Fib.NextHop) : Option (Fib.NextHop × Time) → Prop
  | none => ∀ b ∈ seen, ¬ Eligible faces inFace interest b
  | some (a, renewed) => a ∈ seen ∧ Eligible faces inFace interest a ∧
      (∃ record, e.getOutRecord a.face = some record ∧ record.lastRenewed = renewed) ∧
      ∀ b ∈ seen, Eligible faces inFace interest b → ∀ record,
        e.getOutRecord b.face = some record → renewed ≤ record.lastRenewed

section

variable (h : IsEarliest faces inFace interest e seen found)

include h

theorem IsEarliest.skip (hnot : ¬ Eligible faces inFace interest nextHop) :
    IsEarliest faces inFace interest e (seen ++ [nextHop]) found := by
  have hmem : ∀ b ∈ seen ++ [nextHop], Eligible faces inFace interest b → b ∈ seen := by
    intro b hb heligible
    rcases mem_append.mp hb with hb | hb
    · exact hb
    · exact absurd (mem_singleton.mp hb ▸ heligible) hnot
  cases found with
  | none => exact fun b hb heligible => h b (hmem b hb heligible) heligible
  | some best =>
    obtain ⟨ha, heligible, hrecord, hmin⟩ := h
    exact ⟨mem_append_left _ ha, heligible, hrecord,
      fun b hb hb' => hmin b (hmem b hb hb') hb'⟩

theorem IsEarliest.replace {record : Pit.OutRecord}
    (heligible : Eligible faces inFace interest nextHop)
    (hget : e.getOutRecord nextHop.face = some record)
    (hearlier : found.all fun best => decide (record.lastRenewed < best.2)) :
    IsEarliest faces inFace interest e (seen ++ [nextHop])
      (some (nextHop, record.lastRenewed)) := by
  refine ⟨by simp, heligible, ⟨record, hget, rfl⟩, fun b hb hb' record' hget' => ?_⟩
  rcases mem_append.mp hb with hb | hb
  · cases found with
    | none => exact absurd hb' (h b hb)
    | some best =>
      have hlt : record.lastRenewed < best.2 := by simpa using hearlier
      exact hlt.le.trans (h.2.2.2 b hb hb' record' hget')
  · rw [mem_singleton.mp hb, hget, Option.some.injEq] at hget'
    rw [hget']

theorem IsEarliest.keep {record : Pit.OutRecord} (hget : e.getOutRecord nextHop.face = some record)
    (hlater : ¬ found.all fun best => decide (record.lastRenewed < best.2)) :
    IsEarliest faces inFace interest e (seen ++ [nextHop]) found := by
  cases found with
  | none => exact absurd rfl hlater
  | some best =>
    obtain ⟨ha, heligible, hrecord, hmin⟩ := h
    refine ⟨mem_append_left _ ha, heligible, hrecord, fun b hb hb' record' hget' => ?_⟩
    rcases mem_append.mp hb with hb | hb
    · exact hmin b hb hb' record' hget'
    · rw [mem_singleton.mp hb, hget, Option.some.injEq] at hget'
      rw [← hget']
      simpa using hlater

end

theorem earliestLoop_spec {rest : List Fib.NextHop}
    (hfound : IsEarliest faces inFace interest e seen found)
    (hrecord : ∀ b ∈ rest, Eligible faces inFace interest b → (e.getOutRecord b.face).isSome) :
    ∃ found', earliestLoop faces inFace interest e found rest = .ok found' ∧
      IsEarliest faces inFace interest e (seen ++ rest) found' := by
  induction rest generalizing seen found with
  | nil => exact ⟨found, rfl, by rwa [append_nil]⟩
  | cons nextHop rest ih =>
    have hrest := fun b hb => hrecord b (mem_cons_of_mem nextHop hb)
    rw [append_cons]
    by_cases heligible : Eligible faces inFace interest nextHop
    · obtain ⟨record, hget⟩ := Option.isSome_iff_exists.mp
        (hrecord nextHop mem_cons_self heligible)
      have hstep : isNextHopEligible faces inFace interest nextHop e none :=
        isNextHopEligible_iff.mpr ⟨heligible, by simp⟩
      simp only [earliestLoop, hstep, hget, Bool.not_true, Bool.false_eq_true, if_false]
      split
      next hearlier => exact ih (hfound.replace heligible hget hearlier) hrest
      next hlater => exact ih (hfound.keep hget hlater) hrest
    · have hstep : ¬ isNextHopEligible faces inFace interest nextHop e none := fun h =>
        heligible (isNextHopEligible_iff.mp h).1
      rw [earliestLoop, Bool.eq_false_of_not_eq_true hstep]
      exact ih (hfound.skip heligible) hrest

theorem findEligibleNextHopWithEarliestOutRecord_spec {nextHops : List Fib.NextHop}
    (hrecord : ∀ b ∈ nextHops, Eligible faces inFace interest b → (e.getOutRecord b.face).isSome) :
    ∃ found, findEligibleNextHopWithEarliestOutRecord faces inFace interest nextHops e =
        .ok (found.map Prod.fst) ∧ IsEarliest faces inFace interest e nextHops found := by
  have hnone : IsEarliest faces inFace interest e [] none := fun b hb => by simp at hb
  obtain ⟨found, hloop, hearliest⟩ := earliestLoop_spec hnone hrecord
  refine ⟨found, ?_, hearliest⟩
  rw [findEligibleNextHopWithEarliestOutRecord, hloop]
  rfl

def Pending (e : Pit.Entry) (now : Time) : Prop :=
  ∃ record ∈ e.outRecords, now ≤ record.expiry ∧ record.hasIncomingNack = false

/-- An Interest is new if no out-record is pending. A retransmission is suppressed if an Interest
was sent within the interval. -/
def Classified (e : Pit.Entry) (interval : ℤ) (now now' : Time) : RetxSuppressionResult → Prop
  | .new => ¬ Pending e now
  | .suppress => Pending e now ∧ ∃ record ∈ e.outRecords, now' - record.lastRenewed < interval
  | .forward => Pending e now ∧ ∀ record ∈ e.outRecords, interval ≤ now' - record.lastRenewed

theorem hasPendingOutRecords_iff {now : Time} : hasPendingOutRecords e now ↔ Pending e now := by
  simp [hasPendingOutRecords, Pending]

theorem RetxSuppressionExponential.decidePerPitEntry_spec (r : RetxSuppressionExponential)
    (e : Pit.Entry) (pitInfo : Option ℤ) (now now' : Time) :
    ∃ result info, r.decidePerPitEntry e pitInfo now now' = .ok (result, info) ∧
      Classified e (pitInfo.getD r.initialInterval) now now' result := by
  rw [decidePerPitEntry]
  by_cases hpending : Pending e now
  · rw [hasPendingOutRecords_iff.mpr hpending]
    obtain ⟨record, hrecord, -⟩ := id hpending
    cases hmax : (e.outRecords.map Pit.OutRecord.lastRenewed).max? with
    | none =>
      rw [max?_eq_none_iff, map_eq_nil_iff] at hmax
      rw [hmax] at hrecord
      cases hrecord
    | some last =>
      obtain ⟨hlast, hle⟩ := max?_eq_some_iff.mp hmax
      obtain ⟨latest, hlatest, rfl⟩ := mem_map.mp hlast
      simp only [getLastOutgoing, hmax, Bool.not_true, Bool.false_eq_true, if_false]
      by_cases hlt : now' - latest.lastRenewed < pitInfo.getD r.initialInterval
      · exact ⟨.suppress, _, if_pos hlt, hpending, latest, hlatest, hlt⟩
      · refine ⟨.forward, _, if_neg hlt, hpending, fun other hother => ?_⟩
        have hother' := hle other.lastRenewed (mem_map_of_mem hother)
        exact (not_lt.mp hlt).trans (sub_le_sub_left hother' now')
  · rw [Bool.eq_false_of_not_eq_true fun h => hpending (hasPendingOutRecords_iff.mp h)]
    exact ⟨.new, pitInfo, rfl, hpending⟩

end Searches

end Fw

end NdnFc
