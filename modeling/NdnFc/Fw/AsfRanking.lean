import Mathlib.Data.Prod.Lex
import NdnFc.Fw.Algorithm

/-!
# Ranking of next hops by the ASF strategy

The next hop for an Interest is the first of an ordered set of the eligible ones
(`NFD-FC/daemon/fw/asf-strategy.cpp`, lines 263 to 326), by the smoothed RTT or a number in its
place, then by cost.
-/

namespace NdnFc.AsfStrategy

open List Fw

/-- What is measured for a face. A last RTT of -1 stands for none and one of -2 for a timeout. -/
structure FaceInfo where
  lastRtt : ℤ
  srtt : ℤ

def rttNoMeasurement : ℤ := -1

def rttTimeout : ℤ := -2

/-- `time::nanoseconds::max()` -/
def maxDuration : ℤ := 2 ^ 63 - 1

structure FaceStats where
  face : FaceId
  rtt : ℤ
  srtt : ℤ
  cost : ℕ

def getValueForSorting (stats : FaceStats) : ℤ :=
  if stats.rtt = rttTimeout then maxDuration
  else if stats.rtt = rttNoMeasurement then maxDuration / 2
  else stats.srtt

/-- What `FaceStatsCompare` compares. -/
def sortKey (stats : FaceStats) : ℤ ×ₗ ℕ := toLex (getValueForSorting stats, stats.cost)

variable (getFaceInfo : FaceId → Option FaceInfo)

def statsOf (nextHop : Fib.NextHop) : FaceStats :=
  let info := (getFaceInfo nextHop.face).getD ⟨rttNoMeasurement, rttNoMeasurement⟩
  ⟨nextHop.face, info.lastRtt, info.srtt, nextHop.cost⟩

/-- `getBestFaceForForwarding`, for the next hops of a FIB entry. A time is given if the Interest is
not new. -/
def getBestFaceForForwarding (faces : FaceId → Fw.FaceInfo) (inFace : FaceId) (interest : Interest)
    (nextHops : List Fib.NextHop) (e : Pit.Entry) (wantUnused : Option Time) : Option FaceId :=
  let eligible := nextHops.filter (isNextHopEligible faces inFace interest · e wantUnused)
  let rankedFaces := (eligible.map (statsOf getFaceInfo)).foldl
    (fun set stats => SortedTable.emplace (compareOn sortKey) stats set) []
  rankedFaces.head?.map FaceStats.face

/-- Measured faces by their smoothed RTT, then faces without a measurement, then those that timed
out last. -/
def rank (info : Option FaceInfo) : ℕ ×ₗ ℤ :=
  match info with
  | none => toLex (1, 0)
  | some info =>
    if info.lastRtt = rttTimeout then toLex (2, 0)
    else if info.lastRtt = rttNoMeasurement then toLex (1, 0)
    else toLex (0, info.srtt)

section

variable (hsrtt : ∀ face info, getFaceInfo face = some info → info.srtt < maxDuration / 2)

include hsrtt

theorem rank_cases (nextHop : Fib.NextHop) :
    let value := getValueForSorting (statsOf getFaceInfo nextHop)
    value < maxDuration / 2 ∧ rank (getFaceInfo nextHop.face) = toLex (0, value) ∨
      value = maxDuration / 2 ∧ rank (getFaceInfo nextHop.face) = toLex (1, 0) ∨
      value = maxDuration ∧ rank (getFaceInfo nextHop.face) = toLex (2, 0) := by
  intro value
  unfold value getValueForSorting statsOf rank
  cases hinfo : getFaceInfo nextHop.face with
  | none => exact .inr (.inl ⟨rfl, rfl⟩)
  | some info =>
    dsimp only [Option.getD_some]
    split_ifs
    · exact .inr (.inr ⟨rfl, rfl⟩)
    · exact .inr (.inl ⟨rfl, rfl⟩)
    · exact .inl ⟨hsrtt _ info hinfo, rfl⟩

theorem rank_le_rank {a b : Fib.NextHop}
    (h : sortKey (statsOf getFaceInfo a) ≤ sortKey (statsOf getFaceInfo b)) :
    toLex (rank (getFaceInfo a.face), a.cost) ≤ toLex (rank (getFaceInfo b.face), b.cost) := by
  have hhalf : maxDuration / 2 < maxDuration := by decide
  have hlex : _ ∨ _ ∧ a.cost ≤ b.cost := Prod.Lex.toLex_le_toLex.mp h
  rcases rank_cases getFaceInfo hsrtt a with ha | ha | ha <;>
    rcases rank_cases getFaceInfo hsrtt b with hb | hb | hb <;>
    simp only [ha.2, hb.2, Prod.Lex.toLex_le_toLex, Prod.Lex.toLex_lt_toLex, toLex_inj,
      Prod.mk.injEq, true_and, and_true] <;>
    omega

end

/-- No face is chosen exactly when no next hop is eligible; otherwise it is an eligible one that no
other precedes in rank or, with the same rank, in cost. -/
theorem getBestFaceForForwarding_spec (faces : FaceId → Fw.FaceInfo) (inFace : FaceId)
    (interest : Interest) (nextHops : List Fib.NextHop) (e : Pit.Entry) (wantUnused : Option Time)
    (hsrtt : ∀ face info, getFaceInfo face = some info → info.srtt < maxDuration / 2) :
    let eligible := nextHops.filter (isNextHopEligible faces inFace interest · e wantUnused)
    let best := getBestFaceForForwarding getFaceInfo faces inFace interest nextHops e wantUnused
    (best = none ↔ eligible = []) ∧ ∀ face, best = some face → ∃ nextHop ∈ eligible,
      nextHop.face = face ∧ ∀ other ∈ eligible,
        toLex (rank (getFaceInfo face), nextHop.cost) ≤
          toLex (rank (getFaceInfo other.face), other.cost) := by
  intro eligible best
  have hbest : best = ((eligible.map (statsOf getFaceInfo)).argmin sortKey).map FaceStats.face :=
    congrArg (Option.map FaceStats.face) (SortedTable.head?_foldl_emplace sortKey _)
  rw [hbest]
  refine ⟨by simp, fun face hface => ?_⟩
  obtain ⟨stats, hstats, rfl⟩ := Option.map_eq_some_iff.mp hface
  obtain ⟨nextHop, hnextHop, rfl⟩ := mem_map.mp (argmin_mem hstats)
  refine ⟨nextHop, hnextHop, rfl, fun other hother => rank_le_rank getFaceInfo hsrtt ?_⟩
  exact le_of_mem_argmin (mem_map_of_mem hother) hstats

theorem getBestFaceForForwarding_unmeasured :
    ∃ nextHop ∈ [(⟨2, 10⟩ : Fib.NextHop), ⟨3, 5⟩], nextHop.face = 3 ∧
      ∀ other ∈ [(⟨2, 10⟩ : Fib.NextHop), ⟨3, 5⟩],
        toLex (rank none, nextHop.cost) ≤ toLex (rank none, other.cost) :=
  (getBestFaceForForwarding_spec (fun _ => none) (fun _ => ⟨.nonLocal, .pointToPoint⟩) 1
    (.ofName [] []) [⟨2, 10⟩, ⟨3, 5⟩] (.create 0 (.ofName [] []) []) none nofun).2 3 (by decide)

end NdnFc.AsfStrategy
