import NdnFc.Fw.AsfMeasurements

/-!
# Measurements of the access strategy

The strategy measures for the parent of the name of a Data, or for the name itself
(`NFD-FC/daemon/fw/access-strategy.cpp`, lines 210 to 285). It was chosen for the lookup name of the
PIT entry, which goes on with the Function.
-/

namespace NdnFc.AccessStrategy

open List StrategyChoice AsfMeasurements LongestPrefix

variable {μ ι : Type*} {t : Tree Fib.Entry μ} {owner name : Name}

/-- `addPrefixMeasurements`, for a strategy that was chosen for the prefix `owner` and a Data of the
given name: the name of the entry. -/
def addPrefixMeasurements (owner : Name) (t : Tree Fib.Entry μ) (name : Name) :
    Except String Name :=
  let (t, me) := if name = [] then (t, none) else get owner t name.dropLast
  match me with
  | some me => pure me
  | none => (get owner t name).2.getDM (throw "assertion failed: me != nullptr")

theorem exists_addPrefixMeasurements_iff_effectivePrefix :
    (∃ me, addPrefixMeasurements owner t name = .ok me) ↔
      effectivePrefix t name.dropLast = some owner ∨ effectivePrefix t name = some owner := by
  unfold addPrefixMeasurements
  by_cases hname : name = []
  · rw [if_pos hname, hname]
    exact (exists_getDM_iff.trans (isSome_get_iff owner t [])).trans (or_self_iff).symm
  · have hparent := isSome_get_iff owner t name.dropLast
    have htree := effectivePrefix_get owner t name.dropLast
    rw [if_neg hname, ← hparent]
    generalize get owner t name.dropLast = result at hparent htree
    obtain ⟨t', _ | me⟩ := result
    · have hself := isSome_get_iff owner t' name
      rw [htree] at hself
      simpa using exists_getDM_iff.trans hself
    · exact iff_of_true ⟨me, rfl⟩ (.inl rfl)

/-- A Data `/a` with Function `/f`. -/
def sampleData : DataPacket := ⟨[.generic [97]], [.generic [102]], 0, []⟩

end NdnFc.AccessStrategy
