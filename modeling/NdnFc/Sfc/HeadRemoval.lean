import NdnFc.Name.UriRoundTrip
import NdnFc.Sfc.Func

/-!
# Removing the head of a Function

`Interest::removeHeadFunction` erases the first component from the text of the Function and reads
the rest as a name (`ndn-cxx/interest.cpp`, lines 376 to 391). The other fields stay, and the cached
encoding is dropped whether or not there was a Function.
-/

namespace NdnFc

namespace Interest.Object

section

variable [Sha256]

/-- The cached encoding, if there is one, decodes to the fields. -/
def Coherent (autoCheckParametersDigest : Bool) (i : Object) : Prop :=
  ∀ wire, i.wire = some wire →
    ∃ e, ofBlock autoCheckParametersDigest (.encoded wire) = .ok e ∧ e.toInterest = i.toInterest

/-- The Function has lost its first component, if any. Nothing else has changed, a coherent encoding
is coherent, and an Interest without Function is the same object. -/
structure HeadRemoved (autoCheckParametersDigest : Bool) (i j : Object) : Prop where
  function : j.function = i.function.tail
  fields : j.toInterest = { i.toInterest with function := j.function }
  coherent : i.Coherent autoCheckParametersDigest → j.Coherent autoCheckParametersDigest
  same : i.hasFunction = false → j = i

/-- A call of `removeHeadFunction` succeeds and removes the head. -/
def RemovesHead (autoCheckParametersDigest : Bool) (env : Option Bool) (i : Object) : Prop :=
  ∃ j, (removeHeadFunction env).run i = .ok () j ∧ HeadRemoved autoCheckParametersDigest i j

end

theorem run_removeHeadFunction {env : Option Bool} {i j : Object} :
    (removeHeadFunction env).run i = .ok () j ↔
      ∃ function, i.function.tail.mapM (Component.throughUri env) = .ok function ∧
        j = { i with function, wire := none } := by
  rw [removeHeadFunction, Method.run_get_bind, Method.run_ofExcept_bind_eq_ok_iff,
    Name.removeHead_eq]
  refine exists_congr fun function => and_congr_right fun _ => ?_
  rw [setFunction]
  constructor
  · intro h
    cases h
    rfl
  · rintro rfl
    rfl

/-- `removeHeadFunction` leaves exactly the components after the first and everything else exactly
when these are read back from their texts and an Interest without Function has no cached encoding.
-/
theorem removesHead_iff [Sha256] (autoCheckParametersDigest : Bool) (env : Option Bool)
    (i : Object) :
    i.RemovesHead autoCheckParametersDigest env ↔
      (i.hasFunction = false → i.wire = none) ∧
      ∀ c ∈ i.function.tail, c.Accepted ∧
        (wantAltUri env .envOrAlternate = true → c.isWrittenAsNumber = true →
          c.HasShortestNumber) := by
  have hstable : (∀ c ∈ i.function.tail, c.Accepted ∧
      (wantAltUri env .envOrAlternate = true → c.isWrittenAsNumber = true →
        c.HasShortestNumber)) ↔
      i.function.tail.mapM (Component.throughUri env) = .ok i.function.tail := by
    rw [Name.mapM_throughUri_eq_self_iff]
    exact forall₂_congr fun c _ => Component.uriStable_iff.symm
  rw [hstable]
  constructor
  · rintro ⟨j, hrun, hremoved⟩
    obtain ⟨function, hfunction, rfl⟩ := run_removeHeadFunction.mp hrun
    refine ⟨fun hnone => ?_, ?_⟩
    · exact (congrArg wire (hremoved.same hnone)).symm
    · have htail : function = i.function.tail := hremoved.function
      rw [htail] at hfunction
      exact hfunction
  · rintro ⟨hwire, htail⟩
    refine ⟨_, run_removeHeadFunction.mpr ⟨_, htail, rfl⟩, rfl, rfl, ?_, fun hnone => ?_⟩
    · -- without an encoding there is nothing to check
      intro _ wire h
      cases h
    · have hempty : i.function = [] := by simpa [hasFunction] using hnone
      have hnowire := hwire hnone
      obtain ⟨fields, wire⟩ := i
      obtain ⟨name, function⟩ := fields
      cases hempty
      cases hnowire
      rfl

set_option maxRecDepth 4000 in
/-- The Function `/a/seg=1` with the number in two bytes loses a byte with its head; and an encoded
Interest without Function is no longer the same object. -/
theorem not_removesHead : ∃ _ : Sha256, ∃ i j : Object,
    (∀ c ∈ i.function, c.Accepted) ∧ j.hasFunction = false ∧
    ¬ i.RemovesHead true none ∧ ¬ j.RemovesHead true none := by
  let _ := Sha256.constant
  let segment : Component := ⟨Tlv.segmentNameComponent, [0, 1], by decide, by decide⟩
  let i : Object := { ofName [.generic [97]] [.generic [97], segment] with wire := none }
  let j : Object := { ofName [.generic [97]] [] with
    wire := some (.makeEmptyBlock Tlv.interest (by decide) (by decide)) }
  refine ⟨Sha256.constant, i, j, by decide, rfl, ?_, ?_⟩
  · rintro ⟨after, hrun, hremoved⟩
    obtain ⟨function, hfunction, rfl⟩ := run_removeHeadFunction.mp hrun
    have htail : function = [segment] := hremoved.function
    have hshort : i.function.tail.mapM (Component.throughUri none) =
        .ok [⟨Tlv.segmentNameComponent, [1], by decide, by decide⟩] := by decide
    rw [hshort, htail] at hfunction
    exact absurd hfunction (by decide)
  · rintro ⟨after, hrun, hremoved⟩
    obtain ⟨function, -, rfl⟩ := run_removeHeadFunction.mp hrun
    cases congrArg wire (hremoved.same rfl)

end Interest.Object

end NdnFc
