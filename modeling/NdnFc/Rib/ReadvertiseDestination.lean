import NdnFc.Rib.RibContents

/-!
# The destination of readvertisements

`NfdRibReadvertiseDestination` is available while the RIB has an entry that covers the prefix of its
commands. It is told when an entry is inserted or erased, and changes its availability without a
look at the RIB.
-/

namespace NdnFc

open Rib

/-- `NfdRibReadvertiseDestination` with the RIB that it observes. -/
structure ReadvertiseDestination where
  rib : Rib
  isAvailable : Bool

namespace ReadvertiseDestination

variable {commandPrefix : Name} {d : ReadvertiseDestination}

def handleRibInsert (commandPrefix name : Name) (isAvailable : Bool) : Bool :=
  if name.isPrefixOf commandPrefix then true else isAvailable

def handleRibErase (commandPrefix name : Name) (isAvailable : Bool) : Bool :=
  if name.isPrefixOf commandPrefix then false else isAvailable

/-- An operation on the RIB, which signals a new entry with `afterInsertEntry` and the loss of one with
`afterEraseEntry`. -/
def step (commandPrefix : Name) (d : ReadvertiseDestination) (op : Op) : ReadvertiseDestination where
  rib := d.rib.step op
  isAvailable :=
    match d.rib.find op.name, (d.rib.step op).find op.name with
    | none, some _ => handleRibInsert commandPrefix op.name d.isAvailable
    | some _, none => handleRibErase commandPrefix op.name d.isAvailable
    | _, _ => d.isAvailable

/-- An entry of the RIB covers the prefix of the commands. -/
def IsCovered (commandPrefix : Name) (rib : Rib) : Prop :=
  ∃ e ∈ rib.entries, e.name <+: commandPrefix

/-- An operation that takes a covering entry away takes the last one. -/
def TakesLast (commandPrefix : Name) (d : ReadvertiseDestination) (op : Op) : Prop :=
  op.name <+: commandPrefix → d.rib.Has op.name → ¬ (d.rib.step op).Has op.name →
    ¬ IsCovered commandPrefix (d.rib.step op)

theorem isCovered_iff {rib : Rib} :
    IsCovered commandPrefix rib ↔ ∃ n, n <+: commandPrefix ∧ rib.Has n := by
  simp only [IsCovered, Has, find, KeyedList.isSome_get?_iff, List.mem_map]
  constructor
  · rintro ⟨e, he, hprefix⟩
    exact ⟨e.name, hprefix, e, he, rfl⟩
  · rintro ⟨-, hprefix, e, he, rfl⟩
    exact ⟨e, he, hprefix⟩

theorem available_step_iff (h : d.rib.Sound) (op : Op)
    (hright : d.isAvailable = true ↔ IsCovered commandPrefix d.rib) :
    ((d.step commandPrefix op).isAvailable = true ↔
      IsCovered commandPrefix (d.step commandPrefix op).rib) ↔ d.TakesLast commandPrefix op := by
  -- the entries of other names cover the prefix before and after
  have hsplit : ∀ rib : Rib, (∀ m, m ≠ op.name → (rib.Has m ↔ d.rib.Has m)) →
      (IsCovered commandPrefix rib ↔ (op.name <+: commandPrefix ∧ rib.Has op.name) ∨
        ∃ m, m ≠ op.name ∧ m <+: commandPrefix ∧ d.rib.Has m) := by
    intro rib hother
    rw [isCovered_iff]
    constructor
    · rintro ⟨m, hm, hhas⟩
      by_cases hname : m = op.name
      · exact .inl (hname ▸ ⟨hm, hhas⟩)
      · exact .inr ⟨m, hname, hm, (hother m hname).mp hhas⟩
    · rintro (⟨hm, hhas⟩ | ⟨m, hname, hm, hhas⟩)
      · exact ⟨op.name, hm, hhas⟩
      · exact ⟨m, hm, (hother m hname).mpr hhas⟩
  have hafter := hsplit (d.rib.step op) fun _ hm => h.has_step_iff op hm
  rw [hsplit d.rib fun _ _ => Iff.rfl] at hright
  have hprefix : op.name.isPrefixOf commandPrefix = true ↔ op.name <+: commandPrefix :=
    List.isPrefixOf_iff_prefix
  generalize (∃ m, m ≠ op.name ∧ m <+: commandPrefix ∧ d.rib.Has m) = covered at hright hafter
  simp only [step, TakesLast, hafter, handleRibInsert, handleRibErase, Has] at hright ⊢
  cases hbefore : d.rib.find op.name <;> cases hnow : (d.rib.step op).find op.name <;>
    by_cases hp : op.name <+: commandPrefix <;> simp_all

/-- From an unavailable destination, it says throughout a run whether an entry covers the prefix
exactly when none does at first and no operation takes one of several covering entries away. -/
theorem available_run_iff (commandPrefix : Name) (before ops : List Op) :
    (∀ front, front <+: ops →
      ((Run.run (step commandPrefix) ⟨Run.run Rib.step empty before, false⟩ front).isAvailable =
          true ↔
        ∃ e ∈ (Run.run (step commandPrefix) ⟨Run.run Rib.step empty before, false⟩
          front).rib.entries, e.name <+: commandPrefix)) ↔
      ¬ IsCovered commandPrefix (Run.run Rib.step empty before) ∧
        Run.Meets (step commandPrefix) (TakesLast commandPrefix)
          ⟨Run.run Rib.step empty before, false⟩ ops := by
  refine Iff.trans (and_iff_right_of_imp fun h hcovered => ?_).symm (and_congr_right fun hfirst => ?_)
  · exact Bool.false_ne_true ((h [] List.nil_prefix).mpr hcovered)
  · exact Run.invariant_iff_meets_of (fun d : ReadvertiseDestination => d.rib.Sound)
      (fun d => d.isAvailable = true ↔ IsCovered commandPrefix d.rib) (fun d op h => h.step op)
      (fun d op h hright => available_step_iff h op hright) (sound_run before)
      (by simpa using hfirst)

/-- Two entries cover the prefix, and one of them is erased. -/
theorem unavailable_covered :
    let d := Run.run (step [.generic [97]]) ⟨empty, false⟩
      [.insert [] ⟨1, 0, 0, 0⟩, .insert [.generic [97]] ⟨1, 0, 0, 0⟩,
        .erase [.generic [97]] ⟨1, 0, 0, 0⟩]
    d.isAvailable = false ∧ ∃ e ∈ d.rib.entries, e.name <+: [.generic [97]] := by
  decide

end ReadvertiseDestination

end NdnFc
