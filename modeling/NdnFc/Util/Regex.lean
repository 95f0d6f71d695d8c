import NdnFc.Name.Basic

/-!
# Regular expressions over names

The matchers to which an expression is compiled (`ndn-cxx/util/regex`) search by backtracking. A
repetition goes on after an empty match, and only the limit on its rounds ends that.
-/

namespace NdnFc

open List

/-- The matchers; a component is matched by a predicate. A pattern list, and the group around it, is a
chain of matchers. -/
inductive RegexMatcher where
  | componentSet (isInclusion : Bool) (components : List (Component → Bool))
  | done
  | chain (matcher rest : RegexMatcher)
  | repetition (repeatMin repeatMax : ℕ) (matcher : RegexMatcher)

namespace RegexMatcher

variable {α : Type} {w : List α} {n depth : ℕ} {f : ℕ → Option Bool}

/-- The loop over the lengths that are tried, the longest first. -/
def tryAll (f : ℕ → Option Bool) : ℕ → Option Bool
  | 0 => f 0
  | tried + 1 => do if ← f (tried + 1) then some true else tryAll f tried

/-- `matcher->match(…) && recursiveMatch(…)` for some length. -/
def split (first rest : List α → Option Bool) (w : List α) : Option Bool :=
  tryAll (fun tried => do if ← first (w.take tried) then rest (w.drop tried) else some false) w.length

/-- `RegexRepeatMatcher::recursiveMatch`, or `none` where the calls are nested deeper than allowed. -/
def recursiveMatch (matcher : ℕ → List α → Option Bool) (repeatMin repeatMax : ℕ) :
    ℕ → ℕ → List α → Option Bool
  | 0, _, _ => none
  | depth + 1, rounds, w =>
    if w ≠ [] ∧ repeatMax ≤ rounds then some false
    else if w = [] then some (decide (repeatMin ≤ rounds))
    else split (matcher depth) (recursiveMatch matcher repeatMin repeatMax depth (rounds + 1)) w

/-- `match` of a part of a name. -/
def matchAt : RegexMatcher → ℕ → List Component → Option Bool
  | _, 0, _ => none
  | componentSet isInclusion components, _ + 1, w =>
    match w with
    | [c] => some (components.any (· c) == isInclusion)
    | _ => some false
  | done, _ + 1, w => some w.isEmpty
  | chain matcher rest, depth + 1, w => split (matcher.matchAt depth) (rest.matchAt depth) w
  | repetition repeatMin repeatMax matcher, depth + 1, w =>
    if repeatMin = 0 ∧ w = [] then some true
    else recursiveMatch matcher.matchAt repeatMin repeatMax depth 0 w

/-- How deep the calls are nested at most. -/
def nesting : RegexMatcher → ℕ
  | componentSet .. | done => 1
  | chain matcher rest => max matcher.nesting rest.nesting + 1
  | repetition _ repeatMax matcher => matcher.nesting + repeatMax + 2

/-- The sequences of an expression. If `strict`, a repetition with a positive minimum is not for the
empty sequence. -/
def Denotes (strict : Bool) : RegexMatcher → List Component → Prop
  | componentSet isInclusion components, w => ∃ c, w = [c] ∧ components.any (· c) = isInclusion
  | done, w => w = []
  | chain matcher rest, w => ∃ u v, w = u ++ v ∧ matcher.Denotes strict u ∧ rest.Denotes strict v
  | repetition repeatMin repeatMax matcher, w => (strict → w = [] → repeatMin = 0) ∧
    ∃ parts : List (List Component), w = parts.flatten ∧ repeatMin ≤ parts.length ∧
      parts.length ≤ repeatMax ∧ ∀ part ∈ parts, matcher.Denotes strict part

theorem Denotes.weaken {m : RegexMatcher} {w : List Component} (h : m.Denotes true w) :
    m.Denotes false w := by
  induction m generalizing w with
  | componentSet isInclusion components => exact h
  | done => exact h
  | chain matcher rest ihm ihr =>
    obtain ⟨u, v, hw, hu, hv⟩ := h
    exact ⟨u, v, hw, ihm hu, ihr hv⟩
  | repetition repeatMin repeatMax matcher ih =>
    obtain ⟨-, parts, hw, hmin, hmax, hparts⟩ := h
    exact ⟨by simp, parts, hw, hmin, hmax, fun part hpart => ih (hparts part hpart)⟩

/-! ### The search -/

/-- The search ends and tells whether the condition holds. -/
def Decides (r : Option Bool) (P : Prop) : Prop :=
  r = some true ∧ P ∨ r = some false ∧ ¬ P

theorem decides_tryAll {P : ℕ → Prop} (h : ∀ tried, Decides (f tried) (P tried)) :
    Decides (tryAll f n) (∃ tried ≤ n, P tried) := by
  induction n with
  | zero => simpa [tryAll] using h 0
  | succ n ih =>
    rcases h (n + 1) with ⟨hf, hP⟩ | ⟨hf, hP⟩
    · exact .inl ⟨by simp [tryAll, hf], n + 1, le_rfl, hP⟩
    · have hless : (∃ tried ≤ n + 1, P tried) ↔ ∃ tried ≤ n, P tried := by
        grind
      rw [hless]
      simpa [tryAll, hf] using ih

theorem decides_split {first rest : List α → Option Bool} {P Q : List α → Prop}
    (hfirst : ∀ u, Decides (first u) (P u)) (hrest : ∀ u, Decides (rest u) (Q u)) :
    Decides (split first rest w) (∃ u v, w = u ++ v ∧ P u ∧ Q v) := by
  have hsplit : (∃ u v, w = u ++ v ∧ P u ∧ Q v) ↔
      ∃ tried ≤ w.length, P (w.take tried) ∧ Q (w.drop tried) := by
    constructor
    · rintro ⟨u, v, rfl, hP, hQ⟩
      exact ⟨u.length, by simp, by simpa using ⟨hP, hQ⟩⟩
    · rintro ⟨tried, -, hP, hQ⟩
      exact ⟨_, _, (take_append_drop tried w).symm, hP, hQ⟩
  rw [hsplit]
  refine decides_tryAll fun tried => ?_
  rcases hfirst (w.take tried) with ⟨hf, hP⟩ | ⟨hf, hP⟩
  · simpa [hf, hP] using hrest (w.drop tried)
  · exact .inr ⟨by simp [hf], fun h => hP h.1⟩

variable {P : List α → Prop} {repeatMin repeatMax rounds : ℕ}

/-- The parts that are missing after some rounds make up the sequence. None is missing for the empty
one. -/
def Iterates (P : List α → Prop) (repeatMin repeatMax rounds : ℕ) (w : List α) : Prop :=
  ∃ parts : List (List α), w = parts.flatten ∧ repeatMin ≤ rounds + parts.length ∧
    rounds + parts.length ≤ repeatMax ∧ (∀ part ∈ parts, P part) ∧ (w = [] → parts = [])

theorem iterates_iff (hw : w ≠ []) : Iterates P repeatMin repeatMax rounds w ↔
    ∃ u v, w = u ++ v ∧ P u ∧ Iterates P repeatMin repeatMax (rounds + 1) v := by
  constructor
  · rintro ⟨parts, rfl, hmin, hmax, hparts, -⟩
    obtain _ | ⟨u, parts⟩ := parts
    · exact absurd rfl hw
    by_cases hrest : parts.flatten = [] → parts = []
    · exact ⟨u, _, rfl, by grind, parts, rfl, by grind⟩
    · -- An empty part can as well be the first one.
      obtain ⟨hnil, hne⟩ := Classical.not_imp.mp hrest
      obtain ⟨v, parts, rfl⟩ := exists_cons_of_ne_nil hne
      obtain ⟨rfl, -⟩ := append_eq_nil_iff.mp hnil
      refine ⟨[], _, rfl, hparts [] (by simp), u :: parts, rfl, by grind, by grind,
        fun part hpart => hparts part (by grind), fun h => absurd h hw⟩
  · rintro ⟨u, v, rfl, hu, parts, rfl, hmin, hmax, hparts, -⟩
    exact ⟨u :: parts, rfl, by grind⟩

theorem decides_recursiveMatch {matcher : ℕ → List α → Option Bool} {d : ℕ}
    (h : ∀ depth, d ≤ depth → ∀ u, Decides (matcher depth u) (P u)) (hrounds : rounds ≤ repeatMax)
    (hdepth : d + (repeatMax - rounds) < depth) :
    Decides (recursiveMatch matcher repeatMin repeatMax depth rounds w)
      (Iterates P repeatMin repeatMax rounds w) := by
  induction depth generalizing rounds w with
  | zero => omega
  | succ depth ih =>
    rw [recursiveMatch]
    split_ifs with hmax hw
    · refine .inr ⟨rfl, ?_⟩
      rintro ⟨parts, rfl, -, hle, -⟩
      obtain rfl : parts = [] := length_eq_zero_iff.mp (by omega)
      exact hmax.1 rfl
    · have hiff : Iterates P repeatMin repeatMax rounds w ↔ repeatMin ≤ rounds :=
        ⟨by grind [Iterates], fun hmin => ⟨[], hw, hmin, hrounds, by simp, fun _ => rfl⟩⟩
      simp [Decides, hiff, le_or_gt]
    · have hlt : rounds < repeatMax := not_le.mp fun hle => hmax ⟨hw, hle⟩
      rw [iterates_iff hw]
      exact decides_split (h depth (by omega)) fun _ => ih hlt (by omega)

theorem decides_matchAt (m : RegexMatcher) (h : m.nesting ≤ depth) (w : List Component) :
    Decides (m.matchAt depth w) (m.Denotes true w) := by
  induction m generalizing depth w with
  | componentSet isInclusion components =>
    obtain _ | depth := depth
    · cases h
    unfold matchAt
    split
    · simp [Decides, Denotes, em]
    next hne => exact .inr ⟨rfl, fun ⟨c, hc, _⟩ => hne c hc⟩
  | done =>
    obtain _ | depth := depth
    · cases h
    · simp [matchAt, Decides, Denotes, em]
  | chain matcher rest ihm ihr =>
    rw [nesting] at h
    obtain _ | depth := depth
    · omega
    · exact decides_split (ihm (by omega)) (ihr (by omega))
  | repetition repeatMin repeatMax matcher ih =>
    rw [nesting] at h
    obtain _ | depth := depth
    · omega
    rw [matchAt]
    split_ifs with hempty
    · exact .inl ⟨rfl, fun _ _ => hempty.1, [], hempty.2, by simp [hempty.1]⟩
    · have hiff : (repetition repeatMin repeatMax matcher).Denotes true w ↔
          Iterates (matcher.Denotes true) repeatMin repeatMax 0 w := by
        grind [Denotes, Iterates]
      rw [hiff]
      exact decides_recursiveMatch (fun _ hle => ih hle) (Nat.zero_le _) (by omega)

/-- `<.*>*` -/
def anything : RegexMatcher :=
  repetition 0 (2 ^ 64 - 1) (componentSet true [fun _ => true])

theorem denotes_anything {strict : Bool} {name : Name} (h : name.length < 2 ^ 64) :
    anything.Denotes strict name :=
  ⟨fun _ _ => rfl, name.map ([·]), (flatMap_singleton' name).symm, Nat.zero_le _,
    by rw [length_map]; omega, by simp [Denotes]⟩

/-- A list of patterns, and what comes after it. -/
def list (patterns : List RegexMatcher) (rest : RegexMatcher) : RegexMatcher :=
  patterns.foldr chain rest

theorem denotes_list {strict : Bool} {patterns : List RegexMatcher} {rest : RegexMatcher}
    {name : Name} : (list patterns rest).Denotes strict name ↔
      ∃ u v, name = u ++ v ∧ (list patterns done).Denotes strict u ∧ rest.Denotes strict v := by
  induction patterns generalizing name with
  | nil => simp [list, Denotes]
  | cons m patterns ih =>
    constructor
    · rintro ⟨u, v, rfl, hu, hv⟩
      obtain ⟨v, v', rfl, hv, hrest⟩ := ih.mp hv
      exact ⟨u ++ v, v', (append_assoc ..).symm, ⟨u, v, rfl, hu, hv⟩, hrest⟩
    · rintro ⟨-, v', rfl, ⟨u, v, rfl, hu, hv⟩, hrest⟩
      exact ⟨u, v ++ v', append_assoc .., hu, ih.mpr ⟨v, v', rfl, hv, hrest⟩⟩

end RegexMatcher

structure RegexTopMatcher where
  primaryMatcher : RegexMatcher
  secondaryMatcher : Option RegexMatcher

/-- An expression between its anchors. -/
structure RegexExpr where
  isAnchoredStart : Bool
  isAnchoredEnd : Bool
  patterns : List RegexMatcher

namespace RegexTopMatcher

open RegexMatcher

def compile (e : RegexExpr) : RegexTopMatcher :=
  let expr := list e.patterns (if e.isAnchoredEnd then done else chain anything done)
  ⟨expr, if e.isAnchoredStart then none else some (chain anything expr)⟩

variable (m : RegexTopMatcher)

/-- `match`, for a number of calls that may be nested. -/
def matchName (depth : ℕ) (name : Name) : Option Bool := do
  if ← m.primaryMatcher.matchAt depth name then some true
  else m.secondaryMatcher.elim (some false) (·.matchAt depth name)

def nesting : ℕ :=
  max m.primaryMatcher.nesting (m.secondaryMatcher.elim 0 RegexMatcher.nesting)

/-- The names that `matchName` finds. -/
def Finds (name : Name) : Prop :=
  m.primaryMatcher.Denotes true name ∨ m.secondaryMatcher.elim False (·.Denotes true name)

theorem decides_matchName (name : Name) (more : ℕ) :
    Decides (m.matchName (m.nesting + more) name) (m.Finds name) := by
  have hle := Nat.le_add_right m.nesting more
  rcases m.primaryMatcher.decides_matchAt ((le_max_left ..).trans hle) name with ⟨hb, h⟩ | ⟨hb, h⟩
  · exact .inl ⟨by simp [matchName, hb], .inl h⟩
  · replace hle := (le_max_right ..).trans hle
    cases hsecondary : m.secondaryMatcher with
    | none => exact .inr ⟨by simp [matchName, hb, hsecondary], by simp [Finds, h, hsecondary]⟩
    | some m' =>
      rw [hsecondary] at hle
      simpa [matchName, Finds, hb, h, hsecondary] using m'.decides_matchAt hle name

/-- The names of an expression. -/
def Language (strict : Bool) (e : RegexExpr) (name : Name) : Prop :=
  ∃ front middle back, name = front ++ (middle ++ back) ∧ (e.isAnchoredStart → front = []) ∧
    (list e.patterns done).Denotes strict middle ∧ (e.isAnchoredEnd → back = [])

variable {e : RegexExpr} {name : Name}

theorem finds_compile_iff (hname : name.length < 2 ^ 64) :
    (compile e).Finds name ↔ Language true e name := by
  have hstart : (compile e).Finds name ↔
      ∃ front rest, name = front ++ rest ∧ (e.isAnchoredStart → front = []) ∧
        (compile e).primaryMatcher.Denotes true rest := by
    cases hanchored : e.isAnchoredStart with
    | true => simp [compile, Finds, hanchored]
    | false =>
      simp only [compile, Finds, hanchored]
      refine ⟨?_, fun ⟨u, v, h, _, hv⟩ => .inr ⟨u, v, h, denotes_anything (by grind), hv⟩⟩
      rintro (h | ⟨u, v, h, -, hv⟩)
      · exact ⟨[], name, rfl, by simp, h⟩
      · exact ⟨u, v, h, by simp, hv⟩
  have hend : ∀ back : Name, back.length < 2 ^ 64 → ((e.isAnchoredEnd → back = []) ↔
      (if e.isAnchoredEnd then done else chain anything done).Denotes true back) := by
    intro back hlt
    split_ifs with hanchored <;> simp [hanchored, Denotes, denotes_anything hlt]
  rw [hstart]
  constructor
  · rintro ⟨front, rest, rfl, hfront, hrest⟩
    obtain ⟨middle, back, rfl, h, hback⟩ := denotes_list.mp hrest
    exact ⟨front, middle, back, rfl, hfront, h, (hend back (by grind)).mpr hback⟩
  · rintro ⟨front, middle, back, rfl, hfront, h, hback⟩
    exact ⟨front, _, rfl, hfront, denotes_list.mpr ⟨middle, back, rfl, h,
      (hend back (by grind)).mp hback⟩⟩

/-- A name is judged rightly unless it needs a repetition that asks for matches but is empty. -/
theorem matchName_compile_iff (hname : name.length < 2 ^ 64) (more : ℕ) :
    ((compile e).matchName ((compile e).nesting + more) name = some true ↔
      Language false e name) ↔ (Language false e name → Language true e name) := by
  have hdecides := decides_matchName (compile e) name more
  rw [finds_compile_iff hname] at hdecides
  have hweaken : Language true e name → Language false e name :=
    fun ⟨front, middle, back, hn, hfront, h, hback⟩ =>
      ⟨front, middle, back, hn, hfront, h.weaken, hback⟩
  grind [Decides]

/-- `^(<>?){1,2}$`, which does not find the empty name. -/
def optionalTwice : RegexExpr :=
  ⟨true, true, [repetition 1 2
    (list [list [repetition 0 1 (componentSet true [fun _ => true])] done] done)]⟩

theorem matchName_optionalTwice :
    (compile optionalTwice).matchName (compile optionalTwice).nesting [] = some false ∧
      Language false optionalTwice [] := by
  refine ⟨rfl, [], [], [], rfl, fun _ => rfl, ⟨[], [], rfl, ?_, rfl⟩, fun _ => rfl⟩
  refine ⟨by simp, [[]], rfl, le_rfl, by decide, ?_⟩
  simpa [list, Denotes] using ⟨[], by simp⟩

/-- It finds a name with one component. -/
theorem matchName_optionalTwice_one :
    (compile optionalTwice).matchName ((compile optionalTwice).nesting + 0) [.generic [97]] =
      some true ↔ Language false optionalTwice [.generic [97]] := by
  refine (matchName_compile_iff (by decide) 0).mpr fun _ => (finds_compile_iff (by decide)).mp ?_
  rcases decides_matchName (compile optionalTwice) [.generic [97]] 0 with ⟨-, h⟩ | ⟨h, -⟩
  · exact h
  · exact absurd h (by decide)

end RegexTopMatcher

end NdnFc
