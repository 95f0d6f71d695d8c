import NdnFc.Lib.Chrono
import NdnFc.Lib.Run
import NdnFc.Name.Basic

/-!
# Groups of trust anchors

A group (`ndn-cxx/security/trust-anchor-group.cpp`) lists the names of its anchors; the
certificates, known by their names here, are in a container that the groups share. A dynamic group
loads its anchors from files, again when its refresh period is over. What a group drops is removed
from the container, also when another group lists it.
-/

namespace NdnFc.Security

open List Chrono

namespace TrustAnchorGroup

/-- The names that a group lists, and those in the container. -/
abbrev Names := List Name × List Name

/-- `StaticTrustAnchorGroup::add` -/
def add (s : Names) (certName : Name) : Names :=
  if s.1.contains certName then s else (certName :: s.1, s.2.insert certName)

/-- `StaticTrustAnchorGroup::remove` -/
def remove (s : Names) (certName : Name) : Names :=
  (s.1.filter (· ≠ certName), s.2.filter (· ≠ certName))

/-- `loadCert` in `DynamicTrustAnchorGroup::refresh`. -/
def loadCert (s : Names × List Name) (certName : Name) : Names × List Name :=
  if s.1.1.contains certName then (s.1, s.2.filter (· ≠ certName)) else (add s.1 certName, s.2)

/-- `DynamicTrustAnchorGroup::refresh` when the period is over, with the certificates in the files. -/
def reload (s : Names) (files : List Name) : Names :=
  let (s', oldAnchorNames) := files.foldl loadCert (s, s.1)
  oldAnchorNames.foldl remove s'

/-- Some names are added and then some are dropped, in the group and in the container. -/
def Changed (s s' : Names) (added dropped : List Name) : Prop :=
  (∀ n, n ∈ s'.1 ↔ (n ∈ s.1 ∨ n ∈ added) ∧ n ∉ dropped) ∧
    ∀ n, n ∈ s'.2 ↔ (n ∈ s.2 ∨ n ∈ added) ∧ n ∉ dropped

variable {s : Names}

theorem changed_add (h : s.1 ⊆ s.2) (certName : Name) : Changed s (add s certName) [certName] [] := by
  unfold Changed add
  split_ifs <;> grind

theorem changed_foldl_remove (l : List Name) : Changed s (l.foldl remove s) [] l := by
  induction l generalizing s with
  | nil => simp [Changed]
  | cons certName l ih =>
    have h := ih (s := remove s certName)
    unfold Changed at h ⊢
    rw [foldl_cons]
    grind [remove]

theorem changed_foldl_loadCert (h : s.1 ⊆ s.2) (files : List Name) {old : List Name} (hold : old ⊆ s.1) :
    Changed s (files.foldl loadCert (s, old)).1 files [] ∧
      ∀ n, n ∈ (files.foldl loadCert (s, old)).2 ↔ n ∈ old ∧ n ∉ files := by
  induction files generalizing s old with
  | nil => simp [Changed]
  | cons certName files ih =>
    have hadd := changed_add h certName
    unfold Changed at hadd ih ⊢
    rw [foldl_cons, loadCert]
    split_ifs with hlisted
    · have hrest := ih h (show old.filter (· ≠ certName) ⊆ s.1 by grind)
      grind
    · have hrest := ih (s := add s certName) (by grind) (show old ⊆ _ by grind)
      grind

theorem changed_reload (h : s.1 ⊆ s.2) (files : List Name) :
    Changed s (reload s files) files (s.1.filter (· ∉ files)) := by
  obtain ⟨hloaded, hold⟩ := changed_foldl_loadCert h files (Subset.refl _)
  have hremoved := changed_foldl_remove (s := (files.foldl loadCert (s, s.1)).1)
    (files.foldl loadCert (s, s.1)).2
  unfold Changed at hloaded hremoved ⊢
  rw [reload]
  grind

end TrustAnchorGroup

/-- A static or dynamic group, with the names that it lists. -/
structure TrustAnchorGroup where
  isStatic : Bool
  anchorNames : List Name

/-- `TrustAnchorContainer`: the groups by their identifiers, and the certificates. -/
structure TrustAnchorContainer where
  groups : String → Option TrustAnchorGroup
  anchors : List Name

namespace TrustAnchorContainer

open TrustAnchorGroup

/-- What happens to a container. When a dynamic group is created or refreshed it finds the certificates
that are in its files then. -/
inductive Event where
  | insert (groupId : String) (certName : Name)
  | insertDynamic (groupId : String) (files : List Name)
  | remove (groupId : String) (certName : Name)
  | refresh (groupId : String) (files : List Name)
  | clear

def empty : TrustAnchorContainer := ⟨fun _ => none, []⟩

variable (s : TrustAnchorContainer)

/-- Change what a group lists, and the container. -/
def modify (groupId : String) (group : TrustAnchorGroup) (f : Names → Names) : TrustAnchorContainer :=
  let (anchorNames, anchors) := f (group.anchorNames, s.anchors)
  ⟨Function.update s.groups groupId (some { group with anchorNames }), anchors⟩

/-- A call that throws leaves the container as it is. -/
def step : Event → TrustAnchorContainer
  | .insert groupId certName =>
    let group := (s.groups groupId).getD ⟨true, []⟩
    if group.isStatic then s.modify groupId group (add · certName) else s
  | .insertDynamic groupId files =>
    if (s.groups groupId).isSome then s else s.modify groupId ⟨false, []⟩ (reload · files)
  | .remove groupId certName =>
    match s.groups groupId with
    | some group => if group.isStatic then s.modify groupId group (remove · certName) else s
    | none => s
  | .refresh groupId files =>
    match s.groups groupId with
    | some group => if group.isStatic then s else s.modify groupId group (reload · files)
    | none => s
  | .clear => empty

def listed (groupId : String) : List Name :=
  (s.groups groupId).elim [] anchorNames

/-- The container has the certificates that some group lists. -/
def Agrees : Prop :=
  ∀ n, n ∈ s.anchors ↔ ∃ groupId, n ∈ s.listed groupId

/-- What an event takes from a group is not listed by another group. -/
def TakesOwn : Event → Prop
  | .remove groupId certName =>
    (s.groups groupId).any isStatic → ∀ other ≠ groupId, certName ∉ s.listed other
  | .refresh groupId files =>
    (s.groups groupId).any (!·.isStatic) → ∀ n ∈ s.listed groupId, n ∉ files →
      ∀ other ≠ groupId, n ∉ s.listed other
  | _ => True

variable {s} {groupId : String} {group : TrustAnchorGroup} {f : Names → Names} {added dropped : List Name}

theorem agrees_modify_iff (h : s.Agrees) (hgroup : s.listed groupId = group.anchorNames)
    (hf : group.anchorNames ⊆ s.anchors →
      Changed (group.anchorNames, s.anchors) (f (group.anchorNames, s.anchors)) added dropped) :
    (s.modify groupId group f).Agrees ↔ ∀ n ∈ dropped, ∀ other ≠ groupId, n ∉ s.listed other := by
  obtain ⟨hnames, hanchors⟩ := hf fun n hn => (h n).mpr ⟨groupId, hgroup ▸ hn⟩
  have hlisted (other : String) : (s.modify groupId group f).listed other =
      if other = groupId then (f (group.anchorNames, s.anchors)).1 else s.listed other := by
    by_cases hne : other = groupId <;> simp [listed, modify, hne]
  have hmem (n : Name) : n ∈ (s.modify groupId group f).anchors ↔ _ := hanchors n
  unfold Agrees at h ⊢
  grind

theorem agrees_step_iff (h : s.Agrees) (e : Event) : (s.step e).Agrees ↔ s.TakesOwn e := by
  cases e with
  | insert groupId certName =>
    have hgroup : s.listed groupId = ((s.groups groupId).getD ⟨true, []⟩).anchorNames := by
      cases hg : s.groups groupId <;> simp [listed, hg]
    simp only [step, TakesOwn, iff_true]
    split_ifs
    · exact (agrees_modify_iff h hgroup fun hs => changed_add hs certName).mpr (by simp)
    · exact h
  | insertDynamic groupId files =>
    simp only [step, TakesOwn, iff_true]
    split_ifs with hnew
    · exact h
    · have hgroup : s.listed groupId = [] := by simp_all [listed]
      exact (agrees_modify_iff h hgroup fun hs => changed_reload hs files).mpr (by simp)
  | remove groupId certName =>
    cases hg : s.groups groupId with
    | none => simpa [step, TakesOwn, hg] using h
    | some group =>
      have hgroup : s.listed groupId = group.anchorNames := by simp [listed, hg]
      have hiff := agrees_modify_iff h hgroup (f := (remove · certName))
        fun _ => changed_foldl_remove [certName]
      cases hstatic : group.isStatic <;> simp [step, TakesOwn, hg, hstatic, h, hiff]
  | refresh groupId files =>
    cases hg : s.groups groupId with
    | none => simpa [step, TakesOwn, hg] using h
    | some group =>
      have hgroup : s.listed groupId = group.anchorNames := by simp [listed, hg]
      have hiff := agrees_modify_iff h hgroup (f := (reload · files)) fun hs => changed_reload hs files
      cases hstatic : group.isStatic <;> simp [step, TakesOwn, hg, hstatic, h, hiff, hgroup]
  | clear => simp [step, TakesOwn, Agrees, empty, listed]

/-- The container has throughout a run the certificates that some group lists exactly when no event
takes from a group what another group lists. -/
theorem agrees_run_iff (events : List Event) :
    (∀ front, front <+: events → ∀ n, n ∈ (Run.run step empty front).anchors ↔
      ∃ groupId, n ∈ (Run.run step empty front).listed groupId) ↔
      Run.Meets step TakesOwn empty events :=
  Run.invariant_iff_meets Agrees (fun _ e h => agrees_step_iff h e) (by simp [Agrees, empty, listed])

/-- Two groups list a certificate, and one of them removes it. -/
theorem listed_notMem_anchors :
    let s := Run.run step empty [.insert "a" [], .insert "b" [], .remove "a" []]
    [] ∈ s.listed "b" ∧ [] ∉ s.anchors := by
  decide

end TrustAnchorContainer

/-! ### The refresh period -/

/-- `boost::lexical_cast<int32_t>` -/
def toInt32? (s : List Char) : Option ℤ :=
  let digits := if s.head? = some '-' ∨ s.head? = some '+' then s.tail else s
  let number : ℤ := digits.foldl (fun n c => 10 * n + (c.toNat - '0'.toNat)) 0
  let value := if s.head? = some '-' then -number else number
  if digits ≠ [] ∧ digits.all Char.isDigit ∧ -2 ^ 31 ≤ value ∧ value < 2 ^ 31 then some value else none

/-- `ValidationPolicyConfig::getRefreshPeriod`, as the exact number of nanoseconds, for what the
configuration says. -/
def getRefreshPeriod : Option (List Char) → Except String ℤ
  | none => .ok (2 ^ 63 - 1)
  | some inputString =>
    let refreshString := inputString.dropLast
    let refreshPeriod := (toInt32? refreshString).getD (-1)
    if refreshPeriod < 0 then .error ("Bad refresh value: " ++ String.ofList refreshString)
    else if refreshPeriod = 0 then .ok (3600 * 10 ^ 9)
    else match inputString.getLast? with
      | some 'h' => .ok (refreshPeriod * (3600 * 10 ^ 9))
      | some 'm' => .ok (refreshPeriod * (60 * 10 ^ 9))
      | some 's' => .ok (refreshPeriod * 10 ^ 9)
      | unit => .error ("Bad refresh time unit: " ++ String.ofList unit.toList)

/-- The times of a `DynamicTrustAnchorGroup`. -/
structure DynamicTrustAnchorGroup where
  refreshPeriod : ℤ
  expireTime : TimePoint
deriving DecidableEq

namespace DynamicTrustAnchorGroup

/-- `refresh`, with whether the group reloads. There is no result when the period or the sum is not a
64-bit number of nanoseconds. -/
def refresh (g : DynamicTrustAnchorGroup) (now : TimePoint) : Option (DynamicTrustAnchorGroup × Bool) :=
  if now.count < g.expireTime.count then some (g, false)
  else if InRange g.refreshPeriod then
    if h : InRange (now.count + g.refreshPeriod) then some ({ g with expireTime := ⟨_, h⟩ }, true)
    else none
  else none

theorem getRefreshPeriod_pos {refresh : Option (List Char)} {period : ℤ}
    (h : getRefreshPeriod refresh = .ok period) : 0 < period := by
  cases refresh with
  | none => cases h; decide
  | some inputString =>
    simp only [getRefreshPeriod] at h
    split_ifs at h
    · cases h; decide
    · split at h <;> cases h <;> omega

/-- A group that reloads does not look again before its period is over and does so afterwards,
exactly when the end of the period is a time of the clock. -/
theorem refresh_iff {refresh : Option (List Char)} {g : DynamicTrustAnchorGroup}
    (hperiod : getRefreshPeriod refresh = .ok g.refreshPeriod) {t : Reading}
    (ht : g.expireTime.count ≤ t.count) :
    (∃ g', g.refresh t.toTimePoint = some (g', true) ∧
      ∀ now, g'.refresh now = some (g', false) ↔ now.count < t.count + g.refreshPeriod) ↔
      t.count + g.refreshPeriod < 2 ^ 63 := by
  have hpos := getRefreshPeriod_pos hperiod
  have hnonneg := t.nonneg
  rw [DynamicTrustAnchorGroup.refresh, if_neg ht.not_gt]
  constructor
  · rintro ⟨g', hg', -⟩
    split_ifs at hg' with _ hsum
    exact hsum.2
  · intro hsum
    have hin : InRange (t.count + g.refreshPeriod) := ⟨by omega, hsum⟩
    rw [if_pos ⟨by omega, by omega⟩, dif_pos hin]
    refine ⟨_, rfl, fun now => ?_⟩
    unfold DynamicTrustAnchorGroup.refresh
    split_ifs <;> simp_all

theorem refresh_second : getRefreshPeriod (some ['1', 's']) = .ok (10 ^ 9) ∧
    ∃ g', refresh ⟨10 ^ 9, ⟨0, by decide⟩⟩ ⟨0, by decide⟩ = some (g', true) ∧
      ∀ now, g'.refresh now = some (g', false) ↔ now.count < 0 + 10 ^ 9 :=
  have hperiod : getRefreshPeriod (some ['1', 's']) = .ok (10 ^ 9) := rfl
  ⟨hperiod, (refresh_iff (g := ⟨10 ^ 9, ⟨0, by decide⟩⟩) (t := ⟨⟨0, by decide⟩, le_rfl⟩)
    hperiod le_rfl).mpr (by decide)⟩

/-- Without a configured period the first reload overflows, as soon as the clock does not show zero. -/
theorem refresh_unconfigured : getRefreshPeriod none = .ok (2 ^ 63 - 1) ∧
    refresh ⟨2 ^ 63 - 1, ⟨0, by decide⟩⟩ ⟨1, by decide⟩ = none := by
  decide

end DynamicTrustAnchorGroup

end NdnFc.Security
