import NdnFc.Rib.Rib

/-!
# Updates of the FIB

When a route changes, `FibUpdater` (`NFD-FC/daemon/rib/fib-updater.cpp`) issues updates of the FIB
for the entry of the route, with the lowest cost on the face, and for the entries that inherit the
route. The cost may be that of a route with the child-inherit flag only. A command that is not
answered is repeated as an addition of a next hop, also when it was a removal.
-/

namespace NdnFc

open List Option

/-- `FibUpdate::Action` -/
inductive FibUpdate.Action where
  | addNextHop
  | removeNextHop
deriving DecidableEq

structure FibUpdate where
  name : Name
  faceId : ℕ
  cost : ℕ
  action : FibUpdate.Action
deriving DecidableEq

namespace FibUpdate

def createAddUpdate (name : Name) (faceId cost : ℕ) : FibUpdate :=
  ⟨name, faceId, cost, .addNextHop⟩

/-- `createRemoveUpdate`, which leaves the cost at zero. -/
def createRemoveUpdate (name : Name) (faceId : ℕ) : FibUpdate :=
  ⟨name, faceId, 0, .removeNextHop⟩

end FibUpdate

namespace RibEntry

variable (select : Route → Bool)

/-- The first of the selected routes with the lowest cost. -/
def lowestCost (routes : List Route) : Option Route :=
  routes.foldl (fun candidate route =>
    if select route then
      match candidate with
      | none => some route
      | some best => if route.cost < best.cost then some route else some best
    else candidate) none

def getRouteWithLowestCostByFaceId (e : RibEntry) (faceId : ℕ) : Option Route :=
  lowestCost (fun r => r.faceId == faceId) e.routes

def getRouteWithLowestCostAndChildInheritByFaceId (e : RibEntry) (faceId : ℕ) : Option Route :=
  lowestCost (fun r => r.faceId == faceId && r.isChildInherit) e.routes

theorem lowestCost_cases (routes : List Route) :
    (lowestCost select routes = none ∧ ∀ r ∈ routes, ¬ select r) ∨
      ∃ best, lowestCost select routes = some best ∧ best ∈ routes ∧ select best ∧
        ∀ r ∈ routes, select r → best.cost ≤ r.cost := by
  have hargmin : lowestCost select routes = (routes.filter select).argmin Route.cost := by
    rw [lowestCost, argmin, foldl_filter]
    congr 1
    funext candidate route
    cases candidate <;> rfl
  rw [hargmin]
  cases hbest : (routes.filter select).argmin Route.cost with
  | none => exact .inl ⟨rfl, filter_eq_nil_iff.mp (argmin_eq_none.mp hbest)⟩
  | some best =>
    obtain ⟨hmem, hselect⟩ := mem_filter.mp (argmin_mem hbest)
    exact .inr ⟨best, rfl, hmem, hselect, fun r hr hrselect =>
      le_of_mem_argmin (mem_filter.mpr ⟨hr, hrselect⟩) hbest⟩

end RibEntry

namespace FibUpdater

/-! ### A changed route -/

/-- What a call issues: updates of the entry itself, in their order, and the routes that are to be added
to and removed from the entries below it. -/
structure Issued where
  updates : List FibUpdate
  children : List (List Route × List Route)

variable (entry : RibEntry)

/-- The updates of `addInheritedRoutes`. -/
def addInheritedRoutes (routesToAdd : List Route) : List FibUpdate :=
  (routesToAdd.filter fun r => !entry.hasFaceId r.faceId).map fun r =>
    .createAddUpdate entry.name r.faceId r.cost

/-- The updates of `removeInheritedRoutes`. -/
def removeInheritedRoutes (inherited routesToRemove : List Route) : List FibUpdate :=
  (routesToRemove.filter fun r => inherited.any fun i => i.faceId == r.faceId).map fun r =>
    .createRemoveUpdate entry.name r.faceId

/-- The update of the entry itself after a change of the cost, unless a null pointer is
dereferenced. -/
def updateForCost (route existing : Route) : Option (List FibUpdate) := do
  if route.cost = existing.cost then
    return []
  let lowest ← entry.getRouteWithLowestCostByFaceId route.faceId
  if route.cost ≤ lowest.cost then
    return [.createAddUpdate entry.name route.faceId route.cost]
  else if existing.cost < lowest.cost then
    -- selected among the routes with the child-inherit flag
    let prevRoute ← entry.getRouteWithLowestCostAndChildInheritByFaceId route.faceId
    return [.createAddUpdate entry.name prevRoute.faceId prevRoute.cost]
  else
    return []

/-- The part of `createFibUpdatesForUpdatedRoute` for a change of the child-inherit flag. -/
def updateForChildInherit (ancestorRoutes : List Route) (route existing : Route) :
    List (List Route × List Route) :=
  let prevRoute := entry.getRouteWithLowestCostAndChildInheritByFaceId route.faceId
  if !existing.isChildInherit && route.isChildInherit then
    if prevRoute.all fun prev => route.cost ≤ prev.cost then [([route], [])] else []
  else if existing.isChildInherit && !route.isChildInherit then
    let routesToAdd := prevRoute.or (ancestorRoutes.find? fun r => r.faceId == route.faceId)
    [(routesToAdd.toList, [route])]
  else []

/-- The part of `createFibUpdatesForUpdatedRoute` for a change of the capture flag. -/
def updateForCapture (inherited ancestorRoutes : List Route) (route existing : Route) : Issued :=
  if !existing.isRibCapture && route.isRibCapture then
    ⟨removeInheritedRoutes entry inherited ancestorRoutes, [([], ancestorRoutes)]⟩
  else if existing.isRibCapture && !route.isRibCapture then
    ⟨addInheritedRoutes entry ancestorRoutes, [(ancestorRoutes, [])]⟩
  else ⟨[], []⟩

/-- `createFibUpdatesForUpdatedRoute`, after the change of the route, with the inherited routes and
those of `getAncestorRoutes` given. -/
def createFibUpdatesForUpdatedRoute (inherited ancestorRoutes : List Route)
    (route existing : Route) : Option Issued := do
  if route.flags = existing.flags ∧ route.cost = existing.cost then
    return ⟨[], []⟩
  let own ← updateForCost entry route existing
  let prevRoute := entry.getRouteWithLowestCostAndChildInheritByFaceId route.faceId
  if route.cost ≠ existing.cost ∧ (prevRoute.all fun prev => route.cost ≤ prev.cost) ∧
      route.flags = existing.flags ∧ route.isChildInherit then
    return ⟨own, [([route], [])]⟩
  let capture := updateForCapture entry inherited ancestorRoutes route existing
  return ⟨own ++ capture.updates,
    updateForChildInherit entry ancestorRoutes route existing ++ capture.children⟩

/-- A route of the entry on the face has the cost, and none has a lower one. -/
def IsLowestCost (faceId cost : ℕ) : Prop :=
  (∃ r ∈ entry.routes, r.faceId = faceId ∧ r.cost = cost) ∧
    ∀ r ∈ entry.routes, r.faceId = faceId → cost ≤ r.cost

/-- The updates on the face are additions with the lowest cost. -/
def AddsLowest (faceId : ℕ) (updates : List FibUpdate) : Prop :=
  ∀ u ∈ updates, u.faceId = faceId → u.action = .addNextHop ∧ IsLowestCost entry faceId u.cost

/-- When the changed route no longer has the lowest cost on the face, a route that has it has the
child-inherit flag. -/
def KeepsInherited (route existing : Route) : Prop :=
  route.cost ≠ existing.cost → (∃ r ∈ entry.routes, r.faceId = route.faceId ∧ r.cost < route.cost) →
    (∀ r ∈ entry.routes, r.faceId = route.faceId → existing.cost < r.cost) →
    ∃ r ∈ entry.routes, r.faceId = route.faceId ∧ r.isChildInherit ∧
      IsLowestCost entry route.faceId r.cost

/-- The capture flag is turned on while the entry has inherited a route on the face. -/
def RemovesInherited (inherited ancestorRoutes : List Route) (route existing : Route) : Prop :=
  existing.isRibCapture = false ∧ route.isRibCapture = true ∧
    (∃ r ∈ ancestorRoutes, r.faceId = route.faceId) ∧ ∃ r ∈ inherited, r.faceId = route.faceId

variable {entry : RibEntry} {inherited ancestorRoutes : List Route} {route existing : Route}

theorem addsLowest_nil (entry : RibEntry) (faceId : ℕ) : AddsLowest entry faceId [] := by
  simp [AddsLowest]

theorem addsLowest_updateForCost_iff (hroute : route ∈ entry.routes) :
    (∃ own, updateForCost entry route existing = some own ∧
      AddsLowest entry route.faceId own) ↔ KeepsInherited entry route existing := by
  obtain ⟨-, hno⟩ | ⟨lowest, hlowest, hmem, hface, hle⟩ :=
    RibEntry.lowestCost_cases (fun r => r.faceId == route.faceId) entry.routes
  · exact absurd BEq.rfl (hno route hroute)
  simp only [beq_iff_eq] at hface hle
  simp only [updateForCost, RibEntry.getRouteWithLowestCostByFaceId, hlowest, bind_eq_bind,
    Option.bind_some, Option.pure_def]
  split_ifs with hsame hroutecost hexisting
  · exact iff_of_true ⟨[], rfl, addsLowest_nil _ _⟩ fun hne => absurd hsame hne
  · refine iff_of_true ⟨_, rfl, fun u hu _ => ?_⟩ fun _ ⟨r, hr, hrface, hlt⟩ => ?_
    · rw [mem_singleton.mp hu]
      exact ⟨rfl, ⟨route, hroute, rfl, rfl⟩, fun r hr hrface => hroutecost.trans (hle r hr hrface)⟩
    · exact absurd (hroutecost.trans (hle r hr hrface)) (not_le.mpr hlt)
  · -- the route was the one with the lowest cost
    have hkeeps : KeepsInherited entry route existing ↔ ∃ r ∈ entry.routes,
        r.faceId = route.faceId ∧ r.isChildInherit ∧ IsLowestCost entry route.faceId r.cost :=
      ⟨fun h => h hsame ⟨lowest, hmem, hface, by omega⟩
        fun r hr hrface => hexisting.trans_le (hle r hr hrface), fun h _ _ _ => h⟩
    rw [hkeeps, RibEntry.getRouteWithLowestCostAndChildInheritByFaceId]
    obtain ⟨hnone, hno⟩ | ⟨prev, hsome, hprev, hselect, hmin⟩ := RibEntry.lowestCost_cases
      (fun r => r.faceId == route.faceId && r.isChildInherit) entry.routes
    · rw [hnone]
      refine iff_of_false (fun ⟨_, hown, _⟩ => by cases hown) ?_
      rintro ⟨r, hr, hrface, hrinherit, -⟩
      exact hno r hr (by simp [hrface, hrinherit])
    · simp only [Bool.and_eq_true, beq_iff_eq] at hselect hmin
      rw [hsome]
      constructor
      · rintro ⟨own, hown, hadds⟩
        obtain rfl := some.inj hown
        exact ⟨prev, hprev, hselect.1, hselect.2, (hadds _ mem_cons_self hselect.1).2⟩
      · rintro ⟨r, hr, hrface, hrinherit, hrlowest⟩
        refine ⟨_, rfl, fun u hu _ => ?_⟩
        have hsame : prev.cost = r.cost :=
          le_antisymm (hmin r hr ⟨hrface, hrinherit⟩) (hrlowest.2 prev hprev hselect.1)
        rw [mem_singleton.mp hu]
        exact ⟨rfl, hsame ▸ hrlowest⟩
  · refine iff_of_true ⟨[], rfl, addsLowest_nil _ _⟩ fun _ _ hall => ?_
    exact absurd (hall lowest hmem hface) hexisting

theorem addsLowest_updateForCapture_iff (hroute : route ∈ entry.routes) :
    AddsLowest entry route.faceId
        (updateForCapture entry inherited ancestorRoutes route existing).updates ↔
      ¬ RemovesInherited inherited ancestorRoutes route existing := by
  have hhas : entry.hasFaceId route.faceId = true := any_eq_true.mpr ⟨route, hroute, by simp⟩
  rw [updateForCapture, RemovesInherited]
  cases existing.isRibCapture <;> cases route.isRibCapture
  case false.true =>
    simp only [Bool.not_false, Bool.and_self, if_true, true_and]
    constructor
    · rintro hadds ⟨⟨r, hr, hface⟩, i, hi, hiface⟩
      have hinherited : (inherited.any fun i => i.faceId == r.faceId) = true :=
        any_eq_true.mpr ⟨i, hi, by simp [hface, hiface]⟩
      have hmem : FibUpdate.createRemoveUpdate entry.name r.faceId ∈
          removeInheritedRoutes entry inherited ancestorRoutes :=
        mem_map.mpr ⟨r, mem_filter.mpr ⟨hr, hinherited⟩, rfl⟩
      exact absurd (hadds _ hmem hface).1 (by simp [FibUpdate.createRemoveUpdate])
    · intro hnot u hu hface
      obtain ⟨r, hr, rfl⟩ := mem_map.mp hu
      obtain ⟨hr, hinherited⟩ := mem_filter.mp hr
      obtain ⟨i, hi, hiface⟩ := any_eq_true.mp hinherited
      exact absurd ⟨⟨r, hr, hface⟩, i, hi, (beq_iff_eq.mp hiface).trans hface⟩ hnot
  case true.false =>
    refine iff_of_true (fun u hu hface => ?_) (by simp)
    obtain ⟨r, hr, rfl⟩ := mem_map.mp hu
    have hother := (mem_filter.mp hr).2
    rw [show r.faceId = route.faceId from hface, hhas] at hother
    cases hother
  all_goals exact iff_of_true (addsLowest_nil _ _) (by simp)

/-- A route is registered with other flags or another cost. No null pointer is dereferenced, and the
updates of the entry on its face are additions with the lowest cost, exactly when a route with the
lowest cost has the child-inherit flag if the changed route loses this place, and a new capture flag
removes no inherited route on the face. -/
theorem createFibUpdatesForUpdatedRoute_iff {e : RibEntry} (inherited ancestorRoutes : List Route)
    (hexisting : e.findRoute route = some existing) :
    (∃ issued, createFibUpdatesForUpdatedRoute (e.replaceRoute route) inherited ancestorRoutes route
        existing = some issued ∧
      AddsLowest (e.replaceRoute route) route.faceId issued.updates) ↔
      KeepsInherited (e.replaceRoute route) route existing ∧
        ¬ RemovesInherited inherited ancestorRoutes route existing := by
  have hroute : route ∈ (e.replaceRoute route).routes :=
    mem_map.mpr ⟨existing, KeyedList.mem_of_get? hexisting,
      if_pos (KeyedList.key_of_get? hexisting)⟩
  generalize e.replaceRoute route = entry at hroute
  have hflags : route.flags = existing.flags →
      ¬ RemovesInherited inherited ancestorRoutes route existing := by
    rintro hsame ⟨hoff, hon, -⟩
    rw [Route.isRibCapture, hsame] at hon
    exact Bool.false_ne_true (hoff.symm.trans hon)
  rw [createFibUpdatesForUpdatedRoute]
  by_cases hsame : route.flags = existing.flags ∧ route.cost = existing.cost
  · rw [if_pos hsame]
    exact iff_of_true ⟨_, rfl, addsLowest_nil _ _⟩ ⟨fun hne => absurd hsame.2 hne, hflags hsame.1⟩
  rw [if_neg hsame, ← addsLowest_updateForCost_iff hroute]
  cases updateForCost entry route existing with
  | none => simp
  | some own =>
    simp only [Option.bind_eq_bind, Option.bind_some, Option.pure_def]
    split_ifs with hreturn
    · simp [hflags hreturn.2.2.1]
    · rw [← addsLowest_updateForCapture_iff hroute]
      simp only [some.injEq, exists_eq_left', AddsLowest, forall_mem_append]

/-- The cost of a route is raised above that of another origin, which is not inherited. -/
theorem createFibUpdatesForUpdatedRoute_null :
    let e : RibEntry := ⟨[], 0, [⟨1, 0, 10, 0⟩, ⟨1, 1, 50, 0⟩], 0⟩
    e.findRoute ⟨1, 0, 100, 0⟩ = some ⟨1, 0, 10, 0⟩ ∧
      (createFibUpdatesForUpdatedRoute (e.replaceRoute ⟨1, 0, 100, 0⟩) [] [] ⟨1, 0, 100, 0⟩
        ⟨1, 0, 10, 0⟩).isNone := by
  decide

/-- The cost of the only route is changed. -/
theorem createFibUpdatesForUpdatedRoute_single :
    let e : RibEntry := ⟨[], 0, [⟨1, 0, 10, 0⟩], 0⟩
    ∃ issued, createFibUpdatesForUpdatedRoute (e.replaceRoute ⟨1, 0, 100, 0⟩) [] []
        ⟨1, 0, 100, 0⟩ ⟨1, 0, 10, 0⟩ = some issued ∧
      AddsLowest (e.replaceRoute ⟨1, 0, 100, 0⟩) 1 issued.updates := by
  intro e
  have hexisting : e.findRoute ⟨1, 0, 100, 0⟩ = some ⟨1, 0, 10, 0⟩ := by decide
  refine (createFibUpdatesForUpdatedRoute_iff [] [] hexisting).mpr ⟨?_, ?_⟩
  · rintro - ⟨r, hr, -, hlt⟩ -
    rw [show r = ⟨1, 0, 100, 0⟩ from mem_singleton.mp hr] at hlt
    exact absurd hlt (by decide)
  · rintro ⟨-, hon, -⟩
    cases hon

/-! ### Repeated commands -/

/-- `MAX_NUM_TIMEOUTS` -/
def maxNumTimeouts : ℕ := 10

/-- A command to the forwarder. -/
inductive Command where
  | addNextHop (name : Name) (faceId cost : ℕ)
  | removeNextHop (name : Name) (faceId : ℕ)
deriving DecidableEq

/-- What a command does to the costs of the next hops. -/
def Command.apply (fib : Name → ℕ → Option ℕ) : Command → Name → ℕ → Option ℕ
  | addNextHop name faceId cost => fun n f => if n = name ∧ f = faceId then some cost else fib n f
  | removeNextHop name faceId => fun n f => if n = name ∧ f = faceId then none else fib n f

variable (update : FibUpdate)

def sendAddNextHopUpdate : Command :=
  .addNextHop update.name update.faceId update.cost

def sendRemoveNextHopUpdate : Command :=
  .removeNextHop update.name update.faceId

/-- The command of `sendUpdates`. -/
def sendUpdate : Command :=
  match update.action with
  | .addNextHop => sendAddNextHopUpdate update
  | .removeNextHop => sendRemoveNextHopUpdate update

/-- A command is sent, and answered after some timeouts, each of which may follow its execution. The
result is the commands sent and the FIB, unless `onUpdateError` throws. -/
def attempt (update : FibUpdate) (nTimeouts : ℕ) (command : Command)
    (fib : Name → ℕ → Option ℕ) : List Bool → List Command × Option (Name → ℕ → Option ℕ)
  | [] => ([command], some (command.apply fib))
  | executed :: timeouts =>
    if nTimeouts < maxNumTimeouts then
      let rest := attempt update (nTimeouts + 1) (sendAddNextHopUpdate update)
        (if executed then command.apply fib else fib) timeouts
      (command :: rest.1, rest.2)
    else ([command], none)

theorem apply_add_again (fib : Name → ℕ → Option ℕ) (executed : Bool) :
    (sendAddNextHopUpdate update).apply
        (if executed then (sendAddNextHopUpdate update).apply fib else fib) =
      (sendAddNextHopUpdate update).apply fib := by
  cases executed with
  | false => rfl
  | true =>
    funext n f
    simp only [sendAddNextHopUpdate, Command.apply, if_true]
    split_ifs <;> rfl

theorem attempt_add (nTimeouts : ℕ) (fib : Name → ℕ → Option ℕ)
    (timeouts : List Bool) (hle : nTimeouts ≤ maxNumTimeouts) :
    let result := attempt update nTimeouts (sendAddNextHopUpdate update) fib timeouts
    (∀ c ∈ result.1, c = sendAddNextHopUpdate update) ∧
      result.1.length ≤ 1 + (maxNumTimeouts - nTimeouts) ∧
      (nTimeouts + timeouts.length ≤ maxNumTimeouts →
        result.2 = some ((sendAddNextHopUpdate update).apply fib)) := by
  induction timeouts generalizing nTimeouts fib with
  | nil => simp [attempt]
  | cons executed timeouts ih =>
    by_cases hlt : nTimeouts < maxNumTimeouts
    · simp only [attempt, if_pos hlt]
      obtain ⟨hall, hlength, hfinal⟩ := ih (nTimeouts + 1)
        (if executed then (sendAddNextHopUpdate update).apply fib else fib) hlt
      refine ⟨forall_mem_cons.mpr ⟨rfl, hall⟩, ?_, fun hfew => ?_⟩
      · rw [length_cons]
        omega
      · rw [length_cons] at hfew
        rw [hfinal (by omega), apply_add_again]
    · simp only [attempt, if_neg hlt]
      refine ⟨forall_mem_singleton.mpr rfl, Nat.le_add_right 1 _, fun hfew => ?_⟩
      rw [length_cons] at hfew
      omega

/-- The commands sent for an update are its own, at most `MAX_NUM_TIMEOUTS` are repeated, and the
FIB ends as after the command, exactly when the update is an addition or there is no timeout. -/
theorem attempt_faithful_iff (timeouts : List Bool) (fib : Name → ℕ → Option ℕ) :
    ((∀ c ∈ (attempt update 0 (sendUpdate update) fib timeouts).1, c = sendUpdate update) ∧
      (attempt update 0 (sendUpdate update) fib timeouts).1.length ≤ 1 + maxNumTimeouts ∧
      (timeouts.length ≤ maxNumTimeouts → (attempt update 0 (sendUpdate update) fib timeouts).2 =
        some ((sendUpdate update).apply fib))) ↔
      update.action = .addNextHop ∨ timeouts = [] := by
  cases haction : update.action with
  | addNextHop =>
    have hadd := attempt_add update 0 fib timeouts (Nat.zero_le _)
    rw [Nat.sub_zero, Nat.zero_add] at hadd
    simp only [sendUpdate, haction]
    exact iff_of_true hadd (.inl trivial)
  | removeNextHop =>
    have hremove : sendUpdate update = sendRemoveNextHopUpdate update := by rw [sendUpdate, haction]
    cases timeouts with
    | nil => simp [attempt]
    | cons executed timeouts =>
      refine iff_of_false ?_ (by simp)
      rintro ⟨hall, -⟩
      have hmem : sendAddNextHopUpdate update ∈
          (attempt update 0 (sendUpdate update) fib (executed :: timeouts)).1 := by
        cases timeouts <;> simp [attempt, maxNumTimeouts]
      have hsame := hall _ hmem
      rw [hremove] at hsame
      cases hsame

/-- The removal of a next hop is not answered in time, and the next hop is added with cost zero. -/
theorem attempt_remove_timeout :
    let update := FibUpdate.createRemoveUpdate [] 1
    (attempt update 0 (sendUpdate update) (fun _ _ => none) [true]).1 =
        [.removeNextHop [] 1, .addNextHop [] 1 0] ∧
      ((attempt update 0 (sendUpdate update) (fun _ _ => none) [true]).2.bind fun fib => fib [] 1) =
        some 0 := by
  decide

end FibUpdater

end NdnFc
