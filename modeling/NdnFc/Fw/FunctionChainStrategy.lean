import NdnFc.Fw.Algorithm
import NdnFc.Name.UriRoundTrip
import Mathlib.Data.Finset.Dedup
import Mathlib.Data.Finset.Order

/-!
# Function chain strategy

The strategy that forwards an Interest by its Function
(`NFD-FC/daemon/fw/functionchain-strategy.cpp`). The name that is looked up in the FIB is read back
from the text of the Function. Without a Function the PIT entry or the delegations are looked up
(`strategy.cpp`, lines 281 to 317). A failed assertion and an exception are errors.
-/

namespace NdnFc

namespace Fw

open Option List NameTree Fallible LongestPrefix

/-- What the strategy uses of the forwarder. -/
structure Forwarder (μ σ : Type*) where
  fib : Fib Pit.Entry μ σ
  networkRegionTable : List Name
  faces : FaceId → FaceInfo

/-- The times read by `hasPendingOutRecords`, by `decidePerPitEntry` and before the search for an
unused next hop. -/
structure Clock where
  pending : Time
  suppression : Time
  unused : Time

/-- What the strategy asks the forwarder to do. -/
inductive Action where
  | sendInterest (egress : FaceId)
  | sendNack (egress : FaceId) (reason : NackReason)
  | rejectPendingInterest
deriving DecidableEq

variable {μ σ : Type*}

/-! ### Looking up the FIB -/

namespace Forwarder

variable (fw : Forwarder μ σ)

def isInProducerRegion (forwardingHint : List Delegation) : Bool :=
  fw.networkRegionTable.any fun regionName => forwardingHint.any (·.name.isPrefixOf regionName)

/-- The loop of `lookupFib` over the delegations. The first argument is the entry found last. -/
def lookupDelegations (fw : Forwarder μ σ) :
    Option Fib.Entry → List Delegation → Except String Fib.Entry
  | none, [] => throw "assertion failed: fibEntry != nullptr"
  | some fibEntry, [] =>
    if fibEntry.name.length = 0 then pure fibEntry
    else throw "assertion failed: fibEntry->getPrefix().size() == 0"
  | _, del :: dels =>
    let fibEntry := fw.fib.findLongestPrefixMatch del.name
    if fibEntry.hasNextHops then pure fibEntry
    else if fibEntry.name.length = 0 then fw.lookupDelegations (some fibEntry) dels
    else throw "assertion failed: fibEntry->getPrefix().size() == 0"

def lookupFib (e : Pit.Entry) : Except String Fib.Entry :=
  match e.interest.forwardingHint.dels with
  | [] =>
    match fw.fib.nameTree.find? e.nameTreeEntry with
    | none => throw "assertion failed: nte != nullptr"
    | some _ => pure (fw.fib.findLongestPrefixMatchPit e)
  | dels =>
    if fw.isInProducerRegion dels then
      throw "assertion failed: !m_forwarder.getNetworkRegionTable().isInProducerRegion(fh)"
    else fw.lookupDelegations none dels

def lookupFibwithFunction (env : Option Bool) (fw : Forwarder μ σ) (e : Pit.Entry)
    (interest : Interest) : Except String Fib.Entry :=
  if interest.hasFunction then do
    let name ← Name.ofUri (interest.function.toUri env .envOrAlternate)
    pure (fw.fib.findLongestPrefixMatch name)
  else fw.lookupFib e

end Forwarder

/-! ### The strategy -/

namespace FunctionChainStrategy

def retxSuppression : RetxSuppressionExponential where
  initialInterval := 10
  multiplier := 2
  maxInterval := 250

variable (faces : FaceId → FaceInfo)

/-- What is done with a new Interest. -/
def forwardNew (ingress : FaceId) (interest : Interest) (e : Pit.Entry)
    (nextHops : List Fib.NextHop) : List Action :=
  match nextHops.find? (isNextHopEligible faces ingress interest · e none) with
  | none => [.sendNack ingress .noRoute, .rejectPendingInterest]
  | some nextHop => [.sendInterest nextHop.face]

/-- What is done with a retransmission that is not suppressed. -/
def forwardAgain (ingress : FaceId) (interest : Interest)
    (e : Pit.Entry) (now : Time) (nextHops : List Fib.NextHop) : Except String (List Action) :=
  match nextHops.find? (isNextHopEligible faces ingress interest · e (some now)) with
  | some nextHop => pure [.sendInterest nextHop.face]
  | none => do
    match ← findEligibleNextHopWithEarliestOutRecord faces ingress interest nextHops e with
    | none => pure []
    | some nextHop => pure [.sendInterest nextHop.face]

/-- `afterReceiveInterest`. The stored interval is `pitInfo`, and the new one is returned with the
actions. -/
def afterReceiveInterest (env : Option Bool) (fw : Forwarder μ σ) (ingress : FaceId)
    (interest : Interest) (e : Pit.Entry) (pitInfo : Option ℤ) (clock : Clock) :
    Except String (List Action × Option ℤ) := do
  let (suppression, pitInfo) ←
    retxSuppression.decidePerPitEntry e pitInfo clock.pending clock.suppression
  match suppression with
  | .suppress => pure ([], pitInfo)
  | .new =>
    let fibEntry ← fw.lookupFibwithFunction env e interest
    pure (forwardNew fw.faces ingress interest e fibEntry.nextHops, pitInfo)
  | .forward =>
    let fibEntry ← fw.lookupFibwithFunction env e interest
    let actions ← forwardAgain fw.faces ingress interest e clock.unused fibEntry.nextHops
    pure (actions, pitInfo)

end FunctionChainStrategy

/-! ### Where an Interest has to go -/

section Decision

variable (faces : FaceId → FaceInfo) (ingress : FaceId) (interest : Interest)
  (nextHops : List Fib.NextHop) (e : Pit.Entry) (interval : ℤ) (clock : Clock)

/-- The next hop has the lowest cost among those with the property. -/
def LowestCost (nextHops : List Fib.NextHop) (P : Fib.NextHop → Prop) (a : Fib.NextHop) : Prop :=
  a ∈ nextHops ∧ P a ∧ ∀ b ∈ nextHops, P b → a.cost ≤ b.cost

/-- The actions that are right, given the next hops of the FIB entry. -/
inductive Decision : List Action → Prop
  | new (a : Fib.NextHop) (hnew : ¬ Pending e clock.pending)
      (ha : LowestCost nextHops (Eligible faces ingress interest) a) :
      Decision [.sendInterest a.face]
  | noRoute (hnew : ¬ Pending e clock.pending)
      (hnone : ∀ b ∈ nextHops, ¬ Eligible faces ingress interest b) :
      Decision [.sendNack ingress .noRoute, .rejectPendingInterest]
  | suppressed (hkind : Classified e interval clock.pending clock.suppression .suppress) :
      Decision []
  | unused (a : Fib.NextHop)
      (hkind : Classified e interval clock.pending clock.suppression .forward)
      (ha : LowestCost nextHops
        (fun b => Eligible faces ingress interest b ∧ ¬ Used e clock.unused b.face) a) :
      Decision [.sendInterest a.face]
  | earliest (a : Fib.NextHop) (record : Pit.OutRecord)
      (hkind : Classified e interval clock.pending clock.suppression .forward)
      (hused : ∀ b ∈ nextHops, Eligible faces ingress interest b → Used e clock.unused b.face)
      (ha : a ∈ nextHops) (heligible : Eligible faces ingress interest a)
      (hrecord : e.getOutRecord a.face = some record)
      (hearliest : ∀ b ∈ nextHops, Eligible faces ingress interest b →
        ∃ other, e.getOutRecord b.face = some other ∧ record.lastRenewed ≤ other.lastRenewed) :
      Decision [.sendInterest a.face]
  | noNextHop (hkind : Classified e interval clock.pending clock.suppression .forward)
      (hnone : ∀ b ∈ nextHops, ¬ Eligible faces ingress interest b) :
      Decision []

end Decision

namespace FunctionChainStrategy

variable (faces : FaceId → FaceInfo) (ingress : FaceId) (interest : Interest) {e : Pit.Entry}
  {interval : ℤ} {clock : Clock}

variable {faces ingress interest} in
theorem isNextHopEligible_none_iff {b : Fib.NextHop} :
    isNextHopEligible faces ingress interest b e none ↔ Eligible faces ingress interest b := by
  simp [isNextHopEligible_iff]

theorem decision_forwardNew (hnew : ¬ Pending e clock.pending) (entry : Fib.Entry) :
    Decision faces ingress interest entry.nextHops e interval clock
      (forwardNew faces ingress interest e entry.nextHops) := by
  rw [forwardNew]
  cases hfind : entry.nextHops.find? (isNextHopEligible faces ingress interest · e none) with
  | none =>
    refine .noRoute hnew fun b hb heligible => ?_
    exact find?_eq_none.mp hfind b hb (isNextHopEligible_none_iff.mpr heligible)
  | some a =>
    have htest := find?_some hfind
    refine .new a hnew ⟨mem_of_find?_eq_some hfind, isNextHopEligible_none_iff.mp htest,
      fun b hb heligible => ?_⟩
    exact le_cost_of_find? hfind hb (isNextHopEligible_none_iff.mpr heligible)

theorem decision_forwardAgain
    (hkind : Classified e interval clock.pending clock.suppression .forward) (entry : Fib.Entry) :
    ∃ actions, forwardAgain faces ingress interest e clock.unused entry.nextHops = .ok actions ∧
      Decision faces ingress interest entry.nextHops e interval clock actions := by
  have hiff : ∀ b, isNextHopEligible faces ingress interest b e (some clock.unused) ↔
      Eligible faces ingress interest b ∧ ¬ Used e clock.unused b.face := fun b => by
    simp [isNextHopEligible_iff]
  rw [forwardAgain]
  cases hfind : entry.nextHops.find?
    (isNextHopEligible faces ingress interest · e (some clock.unused)) with
  | some a =>
    have htest := find?_some hfind
    refine ⟨_, rfl, .unused a hkind ⟨mem_of_find?_eq_some hfind, (hiff a).mp htest, ?_⟩⟩
    exact fun b hb hb' => le_cost_of_find? hfind hb ((hiff b).mpr hb')
  | none =>
    -- every eligible next hop has an unexpired out-record
    have hused : ∀ b ∈ entry.nextHops, Eligible faces ingress interest b →
        Used e clock.unused b.face := fun b hb heligible => by
      by_contra hunused
      exact find?_eq_none.mp hfind b hb ((hiff b).mpr ⟨heligible, hunused⟩)
    have hrecord : ∀ b ∈ entry.nextHops, Eligible faces ingress interest b →
        (e.getOutRecord b.face).isSome := fun b hb heligible => by
      obtain ⟨record, hget, -⟩ := hused b hb heligible
      rw [hget, isSome_some]
    obtain ⟨found, hsearch, hearliest⟩ := findEligibleNextHopWithEarliestOutRecord_spec hrecord
    simp only [hsearch]
    cases found with
    | none => exact ⟨_, rfl, .noNextHop hkind hearliest⟩
    | some best =>
      obtain ⟨ha, heligible, ⟨record, hget, hrenewed⟩, hmin⟩ := hearliest
      refine ⟨_, rfl, .earliest best.1 record hkind hused ha heligible hget fun b hb hb' => ?_⟩
      obtain ⟨other, hother⟩ := isSome_iff_exists.mp (hrecord b hb hb')
      exact ⟨other, hother, hrenewed ▸ hmin b hb hb' other hother⟩

theorem afterReceiveInterest_spec {env : Option Bool} {fw : Forwarder μ σ} {entry : Fib.Entry}
    (hlookup : fw.lookupFibwithFunction env e interest = .ok entry) (pitInfo : Option ℤ) :
    ∃ actions info,
      afterReceiveInterest env fw ingress interest e pitInfo clock = .ok (actions, info) ∧
        Decision fw.faces ingress interest entry.nextHops e
          (pitInfo.getD retxSuppression.initialInterval) clock actions := by
  obtain ⟨result, info, hdecide, hkind⟩ :=
    retxSuppression.decidePerPitEntry_spec e pitInfo clock.pending clock.suppression
  rw [afterReceiveInterest, hdecide]
  cases result with
  | suppress => exact ⟨[], info, rfl, .suppressed hkind⟩
  | new =>
    refine ⟨_, info, ?_, decision_forwardNew fw.faces ingress interest hkind entry⟩
    simp only [ok_bind, hlookup]
    rfl
  | forward =>
    obtain ⟨actions, hagain, hdecision⟩ := decision_forwardAgain fw.faces ingress interest hkind
      entry
    refine ⟨actions, info, ?_, hdecision⟩
    simp only [ok_bind, hlookup, hagain]
    rfl

end FunctionChainStrategy

/-! ### The name that is looked up -/

/-- The forwarder can serve the PIT entry: it hangs on a node, its forwarding hint is not for the
producer region, and only the FIB entry of the empty prefix may be without next hops. -/
structure Forwarder.Serves (fw : Forwarder μ σ) (e : Pit.Entry) : Prop where
  node : (fw.fib.nameTree.find? e.nameTreeEntry).isSome
  outside : fw.isInProducerRegion e.interest.forwardingHint.dels = false
  name_eq : ∀ n entry, Fib.entryAt fw.fib.nameTree n = some entry → entry.name = n
  nextHops_ne_nil : ∀ n entry, Fib.entryAt fw.fib.nameTree n = some entry → n ≠ [] →
    entry.nextHops ≠ []

/-- The Function of an Interest, or its Name if it has no Function. -/
def ownName (interest : Interest) : Name :=
  if interest.hasFunction then interest.function else interest.name

variable (μ σ) in
/-- Whatever the FIB, an Interest with this PIT entry goes where the longest prefix of its own name
says. -/
def ForwardsByOwnName (env : Option Bool) (interest : Interest) (e : Pit.Entry) : Prop :=
  ∀ fw : Forwarder μ σ, fw.Serves e → ∀ ingress pitInfo clock, ∃ entry,
    Fib.IsLongestMatch fw.fib.nameTree (ownName interest) entry ∧
    ∃ actions info,
      FunctionChainStrategy.afterReceiveInterest env fw ingress interest e pitInfo clock =
        .ok (actions, info) ∧
      Decision fw.faces ingress interest entry.nextHops e
        (pitInfo.getD FunctionChainStrategy.retxSuppression.initialInterval) clock actions

/-- Two names have the same prefixes in the tree. -/
def SameInTree (a b : Name) : Prop :=
  a.take maxDepth = b.take maxDepth

/-- The name of the Interest is the one that is looked up. -/
def LooksUpOwnName (env : Option Bool) (interest : Interest) (e : Pit.Entry) : Prop :=
  if interest.hasFunction then
    (∀ c ∈ interest.function, c.Accepted) ∧
      ∀ c ∈ interest.function.take maxDepth,
        wantAltUri env .envOrAlternate = true → c.isWrittenAsNumber = true → c.HasShortestNumber
  else
    match e.interest.forwardingHint.dels with
    | [] => SameInTree (lookupName e) interest.name
    | del :: dels => SameInTree del.name interest.name ∧
        ∀ d ∈ dels, d.name.take maxDepth <+: interest.name.take maxDepth

def Forwarder.longestMatch (fw : Forwarder μ σ) (name : Name) : Fib.Entry :=
  (find (Fib.entryAt fw.fib.nameTree) name).getD Fib.emptyEntry

theorem Forwarder.findLongestPrefixMatch_eq (fw : Forwarder μ σ) (name : Name) :
    fw.fib.findLongestPrefixMatch name = fw.longestMatch name :=
  Fib.findLongestPrefixMatch_eq fw.fib name

section Lookup

variable {fw : Forwarder μ σ} {e : Pit.Entry} {interest : Interest} {env : Option Bool}

theorem longestMatch_congr {a b : Name} (h : SameInTree a b) :
    fw.longestMatch a = fw.longestMatch b := by
  rw [Forwarder.longestMatch, Forwarder.longestMatch, ← Fib.find_entryAt_take, h,
    Fib.find_entryAt_take]

variable (hserves : fw.Serves e)

include hserves

theorem lookupFib_of_nil (hnode : e.nameTreeEntry = e.interest.nodeName)
    (hhint : e.interest.forwardingHint.dels = []) :
    fw.lookupFib e = .ok (fw.longestMatch (lookupName e)) := by
  obtain ⟨nte, hfind⟩ := isSome_iff_exists.mp hserves.node
  rw [Forwarder.lookupFib, hhint]
  simp only [hfind]
  rw [Fib.findLongestPrefixMatchPit_eq fw.fib hnode hserves.node]
  rfl

theorem lookupFib_of_cons {del : Delegation} {dels : List Delegation}
    (hhint : e.interest.forwardingHint.dels = del :: dels) :
    fw.lookupFib e = fw.lookupDelegations none (del :: dels) := by
  have houtside := hserves.outside
  rw [hhint] at houtside
  rw [Forwarder.lookupFib, hhint]
  simp only [houtside, Bool.false_eq_true, if_false]

theorem Forwarder.Serves.covers_nil {name : Name} (h : (fw.longestMatch name).hasNextHops = false) :
    Covers (Fib.entryAt fw.fib.nameTree) [] name := by
  refine covers_iff.mpr ⟨List.nil_prefix, fun q hq hlt => ?_⟩
  by_contra hsome
  rw [Forwarder.longestMatch] at h
  cases hfind : find (Fib.entryAt fw.fib.nameTree) name with
  | none => exact hsome (find_eq_none_iff.mp hfind q hq)
  | some entry =>
    obtain ⟨p, hcovers, hentry⟩ := find_eq_some_iff.mp hfind
    rw [hfind, getD_some, Fib.Entry.hasNextHops, Bool.not_eq_false', List.isEmpty_iff] at h
    refine hserves.nextHops_ne_nil p entry hentry ?_ h
    rintro rfl
    exact hsome ((covers_iff.mp hcovers).2 q hq hlt)

theorem Forwarder.Serves.name_eq_nil {name : Name} (h : (fw.longestMatch name).hasNextHops = false) :
    (fw.longestMatch name).name = [] := by
  rw [Forwarder.longestMatch, find_eq_of_covers (hserves.covers_nil h)]
  change ((Fib.entryAt fw.fib.nameTree []).getD Fib.emptyEntry).name = []
  cases hentry : Fib.entryAt fw.fib.nameTree [] with
  | none => rfl
  | some entry => exact hserves.name_eq [] entry hentry

theorem Forwarder.Serves.lookupDelegations_cons (last : Option Fib.Entry) (del : Delegation)
    (dels : List Delegation) :
    fw.lookupDelegations last (del :: dels) =
      if (fw.longestMatch del.name).hasNextHops then .ok (fw.longestMatch del.name)
      else fw.lookupDelegations (some (fw.longestMatch del.name)) dels := by
  rw [Forwarder.lookupDelegations, Forwarder.findLongestPrefixMatch_eq]
  split
  next => rfl
  next h => rw [hserves.name_eq_nil (Bool.eq_false_of_not_eq_true h), length_nil, if_pos rfl]

theorem Forwarder.Serves.lookupDelegations_of_forall {name : Name}
    (hempty : (fw.longestMatch name).hasNextHops = false) {dels : List Delegation}
    (h : ∀ d ∈ dels, fw.longestMatch d.name = fw.longestMatch name) :
    fw.lookupDelegations (some (fw.longestMatch name)) dels = .ok (fw.longestMatch name) := by
  induction dels with
  | nil =>
    rw [Forwarder.lookupDelegations, hserves.name_eq_nil hempty, length_nil, if_pos rfl]
    rfl
  | cons del dels ih =>
    rw [hserves.lookupDelegations_cons, h del mem_cons_self, hempty]
    exact ih fun d hd => h d (mem_cons_of_mem del hd)

theorem Forwarder.Serves.longestMatch_of_prefix {name n : Name}
    (hempty : (fw.longestMatch name).hasNextHops = false)
    (h : n.take maxDepth <+: name.take maxDepth) :
    fw.longestMatch n = fw.longestMatch name := by
  have hcovers := hserves.covers_nil hempty
  have hunder : n.take maxDepth <+: name := h.trans (List.take_prefix _ _)
  rw [Forwarder.longestMatch, Forwarder.longestMatch, ← Fib.find_entryAt_take,
    find_eq_of_covers hcovers, find_eq_of_covers (hcovers.of_isPrefix hunder (Nat.zero_le _))]

omit hserves in
theorem exists_ofUri_toUri_iff {function : Name} :
    (∃ name, Name.ofUri (function.toUri env .envOrAlternate) = .ok name ∧
        SameInTree name function) ↔
      (∀ c ∈ function, c.Accepted) ∧ ∀ c ∈ function.take maxDepth,
        wantAltUri env .envOrAlternate = true → c.isWrittenAsNumber = true →
          c.HasShortestNumber := by
  rw [Name.ofUri_toUri]
  constructor
  · rintro ⟨name, hread, hsame⟩
    refine ⟨Name.exists_mapM_toUri_iff.mp ⟨name, hread⟩, fun c hc => ?_⟩
    have htake := forall₂_take maxDepth (mapM_eq_ok_iff.mp hread)
    rw [hsame, forall₂_same] at htake
    exact (Component.uriStable_iff.mp (htake c hc)).2
  · rintro ⟨hall, hshortest⟩
    obtain ⟨name, hread⟩ := Name.exists_mapM_toUri_iff.mpr hall
    refine ⟨name, hread, ?_⟩
    have htake := forall₂_take maxDepth (mapM_eq_ok_iff.mp hread)
    have hstable : ∀ c ∈ function.take maxDepth, c.UriStable env .envOrAlternate :=
      fun c hc => Component.uriStable_iff.mpr ⟨hall c (mem_of_mem_take hc), hshortest c hc⟩
    have heq := ((forall₂_and_left _ _).mpr ⟨hstable, htake⟩).imp fun c d h =>
      Except.ok.inj (h.1.symm.trans h.2)
    rw [forall₂_eq_eq_eq] at heq
    exact heq.symm

theorem lookupFibwithFunction_of_looksUpOwnName (hnode : e.nameTreeEntry = e.interest.nodeName)
    (h : LooksUpOwnName env interest e) :
    fw.lookupFibwithFunction env e interest = .ok (fw.longestMatch (ownName interest)) := by
  rw [LooksUpOwnName] at h
  rw [Forwarder.lookupFibwithFunction, ownName]
  split at h
  next hfunction =>
    obtain ⟨name, hread, hsame⟩ := exists_ofUri_toUri_iff.mpr h
    rw [if_pos hfunction, if_pos hfunction, hread, ok_bind,
      Forwarder.findLongestPrefixMatch_eq, longestMatch_congr hsame]
    rfl
  next hfunction =>
    rw [if_neg hfunction, if_neg hfunction]
    cases hhint : e.interest.forwardingHint.dels with
    | nil =>
      rw [hhint] at h
      rw [lookupFib_of_nil hserves hnode hhint, longestMatch_congr h]
    | cons del dels =>
      rw [hhint] at h
      obtain ⟨hdel, hdels⟩ := h
      rw [lookupFib_of_cons hserves hhint, hserves.lookupDelegations_cons, longestMatch_congr hdel]
      split
      next => rfl
      next hempty =>
        have hempty := Bool.eq_false_of_not_eq_true hempty
        exact hserves.lookupDelegations_of_forall hempty fun d hd =>
          hserves.longestMatch_of_prefix hempty (hdels d hd)

end Lookup

/-! ### FIBs that tell names apart -/

section TellApart

open FunctionChainStrategy

variable {e : Pit.Entry} {interest : Interest} {env : Option Bool}

def hop (name : Name) (face : FaceId) : Fib.Entry where
  name := name
  nextHops := [⟨face, 0⟩]
  nodup := nodup_singleton face
  sorted := pairwise_singleton _ _

theorem exists_entryAt_eq (l : List (Name × FaceId)) (hl : ∀ p ∈ l, p.1.length ≤ maxDepth) :
    ∃ t : NameTree Fib.Entry Pit.Entry μ σ, ∀ n, Fib.entryAt t n = (l.lookup n).map (hop n) := by
  induction l with
  | nil => exact ⟨empty, fun n => rfl⟩
  | cons p l ih =>
    obtain ⟨t, ht⟩ := ih fun q hq => hl q (mem_cons_of_mem p hq)
    have hdepth := hl p mem_cons_self
    have hnode := isSome_find?_lookup (t := t) (le_refl p.1.length) hdepth
    rw [take_length] at hnode
    refine ⟨Fib.setFibEntry (t.lookup p.1 p.1.length le_rfl hdepth) p.1 (some (hop p.1 p.2)),
      fun n => ?_⟩
    rw [Fib.entryAt_setFibEntry (.inr hnode), Fib.entryAt_lookup, ht, lookup_cons]
    by_cases hn : n = p.1
    · simp [hn]
    · rw [if_neg hn, beq_eq_false_iff_ne.mpr hn]

theorem exists_serves (hnode : e.nameTreeEntry = e.interest.nodeName) (l : List (Name × FaceId))
    (hl : ∀ p ∈ l, p.1.length ≤ maxDepth) :
    ∃ fw : Forwarder μ σ, fw.Serves e ∧ (∀ face, (fw.faces face).scope = .localScope) ∧
      ∀ n, Fib.entryAt fw.fib.nameTree n = (l.lookup n).map (hop n) := by
  obtain ⟨t, ht⟩ := exists_entryAt_eq (μ := μ) (σ := σ) l hl
  have hdepth : e.nameTreeEntry.length ≤ maxDepth := by
    rw [hnode, Interest.nodeName, length_take]
    exact Nat.min_le_left _ _
  have hentry : ∀ n, Fib.entryAt (t.lookup e.nameTreeEntry _ le_rfl hdepth) n =
      (l.lookup n).map (hop n) := fun n => by rw [Fib.entryAt_lookup, ht]
  have hhop : ∀ n entry, Fib.entryAt (t.lookup e.nameTreeEntry _ le_rfl hdepth) n = some entry →
      entry.name = n ∧ entry.nextHops ≠ [] := by
    intro n entry h
    rw [hentry, map_eq_some_iff] at h
    obtain ⟨face, -, rfl⟩ := h
    exact ⟨rfl, cons_ne_nil _ _⟩
  refine ⟨⟨⟨t.lookup e.nameTreeEntry _ le_rfl hdepth, 0⟩, [],
    fun _ => ⟨.localScope, .pointToPoint⟩⟩, ⟨?_, rfl, fun n entry h => (hhop n entry h).1,
    fun n entry h _ => (hhop n entry h).2⟩, fun _ => rfl, hentry⟩
  have := isSome_find?_lookup (t := t) (le_refl e.nameTreeEntry.length) hdepth
  rwa [take_length] at this

theorem exists_not_pending (e : Pit.Entry) : ∃ now, ¬ Pending e now := by
  obtain ⟨last, hlast⟩ := (e.outRecords.map Pit.OutRecord.expiry).toFinset.exists_le
  refine ⟨last + 1, fun ⟨record, hrecord, hle, _⟩ => ?_⟩
  have hexpiry := hlast _ (mem_toFinset.mpr (mem_map_of_mem hrecord))
  exact absurd (Int.lt_add_one_of_le hexpiry) (not_lt.mpr hle)

variable {faces : FaceId → FaceInfo}

theorem eq_forwardNew_of_decision {ingress : FaceId} {interval : ℤ} {clock : Clock}
    {nextHops : List Fib.NextHop} {actions : List Action} (hnew : ¬ Pending e clock.pending)
    (hone : nextHops.length ≤ 1)
    (h : Decision faces ingress interest nextHops e interval clock actions) :
    actions = forwardNew faces ingress interest e nextHops := by
  rw [forwardNew]
  cases h with
  | new a _ ha =>
    obtain ⟨hmem, heligible, -⟩ := ha
    have hsingle : nextHops = [a] := by
      obtain ⟨b, rfl⟩ := length_eq_one_iff.mp
        (Nat.le_antisymm hone (length_pos_of_mem hmem))
      rw [mem_singleton.mp hmem]
    rw [hsingle, find?_singleton, if_pos (isNextHopEligible_none_iff.mpr heligible)]
  | noRoute _ hnone =>
    rw [find?_eq_none.mpr fun b hb h => hnone b hb (isNextHopEligible_none_iff.mp h)]
  | suppressed hkind | unused a hkind _
  | earliest a record hkind _ _ _ _ _ | noNextHop hkind _ => exact absurd hkind.1 hnew

theorem forwardNew_hop {ingress face : FaceId} {name : Name}
    (hlocal : (faces face).scope = .localScope) (hne : face ≠ ingress) :
    forwardNew faces ingress interest e (hop name face).nextHops =
      [.sendInterest face] := by
  have heligible : isNextHopEligible faces ingress interest ⟨face, 0⟩ e none :=
    isNextHopEligible_iff.mpr
      ⟨⟨.inl hne, fun hscope => FaceScope.ne_localScope_iff.mpr hscope.1 hlocal⟩, by simp⟩
  rw [forwardNew, hop, find?_singleton, if_pos heligible]

theorem ForwardsByOwnName.exists_lookup (h : ForwardsByOwnName μ σ env interest e)
    {fw : Forwarder μ σ} (hserves : fw.Serves e) {l : List (Name × FaceId)}
    (hl : ∀ n, Fib.entryAt fw.fib.nameTree n = (l.lookup n).map (hop n)) :
    ∃ found, fw.lookupFibwithFunction env e interest = .ok found ∧
      forwardNew fw.faces 0 interest e found.nextHops =
        forwardNew fw.faces 0 interest e
          (fw.longestMatch (ownName interest)).nextHops := by
  obtain ⟨now, hnew⟩ := exists_not_pending e
  obtain ⟨entry, hlongest, actions, info, hafter, hdecision⟩ := h fw hserves 0 none ⟨now, 0, 0⟩
  have hentry : entry = fw.longestMatch (ownName interest) := Fib.isLongestMatch_iff.mp hlongest
  have hone : entry.nextHops.length ≤ 1 := by
    rw [hentry, Forwarder.longestMatch]
    cases hfind : find (Fib.entryAt fw.fib.nameTree) (ownName interest) with
    | none => exact Nat.zero_le 1
    | some entry =>
      obtain ⟨p, -, hp⟩ := find_eq_some_iff.mp hfind
      rw [hl, map_eq_some_iff] at hp
      obtain ⟨face, -, rfl⟩ := hp
      exact le_rfl
  have hpending : hasPendingOutRecords e now = false :=
    Bool.eq_false_of_not_eq_true fun h => hnew (hasPendingOutRecords_iff.mp h)
  simp only [afterReceiveInterest,
    RetxSuppressionExponential.decidePerPitEntry, hpending, Bool.not_false, if_true,
    pure_eq_ok, ok_bind, bind_eq_ok_iff] at hafter
  obtain ⟨found, hlookup, hactions⟩ := hafter
  refine ⟨found, hlookup, ?_⟩
  rw [← hentry, ← eq_forwardNew_of_decision hnew hone hdecision]
  exact (Prod.mk.inj (Except.ok.inj hactions)).1

theorem longestMatch_of_entryAt {fw : Forwarder μ σ} {n : Name} {entry : Fib.Entry}
    (h : Fib.entryAt fw.fib.nameTree (n.take maxDepth) = some entry) :
    fw.longestMatch n = entry := by
  rw [Forwarder.longestMatch, ← Fib.find_entryAt_take, find_of_eq_some h,
    getD_some]

theorem ForwardsByOwnName.sameInTree (h : ForwardsByOwnName μ σ env interest e)
    (hnode : e.nameTreeEntry = e.interest.nodeName) {n : Name}
    (hn : ∀ fw : Forwarder μ σ, fw.Serves e → (fw.longestMatch n).hasNextHops →
      fw.lookupFibwithFunction env e interest = .ok (fw.longestMatch n)) :
    SameInTree n (ownName interest) := by
  by_contra hne
  -- the two names have next hops on different faces
  obtain ⟨fw, hserves, hlocal, hl⟩ := exists_serves (μ := μ) (σ := σ) hnode
    [((ownName interest).take maxDepth, 1), (n.take maxDepth, 2)]
    (by simp [length_take])
  have hown : fw.longestMatch (ownName interest) = hop _ 1 :=
    longestMatch_of_entryAt (by rw [hl, lookup_cons_self]; rfl)
  have hother : fw.longestMatch n = hop (n.take maxDepth) 2 := by
    refine longestMatch_of_entryAt ?_
    rw [hl, lookup_cons, beq_eq_false_iff_ne.mpr hne, lookup_cons_self]
    rfl
  obtain ⟨found, hlookup, hforward⟩ := h.exists_lookup hserves hl
  rw [hn fw hserves (by rw [hother]; rfl), Except.ok.injEq] at hlookup
  rw [← hlookup, hother, hown, forwardNew_hop (hlocal 2) (by decide),
    forwardNew_hop (hlocal 1) (by decide)] at hforward
  cases hforward

theorem longestMatch_single {fw : Forwarder μ σ} {name : Name} {face : FaceId}
    (hl : ∀ n, Fib.entryAt fw.fib.nameTree n = ([(name, face)].lookup n).map (hop n)) (n : Name) :
    fw.longestMatch n = if name <+: n then hop name face else Fib.emptyEntry := by
  have hself : Fib.entryAt fw.fib.nameTree name = some (hop name face) := by
    rw [hl, lookup_cons_self]
    rfl
  have hother : ∀ q, q ≠ name → Fib.entryAt fw.fib.nameTree q = none := by
    intro q hq
    rw [hl, lookup_cons, beq_eq_false_iff_ne.mpr hq]
    rfl
  rw [Forwarder.longestMatch]
  split
  next h =>
    rw [find_eq_some_iff.mpr ⟨name, ⟨h, fun q _ _ hq => hother q hq⟩, hself⟩,
      getD_some]
  next h =>
    rw [find_eq_none_iff.mpr fun q hq => hother q fun heq => h (heq ▸ hq),
      getD_none]

theorem lookupDelegations_single {fw : Forwarder μ σ} (hserves : fw.Serves e) {name : Name}
    {face : FaceId}
    (hl : ∀ n, Fib.entryAt fw.fib.nameTree n = ([(name, face)].lookup n).map (hop n))
    {dels : List Delegation} (h : ∃ d ∈ dels, name <+: d.name) (last : Option Fib.Entry) :
    fw.lookupDelegations last dels = .ok (hop name face) := by
  induction dels generalizing last with
  | nil =>
    obtain ⟨d, hd, -⟩ := h
    cases hd
  | cons del dels ih =>
    rw [hserves.lookupDelegations_cons, longestMatch_single hl]
    by_cases hdel : name <+: del.name
    · simp [hdel, hop, Fib.Entry.hasNextHops]
    · rw [if_neg hdel, if_neg (by decide)]
      obtain ⟨d, hd, hname⟩ := h
      rcases mem_cons.mp hd with rfl | hd
      · exact absurd hname hdel
      · exact ih ⟨d, hd, hname⟩ _

theorem ForwardsByOwnName.looksUpOwnName (h : ForwardsByOwnName μ σ env interest e)
    (hnode : e.nameTreeEntry = e.interest.nodeName) : LooksUpOwnName env interest e := by
  rw [LooksUpOwnName]
  split
  next hfunction =>
    rw [← exists_ofUri_toUri_iff]
    -- the text is read, because no lookup fails
    obtain ⟨name, hread⟩ : ∃ name, Name.ofUri (interest.function.toUri env .envOrAlternate) =
        .ok name := by
      obtain ⟨fw, hserves, -, hl⟩ := exists_serves (μ := μ) (σ := σ) hnode [] (by simp)
      obtain ⟨found, hlookup, -⟩ := h.exists_lookup hserves hl
      rw [Forwarder.lookupFibwithFunction, if_pos hfunction, bind_eq_ok_iff] at hlookup
      obtain ⟨name, hread, -⟩ := hlookup
      exact ⟨name, hread⟩
    refine ⟨name, hread, ?_⟩
    have hsame := h.sameInTree hnode fun fw _ _ => by
      rw [Forwarder.lookupFibwithFunction, if_pos hfunction, hread, ok_bind,
        Forwarder.findLongestPrefixMatch_eq]
      rfl
    rwa [ownName, if_pos hfunction] at hsame
  next hfunction =>
    have hown : ownName interest = interest.name := by rw [ownName, if_neg hfunction]
    have hlookup : ∀ fw : Forwarder μ σ, fw.lookupFibwithFunction env e interest = fw.lookupFib e :=
      fun fw => by rw [Forwarder.lookupFibwithFunction, if_neg hfunction]
    split
    next hhint =>
      rw [← hown]
      exact h.sameInTree hnode fun fw hserves _ => by
        rw [hlookup, lookupFib_of_nil hserves hnode hhint]
    next del dels hhint =>
      constructor
      · rw [← hown]
        exact h.sameInTree hnode fun fw hserves hhas => by
          rw [hlookup, lookupFib_of_cons hserves hhint, hserves.lookupDelegations_cons, if_pos hhas]
      · intro d hd
        by_contra hnot
        obtain ⟨fw, hserves, hlocal, hl⟩ := exists_serves (μ := μ) (σ := σ) hnode
          [(d.name.take maxDepth, 1)] (by simp [length_take])
        obtain ⟨found, hfound, hforward⟩ := h.exists_lookup hserves hl
        rw [hlookup, lookupFib_of_cons hserves hhint, lookupDelegations_single hserves hl
          ⟨d, mem_cons_of_mem del hd, take_prefix _ _⟩, Except.ok.injEq] at hfound
        have hnone : fw.longestMatch (ownName interest) = Fib.emptyEntry := by
          rw [longestMatch_single hl, hown, if_neg]
          exact fun hunder => hnot (prefix_take_iff.mpr ⟨hunder, by simp⟩)
        rw [← hfound, hnone, forwardNew_hop (hlocal 1) (by decide)] at hforward
        cases hforward

end TellApart

/-- An Interest for one name with a Function of one component, and its PIT entry. -/
def sampleInterest (function : Component) : Interest :=
  .ofName [.generic [97]] [function]

def sampleEntry (function : Component) : Pit.Entry :=
  .create 0 (sampleInterest function) (sampleInterest function).nodeName

end Fw

end NdnFc
