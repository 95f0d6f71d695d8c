import NdnFc.Client.NackLedger

/-!
# Nack accounting

As long as every Nack can be attributed to the records that it matches, the records of the face
agree with the ledger. In a state in which they do, a step keeps the account exactly when its Nack
can be attributed.
-/

namespace NdnFc.Client

open Option List

/-! ### The invariant -/

/-- The records are in the order of their numbers, which have been allocated, and agree with their
accounts. -/
structure Audited.Inv (s : Audited) : Prop where
  sorted : SortedTable.Sorted (compareOn PendingInterest.id) s.face.pending
  allocated : ∀ entry ∈ s.face.pending, entry.id ≤ s.face.lastPendingId
  recorded : ∀ entry ∈ s.face.pending, Recorded (s.ledger entry.id) entry

namespace Audited

variable {s : Audited}

theorem inv_init (env : Option Bool) : (init env).Inv where
  sorted := Pairwise.nil
  allocated := by simp [init, Face.init]
  recorded := by simp [init, Face.init]

theorem Inv.nodup (h : s.Inv) : (s.face.pending.map PendingInterest.id).Nodup := by
  refine pairwise_map.mpr (h.sorted.imp fun hlt => ?_)
  exact (compare_lt_iff_lt.mp hlt).ne

theorem Inv.sublist (h : s.Inv) {face : Face} (hsub : face.pending.Sublist s.face.pending)
    (hlast : s.face.lastPendingId ≤ face.lastPendingId) : Inv ⟨face, s.ledger⟩ where
  sorted := h.sorted.sublist hsub
  allocated := fun entry hentry => (h.allocated entry (hsub.subset hentry)).trans hlast
  recorded := fun entry hentry => h.recorded entry (hsub.subset hentry)

theorem inv_of_pending_eq_nil (h : s.face.pending = []) : s.Inv where
  sorted := by rw [h]; exact Pairwise.nil
  allocated := by simp [h]
  recorded := by simp [h]

theorem Inv.insert (h : s.Inv) {entry : PendingInterest} (count : ℕ) {account : Account}
    {face : Face}
    (hpending : face.pending =
      KeyedList.update PendingInterest.id (put entry s.face.pending) entry.id
        fun e => { e with nNotNacked := e.nNotNacked + count })
    (hlast : s.face.lastPendingId ≤ face.lastPendingId) (hid : entry.id ≤ face.lastPendingId)
    (hfresh : ∀ e ∈ s.face.pending, e.id ≠ entry.id) (hnone : entry.leastSevereNack = none)
    (hcount : entry.nNotNacked + count = account.destinations) (hnacks : account.nacks = []) :
    Inv ⟨face, Function.update s.ledger entry.id account⟩ := by
  have hmem : ∀ e ∈ face.pending,
      e = { entry with nNotNacked := entry.nNotNacked + count } ∨
        e ∈ s.face.pending ∧ e.id ≠ entry.id := by
    intro e he
    rw [hpending] at he
    obtain ⟨old, hold, rfl⟩ := mem_map.mp he
    rcases SortedTable.mem_of_mem_emplace hold with rfl | hold
    · exact .inl (if_pos rfl)
    · rw [if_neg (hfresh old hold)]
      exact .inr ⟨hold, hfresh old hold⟩
  refine ⟨?_, fun e he => ?_, fun e he => ?_⟩
  · rw [hpending]
    refine (h.sorted.emplace entry).map fun a b => ?_
    have hid : ∀ e : PendingInterest, (if e.id = entry.id then
        { e with nNotNacked := e.nNotNacked + count } else e).id = e.id := by
      intro e
      split_ifs <;> rfl
    simp only [compareOn, hid]
  · rcases hmem e he with rfl | ⟨hold, -⟩
    · exact hid
    · exact (h.allocated e hold).trans hlast
  · rcases hmem e he with rfl | ⟨hold, hne⟩
    · dsimp only
      rw [Function.update_self]
      refine ⟨?_, ?_, ?_, ?_⟩
      · rw [hcount, hnacks, length_nil, Nat.cast_zero, sub_zero]
      · rw [hnacks, length_nil]
        exact (Nat.eq_zero_or_pos account.destinations).symm.imp id fun hzero => ⟨hzero, rfl⟩
      · simp [hnacks]
      · exact .inl ⟨hnone, hnacks⟩
    · dsimp only
      rw [Function.update_of_ne hne]
      exact h.recorded e hold

end Audited

variable {filters : List InterestFilterRecord} {env : Option Bool}

theorem dispatchLoop_count {entry : PendingInterest}
    (h : (dispatchLoop env entry filters).2.2 = none) :
    (dispatchLoop env entry filters).1 =
      filters.countP fun record => (record.doesMatch env entry).toOption.getD false := by
  induction filters with
  | nil => rfl
  | cons record rest ih =>
    rw [countP_cons]
    cases hmatch : record.doesMatch env entry with
    | error e =>
      rw [dispatchLoop, hmatch] at h
      cases h
    | ok found =>
      cases found with
      | false =>
        rw [dispatchLoop, hmatch] at h ⊢
        exact ih h
      | true =>
        rw [dispatchLoop, hmatch] at h ⊢
        exact congrArg (· + 1) (ih h)

theorem Audited.Inv.dispatch {s : Audited} (h : s.Inv) (entry : PendingInterest) (face : Face)
    {account : Account} (hpending : face.pending = put entry s.face.pending)
    (hlast : s.face.lastPendingId ≤ face.lastPendingId) (hid : entry.id ≤ face.lastPendingId)
    (hfresh : ∀ e ∈ s.face.pending, e.id ≠ entry.id) (hnone : entry.leastSevereNack = none)
    (hcount : entry.nNotNacked + matchingFilters face entry = account.destinations)
    (hnacks : account.nacks = []) :
    Inv ⟨orShutdown (dispatchInterest entry face).2.2 (dispatchInterest entry face).1,
      Function.update s.ledger entry.id account⟩ := by
  cases hthrown : (dispatchInterest entry face).2.2 with
  | some e => exact Audited.inv_of_pending_eq_nil rfl
  | none =>
    have hloop : (dispatchLoop face.env entry face.filters).1 = matchingFilters face entry :=
      dispatchLoop_count hthrown
    refine h.insert (dispatchLoop face.env entry face.filters).1 ?_ hlast hid hfresh hnone ?_ hnacks
    · rw [← hpending]
      rfl
    · rwa [hloop]

/-! ### A Nack and the accounts -/

section

variable {s : Audited} {event : Event} {nack : Nack} {entry : PendingInterest}

theorem enter_of_nack (hevent : event.nack? = some nack) : enter s event = enterNack nack s := by
  cases event with
  | receiveNack nack' | putNack nack' sent =>
    cases hevent
    rfl
  | _ => cases hevent

theorem Audited.Inv.enterNack_eq (h : s.Inv) (hentry : entry ∈ s.face.pending) :
    enterNack nack s entry.id = if nack.interest.matchesInterestWFunction entry.interest then
      { s.ledger entry.id with nacks := (s.ledger entry.id).nacks ++ [nack] }
    else s.ledger entry.id := by
  rw [enterNack, KeyedList.get?_of_mem h.nodup hentry]

theorem Audited.Inv.completes_iff (h : s.Inv) (hevent : event.nack? = some nack)
    (hentry : entry ∈ s.face.pending) :
    Completes s event entry ↔ nack.interest.matchesInterestWFunction entry.interest ∧
      (s.ledger entry.id).nacks.length + 1 = (s.ledger entry.id).destinations := by
  rw [Completes, enter_of_nack hevent, h.enterNack_eq hentry]
  constructor
  · rintro ⟨⟨nack', hnack', hmatch⟩, hlength⟩
    obtain rfl := some.inj (hevent.symm.trans hnack')
    rw [if_pos hmatch, length_append, length_singleton] at hlength
    exact ⟨hmatch, hlength⟩
  · rintro ⟨hmatch, hlength⟩
    rw [if_pos hmatch, length_append, length_singleton]
    exact ⟨⟨nack, hevent, hmatch⟩, hlength⟩

theorem matchesInterest_of_wFunction {i other : Interest} (h : i.matchesInterestWFunction other) :
    i.matchesInterest other := by
  obtain ⟨hname, -, hprefix, hfresh⟩ := Interest.matchesInterestWFunction_iff.mp h
  simp [Interest.matchesInterest, hname, hprefix, hfresh]

theorem matchesInterestWFunction_of_function {i other : Interest} (h : i.matchesInterest other)
    (hfunction : other.function = i.function) : i.matchesInterestWFunction other := by
  simp only [Interest.matchesInterest, Bool.and_eq_true, beq_iff_eq] at h
  exact Interest.matchesInterestWFunction_iff.mpr ⟨h.1.1, hfunction.symm, h.1.2, h.2⟩

theorem Recorded.of_recordNack {account : Account} (h : Recorded account entry)
    (hmatch : nack.interest.matchesInterestWFunction entry.interest)
    (hpos : account.destinations ≠ 0) :
    Balances { account with nacks := account.nacks ++ [nack] } (entry.recordNack nack).1 ∧
    (account.nacks.length + 1 = account.destinations →
      ∃ least ∈ account.nacks ++ [nack], IsLeastSevere least.reason (account.nacks ++ [nack]) ∧
        (entry.recordNack nack).2 = some least) ∧
    (account.nacks.length + 1 ≠ account.destinations →
      Recorded { account with nacks := account.nacks ++ [nack] } (entry.recordNack nack).1 ∧
        (entry.recordNack nack).2 = none) := by
  obtain ⟨least, hmem, hleast, hrecord⟩ := h.exists_recordNack nack
  have hlt : account.nacks.length < account.destinations :=
    h.outstanding.resolve_right fun hzero => hpos hzero.1
  have hcount : entry.nNotNacked - 1 =
      account.destinations - ((account.nacks ++ [nack]).length : ℤ) := by
    rw [h.count, length_append, length_singleton]
    push_cast
    omega
  have hlength : (account.nacks ++ [nack]).length = account.nacks.length + 1 := by simp
  rw [hrecord]
  refine ⟨⟨hcount, ?_⟩, fun hlast => ?_, fun hmore => ?_⟩
  · dsimp only
    omega
  · refine ⟨least, hmem, hleast, if_neg ?_⟩
    rw [hcount, hlength]
    omega
  · refine ⟨⟨hcount, .inl ?_, ?_, .inr ⟨least, hmem, rfl, hleast⟩⟩, if_pos ?_⟩
    · dsimp only
      omega
    · exact forall_mem_append.mpr ⟨h.forInterest, forall_mem_singleton.mpr hmatch⟩
    · rw [hcount, hlength]
      omega

/-! ### The outputs of a Nack -/

theorem nackCallsOf_nackCalls_of_ne {id : ℕ} {other : PendingInterest} (hne : other.id ≠ id) :
    nackCallsOf id (nackCalls nack other) = [] := by
  rw [nackCalls]
  cases report nack other with
  | none => rfl
  | some reported =>
    dsimp only
    split_ifs
    · simp [nackCallsOf, hne]
    · rfl

variable {pending : List PendingInterest}

theorem nackCallsOf_flatMap (hnodup : (pending.map PendingInterest.id).Nodup)
    (hentry : entry ∈ pending) :
    nackCallsOf entry.id (pending.flatMap (nackCalls nack)) =
      nackCallsOf entry.id (nackCalls nack entry) := by
  have hothers : ∀ rest : List PendingInterest, (∀ other ∈ rest, other.id ≠ entry.id) →
      nackCallsOf entry.id (rest.flatMap (nackCalls nack)) = [] := by
    intro rest hrest
    rw [nackCallsOf, filterMap_flatMap, flatMap_eq_nil_iff]
    exact fun other hother => nackCallsOf_nackCalls_of_ne (hrest other hother)
  obtain ⟨front, rest, rfl⟩ := append_of_mem hentry
  rw [map_append, map_cons, nodup_middle, nodup_cons, mem_append,
    not_or] at hnodup
  rw [flatMap_append, flatMap_cons]
  have hfront := hothers front fun other hother hid =>
    hnodup.1.1 (mem_map.mpr ⟨other, hother, hid⟩)
  have hrest := hothers rest fun other hother hid =>
    hnodup.1.2 (mem_map.mpr ⟨other, hother, hid⟩)
  rw [nackCallsOf_append, nackCallsOf_append, hfront, hrest, append_nil, nil_append]

theorem nacksSent_flatMap (pending : List PendingInterest) :
    nacksSent (pending.flatMap (nackCalls nack)) = [] := by
  rw [nacksSent, filterMap_flatMap, flatMap_eq_nil_iff]
  intro other _
  rw [nackCalls]
  cases report nack other with
  | none => rfl
  | some reported =>
    dsimp only
    split_ifs <;> rfl

theorem exists_of_lastReport {reported : Nack} (h : lastReport nack pending = some reported) :
    ∃ entry ∈ pending, entry.origin = .forwarder ∧ report nack entry = some reported := by
  obtain ⟨entry, hentry, hreport⟩ := mem_filterMap.mp (mem_of_getLast? h)
  obtain ⟨hmem, horigin⟩ := mem_filter.mp hentry
  exact ⟨entry, hmem, of_decide_eq_true horigin, hreport⟩

variable [Sha256]

theorem react_nack (face : Face) (hevent : event.nack? = some nack) :
    (react face event).2 = face.pending.flatMap (nackCalls nack) ++
      if event.delivers then (lastReport nack face.pending).toList.map .sendNack else [] := by
  cases event with
  | receiveNack nack' =>
    cases hevent
    rw [react, nackPendingInterests, nackLoop_eq]
    exact (append_nil _).symm
  | putNack nack' sent =>
    cases hevent
    rw [react, putNack, nackPendingInterests, nackLoop_eq, or_none]
    cases lastReport nack face.pending with
    | none => simp
    | some reported => cases sent <;> rfl
  | _ => cases hevent

theorem step_nack (face : Face) (hevent : event.nack? = some nack) :
    (step face event).lastPendingId = face.lastPendingId ∧
      ((step face event).pending = face.pending.filterMap (remains nack) ∨
        (step face event).pending = [] ∧ lastReport nack face.pending ≠ none ∧
          event.delivers = false) := by
  cases event with
  | receiveNack nack' =>
    cases hevent
    rw [step, react, nackPendingInterests, nackLoop_eq]
    exact ⟨rfl, .inl rfl⟩
  | putNack nack' sent =>
    cases hevent
    rw [step, react, putNack, nackPendingInterests, nackLoop_eq, or_none]
    cases lastReport nack face.pending with
    | none => exact ⟨rfl, .inl rfl⟩
    | some reported =>
      cases sent with
      | error e => exact ⟨rfl, .inr ⟨rfl, some_ne_none reported, rfl⟩⟩
      | ok => exact ⟨rfl, .inl rfl⟩
  | _ => cases hevent

/-! ### Steps that can be attributed -/

omit [Sha256] in
theorem Attributable.matchesInterestWFunction (h : Attributable s event)
    (hevent : event.nack? = some nack) (hentry : entry ∈ s.face.pending)
    (hmatch : nack.interest.matchesInterest entry.interest) :
    nack.interest.matchesInterestWFunction entry.interest :=
  matchesInterestWFunction_of_function hmatch (h.function nack hevent entry hentry hmatch)

omit [Sha256] in
theorem id_of_remains {entry' : PendingInterest} (h : remains nack entry = some entry') :
    entry'.id = entry.id := by
  unfold remains at h
  split_ifs at h
  · cases h
    rfl
  · cases h
    rfl

theorem nacksSent_react_nack (hevent : event.nack? = some nack) :
    nacksSent (react s.face event).2 =
      if event.delivers then (lastReport nack s.face.pending).toList else [] := by
  rw [react_nack s.face hevent, nacksSent_append, nacksSent_flatMap, nil_append]
  split_ifs
  · cases lastReport nack s.face.pending <;> rfl
  · rfl

variable (hinv : s.Inv) (hevent : event.nack? = some nack)

include hinv hevent

omit [Sha256] in
theorem Attributable.report_cases (h : Attributable s event) (hentry : entry ∈ s.face.pending) :
    Completes s event entry ∧ (∃ least, report nack entry = some least ∧
        least.interest.matchesInterestWFunction entry.interest ∧
        IsLeastSevere least.reason (enter s event entry.id).nacks) ∨
      ¬ Completes s event entry ∧ report nack entry = none := by
  rw [hinv.completes_iff hevent hentry, enter_of_nack hevent, hinv.enterNack_eq hentry, report]
  by_cases hmatch : nack.interest.matchesInterest entry.interest = true
  · have hfunction := h.matchesInterestWFunction hevent hentry hmatch
    obtain ⟨-, hlast, hmore⟩ := (hinv.recorded entry hentry).of_recordNack hfunction
      (h.forwarded nack hevent entry hentry hmatch)
    rw [if_pos hmatch, if_pos hfunction]
    by_cases hlength : (s.ledger entry.id).nacks.length + 1 = (s.ledger entry.id).destinations
    · obtain ⟨least, hmem, hleast, hreport⟩ := hlast hlength
      refine .inl ⟨⟨hfunction, hlength⟩, least, hreport, ?_, hleast⟩
      rcases mem_append.mp hmem with hmem | hmem
      · exact (hinv.recorded entry hentry).forInterest least hmem
      · rwa [mem_singleton.mp hmem]
    · exact .inr ⟨fun hcomplete => hlength hcomplete.2, (hmore hlength).2⟩
  · rw [if_neg hmatch]
    exact .inr ⟨fun hcomplete => hmatch (matchesInterest_of_wFunction hcomplete.1), rfl⟩

theorem Attributable.inv_step (h : Attributable s event) : (s.step event).Inv := by
  rcases (step_nack s.face hevent).2 with hpending | ⟨hnil, -⟩
  swap
  · exact Audited.inv_of_pending_eq_nil hnil
  refine ⟨?_, fun entry' hentry' => ?_, fun entry' hentry' => ?_⟩
  · rw [Audited.step, hpending]
    refine hinv.sorted.filterMap _ fun a a' hlt b hb b' hb' => ?_
    rw [compareOn, id_of_remains hb, id_of_remains hb']
    exact hlt
  · rw [Audited.step, hpending] at hentry'
    obtain ⟨entry, hentry, hremains⟩ := mem_filterMap.mp hentry'
    rw [id_of_remains hremains, Audited.step, (step_nack s.face hevent).1]
    exact hinv.allocated entry hentry
  · rw [Audited.step, hpending] at hentry'
    obtain ⟨entry, hentry, hremains⟩ := mem_filterMap.mp hentry'
    rw [id_of_remains hremains, Audited.step]
    dsimp only
    rw [enter_of_nack hevent, hinv.enterNack_eq hentry]
    have hrecorded := hinv.recorded entry hentry
    unfold remains at hremains
    split_ifs at hremains with hmatch hnone
    · have hfunction := h.matchesInterestWFunction hevent hentry hmatch
      obtain ⟨-, hlast, hmore⟩ := hrecorded.of_recordNack hfunction
        (h.forwarded nack hevent entry hentry hmatch)
      cases hremains
      rw [if_pos hfunction]
      refine (hmore fun hlength => ?_).1
      obtain ⟨least, -, -, hreport⟩ := hlast hlength
      rw [hreport] at hnone
      cases hnone
    · cases hremains
      rw [if_neg fun hfunction => hmatch (matchesInterest_of_wFunction hfunction)]
      exact hrecorded

theorem Audited.Inv.nackCallsOf_react (hentry : entry ∈ s.face.pending) :
    nackCallsOf entry.id (react s.face event).2 =
      if entry.origin = .app ∧ entry.callbacks.onNack then (report nack entry).toList else [] := by
  have hsent : nackCallsOf entry.id (if event.delivers then
      (lastReport nack s.face.pending).toList.map Output.sendNack else []) = [] := by
    rw [nackCallsOf, filterMap_eq_nil_iff]
    intro output houtput
    split_ifs at houtput
    · obtain ⟨_, -, rfl⟩ := mem_map.mp houtput
      rfl
    · cases houtput
  rw [react_nack s.face hevent, nackCallsOf_append, hsent, append_nil,
    nackCallsOf_flatMap hinv.nodup hentry, nackCalls]
  cases report nack entry with
  | none => split_ifs <;> rfl
  | some reported =>
    dsimp only
    split_ifs <;> simp [nackCallsOf]

omit [Sha256] in
theorem Audited.Inv.answers_of_completes (hentry : entry ∈ s.face.pending)
    (h : Completes s event entry) : Answers s nack entry := by
  obtain ⟨hmatch, hlength⟩ := (hinv.completes_iff hevent hentry).mp h
  exact ⟨matchesInterest_of_wFunction hmatch, hlength⟩

omit [Sha256] in
theorem Attributable.delivers (h : Attributable s event)
    (hreport : lastReport nack s.face.pending ≠ none) : event.delivers = true := by
  obtain ⟨reported, hreported⟩ := ne_none_iff_exists'.mp hreport
  obtain ⟨entry, hentry, horigin, hreport⟩ := exists_of_lastReport hreported
  rcases h.report_cases hinv hevent hentry with ⟨hcomplete, -⟩ | ⟨-, hnone⟩
  · exact h.delivered nack hevent entry hentry horigin
      (hinv.answers_of_completes hevent hentry hcomplete)
  · rw [hreport] at hnone
    cases hnone

theorem Attributable.keepsAccount (h : Attributable s event) : KeepsAccount s event where
  balances := fun entry hentry => ((h.inv_step hinv hevent).recorded entry hentry).balances
  counted := by
    intro nack' hnack' entry hentry hmatch
    obtain rfl := some.inj (hevent.symm.trans hnack')
    have hfunction := h.matchesInterestWFunction hevent hentry hmatch
    rw [Audited.step]
    dsimp only
    rw [enter_of_nack hevent, hinv.enterNack_eq hentry, if_pos hfunction]
    exact ((hinv.recorded entry hentry).of_recordNack hfunction
      (h.forwarded nack hevent entry hentry hmatch)).1
  isolated := by
    intro nack' hnack' entry hentry hname hother
    obtain rfl := some.inj (hevent.symm.trans hnack')
    have hmatch : ¬ nack.interest.matchesInterest entry.interest = true := fun hmatch =>
      hother (h.function nack hevent entry hentry hmatch)
    rw [Audited.step]
    rcases (step_nack s.face hevent).2 with hpending | ⟨-, hreport, hfails⟩
    · rw [hpending]
      exact mem_filterMap.mpr ⟨entry, hentry, if_neg hmatch⟩
    · rw [h.delivers hinv hevent hreport] at hfails
      cases hfails
  called := by
    intro entry hentry horigin hcallback hcomplete
    rw [hinv.nackCallsOf_react hevent hentry, if_pos ⟨horigin, hcallback⟩]
    rcases h.report_cases hinv hevent hentry with ⟨-, least, hreport, hleast⟩ | ⟨hnot, -⟩
    · rw [hreport]
      exact ⟨least, rfl, hleast⟩
    · exact absurd hcomplete hnot
  notCalled := by
    intro entry hentry hnot
    rw [hinv.nackCallsOf_react hevent hentry]
    rcases h.report_cases hinv hevent hentry with ⟨hcomplete, -⟩ | ⟨-, hreport⟩
    · exact absurd hcomplete hnot
    · rw [hreport, toList_none, ite_self]
  sends := by
    intro entry hentry horigin hcomplete
    have hanswers := hinv.answers_of_completes hevent hentry hcomplete
    have hsome : lastReport nack s.face.pending ≠ none := by
      intro hnone
      rcases h.report_cases hinv hevent hentry with ⟨-, least, hreport, -⟩ | ⟨hnot, -⟩
      · simp only [lastReport, getLast?_eq_none_iff, filterMap_eq_nil_iff, mem_filter,
          decide_eq_true_eq, and_imp] at hnone
        rw [hnone entry hentry horigin] at hreport
        cases hreport
      · exact hnot hcomplete
    obtain ⟨reported, hreported⟩ := ne_none_iff_exists'.mp hsome
    rw [nacksSent_react_nack hevent, if_pos (h.delivers hinv hevent hsome), hreported]
    refine ⟨reported, mem_singleton_self reported, ?_⟩
    -- the report is that of another record, which answers the same Nack with the same reason
    obtain ⟨other, hother, hforwarder, hreport⟩ := exists_of_lastReport hreported
    rcases h.report_cases hinv hevent hother with
      ⟨hcomplete', least, hleast, hmatch, hall⟩ | ⟨-, hnone⟩
    swap
    · rw [hreport] at hnone
      cases hnone
    obtain rfl := some.inj (hreport.symm.trans hleast)
    have hanswers' := hinv.answers_of_completes hevent hother hcomplete'
    have hfunction := h.matchesInterestWFunction hevent hentry hanswers.1
    have hfunction' := h.matchesInterestWFunction hevent hother hanswers'.1
    rw [enter_of_nack hevent, hinv.enterNack_eq hother, if_pos hfunction'] at hall
    rw [enter_of_nack hevent, hinv.enterNack_eq hentry, if_pos hfunction]
    refine ⟨?_, h.agreed nack hevent other hother entry hentry hforwarder horigin hanswers' hanswers
      reported.reason hall⟩
    rw [Interest.matchesInterestWFunction_iff] at hmatch hfunction hfunction' ⊢
    exact ⟨hmatch.1.trans (hfunction'.1.symm.trans hfunction.1),
      hmatch.2.1.trans (hfunction'.2.1.symm.trans hfunction.2.1),
      hmatch.2.2.1.trans (hfunction'.2.2.1.symm.trans hfunction.2.2.1),
      hmatch.2.2.2.trans (hfunction'.2.2.2.symm.trans hfunction.2.2.2)⟩
  sent := by
    intro hne
    rw [nacksSent_react_nack hevent] at hne
    cases hreported : lastReport nack s.face.pending with
    | none => simp [hreported] at hne
    | some reported =>
      obtain ⟨entry, hentry, horigin, hreport⟩ := exists_of_lastReport hreported
      refine ⟨entry, hentry, horigin, ?_⟩
      rcases h.report_cases hinv hevent hentry with ⟨hcomplete, -⟩ | ⟨-, hnone⟩
      · exact hcomplete
      · rw [hreport] at hnone
        cases hnone

theorem Audited.Inv.notMem_of_matches (hentry : entry ∈ s.face.pending) (hmatch : nack.interest.matchesInterest entry.interest) :
    entry ∉ (s.step event).face.pending := by
  rw [Audited.step]
  intro hstays
  rcases (step_nack s.face hevent).2 with hpending | ⟨hnil, -⟩
  · rw [hpending] at hstays
    obtain ⟨other, hother, hremains⟩ := mem_filterMap.mp hstays
    obtain rfl := inj_on_of_nodup_map hinv.nodup hentry hother (id_of_remains hremains)
    rw [remains, if_pos hmatch] at hremains
    split_ifs at hremains
    have hcount : entry.nNotNacked - 1 = entry.nNotNacked :=
      congrArg PendingInterest.nNotNacked (some.inj hremains)
    omega
  · rw [hnil] at hstays
    cases hstays

theorem KeepsAccount.attributable (h : KeepsAccount s event) : Attributable s event := by
  have hfunction : ∀ entry ∈ s.face.pending, nack.interest.matchesInterest entry.interest →
      entry.interest.function = nack.interest.function := by
    intro entry hentry hmatch
    by_contra hother
    refine hinv.notMem_of_matches hevent hentry hmatch
      (h.isolated nack hevent entry hentry ?_ hother)
    simp only [Interest.matchesInterest, Bool.and_eq_true, beq_iff_eq] at hmatch
    exact hmatch.1.1.symm
  have hcompletes : ∀ entry ∈ s.face.pending, Answers s nack entry → Completes s event entry := by
    intro entry hentry hanswers
    exact (hinv.completes_iff hevent hentry).mpr ⟨matchesInterestWFunction_of_function hanswers.1
      (hfunction entry hentry hanswers.1), hanswers.2⟩
  -- what is sent for a record of the forwarder
  have hsends : ∀ entry ∈ s.face.pending, entry.origin = .forwarder → Answers s nack entry →
      event.delivers = true ∧ ∃ reported, lastReport nack s.face.pending = some reported ∧
        IsLeastSevere reported.reason ((s.ledger entry.id).nacks ++ [nack]) := by
    intro entry hentry horigin hanswers
    obtain ⟨reported, hmem, -, hleast⟩ :=
      h.sends entry hentry horigin (hcompletes entry hentry hanswers)
    rw [nacksSent_react_nack hevent] at hmem
    split_ifs at hmem with hdelivers
    · refine ⟨hdelivers, reported, mem_toList.mp hmem, ?_⟩
      have hmatch := matchesInterestWFunction_of_function hanswers.1
        (hfunction entry hentry hanswers.1)
      rwa [enter_of_nack hevent, hinv.enterNack_eq hentry, if_pos hmatch] at hleast
    · cases hmem
  refine ⟨?_, ?_, ?_, ?_⟩
  · intro nack' hnack'
    obtain rfl := some.inj (hevent.symm.trans hnack')
    exact hfunction
  · intro nack' hnack' entry hentry hmatch hzero
    obtain rfl := some.inj (hevent.symm.trans hnack')
    have hnonneg : 0 ≤ entry.nNotNacked - 1 := (h.counted nack hevent entry hentry hmatch).2
    have hcount := (hinv.recorded entry hentry).count
    omega
  · intro nack' hnack' entry hentry horigin hanswers
    obtain rfl := some.inj (hevent.symm.trans hnack')
    exact (hsends entry hentry horigin hanswers).1
  · intro nack' hnack' entry hentry other hother horigin horigin' hanswers hanswers' reason hreason
    obtain rfl := some.inj (hevent.symm.trans hnack')
    obtain ⟨-, reported, hreported, hleast⟩ := hsends entry hentry horigin hanswers
    obtain ⟨-, reported', hreported', hleast'⟩ := hsends other hother horigin' hanswers'
    obtain rfl := some.inj (hreported.symm.trans hreported')
    rwa [hreason.unique hleast]

end

/-! ### The other events -/

def Output.nack? : Output → Option Nack
  | .sendNack nack => some nack
  | .nackCallback _ _ nack => some nack
  | _ => none

theorem nackCallsOf_eq_nil {outputs : List Output} (h : ∀ output ∈ outputs, output.nack? = none)
    (id : ℕ) : nackCallsOf id outputs = [] := by
  refine filterMap_eq_nil_iff.mpr fun output houtput => ?_
  have hnone := h output houtput
  cases output with
  | nackCallback _ _ nack => cases hnone
  | _ => rfl

theorem nacksSent_eq_nil {outputs : List Output} (h : ∀ output ∈ outputs, output.nack? = none) :
    nacksSent outputs = [] := by
  refine filterMap_eq_nil_iff.mpr fun output houtput => ?_
  have hnone := h output houtput
  cases output with
  | sendNack nack => cases hnone
  | _ => rfl

variable {output : Output}

theorem nack?_of_mem_dispatchLoop {entry : PendingInterest}
    (h : output ∈ (dispatchLoop env entry filters).2.1) : output.nack? = none := by
  induction filters with
  | nil => cases h
  | cons record rest ih =>
    rw [dispatchLoop] at h
    cases hmatch : record.doesMatch env entry with
    | error e =>
      rw [hmatch] at h
      cases h
    | ok found =>
      rw [hmatch] at h
      cases found with
      | false => exact ih h
      | true =>
        rcases mem_append.mp h with h | h
        · split_ifs at h
          · rw [mem_singleton.mp h]
            rfl
          · cases h
        · exact ih h

section

variable [Sha256] {s : Audited} {event : Event}

theorem nack?_of_mem_satisfyPendingInterests {data : DataPacket} {face : Face}
    (h : output ∈ (satisfyPendingInterests data face).2.1) : output.nack? = none := by
  rw [(satisfyPendingInterests_eq data face).2] at h
  obtain ⟨_, -, rfl⟩ := mem_map.mp h
  rfl

theorem pending_satisfyPendingInterests (data : DataPacket) (face : Face) :
    (satisfyPendingInterests data face).1.pending.Sublist face.pending := by
  rw [(satisfyPendingInterests_eq data face).1]
  exact filter_sublist

theorem nack?_of_mem_react (face : Face) (hevent : event.nack? = none)
    (h : output ∈ (react face event).2) : output.nack? = none := by
  cases event with
  | receiveNack nack | putNack nack sent => cases hevent
  | expressInterest id interest callbacks sent =>
    cases sent with
    | error e => cases h
    | ok =>
      rcases mem_cons.mp h with rfl | h
      · rfl
      · exact nack?_of_mem_dispatchLoop h
  | receiveInterest interest => exact nack?_of_mem_dispatchLoop h
  | receiveData data => exact nack?_of_mem_satisfyPendingInterests h
  | putData data sent =>
    rw [react, putData] at h
    dsimp only at h
    split_ifs at h
    · rcases mem_append.mp h with h | h
      · exact nack?_of_mem_satisfyPendingInterests h
      · rw [mem_singleton.mp h]
        rfl
    · rw [append_nil] at h
      exact nack?_of_mem_satisfyPendingInterests h
    · exact nack?_of_mem_satisfyPendingInterests h
  | timeout id =>
    rw [react, timeout] at h
    split at h
    · cases h
    · dsimp only at h
      split_ifs at h
      · rw [mem_singleton.mp h]
        rfl
      · cases h
  | _ => cases h

theorem Audited.Inv.step_other (hinv : s.Inv) (hlegal : Legal s event)
    (hevent : event.nack? = none) : (s.step event).Inv := by
  cases event with
  | receiveNack nack | putNack nack sent => cases hevent
  | allocateId => exact hinv.sublist (Sublist.refl _) (Nat.le_succ _)
  | expressInterest id interest callbacks sent =>
    cases sent with
    | error e => exact Audited.inv_of_pending_eq_nil rfl
    | ok =>
      let entry := (PendingInterest.ofApp id interest callbacks).recordForwarding
      refine hinv.dispatch entry { s.face with pending := put entry s.face.pending }
        rfl le_rfl hlegal.1 hlegal.2 rfl ?_ rfl
      exact add_comm _ _
  | receiveInterest interest =>
    let entry := PendingInterest.ofForwarder (s.face.lastPendingId + 1) interest
    refine hinv.dispatch entry { s.face with
      pending := put entry s.face.pending, lastPendingId := s.face.lastPendingId + 1 }
      rfl (Nat.le_succ _) le_rfl ?_ rfl (zero_add _) rfl
    intro e he hid
    have := hinv.allocated e he
    rw [hid] at this
    exact absurd this (Nat.not_succ_le_self _)
  | receiveData data => exact hinv.sublist (pending_satisfyPendingInterests data s.face) le_rfl
  | putData data sent =>
    have hkept := pending_satisfyPendingInterests data s.face
    rw [Audited.step, Client.step, react, putData]
    dsimp only
    by_cases hsend : (satisfyPendingInterests data s.face).2.2 = true
    · rw [if_pos hsend]
      cases sent with
      | error e => exact Audited.inv_of_pending_eq_nil rfl
      | ok => exact hinv.sublist hkept le_rfl
    · rw [if_neg hsend]
      exact hinv.sublist hkept le_rfl
  | timeout id =>
    rw [Audited.step, Client.step, react, timeout]
    split
    · exact hinv.sublist (Sublist.refl _) le_rfl
    · exact hinv.sublist filter_sublist le_rfl
  | removePendingInterest id => exact hinv.sublist filter_sublist le_rfl
  | removeAllPendingInterests => exact Audited.inv_of_pending_eq_nil rfl
  | setInterestFilter record | unsetInterestFilter id => exact hinv.sublist (Sublist.refl _) le_rfl

theorem Audited.Inv.keepsAccount_iff (hinv : s.Inv) (hlegal : Legal s event) :
    KeepsAccount s event ↔ Attributable s event := by
  cases hevent : event.nack? with
  | some nack => exact ⟨fun h => h.attributable hinv hevent, fun h => h.keepsAccount hinv hevent⟩
  | none =>
    have hother : ∀ nack, nack ∉ event.nack? := by simp [hevent]
    have houtputs : ∀ output ∈ (react s.face event).2, output.nack? = none :=
      fun output houtput => nack?_of_mem_react s.face hevent houtput
    refine iff_of_true ⟨?_, ?_, ?_, ?_, ?_, ?_, ?_⟩ (attributable_of_nack?_eq_none hevent)
    · intro entry hentry
      exact ((hinv.step_other hlegal hevent).recorded entry hentry).balances
    · exact fun nack hnack => absurd hnack (hother nack)
    · exact fun nack hnack => absurd hnack (hother nack)
    · rintro entry - - - ⟨⟨nack, hnack, -⟩, -⟩
      exact absurd hnack (hother nack)
    · exact fun entry _ _ => nackCallsOf_eq_nil houtputs entry.id
    · rintro entry - - ⟨⟨nack, hnack, -⟩, -⟩
      exact absurd hnack (hother nack)
    · exact fun hne => absurd (nacksSent_eq_nil houtputs) hne

/-- In every run of a new face, all steps keep the account exactly when every Nack can be
attributed. -/
theorem run_keepsAccount_iff (env : Option Bool) (events : List Event)
    (hlegal : Run.Meets Audited.step Legal (Audited.init env) events) :
    Run.Meets Audited.step KeepsAccount (Audited.init env) events ↔
      Run.Meets Audited.step Attributable (Audited.init env) events := by
  refine Run.meets_iff_meets Audited.Inv ?_ (fun _ _ hinv hlegal => hinv.keepsAccount_iff hlegal)
    (Audited.inv_init env) hlegal
  intro s event hinv hlegal hatt
  cases hevent : event.nack? with
  | some nack => exact hatt.inv_step hinv hevent
  | none => exact hinv.step_other hlegal hevent

end

/-- The Interest `/A` with the given Function. -/
def sampleInterest (function : Name) : Interest :=
  Interest.ofName [.generic [65]] function

/-- The application expresses an Interest and the forwarder answers with a Nack. -/
def sampleRun : List Event :=
  [.allocateId, .expressInterest 1 (sampleInterest []) ⟨true, true, true⟩ (.ok ()),
    .receiveNack ⟨sampleInterest [], .noRoute⟩]

theorem keepsAccount_sampleRun : ∃ _ : Sha256,
    Run.Meets Audited.step KeepsAccount (Audited.init none) sampleRun := by
  let _ := Sha256.constant
  have hlegal : Run.Meets Audited.step Legal (Audited.init none) sampleRun :=
    ⟨trivial, ⟨by decide, by decide⟩, trivial, trivial⟩
  refine ⟨Sha256.constant, (run_keepsAccount_iff none sampleRun hlegal).mpr
    ⟨attributable_of_nack?_eq_none rfl, attributable_of_nack?_eq_none rfl, ?_, trivial⟩⟩
  have hpending : ∀ entry ∈ (((Audited.init none).step .allocateId).step
      (.expressInterest 1 (sampleInterest []) ⟨true, true, true⟩ (.ok ()))).face.pending,
      entry = { PendingInterest.ofApp 1 (sampleInterest []) ⟨true, true, true⟩ with
        nNotNacked := 1 } := by decide
  constructor
  · rintro nack ⟨⟩ entry hentry -
    rw [hpending entry hentry]
    rfl
  · rintro nack ⟨⟩ entry hentry -
    rw [hpending entry hentry]
    decide
  · rintro nack ⟨⟩ entry hentry horigin
    rw [hpending entry hentry] at horigin
    cases horigin
  · rintro nack ⟨⟩ entry hentry other - horigin
    rw [hpending entry hentry] at horigin
    cases horigin

/-- A Nack for `/A` without Function is reported for `/A` with a Function too. A Nack that is put
for an Interest that no filter matches makes the count negative. -/
theorem not_keepsAccount : ∃ _ : Sha256,
    (∃ s, s = Run.run Audited.step (Audited.init none)
        [.allocateId, .allocateId,
          .expressInterest 1 (sampleInterest [.generic [102]]) ⟨true, true, true⟩ (.ok ()),
          .expressInterest 2 (sampleInterest []) ⟨true, true, true⟩ (.ok ())] ∧
      s.face.pending.map PendingInterest.id = [1, 2] ∧
      (react s.face (.receiveNack ⟨sampleInterest [], .noRoute⟩)).2 =
        [.nackCallback 1 (sampleInterest [.generic [102]]) ⟨sampleInterest [], .noRoute⟩,
          .nackCallback 2 (sampleInterest []) ⟨sampleInterest [], .noRoute⟩] ∧
      ¬ KeepsAccount s (.receiveNack ⟨sampleInterest [], .noRoute⟩)) ∧
    (∃ s, s = Run.run Audited.step (Audited.init none) [.receiveInterest (sampleInterest [])] ∧
      (∃ entry ∈ s.face.pending,
        (entry.recordNack ⟨sampleInterest [], .noRoute⟩).1.nNotNacked = -1) ∧
      ¬ KeepsAccount s (.putNack ⟨sampleInterest [], .noRoute⟩ (.ok ()))) := by
  let _ := Sha256.constant
  refine ⟨Sha256.constant, ⟨_, rfl, by decide, by decide, fun h => ?_⟩, _, rfl, by decide,
    fun h => ?_⟩
  · have hfirst : { PendingInterest.ofApp 1 (sampleInterest [.generic [102]])
        ⟨true, true, true⟩ with nNotNacked := 1 } ∈ (Run.run Audited.step (Audited.init none)
          [.allocateId, .allocateId,
            .expressInterest 1 (sampleInterest [.generic [102]]) ⟨true, true, true⟩ (.ok ()),
            .expressInterest 2 (sampleInterest []) ⟨true, true, true⟩ (.ok ())]).face.pending := by
      decide
    exact absurd (h.isolated _ rfl _ hfirst rfl (by decide)) (by decide)
  · have hentry : PendingInterest.ofForwarder 1 (sampleInterest []) ∈ (Run.run Audited.step
        (Audited.init none) [.receiveInterest (sampleInterest [])]).face.pending := by decide
    exact absurd (h.counted _ rfl _ hentry (by decide)).2 (by decide)

end NdnFc.Client
