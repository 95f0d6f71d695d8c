import NdnFc.Packet.InterestWire

/-!
# What the Interest decoder accepts

The decoder of an Interest reads a Name and a Function and then loops over the other elements
(`ndn-cxx/interest.cpp`, `wireDecode`). This module says once what reading one element can do to the
object, and what a successful call leaves.
-/

namespace NdnFc

namespace Interest.Object

open Method

/-! ### One element -/

/-- The loop accepts an element: the number of the last recognised element and the object, before
and after. -/
inductive Reads (element : Block) : ℕ → Object → ℕ → Object → Prop
  | canBePrefix {last : ℕ} {s : Object} (htype : element.type = Tlv.canBePrefix)
      (hlast : last < 2) (hvalue : element.value = []) :
      Reads element last s 2 { s with canBePrefix := true }
  | mustBeFresh {last : ℕ} {s : Object} (htype : element.type = Tlv.mustBeFresh)
      (hlast : last < 3) (hvalue : element.value = []) :
      Reads element last s 3 { s with mustBeFresh := true }
  | forwardingHint {last : ℕ} {s : Object} {hint : DelegationList}
      (htype : element.type = Tlv.forwardingHint) (hlast : last < 4)
      (hhint : (DelegationList.wireDecode element true).run s.forwardingHint = .ok () hint) :
      Reads element last s 4 { s with forwardingHint := hint }
  | nonce {last : ℕ} {s : Object} (htype : element.type = Tlv.nonce) (hlast : last < 5)
      (hvalue : element.value.length = 4) :
      Reads element last s 5 { s with nonce := some ⟨element.value, hvalue⟩ }
  | interestLifetime {last count : ℕ} {s : Object} (htype : element.type = Tlv.interestLifetime)
      (hlast : last < 6) (hcount : element.readNonNegativeInteger = .ok count) :
      Reads element last s 6 { s with interestLifetime := Tlv.toMilliseconds count }
  | hopLimit {last : ℕ} {s : Object} {hopLimit : UInt8} (htype : element.type = Tlv.hopLimit)
      (hlast : last < 7) (hvalue : element.value = [hopLimit]) :
      Reads element last s 7 { s with hopLimit := some hopLimit }
  | applicationParameters {last : ℕ} {s : Object}
      (htype : element.type = Tlv.applicationParameters) (hlast : last < 8) :
      Reads element last s 8 { s with parameters := s.parameters ++ [element] }
  | outOfOrder {last : ℕ} {s : Object}
      (htype : element.type = Tlv.hopLimit ∧ 7 ≤ last ∨
        element.type = Tlv.applicationParameters ∧ 8 ≤ last) :
      Reads element last s last s
  | other {last : ℕ} {s : Object} (htype : element.type ≠ Tlv.hopLimit)
      (htype' : element.type ≠ Tlv.applicationParameters)
      (hcritical : Tlv.isCriticalType element.type = false) :
      Reads element last s last
        (if s.hasApplicationParameters then { s with parameters := s.parameters ++ [element] } else s)

variable {element : Block} {last : ℕ} {s t : Object} {rest elements : List Block}

theorem Reads.run_decodeElements {last' : ℕ} {s' : Object} (h : Reads element last s last' s')
    (rest : List Block) :
    (decodeElements last (element :: rest)).run s = (decodeElements last' rest).run s' := by
  rw [decodeElements]
  cases h with
  | canBePrefix htype hlast hvalue | mustBeFresh htype hlast hvalue =>
    rw [htype]
    repeat rw [if_neg (by decide)]
    rw [if_pos rfl, if_neg (by omega), if_neg (not_not.mpr hvalue), run_modify_bind]
  | forwardingHint htype hlast hhint =>
    rw [htype]
    repeat rw [if_neg (by decide)]
    rw [if_pos rfl, if_neg (by omega)]
    exact run_bind_of_ok (run_zoom_eq_ok_iff.mpr ⟨_, hhint, rfl⟩)
  | nonce htype hlast hvalue =>
    rw [htype]
    repeat rw [if_neg (by decide)]
    rw [if_pos rfl, if_neg (by omega), dif_pos hvalue, run_modify_bind]
  | interestLifetime htype hlast hcount =>
    rw [htype]
    repeat rw [if_neg (by decide)]
    rw [if_pos rfl, if_neg (by omega), hcount, ofExcept_ok_bind, run_modify_bind]
  | hopLimit htype hlast hvalue =>
    rw [htype]
    repeat rw [if_neg (by decide)]
    rw [if_pos rfl, if_neg (by omega), hvalue]
    rfl
  | applicationParameters htype hlast =>
    rw [htype]
    repeat rw [if_neg (by decide)]
    rw [if_pos rfl, if_neg (by omega), run_modify_bind]
  | outOfOrder htype =>
    rcases htype with ⟨htype, hlast⟩ | ⟨htype, hlast⟩
    all_goals
      rw [htype]
      repeat rw [if_neg (by decide)]
      rw [if_pos rfl, if_pos hlast]
  | other htype htype' hcritical =>
    -- the other types that the loop knows are critical
    have hne : ∀ type, Tlv.isCriticalType type = true → element.type ≠ type := by
      rintro type htrue rfl
      rw [hcritical] at htrue
      cases htrue
    rw [if_neg (hne _ (by decide)), if_neg (hne _ (by decide)), if_neg (hne _ (by decide)),
      if_neg (hne _ (by decide)), if_neg (hne _ (by decide)), if_neg htype, if_neg htype',
      if_neg (by rw [hcritical]; decide), run_modify_bind]

theorem reads_or_refuses (element : Block) (rest : List Block) (last : ℕ) (s : Object) :
    (∃ last' s', Reads element last s last' s') ∨
      ∃ e forwardingHint, (decodeElements last (element :: rest)).run s =
        .error e { s with forwardingHint } := by
  generalize hr : (decodeElements last (element :: rest)).run s = r
  rw [decodeElements] at hr
  split at hr
  next htype =>
    split at hr
    next => exact .inr ⟨_, s.forwardingHint, hr.symm⟩
    next hlast =>
      split at hr
      next => exact .inr ⟨_, s.forwardingHint, hr.symm⟩
      next hvalue => exact .inl ⟨_, _, .canBePrefix htype (by omega) (not_not.mp hvalue)⟩
  split at hr
  next htype =>
    split at hr
    next => exact .inr ⟨_, s.forwardingHint, hr.symm⟩
    next hlast =>
      split at hr
      next => exact .inr ⟨_, s.forwardingHint, hr.symm⟩
      next hvalue => exact .inl ⟨_, _, .mustBeFresh htype (by omega) (not_not.mp hvalue)⟩
  split at hr
  next htype =>
    split at hr
    next => exact .inr ⟨_, s.forwardingHint, hr.symm⟩
    next hlast =>
      cases hrun : (DelegationList.wireDecode element true).run s.forwardingHint with
      | ok _ hint => exact .inl ⟨_, _, .forwardingHint htype (by omega) hrun⟩
      | error e hint =>
        refine .inr ⟨e, hint, hr.symm.trans (run_bind_of_error ?_)⟩
        exact run_zoom_of_error hrun
  split at hr
  next htype =>
    split at hr
    next => exact .inr ⟨_, s.forwardingHint, hr.symm⟩
    next hlast =>
      split at hr
      next hvalue => exact .inl ⟨_, _, .nonce htype (by omega) hvalue⟩
      next => exact .inr ⟨_, s.forwardingHint, hr.symm⟩
  split at hr
  next htype =>
    split at hr
    next => exact .inr ⟨_, s.forwardingHint, hr.symm⟩
    next hlast =>
      cases hcount : element.readNonNegativeInteger with
      | ok count => exact .inl ⟨_, _, .interestLifetime htype (by omega) hcount⟩
      | error e =>
        rw [hcount] at hr
        exact .inr ⟨e, s.forwardingHint, hr.symm⟩
  split at hr
  next htype =>
    split at hr
    next hlast => exact .inl ⟨_, _, .outOfOrder (.inl ⟨htype, hlast⟩)⟩
    next hlast =>
      split at hr
      next hopLimit hvalue => exact .inl ⟨_, _, .hopLimit htype (by omega) hvalue⟩
      next => exact .inr ⟨_, s.forwardingHint, hr.symm⟩
  rename_i hhopLimit
  split at hr
  next htype =>
    by_cases hlast : 8 ≤ last
    · exact .inl ⟨_, _, .outOfOrder (.inr ⟨htype, hlast⟩)⟩
    · exact .inl ⟨_, _, .applicationParameters htype (by omega)⟩
  rename_i happlicationParameters
  split at hr
  next => exact .inr ⟨_, s.forwardingHint, hr.symm⟩
  next hcritical =>
    exact .inl ⟨_, _, .other hhopLimit happlicationParameters (Bool.eq_false_iff.mpr hcritical)⟩

theorem run_decodeElements_cons :
    (decodeElements last (element :: rest)).run s = .ok () t ↔
      ∃ last' s', Reads element last s last' s' ∧ (decodeElements last' rest).run s' = .ok () t := by
  constructor
  · intro h
    obtain ⟨last', s', hreads⟩ | ⟨e, hint, herror⟩ := reads_or_refuses element rest last s
    · rw [hreads.run_decodeElements] at h
      exact ⟨last', s', hreads, h⟩
    · rw [herror] at h
      cases h
  · rintro ⟨last', s', hreads, h⟩
    rw [hreads.run_decodeElements, h]

theorem after_decodeElements_of (P : ℕ → Object → Prop) (Q : Object → Prop)
    (hreads : ∀ {element last last' s s'}, Reads element last s last' s' → P last s → P last' s')
    (hQ : ∀ {last s} forwardingHint, P last s → Q { s with forwardingHint }) (hs : P last s) :
    Q (after (decodeElements last elements) s) := by
  induction elements generalizing last s with
  | nil => exact hQ s.forwardingHint hs
  | cons element rest ih =>
    obtain ⟨last', s', h⟩ | ⟨e, hint, herror⟩ := reads_or_refuses element rest last s
    · rw [after, h.run_decodeElements, ← after]
      exact ih (hreads h hs)
    · rw [after_of_run_error herror]
      exact hQ hint hs

theorem Reads.kept {last' : ℕ} {s' : Object} (h : Reads element last s last' s') :
    s'.name = s.name ∧ s'.function = s.function ∧ s'.wire = s.wire := by
  cases h with
  | other => split <;> exact ⟨rfl, rfl, rfl⟩
  | _ => exact ⟨rfl, rfl, rfl⟩

theorem kept_of_run_decodeElements (h : (decodeElements last elements).run s = .ok () t) :
    t.name = s.name ∧ t.function = s.function ∧ t.wire = s.wire := by
  induction elements generalizing last s with
  | nil =>
    cases h
    exact ⟨rfl, rfl, rfl⟩
  | cons element rest ih =>
    obtain ⟨last', s', hreads, h⟩ := run_decodeElements_cons.mp h
    obtain ⟨hname, hfunction, hwire⟩ := ih h
    obtain ⟨hname', hfunction', hwire'⟩ := hreads.kept
    exact ⟨hname.trans hname', hfunction.trans hfunction', hwire.trans hwire'⟩

/-! ### The encoding during a call -/

theorem keeps_wire_decodeName (elements : List Block) :
    Keeps (fun i : Object => i.wire) (decodeName elements) := by
  cases elements with
  | nil => exact keeps_throw _
  | cons element rest =>
    refine .ite (keeps_throw _) (.bind (keeps_ofExcept _) fun name => ?_)
    refine .ite (keeps_throw _) (.ite (keeps_throw _) ?_)
    exact .bind (keeps_modify (by intros; rfl)) fun _ => keeps_pure _

theorem keeps_wire_decodeFunction (elements : List Block) :
    Keeps (fun i : Object => i.wire) (decodeFunction elements) := by
  cases elements with
  | nil => exact keeps_throw _
  | cons element rest =>
    refine .ite (keeps_throw _) (.bind (keeps_ofExcept _) fun function => ?_)
    exact .bind (keeps_modify (by intros; rfl)) fun _ => keeps_pure _

theorem keeps_wire_decodeElements (last : ℕ) (elements : List Block) :
    Keeps (fun i : Object => i.wire) (decodeElements last elements) := fun s =>
  after_decodeElements_of (fun _ t => t.wire = s.wire) (fun t => t.wire = s.wire)
    (fun h ht => h.kept.2.2.trans ht) (fun _ ht => ht) rfl

/-! ### A packet -/

/-- The elements of a packet begin with a Name and a Function that the decoder accepts. -/
structure NamesDecode (elements : List Block) (name function : Name) (rest : List Block) : Prop where
  elements : ∃ n f, elements = n :: f :: rest ∧ n.type = Tlv.name ∧ f.type = Tlv.name ∧
    Name.ofBlock n = .ok name ∧ Name.ofBlock f = .ok function
  name_ne_nil : name ≠ []
  not_several : findParametersDigestComponent name ≠ .several

theorem run_decodeName_eq_ok_iff :
    (decodeName elements).run s = .ok rest t ↔
      ∃ n name, elements = n :: rest ∧ n.type = Tlv.name ∧ Name.ofBlock n = .ok name ∧
        name ≠ [] ∧ findParametersDigestComponent name ≠ .several ∧ t = { s with name } := by
  cases elements with
  | nil => simp [decodeName]
  | cons n rest₀ =>
    rw [decodeName, run_ite_throw_eq_ok_iff, run_ofExcept_bind_eq_ok_iff, not_not]
    constructor
    · rintro ⟨htype, name, hname, h⟩
      obtain ⟨hne, h⟩ := run_ite_throw_eq_ok_iff.mp h
      obtain ⟨hseveral, h⟩ := run_ite_throw_eq_ok_iff.mp h
      cases h
      exact ⟨n, name, rfl, htype, hname, hne, hseveral, rfl⟩
    · rintro ⟨_, name, heq, htype, hname, hne, hseveral, rfl⟩
      cases heq
      refine ⟨htype, name, hname, ?_⟩
      exact run_ite_throw_eq_ok_iff.mpr ⟨hne,
        run_ite_throw_eq_ok_iff.mpr ⟨hseveral, rfl⟩⟩

theorem run_decodeFunction_eq_ok_iff :
    (decodeFunction elements).run s = .ok rest t ↔
      ∃ f function, elements = f :: rest ∧ f.type = Tlv.name ∧ Name.ofBlock f = .ok function ∧
        t = { s with function } := by
  cases elements with
  | nil => simp [decodeFunction]
  | cons f rest₀ =>
    rw [decodeFunction, run_ite_throw_eq_ok_iff, run_ofExcept_bind_eq_ok_iff, not_not]
    constructor
    · rintro ⟨htype, function, hfunction, h⟩
      cases h
      exact ⟨f, function, rfl, htype, hfunction, rfl⟩
    · rintro ⟨_, function, heq, htype, hfunction, rfl⟩
      cases heq
      exact ⟨htype, function, hfunction, rfl⟩

/-- The object from which the elements after the names are decoded. Nothing of the previous object
is left in it. -/
def decodeStart (wire : PacketBlock) (name function : Name) : Object :=
  { ofName name function with wire := wire.wire }

variable [Sha256] {autoCheck : Bool} {wire : PacketBlock} {i j : Object}

theorem run_wireDecode_eq_ok_iff :
    (wireDecode autoCheck wire).run i = .ok () j ↔
      wire.type = Tlv.interest ∧ ∃ elements name function rest, wire.parse = .ok elements ∧
        NamesDecode elements name function rest ∧
        (decodeElements 1 rest).run (decodeStart wire name function) = .ok () j ∧
        (autoCheck = true → j.isParametersDigestValid = true) := by
  rw [wireDecode, run_ite_throw_eq_ok_iff, not_not, run_modify_bind,
    run_ofExcept_bind_eq_ok_iff]
  refine and_congr_right fun _ => exists_congr fun elements => ?_
  simp only [run_bind_eq_ok_iff (m := decodeName _), run_decodeName_eq_ok_iff,
    run_bind_eq_ok_iff (m := decodeFunction _), run_decodeFunction_eq_ok_iff,
    run_modify_bind, run_bind_eq_ok_iff (m := decodeElements _ _),
    run_get_bind, run_ite_throw_eq_ok_iff]
  constructor
  · rintro ⟨hparse, rest₁, _, ⟨n, name, rfl, hn, hname, hne, hseveral, rfl⟩, rest, _,
      ⟨f, function, rfl, hf, hfunction, rfl⟩, _, s, hloop, hcheck, hend⟩
    cases hend
    refine ⟨name, function, rest, hparse,
      ⟨⟨n, f, rfl, hn, hf, hname, hfunction⟩, hne, hseveral⟩, hloop, fun hauto => ?_⟩
    simpa [hauto] using hcheck
  · rintro ⟨name, function, rest, hparse, ⟨⟨n, f, rfl, hn, hf, hname, hfunction⟩, hne, hseveral⟩,
      hloop, hcheck⟩
    refine ⟨hparse, f :: rest, _, ⟨n, name, rfl, hn, hname, hne, hseveral, rfl⟩, rest, _,
      ⟨f, function, rfl, hf, hfunction, rfl⟩, ⟨⟩, j, hloop, ?_, rfl⟩
    cases autoCheck with
    | false => simp
    | true => simp [hcheck rfl]

theorem overwrites_wireDecode : Overwrites (wireDecode autoCheck wire) := by
  intro i _ j h i₂
  rw [run_wireDecode_eq_ok_iff] at h ⊢
  exact h

theorem wire_after_wireDecode (htype : wire.type = Tlv.interest) :
    (after (wireDecode autoCheck wire) i).wire = wire.wire := by
  have hkeeps : Keeps (fun i : Object => i.wire) (do
      let elements ← Method.ofExcept wire.parse
      let elements ← decodeName elements
      let elements ← decodeFunction elements
      modify resetFields
      decodeElements 1 elements
      let i ← get
      if autoCheck && !i.isParametersDigestValid then
        throw "ParametersSha256DigestComponent does not match the SHA-256 of Interest parameters"
      else pure () : EStateM String Object Unit) :=
    .bind (keeps_ofExcept _) fun _ => .bind (keeps_wire_decodeName _) fun _ =>
      .bind (keeps_wire_decodeFunction _) fun _ =>
      .bind (keeps_modify (by intros; rfl)) fun _ =>
      .bind (keeps_wire_decodeElements _ _) fun _ => .bind keeps_get fun _ =>
      .ite (keeps_throw _) (keeps_pure _)
  rw [wireDecode, if_neg (not_not.mpr htype), after_modify_bind]
  exact hkeeps _

end Interest.Object

end NdnFc
