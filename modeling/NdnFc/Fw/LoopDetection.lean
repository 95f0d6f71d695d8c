import NdnFc.Fw.Pipelines

/-!
# What the Dead Nonce List takes for a loop

An incoming Interest is dropped when the Dead Nonce List has its Name and nonce. The list is filled
from out-records under the Name of the PIT entry, without the Function. The entries of the list are
followed back to the Interests that the forwarder has sent.
-/

namespace NdnFc

open List Option

namespace Pit

variable {φ μ σ : Type*} {p : Pit φ μ σ} {e : Entry}

theorem contains_of_find {interest : Interest} (h : p.find interest = some e) : p.Contains e := by
  rw [find, find_eq] at h
  split at h
  next found hmatch =>
    cases h
    exact ⟨interest.nodeName, mem_of_find?_eq_some hmatch⟩
  next => cases h

theorem contains_of_mem_findAllDataMatches [Sha256] {data : DataPacket}
    (h : e ∈ p.findAllDataMatches data) : p.Contains e := by
  obtain ⟨nte, hnte, he⟩ := mem_flatMap.mp h
  exact ⟨nte.name, NameTree.mem_pitEntriesAt_iff.mpr
    ⟨nte, (NameTree.mem_findAllMatches_iff.mp hnte).1, rfl, (mem_filter.mp he).1⟩⟩

end Pit

namespace Tables

variable {μ σ : Type*} {t : Tables μ σ} {entry e : Pit.Entry}

theorem contains_of_insert {interest : Interest} {pit : Pit Fib.Entry μ σ} {isNew : Bool}
    (h : t.pit.insert interest = (pit, some entry, isNew)) : (t.setPit pit).pit.Contains entry := by
  change pit.Contains entry
  rw [Pit.insert_eq] at h
  split at h
  next found hmatch =>
    cases h
    refine ⟨interest.nodeName, ?_⟩
    rw [Pit.pitEntriesAt_lookupTree]
    exact mem_of_find?_eq_some hmatch
  next hmatch =>
    cases h
    have hcontains := (Pit.contains_insert_iff hmatch).mpr (.inr rfl)
    rwa [Pit.insert_eq, hmatch] at hcontains

theorem contains_cleanup {order : List Name} {face : FaceId} {t' : Tables μ σ}
    (horder : order.Perm (t.nameTree.nodes.map NameTree.Entry.name))
    (h : t.cleanupOnFaceRemoval order face = .ok t') (he : t'.pit.Contains e) :
    ∃ e₀, t.pit.Contains e₀ ∧ e = e₀.deleteInOutRecords face := by
  obtain ⟨_, hok, htables, -⟩ := cleanupOnFaceRemoval_spec t face horder
  rw [h] at hok
  cases hok
  obtain ⟨n, hn⟩ := he
  change e ∈ t'.nameTree.pitEntriesAt n at hn
  rw [NameTree.pitEntriesAt_eq, htables] at hn
  obtain ⟨e₀, he₀, rfl⟩ := mem_map.mp hn
  exact ⟨e₀, ⟨n, by rwa [NameTree.pitEntriesAt_eq]⟩, rfl⟩

end Tables

namespace Fw

/-! ### Tracing nonces back -/

/-- The out-records hold nonces of Interests that were sent with the Name of the entry. -/
def EntryTraced (sent : List Interest) (e : Pit.Entry) : Prop :=
  ∀ r ∈ e.outRecords, ∃ x ∈ sent, ∃ nonce, x.name = e.interest.name ∧ x.nonce = some nonce ∧
    r.lastNonce = some nonce

/-- The list holds marks and the hashes of Interests that were sent. -/
def ListTraced (cityHash : Bytes → Nonce → UInt64) (sent : List Interest) (l : DeadNonceList) :
    Prop :=
  ∀ entry ∈ l.queue, entry = DeadNonceList.markEntry ∨
    ∃ x ∈ sent, ∃ nonce, x.nonce = some nonce ∧
      entry = DeadNonceList.makeEntry cityHash x.name nonce

variable {env : Environment} {sent sent' : List Interest} {e e' : Pit.Entry} {l : DeadNonceList}

section

variable (h : EntryTraced sent e)

include h

theorem EntryTraced.mono (hsent : sent ⊆ sent') : EntryTraced sent' e := by
  intro r hr
  obtain ⟨x, hx, hrest⟩ := h r hr
  exact ⟨x, hsent hx, hrest⟩

theorem EntryTraced.of_records (hname : e'.interest.name = e.interest.name)
    (hrecords : ∀ r ∈ e'.outRecords, ∃ r₀ ∈ e.outRecords, r.lastNonce = r₀.lastNonce) :
    EntryTraced sent e' := by
  intro r hr
  obtain ⟨r₀, hr₀, hnonce⟩ := hrecords r hr
  rw [hname, hnonce]
  exact h r₀ hr₀

theorem EntryTraced.of_eq (hname : e'.interest.name = e.interest.name)
    (hrecords : e'.outRecords = e.outRecords) : EntryTraced sent e' :=
  h.of_records hname fun r hr => ⟨r, hrecords ▸ hr, rfl⟩

theorem EntryTraced.deleteOutRecord (face : FaceId) : EntryTraced sent (e.deleteOutRecord face) :=
  h.of_records rfl fun r hr => ⟨r, mem_of_mem_eraseP hr, rfl⟩

theorem EntryTraced.insertOrUpdateOutRecord {interest : Interest} {nonce : Nonce}
    (hname : e.interest.name = interest.name) (hnonce : interest.nonce = some nonce)
    (egress : FaceId) (now : Time) :
    EntryTraced (interest :: sent) (e.insertOrUpdateOutRecord egress interest now) := by
  have hnew : ∃ x ∈ interest :: sent, ∃ nonce, x.name = e.interest.name ∧ x.nonce = some nonce ∧
      interest.nonce = some nonce :=
    ⟨interest, mem_cons_self, nonce, hname.symm, hnonce, hnonce⟩
  have hold := h.mono (subset_cons_self interest sent)
  unfold Pit.Entry.insertOrUpdateOutRecord
  split
  · intro r hr
    obtain ⟨r₀, hr₀, rfl⟩ := mem_map.mp hr
    split
    · exact hnew
    · exact hold r₀ hr₀
  · exact forall_mem_cons.mpr ⟨hnew, hold⟩

end

theorem recordsToAdd_subset (entry : Pit.Entry) (upstream : Option FaceId) :
    recordsToAdd entry upstream ⊆ entry.outRecords := by
  intro r hr
  cases upstream with
  | none => exact hr
  | some face => exact mem_of_find?_eq_some (mem_toList.mp hr)

theorem ListTraced.insertDeadNonceList (hl : ListTraced env.cityHash sent l)
    (he : EntryTraced sent e) (upstream : Option FaceId) :
    ListTraced env.cityHash sent (insertDeadNonceList env e upstream l) := by
  unfold Fw.insertDeadNonceList
  split
  case isFalse => exact hl
  have hrecords := recordsToAdd_subset e upstream
  generalize recordsToAdd e upstream = records at hrecords ⊢
  induction records generalizing l with
  | nil => exact hl
  | cons r rs ih =>
    refine ih (fun entry hentry => ?_) fun r' hr' => hrecords (mem_cons_of_mem r hr')
    obtain ⟨x, hx, nonce, hname, hnonce, hlast⟩ := he r (hrecords mem_cons_self)
    rcases DeadNonceList.mem_queue_add hentry with hentry | rfl
    · exact hl entry hentry
    · rw [hlast, getD_some, ← hname]
      exact .inr ⟨x, hx, nonce, hnonce, rfl⟩

namespace Pipelines

variable {μ σ : Type*} {f : Pipelines μ σ}

/-- Every out-record and every entry of the Dead Nonce List comes from an Interest that was sent. -/
structure Traced (env : Environment) (f : Pipelines μ σ) : Prop where
  pit : ∀ e, f.tables.pit.Contains e → EntryTraced f.sent e
  deadNonceList : ListTraced env.cityHash f.sent f.deadNonceList

theorem Initial.traced (h : f.Initial) : f.Traced env where
  pit := by
    rintro e ⟨n, hn⟩
    change e ∈ f.tables.nameTree.pitEntriesAt n at hn
    rw [h.pit] at hn
    cases hn
  deadNonceList := by
    intro entry hentry
    rw [h.deadNonceList] at hentry
    exact .inl (DeadNonceList.mem_queue_create hentry)

theorem Traced.updatePitEntry (h : f.Traced env) {entry entry' : Pit.Entry}
    (hentry : EntryTraced f.sent entry') :
    Traced env { f with tables := f.tables.updatePitEntry entry entry' } := by
  refine ⟨fun e he => ?_, h.deadNonceList⟩
  rcases Tables.contains_updatePitEntry he with rfl | he
  · exact hentry
  · exact h.pit e he

theorem Traced.entry (h : f.Traced env) {node : Name} {id : ℕ} {entry : Pit.Entry}
    (hentry : f.pitEntry? node id = some entry) : EntryTraced f.sent entry :=
  h.pit entry ⟨node, KeyedList.mem_of_get? hentry⟩

variable {interest : Interest}

theorem has_of_onIncomingInterest {ingress : FaceId} {fresh : Nonce} {found : Option DataPacket}
    {now : Time}
    (h : (f.onIncomingInterest env ingress interest fresh found now).1 = .loopInDeadNonceList) :
    f.deadNonceList.has env.cityHash interest.name (interest.nonce.getD fresh) := by
  have hinsert : ∀ (g : Pipelines μ σ) entry i nonce,
      (g.onPitInsert env ingress entry i nonce found now).1 ≠ .loopInDeadNonceList := by
    intro g entry i nonce
    unfold onPitInsert
    split
    · exact Incoming.noConfusion
    split
    · split <;> exact Incoming.noConfusion
    · exact Incoming.noConfusion
  unfold onIncomingInterest at h
  split at h
  · cases h
  dsimp only at h
  split at h
  · cases h
  split at h
  next hhas => exact hhas
  next =>
    split at h
    · exact absurd h (hinsert _ _ _ _)
    · cases h

/-! ### One event -/

section

variable (h : f.Traced env)

include h

theorem Traced.onPitInsert {entry : Pit.Entry} (hentry : EntryTraced f.sent entry)
    (ingress : FaceId) (interest : Interest) (nonce : Nonce) (found : Option DataPacket)
    (now : Time) :
    (f.onPitInsert env ingress entry interest nonce found now).2.Traced env := by
  have hmiss : (f.onContentStoreMiss ingress entry interest now).Traced env := by
    refine h.updatePitEntry (hentry.of_eq ?_ ?_)
    all_goals
      unfold setExpiryTimer Pit.Entry.insertOrUpdateInRecord
      split <;> rfl
  unfold Pipelines.onPitInsert
  split
  · exact h
  split
  · split
    · exact h.updatePitEntry (hentry.of_eq rfl rfl)
    · exact hmiss
  · exact hmiss

theorem Traced.onIncomingInterest (ingress : FaceId) (interest : Interest) (fresh : Nonce)
    (found : Option DataPacket) (now : Time) :
    (f.onIncomingInterest env ingress interest fresh found now).2.Traced env := by
  have hinsert : ∀ {i inserted}, f.tables.pit.insert i = inserted →
      Traced env { f with tables := f.tables.setPit inserted.1 } := by
    rintro i _ rfl
    refine ⟨fun e he => ?_, h.deadNonceList⟩
    rcases Pit.Contains.of_insert he with he | rfl
    · exact h.pit e he
    · intro r hr
      cases hr
  unfold Pipelines.onIncomingInterest
  split
  · exact h
  dsimp only
  split
  · exact h
  split
  · exact h
  split
  next pit entry isNew hpit =>
    have htraced := hinsert hpit
    exact htraced.onPitInsert (htraced.pit entry (Tables.contains_of_insert hpit)) _ _ _ _ _
  next => exact h

theorem Traced.onOutgoingInterest {entry : Pit.Entry} (hentry : EntryTraced f.sent entry)
    (hmatch : entry.canMatch interest) (egress : FaceId) (fresh : Nonce) (now : Time) :
    (f.onOutgoingInterest env entry egress interest fresh now).Traced env := by
  unfold Pipelines.onOutgoingInterest
  split
  · exact h
  have hname : entry.interest.name = interest.name := by
    simp only [Pit.Entry.canMatch, Bool.and_eq_true, beq_iff_eq] at hmatch
    exact hmatch.1.1
  have hnonce : ({ interest with nonce := some (interest.nonce.getD fresh) } : Interest).nonce =
      some (interest.nonce.getD fresh) := rfl
  refine ⟨fun e he => ?_, fun e he => (h.deadNonceList e he).imp_right ?_⟩
  · rcases Tables.contains_updatePitEntry he with rfl | he
    · refine hentry.insertOrUpdateOutRecord ?_ hnonce egress now
      exact hname
    · exact (h.pit e he).mono (subset_cons_self _ _)
  · rintro ⟨x, hx, hrest⟩
    exact ⟨x, mem_cons_of_mem _ hx, hrest⟩

theorem Traced.onInterestFinalize {entry : Pit.Entry} (hentry : EntryTraced f.sent entry) :
    (f.onInterestFinalize env entry).Traced env where
  pit e he := h.pit e (Pit.Contains.of_erase he)
  deadNonceList := h.deadNonceList.insertDeadNonceList hentry none

theorem Traced.satisfy {entry : Pit.Entry} (hentry : EntryTraced f.sent entry) (ingress : FaceId)
    (data : DataPacket) (isOnly : Bool) (now : Time) :
    (satisfy env ingress data isOnly now f entry).Traced env := by
  have hsatisfied : EntryTraced f.sent (setExpiryTimer (markSatisfied entry data) now now) :=
    hentry.of_eq rfl rfl
  refine ⟨fun e he => ?_, h.deadNonceList.insertDeadNonceList hsatisfied (some ingress)⟩
  rcases Tables.contains_updatePitEntry he with rfl | he
  · refine EntryTraced.deleteOutRecord ?_ ingress
    split
    · exact hsatisfied
    · exact hsatisfied.of_eq rfl rfl
  · exact h.pit e he

theorem Traced.onIncomingData [Sha256] (ingress : FaceId) (data : DataPacket) (now : Time) :
    (f.onIncomingData env ingress data now).Traced env := by
  unfold Pipelines.onIncomingData
  split
  · exact h
  -- the matches are all entries of the table that the Data found
  have hmatches : ∀ e ∈ f.tables.pit.findAllDataMatches data, EntryTraced f.sent e :=
    fun e he => h.pit e (Pit.contains_of_mem_findAllDataMatches he)
  dsimp only
  generalize ((f.tables.pit.findAllDataMatches data).length == 1) = isOnly
  generalize f.tables.pit.findAllDataMatches data = pitMatches at hmatches ⊢
  induction pitMatches generalizing f with
  | nil => exact h
  | cons entry rest ih =>
    rw [foldl_cons]
    exact ih (h.satisfy (hmatches entry mem_cons_self) ingress data isOnly now)
      fun e he => hmatches e (mem_cons_of_mem entry he)

theorem Traced.onIncomingNack (ingress : FaceId) (interest : Interest) (now : Time) :
    (f.onIncomingNack env ingress interest now).Traced env := by
  unfold Pipelines.onIncomingNack
  split
  · exact h
  split
  · exact h
  next entry hfind =>
    have hentry := h.pit entry (Pit.contains_of_find hfind)
    split
    · exact h
    split
    · exact h
    -- marking a record as Nacked leaves its nonce
    refine h.updatePitEntry (hentry.of_records ?_ fun r hr => ?_)
    · split <;> rfl
    · have hr : r ∈ entry.outRecords.map fun r =>
          if r.face = ingress then { r with hasIncomingNack := true } else r := by
        split at hr <;> exact hr
      obtain ⟨r₀, hr₀, rfl⟩ := mem_map.mp hr
      refine ⟨r₀, hr₀, ?_⟩
      split <;> rfl

theorem Traced.onOutgoingNack {entry : Pit.Entry} (hentry : EntryTraced f.sent entry)
    (egress : FaceId) :
    (f.onOutgoingNack env entry egress).Traced env := by
  unfold Pipelines.onOutgoingNack
  split
  · exact h
  · exact h.updatePitEntry (hentry.of_eq rfl rfl)

theorem Traced.faceRemoval {order : List Name} {face : FaceId} {tables : Tables μ σ}
    (horder : order.Perm (f.tables.nameTree.nodes.map NameTree.Entry.name))
    (hok : f.tables.cleanupOnFaceRemoval order face = .ok tables) :
    Traced env { f with tables } := by
  refine ⟨fun e he => ?_, h.deadNonceList⟩
  obtain ⟨e₀, he₀, rfl⟩ := Tables.contains_cleanup horder hok he
  exact (h.pit e₀ he₀).of_records rfl fun r hr => ⟨r, mem_of_mem_eraseP hr, rfl⟩

theorem Traced.step [Sha256] (event : Event) : (f.step env event).Traced env := by
  cases event with
  | incomingInterest ingress interest fresh found now =>
    exact h.onIncomingInterest ingress interest fresh found now
  | outgoingInterest node id egress interest fresh now =>
    dsimp only [Pipelines.step]
    split
    next entry hentry =>
      split
      next hmatch => exact h.onOutgoingInterest (h.entry hentry) hmatch egress fresh now
      next => exact h
    next => exact h
  | interestFinalize node id =>
    dsimp only [Pipelines.step]
    split
    next entry hentry => exact h.onInterestFinalize (h.entry hentry)
    next => exact h
  | incomingData ingress data now => exact h.onIncomingData ingress data now
  | incomingNack ingress interest now => exact h.onIncomingNack ingress interest now
  | outgoingNack node id egress =>
    dsimp only [Pipelines.step]
    split
    next entry hentry => exact h.onOutgoingNack (h.entry hentry) egress
    next => exact h
  | faceRemoval order face =>
    dsimp only [Pipelines.step]
    split
    next horder =>
      split
      next tables hok => exact h.faceRemoval horder hok
      next => exact h
    next => exact h
  | mark =>
    refine ⟨h.pit, fun entry hentry => ?_⟩
    rcases DeadNonceList.mem_queue_mark hentry with hentry | hentry
    · exact h.deadNonceList entry hentry
    · exact .inl hentry
  | adjustCapacity =>
    exact ⟨h.pit, fun entry hentry =>
      h.deadNonceList entry (DeadNonceList.mem_queue_adjustCapacity hentry)⟩

end

/-! ### Runs -/

namespace Event

/-- An Interest that is dropped because of the Dead Nonce List has been sent before, with its Name,
its Function and its nonce. -/
def DropsJustly (env : Environment) (f : Pipelines μ σ) : Event → Prop
  | .incomingInterest ingress interest fresh found now =>
    (f.onIncomingInterest env ingress interest fresh found now).1 = .loopInDeadNonceList →
      ∃ x ∈ f.sent, x.name = interest.name ∧ x.function = interest.function ∧
        x.nonce = some (interest.nonce.getD fresh)
  | _ => True

/-- The hash of the key of an incoming Interest does not collide: it is not the mark, and not the
hash of another key that was sent. -/
def HashSeparates (env : Environment) (f : Pipelines μ σ) : Event → Prop
  | .incomingInterest _ interest fresh _ _ =>
    let entry := DeadNonceList.makeEntry env.cityHash interest.name (interest.nonce.getD fresh)
    entry ≠ DeadNonceList.markEntry ∧
      ∀ x ∈ f.sent, ∀ nonce, x.nonce = some nonce →
        DeadNonceList.makeEntry env.cityHash x.name nonce = entry →
          x.name = interest.name ∧ nonce = interest.nonce.getD fresh
  | _ => True

/-- The Interests that were sent with the Name and the nonce of an incoming one have its Function
too. -/
def Unambiguous (f : Pipelines μ σ) : Event → Prop
  | .incomingInterest _ interest fresh _ _ =>
    ∀ x ∈ f.sent, x.name = interest.name → x.nonce = some (interest.nonce.getD fresh) →
      x.function = interest.function
  | _ => True

end Event

theorem Traced.exists_sent (h : f.Traced env) {ingress : FaceId} {fresh : Nonce}
    {found : Option DataPacket} {now : Time}
    (hseparates : Event.HashSeparates env f (.incomingInterest ingress interest fresh found now))
    (hdrop : (f.onIncomingInterest env ingress interest fresh found now).1 = .loopInDeadNonceList) :
    ∃ x ∈ f.sent, x.name = interest.name ∧ x.nonce = some (interest.nonce.getD fresh) := by
  have hhas := has_of_onIncomingInterest hdrop
  rcases h.deadNonceList _ (DeadNonceList.has_iff.mp hhas) with hmark | ⟨x, hx, nonce, hnonce, heq⟩
  · exact absurd hmark hseparates.1
  · obtain ⟨hname, rfl⟩ := hseparates.2 x hx nonce hnonce heq.symm
    exact ⟨x, hx, hname, hnonce⟩

/-- A forwarder that has been started, with empty tables. -/
def sampleStart : Pipelines Unit Unit :=
  ⟨⟨NameTree.empty, 0, 0, 0⟩, .create, []⟩

/-- Faces to other hosts, and a hash that adds up the bytes. -/
def sampleEnvironment : Environment where
  faces _ := ⟨.nonLocal, .pointToPoint⟩
  networkRegionTable := []
  cityHash name nonce := (name ++ nonce.1).foldl (fun h byte => 257 * h + byte.toUInt64) 1

/-- Interests for one name with a Function of one component, and one nonce. -/
def sampleIncoming (function : Component) : Interest :=
  { sampleInterest function with nonce := some zeroNonce }

/-- An Interest comes, is sent and is not answered. -/
def sampleEvents : List Event :=
  let first := sampleIncoming (.generic [102])
  [.incomingInterest 1 first zeroNonce none 0,
    .outgoingInterest first.nodeName 0 2 first zeroNonce 0,
    .interestFinalize first.nodeName 0]

/-- After the sample events, another Interest comes. -/
def sampleRepeat (function : Component) : List Event :=
  sampleEvents ++ [.incomingInterest 3 (sampleIncoming function) zeroNonce none 5000]

theorem initial_sampleStart : sampleStart.Initial :=
  ⟨fun _ => rfl, rfl, rfl⟩

section

attribute [local instance] Sha256.constant

theorem sent_sampleEvents : (Run.run (step sampleEnvironment) sampleStart sampleEvents).sent =
    [sampleIncoming (.generic [102])] := by
  decide

theorem hashSeparates_sampleRepeat (function : Component) :
    Run.Meets (step sampleEnvironment) (Event.HashSeparates sampleEnvironment) sampleStart
      (sampleRepeat function) := by
  have hmark : DeadNonceList.makeEntry sampleEnvironment.cityHash [.generic [97]] zeroNonce ≠
      DeadNonceList.markEntry := by decide
  refine ⟨⟨hmark, by simp [sampleStart]⟩, trivial, trivial, ⟨hmark, ?_⟩, trivial⟩
  intro x hx nonce hnonce _
  obtain rfl := mem_singleton.mp (sent_sampleEvents ▸ hx)
  cases hnonce
  exact ⟨rfl, rfl⟩

theorem drops_sampleRepeat : ∀ function ∈ [.generic [102], .generic [103]],
    ((Run.run (step sampleEnvironment) sampleStart sampleEvents).onIncomingInterest
      sampleEnvironment 3 (sampleIncoming function) zeroNonce none 5000).1 =
        .loopInDeadNonceList := by
  decide

end

end Pipelines

end Fw

end NdnFc
