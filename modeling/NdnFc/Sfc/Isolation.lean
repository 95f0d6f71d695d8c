import NdnFc.Lib.Run
import NdnFc.Sfc.FuncNode

/-!
# Isolation of downloads at a function application

A function application has one receive buffer, one content name, one number of the last segment and
one store, used by segment number alone. So the segments of two contents that are downloaded at the
same time end up in one file. An observer keeps track of what was received.
-/

namespace NdnFc.Sfc

open List

def contentOf (name : Name) : Name :=
  name.dropLast

@[simp] theorem contentOf_append (name : Name) (segment : Component) :
    contentOf (name ++ [segment]) = name :=
  dropLast_concat

namespace Func

def Event.content : Event → Name
  | .interest i => contentOf i.name
  | .data _ d => contentOf d.name

def Event.received : Event → List Data
  | .interest _ => []
  | .data _ d => [d]

/-- An application under observation: the Data received so far, the content of the last first segment
and the content whose download was completed last. -/
structure Watch where
  node : Node
  received : List Data
  current : Option Name
  served : Option Name

/-- Observation starts with the application. -/
def Watch.init (uninitialised : ℕ) : Watch where
  node := .init uninitialised
  received := []
  current := none
  served := none

/-- The Data is a segment of what the program makes of the given segments of a content. -/
def MadeFrom (f : Func) (program : List Char → Bytes → Bytes) (content : Name)
    (segments store : List Data) : Prop :=
  (∀ segment ∈ segments, contentOf segment.name = content) ∧
    ∃ filename executedFunction, f.populateStore content
      (program filename (segments.flatMap Data.contentValue)) executedFunction = .ok store

section

variable [Sha256] (f : Func) (fresh : Nonce → Nonce) (program : List Char → Bytes → Bytes)

/-- One step of the application and its observer. -/
def observe (w : Watch) (e : Event) : Watch :=
  let after := f.step fresh program w.node e
  match e with
  | .interest _ => { w with node := after.1 }
  | .data _ data =>
    { node := after.1
      received := w.received ++ [data]
      current :=
        if segmentNumber data.name = .ok 0 then some (contentOf data.name) else w.current
      served := if after.2.isEmpty then w.served else some (contentOf data.name) }

/-- What is put in a step has the name of the content that the event is about, and is made from
segments of this content that have been received. -/
def Isolated (w : Watch) (e : Event) : Prop :=
  ∀ data ∈ (f.step fresh program w.node e).2, contentOf data.name = e.content ∧
    ∃ segments ⊆ w.received ++ e.received, ∃ store,
      f.MadeFrom program e.content segments store ∧ data ∈ store

end

/-- The event belongs to the download whose turn it is: an Interest for a later segment to the
content completed last, and Data to the content in the buffer, after its first segment or with a
content name that is read back from its text. -/
def InTurn (f : Func) (w : Watch) : Event → Prop
  | .interest interest => ∀ segment, segmentNumber interest.name = .ok segment → 0 < segment →
      w.served = some (contentOf interest.name)
  | .data _ data =>
    (∀ entry ∈ w.node.receiver.receiveBuffer, contentOf entry.2.name = contentOf data.name) ∧
    (segmentNumber data.name = .ok 0 →
      ∀ c ∈ contentOf data.name, c.UriStable f.env .envOrAlternate) ∧
    (segmentNumber data.name ≠ .ok 0 → w.current = some (contentOf data.name))

/-- What the observer knows about an application that is running. -/
structure Watch.Inv (f : Func) (program : List Char → Bytes → Bytes) (w : Watch) : Prop where
  sorted : OrderedMap.Sorted w.node.receiver.receiveBuffer
  buffered : ∀ entry ∈ w.node.receiver.receiveBuffer, entry.2 ∈ w.received
  contentBuffer : w.node.receiver.contentBuffer = []
  current : ∀ content, w.current = some content →
    w.node.receiver.contentPrefix ++ w.node.receiver.filename = content
  served : ∀ content, w.served = some content → ∃ segments ⊆ w.received,
    f.MadeFrom program content segments w.node.store

theorem Watch.inv_init (f : Func) (program : List Char → Bytes → Bytes) (uninitialised : ℕ) :
    (Watch.init uninitialised).Inv f program where
  sorted := OrderedMap.sorted_nil
  buffered := by simp [Watch.init, Node.init]
  contentBuffer := rfl
  current := by simp [Watch.init]
  served := by simp [Watch.init]

/-! ### The names in a store -/

variable {data : Data}

theorem contentOf_of_mem_populateStore {f : Func} {name : Name} {file : Bytes}
    {executedFunction : Name} {store : List Data}
    (h : f.populateStore name file executedFunction = .ok store) (hdata : data ∈ store) :
    contentOf data.name = name := by
  obtain ⟨_, -, hnames⟩ := names_of_mem_populateStore h
  obtain ⟨-, segment, hname⟩ := hnames data hdata
  rw [hname, contentOf_append]

/-! ### Receiving a Data in turn -/

theorem append_eq_contentOf {env : Option Bool} {name contentPrefix filename : Name}
    (hfront : getPrefix env name = .ok contentPrefix) (hfilename : getFilename env name = .ok filename)
    (hstable : ∀ c ∈ contentOf name, c.UriStable env .envOrAlternate) :
    contentPrefix ++ filename = contentOf name := by
  rcases eq_nil_or_concat name with rfl | ⟨content, last, rfl⟩
  · cases hfilename
  rw [concat_eq_append] at *
  rw [contentOf_append] at *
  rcases eq_nil_or_concat content with rfl | ⟨front, file, rfl⟩
  · cases hfilename
  rw [concat_eq_append] at *
  rw [getPrefix_eq, Name.mapM_throughUri_eq_self_iff.mpr fun c hc =>
    hstable c (mem_append_left [file] hc)] at hfront
  rw [getFilename_append, Name.mapM_throughUri_eq_self_iff.mpr fun c hc =>
    hstable c (mem_append_right front hc)] at hfilename
  cases hfront
  cases hfilename
  rfl

section

variable [Sha256] {f : Func} {fresh : Nonce → Nonce} {program : List Char → Bytes → Bytes}

theorem Watch.Inv.receive {w : Watch} (hw : w.Inv f program) {interest : Interest.Object}
    (hturn : f.InTurn w (.data interest data)) {out : Option (List Char × Bytes)} {r' : Receiver}
    (h : (Receiver.receive f.env f.options.isQuiet interest.function (Int64.ofInt interest.interestLifetime) interest.mustBeFresh data).run w.node.receiver = .ok out r') :
    r'.contentPrefix ++ r'.filename = contentOf data.name ∧ r'.contentBuffer = [] ∧
    OrderedMap.Sorted r'.receiveBuffer ∧
    (∀ entry ∈ r'.receiveBuffer, entry.2 ∈ w.received ++ [data]) ∧
    ∀ text content, out = some (text, content) → ∃ segments ⊆ w.received ++ [data],
      (∀ segment ∈ segments, contentOf segment.name = contentOf data.name) ∧
      content = segments.flatMap Data.contentValue := by
  obtain ⟨hbuffer, hfirst, hlater⟩ := hturn
  obtain ⟨segment, hsegment, -, r₁, hfollow, hcomplete⟩ := Receiver.run_receive_iff.mp h
  obtain ⟨hreceive, hcontent, hother, hzero⟩ := Receiver.buffers_of_run_follow hfollow
  have hname : r₁.contentPrefix ++ r₁.filename = contentOf data.name := by
    by_cases hseg : segment = 0
    · subst hseg
      obtain ⟨contentPrefix, filename, hfront, hfilename, hp, hf⟩ := hzero rfl
      rw [hp, hf]
      exact append_eq_contentOf hfront hfilename (hfirst hsegment)
    · rw [hother hseg]
      refine hw.current _ (hlater ?_)
      rw [hsegment]
      exact fun h => hseg (Except.ok.inj h)
  have hsorted : OrderedMap.Sorted r₁.receiveBuffer := by
    rw [hreceive]
    exact hw.sorted.assign segment data
  have hmem : ∀ entry ∈ r₁.receiveBuffer,
      entry.2 ∈ w.received ++ [data] ∧ contentOf entry.2.name = contentOf data.name := by
    intro entry hentry
    rw [hreceive, OrderedMap.mem_assign_iff hw.sorted] at hentry
    rcases hentry with rfl | ⟨hentry, -⟩
    · exact ⟨mem_append_right _ (mem_singleton_self data), rfl⟩
    · exact ⟨mem_append_left _ (hw.buffered entry hentry), hbuffer entry hentry⟩
  rw [hw.contentBuffer] at hcontent
  rcases Receiver.run_complete_cases hcomplete with ⟨rfl, rfl⟩ | ⟨text, rfl, rfl⟩
  · exact ⟨hname, hcontent, hsorted, fun entry hentry => (hmem entry hentry).1,
      fun _ _ h => (by cases h)⟩
  · refine ⟨hname, rfl, OrderedMap.sorted_nil, by simp, fun _ content hout => ?_⟩
    cases hout
    refine ⟨r₁.receiveBuffer.map Prod.snd, ?_, ?_, ?_⟩
    · intro d hd
      obtain ⟨entry, hentry, rfl⟩ := mem_map.mp hd
      exact (hmem entry hentry).1
    · intro d hd
      obtain ⟨entry, hentry, rfl⟩ := mem_map.mp hd
      exact (hmem entry hentry).2
    · rw [hcontent, flatMap_map]
      rfl

theorem Watch.Inv.observe {w : Watch} (hw : w.node.running = true → w.Inv f program) {e : Event}
    (hturn : f.InTurn w e) :
    ((f.observe fresh program w e).node.running = true →
      (f.observe fresh program w e).Inv f program) ∧ f.Isolated fresh program w e := by
  by_cases hrunning : w.node.running = true
  · replace hw := hw hrunning
    cases hrun : (f.handle fresh program e).run w.node with
    | error message n' =>
      have hstep : f.step fresh program w.node e = ({ n' with running := false }, []) := by
        rw [step, if_pos hrunning, hrun]
      refine ⟨fun h => ?_, by simp [Isolated, hstep]⟩
      cases e <;> simp [Func.observe, hstep] at h
    | ok puts n' =>
      have hstep : f.step fresh program w.node e = (n', puts) := by
        rw [step, if_pos hrunning, hrun]
      cases e with
      | interest interest =>
        rcases run_onInterest_eq_ok hrun with
          ⟨segment, data, hsegment, hpos, hdata, rfl, rfl⟩ | ⟨rfl, expressed, rfl⟩
        · -- the store was filled for this content
          obtain ⟨segments, hsub, hcontent, filename, function, hmade⟩ :=
            hw.served _ (hturn segment hsegment hpos)
          have hmem := mem_of_getElem? hdata
          refine ⟨fun _ => ?_, ?_⟩
          · rw [Func.observe, hstep]
            exact hw
          · rw [Isolated, hstep]
            rintro d hd
            obtain rfl := mem_singleton.mp hd
            exact ⟨contentOf_of_mem_populateStore hmade hmem, segments,
              fun s hs => mem_append_left _ (hsub hs), w.node.store,
              ⟨hcontent, filename, function, hmade⟩, hmem⟩
        · refine ⟨fun _ => ?_, by simp [Isolated, hstep]⟩
          rw [Func.observe, hstep]
          exact ⟨hw.sorted, hw.buffered, hw.contentBuffer, hw.current, hw.served⟩
      | data interest data =>
        obtain ⟨out, r', hreceive, hout⟩ := run_onData_eq_ok hrun
        obtain ⟨hname, hcontentBuffer, hsorted, hbuffered, hcomplete⟩ := hw.receive hturn hreceive
        -- whether or not it is the first segment, the name is that of its content
        have hcurrent : ∀ content, (if segmentNumber data.name = .ok 0
            then some (contentOf data.name) else w.current) = some content →
            r'.contentPrefix ++ r'.filename = content := by
          intro content hcontent
          rw [hname]
          split_ifs at hcontent with hzero
          · exact Option.some.inj hcontent
          · exact Option.some.inj ((hturn.2.2 hzero).symm.trans hcontent)
        rcases hout with ⟨rfl, rfl, rfl⟩ | ⟨filename, content, first, rest, rfl, hstore, rfl, rfl⟩
        · refine ⟨fun _ => ?_, by simp [Isolated, hstep]⟩
          rw [Func.observe, hstep]
          refine ⟨hsorted, hbuffered, hcontentBuffer, hcurrent, fun content hserved => ?_⟩
          obtain ⟨segments, hsub, hmade⟩ := hw.served content hserved
          exact ⟨segments, fun s hs => mem_append_left _ (hsub hs), hmade⟩
        · obtain ⟨segments, hsub, hcontent, rfl⟩ := hcomplete filename content rfl
          rw [hname] at hstore
          have hmade : f.MadeFrom program (contentOf data.name) segments (first :: rest) :=
            ⟨hcontent, filename, data.function, hstore⟩
          refine ⟨fun _ => ?_, ?_⟩
          · rw [Func.observe, hstep]
            refine ⟨hsorted, hbuffered, hcontentBuffer, hcurrent, fun content hserved => ?_⟩
            cases hserved
            exact ⟨segments, hsub, hmade⟩
          · rw [Isolated, hstep]
            rintro d hd
            obtain rfl := mem_singleton.mp hd
            exact ⟨contentOf_of_mem_populateStore hstore mem_cons_self, segments, hsub, _,
              hmade, mem_cons_self⟩
  · have hstep : f.step fresh program w.node e = (w.node, []) := by
      rw [step, if_neg hrunning]
    refine ⟨fun h => ?_, by simp [Isolated, hstep]⟩
    cases e <;> exact absurd (by simpa [Func.observe, hstep] using h) hrunning

/-- In every run of a new application whose events all come in turn, every Data that is put for a
content has its name and is made from its segments only. -/
theorem isolated_of_inTurn (f : Func) (fresh : Nonce → Nonce)
    (program : List Char → Bytes → Bytes) (uninitialised : ℕ) (events : List Event)
    (h : Run.Meets (f.observe fresh program) f.InTurn (Watch.init uninitialised) events) :
    Run.Meets (f.observe fresh program) (f.Isolated fresh program) (Watch.init uninitialised)
      events :=
  Run.meets_of_meets (fun w => w.node.running = true → w.Inv f program)
    (fun _ _ hw hturn => Watch.Inv.observe hw hturn)
    (fun _ => Watch.inv_init f program uninitialised) h

end

/-! ### Two downloads -/

/-- An application that leaves room for one byte of content after the names below. -/
def sampleFunc : Func where
  funcName := [.generic [102]]
  options := { maxSegmentSize := 309, isQuiet := true }
  env := none
  signatureInfo := .empty
  signatureValue := fun _ => []

def sampleName (letter : UInt8) (segment : ℕ) : Name :=
  [.generic [letter], .fromSegment segment]

def sampleRequest (letter : UInt8) (segment : ℕ) : Interest.Object :=
  segmentInterest (sampleName letter segment) [.generic [102]] 4000 false

def sampleData (letter : UInt8) (segment last : ℕ) (content : Option Block) : Data :=
  { Data.create (sampleName letter segment) with
    content
    metaInfo := { MetaInfo.empty with finalBlockId := some (.fromSegment last) } }

def sampleContent (byte : UInt8) : Option Block :=
  (Block.ofBytes [21, 1, byte]).toOption

/-- The downloads of `/x`, which has two segments, and of `/y`, which has one, up to the arrival of
the last segment of `/x`. -/
def sampleEvents : List Event :=
  [.interest (sampleRequest 120 0), .interest (sampleRequest 121 0),
    .data (sampleRequest 120 0) (sampleData 120 0 1 (sampleContent 1)),
    .data (sampleRequest 121 0) (sampleData 121 0 0 (sampleContent 2))]

set_option maxRecDepth 8000 in
/-- The last segment of `/x` arrives after `/y` has been completed. What is put is named as the first
segment of `/y` and holds the byte of `/x`. -/
theorem not_isolated_interleaved : ∃ _ : Sha256, ∃ last : Event, last.content = [.generic [120]] ∧
    (∃ expressed ∈ (Run.run (sampleFunc.observe id fun _ file => file) (Watch.init 0)
      sampleEvents).node.receiver.expressed, expressed.name = sampleName 120 1) ∧
    ((sampleFunc.step id (fun _ file => file) (Run.run (sampleFunc.observe id fun _ file => file)
      (Watch.init 0) sampleEvents).node last).2.map fun data => (data.name, data.contentValue)) =
      [(sampleName 121 0, [3])] ∧
    ¬ Run.Meets (sampleFunc.observe id fun _ file => file)
      (sampleFunc.Isolated id fun _ file => file) (Watch.init 0) (sampleEvents ++ [last]) := by
  let _ := Sha256.constant
  have hputs : ((sampleFunc.step id (fun _ file => file) (Run.run (sampleFunc.observe id
      fun _ file => file) (Watch.init 0) sampleEvents).node (.data (sampleRequest 120 1)
      (sampleData 120 1 1 (sampleContent 3)))).2.map fun data => (data.name, data.contentValue)) =
      [(sampleName 121 0, [3])] := by decide
  refine ⟨Sha256.constant, .data (sampleRequest 120 1) (sampleData 120 1 1 (sampleContent 3)), rfl,
    by decide, hputs, ?_⟩
  rintro ⟨-, -, -, -, hisolated, -⟩
  obtain ⟨data, hdata, hpair⟩ := exists_of_mem_map (hputs ▸ mem_singleton_self _)
  have hcontent := (hisolated data hdata).1
  rw [show data.name = sampleName 121 0 from congrArg Prod.fst hpair] at hcontent
  exact absurd hcontent (by decide)

theorem segmentNumber_sampleName {letter : UInt8} {segment : ℕ} (h : segment < 2 ^ 64) :
    segmentNumber (sampleName letter segment) = .ok segment := by
  change segmentNumber ([.generic [letter]] ++ [.fromSegment segment]) = _
  exact segmentNumber_append h

set_option maxRecDepth 8000 in
/-- The download of `/x`, whose result has two segments, is followed by that of `/y`. -/
theorem isolated_one_after_the_other : ∃ _ : Sha256, ∃ events : List Event,
    events.map Event.content = [[.generic [120]], [.generic [120]], [.generic [120]],
      [.generic [121]], [.generic [121]]] ∧
    Run.Meets (sampleFunc.observe id fun _ file => file ++ file)
      (sampleFunc.Isolated id fun _ file => file ++ file) (Watch.init 0) events := by
  let _ := Sha256.constant
  refine ⟨Sha256.constant, [.interest (sampleRequest 120 0),
    .data (sampleRequest 120 0) (sampleData 120 0 0 (sampleContent 1)),
    .interest (sampleRequest 120 1), .interest (sampleRequest 121 0),
    .data (sampleRequest 121 0) (sampleData 121 0 0 (sampleContent 2))], by decide,
    isolated_of_inTurn sampleFunc id (fun _ file => file ++ file) 0 _ ⟨?_, ?_, ?_, ?_, ?_, trivial⟩⟩
  · intro segment hsegment hpos
    cases hsegment.symm.trans (segmentNumber_sampleName (by decide))
    exact absurd hpos (by decide)
  · exact ⟨by decide, by decide, by decide⟩
  · intro _ _ _
    decide
  · intro segment hsegment hpos
    cases hsegment.symm.trans (segmentNumber_sampleName (by decide))
    exact absurd hpos (by decide)
  · exact ⟨by decide, by decide, by decide⟩

end Func

end NdnFc.Sfc
