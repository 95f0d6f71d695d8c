import NdnFc.Sfc.Func

/-!
# Labels along a function chain

Each application takes its own name off the front of the Function on the way up and puts it back on
the way down. Both are inverse when it is registered under one component and every component of the
Function is read back from its text.
-/

namespace NdnFc

namespace Sfc.Func

open List Fallible

/-- The Function of the Data that an application returns for a Function, where `upstream` says with
which Function the forwarded Interest is answered. -/
def relabel (f : Func) (upstream : Name → Except String Name) (function : Name) :
    Except String Name := do
  let forwarded ← function.removeHead f.env
  let executedFunction ← upstream forwarded
  f.funcname executedFunction

/-- The Function of the Data that a consumer gets when the Interest passes the given applications
and then a producer, which answers with the Function that it is asked for. -/
def answer : List Func → Name → Except String Name
  | [], function => .ok function
  | f :: nodes, function => f.relabel (answer nodes) function

theorem funcname_eq (f : Func) (executedFunction : Name) :
    f.funcname executedFunction =
      (f.funcName.mapM (Component.throughUri f.env) >>= fun funcname =>
        pure (funcname ++ executedFunction)) := by
  rw [funcname, Name.ofUri_toUri]
  rfl

theorem length_of_funcname {f : Func} {function forwarded label : Name}
    (hforward : function.removeHead f.env = .ok forwarded)
    (hlabel : f.funcname forwarded = .ok label) :
    label.length = f.funcName.length + (function.length - 1) := by
  rw [Name.removeHead_eq, mapM_eq_ok_iff] at hforward
  rw [funcname_eq] at hlabel
  obtain ⟨own, hown, hlabel⟩ := bind_eq_ok_iff.mp hlabel
  cases hlabel
  rw [length_append, ← (mapM_eq_ok_iff.mp hown).length_eq, ← hforward.length_eq,
    length_tail]

theorem label_eq_iff {f : Func} {chain forwarded label : Name} (hname : f.funcName ≠ [])
    (hforward : (f.funcName ++ chain).removeHead f.env = .ok forwarded)
    (hlabel : f.funcname forwarded = .ok label) :
    label = f.funcName ++ chain ↔
      f.funcName.length = 1 ∧ ∀ c ∈ f.funcName ++ chain, c.UriStable f.env .envOrAlternate := by
  have hlength := length_of_funcname hforward hlabel
  have hpos := length_pos_iff.mpr hname
  rw [Name.removeHead_eq] at hforward
  rw [funcname_eq] at hlabel
  obtain ⟨own, hown, hlabel⟩ := bind_eq_ok_iff.mp hlabel
  cases hlabel
  constructor
  · intro heq
    -- the lengths leave room for one component only
    rw [heq, length_append] at hlength
    have hone : f.funcName.length = 1 := by omega
    obtain ⟨c, hc⟩ := length_eq_one_iff.mp hone
    rw [hc] at hown hforward heq ⊢
    have hsplit : own = [c] ∧ forwarded = chain := by
      refine append_inj heq ?_
      exact (mapM_eq_ok_iff.mp hown).length_eq.symm
    rw [hsplit.1] at hown
    rw [hsplit.2] at hforward
    exact ⟨rfl, forall_mem_append.mpr ⟨Name.mapM_throughUri_eq_self_iff.mp hown,
      Name.mapM_throughUri_eq_self_iff.mp hforward⟩⟩
  · rintro ⟨hone, hstable⟩
    obtain ⟨c, hc⟩ := length_eq_one_iff.mp hone
    rw [hc] at hown hforward hstable ⊢
    obtain ⟨hhead, htail⟩ := forall_mem_append.mp hstable
    rw [Name.mapM_throughUri_eq_self_iff.mpr hhead] at hown
    rw [singleton_append, tail_cons, Name.mapM_throughUri_eq_self_iff.mpr htail] at hforward
    cases hown
    cases hforward
    rfl

theorem relabel_eq {f : Func} {chain : Name} {upstream : Name → Except String Name}
    (hone : f.funcName.length = 1)
    (hstable : ∀ c ∈ f.funcName ++ chain, c.UriStable f.env .envOrAlternate)
    (hupstream : upstream chain = .ok chain) :
    f.relabel upstream (f.funcName ++ chain) = .ok (f.funcName ++ chain) := by
  obtain ⟨c, hc⟩ := length_eq_one_iff.mp hone
  rw [hc] at hstable ⊢
  obtain ⟨hown, htail⟩ := forall_mem_append.mp hstable
  rw [relabel, Name.removeHead_eq, singleton_append, tail_cons,
    Name.mapM_throughUri_eq_self_iff.mpr htail, ok_bind, hupstream, ok_bind, funcname_eq, hc,
    Name.mapM_throughUri_eq_self_iff.mpr hown]
  rfl

theorem answer_eq {nodes : List Func} {rest : Name} (hone : ∀ f ∈ nodes, f.funcName.length = 1)
    (hstable : ∀ f ∈ nodes, ∀ c ∈ nodes.flatMap funcName ++ rest, c.UriStable f.env .envOrAlternate) :
    answer nodes (nodes.flatMap funcName ++ rest) = .ok (nodes.flatMap funcName ++ rest) := by
  induction nodes with
  | nil => rfl
  | cons f nodes ih =>
    rw [flatMap_cons, append_assoc] at hstable ⊢
    refine relabel_eq (hone f mem_cons_self) (hstable f mem_cons_self) ?_
    refine ih (fun g hg => hone g (mem_cons_of_mem f hg)) fun g hg c hc => ?_
    exact hstable g (mem_cons_of_mem f hg) c (mem_append_right _ hc)

/-- An application of one or more components gets an Interest whose Function starts with them, and
the upstream answers with the Function it is asked for. The published Data carry the Function of the
Interest, and satisfy it in this respect, exactly when the application has one component and every
component of the Function is read back from its text. Along the chain, the consumer gets the
Function it asked for. -/
theorem labelling_iff [Sha256] :
    (∀ (f : Func) (chain : Name) (fresh : Nonce → Nonce) (interest forwarded : Interest.Object)
      (name : Name) (file : Bytes) (store : List Data), f.funcName ≠ [] →
      interest.function = f.funcName ++ chain →
      f.forwardInterest fresh interest = .ok forwarded →
      f.populateStore name file forwarded.function = .ok store →
      ∀ data ∈ store,
        (data.function = interest.function ↔ f.funcName.length = 1 ∧
          ∀ c ∈ interest.function, c.UriStable f.env .envOrAlternate) ∧
        ∀ packet : DataPacket, packet.function = data.function → interest.matchesData packet →
          (interest.matchesDataWFunction packet ↔ f.funcName.length = 1 ∧
            ∀ c ∈ interest.function, c.UriStable f.env .envOrAlternate)) ∧
    ∀ (nodes : List Func) (rest : Name), (∀ f ∈ nodes, f.funcName.length = 1) →
      (∀ f ∈ nodes, ∀ c ∈ nodes.flatMap funcName ++ rest, c.UriStable f.env .envOrAlternate) →
      answer nodes (nodes.flatMap funcName ++ rest) = .ok (nodes.flatMap funcName ++ rest) := by
  constructor
  · intro f chain fresh interest forwarded name file store hname hfunction hforward hstore data hdata
    obtain ⟨label, hlabel, hall⟩ := names_of_mem_populateStore hstore
    have hremove := function_of_forwardInterest hforward
    rw [hfunction] at hremove ⊢
    have hiff := label_eq_iff hname hremove hlabel
    rw [(hall data hdata).1]
    refine ⟨hiff, fun packet hpacket hmatches => ?_⟩
    rw [Interest.matchesDataWFunction_iff, hpacket, hfunction, eq_comm (b := label), hiff]
    exact and_iff_left hmatches
  · intro nodes rest hone hstable
    exact answer_eq hone hstable

/-! ### Applications with one and with two components -/

/-- An application registered under the given name, with default options. -/
def sample (funcName : Name) : Func where
  funcName := funcName
  options := {}
  env := none
  signatureInfo := .empty
  signatureValue _ := []

/-- The components `a`, `b` and `c`. -/
def sampleChain : Name := [.generic [97], .generic [98], .generic [99]]

/-- An Interest for the whole chain. -/
def sampleInterest : Interest.Object :=
  { Interest.ofName [.generic [110]] sampleChain with wire := none }

/-- The Interest that the application registered under the first `n` components forwards. -/
def sampleForwarded (n : ℕ) : Interest.Object :=
  ((sample (sampleChain.take n)).forwardInterest id sampleInterest).toOption.getD sampleInterest

/-- What it publishes when the forwarded Interest is answered with the Function it carries. -/
def sampleStore (n : ℕ) : List Data :=
  ((sample (sampleChain.take n)).populateStore [.generic [110]] [1]
    (sampleForwarded n).function).toOption.getD []

set_option maxRecDepth 8000 in
/-- The application registered under `/a/b` answers an Interest for `/a/b/c` with Data for
`/a/b/b/c`. -/
theorem not_labelled_twoComponents :
    (sample (sampleChain.take 2)).funcName ≠ [] ∧
    sampleInterest.function = (sample (sampleChain.take 2)).funcName ++ sampleChain.drop 2 ∧
    (sample (sampleChain.take 2)).forwardInterest id sampleInterest = .ok (sampleForwarded 2) ∧
    (sample (sampleChain.take 2)).populateStore [.generic [110]] [1] (sampleForwarded 2).function =
      .ok (sampleStore 2) ∧
    ∃ data ∈ sampleStore 2, data.function = sampleChain.take 2 ++ sampleChain.drop 1 ∧
      data.function ≠ sampleInterest.function := by
  refine ⟨by decide, by decide, by decide, by decide, ?_⟩
  decide

set_option maxRecDepth 8000 in
/-- The application registered under `/a` answers an Interest for `/a/b/c` with such Data. -/
theorem labelling_iff_oneComponent :
    ∃ data ∈ sampleStore 1, data.function = sampleInterest.function := by
  let _ := Sha256.constant
  obtain ⟨data, hdata⟩ := exists_mem_of_ne_nil (sampleStore 1) (by decide)
  refine ⟨data, hdata, ?_⟩
  exact ((labelling_iff.1 (sample (sampleChain.take 1)) (sampleChain.drop 1) id sampleInterest
    (sampleForwarded 1) [.generic [110]] [1] (sampleStore 1) (by decide) (by decide) (by decide)
    (by decide) data hdata).1).mpr (by decide)

end Sfc.Func

end NdnFc
