import NdnFc.Lib.Run
import NdnFc.Sfc.Receiver

/-!
# Consumers

A consumer (`NDN-FC-skeleton/sfc_consumer.cpp`) asks for the first segment of a content, then for
all the others, and writes the contents to a file. A fetch is a run over the Data that the network
brings.
-/

namespace NdnFc.Sfc

structure Consumer.Options where
  interestLifetime : Int64 := 10000000
  mustBeFresh : Bool := false
  isQuiet : Bool := false

/-- A consumer: what it asks for, its options and the environment it runs in. -/
structure Consumer where
  contentName : Name
  funcName : Name
  options : Consumer.Options
  env : Option Bool

namespace Consumer

/-- The members that change, and the contents of the files that have been written. -/
structure State where
  receiver : Receiver
  files : List Bytes

variable [Sha256]

/-- `run`: the first segment is asked for. The argument is the number of the last segment before it
is set. Without an Interest the program ends. -/
def run (c : Consumer) (uninitialised : ℕ) : State where
  receiver :=
    { contentPrefix := []
      filename := []
      receiveBuffer := []
      contentBuffer := []
      incomingFinalBlockNumber := uninitialised
      expressed :=
        match newInterest (c.contentName ++ [Component.fromSegment 0]) c.funcName
          c.options.interestLifetime c.options.mustBeFresh with
        | .ok interest => [interest]
        | .error _ => [] }
  files := []

/-- `onData`. An exception ends the program, so that nothing more is received. -/
def onData (c : Consumer) (data : Data) (s : State) (interest : Interest.Object) : State :=
  match (Receiver.receive c.env c.options.isQuiet interest.function c.options.interestLifetime
    c.options.mustBeFresh data).run s.receiver with
  | .ok (some (_, content)) receiver => { receiver, files := s.files ++ [content] }
  | .ok none receiver => { s with receiver }
  | .error _ receiver => { s with receiver := { receiver with expressed := [] } }

/-- The network brings a Data packet. -/
def answer (c : Consumer) (s : State) (data : Data) : State :=
  let asking := s.receiver.expressed.filter fun interest => interest.name = data.name
  let others := s.receiver.expressed.filter fun interest => interest.name ≠ data.name
  asking.foldl (c.onData data) { s with receiver := { s.receiver with expressed := others } }

/-- The consumer after the network has brought the Data packets. -/
def fetch (c : Consumer) (uninitialised : ℕ) (arrivals : List Data) : State :=
  Run.run c.answer (c.run uninitialised) arrivals

omit [Sha256] in
/-- Nothing that the consumer still asks for has been published. -/
def Settled (store : List Data) (s : State) : Prop :=
  ∀ interest ∈ s.receiver.expressed, ∀ data ∈ store, interest.name ≠ data.name

/-- However the published segments arrive, the file is written at most once while they do and exactly
once when no more of them can; and that comes to pass. -/
structure Transfers (c : Consumer) (uninitialised : ℕ) (store : List Data) (file : Bytes) :
    Prop where
  once : ∀ arrivals ⊆ store, (c.fetch uninitialised arrivals).files <+: [file]
  settled : ∀ arrivals ⊆ store, Settled store (c.fetch uninitialised arrivals) →
    (c.fetch uninitialised arrivals).files = [file]
  settles : ∀ arrivals ⊆ store, ∃ later ⊆ store,
    Settled store (c.fetch uninitialised (arrivals ++ later))

end Consumer

end NdnFc.Sfc
