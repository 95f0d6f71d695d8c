import NdnFc.Lib.KeyedList
import NdnFc.Lib.Run
import NdnFc.Lib.SortedTable
import NdnFc.Name.Uri
import NdnFc.Packet.Interest

/-!
# The client face

The face of an application (`ndn-cxx/impl/face-impl.hpp`). Data and Nacks, whether received or put
by the application, are compared with every pending Interest. Calls run one after the other, and an
exception that escapes into the event loop shuts the face down.
-/

namespace NdnFc

open KeyedList

inductive NackReason where
  | none
  | congestion
  | duplicate
  | noRoute
deriving DecidableEq, Repr

/-- The number of a reason on the wire. -/
def NackReason.toNat : NackReason → ℕ
  | none => 0
  | congestion => 50
  | duplicate => 100
  | noRoute => 150

def isLessSevere (x y : NackReason) : Bool :=
  if x = .none then false
  else if y = .none then true
  else x.toNat < y.toNat

structure Nack where
  interest : Interest
  reason : NackReason
deriving DecidableEq

namespace Client

/-! ### Records -/

/-- `PendingInterestOrigin` -/
inductive Origin where
  | app
  | forwarder
deriving DecidableEq, Repr

/-- Which callbacks of an expressed Interest are set. -/
structure Callbacks where
  onData : Bool
  onNack : Bool
  onTimeout : Bool
deriving DecidableEq

/-- `PendingInterest`. A record for an Interest of the forwarder has no callbacks. -/
structure PendingInterest where
  id : ℕ
  interest : Interest
  origin : Origin
  callbacks : Callbacks
  nNotNacked : ℤ
  leastSevereNack : Option Nack
deriving DecidableEq

/-- `InterestFilter`. The regular expression is a predicate on what follows the prefix. -/
structure InterestFilter where
  filterPrefix : Name
  regexFilter : Option (Name → Bool)
  allowsLoopback : Bool

def InterestFilter.doesMatch (filter : InterestFilter) (name : Name) : Bool :=
  filter.filterPrefix.isPrefixOf name &&
    filter.regexFilter.all fun matches? => matches? (name.drop filter.filterPrefix.length)

structure InterestFilterRecord where
  id : ℕ
  filter : InterestFilter
  hasCallback : Bool

/-- `InterestFilterRecord::doesMatch`. The Function is compared after a conversion to text and
back, which may throw. -/
def InterestFilterRecord.doesMatch (record : InterestFilterRecord) (env : Option Bool)
    (entry : PendingInterest) : Except String Bool :=
  if entry.origin = .forwarder ∨ record.filter.allowsLoopback then do
    let function ← Name.ofUri (entry.interest.function.toUri env .envOrAlternate)
    pure (record.filter.doesMatch function || record.filter.doesMatch entry.interest.name)
  else pure false

/-- The face: its two tables, the last allocated numbers and the environment. -/
structure Face where
  pending : List PendingInterest
  filters : List InterestFilterRecord
  lastPendingId : ℕ
  env : Option Bool

def Face.init (env : Option Bool) : Face where
  pending := []
  filters := []
  lastPendingId := 0
  env := env

/-- What a face does: packets to the forwarder and calls into the application. -/
inductive Output where
  | sendInterest (interest : Interest)
  | sendData (data : DataPacket)
  | sendNack (nack : Nack)
  | dataCallback (id : ℕ) (interest : Interest) (data : DataPacket)
  | nackCallback (id : ℕ) (interest : Interest) (nack : Nack)
  | timeoutCallback (id : ℕ) (interest : Interest)
  | interestCallback (filter : ℕ) (interest : Interest)
deriving DecidableEq

/-- A record for an Interest that the application expresses. -/
def PendingInterest.ofApp (id : ℕ) (interest : Interest) (callbacks : Callbacks) :
    PendingInterest where
  id := id
  interest := interest
  origin := .app
  callbacks := callbacks
  nNotNacked := 0
  leastSevereNack := none

/-- A record for an Interest that the forwarder has sent. -/
def PendingInterest.ofForwarder (id : ℕ) (interest : Interest) : PendingInterest where
  id := id
  interest := interest
  origin := .forwarder
  callbacks := ⟨false, false, false⟩
  nNotNacked := 0
  leastSevereNack := none

variable (entry : PendingInterest)

def PendingInterest.recordForwarding : PendingInterest :=
  { entry with nNotNacked := entry.nNotNacked + 1 }

/-- `recordNack`: the record afterwards, and the Nack to report when no destination is left. -/
def PendingInterest.recordNack (nack : Nack) : PendingInterest × Option Nack :=
  let leastSevereNack :=
    match entry.leastSevereNack with
    | none => nack
    | some old => if isLessSevere nack.reason old.reason then nack else old
  let entry := { entry with
    nNotNacked := entry.nNotNacked - 1, leastSevereNack := some leastSevereNack }
  (entry, if 0 < entry.nNotNacked then none else some leastSevereNack)

/-- `RecordContainer::put`: the table is ordered by number. -/
def put (pending : List PendingInterest) : List PendingInterest :=
  SortedTable.emplace (compareOn PendingInterest.id) entry pending

/-! ### Data and Nacks -/

section

variable [Sha256]

/-- The loop of `satisfyPendingInterests`: the records that stay, the calls of callbacks, and
whether both kinds of record matched. -/
def satisfyLoop (data : DataPacket) :
    List PendingInterest → List PendingInterest × List Output × Bool × Bool
  | [] => ([], [], false, false)
  | entry :: rest =>
    let (kept, outputs, hasAppMatch, hasForwarderMatch) := satisfyLoop data rest
    if !entry.interest.matchesData data then
      (entry :: kept, outputs, hasAppMatch, hasForwarderMatch)
    else
      match entry.origin with
      | .app =>
        (kept, (if entry.callbacks.onData then [.dataCallback entry.id entry.interest data] else []) ++
          outputs, true, hasForwarderMatch)
      | .forwarder => (kept, outputs, hasAppMatch, true)

/-- `satisfyPendingInterests`, with its result: whether the Data should be sent to the
forwarder. -/
def satisfyPendingInterests (data : DataPacket) (face : Face) : Face × List Output × Bool :=
  let (kept, outputs, hasAppMatch, hasForwarderMatch) := satisfyLoop data face.pending
  ({ face with pending := kept }, outputs, hasForwarderMatch || !hasAppMatch)

end

/-- The loop of `nackPendingInterests`. The last Nack for a record of the forwarder is the one that
is returned. -/
def nackLoop (nack : Nack) :
    List PendingInterest → Option Nack → List PendingInterest × List Output × Option Nack
  | [], outNack => ([], [], outNack)
  | entry :: rest, outNack =>
    if !nack.interest.matchesInterest entry.interest then
      let (kept, outputs, out) := nackLoop nack rest outNack
      (entry :: kept, outputs, out)
    else
      match entry.recordNack nack with
      | (entry, none) =>
        let (kept, outputs, out) := nackLoop nack rest outNack
        (entry :: kept, outputs, out)
      | (entry, some outNack1) =>
        match entry.origin with
        | .app =>
          let (kept, outputs, out) := nackLoop nack rest outNack
          (kept, (if entry.callbacks.onNack then [.nackCallback entry.id entry.interest outNack1]
            else []) ++ outputs, out)
        | .forwarder => nackLoop nack rest (some outNack1)

def nackPendingInterests (nack : Nack) (face : Face) : Face × List Output × Option Nack :=
  let (kept, outputs, outNack) := nackLoop nack face.pending none
  ({ face with pending := kept }, outputs, outNack)

/-! ### Interests -/

/-- The loop of `dispatchInterest` over the filters: the number of times forwarded, the calls of
callbacks, and an exception of a comparison. -/
def dispatchLoop (env : Option Bool) (entry : PendingInterest) :
    List InterestFilterRecord → ℕ × List Output × Option String
  | [] => (0, [], none)
  | record :: rest =>
    match record.doesMatch env entry with
    | .error e => (0, [], some e)
    | .ok false => dispatchLoop env entry rest
    | .ok true =>
      let (count, outputs, thrown) := dispatchLoop env entry rest
      (count + 1, (if record.hasCallback then [.interestCallback record.id entry.interest]
        else []) ++ outputs, thrown)

def dispatchInterest (entry : PendingInterest) (face : Face) : Face × List Output × Option String :=
  let (count, outputs, thrown) := dispatchLoop face.env entry face.filters
  let pending := update PendingInterest.id face.pending entry.id
    fun e => { e with nNotNacked := e.nNotNacked + count }
  ({ face with pending }, outputs, thrown)

def shutdown (face : Face) : Face :=
  { face with pending := [] }

/-! ### Events -/

/-- What happens to a face. The outcome of encoding and sending a packet is part of the event; both
may throw. -/
inductive Event where
  | allocateId
  | expressInterest (id : ℕ) (interest : Interest) (callbacks : Callbacks) (sent : Except String Unit)
  | receiveInterest (interest : Interest)
  | receiveData (data : DataPacket)
  | receiveNack (nack : Nack)
  | putData (data : DataPacket) (sent : Except String Unit)
  | putNack (nack : Nack) (sent : Except String Unit)
  | timeout (id : ℕ)
  | removePendingInterest (id : ℕ)
  | removeAllPendingInterests
  | setInterestFilter (record : InterestFilterRecord)
  | unsetInterestFilter (id : ℕ)

/-- An exception shuts the face down. -/
def orShutdown : Option String → Face → Face
  | none, face => face
  | some _, face => shutdown face

/-- The exception of a failed send. -/
def thrownBy : Except String Unit → Option String
  | .ok _ => none
  | .error e => some e

/-- `expressInterest`, as the event loop executes it. -/
def expressInterest (id : ℕ) (interest : Interest) (callbacks : Callbacks)
    (sent : Except String Unit) (face : Face) : Face × List Output :=
  let entry := (PendingInterest.ofApp id interest callbacks).recordForwarding
  let face := { face with pending := put entry face.pending }
  match sent with
  | .error _ => (shutdown face, [])
  | .ok _ =>
    let (face, outputs, thrown) := dispatchInterest entry face
    (orShutdown thrown face, .sendInterest interest :: outputs)

def processIncomingInterest (interest : Interest) (face : Face) : Face × List Output :=
  let id := face.lastPendingId + 1
  let entry := PendingInterest.ofForwarder id interest
  let face := { face with pending := put entry face.pending, lastPendingId := id }
  let (face, outputs, thrown) := dispatchInterest entry face
  (orShutdown thrown face, outputs)

def putNack (nack : Nack) (sent : Except String Unit) (face : Face) : Face × List Output :=
  let (face, outputs, outNack) := nackPendingInterests nack face
  match outNack with
  | none => (face, outputs)
  | some outNack =>
    (orShutdown (thrownBy sent) face,
      outputs ++ if (thrownBy sent).isNone then [.sendNack outNack] else [])

/-- The timer of a record: the callback is called and the record erased. -/
def timeout (id : ℕ) (face : Face) : Face × List Output :=
  match get? PendingInterest.id face.pending id with
  | none => (face, [])
  | some entry =>
    ({ face with pending := erase PendingInterest.id face.pending id },
      if entry.callbacks.onTimeout then [.timeoutCallback entry.id entry.interest] else [])

variable [Sha256]

def putData (data : DataPacket) (sent : Except String Unit) (face : Face) : Face × List Output :=
  let (face, outputs, shouldSendToForwarder) := satisfyPendingInterests data face
  if shouldSendToForwarder then
    (orShutdown (thrownBy sent) face,
      outputs ++ if (thrownBy sent).isNone then [.sendData data] else [])
  else (face, outputs)

/-- The face after an event, and what it did. -/
def react (face : Face) : Event → Face × List Output
  | .allocateId => ({ face with lastPendingId := face.lastPendingId + 1 }, [])
  | .expressInterest id interest callbacks sent => expressInterest id interest callbacks sent face
  | .receiveInterest interest => processIncomingInterest interest face
  | .receiveData data =>
    let (face, outputs, _) := satisfyPendingInterests data face
    (face, outputs)
  | .receiveNack nack =>
    let (face, outputs, _) := nackPendingInterests nack face
    (face, outputs)
  | .putData data sent => putData data sent face
  | .putNack nack sent => putNack nack sent face
  | .timeout id => timeout id face
  | .removePendingInterest id =>
    ({ face with pending := erase PendingInterest.id face.pending id }, [])
  | .removeAllPendingInterests => ({ face with pending := [] }, [])
  | .setInterestFilter record =>
    let filters := SortedTable.emplace (compareOn InterestFilterRecord.id) record face.filters
    ({ face with filters }, [])
  | .unsetInterestFilter id =>
    ({ face with filters := erase InterestFilterRecord.id face.filters id }, [])

def step (face : Face) (event : Event) : Face :=
  (react face event).1

end Client

end NdnFc
