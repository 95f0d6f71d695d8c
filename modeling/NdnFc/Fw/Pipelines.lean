import NdnFc.Fw.FunctionChainStrategy
import NdnFc.Lib.Chrono
import NdnFc.Table.Cleanup
import NdnFc.Table.DeadNonceList

/-!
# The pipelines of the forwarder

The pipelines of the forwarder (`NFD-FC/daemon/fw/forwarder.cpp`), as far as they touch the PIT and
the Dead Nonce List. What a strategy does is an event of its own. What the content store finds, new
nonces and the time are given with the event. The assertion on the freshness period,
`Fw.assertsFreshnessPeriod`, does not stop the forwarder here.
-/

namespace NdnFc

/-- `canMatch`, which is asserted when an Interest is recorded in an entry: Name, CanBePrefix and
MustBeFresh agree. -/
def Pit.Entry.canMatch (e : Pit.Entry) (interest : Interest) : Bool :=
  e.interest.name == interest.name && e.interest.canBePrefix == interest.canBePrefix &&
    e.interest.mustBeFresh == interest.mustBeFresh

namespace Fw

/-- The faces, the network region table, and the hash of the Dead Nonce List. -/
structure Environment where
  faces : FaceId → FaceInfo
  networkRegionTable : List Name
  cityHash : Bytes → Nonce → UInt64

/-- The tables, the Dead Nonce List, and the Interests that have been sent, the last one first. -/
structure Pipelines (μ σ : Type*) where
  tables : Tables μ σ
  deadNonceList : DeadNonceList
  sent : List Interest

/-! ### The Dead Nonce List -/

/-- The nonce that a record holds before it is updated. -/
def zeroNonce : Nonce :=
  ⟨List.replicate 4 0, List.length_replicate⟩

variable (entry : Pit.Entry)

/-- The assertion in `insertDeadNonceList`. -/
def assertsFreshnessPeriod : Bool :=
  !entry.isSatisfied || decide (0 ≤ entry.dataFreshnessPeriod)

/-- The nonces of an entry are to be remembered: it was not satisfied, or by Data that is stale
before the list forgets them. The comparison is in 64-bit nanoseconds. -/
def needDnl : Bool :=
  !entry.isSatisfied || (entry.interest.mustBeFresh &&
    decide ((Chrono.nanoseconds entry.dataFreshnessPeriod).bmod (2 ^ 64) < DeadNonceList.lifetime))

/-- The out-records whose nonces `insertDeadNonceList` adds: all, or that of one upstream. -/
def recordsToAdd : Option FaceId → List Pit.OutRecord
  | none => entry.outRecords
  | some upstream => (entry.getOutRecord upstream).toList

def insertDeadNonceList (env : Environment) (entry : Pit.Entry) (upstream : Option FaceId)
    (l : DeadNonceList) : DeadNonceList :=
  if needDnl entry then
    (recordsToAdd entry upstream).foldl
      (fun l record => l.add env.cityHash entry.interest.name (record.lastNonce.getD zeroNonce)) l
  else l

def markSatisfied (data : DataPacket) : Pit.Entry :=
  { entry with isSatisfied := true, dataFreshnessPeriod := data.freshnessPeriod }

/-! ### Duplicate nonces -/

structure DuplicateNonceWhere where
  inSame : Bool
  inOther : Bool
  outSame : Bool
  outOther : Bool

def findDuplicateNonce (nonce : Nonce) (face : FaceId) : DuplicateNonceWhere where
  inSame := entry.inRecords.any fun r => r.lastNonce == some nonce && r.face == face
  inOther := entry.inRecords.any fun r => r.lastNonce == some nonce && r.face != face
  outSame := entry.outRecords.any fun r => r.lastNonce == some nonce && r.face == face
  outOther := entry.outRecords.any fun r => r.lastNonce == some nonce && r.face != face

/-- `hasDuplicateNonceInPit`. On a point-to-point face, a nonce that came from it before is not a
loop. -/
def hasDuplicateNonceInPit (env : Environment) (entry : Pit.Entry) (nonce : Nonce)
    (ingress : FaceId) : Bool :=
  let dnw := findDuplicateNonce entry nonce ingress
  (dnw.inSame || dnw.inOther || dnw.outSame || dnw.outOther) &&
    !(decide ((env.faces ingress).linkType = .pointToPoint) && dnw.inSame)

namespace Pipelines

variable {μ σ : Type*}

/-! ### Interests -/

variable (env : Environment)

/-- What strategies see of the forwarder. -/
def forwarder (f : Pipelines μ σ) : Forwarder μ σ :=
  ⟨f.tables.fib, env.networkRegionTable, env.faces⟩

/-- What becomes of an incoming Interest. -/
inductive Incoming where
  | hopLimitZero
  | violatesLocalhost
  | loopInDeadNonceList
  | loopInPit
  | contentStoreHit
  | contentStoreMiss
deriving DecidableEq

/-- `setExpiryTimer`, with the time at which the timer fires. -/
def setExpiryTimer (entry : Pit.Entry) (time now : Time) : Pit.Entry :=
  { entry with expiryTimer := some (max time now) }

def onContentStoreHit (entry : Pit.Entry) (data : DataPacket) (now : Time) (f : Pipelines μ σ) :
    Pipelines μ σ :=
  { f with tables :=
      f.tables.updatePitEntry entry (setExpiryTimer (markSatisfied entry data) now now) }

variable (ingress : FaceId)

/-- `onContentStoreMiss` up to the strategy. The timer is set to the last expiry of an in-record. -/
def onContentStoreMiss (entry : Pit.Entry) (interest : Interest) (now : Time)
    (f : Pipelines μ σ) : Pipelines μ σ :=
  let entry' := entry.insertOrUpdateInRecord ingress interest now
  let lastExpiring := (entry'.inRecords.map Pit.InRecord.expiry).max?.getD now
  { f with tables := f.tables.updatePitEntry entry (setExpiryTimer entry' lastExpiring now) }

/-- The end of `onIncomingInterest`, once the PIT entry is there. `found` is the Data that the
content store finds. -/
def onPitInsert (entry : Pit.Entry) (interest : Interest)
    (nonce : Nonce) (found : Option DataPacket) (now : Time) (f : Pipelines μ σ) :
    Incoming × Pipelines μ σ :=
  if hasDuplicateNonceInPit env entry nonce ingress then (.loopInPit, f)
  else
    match found with
    | some data =>
      if entry.inRecords = [] then (.contentStoreHit, f.onContentStoreHit entry data now)
      else (.contentStoreMiss, f.onContentStoreMiss ingress entry interest now)
    | none => (.contentStoreMiss, f.onContentStoreMiss ingress entry interest now)

/-- `onIncomingInterest`. `fresh` is the nonce that is generated for an Interest without one. -/
def onIncomingInterest (interest : Interest)
    (fresh : Nonce) (found : Option DataPacket) (now : Time) (f : Pipelines μ σ) :
    Incoming × Pipelines μ σ :=
  if interest.hopLimit = some 0 then (.hopLimitZero, f)
  else
    let interest := { interest with hopLimit := interest.hopLimit.map (· - 1) }
    if (env.faces ingress).scope = .nonLocal ∧ localhost.isPrefixOf interest.name then
      (.violatesLocalhost, f)
    else
      let nonce := interest.nonce.getD fresh
      if f.deadNonceList.has env.cityHash interest.name nonce then (.loopInDeadNonceList, f)
      else
        let interest := { interest with nonce := some nonce }
        let interest :=
          if interest.forwardingHint.dels ≠ [] ∧
              (f.forwarder env).isInProducerRegion interest.forwardingHint.dels then
            { interest with forwardingHint := .empty }
          else interest
        match f.tables.pit.insert interest with
        | (pit, some entry, _) =>
          onPitInsert env ingress entry interest nonce found now
            { f with tables := f.tables.setPit pit }
        -- `insert` always gives an entry
        | (_, none, _) => (.contentStoreMiss, f)

def onOutgoingInterest (entry : Pit.Entry) (egress : FaceId)
    (interest : Interest) (fresh : Nonce) (now : Time) (f : Pipelines μ σ) : Pipelines μ σ :=
  if interest.hopLimit = some 0 ∧ (env.faces egress).scope = .nonLocal then f
  else
    let interest := { interest with nonce := some (interest.nonce.getD fresh) }
    { f with
      tables := f.tables.updatePitEntry entry (entry.insertOrUpdateOutRecord egress interest now)
      sent := interest :: f.sent }

def onInterestFinalize (entry : Pit.Entry) (f : Pipelines μ σ) : Pipelines μ σ :=
  { f with
    deadNonceList := insertDeadNonceList env entry none f.deadNonceList
    tables := f.tables.setPit (f.tables.pit.erase entry true) }

/-! ### Data and Nacks -/

/-- What `onIncomingData` does to an entry that the Data satisfies. The in-records are cleared when
there are several entries. -/
def satisfy (data : DataPacket) (isOnly : Bool) (now : Time)
    (f : Pipelines μ σ) (entry : Pit.Entry) : Pipelines μ σ :=
  let entry' := setExpiryTimer (markSatisfied entry data) now now
  let cleared := if isOnly then entry' else entry'.clearInRecords
  { f with
    deadNonceList := insertDeadNonceList env entry' (some ingress) f.deadNonceList
    tables := f.tables.updatePitEntry entry (cleared.deleteOutRecord ingress) }

/-- `onIncomingData`. Data that no entry waits for changes nothing here. -/
def onIncomingData [Sha256] (env : Environment) (ingress : FaceId) (data : DataPacket) (now : Time)
    (f : Pipelines μ σ) : Pipelines μ σ :=
  if (env.faces ingress).scope = .nonLocal ∧ localhost.isPrefixOf data.name then f
  else
    let pitMatches := f.tables.pit.findAllDataMatches data
    pitMatches.foldl (satisfy env ingress data (pitMatches.length == 1) now) f

/-- `onIncomingNack`, up to the strategy. -/
def onIncomingNack (interest : Interest) (now : Time) (f : Pipelines μ σ) : Pipelines μ σ :=
  if (env.faces ingress).linkType ≠ .pointToPoint then f
  else
    match f.tables.pit.find interest with
    | none => f
    | some entry =>
      match entry.getOutRecord ingress with
      | none => f
      | some outRecord =>
        if interest.nonce ≠ outRecord.lastNonce then f
        else
          let entry' := { entry with outRecords := entry.outRecords.map fun r =>
            if r.face = ingress then { r with hasIncomingNack := true } else r }
          let entry'' := if hasPendingOutRecords entry' now then entry'
            else setExpiryTimer entry' now now
          { f with tables := f.tables.updatePitEntry entry entry'' }

def onOutgoingNack (entry : Pit.Entry) (egress : FaceId) (f : Pipelines μ σ) : Pipelines μ σ :=
  if (entry.getInRecord egress).isNone ∨ (env.faces egress).linkType ≠ .pointToPoint then f
  else { f with tables := f.tables.updatePitEntry entry (entry.deleteInRecord egress) }

/-! ### Runs -/

/-- What can happen to the forwarder. PIT entries are known by their node and their address. -/
inductive Event where
  | incomingInterest (ingress : FaceId) (interest : Interest) (fresh : Nonce)
      (found : Option DataPacket) (now : Time)
  | outgoingInterest (node : Name) (id : ℕ) (egress : FaceId) (interest : Interest) (fresh : Nonce)
      (now : Time)
  | interestFinalize (node : Name) (id : ℕ)
  | incomingData (ingress : FaceId) (data : DataPacket) (now : Time)
  | incomingNack (ingress : FaceId) (interest : Interest) (now : Time)
  | outgoingNack (node : Name) (id : ℕ) (egress : FaceId)
  | faceRemoval (order : List Name) (face : FaceId)
  | mark
  | adjustCapacity

/-- The PIT entry with an address on a node. -/
def pitEntry? (f : Pipelines μ σ) (node : Name) (id : ℕ) : Option Pit.Entry :=
  KeyedList.get? Pit.Entry.id (f.tables.nameTree.pitEntriesAt node) id

/-- The forwarder after an event. An event for an entry that is not there changes nothing. -/
def step [Sha256] (env : Environment) (f : Pipelines μ σ) : Event → Pipelines μ σ
  | .incomingInterest ingress interest fresh found now =>
    (f.onIncomingInterest env ingress interest fresh found now).2
  | .outgoingInterest node id egress interest fresh now =>
    match f.pitEntry? node id with
    -- `insertOrUpdateOutRecord` asserts that the Interest belongs to the entry
    | some entry =>
      if entry.canMatch interest then f.onOutgoingInterest env entry egress interest fresh now
      else f
    | none => f
  | .interestFinalize node id =>
    match f.pitEntry? node id with
    | some entry => f.onInterestFinalize env entry
    | none => f
  | .incomingData ingress data now => f.onIncomingData env ingress data now
  | .incomingNack ingress interest now => f.onIncomingNack env ingress interest now
  | .outgoingNack node id egress =>
    match f.pitEntry? node id with
    | some entry => f.onOutgoingNack env entry egress
    | none => f
  | .faceRemoval order face =>
    -- the enumeration of the name tree visits every node once
    if order.Perm (f.tables.nameTree.nodes.map NameTree.Entry.name) then
      match f.tables.cleanupOnFaceRemoval order face with
      | .ok tables => { f with tables }
      | .error _ => f
    else f
  | .mark => { f with deadNonceList := f.deadNonceList.mark }
  | .adjustCapacity => { f with deadNonceList := f.deadNonceList.adjustCapacity }

/-- The forwarder when it has been started: no PIT entries, and nothing has been sent. -/
structure Initial (f : Pipelines μ σ) : Prop where
  pit : ∀ n, f.tables.nameTree.pitEntriesAt n = []
  deadNonceList : f.deadNonceList = .create
  sent : f.sent = []

end Pipelines

end Fw

end NdnFc
