import NdnFc.Packet.DelegationList

/-!
# Interests, Data packets and how they match

The fields of an Interest (`ndn-cxx/interest.hpp`), the part of a Data packet that the tables read,
and when two Interests share state or a Data answers an Interest (`interest.cpp`, lines 306 to 411).
-/

namespace NdnFc

abbrev Nonce := {bytes : Bytes // bytes.length = 4}

/-- An Interest. The lifetime is in milliseconds. -/
structure Interest where
  name : Name
  function : Name
  canBePrefix : Bool
  mustBeFresh : Bool
  forwardingHint : DelegationList
  nonce : Option Nonce
  interestLifetime : ℤ
  hopLimit : Option UInt8
  parameters : List Block
deriving DecidableEq

abbrev defaultInterestLifetime : ℤ := 4000

/-- A received Data packet: its bytes and what the tables read of them. The freshness period is in
milliseconds. -/
structure DataPacket where
  name : Name
  function : Name
  freshnessPeriod : ℤ
  wire : Bytes
deriving DecidableEq

namespace DataPacket

/-- `getFullName`: the name followed by the implicit digest of the packet. -/
def getFullName [Sha256] (d : DataPacket) : Name :=
  d.name ++ [Name.implicitDigest (Sha256.digest d.wire)]

/-- `hasFunction`. The source compares the URI of the Function with that of the empty name. -/
def hasFunction (d : DataPacket) : Bool :=
  !d.function.isEmpty

def getNameFunction (d : DataPacket) : Name :=
  Name.getNameFunction d.name d.function

end DataPacket

namespace Interest

/-- `Interest(name)`: an Interest with a Function and the default values. -/
def ofName (name function : Name) : Interest where
  name := name
  function := function
  canBePrefix := false
  mustBeFresh := false
  forwardingHint := DelegationList.empty
  nonce := none
  interestLifetime := defaultInterestLifetime
  hopLimit := none
  parameters := []

/-- `hasFunction`. The source compares the URI of the Function with that of the empty name. -/
def hasFunction (i : Interest) : Bool :=
  !i.function.isEmpty

def getNameFunction (i : Interest) : Name :=
  Name.getNameFunction i.name i.function

/-- `matchesData`: Name, CanBePrefix, implicit digest and MustBeFresh, but not the Function. -/
def matchesData [Sha256] (i : Interest) (d : DataPacket) : Bool :=
  let nameMatches :=
    if i.name.length = d.name.length + 1 then
      i.name.endsWithDigest && i.name == d.getFullName
    else if i.canBePrefix then i.name.isPrefixOf d.name
    else i.name == d.name
  nameMatches && !(i.mustBeFresh && decide (d.freshnessPeriod ≤ 0))

def matchesDataWFunction [Sha256] (i : Interest) (d : DataPacket) : Bool :=
  if i.hasFunction != d.hasFunction then false
  else if !i.hasFunction || i.function == d.function then i.matchesData d
  else false

def matchesInterest (i other : Interest) : Bool :=
  i.name == other.name && i.canBePrefix == other.canBePrefix && i.mustBeFresh == other.mustBeFresh

def matchesInterestWFunction (i other : Interest) : Bool :=
  if i.hasFunction != other.hasFunction then false
  else if i.function == other.function then i.matchesInterest other
  else false

theorem matchesDataWFunction_iff [Sha256] {i : Interest} {d : DataPacket} :
    i.matchesDataWFunction d ↔ i.function = d.function ∧ i.matchesData d := by
  unfold matchesDataWFunction hasFunction DataPacket.hasFunction
  rcases hi : i.function with _ | ⟨c, f⟩ <;> rcases hd : d.function with _ | ⟨c', f'⟩ <;> simp

theorem matchesInterestWFunction_iff {i other : Interest} :
    i.matchesInterestWFunction other ↔ i.name = other.name ∧ i.function = other.function ∧
      i.canBePrefix = other.canBePrefix ∧ i.mustBeFresh = other.mustBeFresh := by
  unfold matchesInterestWFunction matchesInterest hasFunction
  by_cases h : i.function = other.function <;> simp [h, and_assoc]

end Interest

end NdnFc
