import NdnFc.Lib.Method
import NdnFc.Name.Basic
import NdnFc.Tlv.Block

/-!
# Wire format of names

A name is an element whose sub-elements are its components (`ndn-cxx/name.cpp`, lines 112 to 157).
The encoder writes every component with a minimal header; the decoder takes every sub-element as a
component.
-/

namespace NdnFc

namespace Component

variable (c : Component)

def wireEncode : Bytes :=
  Tlv.encodeElement c.type c.value

/-- A sub-element of a name, seen as a component. -/
def ofBlock (b : Block) : Component :=
  ⟨b.type, b.value, b.type_pos, b.type_lt⟩

/-- `Component(wire)`, with the check `ensureValid`. -/
def ofBlockChecked (b : Block) : Except String Component :=
  create b.type b.value

def toBlock (h : c.value.length < 2 ^ 64) : Block :=
  .make c.type c.value c.type_pos c.type_lt h

@[simp] theorem wire_toBlock (h : c.value.length < 2 ^ 64) :
    (c.toBlock h).wire = c.wireEncode := rfl

@[simp] theorem ofBlock_toBlock (h : c.value.length < 2 ^ 64) :
    ofBlock (c.toBlock h) = c := rfl

theorem length_value_le_length_wireEncode : c.value.length ≤ c.wireEncode.length := by
  simp [wireEncode, Tlv.encodeElement]

end Component

namespace Name

variable (name : Name)

/-- The sub-elements of an encoded name: its components one after the other. -/
def encodeComponents : Bytes :=
  name.flatMap Component.wireEncode

def wireEncode : Bytes :=
  Tlv.encodeElement Tlv.name name.encodeComponents

/-- `Name(wire)`: the type of the element is not checked. -/
def ofBlock (wire : Block) : Except String Name := do
  let elements ← Block.parse wire.value
  pure (elements.map Component.ofBlock)

/-- `Name::wireDecode`. When the value does not parse, the name keeps the components that were read
before the error. -/
def wireDecode (wire : Block) : EStateM String Name Unit :=
  if wire.type ≠ Tlv.name then throw (Tlv.unexpectedType "Name" wire.type)
  else
    match ofBlock wire with
    | .ok name => set name
    | .error e => do
      set ((Block.parseLeftover wire.value).map Component.ofBlock)
      throw e

theorem run_wireDecode_eq_ok_iff {wire : Block} {name decoded : Name} {u : Unit} :
    (wireDecode wire).run name = .ok u decoded ↔
      wire.type = Tlv.name ∧ ofBlock wire = .ok decoded := by
  unfold wireDecode
  by_cases htype : wire.type = Tlv.name
  · rw [if_neg (not_not.mpr htype)]
    cases h : ofBlock wire with
    | ok n => simp [htype]
    | error e => simp [EStateM.run_bind]
  · simp [htype]

theorem length_value_le_of_mem {name : Name} {c : Component} (h : c ∈ name) :
    c.value.length ≤ name.encodeComponents.length := by
  obtain ⟨front, rest, rfl⟩ := List.append_of_mem h
  have hc := c.length_value_le_length_wireEncode
  simp only [encodeComponents, List.flatMap_append, List.flatMap_cons, List.length_append]
  omega

def toBlock (h : name.encodeComponents.length < 2 ^ 64) : Block :=
  .make Tlv.name name.encodeComponents (by decide) (by decide) h

section

variable (name : Name) (h : name.encodeComponents.length < 2 ^ 64)

include h

@[simp] theorem wire_toBlock :
    (name.toBlock h).wire = name.wireEncode := rfl

@[simp] theorem type_toBlock :
    (name.toBlock h).type = Tlv.name := rfl

@[simp] theorem ofBlock_toBlock : ofBlock (name.toBlock h) = .ok name := by
  have hparse : ∃ blocks, Block.parse (name.toBlock h).value = .ok blocks ∧
      List.Forall₂ (fun c b => c = Component.ofBlock b) name blocks :=
    Block.parse_flatMap_encode fun c hc =>
      ⟨c.toBlock ((length_value_le_of_mem hc).trans_lt h), rfl, rfl⟩
  obtain ⟨blocks, hvalue, hblocks⟩ := hparse
  have hcomponents : name = blocks.map Component.ofBlock := by
    rw [← List.forall₂_eq_eq_eq]
    exact List.forall₂_map_right_iff.mpr hblocks
  rw [ofBlock, hvalue, Fallible.ok_bind, ← hcomponents, Fallible.pure_eq_ok]

end

end Name

end NdnFc
