import NdnFc.Lib.Fallible
import NdnFc.Lib.LexOrder
import NdnFc.Name.Component

/-!
# Names

A name is a sequence of components (`ndn-cxx/name.cpp`). Names are compared component by component
in the canonical order, a proper prefix being first (lines 274 to 290), and the successor of a
name is its immediate follower among the names of its length (lines 235 to 244).
-/

namespace NdnFc

open List

abbrev Name := List Component

/-- SHA-256, of which only the size of its digests is known. -/
class Sha256 where
  digest : Bytes → Bytes
  length_digest : ∀ bytes, (digest bytes).length = digestSize

/-- A function with digests of the right size, for evaluating the model. -/
@[reducible] def Sha256.constant : Sha256 where
  digest _ := replicate digestSize 0
  length_digest _ := length_replicate

namespace Name

/-- `compare` on whole names. -/
def compare : Name → Name → Ordering :=
  List.compareLex Component.compare

instance : Std.TransCmp compare := inferInstanceAs (Std.TransCmp (List.compareLex _))

instance : Std.LawfulEqCmp compare := inferInstanceAs (Std.LawfulEqCmp (List.compareLex _))

variable (name : Name)

def endsWithDigest : Bool :=
  name.getLast?.any Component.isImplicitSha256Digest

def stripDigest : Name :=
  if name.endsWithDigest then name.dropLast else name

/-- Common body of `Interest::getNameFunction` and `Data::getNameFunction`. -/
def getNameFunction (function : Name) : Name :=
  name.stripDigest ++ function

/-- `getSuccessor`. The empty name has the least digest component as its successor. -/
def getSuccessor : Except String Name :=
  match name.getLast? with
  | none => do
    let least ← Component.create Tlv.implicitSha256DigestComponent (replicate digestSize 0)
    pure [least]
  | some last => do
    let next ← last.getSuccessor
    pure (name.dropLast ++ [next])

/-- The component of an implicit digest. -/
def implicitDigest (digest : Bytes) : Component :=
  ⟨Tlv.implicitSha256DigestComponent, digest, by decide, by decide⟩

@[simp] theorem isImplicitSha256Digest_implicitDigest [Sha256] (bytes : Bytes) :
    (implicitDigest (Sha256.digest bytes)).isImplicitSha256Digest := by
  simp [implicitDigest, Component.isImplicitSha256Digest, Sha256.length_digest]

@[simp] theorem endsWithDigest_append_singleton (c : Component) :
    endsWithDigest (name ++ [c]) = c.isImplicitSha256Digest := by
  simp [endsWithDigest]

@[simp] theorem endsWithDigest_nil : endsWithDigest [] = false := rfl

@[simp] theorem stripDigest_append_digest {c : Component}
    (h : c.isImplicitSha256Digest) : stripDigest (name ++ [c]) = name := by
  simp [stripDigest, h]

theorem stripDigest_isPrefix : name.stripDigest <+: name := by
  unfold stripDigest
  split
  · exact dropLast_prefix name
  · exact prefix_rfl

theorem length_le_stripDigest : name.length ≤ name.stripDigest.length + 1 := by
  unfold stripDigest
  split
  · rw [length_dropLast]
    omega
  · omega

theorem eq_stripDigest_append {name : Name} (h : name.endsWithDigest) :
    ∃ c, c.isImplicitSha256Digest ∧ name = name.stripDigest ++ [c] := by
  induction name using reverseRecOn with
  | nil => simp at h
  | append_singleton name c _ =>
    rw [endsWithDigest_append_singleton] at h
    exact ⟨c, h, by rw [stripDigest_append_digest name h]⟩

theorem getSuccessor_append_singleton_eq_ok_iff {p : Name} {c : Component} {next : Name} :
    getSuccessor (p ++ [c]) = .ok next ↔ ∃ c', c.getSuccessor = .ok c' ∧ next = p ++ [c'] := by
  simp only [getSuccessor, getLast?_concat, dropLast_concat, Fallible.bind_eq_ok_iff,
    Fallible.pure_eq_ok, Except.ok.injEq]
  exact exists_congr fun c' => and_congr_right fun _ => eq_comm

end Name

end NdnFc
