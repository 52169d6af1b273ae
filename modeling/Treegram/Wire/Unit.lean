import Treegram.Bytes
import Treegram.Fault

/-!
# The units of a message

A tree is sent depth first as a sequence of units. A unit starts with a control byte: what the
unit does in its two high bits, the tag of a node kind in the six others. A unit that opens a node
or adds an attribute goes on with two texts, name and value, each a length in four bytes and the
UTF-8 form.

A node is opened as the first child of the node that is open, or as the next sibling of the latest
one. The children of a node are ended by a unit of their own if there are any; those of the top
node always are.
-/

namespace Treegram

/-- What a unit does. -/
inductive Control where
  | newChild
  | newAttribute
  | newSibling
  | endOfChildren
  deriving DecidableEq

namespace Control

/-- The two high bits of a control byte. -/
def bits : Control → Nat
  | newChild => 0
  | newAttribute => 1
  | newSibling => 2
  | endOfChildren => 3

def ofBits : Nat → Control
  | 0 => newChild
  | 1 => newAttribute
  | 2 => newSibling
  | _ => endOfChildren

/-- The control byte for a tag, of which the six low bits count. -/
def byte (c : Control) (tag : Nat) : UInt8 :=
  .ofNat (c.bits * 64 + tag % 64)

def ofByte (b : UInt8) : Control × Nat :=
  (ofBits (b.toNat / 64), b.toNat % 64)

@[simp] theorem ofBits_bits (c : Control) : ofBits c.bits = c := by
  cases c <;> rfl

theorem bits_lt (c : Control) : c.bits < 4 := by
  cases c <;> decide

@[simp] theorem ofByte_byte (c : Control) (tag : Nat) : ofByte (c.byte tag) = (c, tag % 64) := by
  have := c.bits_lt
  have hb : (c.byte tag).toNat = c.bits * 64 + tag % 64 := by
    simp only [byte, UInt8.toNat_ofNat']
    omega
  simp only [ofByte, hb]
  rw [show (c.bits * 64 + tag % 64) / 64 = c.bits by omega,
    show (c.bits * 64 + tag % 64) % 64 = tag % 64 by omega, ofBits_bits]

end Control

inductive Place where
  | child
  | sibling
  deriving DecidableEq

def Place.control : Place → Control
  | child => .newChild
  | sibling => .newSibling

inductive WireUnit where
  | node (place : Place) (kind : NodeKind) (name value : String)
  | attr (kind : NodeKind) (name value : String)
  | close (kind : NodeKind)
  deriving DecidableEq

/-- The most bytes a text in a message may have. -/
def maxText : Nat := 16 * 1024 * 1024

end Treegram
