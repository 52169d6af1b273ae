import Treegram.Wire.Assembly
import Treegram.Wire.Source
import Treegram.Document.Basic

/-!
# Reading messages

A message is read unit by unit until the tree it holds is complete; no byte behind it is taken.
-/

namespace Treegram

/-- What was made of a message: the trees that were read, whether they are the children of a
document, and what ended it before it was complete. -/
structure Decoded where
  forest : Forest Label
  isDocument : Bool
  fault : Option Fault
  deriving DecidableEq

namespace Wire

variable {σ : Type} [ByteSource σ]

/-- Reads units until the message is complete or fails. -/
def assemble (belowDocument : Bool) (a : Assembly) (s : σ) : (Assembly × Option Fault) × σ :=
  match h : readUnit s with
  | (.error e, s') => ((a, some e), s')
  | (.ok u, s') =>
    have := takes_readUnit _ _ _ h
    match a.step belowDocument u with
    | .error cause => ((a, some (.malformed cause)), s')
    | .ok (.complete a') => ((a', none), s')
    | .ok (.more a') => assemble belowDocument a' s'
termination_by ByteSource.size s

def decode (belowDocument : Bool) (s : σ) : Decoded × σ :=
  let ((a, fault), s') := assemble belowDocument .start s
  (⟨a.forest, a.isDocument, fault⟩, s')

def decodeDocument : Reading σ (Tree Label) := fun s =>
  match decode true s with
  | (⟨forest, _, none⟩, s') => (.ok ⟨.document, forest⟩, s')
  | (⟨_, _, some e⟩, s') => (.error e, s')

/-- Reads one message below `parent`. What was read stays there in any case; the result is the
first new node, or `parent` for a message that starts with a document node. -/
def decodeInto (d : Document) (parent : NodeId) (s : σ) :
    Except Misuse ((Document × Except Fault NodeId) × σ) := do
  let t ← d.subtree parent
  let (message, s') := decode (t.node.label.kind == .document) s
  let d' ← d.graft parent message.forest
  let result :=
    match message.fault with
    | some e => .error e
    | none => .ok (if message.isDocument then parent else ⟨d.slots.next⟩)
  return ((d', result), s')

end Wire

end Treegram
