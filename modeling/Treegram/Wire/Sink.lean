import Treegram.Document.Linked
import Treegram.Wire.Unit

/-!
# Writing linked documents

The nodes of a linked document are written along their links, into anything that takes bytes. A
counter keeps only how many they are: so the length of a message is known before there is room for
it. What was written before a node turned out to be one that cannot be sent stays written.
-/

namespace Treegram

/-- A place for bytes. It does not matter how they are put there, at once or in parts. -/
class Sink (τ : Type) where
  put : τ → Bytes → τ
  put_nil : ∀ s : τ, put s [] = s
  put_append : ∀ (s : τ) (a b : Bytes), put s (a ++ b) = put (put s a) b

instance : Sink Nat where
  put n b := n + b.length
  put_nil _ := rfl
  put_append n a b := by rw [List.length_append, Nat.add_assoc]

instance : Sink Bytes where
  put out b := out ++ b
  put_nil := List.append_nil
  put_append out a b := (List.append_assoc out a b).symm

/-- A computation that puts bytes into `τ` and may fail. Nothing comes of it if it looks into a dead
slot or goes round in a circle. -/
abbrev Writing (τ : Type) : Type → Type :=
  ExceptT Fault (StateT τ Option)

namespace Writing

variable {τ : Type} [Sink τ]

def put (b : Bytes) : Writing τ Unit :=
  fun s => some (.ok (), Sink.put s b)

def refuse (cause : Refusal) : Writing τ Unit :=
  fun s => some (.error (.refused cause), s)

def lookUp (n : Option LinkedNode) : Writing τ LinkedNode :=
  fun s => n.map fun n => (.ok n, s)

def text (s : String) : Writing τ Unit := do
  if s.utf8ByteSize ≤ maxText then
    put (Bytes.ofLength s.utf8ByteSize)
    put (Bytes.ofString s)
  else refuse (.longText s.utf8ByteSize)

def unit (c : Control) (kind : NodeKind) (name value : String) : Writing τ Unit := do
  put [c.byte kind.tag]
  text name
  text value

def attributes : List Attribute → Writing τ Unit
  | [] => pure ()
  | a :: as => do
    if a.name = "" then refuse .namelessAttribute
    unit .newAttribute .element a.name a.value
    attributes as

end Writing

namespace LinkedDocument

open Writing

variable {τ : Type} [Sink τ]

mutual

/-- Writes the node `id`, which stands so many levels below the top of the message, and all that is
below it. -/
def writeNode (c : LinkedDocument) (place : Place) (level : Nat) (id : NodeId) :
    Writing τ Unit := do
  let n ← lookUp (c.get? id)
  if n.label.kind = .document ∧ level ≠ 0 then refuse .innerDocument
  match nameFault? n.label.kind n.label.name with
  | some fault => refuse (.badName fault)
  | none => pure ()
  unit place.control n.label.kind n.label.name n.label.value
  attributes n.label.attributes
  c |>.writeFrom .child (level + 1) n.links.firstChild
  if n.links.firstChild.isSome ∨ level = 0 then put [Control.endOfChildren.byte n.label.kind.tag]
partial_fixpoint

/-- Writes the nodes that stand from a given one on. -/
def writeFrom (c : LinkedDocument) (place : Place) (level : Nat) :
    Option NodeId → Writing τ Unit
  | none => pure ()
  | some id => do
    let n ← lookUp (c.get? id)
    c |>.writeNode place level id
    c |>.writeFrom .sibling level n.links.next
partial_fixpoint

end

/-- The length of the message that holds the node `id`. -/
def encodedLength (c : LinkedDocument) (id : NodeId) : Option (Except Fault Nat) :=
  (c.writeNode .child 0 id 0).map fun p => p.1.map fun _ => p.2

/-- Writes the message that holds the node `id` behind `out`. -/
def encodeOnto (c : LinkedDocument) (id : NodeId) (out : Bytes) :
    Option (Except Fault Unit × Bytes) :=
  c.writeNode .child 0 id out

/-- The message that holds the node `id`. Nothing is written unless it is known how long it gets. -/
def encode (c : LinkedDocument) (id : NodeId) : Option (Except Fault Bytes) := do
  match ← c.encodedLength id with
  | .error e => return .error e
  | .ok _ =>
    let (result, out) ← c.encodeOnto id []
    return result.map fun _ => out

end LinkedDocument

end Treegram
