import Treegram.Document.Linked
import Treegram.Wire.Source

/-!
# Reading with a cursor

A message that is read below a node of a document puts each node into the document as soon as the
unit comes in that opens it. A cursor stands at the node that is open. It goes down with each child
and up along the link to the parent, and counts how far below the start it stands; nothing else
keeps it below the node where it started.
-/

namespace Treegram

/-- Why a message was not read to its end. -/
inductive Halt where
  | fault (e : Fault)
  /-- The cursor had to go up from a node that has no parent. -/
  | aboveTop
  deriving DecidableEq

def Halt.message : Halt → String
  | fault e => e.message
  | aboveTop => "bad message: end of children above the top level"

structure Cursor where
  document : LinkedDocument
  node : NodeId
  /-- How far the node is below the one where the cursor started. -/
  level : Nat
  /-- The message ends with an end of children that leads up to this level. -/
  limit : Nat
  /-- The first node of the message. -/
  top : Option NodeId
  /-- Whether nothing was read yet. -/
  first : Bool

namespace Cursor

/-- What a unit makes of a cursor: it is moved, or at the end of the message, which has a result. -/
inductive Move where
  | more (k : Cursor)
  | done (k : Cursor) (top : NodeId)

def halt (cause : Malformed) : Option (Except Halt Move) :=
  some (.error (.fault (.malformed cause)))

def proceed (k : Cursor) : Option (Except Halt Move) :=
  some (.ok (.more k))

def start (d : LinkedDocument) (parent : NodeId) : Cursor :=
  ⟨d, parent, 0, 1, none, true⟩

/-- At a new last child of `owner`. -/
def open? (k : Cursor) (owner : NodeId) (level : Nat) (l : Label) :
    Option (Except Halt Move) := do
  let (id, document) ← k.document.appendChild owner l
  proceed { k with document, node := id, level, top := k.top.or (some id), first := false }

/-- After one more unit of a message that is read below `parent`. -/
def step (parent : NodeId) (k : Cursor) : WireUnit → Option (Except Halt Move)
  | .node place kind name value =>
    if kind = .document then
      if !k.first ∨ place ≠ .child then halt .lateDocument
      else do
        let p ← k.document.get? parent
        if p.label.kind ≠ .document then halt .innerDocument
        else
          match nameFault? kind name with
          | some fault => halt (.badName fault)
          | none => proceed { k with limit := 0, top := some parent, first := false }
    else
      match nameFault? kind name, place with
      | some fault, _ => halt (.badName fault)
      | none, .child => k.open? k.node (k.level + 1) (.plain kind name value)
      | none, .sibling => do
        let n ← k.document.get? k.node
        match n.links.parent with
        | some owner =>
          if k.level = 0 then halt .topSibling
          else k.open? owner k.level (.plain kind name value)
        | none => halt .topSibling
  | .attr _ name value =>
    if k.level = 0 then halt .topAttribute
    else if name = "" then halt .namelessAttribute
    else do
      let document ← k.document.relabel k.node fun l => l.addAttribute name value
      proceed { k with document, first := false }
  | .close _ =>
    if k.level = 0 then
      if k.limit = 0 then some (.ok (.done k parent)) else halt .topEnd
    else do
      let n ← k.document.get? k.node
      match n.links.parent with
      | none => some (.error .aboveTop)
      | some node =>
        let k := { k with node, level := k.level - 1, first := false }
        if k.level ≤ k.limit then some (.ok (.done k (k.top.getD parent))) else proceed k

/-- Reads units until the message is complete or fails. What was read stays in the document. -/
def read {σ : Type} [ByteSource σ] (parent : NodeId) (k : Cursor) (s : σ) :
    Option ((LinkedDocument × Except Halt NodeId) × σ) :=
  match h : Wire.readUnit s with
  | (.error e, s') => some ((k.document, .error (.fault e)), s')
  | (.ok u, s') =>
    have := Wire.takes_readUnit _ _ _ h
    match k.step parent u with
    | none => none
    | some (.error cause) => some ((k.document, .error cause), s')
    | some (.ok (.done k' top)) => some ((k'.document, .ok top), s')
    | some (.ok (.more k')) => k'.read parent s'
termination_by ByteSource.size s

end Cursor

namespace LinkedDocument

/-- Reads one message below `parent`. Nothing comes of it if that is dead, or if the cursor ever
comes to stand at a dead node. -/
def decode {σ : Type} [ByteSource σ] (d : LinkedDocument) (parent : NodeId) (s : σ) :
    Option ((LinkedDocument × Except Halt NodeId) × σ) :=
  (Cursor.start d parent).read parent s

end LinkedDocument

end Treegram
