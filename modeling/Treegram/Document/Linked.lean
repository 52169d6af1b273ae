import Treegram.Arena
import Treegram.Document.Basic

/-!
# Documents of linked nodes

A document whose nodes stay in their slots, each with its links to the nodes around it. A node is
added or removed by changing the links of those next to it; what is removed is freed node by node,
a stack holding those that are still to go.

Nothing guards the links. Nothing comes of an operation that looks into a dead slot, removes the
document node, or goes round in a circle.
-/

namespace Treegram

/-- The links of a node that stands alone. -/
def Links.alone : Links :=
  ⟨none, none, none, none, none⟩

structure LinkedNode where
  label : Label
  links : Links

structure LinkedDocument where
  nodes : Arena LinkedNode
  root : NodeId

namespace LinkedDocument

def empty : LinkedDocument where
  nodes := Arena.empty.insert ⟨.document, .alone⟩
  root := ⟨0⟩

def get? (d : LinkedDocument) (id : NodeId) : Option LinkedNode :=
  d.nodes.get? id.slot

/-- With the node `id` changed by `f`. -/
def modify? (d : LinkedDocument) (id : NodeId) (f : LinkedNode → LinkedNode) :
    Option LinkedDocument := do
  return { d with nodes := ← d.nodes.modify? id.slot f }

def relabel (d : LinkedDocument) (id : NodeId) (g : Label → Label) : Option LinkedDocument :=
  d.modify? id fun n => { n with label := g n.label }

def relink (d : LinkedDocument) (id : NodeId) (g : Links → Links) : Option LinkedDocument :=
  d.modify? id fun n => { n with links := g n.links }

/-- With `next` behind the node `previous`, or if there is none, as the first child of `parent`. -/
def setNext (d : LinkedDocument) (parent previous next : Option NodeId) :
    Option LinkedDocument :=
  match previous, parent with
  | some p, _ => d.relink p fun l => { l with next }
  | none, some p => d.relink p fun l => { l with firstChild := next }
  | none, none => some d

/-- With `previous` in front of the node `next`, or if there is none, as the last child of
`parent`. -/
def setPrevious (d : LinkedDocument) (parent next previous : Option NodeId) :
    Option LinkedDocument :=
  match next, parent with
  | some n, _ => d.relink n fun l => { l with previous }
  | none, some p => d.relink p fun l => { l with lastChild := previous }
  | none, none => some d

/-! ## Adding nodes -/

/-- The identity that the next node gets. -/
def nextId (d : LinkedDocument) : NodeId :=
  ⟨d.nodes.next⟩

/-- With a new node that stands alone. -/
def create (d : LinkedDocument) (l : Label) : LinkedDocument :=
  { d with nodes := d.nodes.insert ⟨l, .alone⟩ }

def appendChild (d : LinkedDocument) (parent : NodeId) (l : Label) :
    Option (NodeId × LinkedDocument) := do
  let id := d.nextId
  let d := d.create l
  let p ← d.get? parent
  let previous := p.links.lastChild
  let d ← d.relink id fun l => { l with parent := some parent, previous }
  let d ← d.setNext (some parent) previous (some id)
  let d ← d.setPrevious (some parent) none (some id)
  return (id, d)

def insertBefore (d : LinkedDocument) (before : NodeId) (l : Label) :
    Option (NodeId × LinkedDocument) := do
  let parent ← (← d.get? before).links.parent
  let id := d.nextId
  let d := d.create l
  let b ← d.get? before
  let previous := b.links.previous
  let d ← d.relink id fun l => { l with parent := some parent, previous, next := some before }
  let d ← d.setPrevious (some parent) (some before) (some id)
  let d ← d.setNext (some parent) previous (some id)
  return (id, d)

/-! ## Removing nodes -/

/-- The stack with the nodes on top that stand from a given one on, the last of them topmost. -/
def pushFrom (d : LinkedDocument) (stack : List NodeId) : Option NodeId → Option (List NodeId)
  | none => some stack
  | some id => do
    let n ← d.get? id
    d |>.pushFrom (id :: stack) n.links.next
partial_fixpoint

/-- Without the nodes on the stack and all that is below them. -/
def free (d : LinkedDocument) : List NodeId → Option LinkedDocument
  | [] => some d
  | id :: stack => do
    let (n, nodes) ← d.nodes.remove? id.slot
    let d := { d with nodes }
    d |>.free (← d.pushFrom stack n.links.firstChild)
partial_fixpoint

def remove (d : LinkedDocument) (id : NodeId) : Option LinkedDocument :=
  if id = d.root then none
  else do
    let n ← d.get? id
    let d ← d.setNext n.links.parent n.links.previous n.links.next
    let d ← d.setPrevious n.links.parent n.links.next n.links.previous
    d.free [id]

def removeChildren (d : LinkedDocument) (id : NodeId) : Option LinkedDocument := do
  let n ← d.get? id
  match n.links.firstChild with
  | some child => (← d.remove child) |>.removeChildren id
  | none => some d
partial_fixpoint

end LinkedDocument

/-! ## Edits -/

/-- What is done to a document. A new element is a child like any other. -/
inductive Edit where
  | appendChild (parent : NodeId) (kind : NodeKind) (name value : String)
  | insertBefore (before : NodeId) (kind : NodeKind) (name value : String)
  | remove (id : NodeId)
  | removeChildren (id : NodeId)
  | setName (id : NodeId) (name : String)
  | setValue (id : NodeId) (value : String)
  | appendAttribute (id : NodeId) (name value : String)
  | removeAttribute (id : NodeId) (name : String)
  deriving DecidableEq

/-- The node an edit is about. -/
def Edit.target : Edit → NodeId
  | appendChild parent _ _ _ => parent
  | insertBefore before _ _ _ => before
  | remove id => id
  | removeChildren id => id
  | setName id _ => id
  | setValue id _ => id
  | appendAttribute id _ _ => id
  | removeAttribute id _ => id

/-- Whether the edit needs a node that has a parent. -/
def Edit.needsParent : Edit → Bool
  | insertBefore .. | remove _ => true
  | _ => false

/-- Whether an edit is for a node that lives, and has a parent if the edit needs one. -/
def Document.accepts (d : Document) (e : Edit) : Bool :=
  d.contains e.target && !(e.needsParent && d.root == e.target)

/-- After an edit, whether it fails or not. -/
def Document.edit (d : Document) : Edit → Document
  | .appendChild parent kind name value => (d.appendChild parent (.plain kind name value)).2
  | .insertBefore before kind name value =>
    match d.insertBefore before (.plain kind name value) with
    | .ok (d', _) => d'
    | .error _ => d
  | .remove id => (d.remove id).toOption.getD d
  | .removeChildren id => (d.removeChildren id).2
  | .setName id name => (d.setName id name).toOption.getD d
  | .setValue id value => (d.setValue id value).toOption.getD d
  | .appendAttribute id name value => (d.appendAttribute id name value).toOption.getD d
  | .removeAttribute id name =>
    match d.removeAttribute id name with
    | .ok (d', _) => d'
    | .error _ => d

/-- Whether edits, one after the other, are all accepted. -/
def Document.acceptsAll : Document → List Edit → Bool
  | _, [] => true
  | d, e :: es => d.accepts e && (d.edit e).acceptsAll es

def LinkedDocument.edit (d : LinkedDocument) : Edit → Option LinkedDocument
  | .appendChild parent kind name value =>
    (d.appendChild parent (.plain kind name value)).map Prod.snd
  | .insertBefore before kind name value =>
    (d.insertBefore before (.plain kind name value)).map Prod.snd
  | .remove id => d.remove id
  | .removeChildren id => d.removeChildren id
  | .setName id name => d.relabel id fun l => { l with name }
  | .setValue id value => d.relabel id fun l => { l with value }
  | .appendAttribute id name value => d.relabel id fun l => l.addAttribute name value
  | .removeAttribute id name => d.relabel id fun l => l.dropAttribute name

/-- After edits, one after the other. -/
def LinkedDocument.run : LinkedDocument → List Edit → Option LinkedDocument
  | d, [] => some d
  | d, e :: es => do run (← d.edit e) es

end Treegram
