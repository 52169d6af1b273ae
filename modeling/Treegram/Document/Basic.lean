import Treegram.Document.Placed
import Treegram.Document.Slots
import Treegram.Fault

/-!
# Documents

A document is an ordered tree of nodes with identities, below one document node that is always
there. Nodes are added below or before other nodes and removed with all that is below them. An
identity is good for as long as its node lives; the slot of a removed node goes to a later one.

A new node has its slot before its parent is looked up. If the parent is dead, the node stays
without one: the call fails, but the node is there and takes its room. A parent that is dead, but
whose slot is the one handed out next, is found all the same: it is the new node. Such strays live
beside the tree; a caller that adds nodes below live ones only never makes any.
-/

namespace Treegram

structure Document where
  tree : Tree Node
  slots : Slots
  strays : List Stray
  deriving DecidableEq

namespace Document

def empty : Document where
  tree := ⟨⟨⟨0⟩, .document⟩, .nil⟩
  slots := ⟨[], 1⟩
  strays := []

def root (d : Document) : NodeId :=
  d.tree.node.id

def labels (d : Document) : Tree Label :=
  d.tree.labels

def nodeCount (d : Document) : Nat :=
  d.tree.size + d.strays.foldr (fun s n => s.size + n) 0

def byteSize (d : Document) : Nat :=
  d.tree.byteSize +
    d.strays.foldr (fun s n => s.weight (fun x => x.label.byteSize) + n) 0

/-! ## Looking around -/

def subtree? (d : Document) (id : NodeId) : Option (Tree Node) :=
  match d.tree.find? fun n => n.id == id with
  | some t => some t
  | none => d.strays.findSome? (Stray.subtree? id)

def contains (d : Document) (id : NodeId) : Bool :=
  (d.subtree? id).isSome

/-- The tree whose own node is `id`, which has to be alive. -/
def subtree (d : Document) (id : NodeId) : Except Misuse (Tree Node) :=
  match d.subtree? id with
  | some t => .ok t
  | none => .error .deadNode

def links (d : Document) (id : NodeId) : Except Misuse Links :=
  match d.tree.links? id with
  | some l => .ok l
  | none =>
    match d.strays.findSome? (Stray.links? id) with
    | some l => .ok l
    | none => .error .deadNode

def children (d : Document) (id : NodeId) : Except Misuse (List NodeId) :=
  (d.subtree id).map fun t => t.children.trees.map fun c => c.node.id

def firstChildNamed (d : Document) (id : NodeId) (name : String) :
    Except Misuse (Option NodeId) :=
  (d.subtree id).map fun t => (t.childNamed? name).map fun c => c.node.id

def after (d : Document) (id : NodeId) : Except Misuse (Forest Node) :=
  match d.tree.after? id with
  | some f => .ok f
  | none =>
    match d.strays.findSome? (Stray.after? id) with
    | some f => .ok f
    | none => .error .deadNode

def nextSiblingNamed (d : Document) (id : NodeId) (name : String) :
    Except Misuse (Option NodeId) :=
  (d.after id).map fun f => (f.element? name).map fun c => c.node.id

def isTop (d : Document) (id : NodeId) : Bool :=
  d.root == id || d.strays.any (Stray.isTop id)

def isLoop (d : Document) (id : NodeId) : Bool :=
  d.strays.any (Stray.isLoop id)

/-- Whether the trees at `a` and `b` agree in everything but the identity of their nodes. What is
below a node that is its own parent has no end, so it agrees with nothing. -/
def sameSubtree (d : Document) (a : NodeId) (e : Document) (b : NodeId) : Except Misuse Bool := do
  let t ← d.subtree a
  let u ← e.subtree b
  return !d.isLoop a && !e.isLoop b && t.sameAs u

/-- Whether two documents agree in everything but the identity of their nodes. -/
def sameShape (d e : Document) : Bool :=
  d.tree.sameAs e.tree

/-! ## Changing labels -/

/-- With the label of `id` changed by `g`. -/
def relabel (d : Document) (id : NodeId) (g : Label → Label) : Except Misuse Document :=
  if d.contains id then
    .ok { d with
      tree := d.tree.relabel id g
      strays := d.strays.map (Stray.relabel id g) }
  else .error .deadNode

def setName (d : Document) (id : NodeId) (name : String) : Except Misuse Document :=
  d.relabel id fun l => { l with name }

def setValue (d : Document) (id : NodeId) (value : String) : Except Misuse Document :=
  d.relabel id fun l => { l with value }

def appendAttribute (d : Document) (id : NodeId) (name value : String) :
    Except Misuse Document :=
  d.relabel id fun l => l.addAttribute name value

def removeAttribute (d : Document) (id : NodeId) (name : String) :
    Except Misuse (Document × Option String) := do
  let t ← d.subtree id
  let d ← d.relabel id fun l => l.dropAttribute name
  return (d, t.attribute? name)

/-! ## Adding nodes -/

/-- The trees of `f` with the identities they get when their nodes are created one by one, each
before its children. -/
def number (s : Slots) : Forest Label → Forest Node × Slots
  | .nil => (.nil, s)
  | .cons l kids rest =>
    let (kids', s') := number s.advance kids
    let (rest', s'') := number s' rest
    (.cons ⟨⟨s.next⟩, l⟩ kids' rest', s'')

/-- The document whose nodes are those of `f`, below the document node. -/
def ofForest (f : Forest Label) : Document :=
  let (children, slots) := number empty.slots f
  { tree := ⟨empty.tree.node, children⟩, slots, strays := [] }

/-- With the trees of `f` behind the children of `parent`. -/
def graft (d : Document) (parent : NodeId) (f : Forest Label) : Except Misuse Document :=
  if d.contains parent then
    let (new, slots) := number d.slots f
    .ok { tree := d.tree.graft parent new, slots
          strays := d.strays.map (Stray.graft parent new) }
  else .error .deadNode

/-- Adds a node that is not part of the tree. -/
def addStray (d : Document) (s : Stray) : Document :=
  { d with slots := d.slots.advance, strays := s :: d.strays }

/-- Adds a last child of `parent` and returns its identity. Below a dead node the new one is a
stray. -/
def appendChild (d : Document) (parent : NodeId) (l : Label) : Except Misuse NodeId × Document :=
  let id : NodeId := ⟨d.slots.next⟩
  match d.graft parent (.cons l .nil .nil) with
  | .ok d' => (.ok id, d')
  | .error cause =>
    if parent = id then (.ok id, d.addStray (.looped id (.cons ⟨id, l⟩ .nil .nil)))
    else (.error cause, d.addStray (.lost ⟨⟨id, l⟩, .nil⟩))

/-- With a new sibling right before `before`, whose identity is returned. -/
def insertBefore (d : Document) (before : NodeId) (l : Label) :
    Except Misuse (Document × NodeId) :=
  if d.isTop before then .error (.noParent before.slot)
  else if d.contains before then
    let (new, slots) := number d.slots (.cons l .nil .nil)
    .ok ({ tree := { d.tree with children := .insertBefore before new d.tree.children }, slots
           strays := d.strays.map (Stray.insertBefore before new) }, ⟨d.slots.next⟩)
  else .error .deadNode

/-! ## Removing nodes -/

/-- With the slots of a tree's nodes vacated, its own first. -/
def vacate (d : Document) (t : Tree Node) : Slots :=
  d.slots.vacate (t.postorder.map fun n => n.id.slot)

def remove (d : Document) (id : NodeId) : Except Misuse Document :=
  if d.root = id then .error .documentNode
  else
    match d.strays.findSome? (Stray.whole? id) with
    | some t =>
      .ok { d with
        slots := d.vacate t
        strays := d.strays.filter fun s => (s.whole? id).isNone }
    | none =>
      match d.subtree? id with
      | some t =>
        .ok { tree := { d.tree with children := d.tree.children.erase id }
              slots := d.vacate t
              strays := d.strays.map (Stray.erase id) }
      | none => .error .deadNode

/-- Without the nodes `ids` and all that is below them, up to the first of them that is dead by
then. -/
def removeAll (d : Document) : List NodeId → Document
  | [] => d
  | id :: ids =>
    match d.remove id with
    | .ok d' => d'.removeAll ids
    | .error _ => d

/-- Removes all that is below `id`. A node that is its own parent goes with its children, and then
the call fails. -/
def removeChildren (d : Document) (id : NodeId) : Except Misuse Unit × Document :=
  match d.children id with
  | .ok ids =>
    let d' := d.removeAll ids
    (if d'.contains id then .ok () else .error .deadNode, d')
  | .error cause => (.error cause, d)

end Document

end Treegram
