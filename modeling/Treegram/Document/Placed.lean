import Treegram.Node

/-!
# Nodes with an identity

A node of a document carries the identity by which its owner refers to it. The forest operations
here find the node of a given identity and change what is at or around it; all else stays as it
is. They are meant for forests in which no identity occurs twice.
-/

namespace Treegram

/-- The identity of a node: the slot it occupies in its document. -/
structure NodeId where
  slot : Nat
  deriving DecidableEq

structure Node where
  id : NodeId
  label : Label
  deriving DecidableEq

instance : Labelled Node := ⟨Node.label⟩

structure Links where
  parent : Option NodeId
  previous : Option NodeId
  next : Option NodeId
  firstChild : Option NodeId
  lastChild : Option NodeId
  deriving DecidableEq

namespace Forest

/-- The identities of all nodes, each before those below it. -/
def ids (f : Forest Node) : List NodeId :=
  f.nodes.map Node.id

def firstId? : Forest Node → Option NodeId
  | .nil => none
  | .cons n _ _ => some n.id

def lastId? : Forest Node → Option NodeId
  | .nil => none
  | .cons n _ .nil => some n.id
  | .cons _ _ rest => rest.lastId?

/-- The tree whose own node is `id`. -/
def subtree? (f : Forest Node) (id : NodeId) : Option (Tree Node) :=
  f.find? fun n => n.id == id

/-- The siblings after `id`. -/
def after? (id : NodeId) : Forest Node → Option (Forest Node)
  | .nil => none
  | .cons n kids rest =>
    if n.id = id then some rest
    else
      match kids.after? id with
      | some f => some f
      | none => rest.after? id

/-- The neighbours of `id` in a forest that stands below `parent` behind `previous`. -/
def links? (id : NodeId) (parent previous : Option NodeId) : Forest Node → Option Links
  | .nil => none
  | .cons n kids rest =>
    if n.id = id then some ⟨parent, previous, rest.firstId?, kids.firstId?, kids.lastId?⟩
    else
      match kids.links? id (some n.id) none with
      | some l => some l
      | none => rest.links? id parent (some n.id)

/-- With the label of `id` changed by `g`. -/
def relabel (id : NodeId) (g : Label → Label) (f : Forest Node) : Forest Node :=
  f.map fun n => if n.id = id then { n with label := g n.label } else n

/-- With the trees of `new` behind the children of `id`. -/
def graft (id : NodeId) (new : Forest Node) : Forest Node → Forest Node
  | .nil => .nil
  | .cons n kids rest =>
    if n.id = id then .cons n (kids ++ new) rest
    else .cons n (graft id new kids) (graft id new rest)

/-- With the trees of `new` right before `id`. -/
def insertBefore (id : NodeId) (new : Forest Node) : Forest Node → Forest Node
  | .nil => .nil
  | .cons n kids rest =>
    if n.id = id then new ++ .cons n kids rest
    else .cons n (insertBefore id new kids) (insertBefore id new rest)

/-- Without the tree whose own node is `id`. -/
def erase (id : NodeId) : Forest Node → Forest Node
  | .nil => .nil
  | .cons n kids rest =>
    if n.id = id then rest
    else .cons n (kids.erase id) (rest.erase id)

end Forest

namespace Tree

def relabel (id : NodeId) (g : Label → Label) (t : Tree Node) : Tree Node :=
  ⟨if t.node.id = id then { t.node with label := g t.node.label } else t.node,
    t.children.relabel id g⟩

def graft (id : NodeId) (new : Forest Node) (t : Tree Node) : Tree Node :=
  ⟨t.node, if t.node.id = id then t.children ++ new else .graft id new t.children⟩

def links? (id : NodeId) (t : Tree Node) : Option Links :=
  (Forest.single t).links? id none none

def after? (id : NodeId) (t : Tree Node) : Option (Forest Node) :=
  (Forest.single t).after? id

end Tree

/-- What lives in a document beside its tree. -/
inductive Stray where
  /-- A tree whose own node has no parent. -/
  | lost (tree : Tree Node)
  /-- A node that is its own parent: one of the trees of `siblings`, where it stands without what
  is below it, and these are its children. -/
  | looped (id : NodeId) (siblings : Forest Node)
  deriving DecidableEq

namespace Stray

def size : Stray → Nat
  | lost t => t.size
  | looped _ siblings => siblings.size

def weight (w : Node → Nat) : Stray → Nat
  | lost t => t.weight w
  | looped _ siblings => siblings.weight w

/-- The tree whose own node is `id`, in which a node that is its own parent does not come up again
below its children. -/
def subtree? (id : NodeId) : Stray → Option (Tree Node)
  | lost t => t.find? fun n => n.id == id
  | looped own siblings =>
    (siblings.subtree? id).map fun t => if id = own then { t with children := siblings } else t

def links? (id : NodeId) : Stray → Option Links
  | lost t => t.links? id
  | looped own siblings =>
    (siblings.links? id (some own) none).map fun l =>
      if id = own then { l with firstChild := siblings.firstId?, lastChild := siblings.lastId? }
      else l

def after? (id : NodeId) : Stray → Option (Forest Node)
  | lost t => t.after? id
  | looped _ siblings => siblings.after? id

def isTop (id : NodeId) : Stray → Bool
  | lost t => t.node.id == id
  | looped .. => false

def isLoop (id : NodeId) : Stray → Bool
  | lost _ => false
  | looped own _ => own == id

def relabel (id : NodeId) (g : Label → Label) : Stray → Stray
  | lost t => lost (t.relabel id g)
  | looped own siblings => looped own (siblings.relabel id g)

def graft (id : NodeId) (new : Forest Node) : Stray → Stray
  | lost t => lost (t.graft id new)
  | looped own siblings =>
    looped own (if id = own then siblings ++ new else .graft id new siblings)

/-- With the trees of `new` right before `id`, which has a parent. -/
def insertBefore (id : NodeId) (new : Forest Node) : Stray → Stray
  | lost t => lost { t with children := .insertBefore id new t.children }
  | looped own siblings => looped own (.insertBefore id new siblings)

/-- Without `id` and all that is below it, unless that is all there is. -/
def erase (id : NodeId) : Stray → Stray
  | lost t => lost { t with children := t.children.erase id }
  | looped own siblings => looped own (siblings.erase id)

/-- All that is there, as a tree, if it is freed with `id`. -/
def whole? (id : NodeId) : Stray → Option (Tree Node)
  | lost t => if t.node.id = id then some t else none
  | looped own siblings =>
    if own = id then
      (siblings.subtree? own).map fun t => { t with children := siblings.erase own }
    else none

end Stray

end Treegram
