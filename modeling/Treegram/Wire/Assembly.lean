import Treegram.Wire.Unit

/-!
# Putting trees together from units

The nodes under construction form a path from the top down to the node that is open. Units extend
that node, open another below or beside it, or close it. A closed node never changes again, so the
state is a stack of open nodes over the finished trees at the top.

A message is finished when its top node is: at the end unit that leaves no more than the top node
open. If it starts with a document node, whose children stand at the top, it is finished at the
end unit that leaves nothing open, or finds nothing open.
-/

namespace Treegram

/-- A node that is still being read: its label with the latest attribute first, and its children
with the latest first. -/
structure OpenNode where
  label : Label
  children : Forest Label
  deriving DecidableEq

namespace OpenNode

/-- The label with its attributes in order. -/
def finished (n : OpenNode) : Label :=
  { n.label with attributes := n.label.attributes.reverse }

def adopt (n : OpenNode) (l : Label) (kids : Forest Label) : OpenNode :=
  { n with children := .cons l kids n.children }

end OpenNode

structure Assembly where
  /-- Whether anything was read yet. -/
  started : Bool
  /-- Whether a document node came first. -/
  isDocument : Bool
  /-- The finished trees at the top, the latest first. -/
  roots : Forest Label
  /-- The open nodes, the innermost first. -/
  path : List OpenNode
  deriving DecidableEq

/-- What a unit leads to. -/
inductive Progress where
  | more (a : Assembly)
  | complete (a : Assembly)
  deriving DecidableEq

namespace Assembly

def start : Assembly :=
  ⟨false, false, .nil, []⟩

def close (a : Assembly) : Assembly :=
  match a.path with
  | [] => a
  | [n] => { a with roots := .cons n.finished n.children.reverse a.roots, path := [] }
  | n :: above :: path =>
    { a with path := above.adopt n.finished n.children.reverse :: path }

/-- With a new innermost node. -/
def openNode (a : Assembly) (kind : NodeKind) (name value : String) : Assembly :=
  { a with started := true, path := ⟨.plain kind name value, .nil⟩ :: a.path }

/-- Whether no more nodes are open than when the message is finished. -/
def isComplete (a : Assembly) : Bool :=
  match a.path with
  | [] => true
  | [_] => !a.isDocument
  | _ => false

/-- After one more unit. Documents are only welcome below a document node. -/
def step (belowDocument : Bool) (a : Assembly) : WireUnit → Except Malformed Progress
  | .node place kind name value =>
    if kind = .document then
      if a.started ∨ place ≠ .child then .error .lateDocument
      else if !belowDocument then .error .innerDocument
      else
        match nameFault? kind name with
        | some fault => .error (.badName fault)
        | none => .ok (.more { a with started := true, isDocument := true })
    else
      match nameFault? kind name with
      | some fault => .error (.badName fault)
      | none =>
        match place, a.path with
        | .child, _ => .ok (.more (a.openNode kind name value))
        | .sibling, [] => .error .topSibling
        | .sibling, _ => .ok (.more (a.close.openNode kind name value))
  | .attr _ name value =>
    match a.path with
    | [] => .error .topAttribute
    | n :: path =>
      if name = "" then .error .namelessAttribute
      else
        let label := { n.label with attributes := ⟨name, value⟩ :: n.label.attributes }
        .ok (.more { a with path := { n with label } :: path })
  | .close _ =>
    match a.path with
    | [] => if a.isDocument then .ok (.complete a) else .error .topEnd
    | _ =>
      let a := a.close
      .ok (if a.isComplete then .complete a else .more a)

/-- The trees read so far, those still open included. -/
def forest (a : Assembly) : Forest Label :=
  go a.roots a.path
where
  go (roots : Forest Label) : List OpenNode → Forest Label
    | [] => roots.reverse
    | [n] => (Forest.cons n.finished n.children.reverse roots).reverse
    | n :: above :: path => go roots (above.adopt n.finished n.children.reverse :: path)
  termination_by path => path.length

end Assembly

end Treegram
