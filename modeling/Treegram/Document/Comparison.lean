import Treegram.Document.Linked

/-!
# Comparing and measuring linked documents

Two nodes are compared with all that is below them, pair by pair: a stack holds the pairs that are
still to be compared, and those of the children of a pair go on top of it. The slots that the
nodes are in play no part. What a document occupies is added up slot by slot, not along the links.
-/

namespace Treegram

namespace LinkedDocument

/-- The stack with the pairs of siblings on top that stand from two given ones on, the last pair
topmost; none if the siblings on one side end before those on the other. -/
def pairFrom (c d : LinkedDocument) (stack : List (NodeId × NodeId)) :
    Option NodeId → Option NodeId → Option (Option (List (NodeId × NodeId)))
  | none, none => some (some stack)
  | some a, some b => do
    let m ← c.get? a
    let n ← d.get? b
    c |>.pairFrom d ((a, b) :: stack) m.links.next n.links.next
  | _, _ => some none
partial_fixpoint

/-- Whether the nodes of each pair on the stack agree, and all that is below them. -/
def agree (c d : LinkedDocument) : List (NodeId × NodeId) → Option Bool
  | [] => some true
  | (a, b) :: stack => do
    let m ← c.get? a
    let n ← d.get? b
    if m.label ≠ n.label then some false
    else
      match ← c.pairFrom d stack m.links.firstChild n.links.firstChild with
      | some stack => c |>.agree d stack
      | none => some false
partial_fixpoint

/-- Whether the node `a` and the node `b` of the document `d` agree in everything but the identity
of the nodes, and all that is below them. -/
def sameSubtree (c : LinkedDocument) (a : NodeId) (d : LinkedDocument) (b : NodeId) :
    Option Bool :=
  c.agree d [(a, b)]

def sameShape (c d : LinkedDocument) : Option Bool :=
  c.sameSubtree c.root d d.root

def nodeCount (c : LinkedDocument) : Nat :=
  c.nodes.count

def byteSize (c : LinkedDocument) : Nat :=
  c.nodes.values.foldr (fun n s => n.label.byteSize + s) 0

end LinkedDocument

end Treegram
