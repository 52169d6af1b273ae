import Treegram.Document.Linked
import Treegram.Path

/-!
# Paths along links

A path is followed from a node of a linked document part by part, and the children of each node
along their links. At signs in the wrong parts are looked for beforehand, but each part is looked
through again for one when its turn comes.
-/

namespace Treegram

/-- What comes of a question to a linked document. Nothing comes of it if it looks into a dead slot
or goes round in a circle. -/
abbrev Lookup : Type → Type :=
  ExceptT PathFault Option

/-- What is asked of the node, or of its attribute, that a path leads to. -/
inductive Query : Type → Type 1 where
  | node : Query NodeId
  | text : Query String
  | textWithin (limit : Nat) : Query String
  | parsed {β : Type} (read? : List Char → Option β) : Query β
  | flag : Query Bool

namespace LinkedDocument

/-- The first element named `name` from a given node on. -/
def elementFrom (c : LinkedDocument) (name : String) : Option NodeId → Option (Option NodeId)
  | none => some none
  | some id => do
    let n ← c.get? id
    if n.label.isElement name then some (some id)
    else c |>.elementFrom name n.links.next
partial_fixpoint

def firstChildNamed (c : LinkedDocument) (id : NodeId) (name : String) :
    Option (Option NodeId) := do
  c.elementFrom name (← c.get? id).links.firstChild

/-- The node that one part of a path leads to. -/
def descend (c : LinkedDocument) (id : NodeId) (name : List Char) : Lookup NodeId := do
  if name = [] then return id
  else
    match ← ExceptT.lift (c.firstChildNamed id (String.ofList name)) with
    | some child => return child
    | none => throw .notFound

/-- What the parts of a path lead to: a node and, if they ask for an attribute, the name of
that. -/
def resolve (c : LinkedDocument) (id : NodeId) :
    List (List Char) → Lookup (NodeId × Option String)
  | [] => return (id, none)
  | part :: parts => do
    match Path.cut? '@' part with
    | some (name, attr) =>
      if parts ≠ [] then throw .syntaxError
      let id ← c.descend id name
      if attr = [] ∨ attr.contains '@' then throw .syntaxError
      return (id, some (String.ofList attr))
    | none => c.resolve (← c.descend id part) parts

/-- What a path leads to. An at sign in front of its last part is found before anything is looked
up. -/
def lead (c : LinkedDocument) (start : NodeId) (path : String) :
    Lookup (NodeId × Option String) := do
  let parts := Path.parts '/' path.toList
  if parts.dropLast.any fun s => s.contains '@' then throw .syntaxError
  c.resolve start parts

def firstNode (c : LinkedDocument) (start : NodeId) (path : String) : Lookup NodeId := do
  match ← c.lead start path with
  | (id, none) => return id
  | (_, some _) => throw .syntaxError

def firstText (c : LinkedDocument) (start : NodeId) (path : String) : Lookup String := do
  let (id, attr) ← c.lead start path
  let n ← ExceptT.lift (c.get? id)
  match attr with
  | none => return n.label.value
  | some name =>
    match n.label.attribute? name with
    | some value => return value
    | none => throw .notFound

def firstTextWithin (c : LinkedDocument) (start : NodeId) (path : String) (limit : Nat) :
    Lookup String := do
  let value ← c.firstText start path
  if value.utf8ByteSize ≤ limit then return value else throw .tooLong

def firstParsed {β : Type} (c : LinkedDocument) (start : NodeId) (path : String)
    (read? : List Char → Option β) : Lookup β := do
  match read? (trim (← c.firstText start path).toList) with
  | some b => return b
  | none => throw .format

def firstFlag (c : LinkedDocument) (start : NodeId) (path : String) : Lookup Bool := do
  match flag? (← c.firstText start path) with
  | some b => return b
  | none => throw .format

def ask (c : LinkedDocument) (start : NodeId) (path : String) {β : Type} : Query β → Lookup β
  | .node => c.firstNode start path
  | .text => c.firstText start path
  | .textWithin limit => c.firstTextWithin start path limit
  | .parsed read? => c.firstParsed start path read?
  | .flag => c.firstFlag start path

end LinkedDocument

end Treegram
