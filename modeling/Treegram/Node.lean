import Treegram.Forest

/-!
# What a node holds

A node is of one of eight kinds and has a name, a text value and a list of attributes. Elements
and processing instructions must be named, nodes of the other kinds must not be; the document node
at the top of a message is of the last sort. Trees of labels are what is sent and received.
-/

namespace Treegram

inductive NodeKind where
  | document
  | element
  | data
  | cdata
  | comment
  | declaration
  | doctype
  | pi
  deriving DecidableEq

namespace NodeKind

def tag : NodeKind → Nat
  | document => 0
  | element => 1
  | data => 2
  | cdata => 3
  | comment => 4
  | declaration => 5
  | doctype => 6
  | pi => 7

def ofTag? : Nat → Option NodeKind
  | 0 => some document
  | 1 => some element
  | 2 => some data
  | 3 => some cdata
  | 4 => some comment
  | 5 => some declaration
  | 6 => some doctype
  | 7 => some pi
  | _ => none

/-- Whether nodes of this kind must be named. -/
def requiresName : NodeKind → Bool
  | element | pi => true
  | _ => false

/-- The kind's name in messages to people. -/
def title : NodeKind → String
  | document => "Document"
  | element => "Element"
  | data => "Data"
  | cdata => "Cdata"
  | comment => "Comment"
  | declaration => "Declaration"
  | doctype => "Doctype"
  | pi => "Pi"

@[simp] theorem ofTag?_tag (k : NodeKind) : ofTag? k.tag = some k := by
  cases k <;> rfl

theorem tag_lt (k : NodeKind) : k.tag < 8 := by
  cases k <;> decide

end NodeKind

structure Attribute where
  name : String
  value : String
  deriving DecidableEq

/-- The bytes an attribute is taken to occupy besides its own text. -/
def Attribute.overhead : Nat := 48

def Attribute.byteSize (a : Attribute) : Nat :=
  overhead + a.name.utf8ByteSize + a.value.utf8ByteSize

/-- The content of a node: all of it but its place in a tree. -/
structure Label where
  kind : NodeKind
  name : String
  value : String
  attributes : List Attribute
  deriving DecidableEq

namespace Label

def plain (kind : NodeKind) (name value : String) : Label :=
  ⟨kind, name, value, []⟩

def element (name value : String) : Label :=
  plain .element name value

def document : Label :=
  plain .document "" ""

/-- The bytes a node is taken to occupy besides its own text. -/
def overhead : Nat := 160

/-- The bytes a node is taken to occupy. -/
def byteSize (l : Label) : Nat :=
  overhead + l.name.utf8ByteSize + l.value.utf8ByteSize +
    l.attributes.foldr (fun a n => a.byteSize + n) 0

/-- The value of the first attribute named `name`. -/
def attribute? (l : Label) (name : String) : Option String :=
  (l.attributes.find? fun a => a.name == name).map Attribute.value

/-- Attributes are kept in order, several of one name included. -/
def addAttribute (l : Label) (name value : String) : Label :=
  { l with attributes := l.attributes ++ [⟨name, value⟩] }

def dropAttribute (l : Label) (name : String) : Label :=
  { l with attributes := l.attributes.eraseP fun a => a.name == name }

def isElement (l : Label) (name : String) : Bool :=
  l.kind == .element && l.name == name

end Label

/-- Nodes that carry a label, possibly among other things. -/
class Labelled (α : Type) where
  label : α → Label

instance : Labelled Label := ⟨fun l => l⟩

export Labelled (label)

namespace Forest

variable {α : Type} [Labelled α]

/-- The first tree of the forest that is an element named `name`. -/
def element? (name : String) : Forest α → Option (Tree α)
  | .nil => none
  | .cons a kids rest => if (label a).isElement name then some ⟨a, kids⟩ else rest.element? name

end Forest

namespace Tree

variable {α : Type} [Labelled α]

def labels (t : Tree α) : Tree Label :=
  t.map label

def childNamed? (t : Tree α) (name : String) : Option (Tree α) :=
  t.children.element? name

/-- The child elements named `name`, in order. -/
def childrenNamed (t : Tree α) (name : String) : List (Tree α) :=
  t.children.trees.filter fun c => (label c.node).isElement name

def attribute? (t : Tree α) (name : String) : Option String :=
  (label t.node).attribute? name

def value (t : Tree α) : String :=
  (label t.node).value

def byteSize (t : Tree α) : Nat :=
  t.weight fun a => (label a).byteSize

/-- Whether two trees agree in everything but the identity of their nodes. -/
def sameAs {β : Type} [Labelled β] (t : Tree α) (u : Tree β) : Bool :=
  t.alike (fun a b => decide (label a = label b)) u

end Tree

end Treegram
