import Treegram.Fault
import Treegram.Text.Value

/-!
# Paths

A path leads from a node to one below it: element names between slashes, at each of which the first
child element of that name is taken. Empty names are passed over. The last name may be followed by
an at sign and the name of an attribute, of the element it leads to. An at sign further up is
refused before anything is looked up; one that is not followed by a plain name, afterwards.
-/

namespace Treegram

namespace Path

/-- The parts of a text between the occurrences of `sep`. -/
def parts (sep : Char) : List Char → List (List Char)
  | [] => [[]]
  | c :: cs =>
    if c = sep then [] :: parts sep cs
    else
      match parts sep cs with
      | [] => [[c]]
      | p :: ps => (c :: p) :: ps

/-- What stands before and behind the first occurrence of `sep`. -/
def cut? (sep : Char) : List Char → Option (List Char × List Char)
  | [] => none
  | c :: cs => if c = sep then some ([], cs) else (cut? sep cs).map fun (p, q) => (c :: p, q)

end Path

namespace Tree

variable {α : Type} [Labelled α]

/-- The first child element named `name`, or the tree itself for the empty name. -/
def descend? (t : Tree α) (name : List Char) : Option (Tree α) :=
  if name = [] then some t else t.childNamed? (String.ofList name)

/-- The tree that a list of names leads to. -/
def walk? (t : Tree α) : List (List Char) → Option (Tree α)
  | [] => some t
  | name :: names => (t.descend? name).bind fun u => u.walk? names

/-- What `path` leads to: a tree and, if it asks for an attribute, the name of that. -/
def resolve (t : Tree α) (path : String) : Except PathFault (Tree α × Option String) :=
  let segments := Path.parts '/' path.toList
  let last := segments.getLastD []
  let inner := segments.dropLast
  if inner.any fun s => s.contains '@' then .error .syntaxError
  else
    let (name, attr) :=
      match Path.cut? '@' last with
      | some (name, attr) => (name, some attr)
      | none => (last, none)
    match t.walk? (inner ++ [name]), attr with
    | none, _ => .error .notFound
    | some u, none => .ok (u, none)
    | some u, some a =>
      if a = [] ∨ a.contains '@' then .error .syntaxError
      else .ok (u, some (String.ofList a))

/-- The element a path leads to; a path to an attribute is refused. -/
def firstNode (t : Tree α) (path : String) : Except PathFault (Tree α) := do
  match ← t.resolve path with
  | (u, none) => return u
  | (_, some _) => throw .syntaxError

def firstText (t : Tree α) (path : String) : Except PathFault String := do
  match ← t.resolve path with
  | (u, none) => return u.value
  | (u, some name) =>
    match u.attribute? name with
    | some value => return value
    | none => throw .notFound

/-- The value a path leads to, if it has at most `limit` bytes. -/
def firstTextWithin (t : Tree α) (path : String) (limit : Nat) : Except PathFault String := do
  let value ← t.firstText path
  if value.utf8ByteSize ≤ limit then return value else throw .tooLong

/-- The value a path leads to, read by `read?` without the blanks around it. -/
def firstParsed {β : Type} (t : Tree α) (path : String) (read? : List Char → Option β) :
    Except PathFault β := do
  match read? (trim (← t.firstText path).toList) with
  | some b => return b
  | none => throw .format

def firstInteger (t : Tree α) (path : String) (type : IntegerType) : Except PathFault Int :=
  t.firstParsed path type.read?

def firstFlag (t : Tree α) (path : String) : Except PathFault Bool := do
  match flag? (← t.firstText path) with
  | some b => return b
  | none => throw .format

end Tree

end Treegram
