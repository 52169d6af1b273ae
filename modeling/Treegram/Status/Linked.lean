import Treegram.Path.Linked
import Treegram.Status.Basic

/-!
# Status messages along links

The status of a reply whose response is a node of a linked document. From the element that holds
it, the arguments of its text are found by way of the parent: the first of them among the children
there, and each further one by a search that goes on behind the one before. The text is then
expanded character by character.
-/

namespace Treegram

namespace Reference

def first : Char := Char.ofNat 0xE000

def last : Char := Char.ofNat 0xE03F

/-- `out` with what stands for the character `c` put behind it. -/
def put (args : List String) (out : String) (c : Char) : String :=
  if first ≤ c ∧ c ≤ last then
    match args[c.toNat - first.toNat]? with
    | some arg => out ++ arg
    | none => out
  else out.push c

/-- `text` put down character by character, arguments in the place of references. -/
def rewrite (args : List String) (text : String) : String :=
  text.toList.foldl (put args) ""

end Reference

namespace LinkedDocument

/-- The first element named `name` behind the node `id`. -/
def nextSiblingNamed (c : LinkedDocument) (id : NodeId) (name : String) :
    Option (Option NodeId) := do
  c.elementFrom name (← c.get? id).links.next

/-- The values on the list, and behind them those of the given node and of the elements named
`name` that follow it. -/
def pushValues (c : LinkedDocument) (name : String) (values : List String) :
    Option NodeId → Option (List String)
  | none => some values
  | some id => do
    let n ← c.get? id
    c |>.pushValues name (values ++ [n.label.value]) (← c.nextSiblingNamed id name)
partial_fixpoint

/-- The values of the argument elements beside the node `id`. -/
def arguments (c : LinkedDocument) (id : NodeId) : Option (List String) := do
  match (← c.get? id).links.parent with
  | none => return []
  | some parent => c.pushValues "argument" [] (← c.firstChildNamed parent "argument")

/-- The node `id` with the severity that its attribute `name` tells: `yes` if it is set, else
`no`. -/
def graded (c : LinkedDocument) (id : NodeId) (name : String) (yes no : Severity) :
    Option (Option (NodeId × Severity)) := do
  let n ← c.get? id
  return do
    let set ← flag? (← n.label.attribute? name)
    return (id, if set then yes else no)

/-- The element that holds the status of the response `root`, and its severity. -/
def holder (c : LinkedDocument) (root : NodeId) : Option (Option (NodeId × Severity)) := do
  match ← c.firstChildNamed root "message" with
  | some id => c.graded id "warning" .warning .info
  | none =>
    match ← c.firstChildNamed root "error" with
    | some id => c.graded id "critical" .critical .error
    | none => return none

/-- The status of the given severity that the element `id` holds. -/
def build (c : LinkedDocument) (id : NodeId) (severity : Severity) : Option Status := do
  let l := (← c.get? id).label
  let raw := ((l.attribute? "code").bind StatusCode.number?).getD 0
  return {
    received := true
    code := StatusCode.retag ⟨raw⟩ severity
    severity
    text := abridge Status.maxText (Reference.rewrite (← c.arguments id) l.value)
    ident := abridge Status.maxIdent ((l.attribute? "ident").getD "")
    source := abridge Status.maxSource ((l.attribute? "source").getD "")
    reply := none }

/-- The status of the reply with the given number and the response `root`. -/
def status (c : LinkedDocument) (root : NodeId) (reply : Nat) : Option Status := do
  let found ←
    match ← c.holder root with
    | some (id, severity) => c.build id severity
    | none => pure .absent
  return { found with reply := some reply }

end LinkedDocument

end Treegram
