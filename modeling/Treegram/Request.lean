import Treegram.Document.Basic
import Treegram.Wire.Encode

/-!
# Requests

A request is a document: a `request` element that names the agent that asks, and below it one
element for the command. Configuration and execution name the command in an attribute and take
arguments; a line to be parsed is the text of its element and takes none.
-/

namespace Treegram

inductive RequestKind where
  | config
  | execute
  | parse
  deriving DecidableEq

def RequestKind.elementName : RequestKind → String
  | config => "config"
  | execute => "command"
  | parse => "parse"

/-- A request that is being made up. -/
structure Request where
  document : Document
  request : NodeId
  command : NodeId
  /-- Absent for requests of other sorts, which put no limits on their command element. -/
  kind : Option RequestKind
  deriving DecidableEq

namespace Request

def elementName : String := "request"

/-- What marks the name of an argument that becomes an attribute. -/
def marker : Char := '@'

/-- The name of the attribute that names the agent. -/
def agentName : String := "agent"

/-- The name of the attribute that names the command. -/
def commandName : String := "name"

/-- The request of `agent` whose command element has the label `l` and, below it, elements with
the labels `parts`. -/
def make (agent : String) (kind : Option RequestKind) (l : Label) (parts : List Label) :
    Request :=
  let top := (Label.element elementName "").addAttribute agentName agent
  let kids := parts.foldr (fun part f => .cons part .nil f) .nil
  { document := .ofForest (.cons top (.cons l kids .nil) .nil)
    request := ⟨1⟩
    command := ⟨2⟩
    kind }

def new (agent : String) (kind : RequestKind) (command : String) : Request :=
  let l :=
    match kind with
    | .parse => Label.element kind.elementName command
    | _ => (Label.element kind.elementName "").addAttribute commandName command
  make agent (some kind) l []

def withValue (agent name value : String) : Request :=
  make agent none (Label.element name value) []

def bare (agent name : String) : Request :=
  withValue agent name ""

def hello (agent user password tag : String) : Request :=
  make agent none (Label.element "hello" "")
    [Label.element "user" user, Label.element "password" password, Label.element "tag" tag]

/-- Why nothing may be added to `node`, if so: it is the command element of a line to be
parsed. -/
def closedTo? (r : Request) (node : NodeId) : Option Refusal :=
  if node = r.command ∧ r.kind = some .parse then some .parseArgument else none

/-- With a new last child element of `parent`, whose identity is returned. -/
def addElement (r : Request) (parent : NodeId) (name value : String) :
    Except Fault (Request × NodeId) :=
  if name = "" then .error (.refused .namelessElement)
  else
    match r.closedTo? parent with
    | some cause => .error (.refused cause)
    | none =>
      match r.document.appendChild parent (.element name value) with
      | (.ok id, document) => .ok ({ r with document }, id)
      | (.error cause, _) => .error (.misused cause)

def addAttribute (r : Request) (node : NodeId) (name value : String) : Except Fault Request :=
  if name = "" then .error (.refused .namelessAttribute)
  else
    match r.closedTo? node with
    | some cause => .error (.refused cause)
    | none =>
      if node = r.command ∧ name = commandName ∧ r.kind.isSome then
        .error (.refused .reservedName)
      else
        match r.document.appendAttribute node name value with
        | .ok document => .ok { r with document }
        | .error cause => .error (.misused cause)

def setText (r : Request) (node : NodeId) (value : String) : Except Fault Request :=
  match r.document.setValue node value with
  | .ok document => .ok { r with document }
  | .error cause => .error (.misused cause)

/-- With one more argument: an attribute of the command element named by what follows the marker,
or else a child element named by the whole key. -/
def addArgument (r : Request) (key value : String) : Except Fault Request :=
  match key.toList with
  | [] => .error (.refused .namelessElement)
  | c :: cs =>
    if c = marker then r.addAttribute r.command (String.ofList cs) value
    else (r.addElement r.command key value).map Prod.fst

/-- With one argument after the other, up to the first that is refused. -/
def addArguments (r : Request) : List (String × String) → Request × Option Fault
  | [] => (r, none)
  | (key, value) :: args =>
    match r.addArgument key value with
    | .ok r' => r'.addArguments args
    | .error e => (r, some e)

/-- The request element and what is below it. -/
def labels? (r : Request) : Option (Tree Label) :=
  (r.document.subtree? r.request).map Tree.labels

/-- The message that holds the request. -/
def encode (r : Request) : Except Fault Bytes :=
  match r.labels? with
  | some t => t.encode.mapError .refused
  | none => .error (.misused .deadNode)

end Request

end Treegram
