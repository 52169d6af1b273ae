import Treegram.Request
import Treegram.Wire.Sink

/-!
# Requests along links

A request that is made up in a linked document, node by node. What is refused is found before the
document is touched, but a list of arguments is taken one by one: those in front of the first that
is refused stay.

Nothing comes of a step that looks into a dead slot.
-/

namespace Treegram

structure LinkedRequest where
  document : LinkedDocument
  request : NodeId
  command : NodeId
  kind : Option RequestKind

namespace Request

/-- What follows the marker, if the key starts with one. -/
def stripMarker? (key : String) : Option String :=
  match key.toList with
  | c :: cs => if c = marker then some (String.ofList cs) else none
  | [] => none

end Request

namespace LinkedRequest

/-! ## New requests -/

/-- A document with a request element that names the agent. -/
def withRoot (agent : String) : Option (LinkedDocument × NodeId) := do
  let d := LinkedDocument.empty
  let (request, d) ← d.appendChild d.root (.element Request.elementName "")
  let d ← d.relabel request fun l => l.addAttribute Request.agentName agent
  return (d, request)

def new (agent : String) (kind : RequestKind) (command : String) : Option LinkedRequest := do
  let (d, request) ← withRoot agent
  match kind with
  | .parse =>
    let (node, document) ← d.appendChild request (.element kind.elementName command)
    return ⟨document, request, node, some kind⟩
  | .config | .execute =>
    let (node, d) ← d.appendChild request (.element kind.elementName "")
    let document ← d.relabel node fun l => l.addAttribute Request.commandName command
    return ⟨document, request, node, some kind⟩

def withValue (agent name value : String) : Option LinkedRequest := do
  let (d, request) ← withRoot agent
  let (command, document) ← d.appendChild request (.element name value)
  return ⟨document, request, command, none⟩

def bare (agent name : String) : Option LinkedRequest :=
  withValue agent name ""

def hello (agent user password tag : String) : Option LinkedRequest := do
  let r ← bare agent "hello"
  let (_, d) ← r.document.appendChild r.command (.element "user" user)
  let (_, d) ← d.appendChild r.command (.element "password" password)
  let (_, document) ← d.appendChild r.command (.element "tag" tag)
  return { r with document }

/-- The message that holds the request. -/
def encode (r : LinkedRequest) : Option (Except Fault Bytes) :=
  r.document.encode r.request

end LinkedRequest

/-! ## Steps -/

/-- Work on a request, which a refusal ends where it has got to. -/
abbrev Drafting : Type → Type :=
  ExceptT Fault (StateT LinkedRequest Option)

namespace Drafting

def refuse (cause : Refusal) : Drafting Unit :=
  fun r => some (.error (.refused cause), r)

def appendElement (parent : NodeId) (name value : String) : Drafting NodeId :=
  fun r => do
    let (id, document) ← r.document.appendChild parent (.element name value)
    return (.ok id, { r with document })

def relabel (node : NodeId) (g : Label → Label) : Drafting Unit :=
  fun r => do
    return (.ok (), { r with document := ← r.document.relabel node g })

/-- The command element of a line to be parsed holds only the line. -/
def checkTarget (node : NodeId) : Drafting Unit := do
  let r ← get
  if node = r.command ∧ r.kind = some .parse then refuse .parseArgument

def addElement (parent : NodeId) (name value : String) : Drafting NodeId := do
  if name = "" then refuse .namelessElement
  checkTarget parent
  appendElement parent name value

def addAttribute (node : NodeId) (name value : String) : Drafting Unit := do
  if name = "" then refuse .namelessAttribute
  checkTarget node
  let r ← get
  if node = r.command ∧ name = Request.commandName ∧ r.kind.isSome then refuse .reservedName
  relabel node fun l => l.addAttribute name value

def setText (node : NodeId) (value : String) : Drafting Unit :=
  relabel node fun l => { l with value }

def addArgument (key value : String) : Drafting Unit := do
  let r ← get
  match Request.stripMarker? key with
  | some name => addAttribute r.command name value
  | none =>
    let _ ← addElement r.command key value

def addArguments : List (String × String) → Drafting Unit
  | [] => pure ()
  | (key, value) :: args => do
    addArgument key value
    addArguments args

end Drafting

namespace Request

/-- How a request starts. -/
inductive Origin where
  | new (agent : String) (kind : RequestKind) (command : String)
  | bare (agent name : String)
  | withValue (agent name value : String)
  | hello (agent user password tag : String)

def Origin.request : Origin → Request
  | new agent kind command => .new agent kind command
  | bare agent name => .bare agent name
  | withValue agent name value => .withValue agent name value
  | hello agent user password tag => .hello agent user password tag

def Origin.linked : Origin → Option LinkedRequest
  | new agent kind command => LinkedRequest.new agent kind command
  | bare agent name => LinkedRequest.bare agent name
  | withValue agent name value => LinkedRequest.withValue agent name value
  | hello agent user password tag => LinkedRequest.hello agent user password tag

/-- What is done to a request. -/
inductive Step where
  | addArgument (key value : String)
  | addArguments (args : List (String × String))
  | addElement (parent : NodeId) (name value : String)
  | addAttribute (node : NodeId) (name value : String)
  | setText (node : NodeId) (value : String)

/-- The node that a step is given. Arguments are for the command element. -/
def Step.target? : Step → Option NodeId
  | addArgument .. | addArguments _ => none
  | addElement parent _ _ => some parent
  | addAttribute node _ _ => some node
  | setText node _ => some node

/-- What came of work on a request, and the request behind it: the old one if it was refused. -/
def outcome (r : Request) :
    Except Fault (Request × Option NodeId) → Except Fault (Option NodeId) × Request
  | .ok (r', id?) => (.ok id?, r')
  | .error e => (.error e, r)

/-- After a step, with what came of it: the identity of the new element, if it returns one. -/
def perform (r : Request) : Step → Except Fault (Option NodeId) × Request
  | .addArgument key value => r.outcome ((r.addArgument key value).map fun r' => (r', none))
  | .addArguments args =>
    match r.addArguments args with
    | (r', none) => (.ok none, r')
    | (r', some e) => (.error e, r')
  | .addElement parent name value =>
    r.outcome ((r.addElement parent name value).map fun p => (p.1, some p.2))
  | .addAttribute node name value =>
    r.outcome ((r.addAttribute node name value).map fun r' => (r', none))
  | .setText node value => r.outcome ((r.setText node value).map fun r' => (r', none))

/-- A request with the nodes that are known to whoever makes it up. -/
structure Draft where
  request : Request
  known : List NodeId

namespace Draft

def start (r : Request) : Draft :=
  ⟨r, [r.request, r.command]⟩

/-- Whether a step is for a node that is known. -/
def accepts (s : Draft) (step : Step) : Bool :=
  step.target?.all fun node => s.known.contains node

/-- After a step, whether it fails or not. -/
def perform (s : Draft) (step : Step) : Draft :=
  let (result, request) := s.request.perform step
  match result with
  | .ok (some id) => ⟨request, id :: s.known⟩
  | _ => ⟨request, s.known⟩

/-- Whether steps, one after the other, are all accepted. -/
def acceptsAll : Draft → List Step → Bool
  | _, [] => true
  | s, step :: steps => s.accepts step && (s.perform step).acceptsAll steps

end Draft

end Request

namespace LinkedRequest

def perform : Request.Step → Drafting (Option NodeId)
  | .addArgument key value => do
    Drafting.addArgument key value
    return none
  | .addArguments args => do
    Drafting.addArguments args
    return none
  | .addElement parent name value => do
    return some (← Drafting.addElement parent name value)
  | .addAttribute node name value => do
    Drafting.addAttribute node name value
    return none
  | .setText node value => do
    Drafting.setText node value
    return none

/-- After steps, one after the other. -/
def run : LinkedRequest → List Request.Step → Option LinkedRequest
  | r, [] => some r
  | r, step :: steps => do
    let (_, r) ← perform step r
    run r steps

end LinkedRequest

end Treegram
