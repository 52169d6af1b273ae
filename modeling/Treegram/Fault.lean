import Treegram.Node
import Treegram.Text.Quoted

/-!
# What can go wrong

Every failure is named by its cause; the text shown to people is a function of the cause. There
are three families: a `Fault` ends a request, a `PathFault` is the outcome of a question to a tree
that has no answer, and a `Misuse` is a call that no correct caller makes.
-/

namespace Treegram

/-- A node whose name is missing although its kind requires one, or present although it forbids
one. -/
inductive NameFault where
  | missing (kind : NodeKind)
  | forbidden (kind : NodeKind)
  deriving DecidableEq

def NameFault.message : NameFault → String
  | missing kind => kind.title ++ " node without a name"
  | forbidden kind => kind.title ++ " node must not be named"

/-- What is wrong with the name of a node, if anything. -/
def nameFault? (kind : NodeKind) (name : String) : Option NameFault :=
  if kind.requiresName then if name = "" then some (.missing kind) else none
  else if name = "" then none
  else some (.forbidden kind)

/-- Why received bytes, or the tree they hold, are not a message. -/
inductive Malformed where
  | unknownTag (tag : Nat)
  | longText (length : Nat)
  | notText
  | truncated
  | badName (fault : NameFault)
  | lateDocument
  | innerDocument
  | topSibling
  | topAttribute
  | namelessAttribute
  | topEnd
  | noResponse
  | noFound
  | badFound (value : String)
  | noEvent
  | noClass
  | noRaiseTime
  | badRaiseTime (value : String)
  deriving DecidableEq

def Malformed.message : Malformed → String
  | unknownTag tag => s!"unknown node type tag {tag}"
  | longText length => s!"string length {length} exceeds the limit"
  | notText => "string is not valid UTF-8"
  | truncated => "truncated stream"
  | badName fault => fault.message
  | lateDocument => "document unit is only allowed first"
  | innerDocument => "document unit outside of a document node"
  | topSibling => "sibling without a parent"
  | topAttribute => "attribute without a parent"
  | namelessAttribute => "attribute without a name"
  | topEnd => "end of children without a node"
  | noResponse => "reply has no response element"
  | noFound => "reply without a found attribute"
  | badFound value => "bad found value " ++ quote value
  | noEvent => "no event element"
  | noClass => "event without a class"
  | noRaiseTime => "event without a raise_time"
  | badRaiseTime value => "bad raise_time " ++ quote value

/-- Why a tree or a request is refused before any of it is sent. -/
inductive Refusal where
  | innerDocument
  | badName (fault : NameFault)
  | namelessAttribute
  | longText (length : Nat)
  | namelessElement
  | parseArgument
  | reservedName
  deriving DecidableEq

def Refusal.message : Refusal → String
  | innerDocument => "document node below the top level"
  | badName fault => fault.message
  | namelessAttribute => "attribute without a name"
  | longText length => s!"string of {length} bytes is too long"
  | namelessElement => "element without a name"
  | parseArgument => "parse requests take no arguments"
  | reservedName => "attribute `name` is reserved"

/-- A call that its callers promise not to make. -/
inductive Misuse where
  | deadNode
  | documentNode
  | noParent (slot : Nat)
  | pastEnd
  deriving DecidableEq

def Misuse.message : Misuse → String
  | deadNode => "invalid key"
  | documentNode => "the document node cannot be removed"
  | noParent slot => s!"insert_before: node NodeId({slot}) has no parent"
  | pastEnd => "commit past buffer end"

/-- Why a request, or the wait for a message, ended without a result. -/
inductive Fault where
  /-- The peer closed its end without reading all that was sent to it. -/
  | reset
  /-- Nobody would read what was to be sent. -/
  | brokenPipe
  | timeout
  /-- The owner asked for the wait to be cut short. -/
  | interrupted
  | closed
  | malformed (cause : Malformed)
  | desynchronized
  | refused (cause : Refusal)
  | misused (cause : Misuse)
  deriving DecidableEq

namespace Fault

/-- The system's number for the condition, where it has one. -/
def systemCode? : Fault → Option Nat
  | reset => some 104
  | brokenPipe => some 32
  | _ => none

def message : Fault → String
  | reset => "I/O error: Connection reset by peer (os error 104)"
  | brokenPipe => "I/O error: Broken pipe (os error 32)"
  | timeout => "operation timed out"
  | interrupted => "operation interrupted"
  | closed => "connection closed by peer"
  | malformed cause => "bad message: " ++ cause.message
  | desynchronized => "stream out of sync with the peer; reopen the connection"
  | refused cause => "invalid argument: " ++ cause.message
  | misused cause => cause.message

end Fault

/-- Why a path has no answer of the wanted form. -/
inductive PathFault where
  | syntaxError
  | notFound
  | format
  | tooLong
  deriving DecidableEq

def PathFault.message : PathFault → String
  | syntaxError => "attribute reference in the middle of a path"
  | notFound => "path not found"
  | format => "value has an unexpected format"
  | tooLong => "value exceeds the requested size"

end Treegram
