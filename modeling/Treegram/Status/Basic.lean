import Treegram.Node
import Treegram.Status.Code
import Treegram.Text.Abridged
import Treegram.Text.Value

/-!
# Status messages

What a reply says about the request as a whole. It is held by a `message` element of the response
or, where there is none, by an `error` element; an attribute of that element tells the two
severities apart that it can have. Its text refers to the `argument` elements beside it: sixty-four
private-use characters, from U+E000 on, stand for them by position. Each of these is replaced once;
what is put in is not looked at again.
-/

namespace Treegram

/-! ## Argument references -/

namespace Reference

/-- The code point of the reference to the first argument. -/
def base : Nat := 0xE000

def count : Nat := 64

/-- The position of the argument that `c` refers to. -/
def index? (c : Char) : Option Nat :=
  if base ≤ c.toNat ∧ c.toNat < base + count then some (c.toNat - base) else none

/-- The reference to the argument at `index`. -/
def char? (index : Nat) : Option Char :=
  if index < count then some (Char.ofNat (base + index)) else none

/-- What stands for `c` in the expanded text: nothing if it refers past the last argument. -/
def replacement (args : List String) (c : Char) : List Char :=
  match index? c with
  | some i => (args.getD i "").toList
  | none => [c]

/-- `text` with every reference replaced by the argument it selects. -/
def expand (args : List String) (text : String) : String :=
  String.ofList (text.toList.flatMap (replacement args))

end Reference

/-! ## What a reply says -/

/-- The status drawn from a reply, or what stands for one before there is any. -/
structure Status where
  received : Bool
  code : StatusCode
  severity : Severity
  text : String
  ident : String
  source : String
  /-- The number of the reply the status was drawn from. -/
  reply : Option Nat
  deriving DecidableEq

namespace Status

/-- The most bytes of a text that are kept. -/
def maxText : Nat := 1024

def maxIdent : Nat := 64

def maxSource : Nat := 64

def absent : Status :=
  ⟨false, ⟨0⟩, .info, "", "", "", none⟩

/-- Whether there is no status, or one that is not a failure. -/
def isOk (s : Status) : Bool :=
  !(s.received && s.severity.isFailure)

/-- One line for people. -/
def line (s : Status) : String :=
  if s.received then s.severity.title ++ " " ++ s.code.text ++ ": " ++ s.text
  else "(no message)"

/-- The element that holds the status of `response`, and its severity. A `message` element that
does not tell its severity hides an `error` element. -/
def holder? (response : Tree Label) : Option (Tree Label × Severity) :=
  match response.childNamed? "message" with
  | some t => do
    let warning ← flag? (← t.attribute? "warning")
    return (t, if warning then .warning else .info)
  | none => do
    let t ← response.childNamed? "error"
    let critical ← flag? (← t.attribute? "critical")
    return (t, if critical then .critical else .error)

def arguments (response : Tree Label) : List String :=
  (response.childrenNamed "argument").map Tree.value

/-- The number of the code that `holder` carries, zero if it carries none. -/
def codeOf (holder : Tree Label) : StatusCode :=
  ⟨((holder.attribute? "code").bind StatusCode.number?).getD 0⟩

/-- The status of the reply with the given number and response element. -/
def extract (response : Tree Label) (reply : Nat) : Status :=
  match holder? response with
  | some (holder, severity) =>
    { received := true
      code := (codeOf holder).retag severity
      severity
      text := abridge maxText (Reference.expand (arguments response) holder.value)
      ident := abridge maxIdent ((holder.attribute? "ident").getD "")
      source := abridge maxSource ((holder.attribute? "source").getD "")
      reply := some reply }
  | none => { absent with reply := some reply }

end Status

end Treegram
