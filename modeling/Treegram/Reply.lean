import Treegram.Fault
import Treegram.Status.Basic

/-!
# Replies

A reply is a document with a `response` element at its top level. It may be a part of a longer
answer, which a `continued` element marks.
-/

namespace Treegram

structure Reply where
  document : Tree Label
  response : Tree Label
  /-- The number given to the reply when it came in. -/
  id : Nat
  deriving DecidableEq

namespace Reply

def responseName : String := "response"

/-- The name of the element that marks a part of an answer. -/
def continuedName : String := "continued"

def ofDocument (document : Tree Label) (id : Nat) : Except Fault Reply :=
  match document.childNamed? responseName with
  | some response => .ok ⟨document, response, id⟩
  | none => .error (.malformed .noResponse)

/-- Whether more of the answer follows. -/
def isContinued (r : Reply) : Bool :=
  (r.response.childNamed? continuedName).isSome

def status (r : Reply) : Status :=
  .extract r.response r.id

def isOk (r : Reply) : Bool :=
  r.status.isOk

end Reply

end Treegram
