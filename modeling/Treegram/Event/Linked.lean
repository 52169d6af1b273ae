import Treegram.Clock.Span
import Treegram.Event
import Treegram.Path.Linked

/-!
# Events along links

An event drawn from a linked document. Its time is a span, put together from the seconds and the
milliseconds that its text tells, and the clock of the system has to tell the time that long after
the start of 1970.
-/

namespace Treegram

namespace Span

/-- The word written by one or more digits. -/
def digits? (cs : List Char) : Option UInt64 :=
  if cs ≠ [] ∧ cs.all Char.isDigit = true then
    (positive? 10 UInt64.size cs).map UInt64.ofNat
  else none

/-- The span of so many seconds and milliseconds, if the clock tells the time that long after its
start. -/
def tellable? (seconds milliseconds : UInt64) : Option Span := do
  let span ← (ofSeconds seconds).plus? (ofMilliseconds milliseconds)
  let _ ← ClockTime.epoch.after? span
  return span

/-- The span written in `s`. -/
def read? (s : String) : Option Span := do
  let cs := trim s.toList
  let (whole, part) :=
    match Path.cut? '.' cs with
    | some (whole, part) => (whole, some part)
    | none => (cs, none)
  let seconds ← digits? whole
  let milliseconds ←
    match part with
    | some part => (digits? part).filter (· < 1000)
    | none => some 0
  tellable? seconds milliseconds

end Span

/-- Why a document is not an event. -/
inductive EventFault where
  | malformed (cause : Malformed)
  | outOfRange (time : String)
  deriving DecidableEq

def EventFault.message : EventFault → String
  | malformed cause => cause.message
  | outOfRange time => "raise_time " ++ quote time ++ " out of range"

/-- An event as it is drawn from a document, which is left out. -/
structure LinkedEvent where
  root : NodeId
  eventClass : String
  raiseTime : Span
  raisedAt : ClockTime
  deriving DecidableEq

namespace LinkedEvent

/-- What is there, or else the fault. -/
def demand {α : Type} (fault : EventFault) : Option α → Except EventFault α
  | some a => .ok a
  | none => .error fault

/-- The event that the element `root` with the label `l` tells of. -/
def ofLabel (root : NodeId) (l : Label) : Except EventFault LinkedEvent := do
  let eventClass ← demand (.malformed .noClass) ((l.attribute? "class").filter (· ≠ ""))
  let time ← demand (.malformed .noRaiseTime) (l.attribute? "raise_time")
  let raiseTime ← demand (.malformed (.badRaiseTime time)) (Span.read? time)
  let raisedAt ← demand (.outOfRange time) (ClockTime.epoch.after? raiseTime)
  return ⟨root, eventClass, raiseTime, raisedAt⟩

end LinkedEvent

/-- The event that a document holds. -/
def LinkedDocument.event (c : LinkedDocument) : Option (Except EventFault LinkedEvent) := do
  match ← c.firstChildNamed c.root Event.elementName with
  | some root => return LinkedEvent.ofLabel root (← c.get? root).label
  | none => return .error (.malformed .noEvent)

end Treegram
