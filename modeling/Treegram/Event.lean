import Treegram.Path

/-!
# Events

An event is a document with an `event` element at its top level that tells its class and when it
was raised: whole seconds, and after a point a number of milliseconds below a thousand. The
milliseconds are a count and not a decimal fraction.
-/

namespace Treegram

/-- A time since the start of 1970. -/
structure RaiseTime where
  seconds : Nat
  milliseconds : Nat
  deriving DecidableEq

namespace RaiseTime

/-- One more than the most whole seconds the clock holds. -/
def secondsBound : Nat := 0x8000000000000000

def totalMilliseconds (t : RaiseTime) : Nat :=
  t.seconds * 1000 + t.milliseconds

/-- The time written in `s`. -/
def read? (s : String) : Option RaiseTime :=
  let cs := trim s.toList
  let (whole, part) := (Path.cut? '.' cs).getD (cs, ['0'])
  match natural? 10 secondsBound whole, natural? 10 1000 part with
  | some seconds, some milliseconds => some ⟨seconds, milliseconds⟩
  | _, _ => none

end RaiseTime

structure Event where
  document : Tree Label
  element : Tree Label
  eventClass : String
  raised : RaiseTime
  deriving DecidableEq

namespace Event

def elementName : String := "event"

def ofDocument (document : Tree Label) : Except Fault Event :=
  match document.childNamed? elementName with
  | none => .error (.malformed .noEvent)
  | some element =>
    match element.attribute? "class" with
    | none => .error (.malformed .noClass)
    | some name =>
      if name = "" then .error (.malformed .noClass)
      else
        match element.attribute? "raise_time" with
        | none => .error (.malformed .noRaiseTime)
        | some time =>
          match RaiseTime.read? time with
          | none => .error (.malformed (.badRaiseTime time))
          | some raised => .ok ⟨document, element, name, raised⟩

end Event

end Treegram
