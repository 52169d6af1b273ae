/-!
# Time

Durations and instants in milliseconds. The clock holds instants up to a limit; an instant past it
cannot be expressed, so a sum of an instant and a duration need not exist.
-/

namespace Treegram

/-- A length of time in milliseconds. -/
abbrev Duration := Nat

/-- A time in milliseconds after some fixed start. -/
abbrev Instant := Nat

namespace Duration

def max : Duration := 0xffffffffffffffff * 1000 + 999

def year : Duration := 365 * 24 * 60 * 60 * 1000

end Duration

namespace Instant

/-- The first time the clock does not hold. -/
def limit : Instant := 0x8000000000000000 * 1000

/-- The time `d` after `t`, if the clock holds it. -/
def plus? (t : Instant) (d : Duration) : Option Instant :=
  if t + d < limit then some (t + d) else none

end Instant

/-- The time by which something has to be done. -/
structure Deadline where
  time : Instant
  deriving DecidableEq

namespace Deadline

/-- The deadline a timeout sets; a timeout that no clock holds ends in a year. -/
def after (now : Instant) (timeout : Duration) : Deadline :=
  ⟨(now.plus? timeout).getD (now + Duration.year)⟩

def isExpired (d : Deadline) (now : Instant) : Bool :=
  d.time ≤ now

def remaining (d : Deadline) (now : Instant) : Duration :=
  d.time - now

def order (d e : Deadline) : Ordering :=
  compare d.time e.time

end Deadline

end Treegram
