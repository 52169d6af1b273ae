/-!
# Spans

Lengths of time to the nanosecond: whole seconds as a word, and nanoseconds that make up no further
second. The clock of the system tells times since the start of 1970 and counts their seconds with a
sign. A sum whose seconds no word holds does not exist.
-/

namespace Treegram

structure Span where
  seconds : UInt64
  nanoseconds : Fin 1000000000
  deriving DecidableEq

namespace Span

def ofSeconds (n : UInt64) : Span :=
  ⟨n, 0⟩

/-- The span of `n` thousandths of a second. -/
def ofMilliseconds (n : UInt64) : Span :=
  ⟨n / 1000, .ofNat _ ((n % 1000).toNat * 1000000)⟩

/-- Whole milliseconds; what is less than one does not count. -/
def milliseconds (s : Span) : Nat :=
  s.seconds.toNat * 1000 + s.nanoseconds.val / 1000000

/-- The sum of two numbers of seconds, if a word holds it. -/
def addSeconds (m n : UInt64) : Option UInt64 :=
  if m.toNat + n.toNat < UInt64.size then some (m + n) else none

/-- The seconds that nanoseconds make up together: one, or none. -/
def carry (m n : Fin 1000000000) : UInt64 :=
  if m.val + n.val < 1000000000 then 0 else 1

/-- Both spans together. -/
def plus? (s t : Span) : Option Span := do
  let seconds ← addSeconds s.seconds t.seconds
  let seconds ← addSeconds seconds (carry s.nanoseconds t.nanoseconds)
  return ⟨seconds, s.nanoseconds + t.nanoseconds⟩

end Span

/-- A time as the clock of the system tells it. -/
structure ClockTime where
  seconds : Int64
  nanoseconds : Fin 1000000000
  deriving DecidableEq

namespace ClockTime

/-- The start of 1970. -/
def epoch : ClockTime :=
  ⟨0, 0⟩

/-- The second that comes `n` seconds after the second `a`, if the clock tells it. -/
def addSeconds (a : Int64) (n : UInt64) : Option Int64 :=
  if a.toInt + n.toNat ≤ Int64.maxValue.toInt then some (.ofInt (a.toInt + n.toNat)) else none

/-- The time that is a span after `t`. -/
def after? (t : ClockTime) (s : Span) : Option ClockTime := do
  let seconds ← addSeconds t.seconds s.seconds
  let seconds ← addSeconds seconds (Span.carry t.nanoseconds s.nanoseconds)
  return ⟨seconds, t.nanoseconds + s.nanoseconds⟩

end ClockTime

end Treegram
