import Treegram.Buffer

/-!
# Buffers with every access checked

The operations of a buffer step by step, with each difference, sum and range checked where it is
taken. What does not pass a check stops there, and the buffer stays as it was left until then.
-/

namespace Treegram

/-- What stops an operation on a buffer. -/
inductive Stop where
  | belowZero
  /-- No word holds the sum. -/
  | overflow
  /-- The range starts behind its end, or ends behind the bytes. -/
  | outOfRange
  /-- Bytes were to be copied over more or fewer than they are. -/
  | unequal
  | misused (cause : Misuse)
  deriving DecidableEq

/-- Work on a buffer, which may stop. -/
abbrev Handling : Type → Type :=
  ExceptT Stop (StateM Buffer)

namespace Handling

/-! ## Checks -/

def minus (m n : Nat) : Handling Nat :=
  if n ≤ m then return m - n else throw .belowZero

def plus (m n : Nat) : Handling Nat :=
  if m + n < UInt64.size then return m + n else throw .overflow

/-- The bytes from `start` up to `stop`. -/
def slice (bytes : Bytes) (start stop : Nat) : Handling Bytes :=
  if start ≤ stop ∧ stop ≤ bytes.length then return bytes.extract start stop else throw .outOfRange

/-- What `target` is after `source` was copied over it. -/
def copyOver (target source : Bytes) : Handling Bytes :=
  if target.length = source.length then return source else throw .unequal

/-! ## Operations -/

def length : Handling Nat := do
  let b ← get
  minus b.writePos b.readPos

def data : Handling Bytes := do
  let b ← get
  slice b.storage.toList b.readPos b.writePos

/-- Consumes into the front of `target`. Tells how many bytes, and what `target` is then. -/
def consumeInto (target : Bytes) : Handling (Nat × Bytes) := do
  let n := min (← length) target.length
  let b ← get
  let front ← slice target 0 n
  let taken ← slice b.storage.toList b.readPos (← plus b.readPos n)
  let front ← copyOver front taken
  set { b with readPos := ← plus b.readPos n }
  return (n, front ++ target.drop n)

/-- The bytes behind the write cursor, which are there to be written over. -/
def spare : Handling Bytes := do
  let b ← get
  slice b.storage.toList b.writePos b.storage.size

/-- Writes as many of `bytes` as there is room for over the front of the spare bytes, and tells how
many. -/
def store (bytes : Bytes) : Handling Nat := do
  let room ← spare
  let n := min room.length bytes.length
  let front ← copyOver (← slice room 0 n) (← slice bytes 0 n)
  modify fun b =>
    { b with storage := b.storage.extract 0 b.writePos ++ (front ++ room.drop n).toArray }
  return n

def commit (n : Nat) : Handling Unit := do
  let b ← get
  if n ≤ (← minus b.storage.size b.writePos) then
    set { b with writePos := ← plus b.writePos n }
  else throw (.misused .pastEnd)

/-- Receives as many of `bytes` as there is room for, and tells how many. -/
def fill (bytes : Bytes) : Handling Nat := do
  let n ← store bytes
  commit n
  return n

def reset : Handling Unit :=
  modify fun b => { b with readPos := 0, writePos := 0 }

end Handling

/-! ## Calls -/

inductive BufferCall where
  | store (bytes : Bytes)
  | commit (n : Nat)
  | consume (target : Bytes)
  | reset
  deriving DecidableEq

inductive BufferAnswer where
  | stored (n : Nat)
  /-- With the bytes that count as received from then on. -/
  | received (bytes : Bytes)
  /-- With their number, and what the target is then. -/
  | consumed (n : Nat) (target : Bytes)
  | rewound
  deriving DecidableEq

namespace Handling

def perform : BufferCall → Handling BufferAnswer
  | .store bytes => return .stored (← store bytes)
  | .commit n => do
    let room ← spare
    commit n
    return .received (room.take n)
  | .consume target => do
    let (n, target) ← consumeInto target
    return .consumed n target
  | .reset => do
    reset
    return .rewound

/-- What the calls are answered one after the other, and the buffer behind them. A call that stops
does not keep those behind it from being made. -/
def run : List BufferCall → Buffer → List (Except Stop BufferAnswer) × Buffer
  | [], b => ([], b)
  | call :: calls, b =>
    let (answer, b) := perform call b
    let (answers, b) := run calls b
    (answer :: answers, b)

end Handling

end Treegram
