import Treegram.Bytes
import Treegram.Fault

/-!
# Receive buffers

A buffer of fixed capacity with a cursor behind the bytes that came in and one behind those that
were consumed. It is no ring: space is won back by a reset, which leaves the stored bytes as they
are.
-/

namespace Treegram

structure Buffer where
  storage : Array UInt8
  readPos : Nat
  writePos : Nat
  deriving DecidableEq

namespace Buffer

/-- The capacity of a channel's buffer. -/
def defaultCapacity : Nat := 8192

/-- An empty buffer for at most `capacity` bytes, and for one at least. -/
def withCapacity (capacity : Nat) : Buffer :=
  ⟨.replicate (max capacity 1) 0, 0, 0⟩

def new : Buffer :=
  withCapacity defaultCapacity

def capacity (b : Buffer) : Nat :=
  b.storage.size

/-- The number of bytes that came in and are not consumed. -/
def length (b : Buffer) : Nat :=
  b.writePos - b.readPos

def isEmpty (b : Buffer) : Bool :=
  b.readPos == b.writePos

/-- The bytes that came in and are not consumed. -/
def data (b : Buffer) : Bytes :=
  (b.storage.extract b.readPos b.writePos).toList

def spare (b : Buffer) : Nat :=
  b.capacity - b.writePos

/-- The next `n` bytes, or all there are if they are fewer. -/
def consume (b : Buffer) (n : Nat) : Bytes × Buffer :=
  let taken := min b.length n
  ((b.storage.extract b.readPos (b.readPos + taken)).toList,
    { b with readPos := b.readPos + taken })

/-- The number of bytes consumed into the front of `target`, and what `target` is then. -/
def consumeInto (b : Buffer) (target : Bytes) : Nat × Bytes × Buffer :=
  let (bytes, b') := b.consume target.length
  (bytes.length, bytes ++ target.drop bytes.length, b')

/-- Stores as many of `bytes` as there is room for; they do not count as received yet. -/
def store (b : Buffer) (bytes : Bytes) : Nat × Buffer :=
  let front := bytes.take b.spare
  (front.length,
    { b with
      storage := b.storage.extract 0 b.writePos ++ front.toArray ++
        b.storage.extract (b.writePos + front.length) b.capacity })

/-- Counts the `n` bytes behind the write cursor as received. -/
def commit (b : Buffer) (n : Nat) : Except Misuse Buffer :=
  if n ≤ b.spare then .ok { b with writePos := b.writePos + n } else .error .pastEnd

/-- Receives as many of `bytes` as there is room for, and tells how many. -/
def fill (b : Buffer) (bytes : Bytes) : Nat × Buffer :=
  let (n, b') := b.store bytes
  (n, { b' with writePos := b'.writePos + n })

def reset (b : Buffer) : Buffer :=
  { b with readPos := 0, writePos := 0 }

def describe (b : Buffer) : String :=
  "IoBuffer \x7b capacity: " ++ toString b.capacity ++ ", read_pos: " ++ toString b.readPos ++
    ", write_pos: " ++ toString b.writePos ++ " \x7d"

/-! ## What operations do to the data -/

theorem consume_append (b : Buffer) (n : Nat) :
    (b.consume n).1 ++ (b.consume n).2.data = b.data := by
  simp only [consume, data, length, ← Array.toList_append, Array.extract_append_extract]
  by_cases h : b.readPos ≤ b.writePos
  · congr 2 <;> omega
  · simp only [Array.toList_extract]
    simp
    omega

theorem length_consume_le (b : Buffer) (n : Nat) : (b.consume n).1.length ≤ n := by
  simp only [consume, length, Array.length_toList, Array.size_extract]
  omega

/-- A buffer that hands out less than it is asked for has nothing left. -/
theorem data_consume_of_short {b : Buffer} {n : Nat} (h : (b.consume n).1.length ≠ n) :
    (b.consume n).2.data = [] := by
  simp only [consume, data, length, Array.length_toList, Array.size_extract,
    ← List.length_eq_zero_iff] at h ⊢
  omega

theorem data_fill_new {bytes : Bytes} (h : bytes.length ≤ defaultCapacity) :
    (new.fill bytes).2.data = bytes := by
  have hs : bytes.take new.spare = bytes := List.take_of_length_le (by
    simpa [new, withCapacity, spare, capacity, defaultCapacity] using h)
  simp only [fill, store, hs]
  simp [data, new, withCapacity]

end Buffer

end Treegram
