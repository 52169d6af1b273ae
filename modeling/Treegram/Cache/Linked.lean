import Treegram.Arena
import Treegram.Cache

/-!
# Caches of linked entries

A cache whose entries stay in their slots. The order in which they were used is kept by links: each
entry names the slot of the one used next after it and of the one used last before it. So an entry
is moved to the front, or dropped from anywhere, without the others being touched, but for its
neighbours.

Nothing guards the links. Nothing comes of an operation that looks into a dead slot, takes more off
the total than is on it, or goes round in a circle.
-/

namespace Treegram

structure LinkedEntry extends CacheEntry where
  /-- The slot of the entry in front of this one. -/
  previous : Option Nat
  /-- The slot of the entry behind this one. -/
  next : Option Nat

structure LinkedCache where
  lifetime : Duration
  budget : Nat
  entries : Arena LinkedEntry
  /-- The slot of the entry used last. -/
  head : Option Nat
  /-- The slot of the entry not used for the longest time. -/
  tail : Option Nat
  total : Nat
  horizon : Option Instant

namespace LinkedCache

def empty (lifetime : Duration) (budget : Nat) : LinkedCache :=
  ⟨lifetime, budget, .empty, none, none, 0, none⟩

/-! ## Links -/

/-- With the entry in slot `k` changed by `f`. -/
def modify? (c : LinkedCache) (k : Nat) (f : LinkedEntry → LinkedEntry) : Option LinkedCache := do
  return { c with entries := ← c.entries.modify? k f }

/-- With `next` behind the entry in slot `k`, or in front of all if there is none. -/
def setNext (c : LinkedCache) (k next : Option Nat) : Option LinkedCache :=
  match k with
  | some k => c.modify? k fun e => { e with next }
  | none => some { c with head := next }

/-- With `previous` in front of the entry in slot `k`, or behind all if there is none. -/
def setPrevious (c : LinkedCache) (k previous : Option Nat) : Option LinkedCache :=
  match k with
  | some k => c.modify? k fun e => { e with previous }
  | none => some { c with tail := previous }

/-- With the neighbours of the entry in slot `k` next to each other, and it beside the others. -/
def unlink (c : LinkedCache) (k : Nat) : Option LinkedCache := do
  let e ← c.entries.get? k
  let c ← c.setNext e.previous e.next
  let c ← c.setPrevious e.next e.previous
  c.modify? k fun e => { e with previous := none, next := none }

/-- With the entry in slot `k`, which stands beside the others, in front of them. -/
def pushFront (c : LinkedCache) (k : Nat) : Option LinkedCache := do
  let c ← c.modify? k fun e => { e with previous := none, next := c.head }
  let c ← if c.head.isSome then c.setPrevious c.head (some k) else some c
  return { c with head := some k, tail := if c.tail.isNone then some k else c.tail }

def moveToFront (c : LinkedCache) (k : Nat) : Option LinkedCache :=
  if c.head = some k then some c else do (← c.unlink k).pushFront k

/-- Without the entry in slot `k`. -/
def drop (c : LinkedCache) (k : Nat) : Option LinkedCache := do
  let c ← c.unlink k
  let (e, entries) ← c.entries.remove? k
  if e.size ≤ c.total then
    some { c with
      entries
      total := c.total - e.size
      horizon := if entries.count = 0 then none else c.horizon }
  else none

/-! ## Walks along the links -/

/-- The slot of the entry for `key`, from a given one on. -/
def findFrom (c : LinkedCache) (key : Bytes) : Option Nat → Option (Option Nat)
  | none => some none
  | some k => do
    let e ← c.entries.get? k
    if e.key = key then some (some k) else c |>.findFrom key e.next
partial_fixpoint

def find (c : LinkedCache) (key : Bytes) : Option (Option Nat) :=
  c.findFrom key c.head

/-- Without the entry for `key`, if there is one. -/
def without (c : LinkedCache) (key : Bytes) : Option LinkedCache := do
  match ← c.find key with
  | some k => c.drop k
  | none => some c

/-- Without the entries at the end, as long as the total is one of those that are `tooMuch`. -/
def dropWhile (tooMuch : Nat → Bool) (c : LinkedCache) : Option LinkedCache :=
  if tooMuch c.total then
    match c.tail with
    | some k => do (← c.drop k) |>.dropWhile tooMuch
    | none => some c
  else some c
partial_fixpoint

/-- Without the stale entries from a given one on, and with the first time at which one of the
others expires, or the time `first` if that is earlier, as horizon. -/
def dropExpiredFrom (now : Instant) (c : LinkedCache) (first : Option Instant) :
    Option Nat → Option LinkedCache
  | none => some { c with horizon := first }
  | some k => do
    let e ← c.entries.get? k
    if e.expires ≤ now then (← c.drop k) |>.dropExpiredFrom now first e.next
    else c |>.dropExpiredFrom now (some ((first.map (min e.expires)).getD e.expires)) e.next
partial_fixpoint

def dropExpired (c : LinkedCache) (now : Instant) : Option LinkedCache :=
  dropExpiredFrom now c none c.head

/-! ## Operations -/

def expireIfDue (c : LinkedCache) (now : Instant) : Option LinkedCache :=
  match c.horizon with
  | some h => if h ≤ now then c.dropExpired now else some c
  | none => some c

def lookup (c : LinkedCache) (key : Bytes) (now : Instant) :
    Option (Option Reply × LinkedCache) := do
  let c ← c.expireIfDue now
  match ← c.find key with
  | some k =>
    let c ← c.moveToFront k
    let e ← c.entries.get? k
    return (some e.reply, c)
  | none => return (none, c)

def contains (c : LinkedCache) (key : Bytes) (now : Instant) : Option Bool := do
  match ← c.find key with
  | some k =>
    let e ← c.entries.get? k
    return now < e.expires
  | none => return false

def insert (c : LinkedCache) (key : Bytes) (reply : Reply) (now : Instant) :
    Option (Bool × LinkedCache) :=
  let size := CacheEntry.footprint key reply
  if reply.isContinued then some (false, c)
  else if c.budget < size then some (false, c)
  else do
    let c ← c.without key
    let c ← c.dropWhile fun total => c.budget - total < size
    let expires := (now.plus? c.lifetime).getD now
    let k := c.entries.next
    let e : LinkedEntry := ⟨⟨key, reply, expires, size⟩, none, none⟩
    let c ← { c with entries := c.entries.insert e }.pushFront k
    return (true, { c with
      total := c.total + size
      horizon := some ((c.horizon.map (min expires)).getD expires) })

def clear (c : LinkedCache) (all : Bool) (now : Instant) : Option LinkedCache :=
  if all then
    some { c with entries := .empty, head := none, tail := none, total := 0, horizon := none }
  else c.dropExpired now

def setLifetime (c : LinkedCache) (lifetime : Duration) : LinkedCache :=
  { c with lifetime }

def setBudget (c : LinkedCache) (budget : Nat) : Option LinkedCache :=
  { c with budget }.dropWhile fun total => budget < total

end LinkedCache

/-! ## Runs -/

/-- What is asked of a cache. The times are any, and need not increase; a look-up that copies what
it finds is no other than one that shows it. -/
inductive CacheCall where
  | insert (key : Bytes) (reply : Reply) (now : Instant)
  | lookup (key : Bytes) (now : Instant)
  | contains (key : Bytes) (now : Instant)
  | clear (all : Bool) (now : Instant)
  | setLifetime (lifetime : Duration)
  | setBudget (budget : Nat)
  deriving DecidableEq

inductive CacheAnswer where
  | stored (kept : Bool)
  | found (reply : Option Reply)
  | contained (kept : Bool)
  | done
  deriving DecidableEq

def Cache.perform (c : Cache) : CacheCall → CacheAnswer × Cache
  | .insert key reply now =>
    let (kept, c) := c.insert key reply now
    (.stored kept, c)
  | .lookup key now =>
    let (reply, c) := c.lookup key now
    (.found reply, c)
  | .contains key now => (.contained (c.contains key now), c)
  | .clear all now => (.done, c.clear all now)
  | .setLifetime lifetime => (.done, c.setLifetime lifetime)
  | .setBudget budget => (.done, c.setBudget budget)

/-- The answers to the calls, one after the other, and the cache behind them. -/
def Cache.run (c : Cache) : List CacheCall → List CacheAnswer × Cache
  | [] => ([], c)
  | call :: calls =>
    let (answer, c) := c.perform call
    let (answers, c) := c.run calls
    (answer :: answers, c)

def LinkedCache.perform (c : LinkedCache) : CacheCall → Option (CacheAnswer × LinkedCache)
  | .insert key reply now => do
    let (kept, c) ← c.insert key reply now
    return (.stored kept, c)
  | .lookup key now => do
    let (reply, c) ← c.lookup key now
    return (.found reply, c)
  | .contains key now => return (.contained (← c.contains key now), c)
  | .clear all now => return (.done, ← c.clear all now)
  | .setLifetime lifetime => some (.done, c.setLifetime lifetime)
  | .setBudget budget => return (.done, ← c.setBudget budget)

/-- The answers to the calls, one after the other, and the cache behind them. -/
def LinkedCache.run (c : LinkedCache) : List CacheCall → Option (List CacheAnswer × LinkedCache)
  | [] => some ([], c)
  | call :: calls => do
    let (answer, c) ← c.perform call
    let (answers, c) ← c.run calls
    return (answer :: answers, c)

end Treegram
