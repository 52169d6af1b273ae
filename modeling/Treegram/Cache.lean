import Treegram.Bytes
import Treegram.Clock
import Treegram.Reply

/-!
# The cache of replies

Replies are kept under the bytes of the requests they answer, the one used last in front. An entry
expires a fixed time after it came in; expired entries are dropped when a look-up comes after the
horizon, which is never later than the first expiry. When the entries outgrow the budget, those
not used for the longest time go.
-/

namespace Treegram

structure CacheEntry where
  key : Bytes
  reply : Reply
  /-- From this time on the entry is stale. -/
  expires : Instant
  /-- What the entry counts against the budget. -/
  size : Nat
  deriving DecidableEq

/-- The bytes an entry is taken to occupy besides its key and reply. -/
def CacheEntry.overhead : Nat := 136

/-- What an entry for `key` and `reply` counts against the budget. -/
def CacheEntry.footprint (key : Bytes) (reply : Reply) : Nat :=
  key.length + reply.document.byteSize + overhead

/-- Whether a request may be answered by an earlier reply. -/
inductive CacheMode where
  | cached
  /-- The cache is neither asked nor filled. -/
  | bypass
  deriving DecidableEq

/-- Unless something else is asked for, replies are reused. -/
instance : Inhabited CacheMode := ⟨.cached⟩

structure Cache where
  /-- How long an entry lives from when it comes in. -/
  lifetime : Duration
  /-- The most bytes the entries may occupy. -/
  budget : Nat
  /-- The entries, the one used last in front. -/
  entries : List CacheEntry
  /-- What the entries occupy. -/
  total : Nat
  /-- A time not later than the expiry of any entry; none if there is no entry. -/
  horizon : Option Instant
  deriving DecidableEq

namespace Cache

def defaultLifetime : Duration := 200

def defaultBudget : Nat := 65536

def empty (lifetime : Duration) (budget : Nat) : Cache :=
  ⟨lifetime, budget, [], 0, none⟩

def default : Cache :=
  empty defaultLifetime defaultBudget

/-- What entries occupy together. -/
def occupied (entries : List CacheEntry) : Nat :=
  entries.foldr (fun e n => e.size + n) 0

def size (c : Cache) : Nat :=
  c.entries.length

def find? (c : Cache) (key : Bytes) : Option CacheEntry :=
  c.entries.find? fun e => e.key == key

/-- Without `e`, which is one of the entries. -/
def drop (c : Cache) (e : CacheEntry) : Cache :=
  let entries := c.entries.eraseP fun e' => e'.key == e.key
  { c with
    entries
    total := c.total - e.size
    horizon := if entries.isEmpty then none else c.horizon }

/-- The entries, least recently used first, without as many of the first ones as it takes to
occupy at most `limit`, and what they occupy then. -/
def shed (limit : Nat) : List CacheEntry → Nat → List CacheEntry × Nat
  | [], total => ([], total)
  | e :: es, total => if limit < total then shed limit es (total - e.size) else (e :: es, total)

/-- Without as many of the entries used least recently as it takes to occupy at most `limit`. -/
def shrink (c : Cache) (limit : Nat) : Cache :=
  let (kept, total) := shed limit c.entries.reverse c.total
  { c with
    entries := kept.reverse
    total
    horizon := if kept.isEmpty then none else c.horizon }

def firstExpiry (entries : List CacheEntry) : Option Instant :=
  (entries.map CacheEntry.expires).min?

def dropExpired (c : Cache) (now : Instant) : Cache :=
  let (stale, live) := c.entries.partition fun e => e.expires ≤ now
  { c with
    entries := live
    total := c.total - occupied stale
    horizon := firstExpiry live }

/-- Without the stale entries, if the horizon has been reached. -/
def expireIfDue (c : Cache) (now : Instant) : Cache :=
  match c.horizon with
  | some h => if h ≤ now then c.dropExpired now else c
  | none => c

/-- The reply kept for `key`, whose entry moves to the front. -/
def lookup (c : Cache) (key : Bytes) (now : Instant) : Option Reply × Cache :=
  let c := c.expireIfDue now
  match c.find? key with
  | some e =>
    (some e.reply, { c with entries := e :: c.entries.eraseP fun e' => e'.key == key })
  | none => (none, c)

/-- Whether an entry for `key` is kept that is not stale. -/
def contains (c : Cache) (key : Bytes) (now : Instant) : Bool :=
  match c.find? key with
  | some e => now < e.expires
  | none => false

/-- When an entry that comes in at `now` expires: at once, if the clock does not hold the end of
its lifetime. -/
def expiry (c : Cache) (now : Instant) : Instant :=
  (now.plus? c.lifetime).getD now

/-- Keeps `reply` for `key` in place of an earlier one, and tells whether it did. Parts of longer
answers, and replies that exceed the whole budget, are not kept and change nothing. -/
def insert (c : Cache) (key : Bytes) (reply : Reply) (now : Instant) : Bool × Cache :=
  let size := CacheEntry.footprint key reply
  if reply.isContinued then (false, c)
  else if c.budget < size then (false, c)
  else
    let c :=
      match c.find? key with
      | some e => c.drop e
      | none => c
    let c := c.shrink (c.budget - size)
    let expires := c.expiry now
    (true, { c with
      entries := ⟨key, reply, expires, size⟩ :: c.entries
      total := c.total + size
      horizon := some ((c.horizon.map (min expires)).getD expires) })

/-- Without any entry, or without the stale ones. -/
def clear (c : Cache) (all : Bool) (now : Instant) : Cache :=
  if all then { c with entries := [], total := 0, horizon := none } else c.dropExpired now

def setLifetime (c : Cache) (lifetime : Duration) : Cache :=
  { c with lifetime }

/-- With another budget, which the entries are made to meet. -/
def setBudget (c : Cache) (budget : Nat) : Cache :=
  { c with budget }.shrink budget

end Cache

end Treegram
