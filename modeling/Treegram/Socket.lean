import Treegram.Bytes

/-!
# Sockets

Our end of a connection, as a queue of bytes in each direction and what either side has done to
end it. What the peer has written stays readable after it closes. A peer that closes with bytes of
ours unread breaks the connection: behind its last byte the next read fails once, and after that
the stream has ended. A write that nobody will read fails as well.

A call on a connection looks at the socket before each wait. What it comes upon is not in its
hands: the peer may have acted since the look before, and the time of the call may be over.
-/

namespace Treegram

structure Socket where
  /-- Written by the peer and not read by us. -/
  incoming : Bytes
  /-- Written by us and not read by the peer. -/
  outgoing : Bytes
  /-- Read by the peer, from the start of the connection on. -/
  seen : Bytes
  /-- The most bytes that may wait for the peer; a peer that reads all the time sets no limit. -/
  window : Option Nat
  peerClosed : Bool
  /-- Whether the peer has ended its writing. -/
  peerEnded : Bool
  /-- Whether the peer has ended its reading. -/
  peerDeaf : Bool
  shut : Bool
  /-- Whether the next read behind the last byte fails. -/
  broken : Bool
  deriving DecidableEq

inductive PeerAction where
  | write (bytes : Bytes)
  | read
  | endWriting
  | endReading
  | close
  deriving DecidableEq

def PeerAction.bytes : PeerAction → Bytes
  | write bytes => bytes
  | _ => []

/-- What a call comes upon when it looks at the socket before a wait. -/
structure Look where
  /-- What the peer has done since the look before. -/
  peer : List PeerAction := []
  /-- What the owner has asked for since then: that waits are cut short, or that they are not. -/
  wish : Option Bool := none
  /-- Whether the time of the call is over. -/
  expired : Bool := false
  /-- Whether the call has lasted so long that its waits may be cut short. -/
  late : Bool := false
  /-- Whether all that the peer has done came when the wait was over. -/
  sudden : Bool := false
  deriving DecidableEq

/-- The looks of a call, in order. Behind the last of them the peer does nothing more, and the time
of the call runs out if there is something left to wait for. -/
abbrev Course := List Look

namespace Course

/-- The course of a call during which the peer does nothing, and whose time is over when it starts
or lasts for all that is there. -/
def calm (expired : Bool) : Course :=
  if expired then [{ expired }] else []

instance : Coe Bool Course := ⟨calm⟩

def supply : Course → Nat
  | [] => 0
  | look :: course => (look.peer.flatMap PeerAction.bytes).length + supply course

end Course

/-- What a read at the socket finds. -/
inductive ReadOutcome where
  | bytes (bytes : Bytes)
  | broken
  | ended
  | blocked
  deriving DecidableEq

namespace Socket

/-- What the system lets wait for a peer that does not read. -/
def systemWindow : Nat := 212992

/-- A connection on which nothing has happened. -/
def connected (window : Option Nat) : Socket :=
  ⟨[], [], [], window, false, false, false, false, false⟩

/-- Whether the peer cannot send more than it has. -/
def isEnded (s : Socket) : Bool :=
  s.peerClosed || s.peerEnded || s.shut

/-- Whether what we send is never read. -/
def isUnheard (s : Socket) : Bool :=
  s.peerClosed || s.peerDeaf || s.shut

/-- Whether the connection is down in both directions. -/
def isHungUp (s : Socket) : Bool :=
  s.isEnded && s.isUnheard

/-- Whether a write would have to wait for the peer to read. -/
def isFull (s : Socket) : Bool :=
  match s.window with
  | some w => w ≤ s.outgoing.length
  | none => false

/-- Whether a read would not have to wait. -/
def isReadable (s : Socket) : Bool :=
  !s.incoming.isEmpty || s.broken || s.isEnded

/-- Reads up to `n` of the bytes that are there. -/
def read (s : Socket) (n : Nat) : ReadOutcome × Socket :=
  if s.incoming ≠ [] then (.bytes (s.incoming.take n), { s with incoming := s.incoming.drop n })
  else if s.broken then (.broken, { s with broken := false })
  else if s.isEnded then (.ended, s)
  else (.blocked, s)

/-- Writes as many of `bytes` as may wait for the peer, and tells how many, unless nobody will read
them. -/
def write (s : Socket) (bytes : Bytes) : Option Nat × Socket :=
  if s.isUnheard && !s.isFull then (none, s)
  else
    let sent :=
      match s.window with
      | some w => bytes.take (w - s.outgoing.length)
      | none => bytes
    (some sent.length, { s with outgoing := s.outgoing ++ sent })

def shutdown (s : Socket) : Socket :=
  { s with shut := true }

/-- After an action of the peer. What it has not read when it closes is never read. -/
def after (s : Socket) : PeerAction → Socket
  | .write bytes => if s.isEnded then s else { s with incoming := s.incoming ++ bytes }
  | .read =>
    if s.peerClosed then s else { s with outgoing := [], seen := s.seen ++ s.outgoing }
  | .endWriting => { s with peerEnded := true }
  | .endReading => { s with peerDeaf := true }
  | .close =>
    if s.peerClosed then s
    else { s with peerClosed := true, broken := s.broken || !s.outgoing.isEmpty }

/-- All we have written, in order. -/
def sent (s : Socket) : Bytes :=
  s.seen ++ s.outgoing

theorem incoming_after (s : Socket) (action : PeerAction) :
    (s.after action).incoming = s.incoming ++ if s.isEnded then [] else action.bytes := by
  cases action <;> simp only [after, PeerAction.bytes] <;> split <;> simp

theorem read_eq_bytes {s s' : Socket} {n : Nat} {bytes : Bytes}
    (h : s.read n = (.bytes bytes, s')) :
    bytes = s.incoming.take n ∧ s.incoming ≠ [] ∧
      s' = { s with incoming := s.incoming.drop n } := by
  simp only [read] at h
  split at h
  · rename_i hs
    simp only [Prod.mk.injEq, ReadOutcome.bytes.injEq] at h
    exact ⟨h.1.symm, hs, h.2.symm⟩
  · split at h
    · simp at h
    · split at h <;> simp at h

/-- A write takes a front of the bytes, or fails and does nothing. -/
theorem write_cases (s : Socket) (bytes : Bytes) : s.write bytes = (none, s) ∨
    ∃ part left, bytes = part ++ left ∧
      s.write bytes = (some part.length, { s with outgoing := s.outgoing ++ part }) := by
  unfold write
  split
  · exact Or.inl rfl
  · right
    rcases s.window with _ | w
    · exact ⟨bytes, [], (List.append_nil bytes).symm, rfl⟩
    · exact ⟨_, _, (List.take_append_drop (w - s.outgoing.length) bytes).symm, rfl⟩

/-- A read that finds no bytes leaves none behind. -/
theorem incoming_of_read {s s' : Socket} {n : Nat} {o : ReadOutcome} (h : s.read n = (o, s'))
    (ho : ∀ bytes, o ≠ .bytes bytes) : s.incoming = [] ∧ s'.incoming = [] := by
  simp only [read] at h
  split at h
  · simp only [Prod.mk.injEq] at h
    exact absurd h.1.symm (ho _)
  · rename_i hs
    have hs : s.incoming = [] := by simpa using hs
    split at h
    · simp only [Prod.mk.injEq] at h
      exact ⟨hs, by rw [← h.2]; exact hs⟩
    · split at h <;> simp only [Prod.mk.injEq] at h <;> exact ⟨hs, by rw [← h.2]; exact hs⟩

end Socket

end Treegram
