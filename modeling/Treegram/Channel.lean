import Treegram.Buffer
import Treegram.Socket
import Treegram.Wire.Decode

/-!
# Channels

A socket with a buffer for what comes in and a guard on message boundaries. When a message was
handed on or sent in part only, the stream does not line up with messages any more; from then on
the channel neither sends nor reads any.

A call looks at the socket before each wait: what the peer has done by then counts, and the call is
over if its deadline has passed, or if its owner wants waits to be cut short and it has lasted for
a while. Bytes in the buffer are handed out without a look. Behind the last look of its course a
call has time for all that is there, and none to wait for more.
-/

namespace Treegram

structure Channel where
  socket : Socket
  buffer : Buffer
  /-- Whether the owner asked for waits to be cut short. -/
  raised : Bool
  /-- Whether a message was cut off in either direction. -/
  desynced : Bool
  deriving DecidableEq

/-- Why a wait that ends so brings no bytes. -/
def ReadOutcome.fault? : ReadOutcome → Option Fault
  | bytes _ => none
  | broken => some .reset
  | ended => some .closed
  | blocked => some .timeout

namespace Channel

/-- How long a call lasts before its waits may be cut short. -/
def gracePeriod : Nat := 1000

def new (socket : Socket) : Channel :=
  ⟨socket, .new, false, false⟩

/-- The bytes that were received or can be, in order. -/
def unread (c : Channel) : Bytes :=
  c.buffer.data ++ c.socket.incoming

def unreadLength (c : Channel) : Nat :=
  c.buffer.length + c.socket.incoming.length

def hasBuffered (c : Channel) : Bool :=
  !c.buffer.isEmpty

def isReadable (c : Channel) : Bool :=
  c.socket.isReadable

def shutdown (c : Channel) : Channel :=
  { c with socket := c.socket.shutdown }

def after (c : Channel) (action : PeerAction) : Channel :=
  { c with socket := c.socket.after action }

/-- After what a look comes upon. -/
def onLook (c : Channel) (look : Look) : Channel :=
  { look.peer.foldl after c with raised := look.wish.getD c.raised }

/-- Whether the wait at a look tells that the connection is down. -/
def hangsUp (c : Channel) (look : Look) : Bool :=
  if look.sudden then c.socket.isHungUp else (c.onLook look).socket.isHungUp

/-- Why the call is over at a look, if it is. -/
def over? (c : Channel) (look : Look) : Option Fault :=
  if look.expired then some .timeout
  else if look.late ∧ c.raised then some .interrupted
  else none

/-! ## Dropping bytes -/

/-- Drops the bytes in the buffer and tells how many they were. -/
def discardBuffered (c : Channel) : Nat × Channel :=
  (c.buffer.length, { c with buffer := .new })

/-- Drops the bytes in the buffer and at the socket and tells how many they were. That the peer
has closed is left for others to find; that the connection broke is not. -/
def drainStale (c : Channel) : Except Fault Nat × Channel :=
  let dropped := c.unreadLength
  let drained := { c with buffer := .new, socket := { c.socket with incoming := [] } }
  match drained.socket.read Buffer.defaultCapacity with
  | (.broken, socket) => (.error .reset, { drained with socket })
  | (_, socket) => (.ok dropped, { drained with socket })

/-- Drops bytes as `drainStale` does, read by read as long as the peer acts: before each read it
does what stands next in `meanwhile`. Tells what it has not come to when a read brings no bytes. -/
def drain (c : Channel) : List (List PeerAction) →
    Except Fault Nat × Channel × List (List PeerAction)
  | [] =>
    let (result, c) := c.drainStale
    (result, c, [])
  | actions :: meanwhile =>
    let (n, c) := (actions.foldl after c).discardBuffered
    match c.socket.read Buffer.defaultCapacity with
    | (.bytes bytes, socket) =>
      let (result, rest) := drain { c with socket } meanwhile
      (result.map (n + bytes.length + ·), rest)
    | (.broken, socket) => (.error .reset, { c with socket }, meanwhile)
    | (_, socket) => (.ok n, { c with socket }, meanwhile)

/-! ## Sending -/

/-- Writes as much of `bytes` as the peer lets wait for it, unless the wait before told that the
connection is down. -/
def put (c : Channel) (hungUp : Bool) (bytes : Bytes) : Nat × Option Fault × Channel :=
  if hungUp then (0, some .closed, c)
  else
    match c.socket.write bytes with
    | (none, _) => (0, some .brokenPipe, c)
    | (some n, socket) => (n, none, { c with socket })

/-- Sends `bytes`, at each look as much of them as the peer lets wait for it; tells how many went
out and, if not all, why. -/
def send (c : Channel) (bytes : Bytes) : Course → Nat × Option Fault × Channel
  | [] =>
    if bytes = [] then (0, none, c)
    else
      match c.put c.socket.isHungUp bytes with
      | (n, some e, c) => (n, some e, c)
      | (n, none, c) => (n, if n < bytes.length then some .timeout else none, c)
  | look :: course =>
    if bytes = [] then (0, none, c)
    else
      let hungUp := c.hangsUp look
      let c := c.onLook look
      match c.over? look with
      | some e => (0, some e, c)
      | none =>
        match c.put hungUp bytes with
        | (n, some e, c) => (n, some e, c)
        | (n, none, c) =>
          let (m, fault, c) := send c (bytes.drop n) course
          (n + m, fault, c)

/-- Sends all of `bytes`; the channel is out of step if only a part of them went out. -/
def sendAll (c : Channel) (bytes : Bytes) (course : Course) : Except Fault Unit × Channel :=
  if c.desynced then (.error .desynchronized, c)
  else
    match c.send bytes course with
    | (_, none, c') => (.ok (), c')
    | (n, some e, c') => (.error e, { c' with desynced := 0 < n })

/-! ## Receiving -/

/-- Reads at the socket as much as the buffer holds. What the buffer held before is consumed. -/
def pull (c : Channel) : ReadOutcome × Channel :=
  match c.socket.read Buffer.defaultCapacity with
  | (.bytes bytes, socket) =>
    (.bytes bytes, { c with socket, buffer := (Buffer.new.fill bytes).2 })
  | (outcome, socket) => (outcome, { c with socket, buffer := .new })

/-- Waits for bytes at the socket and takes in as many as the buffer holds; tells why if none
come, and which looks are left. -/
def refill (c : Channel) : Course → Option Fault × Channel × Course
  | [] =>
    let (outcome, c) := c.pull
    (outcome.fault?, c, [])
  | look :: course =>
    let c := c.onLook look
    match c.over? look with
    | some e => (some e, { c with buffer := .new }, course)
    | none =>
      let (outcome, c) := c.pull
      if outcome = .blocked then refill c course else (outcome.fault?, c, course)

/-- The most bytes that can be read at the socket during the course. -/
def prospect (c : Channel) (course : Course) : Nat :=
  c.socket.incoming.length + course.supply

theorem data_new : Buffer.new.data = [] := by
  simp [Buffer.data, Buffer.new, Buffer.withCapacity]

theorem unread_pull (c : Channel) : c.pull.2.unread = c.socket.incoming := by
  unfold pull
  split
  · rename_i h
    obtain ⟨rfl, -, rfl⟩ := Socket.read_eq_bytes h
    simp only [unread]
    rw [Buffer.data_fill_new (by simp only [List.length_take]; omega), List.take_append_drop]
  · rename_i hne h
    obtain ⟨h₁, h₂⟩ := Socket.incoming_of_read h hne
    simp [unread, data_new, h₁, h₂]

theorem incoming_pull_lt {c : Channel} (h : c.pull.1.fault? = none) :
    c.pull.2.socket.incoming.length < c.socket.incoming.length := by
  unfold pull at h ⊢
  split at h
  · rename_i hr
    obtain ⟨-, hne, rfl⟩ := Socket.read_eq_bytes hr
    have := List.length_pos_iff.2 hne
    simp only [List.length_drop, Buffer.defaultCapacity]
    omega
  · rename_i o _ hne _
    cases o <;> simp [ReadOutcome.fault?] at h
    exact absurd rfl (hne _)

theorem incoming_of_pull {c : Channel} (h : c.pull.1 = .blocked) :
    c.socket.incoming = [] ∧ c.pull.2.socket.incoming = [] := by
  unfold pull at h ⊢
  split at h
  · simp at h
  · rename_i hne hr
    exact Socket.incoming_of_read hr hne

theorem incoming_after_actions (actions : List PeerAction) (c : Channel) :
    ∃ new, (actions.foldl after c).socket.incoming = c.socket.incoming ++ new ∧
      new.length ≤ (actions.flatMap PeerAction.bytes).length := by
  induction actions generalizing c with
  | nil => exact ⟨[], by simp⟩
  | cons action actions ih =>
    obtain ⟨new, hnew, hle⟩ := ih (c.after action)
    have hafter := c.socket.incoming_after action
    refine ⟨(if c.socket.isEnded then [] else action.bytes) ++ new, ?_, ?_⟩
    · rw [List.foldl_cons, hnew, ← List.append_assoc, ← hafter]
      rfl
    · rw [List.flatMap_cons, List.length_append, List.length_append]
      have : (if c.socket.isEnded then [] else action.bytes).length ≤ action.bytes.length := by
        split <;> simp
      omega

/-- The bytes that are there after a refill are those that were at the socket and the first of
those that came in during its looks. -/
theorem unread_refill (course : Course) : ∀ c : Channel,
    ∃ new, (c.refill course).2.1.unread = c.socket.incoming ++ new ∧
      new.length + (c.refill course).2.2.supply ≤ course.supply := by
  induction course with
  | nil =>
    intro c
    exact ⟨[], by rw [List.append_nil]; exact c.unread_pull, by simp [refill]⟩
  | cons look course ih =>
    intro c
    obtain ⟨new, hnew, hle⟩ := incoming_after_actions look.peer c
    have hlook : (c.onLook look).socket.incoming = c.socket.incoming ++ new := hnew
    have hun := (c.onLook look).unread_pull
    simp only [refill, Course.supply]
    split
    · exact ⟨new, by simp [unread, data_new, hlook], by dsimp only; omega⟩
    · split
      · rename_i hb
        obtain ⟨h₁, h₂⟩ := incoming_of_pull hb
        obtain ⟨more, hmore, hle'⟩ := ih (c.onLook look).pull.2
        refine ⟨new ++ more, ?_, by rw [List.length_append]; omega⟩
        rw [hmore, h₂, ← List.append_assoc, ← hlook, h₁]
      · exact ⟨new, by rw [hun, hlook], by dsimp only; omega⟩

theorem prospect_refill_lt (course : Course) : ∀ {c c' : Channel} {course' : Course},
    c.refill course = (none, c', course') → c'.prospect course' < c.prospect course := by
  induction course with
  | nil =>
    intro c c' course' h
    simp only [refill, Prod.mk.injEq] at h
    obtain ⟨hf, rfl, rfl⟩ := h
    have := incoming_pull_lt hf
    simp only [prospect]
    omega
  | cons look course ih =>
    intro c c' course' h
    obtain ⟨new, hnew, hle⟩ := incoming_after_actions look.peer c
    have hlook : (c.onLook look).socket.incoming = c.socket.incoming ++ new := hnew
    simp only [refill] at h
    split at h
    · simp at h
    · split at h
      · rename_i hb
        obtain ⟨-, h₂⟩ := incoming_of_pull hb
        have := ih h
        simp only [prospect, Course.supply, h₂, List.length_nil] at this ⊢
        omega
      · simp only [Prod.mk.injEq] at h
        obtain ⟨hf, rfl, rfl⟩ := h
        have := incoming_pull_lt hf
        simp only [prospect, Course.supply, hlook, List.length_append] at this ⊢
        omega

/-- Hands out the next `n` bytes, those in the buffer first; if they do not come, as many as there
are and the reason. Tells which looks are left. -/
def receive (c : Channel) (n : Nat) (course : Course) :
    (Bytes × Option Fault) × Channel × Course :=
  let (bytes, buffer) := c.buffer.consume n
  if bytes.length = n then ((bytes, none), { c with buffer }, course)
  else
    match h : c.refill course with
    | (some e, c', course') => ((bytes, some e), c', course')
    | (none, c', course') =>
      have := prospect_refill_lt course h
      let ((rest, fault), c'', course'') := receive c' (n - bytes.length) course'
      ((bytes ++ rest, fault), c'', course'')
termination_by c.prospect course

/-- Hands out the next `n` bytes. If they do not come, those that did are lost. -/
def receiveAll (c : Channel) (n : Nat) (course : Course) : Except Fault Bytes × Channel :=
  match c.receive n course with
  | ((bytes, none), c', _) => (.ok bytes, c')
  | ((_, some e), c', _) => (.error e, c')

/-- What is handed out and what is left make up what there was and what came in meanwhile. -/
theorem receive_append (c : Channel) (n : Nat) (course : Course) :
    ∃ new, (c.receive n course).1.1 ++ (c.receive n course).2.1.unread = c.unread ++ new ∧
      new.length + (c.receive n course).2.2.supply ≤ course.supply := by
  have happ := c.buffer.consume_append n
  have hdata := @Buffer.data_consume_of_short c.buffer n
  obtain ⟨new, hun, hle⟩ := unread_refill course c
  rw [receive]
  generalize c.buffer.consume n = front at happ hdata ⊢
  obtain ⟨bytes, buffer⟩ := front
  dsimp only at happ hdata ⊢
  split
  · exact ⟨[], by simp only [unread, ← List.append_assoc, happ, List.append_nil], by simp⟩
  · rename_i hn
    rw [hdata hn, List.append_nil] at happ
    split <;> rename_i c' course' h <;> rw [h] at hun hle
    · exact ⟨new, by rw [hun, ← List.append_assoc, happ]; rfl, hle⟩
    · have := prospect_refill_lt course h
      obtain ⟨more, hmore, hle'⟩ := receive_append c' (n - bytes.length) course'
      refine ⟨new ++ more, ?_, ?_⟩
      · dsimp only at hun ⊢
        rw [List.append_assoc, hmore, hun, happ]
        simp [unread]
      · rw [List.length_append, Nat.add_assoc]
        exact Nat.le_trans (Nat.add_le_add_left hle' _) hle
termination_by c.prospect course

theorem length_of_receive {c c' : Channel} {n : Nat} {course course' : Course} {bytes : Bytes}
    (h : c.receive n course = ((bytes, none), c', course')) : bytes.length = n := by
  have hle := c.buffer.length_consume_le n
  rw [receive] at h
  generalize c.buffer.consume n = taken at hle h
  obtain ⟨front, buffer⟩ := taken
  dsimp only at hle h
  split at h
  · rename_i hn
    simp only [Prod.mk.injEq] at h
    rw [← h.1.1]
    exact hn
  · split at h
    · simp at h
    · rename_i c₁ course₁ hr
      have := prospect_refill_lt course hr
      rcases hrec : c₁.receive (n - front.length) course₁ with ⟨⟨rest, fault⟩, c₂, course₂⟩
      rw [hrec] at h
      simp only [Prod.mk.injEq] at h
      obtain ⟨⟨rfl, rfl⟩, rfl, rfl⟩ := h
      have := length_of_receive hrec
      simp only [List.length_append]
      omega
termination_by c.prospect course

/-! ## Receiving messages -/

/-- A channel from which a message is read. -/
structure Reader where
  channel : Channel
  course : Course
  /-- The number of bytes that were handed out. -/
  taken : Nat

instance : ByteSource Reader where
  take n r :=
    match r.channel.receive n r.course with
    | ((bytes, none), channel, course) => (.ok bytes, ⟨channel, course, r.taken + bytes.length⟩)
    | ((bytes, some e), channel, course) => (.error e, ⟨channel, course, r.taken + bytes.length⟩)
  size r := r.channel.unread.length + r.course.supply
  length_of_take {n r r' b} h := by
    split at h
    · rename_i hr
      simp only [Prod.mk.injEq, Except.ok.injEq] at h
      rw [← h.1]
      exact length_of_receive hr
    · simp at h
  size_of_take {n r r' b} h := by
    obtain ⟨new, happ, hle⟩ := r.channel.receive_append n r.course
    have happ := congrArg List.length happ
    split at h
    · rename_i hr
      simp only [Prod.mk.injEq, Except.ok.injEq] at h
      obtain ⟨rfl, rfl⟩ := h
      rw [hr] at happ hle
      simp only [List.length_append, length_of_receive hr] at happ
      dsimp only at happ hle ⊢
      omega
    · simp at h

/-- Reads one message as it is found, whatever that does to the channel. -/
def decodeDocument (c : Channel) (course : Course) : Except Fault (Tree Label) × Channel :=
  let (result, r) := Wire.decodeDocument (σ := Reader) ⟨c, course, 0⟩
  (result, r.channel)

/-- Reads one message; the channel is out of step if that fails after a part of it. -/
def receiveDocument (c : Channel) (course : Course) : Except Fault (Tree Label) × Channel :=
  if c.desynced then (.error .desynchronized, c)
  else
    match Wire.decodeDocument (σ := Reader) ⟨c, course, 0⟩ with
    | (.ok t, r) => (.ok t, r.channel)
    | (.error e, r) => (.error e, { r.channel with desynced := 0 < r.taken })

end Channel

end Treegram
