import Treegram.Proofs.CalmCalls
import Treegram.Proofs.Drains

/-!
# Reads at the socket

A channel reads at its socket into the room behind what its buffer has received. It does so when
all of that is consumed and the cursors are reset, and no buffer has another capacity than the first
(`Fitted`). So every read has room for a full buffer, and one that tells of no bytes has found the
end of the stream (`SocketRead.ended_of_count`). That it goes into the storage of earlier reads
makes no difference, now or later (`Fitted.ignoresStorage`).

What the reads of a call bring stands behind what the buffer held; of that a front is handed out,
and the rest is what the buffer holds then (`Drawn`). A drain reads in the same way, but receives
nothing of what comes (`Drained`).
-/

namespace Treegram

/-- The bytes that a read brings. -/
def ReadOutcome.found : ReadOutcome → Bytes
  | .bytes b => b
  | _ => []

/-- The number of bytes that a read tells of, unless it fails. -/
def ReadOutcome.count? : ReadOutcome → Option Nat
  | .bytes b => some b.length
  | .ended => some 0
  | .broken => none
  | .blocked => none

/-- A read at the socket as it is, into the room there is for what comes. -/
structure SocketRead where
  socket : Socket
  room : Nat

namespace SocketRead

def outcome (r : SocketRead) : ReadOutcome :=
  (r.socket.read r.room).1

def bytes (r : SocketRead) : Bytes :=
  r.outcome.found

/-- With room for bytes, only the end of the stream brings none. -/
theorem ended_of_count {r : SocketRead} (h : 0 < r.room) (hc : r.outcome.count? = some 0) :
    r.socket.incoming = [] ∧ r.socket.isEnded = true := by
  unfold outcome Socket.read at hc
  split at hc
  · rename_i hne
    have hpos := List.length_pos_iff.2 hne
    simp only [ReadOutcome.count?, List.length_take, Option.some.injEq] at hc
    omega
  · rename_i hnil
    split at hc
    · simp [ReadOutcome.count?] at hc
    · split at hc
      · exact ⟨not_not.1 hnil, ‹_›⟩
      · simp [ReadOutcome.count?] at hc

end SocketRead

/-- A read takes out the bytes that it brings. -/
theorem Socket.read_found (s : Socket) (n : Nat) :
    (s.read n).1.found ++ (s.read n).2.incoming = s.incoming := by
  rcases h : s.read n with ⟨o, s'⟩
  cases o with
  | bytes bytes =>
    obtain ⟨rfl, -, rfl⟩ := Socket.read_eq_bytes h
    exact List.take_append_drop n s.incoming
  | _ =>
    obtain ⟨hnil, hnil'⟩ := Socket.incoming_of_read h (by simp)
    rw [hnil, hnil']
    rfl

theorem Socket.socket_of_nothing {s : Socket} (h : s.incoming = []) (n : Nat) :
    (s.read n).2 = { s with broken := false } := by
  rw [read_of_nothing h]
  split
  · rfl
  · rename_i hb
    rw [← Bool.eq_false_iff.2 hb]

theorem Socket.length_found_le (s : Socket) (n : Nat) : (s.read n).1.found.length ≤ n := by
  unfold read
  split
  · exact List.length_take_le _ _
  · split
    · exact Nat.zero_le n
    · split <;> exact Nat.zero_le n

namespace Channel

variable {c c' c'' : Channel}

/-- A read with the room behind what the buffer has received. -/
def offer (c : Channel) : SocketRead :=
  ⟨c.socket, c.buffer.spare⟩

/-- With the cursors of the buffer reset. -/
def rewound (c : Channel) : Channel :=
  { c with buffer := c.buffer.reset }

/-- Whether the buffer is in order and has the capacity that channels are made with. -/
structure Fitted (c : Channel) : Prop where
  sound : c.buffer.Sound
  capacity : c.buffer.capacity = Buffer.defaultCapacity

theorem Fitted.of_buffer (h : c.Fitted) (hb : c'.buffer = c.buffer) : c'.Fitted := by
  refine ⟨?_, ?_⟩ <;> rw [hb]
  · exact h.sound
  · exact h.capacity

theorem fitted_new (socket : Socket) : (new socket).Fitted :=
  ⟨Buffer.sound_new, Buffer.capacity_new⟩

theorem fitted_of_new (h : c.buffer = .new) : c.Fitted :=
  (fitted_new c.socket).of_buffer h

/-- Behind a reset there is room for a full buffer. -/
theorem Fitted.room (h : c.Fitted) : c.rewound.offer.room = Buffer.defaultCapacity :=
  h.capacity

theorem Fitted.alike_reset (h : c.Fitted) : Buffer.new.Alike c.buffer.reset :=
  Buffer.alike_reset (b := .new) (h.capacity.trans Buffer.capacity_new.symm)

/-! ## Reads into old storage -/

/-- A refill does not look at the buffer. -/
theorem refill_setBuffer (c : Channel) (buffer : Buffer) (course : Course) :
    { c with buffer }.refill course = c.refill course := by
  have hpull (c : Channel) (buffer : Buffer) : { c with buffer }.pull = c.pull := rfl
  cases course with
  | nil => rw [refill, refill, hpull]
  | cons look course =>
    have hlook : { c with buffer }.onLook look = { c.onLook look with buffer } := by
      rw [onLook, onLook, foldl_after_eq, foldl_after_eq]
    rw [refill, refill, hlook, hpull]
    rfl

/-- Reads at the socket behind a reset of the buffer, and receives what comes. -/
def fetch (c : Channel) : ReadOutcome × Channel :=
  let c := c.rewound
  match c.socket.read c.buffer.spare with
  | (.bytes bytes, socket) =>
    (.bytes bytes, { c with socket, buffer := (c.buffer.fill bytes).2 })
  | (outcome, socket) => (outcome, { c with socket })

theorem Fitted.fetch (h : c.Fitted) : c.fetch.1 = c.pull.1 ∧
    c.fetch.2 = { c.pull.2 with buffer := c.fetch.2.buffer } ∧
    c.pull.2.buffer.Alike c.fetch.2.buffer := by
  have halike := h.alike_reset
  have hroom : c.rewound.buffer.spare = Buffer.defaultCapacity := h.room
  simp only [Channel.fetch, pull, hroom, show c.rewound.socket = c.socket from rfl]
  rcases c.socket.read Buffer.defaultCapacity with ⟨o, s⟩
  cases o with
  | bytes bytes => exact ⟨rfl, rfl, halike.fill Buffer.sound_new bytes⟩
  | _ => exact ⟨rfl, rfl, halike⟩

theorem receive_alike {buffer : Buffer} (h : c.buffer.Alike buffer) (n : Nat) (course : Course) :
    ∃ buffer', (c.receive n course).2.1.buffer.Alike buffer' ∧
      { c with buffer }.receive n course = ((c.receive n course).1,
        { (c.receive n course).2.1 with buffer := buffer' }, (c.receive n course).2.2) := by
  have hdata : { c with buffer }.buffer.data = c.buffer.data := h.data
  by_cases hle : n ≤ c.buffer.data.length
  · rw [receive_of_le hle, receive_of_le (by rw [hdata]; exact hle), hdata]
    exact ⟨_, (h.consume n).2, rfl⟩
  · have hlt := Nat.lt_of_not_le hle
    have hsame : { c with buffer }.receive n course = c.receive n course := by
      rcases hr : c.refill course with ⟨_ | e, c', course'⟩
      · rw [receive_of_refill hlt hr, receive_of_refill (by rw [hdata]; exact hlt)
          ((c.refill_setBuffer buffer course).trans hr), hdata]
      · rw [receive_of_fault hlt hr, receive_of_fault (by rw [hdata]; exact hlt)
          ((c.refill_setBuffer buffer course).trans hr), hdata]
    rw [hsame]
    exact ⟨_, ⟨rfl, rfl, rfl, rfl⟩, rfl⟩

/-- Whether it makes no difference that reads go into the storage of earlier ones, to what they
bring or to what is handed out later. -/
structure IgnoresStorage (c : Channel) : Prop where
  fetch : c.fetch.1 = c.pull.1 ∧ c.fetch.2 = { c.pull.2 with buffer := c.fetch.2.buffer } ∧
    c.pull.2.buffer.Alike c.fetch.2.buffer
  receive {buffer : Buffer} : c.buffer.Alike buffer → ∀ n course,
    ∃ buffer', (c.receive n course).2.1.buffer.Alike buffer' ∧
      { c with buffer }.receive n course = ((c.receive n course).1,
        { (c.receive n course).2.1 with buffer := buffer' }, (c.receive n course).2.2)

theorem Fitted.ignoresStorage (h : c.Fitted) : c.IgnoresStorage :=
  ⟨h.fetch, receive_alike⟩

/-! ## Through reads -/

/-- Whether `c` came to `c'` through the reads, and `handed` was handed out meanwhile: it and what
the buffer holds then are what the buffer held and what the reads brought. -/
structure Drawn (c : Channel) (reads : List SocketRead) (handed : Bytes) (c' : Channel) : Prop where
  bytes : handed ++ c'.buffer.data = c.buffer.data ++ reads.flatMap SocketRead.bytes
  rooms : ∀ read ∈ reads, read.room = Buffer.defaultCapacity
  fitted : c'.Fitted

variable {reads reads' : List SocketRead} {handed handed' : Bytes}

theorem Fitted.drawn (h : c.Fitted) : c.Drawn [] [] c :=
  ⟨(List.append_nil _).symm, fun _ h => absurd h List.not_mem_nil, h⟩

theorem Drawn.trans (h : c.Drawn reads handed c') (h' : c'.Drawn reads' handed' c'') :
    c.Drawn (reads ++ reads') (handed ++ handed') c'' where
  bytes := by
    rw [List.append_assoc, h'.bytes, ← List.append_assoc, h.bytes, List.append_assoc,
      List.flatMap_append]
  rooms read hread := (List.mem_append.1 hread).elim (h.rooms read) (h'.rooms read)
  fitted := h'.fitted

/-- Only the buffers count. -/
theorem Drawn.of_buffers {d d' : Channel} (h : c.Drawn reads handed c') (hd : d.buffer = c.buffer)
    (hd' : d'.buffer = c'.buffer) : d.Drawn reads handed d' :=
  ⟨by rw [hd, hd', h.bytes], h.rooms, h.fitted.of_buffer hd'⟩

theorem Fitted.drawn_of_buffer (h : c.Fitted) (hb : c'.buffer = c.buffer) : c.Drawn [] [] c' :=
  h.drawn.of_buffers rfl hb

theorem Fitted.drawn_pull (h : c.Fitted) :
    c.Drawn [c.rewound.offer] c.buffer.data c.pull.2 := by
  have hroom := h.room
  have hle := c.socket.length_found_le Buffer.defaultCapacity
  have hbytes : c.rewound.offer.bytes = (c.socket.read Buffer.defaultCapacity).1.found := by
    rw [SocketRead.bytes, SocketRead.outcome, hroom]
    rfl
  refine ⟨?_, fun read hread => ?_, ?_⟩
  · rw [List.flatMap_singleton, hbytes, List.append_cancel_left_eq, pull]
    rcases hr : c.socket.read Buffer.defaultCapacity with ⟨o, s⟩
    rw [hr] at hle
    cases o with
    | bytes bytes => exact Buffer.data_fill_new hle
    | _ => exact data_new
  · rw [List.mem_singleton.1 hread]
    exact hroom
  · rw [pull]
    rcases c.socket.read Buffer.defaultCapacity with ⟨o, s⟩
    cases o with
    | bytes bytes =>
      exact ⟨Buffer.sound_new.fill bytes,
        (Buffer.sound_new.capacity_fill bytes).trans Buffer.capacity_new⟩
    | _ => exact fitted_of_new rfl

/-- The reads of a refill, each into the room that `fetch` gives it. -/
def refillReads (c : Channel) : Course → List SocketRead
  | [] => [c.rewound.offer]
  | look :: course =>
    let c := c.onLook look
    match c.over? look with
    | some _ => []
    | none => c.rewound.offer :: if c.pull.1 = .blocked then c.pull.2.refillReads course else []

/-- A refill drops what the buffer held; that was handed out before. -/
theorem Fitted.drawn_refill : ∀ (course : Course) {c : Channel}, c.Fitted →
    c.Drawn (c.refillReads course) c.buffer.data (c.refill course).2.1
  | [], c, h => h.drawn_pull
  | look :: course, c, h => by
    have hbuffer := c.buffer_onLook look
    have hpull := (h.of_buffer hbuffer).drawn_pull
    rw [hbuffer] at hpull
    simp only [refill, refillReads]
    rcases (c.onLook look).over? look with _ | e <;> dsimp only
    · by_cases hb : (c.onLook look).pull.1 = .blocked
      · rw [if_pos hb, if_pos hb]
        have hnone : (c.onLook look).pull.2.buffer.data = [] := by
          have hun := (c.onLook look).unread_pull
          rw [(incoming_of_pull hb).1] at hun
          exact (List.append_eq_nil_iff.1 hun).1
        have hrest := hpull.trans (hpull.fitted.drawn_refill course)
        rw [hnone, List.append_nil] at hrest
        exact hrest.of_buffers hbuffer.symm rfl
      · rw [if_neg hb, if_neg hb]
        exact hpull.of_buffers hbuffer.symm rfl
    · exact ⟨by rw [data_new]; rfl, fun _ h => absurd h List.not_mem_nil, fitted_of_new rfl⟩

/-- The reads while a number of bytes is handed out. -/
def receiveReads (c : Channel) (n : Nat) (course : Course) : List SocketRead :=
  if n ≤ c.buffer.data.length then []
  else
    c.refillReads course ++
      match h : c.refill course with
      | (some _, _, _) => []
      | (none, c', course') =>
        have := prospect_refill_lt course h
        c'.receiveReads (n - c.buffer.data.length) course'
termination_by c.prospect course

theorem Fitted.drawn_receive {c : Channel} (h : c.Fitted) (n : Nat) (course : Course) :
    c.Drawn (c.receiveReads n course) (c.receive n course).1.1 (c.receive n course).2.1 := by
  rw [receiveReads]
  by_cases hle : n ≤ c.buffer.data.length
  · obtain ⟨-, hdrop⟩ := c.buffer.consume_take n
    rw [receive_of_le hle, if_pos hle]
    refine ⟨?_, fun _ h => absurd h List.not_mem_nil, h.sound.consume n, h.capacity⟩
    rw [hdrop, List.take_append_drop]
    exact (List.append_nil _).symm
  · have hrefill := h.drawn_refill course
    rw [if_neg hle]
    split <;> rename_i c' course' hr <;> rw [hr] at hrefill
    · rw [receive_of_fault (Nat.lt_of_not_le hle) hr, List.append_nil]
      exact hrefill
    · have := prospect_refill_lt course hr
      rw [receive_of_refill (Nat.lt_of_not_le hle) hr]
      exact hrefill.trans (hrefill.fitted.drawn_receive _ course')
termination_by c.prospect course

/-! ## Messages -/

/-- A recording reader with the reads at the socket. -/
structure Logger where
  recorder : Recorder
  reads : List SocketRead

/-- The reads while the next `n` bytes are handed out. -/
def Recorder.receiveReads (r : Recorder) (n : Nat) : List SocketRead :=
  r.reader.channel.receiveReads n r.reader.course

instance : ByteSource Logger where
  take n l :=
    let (result, recorder) := ByteSource.take n l.recorder
    (result, ⟨recorder, l.reads ++ l.recorder.receiveReads n⟩)
  size l := ByteSource.size l.recorder
  length_of_take h := by
    simp only [Prod.mk.injEq] at h
    exact ByteSource.length_of_take (Prod.ext h.1 rfl)
  size_of_take h := by
    simp only [Prod.mk.injEq] at h
    obtain ⟨h, rfl⟩ := h
    exact ByteSource.size_of_take (Prod.ext h rfl)

/-- Whether the reading came from `l` to `l'`, if what came out meanwhile was recorded, and the
reads were. -/
def Logger.Drawn (l l' : Logger) : Prop :=
  l.recorder.reader.channel.Fitted → ∃ reads handed,
    l'.reads = l.reads ++ reads ∧ l'.recorder.record = l.recorder.record ++ handed ∧
      l.recorder.reader.channel.Drawn reads handed l'.recorder.reader.channel

theorem kept_logger : Wire.Kept Logger.Drawn where
  refl l h := ⟨[], [], (List.append_nil _).symm, (List.append_nil _).symm, h.drawn⟩
  trans := by
    intro l l' l'' hl hl' h
    obtain ⟨reads, handed, hreads, hrecord, hd⟩ := hl h
    obtain ⟨reads', handed', hreads', hrecord', hd'⟩ := hl' hd.fitted
    refine ⟨reads ++ reads', handed ++ handed', ?_, ?_, hd.trans hd'⟩
    · rw [hreads', hreads, List.append_assoc]
    · rw [hrecord', hrecord, List.append_assoc]
  take n l := by
    intro h
    have hd := h.drawn_receive n l.recorder.reader.course
    refine ⟨_, _, rfl, rfl, ?_⟩
    simp only [ByteSource.take]
    rcases hr : l.recorder.reader.channel.receive n l.recorder.reader.course with
      ⟨⟨bytes, _ | e⟩, c', course'⟩ <;> rw [hr] at hd <;> exact hd

theorem along_logger (n : Nat) (l : Logger) :
    Wire.Along Logger.recorder (ByteSource.take n) (ByteSource.take n) l :=
  rfl

/-- The recorded reading of a message, with the reads at the socket. -/
def logged (c : Channel) (course : Course) : Except Fault (Tree Label) × Logger :=
  Wire.decodeDocument ⟨⟨⟨c, course, 0⟩, []⟩, []⟩

/-- The reads while a message is read. -/
def decodeReads (c : Channel) (course : Course) : List SocketRead :=
  (c.logged course).2.reads

/-- To keep the reads changes nothing about the reading. -/
theorem recorded_logger (c : Channel) (course : Course) :
    c.recorded course = ((c.logged course).1, (c.logged course).2.recorder) :=
  Wire.along_decodeDocument along_logger (⟨⟨⟨c, course, 0⟩, []⟩, []⟩ : Logger)

theorem Fitted.drawn_recorded (h : c.Fitted) (course : Course) :
    c.Drawn (c.decodeReads course) (c.recorded course).2.record
      (c.recorded course).2.reader.channel := by
  obtain ⟨reads, handed, hreads, hrecord, hd⟩ :=
    kept_logger.decodeDocument (kept_logger.take 1 (⟨⟨⟨c, course, 0⟩, []⟩, []⟩ : Logger)) h
  have hreads : c.decodeReads course = reads := hreads
  have hrecord : (c.logged course).2.recorder.record = handed := hrecord
  rw [c.recorded_logger, hreads, hrecord]
  exact hd

/-! ## Draining -/

/-- After a read at the socket into the room there is. What comes is stored, and not received. -/
def load (c : Channel) : Channel :=
  { c with
    socket := (c.socket.read c.offer.room).2
    buffer := (c.buffer.store c.offer.bytes).2 }

theorem bytes_load (c : Channel) : c.offer.bytes ++ c.load.socket.incoming = c.socket.incoming :=
  c.socket.read_found c.offer.room

/-- A read that brings bytes only takes them out. -/
theorem socket_load (h : c.offer.bytes ≠ []) :
    c.load.socket = { c.socket with incoming := c.load.socket.incoming } := by
  rcases hr : c.socket.read c.offer.room with ⟨o, s⟩
  have hload : c.load.socket = s := congrArg Prod.snd hr
  cases o with
  | bytes bytes =>
    obtain ⟨-, -, hs⟩ := Socket.read_eq_bytes hr
    rw [hload, hs]
  | _ =>
    have hfound : c.offer.bytes = (c.socket.read c.offer.room).1.found := rfl
    rw [hr] at hfound
    exact absurd hfound h

theorem length_load (h : c.offer.bytes ≠ []) :
    c.load.socket.incoming.length < c.socket.incoming.length := by
  have hpos := List.length_pos_iff.2 h
  rw [← c.bytes_load, List.length_append]
  omega

/-- Reads at the socket into one place until no bytes come, and tells how many were dropped. Before
each read the peer acts. -/
def drainFrom (c : Channel) (dropped : Nat) (meanwhile : List (List PeerAction)) :
    List SocketRead × Except Fault Nat × Channel :=
  let acted := (meanwhile.headD []).foldl after c
  if hnone : acted.offer.bytes = [] then
    ([acted.offer], if acted.offer.outcome = .broken then .error .reset else .ok dropped,
      acted.load)
  else
    have := length_load hnone
    let (reads, rest) := acted.load.drainFrom (dropped + acted.offer.bytes.length) meanwhile.tail
    (acted.offer :: reads, rest)
termination_by (meanwhile.length, c.socket.incoming.length)
decreasing_by
  cases meanwhile with
  | nil => exact Prod.Lex.right _ this
  | cons actions meanwhile => exact Prod.Lex.left _ _ (Nat.lt_succ_self _)

/-- A drain that the peer leaves alone reads once where nothing is to be read. -/
theorem drainFrom_of_nothing (h : c.offer.bytes = []) (dropped : Nat) :
    (c.drainFrom dropped []).1 = [c.offer] := by
  unfold drainFrom
  exact congrArg Prod.fst (dif_pos h)

/-- A drain as it works: all that it reads goes into the storage of the buffer, and none of it is
received. -/
def drainDuring (c : Channel) (meanwhile : List (List PeerAction)) :
    List SocketRead × Except Fault Nat × Channel :=
  c.rewound.drainFrom c.buffer.length meanwhile

/-- Whether the reads, the result and `c'` are those of a drain from `c` on, behind which the
buffer holds nothing. -/
structure Drained (c : Channel) (dropped : Nat) (reads : List SocketRead)
    (result : Except Fault Nat) (c' : Channel) : Prop where
  bytes : reads.flatMap SocketRead.bytes = c.socket.incoming
  rooms : ∀ read ∈ reads, read.room = Buffer.defaultCapacity
  result : result = if c.socket.broken then .error .reset
    else .ok (dropped + c.socket.incoming.length)
  channel : c' = { c with
    socket := { c.socket with incoming := [], broken := false }
    buffer := c'.buffer }
  storage : Buffer.new.Alike c'.buffer

/-- With room for bytes, a read brings none only where there are none. -/
theorem incoming_of_offer (hroom : 0 < c.offer.room) (hnone : c.offer.bytes = []) :
    c.socket.incoming = [] := by
  by_contra hne
  have hread : c.offer.bytes = c.socket.incoming.take c.offer.room := by
    show (c.socket.read c.offer.room).1.found = _
    rw [Socket.read, if_pos hne]
    rfl
  rw [hread, List.take_eq_nil_iff] at hnone
  exact hnone.elim (Nat.ne_of_gt hroom) hne

theorem incoming_of_bytes (h : c.offer.bytes ≠ []) : c.socket.incoming ≠ [] := by
  rw [← c.bytes_load]
  exact List.append_ne_nil_of_left_ne_nil h _

/-- The last read of a drain finds out whether the connection broke. -/
theorem drained_load (hb : Buffer.new.Alike c.buffer) (hnone : c.offer.bytes = [])
    (dropped : Nat) : c.Drained dropped [c.offer]
      (if c.offer.outcome = .broken then .error .reset else .ok dropped) c.load := by
  have hroom : c.offer.room = Buffer.defaultCapacity := hb.spare.trans Buffer.spare_new
  have hnil : c.socket.incoming = [] := incoming_of_offer (by rw [hroom]; decide) hnone
  have houtcome : c.offer.outcome = .broken ↔ c.socket.broken = true := by
    show (c.socket.read c.offer.room).1 = .broken ↔ _
    rw [Socket.read_of_nothing hnil]
    cases c.socket.broken
    · cases c.socket.isEnded <;> simp
    · simp
  refine ⟨?_, fun read h => by rw [List.mem_singleton.1 h, hroom], ?_, ?_, ?_⟩
  · rw [List.flatMap_singleton, hnone, hnil]
  · simp only [houtcome, hnil, List.length_nil, Nat.add_zero]
  · have hsocket := Socket.socket_of_nothing hnil c.offer.room
    rw [hnil] at hsocket
    rw [← hsocket]
    rfl
  · exact hb.trans ((hb.sound Buffer.sound_new).alike_store _)

/-- A read of a drain takes out what it brings, and nothing else is different behind it. -/
theorem Drained.load {dropped : Nat} {result : Except Fault Nat} (actions : List PeerAction)
    (hroom : c.offer.room = Buffer.defaultCapacity) (hne : c.offer.bytes ≠ [])
    (h : (actions.foldl after c.load).Drained (dropped + c.offer.bytes.length) reads result c') :
    (actions.foldl after c).Drained dropped (c.offer :: reads) result c' := by
  have hload : (actions.foldl after c.load).socket = { (actions.foldl after c).socket with
      incoming := c.load.socket.incoming ++ c.socket.arrivals actions } := by
    rw [socket_foldl_after, socket_foldl_after, socket_load hne, Socket.foldl_after_incoming]
  have hincoming : (actions.foldl after c).socket.incoming =
      c.offer.bytes ++ (actions.foldl after c.load).socket.incoming := by
    rw [hload, socket_foldl_after, Socket.incoming_foldl_after, ← c.bytes_load, List.append_assoc]
  have hbroken : (actions.foldl after c.load).socket.broken =
      (actions.foldl after c).socket.broken := by
    rw [hload]
  refine ⟨?_, ?_, ?_, ?_, h.storage⟩
  · rw [List.flatMap_cons, h.bytes, hincoming]
  · exact List.forall_mem_cons.2 ⟨hroom, h.rooms⟩
  · rw [h.result, hbroken, hincoming, List.length_append, Nat.add_assoc]
  · rw [h.channel, hload, foldl_after_eq, foldl_after_eq]
    rfl

theorem load_eq_afterRead (hroom : c.offer.room = Buffer.defaultCapacity)
    (hne : c.socket.incoming ≠ []) :
    c.load = { c.afterRead with buffer := c.load.buffer } := by
  have hsocket : c.load.socket = c.afterRead.socket := by
    rw [load, hroom, Socket.read, if_pos hne]
    rfl
  calc c.load = { c with buffer := c.load.buffer, socket := c.load.socket } := rfl
    _ = { c.afterRead with buffer := c.load.buffer } := by rw [hsocket]; rfl

/-- What the peer does not come to stays for later behind a read that finds nothing. -/
theorem left_of_nothing {meanwhile : List (List PeerAction)}
    (h : ((meanwhile.headD []).foldl after c).socket.incoming = []) :
    (c.drain meanwhile).2.2 = meanwhile.tail := by
  cases meanwhile with
  | nil => rfl
  | cons actions meanwhile =>
    rw [List.headD_cons] at h
    rw [drain_of_nothing h, List.tail_cons]

/-- Behind one that finds bytes, it is what the peer does not come to later. -/
theorem left_of_bytes {meanwhile : List (List PeerAction)}
    (hroom : ((meanwhile.headD []).foldl after c).offer.room = Buffer.defaultCapacity)
    (hne : ((meanwhile.headD []).foldl after c).socket.incoming ≠ []) :
    (c.drain meanwhile).2.2 =
      (((meanwhile.headD []).foldl after c).load.drain meanwhile.tail).2.2 := by
  cases meanwhile with
  | nil => rfl
  | cons actions meanwhile =>
    rw [List.headD_cons] at hroom hne
    obtain ⟨n, -, hc⟩ := drain_of_bytes actions hne meanwhile
    rw [hc, List.headD_cons, List.tail_cons, load_eq_afterRead hroom hne]
    exact congrArg Prod.snd (drain_setBuffer _ _ meanwhile).symm

/-- Whatever the peer does during a drain, the drain is as one behind what the peer has done by its
last read. -/
theorem drained_from (c : Channel) (hb : Buffer.new.Alike c.buffer) (dropped : Nat)
    (meanwhile : List (List PeerAction)) : ∃ done, meanwhile = done ++ (c.drain meanwhile).2.2 ∧
      (done.flatten.foldl after c).Drained dropped (c.drainFrom dropped meanwhile).1
        (c.drainFrom dropped meanwhile).2.1 (c.drainFrom dropped meanwhile).2.2 := by
  have hfirst (meanwhile : List (List PeerAction)) :
      (meanwhile.take 1).flatten = meanwhile.headD [] := by
    cases meanwhile <;> simp
  fun_induction drainFrom c dropped meanwhile with
  | case1 c dropped meanwhile acted hnone =>
    have hacted : Buffer.new.Alike acted.buffer := by rwa [buffer_foldl_after]
    have hroom : acted.offer.room = Buffer.defaultCapacity := hacted.spare.trans Buffer.spare_new
    refine ⟨meanwhile.take 1, ?_, ?_⟩
    · rw [left_of_nothing (incoming_of_offer (by rw [hroom]; decide) hnone), ← List.drop_one,
        List.take_append_drop]
    · rw [hfirst]
      exact drained_load hacted hnone dropped
  | case2 c dropped meanwhile acted hne hlt reads rest hrest ih =>
    have hacted : Buffer.new.Alike acted.buffer := by rwa [buffer_foldl_after]
    have hroom : acted.offer.room = Buffer.defaultCapacity := hacted.spare.trans Buffer.spare_new
    obtain ⟨done, htail, hd⟩ :=
      ih (hacted.trans ((hacted.sound Buffer.sound_new).alike_store _))
    rw [hrest] at hd
    refine ⟨meanwhile.take 1 ++ done, ?_, ?_⟩
    · rw [left_of_bytes hroom (incoming_of_bytes hne), List.append_assoc, ← htail,
        ← List.drop_one, List.take_append_drop]
    · rw [List.flatten_append, List.foldl_append, hfirst]
      exact hd.load done.flatten hroom hne

theorem Fitted.drained (h : c.Fitted) (meanwhile : List (List PeerAction)) :
    ∃ done, meanwhile = done ++ (c.drain meanwhile).2.2 ∧
      (done.flatten.foldl after c.rewound).Drained c.buffer.length (c.drainDuring meanwhile).1
        (c.drainDuring meanwhile).2.1 (c.drainDuring meanwhile).2.2 := by
  have hdrained := c.rewound.drained_from h.alike_reset c.buffer.length meanwhile
  rwa [show (c.rewound.drain meanwhile).2 = (c.drain meanwhile).2 from
    c.drain_setBuffer _ meanwhile] at hdrained

/-- Such a drain does what a drain behind the actions does. -/
theorem Drained.drainStale {actions : List PeerAction} {result : Except Fault Nat}
    (h : (actions.foldl after c.rewound).Drained c.buffer.length reads result c') :
    (actions.foldl after c).drainStale = (result, { c' with buffer := .new }) := by
  have hsocket : (actions.foldl after c.rewound).socket = (actions.foldl after c).socket := by
    rw [socket_foldl_after, socket_foldl_after]
    rfl
  have hlength : (actions.foldl after c).unreadLength =
      c.buffer.length + (actions.foldl after c).socket.incoming.length := by
    rw [unreadLength, buffer_foldl_after]
  rw [drainStale_spec, h.result, h.channel, hlength, hsocket, foldl_after_eq, foldl_after_eq]
  rfl

end Channel

end Treegram
