import Treegram.Proofs.Listening

/-!
# What comes in during a call

The peer may write while a call waits. Which of its bytes come in is settled by what both sides
have ended by then (`Socket.arrivals`), whatever is read meanwhile. So what a call hands out and
what it leaves unread are together what was unread before and what came in during its looks, in
order (`heard_receive`).

For a message this is stated with a reader that keeps a record of the bytes it handed out; the
record changes nothing about the reading (`decodeDocument_recorder`).
-/

namespace Treegram

/-- What the peer does during the looks, in order. -/
def Course.actions (looks : Course) : List PeerAction :=
  looks.flatMap Look.peer

theorem Course.actions_append (looks looks' : Course) :
    actions (looks ++ looks') = looks.actions ++ looks'.actions :=
  List.flatMap_append

namespace Socket

/-- The bytes that come in while the peer acts. What it writes behind an end does not. -/
def arrivals (s : Socket) : List PeerAction → Bytes
  | [] => []
  | action :: actions =>
    (if s.isEnded then [] else action.bytes) ++ (s.after action).arrivals actions

/-- What has been ended: by the peer as a whole, its writing, and by us. -/
def ends (s : Socket) : Bool × Bool × Bool :=
  (s.peerClosed, s.peerEnded, s.shut)

variable {s s' : Socket}

theorem isEnded_congr (h : s'.ends = s.ends) : s'.isEnded = s.isEnded := by
  simp only [ends, Prod.mk.injEq] at h
  simp only [isEnded, h]

/-- Only the end of its writing and its closing change what has been ended. -/
theorem ends_after_eq (s : Socket) (action : PeerAction) :
    (s.after action).ends =
      (s.peerClosed || action == .close, s.peerEnded || action == .endWriting, s.shut) := by
  rcases action with bytes | _ | _ | _ | _
  · simp only [after]
    split <;> simp [ends]
  · simp only [after]
    split <;> simp [ends]
  · simp [after, ends]
  · simp [after, ends]
  · simp only [after]
    split <;> simp_all [ends]

theorem ends_after (h : s'.ends = s.ends) (action : PeerAction) :
    (s'.after action).ends = (s.after action).ends := by
  simp only [ends, Prod.mk.injEq] at h
  rw [ends_after_eq, ends_after_eq, h.1, h.2.1, h.2.2]

theorem ends_foldl_after : ∀ (actions : List PeerAction) {s s' : Socket}, s'.ends = s.ends →
    (actions.foldl after s').ends = (actions.foldl after s).ends
  | [], _, _, h => h
  | action :: actions, _, _, h => ends_foldl_after actions (ends_after h action)

theorem arrivals_congr : ∀ (actions : List PeerAction) {s s' : Socket}, s'.ends = s.ends →
    s'.arrivals actions = s.arrivals actions
  | [], _, _, _ => rfl
  | action :: actions, _, _, h => by
    rw [arrivals, arrivals, isEnded_congr h, arrivals_congr actions (ends_after h action)]

theorem arrivals_append : ∀ (actions actions' : List PeerAction) (s : Socket),
    s.arrivals (actions ++ actions') =
      s.arrivals actions ++ (actions.foldl after s).arrivals actions'
  | [], _, _ => rfl
  | action :: actions, actions', s => by
    simp only [List.cons_append, arrivals, List.foldl_cons, arrivals_append actions actions',
      List.append_assoc]

theorem incoming_foldl_after : ∀ (actions : List PeerAction) (s : Socket),
    (actions.foldl after s).incoming = s.incoming ++ s.arrivals actions
  | [], s => (List.append_nil _).symm
  | action :: actions, s => by
    rw [List.foldl_cons, incoming_foldl_after actions, incoming_after, arrivals, List.append_assoc]

/-- What the peer does adds to what is there, whatever that is. -/
theorem after_incoming (s : Socket) (incoming : Bytes) (action : PeerAction) :
    { s with incoming }.after action = { s.after action with
      incoming := incoming ++ if s.isEnded then [] else action.bytes } := by
  have hended : { s with incoming }.isEnded = s.isEnded := rfl
  cases action <;> simp only [after, hended, PeerAction.bytes] <;> split <;> simp

theorem foldl_after_incoming : ∀ (actions : List PeerAction) (s : Socket) (incoming : Bytes),
    actions.foldl after { s with incoming } =
      { actions.foldl after s with incoming := incoming ++ s.arrivals actions }
  | [], s, incoming => by rw [arrivals, List.append_nil]; rfl
  | action :: actions, s, incoming => by
    rw [List.foldl_cons, after_incoming, foldl_after_incoming actions, arrivals, List.append_assoc]
    rfl

theorem ends_read (s : Socket) (n : Nat) : (s.read n).2.ends = s.ends := by
  unfold read
  split
  · rfl
  · split
    · rfl
    · split <;> rfl

end Socket

namespace Channel

/-- Whether `c` came to `c'` during the looks, and `handed` was handed out meanwhile: it and what
is unread then are what was unread and what came in. -/
structure Heard (c : Channel) (looks : Course) (handed : Bytes) (c' : Channel) : Prop where
  bytes : handed ++ c'.unread = c.unread ++ c.socket.arrivals looks.actions
  ends : c'.socket.ends = (looks.actions.foldl Socket.after c.socket).ends

theorem Heard.refl (c : Channel) : c.Heard [] [] c :=
  ⟨by simp [Course.actions, Socket.arrivals], rfl⟩

theorem Heard.trans {c c' c'' : Channel} {looks looks' : Course} {handed handed' : Bytes}
    (h : c.Heard looks handed c') (h' : c'.Heard looks' handed' c'') :
    c.Heard (looks ++ looks') (handed ++ handed') c'' where
  bytes := by
    rw [List.append_assoc, h'.bytes, ← List.append_assoc, h.bytes, Socket.arrivals_congr _ h.ends,
      List.append_assoc, ← Socket.arrivals_append, Course.actions_append]
  ends := by
    rw [h'.ends, Socket.ends_foldl_after _ h.ends, Course.actions_append, List.foldl_append]

/-- Nothing comes in during quiet looks. -/
theorem arrivals_of_quiet {looks : Course} (h : ∀ look ∈ looks, look.peer = []) (s : Socket) :
    s.arrivals looks.actions = [] := by
  have hnone : looks.actions = [] := List.flatMap_eq_nil_iff.2 h
  rw [hnone]
  rfl

/-! ## Looks and refills -/

theorem foldl_after_eq : ∀ (actions : List PeerAction) (c : Channel),
    actions.foldl after c = { c with socket := actions.foldl Socket.after c.socket }
  | [], _ => rfl
  | _ :: actions, _ => foldl_after_eq actions _

theorem socket_foldl_after (actions : List PeerAction) (c : Channel) :
    (actions.foldl after c).socket = actions.foldl Socket.after c.socket := by
  rw [foldl_after_eq]

theorem buffer_foldl_after (actions : List PeerAction) (c : Channel) :
    (actions.foldl after c).buffer = c.buffer := by
  rw [foldl_after_eq]

theorem socket_onLook (c : Channel) (look : Look) :
    (c.onLook look).socket = look.peer.foldl Socket.after c.socket :=
  socket_foldl_after look.peer c

theorem buffer_onLook (c : Channel) (look : Look) : (c.onLook look).buffer = c.buffer :=
  buffer_foldl_after look.peer c

theorem actions_singleton (look : Look) : Course.actions [look] = look.peer :=
  List.append_nil _

/-- A look takes nothing out. -/
theorem heard_onLook (c : Channel) (look : Look) : c.Heard [look] [] (c.onLook look) where
  bytes := by
    rw [actions_singleton, unread, unread, buffer_onLook, socket_onLook,
      Socket.incoming_foldl_after, List.nil_append, List.append_assoc]
  ends := by rw [socket_onLook, actions_singleton]

theorem ends_pull (c : Channel) : c.pull.2.socket.ends = c.socket.ends := by
  rw [pull_eq]
  exact c.socket.ends_read _

theorem heard_pull (c : Channel) : c.Heard [] c.buffer.data c.pull.2 where
  bytes := by
    rw [c.unread_pull]
    simp [unread, Course.actions, Socket.arrivals]
  ends := c.ends_pull

/-- A refill drops what the buffer held; that was handed out before. -/
theorem heard_refill : ∀ (course : Course) (c : Channel), ∃ looks,
    course = looks ++ (c.refill course).2.2 ∧ c.Heard looks c.buffer.data (c.refill course).2.1
  | [], c => ⟨[], rfl, c.heard_pull⟩
  | look :: course, c => by
    have hlook := c.heard_onLook look
    have hbuffer := c.buffer_onLook look
    have hpull := hlook.trans (c.onLook look).heard_pull
    rw [hbuffer] at hpull
    simp only [refill]
    split
    · refine ⟨[look], rfl, ⟨?_, hlook.ends⟩⟩
      rw [← hlook.bytes]
      simp [unread, data_new, hbuffer]
    · split
      · rename_i hb
        obtain ⟨looks, hcourse, h⟩ := heard_refill course (c.onLook look).pull.2
        have hnone : (c.onLook look).pull.2.buffer.data = [] := by
          have hun := (c.onLook look).unread_pull
          rw [(incoming_of_pull hb).1] at hun
          exact (List.append_eq_nil_iff.1 hun).1
        rw [hnone] at h
        refine ⟨look :: looks, by rw [List.cons_append, ← hcourse], ?_⟩
        simpa using hpull.trans h
      · exact ⟨[look], rfl, by simpa using hpull⟩

/-- Handing out a number of bytes: those that come out and those that stay behind are in the order
in which they came in. -/
theorem heard_receive (c : Channel) (n : Nat) (course : Course) : ∃ looks,
    course = looks ++ (c.receive n course).2.2 ∧
      c.Heard looks (c.receive n course).1.1 (c.receive n course).2.1 := by
  obtain ⟨looks, hcourse, hrefill⟩ := heard_refill course c
  have happ := c.buffer.consume_append n
  have hdata := @Buffer.data_consume_of_short c.buffer n
  rw [receive]
  generalize c.buffer.consume n = front at happ hdata ⊢
  obtain ⟨bytes, buffer⟩ := front
  dsimp only at happ hdata ⊢
  split
  · refine ⟨[], rfl, ⟨?_, rfl⟩⟩
    simp only [unread, ← List.append_assoc, happ]
    simp [Course.actions, Socket.arrivals]
  · rename_i hn
    rw [hdata hn, List.append_nil] at happ
    rw [← happ] at hrefill
    split <;> rename_i c' course' h <;> rw [h] at hrefill hcourse
    · exact ⟨looks, hcourse, hrefill⟩
    · have := prospect_refill_lt course h
      obtain ⟨looks', hcourse', hrest⟩ := heard_receive c' (n - bytes.length) course'
      exact ⟨looks ++ looks', by rw [List.append_assoc, ← hcourse']; exact hcourse,
        hrefill.trans hrest⟩
termination_by c.prospect course

/-! ## Messages -/

/-- A reader that keeps the bytes it handed out, those of a failed read included. -/
structure Recorder where
  reader : Reader
  record : Bytes

instance : ByteSource Recorder where
  take n r :=
    let (result, reader) := ByteSource.take n r.reader
    (result, ⟨reader, r.record ++ (r.reader.channel.receive n r.reader.course).1.1⟩)
  size r := ByteSource.size r.reader
  length_of_take h := by
    simp only [Prod.mk.injEq] at h
    exact ByteSource.length_of_take (Prod.ext h.1 rfl)
  size_of_take h := by
    simp only [Prod.mk.injEq] at h
    obtain ⟨h, rfl⟩ := h
    exact ByteSource.size_of_take (Prod.ext h rfl)

/-- Whether the reading came from `r` to `r'`, and what came out meanwhile was recorded and
counted. -/
structure Recorder.Kept (r r' : Recorder) (looks : Course) (handed : Bytes) : Prop where
  course : r.reader.course = looks ++ r'.reader.course
  record : r'.record = r.record ++ handed
  taken : r'.reader.taken = r.reader.taken + handed.length
  heard : r.reader.channel.Heard looks handed r'.reader.channel

theorem kept_recorder :
    Wire.Kept fun r r' : Recorder => ∃ looks handed, r.Kept r' looks handed where
  refl r := ⟨[], [], rfl, (List.append_nil _).symm, rfl, .refl _⟩
  trans := by
    rintro r r' r'' ⟨looks, handed, h⟩ ⟨looks', handed', h'⟩
    refine ⟨looks ++ looks', handed ++ handed', ?_, ?_, ?_, h.heard.trans h'.heard⟩
    · rw [h.course, h'.course, List.append_assoc]
    · rw [h'.record, h.record, List.append_assoc]
    · rw [h'.taken, h.taken, List.length_append, Nat.add_assoc]
  take n r := by
    obtain ⟨looks, hcourse, hheard⟩ := r.reader.channel.heard_receive n r.reader.course
    unfold Wire.Keeps
    simp only [ByteSource.take]
    rcases hr : r.reader.channel.receive n r.reader.course with ⟨⟨bytes, _ | e⟩, c', course'⟩ <;>
      rw [hr] at hcourse hheard <;> exact ⟨looks, bytes, hcourse, rfl, rfl, hheard⟩

theorem along_recorder (n : Nat) (r : Recorder) :
    Wire.Along Recorder.reader (ByteSource.take n) (ByteSource.take n) r :=
  rfl

/-- The reading of a message, with the bytes that are handed out for it. -/
def recorded (c : Channel) (course : Course) : Except Fault (Tree Label) × Recorder :=
  Wire.decodeDocument ⟨⟨c, course, 0⟩, []⟩

/-- The record changes nothing about the reading. -/
theorem decodeDocument_recorder (c : Channel) (course : Course) :
    Wire.decodeDocument (σ := Reader) ⟨c, course, 0⟩ =
      ((c.recorded course).1, (c.recorded course).2.reader) :=
  Wire.along_decodeDocument along_recorder (⟨⟨c, course, 0⟩, []⟩ : Recorder)

/-- What the recorder has kept of a message is what was handed out for it. -/
theorem heard_recorded (c : Channel) (course : Course) : ∃ looks,
    course = looks ++ (c.recorded course).2.reader.course ∧
      (c.recorded course).2.reader.taken = (c.recorded course).2.record.length ∧
      c.Heard looks (c.recorded course).2.record (c.recorded course).2.reader.channel := by
  obtain ⟨looks, handed, h⟩ := kept_recorder.decodeDocument
    (kept_recorder.take 1 (⟨⟨c, course, 0⟩, []⟩ : Recorder))
  have hrecord : (c.recorded course).2.record = handed := h.record
  refine ⟨looks, h.course, ?_, by rw [hrecord]; exact h.heard⟩
  rw [hrecord]
  exact h.taken.trans (Nat.zero_add _)

end Channel

end Treegram
