import Treegram.Proofs.OutOfStep
import Treegram.Proofs.SocketReads

/-!
# Where the bytes of the peer go

The bytes that the peer has written are, in order, those that the calls on a channel have taken, in
the order of the calls, those in the buffer, and those that wait at the socket. No call loses one,
brings one twice or has one overtake another (`Fitted.heard_perform`), however it ends and whatever
the peer does meanwhile; so no run does (`Fitted.conserved_run`).

What the calls have taken and the buffer holds is what the reads at the socket have brought
(`Fitted.drawn_run`). The peer may also act between two reads of a drain; that makes it a drain
behind these actions (`Fitted.drainDuring_eq`).
-/

namespace Treegram

namespace Course

/-- The looks in front of those that are left. -/
def upTo (course left : Course) : Course :=
  course.take (course.length - left.length)

theorem upTo_left {course looks left : Course} (h : course = looks ++ left) :
    course.upTo left = looks := by
  rw [upTo, h, List.length_append, Nat.add_sub_cancel_right, List.take_left]

end Course

/-- Whether the action leaves the peer free to write. -/
def PeerAction.goesOn : PeerAction → Bool
  | write _ => true
  | read => true
  | endReading => true
  | endWriting => false
  | close => false

namespace Socket

theorem isEnded_after (s : Socket) (action : PeerAction) :
    (s.after action).isEnded = (s.isEnded || !action.goesOn) := by
  have hends := s.ends_after_eq action
  have hends' : action.goesOn = !(action == .close || action == .endWriting) := by
    cases action <;> rfl
  simp only [ends, Prod.mk.injEq] at hends
  simp only [isEnded, hends, hends', Bool.not_not, Bool.or_left_comm, Bool.or_comm]

/-- What comes in is what the peer writes in front of an end. -/
theorem arrivals_eq : ∀ (actions : List PeerAction) (s : Socket), s.arrivals actions =
    if s.isEnded then [] else (actions.takeWhile PeerAction.goesOn).flatMap PeerAction.bytes
  | [], s => by simp [arrivals]
  | action :: actions, s => by
    rw [arrivals, arrivals_eq actions, isEnded_after]
    rcases s.isEnded with _ | _
    · cases h : action.goesOn
      · cases action <;> simp_all [PeerAction.goesOn, PeerAction.bytes]
      · simp [h]
    · simp

end Socket

namespace Channel

variable {c c' : Channel}

/-! ## What calls take, read and come upon -/

/-- The looks of the call. -/
def passed (c : Channel) : Call → Course
  | .sendAll bytes course => if c.desynced then [] else c.sendLooks bytes course
  | .receiveDocument course =>
    if c.desynced then [] else course.upTo (c.recorded course).2.reader.course
  | .decodeDocument course => course.upTo (c.recorded course).2.reader.course
  | .receiveAll n course => course.upTo (c.receive n course).2.2
  | _ => []

/-- What the peer does by the end of the call. -/
def conduct (c : Channel) : Call → List PeerAction
  | .peer action => [action]
  | call => (c.passed call).actions

/-- The bytes that the peer writes by the end of the call. Behind an end nothing can be written. -/
def written (c : Channel) (call : Call) : Bytes :=
  if c.socket.isEnded then []
  else ((c.conduct call).takeWhile PeerAction.goesOn).flatMap PeerAction.bytes

/-- The reads of the call at the socket. -/
def reads (c : Channel) : Call → List SocketRead
  | .receiveDocument course => if c.desynced then [] else c.decodeReads course
  | .decodeDocument course => c.decodeReads course
  | .receiveAll n course => c.receiveReads n course
  | .drainStale => (c.drainDuring []).1
  | _ => []

/-- The bytes that the call hands out or drops, also if it fails. -/
def taken (c : Channel) : Call → Bytes
  | .receiveDocument course => c.handed course
  | .decodeDocument course => (c.recorded course).2.record
  | .receiveAll n course => (c.receive n course).1.1
  | .drainStale => c.buffer.data ++ (c.drainDuring []).1.flatMap SocketRead.bytes
  | .discardBuffered => c.buffer.data
  | _ => []

/-- All that comes of the calls of a run, in order. -/
def gather {α : Type} (f : Channel → Call → List α) (c : Channel) : List Call → List α
  | [] => []
  | call :: calls => f c call ++ (c.perform call).gather f calls

/-! ## Calls -/

theorem decodeDocument_recorded (c : Channel) (course : Course) :
    c.decodeDocument course = ((c.recorded course).1, (c.recorded course).2.reader.channel) := by
  rw [decodeDocument, c.decodeDocument_recorder]

theorem channel_receiveAll (c : Channel) (n : Nat) (course : Course) :
    (c.receiveAll n course).2 = (c.receive n course).2.1 := by
  unfold receiveAll
  rcases c.receive n course with ⟨⟨bytes, _ | e⟩, c', course'⟩ <;> rfl

/-- With nothing written meanwhile, a drain is one behind nothing. -/
theorem Fitted.drained_calm (h : c.Fitted) :
    c.rewound.Drained c.buffer.length (c.drainDuring []).1 (c.drainDuring []).2.1
      (c.drainDuring []).2.2 := by
  obtain ⟨done, hnil, hd⟩ := h.drained []
  rw [(List.append_eq_nil_iff.1 hnil.symm).1] at hd
  exact hd

/-- What is unread behind a call stands behind what it has taken, and both are what was unread and
what the peer has written. -/
theorem Fitted.heard_perform (h : c.Fitted) (call : Call) :
    c.taken call ++ (c.perform call).unread =
      c.unread ++ c.socket.arrivals (c.conduct call) := by
  cases call with
  | sendAll bytes course =>
    rcases hd : c.desynced with _ | _
    · simp only [conduct, passed, hd]
      exact (heard_sendAll hd bytes course).bytes
    · simp only [conduct, passed, hd, perform, sendAll_of_desynced hd]
      exact (Heard.refl c).bytes
  | receiveDocument course =>
    rcases hd : c.desynced with _ | _
    · obtain ⟨looks, hcourse, -, hh⟩ := c.heard_recorded course
      simp only [conduct, passed, hd, taken, handed, Course.upTo_left hcourse, perform,
        receiveDocument_recorded hd]
      exact hh.bytes
    · simp only [conduct, passed, hd, taken, handed, perform, receiveDocument_of_desynced hd]
      exact (Heard.refl c).bytes
  | decodeDocument course =>
    obtain ⟨looks, hcourse, -, hh⟩ := c.heard_recorded course
    simp only [conduct, passed, taken, Course.upTo_left hcourse, perform, decodeDocument_recorded]
    exact hh.bytes
  | receiveAll n course =>
    obtain ⟨looks, hcourse, hh⟩ := c.heard_receive n course
    simp only [conduct, passed, taken, Course.upTo_left hcourse, perform, channel_receiveAll]
    exact hh.bytes
  | drainStale =>
    have hbytes : (c.drainDuring []).1.flatMap SocketRead.bytes = c.socket.incoming :=
      h.drained_calm.bytes
    simp only [taken, hbytes, perform, drainStale_spec, unread, data_new]
    rfl
  | discardBuffered =>
    simp only [taken, perform, discardBuffered, unread, data_new]
    exact (List.append_nil _).symm
  | shutdown => exact (Heard.refl c).bytes
  | raise raised => exact (Heard.refl c).bytes
  | peer action =>
    simp only [taken, perform, unread, after, conduct, Socket.arrivals, Socket.incoming_after,
      List.append_assoc, List.append_nil]
    rfl

theorem buffer_put (c : Channel) (hungUp : Bool) (bytes : Bytes) :
    (c.put hungUp bytes).2.2.buffer = c.buffer := by
  unfold put
  split
  · rfl
  · split <;> rfl

theorem buffer_send : ∀ (course : Course) (c : Channel) (bytes : Bytes),
    (c.send bytes course).2.2.buffer = c.buffer
  | [], c, bytes => by
    have hput := c.buffer_put c.socket.isHungUp bytes
    unfold send
    split
    · rfl
    · split <;> rename_i h <;> rw [h] at hput <;> exact hput
  | look :: course, c, bytes => by
    have hput := ((c.onLook look).buffer_put (c.hangsUp look) bytes).trans (c.buffer_onLook look)
    unfold send
    split
    · rfl
    · dsimp only
      split
      · exact c.buffer_onLook look
      · split <;> rename_i h <;> rw [h] at hput
        · exact hput
        · exact (buffer_send course _ _).trans hput

theorem buffer_sendAll (c : Channel) (bytes : Bytes) (course : Course) :
    (c.sendAll bytes course).2.buffer = c.buffer := by
  have hsend := buffer_send course c bytes
  unfold sendAll
  split
  · rfl
  · split <;> rename_i h <;> rw [h] at hsend <;> exact hsend

/-- What a call takes is what the buffer held and what its reads bring, less what the buffer holds
behind it. -/
theorem Fitted.drawn_perform (h : c.Fitted) (call : Call) :
    c.Drawn (c.reads call) (c.taken call) (c.perform call) := by
  cases call with
  | sendAll bytes course => exact h.drawn_of_buffer (c.buffer_sendAll bytes course)
  | receiveDocument course =>
    rcases hd : c.desynced with _ | _
    · simp only [reads, taken, handed, hd, perform, receiveDocument_recorded hd]
      exact (h.drawn_recorded course).of_buffers rfl rfl
    · simp only [reads, taken, handed, hd, perform, receiveDocument_of_desynced hd]
      exact h.drawn
  | decodeDocument course =>
    simp only [reads, taken, perform, decodeDocument_recorded]
    exact h.drawn_recorded course
  | receiveAll n course =>
    simp only [reads, taken, perform, channel_receiveAll]
    exact h.drawn_receive n course
  | drainStale =>
    have hnew : c.drainStale.2.buffer = .new := by rw [drainStale_spec]
    refine ⟨?_, h.drained_calm.rooms, fitted_of_new hnew⟩
    rw [perform, hnew, data_new]
    exact List.append_nil _
  | discardBuffered =>
    refine ⟨?_, fun _ h => absurd h List.not_mem_nil, fitted_of_new rfl⟩
    rw [perform, discardBuffered, data_new]
    rfl
  | shutdown => exact h.drawn_of_buffer rfl
  | raise raised => exact h.drawn_of_buffer rfl
  | peer action => exact h.drawn_of_buffer rfl

theorem Fitted.perform (h : c.Fitted) (call : Call) : (c.perform call).Fitted :=
  (h.drawn_perform call).fitted

/-- A discard drops all that the buffer holds and tells how much that is. -/
theorem Fitted.count_discardBuffered (h : c.Fitted) :
    c.discardBuffered.1 = (c.taken .discardBuffered).length :=
  h.sound.length_data.symm

/-- So does a drain that does not fail, of what the buffer holds and its reads bring. -/
theorem Fitted.count_drainStale (h : c.Fitted) {n : Nat} (hn : c.drainStale.1 = .ok n) :
    n = (c.taken .drainStale).length := by
  have hbytes : (c.drainDuring []).1.flatMap SocketRead.bytes = c.socket.incoming :=
    h.drained_calm.bytes
  rw [drainStale_spec] at hn
  dsimp only at hn
  split at hn
  · simp at hn
  · simp only [Except.ok.injEq, unreadLength] at hn
    rw [taken, hbytes, List.length_append, h.sound.length_data]
    exact hn.symm

/-! ## Runs -/

theorem Fitted.drawn_run : ∀ (calls : List Call) {c : Channel}, c.Fitted →
    c.Drawn (c.gather reads calls) (c.gather taken calls) (c.run calls)
  | [], _, h => h.drawn
  | call :: calls, _, h => (h.drawn_perform call).trans ((h.perform call).drawn_run calls)

/-- What is unread behind a run stands behind all that was taken during it. -/
theorem Fitted.conserved_run : ∀ (calls : List Call) {c : Channel}, c.Fitted →
    c.gather taken calls ++ (c.run calls).unread = c.unread ++ c.gather written calls
  | [], c, _ => (List.append_nil c.unread).symm
  | call :: calls, c, h => by
    have hrest := (h.perform call).conserved_run calls
    have hcall := h.heard_perform call
    rw [Socket.arrivals_eq] at hcall
    rw [gather, gather, List.append_assoc]
    show _ ++ ((c.perform call).gather taken calls ++ ((c.perform call).run calls).unread) = _
    rw [hrest, ← List.append_assoc, hcall, List.append_assoc]
    rfl

/-- The peer may act before each read of a drain. What is dropped, told and left then is what is
dropped, told and left by a drain that follows on what the peer has done by the last of them. -/
theorem Fitted.drainDuring_eq (h : c.Fitted) (meanwhile : List (List PeerAction)) :
    ∃ done left, meanwhile = done ++ left ∧
      (c.run (done.flatten.map .peer)).taken .drainStale =
        c.buffer.data ++ (c.drainDuring meanwhile).1.flatMap SocketRead.bytes ∧
      (c.run (done.flatten.map .peer)).drainStale =
        ((c.drainDuring meanwhile).2.1, { (c.drainDuring meanwhile).2.2 with buffer := .new }) ∧
      c.drain meanwhile = ((c.drainDuring meanwhile).2.1,
        { (c.drainDuring meanwhile).2.2 with buffer := .new }, left) ∧
      ∀ read ∈ (c.drainDuring meanwhile).1, read.room = Buffer.defaultCapacity := by
  obtain ⟨done, hdone, hd⟩ := h.drained meanwhile
  have hbehind := c.run_peer done.flatten
  have hbuffer : (done.flatten.foldl after c).buffer = c.buffer := buffer_foldl_after _ c
  have hdrained := (h.of_buffer hbuffer).drained_calm.bytes
  have hsocket : (done.flatten.foldl after c).rewound.socket =
      (done.flatten.foldl after c.rewound).socket := by
    rw [socket_foldl_after]
    exact socket_foldl_after _ c
  have hduring : c.duringDrain meanwhile = done.flatten := by
    have happ := congrArg List.flatten hdone
    rw [List.flatten_append, ← c.duringDrain_append meanwhile] at happ
    exact List.append_cancel_right happ
  refine ⟨done, (c.drain meanwhile).2.2, hdone, ?_, ?_, ?_, hd.rooms⟩
  · rw [hbehind, taken, hbuffer, hdrained, hd.bytes, hsocket]
  · rw [hbehind]
    exact hd.drainStale
  · rw [drain_eq, hduring, hd.drainStale]

/-- On every connection, whatever is called and whatever the peer does meanwhile, the bytes that it
has written are those that were taken, those in the buffer and those at the socket, in order. The
reads at the socket brought the first two of these; each had room for a full buffer, so one that
tells of no bytes has found the end of the stream. A call that hands out as many bytes as were
asked for has taken these, and one that tells how many it dropped tells how many it has taken. That
reads go into the storage of earlier ones makes no difference. If the peer acts during a drain, the
drain is as one behind what the peer has done by its last read. -/
theorem bytes_conserved (window : Option Nat) (calls : List Call) :
    let c := new (.connected window)
    let c' := c.run calls
    c.gather taken calls ++ c'.buffer.data ++ c'.socket.incoming = c.gather written calls ∧
    c.gather taken calls ++ c'.buffer.data = (c.gather reads calls).flatMap SocketRead.bytes ∧
    (∀ read ∈ c.gather reads calls, read.room = Buffer.defaultCapacity ∧ 0 < read.room ∧
      (read.outcome.count? = some 0 →
        read.socket.incoming = [] ∧ read.socket.isEnded = true)) ∧
    (∀ n course bytes, (c'.receiveAll n course).1 = .ok bytes →
      bytes = c'.taken (.receiveAll n course) ∧ bytes.length = n) ∧
    c'.discardBuffered.1 = (c'.taken .discardBuffered).length ∧
    (∀ n, c'.drainStale.1 = .ok n → n = (c'.taken .drainStale).length) ∧
    c'.IgnoresStorage ∧
    ∀ meanwhile, ∃ done left, meanwhile = done ++ left ∧
      (c'.run (done.flatten.map .peer)).taken .drainStale =
        c'.buffer.data ++ (c'.drainDuring meanwhile).1.flatMap SocketRead.bytes ∧
      (c'.run (done.flatten.map .peer)).drainStale =
        ((c'.drainDuring meanwhile).2.1, { (c'.drainDuring meanwhile).2.2 with buffer := .new }) ∧
      c'.drain meanwhile = ((c'.drainDuring meanwhile).2.1,
        { (c'.drainDuring meanwhile).2.2 with buffer := .new }, left) ∧
      ∀ read ∈ (c'.drainDuring meanwhile).1, read.room = Buffer.defaultCapacity := by
  intro c c'
  have hfitted : c.Fitted := fitted_new _
  have hrun := hfitted.drawn_run calls
  have hconserved := hfitted.conserved_run calls
  have hnone : c.buffer.data = [] := data_new
  have hunread : c.unread = [] := by
    rw [unread, hnone]
    rfl
  refine ⟨?_, ?_, fun read hread => ?_, fun n course bytes hok => ?_,
    hrun.fitted.count_discardBuffered, fun n => hrun.fitted.count_drainStale,
    hrun.fitted.ignoresStorage, hrun.fitted.drainDuring_eq⟩
  · rw [List.append_assoc, ← unread, hconserved, hunread, List.nil_append]
  · rw [hrun.bytes, hnone, List.nil_append]
  · have hroom := hrun.rooms read hread
    have hpos : 0 < read.room := by
      rw [hroom]
      decide
    exact ⟨hroom, hpos, SocketRead.ended_of_count hpos⟩
  · unfold receiveAll at hok
    rw [taken]
    rcases hr : c'.receive n course with ⟨⟨part, _ | e⟩, c'', course''⟩ <;> rw [hr] at hok
    · obtain rfl := Except.ok.inj hok
      exact ⟨rfl, length_of_receive hr⟩
    · simp at hok

/-- Of what came in at once any front can be handed out. -/
theorem receiveAll_fresh (c : Channel) (bytes : Bytes) (n : Nat) (hb : c.buffer.data = [])
    (hi : c.socket.incoming = bytes) (hle : bytes.length ≤ Buffer.defaultCapacity) (hpos : 0 < n)
    (hn : n ≤ bytes.length) : (c.receiveAll n []).1 = .ok (bytes.take n) := by
  have hne : c.socket.incoming ≠ [] := by
    rw [hi]
    exact List.length_pos_iff.1 (Nat.lt_of_lt_of_le hpos hn)
  have hpull : c.pull = (.bytes bytes, { c with
      socket := { c.socket with incoming := [] }, buffer := (Buffer.new.fill bytes).2 }) := by
    rw [pull, Socket.read, if_pos hne, hi, List.take_of_length_le hle, List.drop_of_length_le hle]
  have hrefill : c.refill [] = (none, c.pull.2, []) := by
    rw [refill, hpull]
    rfl
  have hdata : c.pull.2.buffer.data = bytes := by
    rw [hpull]
    exact Buffer.data_fill_new hle
  rw [receiveAll, receive_of_refill (by rw [hb]; exact hpos) hrefill, hb, List.length_nil,
    Nat.sub_zero, receive_of_le (by rw [hdata]; exact hn), hdata]
  rfl

/-- Of three bytes two are handed out, or all are dropped. A drain behind the end finds it. -/
theorem bytes_conserved_sample : ∃ (start : Channel) (read : SocketRead),
    (start.run [.peer (.write [1, 2, 3])]).taken (.receiveAll 2 []) = [1, 2] ∧
    ((start.run [.peer (.write [1, 2, 3])]).taken .drainStale).length = 3 ∧
    read ∈ start.gather reads [.peer .endWriting, .drainStale] ∧ read.outcome.count? = some 0 ∧
    read.socket.isEnded = true := by
  obtain ⟨-, -, -, hhanded, -, hdrain, -⟩ := bytes_conserved none [.peer (.write [1, 2, 3])]
  obtain ⟨-, -, hreads, -⟩ := bytes_conserved none [.peer .endWriting, .drainStale]
  have hsocket : (new (.connected none)).socket = .connected none := rfl
  have hnone : (new (.connected none)).buffer.data = [] := data_new
  have hsound : (new (.connected none)).buffer.Sound := Buffer.sound_new
  generalize new (.connected none) = start at hhanded hdrain hreads hsocket hnone hsound
  have hfull : (start.after (.write [1, 2, 3])).socket =
      { Socket.connected none with incoming := [1, 2, 3] } := by
    rw [after, hsocket]
    rfl
  have hall := receiveAll_fresh (start.after (.write [1, 2, 3])) [1, 2, 3] 2 hnone
    (by rw [hfull]) (by decide) (by decide) (by decide)
  have hdropped : (start.after (.write [1, 2, 3])).drainStale.1 = .ok 3 := by
    have hunread : (start.after (.write [1, 2, 3])).unreadLength = 3 := by
      rw [unreadLength, hfull]
      show start.buffer.length + 3 = 3
      rw [← hsound.length_data, hnone]
      rfl
    rw [drainStale_spec, hunread, hfull]
    rfl
  have hend : (start.after .endWriting).rewound.offer.outcome = .ended := by
    show ((start.after .endWriting).socket.read _).1 = _
    rw [after, hsocket]
    rfl
  have hread : (start.after .endWriting).rewound.offer ∈
      start.gather reads [.peer .endWriting, .drainStale] := by
    have hdrained : (start.after .endWriting).reads .drainStale =
        [(start.after .endWriting).rewound.offer] :=
      drainFrom_of_nothing (by rw [SocketRead.bytes, hend]; rfl) _
    show _ ∈ [] ++ ((start.after .endWriting).reads .drainStale ++ [])
    rw [hdrained]
    exact List.mem_singleton_self _
  have hcount := congrArg ReadOutcome.count? hend
  exact ⟨start, _, (hhanded 2 [] [1, 2] hall).1.symm, (hdrain 3 hdropped).symm,
    hread, hcount, ((hreads _ hread).2.2 hcount).2⟩

end Channel

end Treegram
