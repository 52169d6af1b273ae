import Treegram.Channel
import Treegram.Proofs.AnySource

/-!
# Listening is silent

To receive is to look at what the peer has done, to read at the socket and to move bytes through the
buffer; what these keep lasts through any call that receives (`Steady`). So whatever the peer does
and whatever is received, we send nothing by it and the guard of the channel stays as it is
(`silent_receive`). Reading a message is no different, and the bytes that were handed out for it
stay counted (`quiet_decodeDocument`).
-/

namespace Treegram

namespace Socket

theorem sent_after (s : Socket) (action : PeerAction) : (s.after action).sent = s.sent := by
  rcases action with bytes | _ | _ | _ | _
  · simp only [after]
    split <;> rfl
  · simp only [after]
    split
    · rfl
    · simp only [sent, List.append_nil]
  · rfl
  · rfl
  · simp only [after]
    split <;> rfl

theorem sent_read (s : Socket) (n : Nat) : (s.read n).2.sent = s.sent := by
  unfold read
  split
  · rfl
  · split
    · rfl
    · split <;> rfl

/-- What a read finds where there are no bytes. -/
theorem read_of_nothing {s : Socket} (h : s.incoming = []) (n : Nat) :
    s.read n = if s.broken then (.broken, { s with broken := false })
      else (if s.isEnded then .ended else .blocked, s) := by
  rw [read, if_neg (not_not.2 h)]
  split
  · rfl
  · split <;> rfl

end Socket

namespace Channel

/-- Whether `c'` has sent what `c` has, and has its guard. -/
structure Silent (c c' : Channel) : Prop where
  sent : c'.socket.sent = c.socket.sent
  desynced : c'.desynced = c.desynced

theorem Silent.refl (c : Channel) : c.Silent c :=
  ⟨rfl, rfl⟩

theorem Silent.trans {c c' c'' : Channel} (h : c.Silent c') (h' : c'.Silent c'') : c.Silent c'' :=
  ⟨h'.sent.trans h.sent, h'.desynced.trans h.desynced⟩

/-! ## What receiving keeps -/

/-- Whether `P` lasts when the peer acts and when bytes are read at the socket, and does not depend
on what is in the buffer and on how waits are to end. -/
structure Steady (P : Channel → Prop) : Prop where
  after : ∀ {c}, P c → ∀ action, P (c.after action)
  read : ∀ {c}, P c → ∀ n, P { c with socket := (c.socket.read n).2 }
  rest : ∀ {c}, P c → ∀ buffer raised, P { c with buffer, raised }

theorem pull_eq (c : Channel) : c.pull.2 = { c with
    socket := (c.socket.read Buffer.defaultCapacity).2
    buffer := c.pull.2.buffer } := by
  unfold pull
  rcases c.socket.read Buffer.defaultCapacity with ⟨_ | _ | _ | _, socket⟩ <;> rfl

namespace Steady

variable {P : Channel → Prop} (hP : Steady P)

include hP

theorem foldl_after : ∀ (actions : List PeerAction) {c : Channel}, P c →
    P (actions.foldl Channel.after c)
  | [], _, h => h
  | action :: actions, _, h => foldl_after actions (hP.after h action)

theorem onLook {c : Channel} (h : P c) (look : Look) : P (c.onLook look) :=
  hP.rest (hP.foldl_after look.peer h) _ _

theorem pull {c : Channel} (h : P c) : P c.pull.2 := by
  rw [pull_eq]
  exact hP.rest (hP.read h _) _ _

theorem refill : ∀ (course : Course) {c : Channel}, P c → P (c.refill course).2.1
  | [], _, h => hP.pull h
  | look :: course, _, h => by
    have hlook := hP.onLook h look
    simp only [Channel.refill]
    split
    · exact hP.rest hlook _ _
    · split
      · exact refill course (hP.pull hlook)
      · exact hP.pull hlook

theorem receive {c : Channel} (h : P c) (n : Nat) (course : Course) :
    P (c.receive n course).2.1 := by
  have hrefill := hP.refill course h
  rw [Channel.receive]
  generalize c.buffer.consume n = front
  obtain ⟨bytes, buffer⟩ := front
  dsimp only
  split
  · exact hP.rest h _ _
  · split <;> rename_i c' course' hr <;> rw [hr] at hrefill
    · exact hrefill
    · have := prospect_refill_lt course hr
      exact receive hrefill _ course'
termination_by c.prospect course

theorem kept : Wire.Kept fun r r' : Reader => P r.channel → P r'.channel where
  refl _ h := h
  trans h h' hr := h' (h hr)
  take n r := by
    intro h
    have hrest := hP.receive h n r.course
    simp only [ByteSource.take]
    split <;> rename_i hr <;> rw [hr] at hrest <;> exact hrest

theorem decodeDocument {r : Reader} (h : P r.channel) : P (Wire.decodeDocument r).2.channel :=
  hP.kept.decodeDocument (hP.kept.take 1 r) h

end Steady

theorem steady_silent (c : Channel) : Steady c.Silent where
  after h action := h.trans ⟨Socket.sent_after _ action, rfl⟩
  read h n := h.trans ⟨Socket.sent_read _ n, rfl⟩
  rest h _ _ := ⟨h.sent, h.desynced⟩

theorem silent_after (c : Channel) (action : PeerAction) : c.Silent (c.after action) :=
  c.steady_silent.after (.refl c) action

theorem silent_onLook (c : Channel) (look : Look) : c.Silent (c.onLook look) :=
  c.steady_silent.onLook (.refl c) look

theorem silent_receive (c : Channel) (n : Nat) (course : Course) :
    c.Silent (c.receive n course).2.1 :=
  c.steady_silent.receive (.refl c) n course

theorem silent_receiveAll (c : Channel) (n : Nat) (course : Course) :
    c.Silent (c.receiveAll n course).2 := by
  have h := c.silent_receive n course
  unfold receiveAll
  split <;> rename_i hr <;> rw [hr] at h <;> exact h

/-- A drain drops all there is, and a pending reset of the connection, which it reports. -/
theorem drainStale_spec (c : Channel) :
    c.drainStale = (if c.socket.broken then .error .reset else .ok c.unreadLength,
      { c with buffer := .new, socket := { c.socket with incoming := [], broken := false } }) := by
  unfold drainStale
  dsimp only
  rw [Socket.read_of_nothing rfl]
  rcases c.socket.broken with _ | _
  · generalize Socket.isEnded _ = ended
    cases ended <;> rfl
  · rfl

theorem silent_drainStale (c : Channel) : c.Silent c.drainStale.2 := by
  rw [c.drainStale_spec]
  exact ⟨rfl, rfl⟩

/-! ## Messages -/

/-- Whether a message was read on from `r` to `r'`. -/
structure Reader.Quiet (r r' : Reader) : Prop where
  silent : r.channel.Silent r'.channel
  taken : r.taken ≤ r'.taken

theorem kept_quiet : Wire.Kept Reader.Quiet where
  refl r := ⟨.refl _, Nat.le_refl _⟩
  trans h h' := ⟨h.silent.trans h'.silent, Nat.le_trans h.taken h'.taken⟩
  take n r := by
    have h := r.channel.silent_receive n r.course
    unfold Wire.Keeps
    simp only [ByteSource.take]
    split <;> rename_i hr <;> rw [hr] at h <;> exact ⟨h, Nat.le_add_right _ _⟩

theorem quiet_decodeDocument (r : Reader) : r.Quiet (Wire.decodeDocument r).2 :=
  kept_quiet.decodeDocument (kept_quiet.take 1 r)

theorem sent_receiveDocument (c : Channel) (course : Course) :
    (c.receiveDocument course).2.socket.sent = c.socket.sent := by
  have h := quiet_decodeDocument ⟨c, course, 0⟩
  unfold receiveDocument
  split
  · rfl
  · split <;> rename_i hr <;> rw [hr] at h <;> exact h.silent.sent

theorem silent_decodeDocument (c : Channel) (course : Course) :
    c.Silent (c.decodeDocument course).2 :=
  (quiet_decodeDocument ⟨c, course, 0⟩).silent

end Channel

end Treegram
