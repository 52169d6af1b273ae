import Treegram.Proofs.Arrivals

/-!
# Drains

The peer may act before each read of a drain, and the reads go on as long as they bring bytes. So a
drain is one at once behind what the peer has done by its last read (`drain_spec`), and that is the
more, the more there is to be dropped. What the peer has not come to by then it does later. Given
enough turns to let pass, it does all in front of such a drain that it is to do by then
(`drain_padded`).
-/

namespace Treegram

namespace Channel

variable {c c' : Channel}

/-! ## Nothing to be read -/

/-- With nothing to be read. -/
def emptied (c : Channel) : Channel :=
  { c with buffer := .new, socket := { c.socket with incoming := [] } }

/-- What the peer does is the same with nothing to be read. -/
theorem emptied_after (c : Channel) (action : PeerAction) :
    (c.emptied.after action).emptied = (c.after action).emptied := by
  simp only [emptied, after, Socket.after_incoming]

theorem emptied_foldl_after : ∀ (actions : List PeerAction) {c c' : Channel},
    c'.emptied = c.emptied → (actions.foldl after c').emptied = (actions.foldl after c).emptied
  | [], _, _, h => h
  | action :: actions, c, c', h => by
    refine emptied_foldl_after actions ?_
    rw [← emptied_after, h, emptied_after]

/-- Of what is dropped at once nothing is left but its number. -/
theorem drainStale_of_emptied (h : c'.emptied = c.emptied) :
    c'.drainStale = (c.drainStale.1.map fun _ => c'.unreadLength, c.drainStale.2) := by
  have hbroken : c'.socket.broken = c.socket.broken := by
    show c'.emptied.socket.broken = c.emptied.socket.broken
    rw [h]
  have hchannel (c : Channel) : c.drainStale.2 =
      { c.emptied with socket := { c.emptied.socket with broken := false } } := by
    rw [drainStale_spec]
    rfl
  refine Prod.ext ?_ (by rw [hchannel, hchannel, h])
  rw [drainStale_spec, drainStale_spec, hbroken]
  cases c.socket.broken <;> rfl

theorem unreadLength_foldl_after (actions : List PeerAction) (c : Channel) :
    (actions.foldl after c).unreadLength =
      c.unreadLength + (c.socket.arrivals actions).length := by
  rw [unreadLength, buffer_foldl_after, socket_foldl_after, Socket.incoming_foldl_after,
    List.length_append, ← Nat.add_assoc]
  rfl

/-! ## Read by read -/

/-- A read that finds nothing ends the drain. -/
theorem drain_of_nothing {actions : List PeerAction}
    (h : (actions.foldl after c).socket.incoming = []) (meanwhile : List (List PeerAction)) :
    c.drain (actions :: meanwhile) = ((actions.foldl after c).drainStale.1,
      (actions.foldl after c).drainStale.2, meanwhile) := by
  unfold drain drainStale
  generalize actions.foldl after c = acted at h ⊢
  have hsocket : { acted.socket with incoming := [] } = acted.socket := by
    rw [← h]
  have hlength : acted.unreadLength = acted.buffer.length := by
    rw [unreadLength, h]
    rfl
  simp only [discardBuffered, hsocket, hlength]
  rcases hr : acted.socket.read Buffer.defaultCapacity with ⟨_ | _ | _ | _, socket⟩
  · exact absurd h (Socket.read_eq_bytes hr).2.1
  all_goals rfl

/-- Behind a read that finds bytes they are gone. -/
def afterRead (c : Channel) : Channel :=
  { c with
    buffer := .new
    socket := { c.socket with incoming := c.socket.incoming.drop Buffer.defaultCapacity } }

theorem drain_of_bytes (actions : List PeerAction)
    (h : (actions.foldl after c).socket.incoming ≠ []) (meanwhile : List (List PeerAction)) :
    ∃ n, (actions.foldl after c).unreadLength =
        n + (actions.foldl after c).afterRead.unreadLength ∧
      c.drain (actions :: meanwhile) =
        (((actions.foldl after c).afterRead.drain meanwhile).1.map (n + ·),
          ((actions.foldl after c).afterRead.drain meanwhile).2) := by
  rw [drain]
  generalize actions.foldl after c = acted at h ⊢
  have hread : acted.socket.read Buffer.defaultCapacity =
      (.bytes (acted.socket.incoming.take Buffer.defaultCapacity), acted.afterRead.socket) := by
    rw [Socket.read, if_pos h]
    rfl
  refine ⟨acted.buffer.length + (acted.socket.incoming.take Buffer.defaultCapacity).length, ?_, ?_⟩
  · have hnew : Buffer.new.length = 0 := rfl
    simp only [unreadLength, afterRead, hnew, List.length_take, List.length_drop]
    omega
  · simp only [discardBuffered, hread]
    rfl

/-- What the buffer holds is dropped at once, so only its length counts. -/
theorem drain_setBuffer (c : Channel) (buffer : Buffer) (meanwhile : List (List PeerAction)) :
    ({ c with buffer }.drain meanwhile).2 = (c.drain meanwhile).2 := by
  cases meanwhile with
  | nil =>
    rw [drain, drain, drainStale_spec, drainStale_spec]
  | cons actions meanwhile =>
    rw [drain, drain, foldl_after_eq, foldl_after_eq actions c]
    simp only [discardBuffered]
    rcases (actions.foldl Socket.after c.socket).read Buffer.defaultCapacity with
      ⟨_ | _ | _ | _, socket⟩ <;> rfl

/-- Whatever the peer does between the reads of a drain, the drain is as one at once behind what it
has done by the last of them. -/
theorem drain_spec : ∀ (meanwhile : List (List PeerAction)) (c : Channel),
    ∃ done left, meanwhile = done ++ left ∧ c.drain meanwhile =
      ((done.flatten.foldl after c).drainStale.1, (done.flatten.foldl after c).drainStale.2, left)
  | [], c => ⟨[], [], rfl, rfl⟩
  | actions :: meanwhile, c => by
    by_cases hnone : (actions.foldl after c).socket.incoming = []
    · refine ⟨[actions], meanwhile, rfl, ?_⟩
      rw [drain_of_nothing hnone, List.flatten_singleton]
    · obtain ⟨n, hn, hc⟩ := drain_of_bytes actions hnone meanwhile
      obtain ⟨done, left, hmeanwhile, hd⟩ := drain_spec meanwhile (actions.foldl after c).afterRead
      refine ⟨actions :: done, left, by rw [hmeanwhile]; rfl, ?_⟩
      rw [hc, hd, List.flatten_cons, List.foldl_append]
      generalize actions.foldl after c = acted at hn
      have hsame : (done.flatten.foldl after acted.afterRead).emptied =
          (done.flatten.foldl after acted).emptied := emptied_foldl_after _ rfl
      have harrivals : acted.afterRead.socket.arrivals done.flatten =
          acted.socket.arrivals done.flatten := Socket.arrivals_congr _ rfl
      have hlength : n + (done.flatten.foldl after acted.afterRead).unreadLength =
          (done.flatten.foldl after acted).unreadLength := by
        rw [unreadLength_foldl_after, unreadLength_foldl_after, harrivals, hn, Nat.add_assoc]
      rw [drainStale_of_emptied hsame, drainStale_spec]
      simp only [← hlength]
      split <;> rfl

/-! ## What the peer comes to -/

/-- What the peer has done by the last read of a drain. -/
def duringDrain (c : Channel) (meanwhile : List (List PeerAction)) : List PeerAction :=
  (meanwhile.take (meanwhile.length - (c.drain meanwhile).2.2.length)).flatten

/-- What it has not come to by then. -/
def afterDrain (c : Channel) (meanwhile : List (List PeerAction)) : List PeerAction :=
  (c.drain meanwhile).2.2.flatten

@[simp] theorem duringDrain_nil (c : Channel) : c.duringDrain [] = [] :=
  rfl

@[simp] theorem afterDrain_nil (c : Channel) : c.afterDrain [] = [] :=
  rfl

theorem drain_eq (c : Channel) (meanwhile : List (List PeerAction)) : c.drain meanwhile =
    (((c.duringDrain meanwhile).foldl after c).drainStale.1,
      ((c.duringDrain meanwhile).foldl after c).drainStale.2, (c.drain meanwhile).2.2) := by
  obtain ⟨done, left, rfl, hd⟩ := drain_spec meanwhile c
  rw [duringDrain, hd, List.length_append, Nat.add_sub_cancel, List.take_left]

/-- The peer does all it is to do, in order. -/
theorem duringDrain_append (c : Channel) (meanwhile : List (List PeerAction)) :
    c.duringDrain meanwhile ++ c.afterDrain meanwhile = meanwhile.flatten := by
  obtain ⟨done, left, rfl, hd⟩ := drain_spec meanwhile c
  rw [duringDrain, afterDrain, hd, List.length_append, Nat.add_sub_cancel, List.take_left,
    List.flatten_append]

/-- A peer that does nothing leaves nothing for later. -/
theorem afterDrain_of_silent {meanwhile : List (List PeerAction)} (h : meanwhile.flatten = [])
    (c : Channel) : c.afterDrain meanwhile = [] :=
  (List.append_eq_nil_iff.1 ((c.duringDrain_append meanwhile).trans h)).2

/-- Whether the connection is broken by the last read of a drain. -/
def breaksDuring (c : Channel) (meanwhile : List (List PeerAction)) : Bool :=
  ((c.duringDrain meanwhile).foldl after c).socket.broken

@[simp] theorem breaksDuring_nil (c : Channel) : c.breaksDuring [] = c.socket.broken :=
  rfl

/-- A drain fails if and only if the connection is broken. Behind it the buffer is as new and no
reset is pending. -/
theorem drain_cases (c : Channel) (meanwhile : List (List PeerAction)) :
    ∃ result drained left, c.drain meanwhile = (result, drained, left) ∧
      result = (if c.breaksDuring meanwhile then .error .reset
        else .ok ((c.duringDrain meanwhile).foldl after c).unreadLength) ∧
      drained.buffer = .new ∧ drained.socket.broken = false ∧ drained.desynced = c.desynced := by
  refine ⟨_, _, _, c.drain_eq meanwhile, ?_⟩
  rw [drainStale_spec, foldl_after_eq]
  refine ⟨?_, rfl, rfl, rfl⟩
  rw [breaksDuring, foldl_after_eq]

/-- Only a peer that closes breaks the connection. -/
theorem broken_foldl_after : ∀ (actions : List PeerAction) {c : Channel}, .close ∉ actions →
    (actions.foldl after c).socket.broken = c.socket.broken
  | [], _, _ => rfl
  | action :: actions, c, h => by
    rw [List.mem_cons, not_or] at h
    obtain ⟨hne, hrest⟩ := h
    rw [List.foldl_cons, broken_foldl_after actions hrest]
    rcases action with bytes | _ | _ | _ | _ <;> simp only [after, Socket.after]
    · split <;> rfl
    · split <;> rfl
    · exact absurd rfl hne

/-- A drain lets turns pass until nothing is to be read. -/
theorem drain_padded (left : List (List PeerAction)) : ∀ (k : Nat) (c : Channel)
    (actions : List PeerAction), (actions.foldl after c).socket.incoming.length ≤ k →
      ∃ j, (c.drain (actions :: (.replicate k [] ++ left))).2.2 = .replicate j [] ++ left := by
  intro k
  induction k with
  | zero =>
    intro c actions h
    exact ⟨0, by rw [drain_of_nothing (List.length_eq_zero_iff.1 (Nat.le_zero.1 h))]⟩
  | succ k ih =>
    intro c actions h
    by_cases hnone : (actions.foldl after c).socket.incoming = []
    · exact ⟨k + 1, by rw [drain_of_nothing hnone]⟩
    · obtain ⟨n, -, hc⟩ := drain_of_bytes actions hnone (.replicate (k + 1) [] ++ left)
      have hpos := List.length_pos_iff.2 hnone
      rw [hc]
      refine ih (actions.foldl after c).afterRead [] ?_
      simp only [List.foldl_nil, afterRead, List.length_drop, Buffer.defaultCapacity]
      omega

end Channel

end Treegram
