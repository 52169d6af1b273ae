import Treegram.Proofs.CalmCalls
import Treegram.Proofs.Drains
import Treegram.Session

/-!
# Requests that are answered

On a connection that is up, with a peer that reads all we send, a request whose answer is a message
gets the document the message holds, whatever stands behind it; and the connection is up for the
next one (`exchange_answered`). With a response element in it that is the reply (`ask_answered`).
-/

namespace Treegram

namespace Channel

/-- Whether the channel is in step and nobody has ended anything, and the peer sets no limit. -/
structure Up (c : Channel) : Prop where
  desynced : c.desynced = false
  window : c.socket.window = none
  peerClosed : c.socket.peerClosed = false
  peerEnded : c.socket.peerEnded = false
  peerDeaf : c.socket.peerDeaf = false
  shut : c.socket.shut = false
  broken : c.socket.broken = false

theorem up_new : (new (.connected none)).Up :=
  ⟨rfl, rfl, rfl, rfl, rfl, rfl, rfl⟩

section

variable {c : Channel} (h : c.Up)

include h

theorem Up.isEnded : c.socket.isEnded = false := by
  simp only [Socket.isEnded, h.peerClosed, h.peerEnded, h.shut, Bool.or_self]

theorem Up.isUnheard : c.socket.isUnheard = false := by
  simp only [Socket.isUnheard, h.peerClosed, h.peerDeaf, h.shut, Bool.or_self]

theorem Up.isHungUp : c.socket.isHungUp = false := by
  simp only [Socket.isHungUp, h.isEnded, Bool.false_and]

theorem Up.tapped {c' : Channel} (ht : c.Tapped c') (hd : c'.desynced = false) : c'.Up := by
  obtain ⟨incoming, hs⟩ := ht
  refine ⟨hd, ?_, ?_, ?_, ?_, ?_, ?_⟩ <;> rw [hs]
  · exact h.window
  · exact h.peerClosed
  · exact h.peerEnded
  · exact h.peerDeaf
  · exact h.shut
  · exact h.broken

theorem Up.drainStale : ∃ n c', c.drainStale = (.ok n, c') ∧ c'.Up ∧ c'.unread = [] := by
  rw [c.drainStale_spec, h.broken]
  refine ⟨_, _, rfl, ⟨h.desynced, h.window, h.peerClosed, h.peerEnded, h.peerDeaf, h.shut, rfl⟩, ?_⟩
  simp only [unread, data_new, List.append_nil]

theorem Up.sendAll (bytes : Bytes) :
    ∃ c', c.sendAll bytes [] = (.ok (), c') ∧ c'.Up ∧ c'.unread = c.unread := by
  have hput : c.put false bytes = (bytes.length, none,
      { c with socket := { c.socket with outgoing := c.socket.outgoing ++ bytes } }) := by
    simp only [put, Socket.write, h.isUnheard, h.window]
    rfl
  unfold Channel.sendAll
  rw [if_neg (by simp [h.desynced]), send, h.isHungUp, hput]
  by_cases hb : bytes = []
  · rw [if_pos hb]
    exact ⟨c, rfl, h, rfl⟩
  · rw [if_neg hb]
    simp only [Nat.lt_irrefl, if_false]
    exact ⟨_, rfl,
      ⟨h.desynced, h.window, h.peerClosed, h.peerEnded, h.peerDeaf, h.shut, h.broken⟩, rfl⟩

theorem Up.after_write (bytes : Bytes) :
    (c.after (.write bytes)).Up ∧ (c.after (.write bytes)).unread = c.unread ++ bytes := by
  have hw : c.after (.write bytes) =
      { c with socket := { c.socket with incoming := c.socket.incoming ++ bytes } } := by
    simp only [after, Socket.after, h.isEnded]
    rfl
  rw [hw]
  refine ⟨h.tapped ⟨_, rfl⟩ h.desynced, ?_⟩
  simp only [unread, List.append_assoc]

/-- Where a message is cut off, the wait for the rest of it runs out of time. -/
theorem Up.receiveDocument_cut {more : Bytes} {t : Tree Label} (hmore : more ≠ [])
    (ha : Wire.decodeDocument (c.unread ++ more) = (.ok t, [])) :
    ∃ c', c.receiveDocument [] = (.error .timeout, c') ∧
      (c'.desynced = true ↔ c.unread ≠ []) := by
  have hcut : Wire.decodeDocument (c.visible false) =
      (.error (.malformed .truncated), (Wire.decodeDocument c.unread).2) :=
    Prod.ext (Wire.decodeDocument_cut ha hmore) rfl
  obtain ⟨c', hc', hd⟩ := (calm_nil c).receiveDocument_of_error h.desynced hcut
  have hshort : c.shortage false [] = .timeout := by
    simp only [shortage, h.broken, h.isEnded]
    rfl
  rw [if_pos rfl, hshort] at hc'
  exact ⟨c', hc', hd⟩

end

end Channel

namespace Session

section

variable {s : Session} {r : Request} {bytes : Bytes} {o : Occasion} (hb : r.encode = .ok bytes)

include hb

theorem send_bypass : s.send r .bypass o = s.ask bytes .bypass o := by
  unfold send
  rw [hb]

theorem send_of_lookup_none {cache : Cache} (h : s.cache.lookup bytes o.asked = (none, cache)) :
    s.send r .cached o = { s with cache }.ask bytes .cached o := by
  unfold send
  simp only [hb, h]

theorem send_of_lookup_some {cache : Cache} {reply : Reply}
    (h : s.cache.lookup bytes o.asked = (some reply, cache)) :
    s.send r .cached o = (.ok reply, { s with cache }.note reply) := by
  unfold send
  simp only [hb, h]

end

/-- An exchange goes on behind a drain at once of what is stale by its last read. -/
theorem exchange_eq (c : Channel) (bytes : Bytes) (peer : Conduct) : exchange c bytes peer =
    match ((c.duringDrain peer.draining).foldl Channel.after c).drainStale with
    | (.error e, c) => (.error e, c)
    | (.ok _, c₁) =>
      match ((c.afterDrain peer.draining).foldl Channel.after c₁).sendAll bytes peer.sending with
      | (.error e, c) => (.error e, c)
      | (.ok _, c) => (peer.answer.foldl Channel.after c).receiveDocument peer.receiving := by
  unfold exchange Channel.afterDrain
  rw [c.drain_eq]
  rcases ((c.duringDrain peer.draining).foldl Channel.after c).drainStale with ⟨e | n, c₁⟩ <;> rfl

/-- What is around before a request is dropped, and a message is read from what the peer writes. -/
theorem exchange_written {c : Channel} (h : c.Up) (bytes answer : Bytes) :
    ∃ c' : Channel, c'.Up ∧ c'.unread = answer ∧
      exchange c bytes [PeerAction.write answer] = c'.receiveDocument [] := by
  obtain ⟨n, c₁, hdrain, h₁, hun₁⟩ := h.drainStale
  obtain ⟨c₂, hsend, h₂, hun₂⟩ := h₁.sendAll bytes
  obtain ⟨h₃, hun₃⟩ := h₂.after_write answer
  refine ⟨c₂.after (.write answer), h₃, by rw [hun₃, hun₂, hun₁, List.nil_append], ?_⟩
  rw [exchange_eq]
  simp only [Channel.duringDrain_nil, Channel.afterDrain_nil, List.foldl_nil, hdrain, hsend]
  rfl

/-- The document in the answer to a request is read. -/
theorem exchange_answered {c : Channel} (h : c.Up) (bytes : Bytes) {answer rest : Bytes}
    {t : Tree Label} (ha : Wire.decodeDocument answer = (.ok t, rest)) :
    ∃ c', exchange c bytes [PeerAction.write answer] = (.ok t, c') ∧ c'.Up := by
  obtain ⟨c₁, h₁, hun, hx⟩ := exchange_written h bytes answer
  rw [← hun] at ha
  obtain ⟨c', hc', -, hd, ht, -⟩ := (Channel.calm_nil c₁).receiveDocument_of_ok h₁.desynced ha
  exact ⟨c', hx.trans hc', h₁.tapped ht hd⟩

/-- A request whose answer is cut off leaves the channel out of step. -/
theorem exchange_cut {c : Channel} (h : c.Up) (bytes : Bytes) {answer more : Bytes}
    {t : Tree Label} (hne : answer ≠ []) (hmore : more ≠ [])
    (ha : Wire.decodeDocument (answer ++ more) = (.ok t, [])) :
    ∃ c', exchange c bytes [PeerAction.write answer] = (.error .timeout, c') ∧
      c'.desynced = true := by
  obtain ⟨c₁, h₁, hun, hx⟩ := exchange_written h bytes answer
  rw [← hun] at ha hne
  obtain ⟨c', hc', hd⟩ := h₁.receiveDocument_cut hmore ha
  exact ⟨c', hx.trans hc', hd.2 hne⟩

/-- A document with a response in it is the reply. -/
theorem ask_of_exchange {s : Session} {bytes : Bytes} {o : Occasion} {channel : Channel}
    {t : Tree Label} {reply : Reply} (mode : CacheMode)
    (hx : exchange s.channel bytes (s.waits o) = (.ok t, channel))
    (hr : Reply.ofDocument t (s.replies + 1) = .ok reply) :
    ∃ s', s.ask bytes mode o = (.ok reply, s') ∧ s'.channel = channel ∧
      s'.replies = s.replies + 1 ∧ s'.timeout = s.timeout ∧
      s'.cache = match mode with
        | .cached => (s.cache.insert bytes reply o.answered).2
        | .bypass => s.cache := by
  unfold ask
  rw [hx]
  simp only [hr]
  refine ⟨_, rfl, ?_⟩
  simp only [note_channel, note_timeout, note_cache, note_replies]
  cases mode <;> exact ⟨rfl, rfl, rfl, rfl⟩

/-- A request that goes to the peer is answered by the reply in the document it sends. -/
theorem ask_answered {s : Session} (bytes : Bytes) (mode : CacheMode) {answer rest : Bytes}
    {t : Tree Label} {reply : Reply} {asked : Instant} (answered : Instant) (h : s.channel.Up)
    (he : s.isExpired asked = false) (ha : Wire.decodeDocument answer = (.ok t, rest))
    (hr : Reply.ofDocument t (s.replies + 1) = .ok reply) :
    ∃ s', s.ask bytes mode ⟨asked, answered, [PeerAction.write answer]⟩ = (.ok reply, s') ∧
      s'.channel.Up ∧ s'.replies = s.replies + 1 ∧ s'.timeout = s.timeout ∧
      s'.cache = match mode with
        | .cached => (s.cache.insert bytes reply answered).2
        | .bypass => s.cache := by
  obtain ⟨channel, hx, hup⟩ := exchange_answered h bytes ha
  have hw : s.waits ⟨asked, answered, [PeerAction.write answer]⟩ = [PeerAction.write answer] :=
    waits_of_isExpired he
  rw [← hw] at hx
  obtain ⟨s', hask, hchannel, hrest⟩ := ask_of_exchange mode hx hr
  exact ⟨s', hask, hchannel ▸ hup, hrest⟩

end Session

end Treegram
