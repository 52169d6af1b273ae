import Treegram.Proofs.BuiltRequests
import Treegram.Proofs.ChannelRuns
import Treegram.Proofs.Drains
import Treegram.Proofs.SessionRuns

/-!
# What the peer reads of a run

A session acts on its channel by calls (`run_allCalls`), and of these only those that send a
request send anything. So the peer reads the requests that were sent, one after the other, and
behind them at most the start of one that was cut off (`sent_framed`).
-/

namespace Treegram

namespace Session

open Channel (Call)

/-! ## The calls of a session -/

/-- The calls made to have a request answered. -/
def exchangeCalls (c : Channel) (bytes : Bytes) (peer : Conduct) : List Call :=
  (c.duringDrain peer.draining).map .peer ++ .drainStale ::
    match c.drain peer.draining with
    | (.error _, _) => []
    | (.ok _, c, left) =>
      left.flatten.map .peer ++ .sendAll bytes peer.sending ::
        match ((left.flatten.foldl Channel.after c).sendAll bytes peer.sending).1 with
        | .error _ => []
        | .ok _ => peer.answer.map .peer ++ [.receiveDocument peer.receiving]

def calls (s : Session) : Action → List Call
  | .send r mode o =>
    match r.encode with
    | .error _ => []
    | .ok bytes =>
      if s.hits mode bytes o.asked then [] else exchangeCalls s.channel bytes (s.waits o)
  | .raise raised => [.raise raised]
  | .peer action => [.peer action]
  | _ => []

/-- Whether the bytes of a request all go out. -/
def goesOut (c : Channel) (bytes : Bytes) (peer : Conduct) : Bool :=
  match c.drain peer.draining with
  | (.error _, _) => false
  | (.ok _, c, left) => ((left.flatten.foldl Channel.after c).sendAll bytes peer.sending).1.isOk

/-- The request that is sent, if all of it goes out. -/
def sent? (s : Session) : Action → Option Request
  | .send r mode o =>
    match r.encode with
    | .error _ => none
    | .ok bytes =>
      if s.hits mode bytes o.asked then none
      else if goesOut s.channel bytes (s.waits o) then some r
      else none
  | _ => none

def run (s : Session) (actions : List Action) : Session :=
  actions.foldl (fun s a => (s.perform a).2) s

def allCalls (s : Session) : List Action → List Call
  | [] => []
  | a :: actions => s.calls a ++ (s.perform a).2.allCalls actions

/-- The requests that were sent, in order. -/
def requests (s : Session) : List Action → List Request
  | [] => []
  | a :: actions => (s.sent? a).toList ++ (s.perform a).2.requests actions

/-- A drain during which the peer acts is one behind what it does by the last read. -/
theorem run_drain (c : Channel) (meanwhile : List (List PeerAction)) :
    c.run ((c.duringDrain meanwhile).map .peer ++ [.drainStale]) = (c.drain meanwhile).2.1 ∧
      c.deliveries ((c.duringDrain meanwhile).map .peer ++ [.drainStale]) = [] := by
  rw [Channel.run_append, Channel.run_peer, Channel.deliveries_append, Channel.deliveries_peer,
    c.drain_eq]
  exact ⟨rfl, rfl⟩

theorem run_exchange (c : Channel) (bytes : Bytes) (peer : Conduct) :
    (exchange c bytes peer).2 = c.run (exchangeCalls c bytes peer) := by
  unfold exchange exchangeCalls
  rw [List.append_cons, Channel.run_append, (run_drain c _).1]
  rcases c.drain peer.draining with ⟨e | n, c₁, left⟩
  · rfl
  · dsimp only
    rw [Channel.run_append, Channel.run_peer]
    rcases hs : (left.flatten.foldl Channel.after c₁).sendAll bytes peer.sending with ⟨e | u, c₂⟩
    · simp only [Channel.run, List.foldl_cons, List.foldl_nil, Channel.perform, hs]
    · simp only [Channel.run, List.foldl_cons, List.foldl_nil, List.foldl_append, List.foldl_map,
        Channel.perform, hs]

theorem channel_ask (s : Session) (bytes : Bytes) (mode : CacheMode) (o : Occasion) :
    (s.ask bytes mode o).2.channel = (exchange s.channel bytes (s.waits o)).2 := by
  unfold ask
  rcases exchange s.channel bytes (s.waits o) with ⟨e | document, channel⟩
  · rfl
  · dsimp only
    split
    · rfl
    · rw [note_channel]
      cases mode <;> rfl

theorem channel_send {s : Session} {r : Request} {bytes : Bytes} (hb : r.encode = .ok bytes)
    (mode : CacheMode) (o : Occasion) :
    (s.send r mode o).2.channel = if s.hits mode bytes o.asked then s.channel
      else (exchange s.channel bytes (s.waits o)).2 := by
  unfold hits
  cases mode with
  | bypass =>
    rw [send_bypass hb, channel_ask]
    rfl
  | cached =>
    rcases hl : s.cache.lookup bytes o.asked with ⟨_ | reply, cache⟩
    · rw [send_of_lookup_none hb hl, channel_ask]
      rfl
    · rw [send_of_lookup_some hb hl, note_channel]
      rfl

/-- An action does to the channel what its calls do. -/
theorem run_calls (s : Session) (a : Action) :
    (s.perform a).2.channel = s.channel.run (s.calls a) := by
  cases a with
  | send r mode o =>
    unfold perform calls
    rcases hb : r.encode with e | bytes
    · simp only [send, hb]
      rfl
    · dsimp only
      rw [channel_send hb]
      simp only [hb]
      split
      · rfl
      · exact run_exchange ..
  | _ => rfl

theorem run_allCalls : ∀ (actions : List Action) (s : Session),
    (s.run actions).channel = s.channel.run (s.allCalls actions)
  | [], s => rfl
  | a :: actions, s => by
    have h := run_allCalls actions (s.perform a).2
    rw [run_calls] at h
    rw [allCalls, Channel.run_append, ← h]
    rfl

/-! ## What the calls deliver -/

theorem mem_exchangeCalls {c : Channel} {bytes bytes' : Bytes} {peer : Conduct} {course : Course}
    (h : Call.sendAll bytes' course ∈ exchangeCalls c bytes peer) : bytes' = bytes := by
  have hpeer (actions : List PeerAction) : Call.sendAll bytes' course ∉ actions.map .peer := by
    simp
  unfold exchangeCalls at h
  rcases List.mem_append.1 h with h | h
  · exact absurd h (hpeer _)
  · split at h
    · simp at h
    · simp only [List.mem_cons, reduceCtorEq, false_or, List.mem_append, hpeer,
        Call.sendAll.injEq] at h
      rcases h with h | h
      · exact h.1
      · split at h <;> simp at h

/-- What is sent during an action is the request. -/
theorem encode_of_mem_calls {s : Session} {a : Action} {bytes : Bytes} {course : Course}
    (h : Call.sendAll bytes course ∈ s.calls a) :
    ∃ r mode o, a = .send r mode o ∧ r.encode = .ok bytes := by
  cases a with
  | send r mode o =>
    refine ⟨r, mode, o, rfl, ?_⟩
    unfold calls at h
    dsimp only at h
    split at h
    · simp at h
    · rename_i hb
      split at h
      · simp at h
      · rw [mem_exchangeCalls h]
        exact hb
  | _ => simp [calls] at h

theorem encode_of_mem_allCalls : ∀ (actions : List Action) {s : Session} {bytes : Bytes}
    {course : Course}, Call.sendAll bytes course ∈ s.allCalls actions →
      ∃ r mode o, Action.send r mode o ∈ actions ∧ r.encode = .ok bytes
  | [], s, bytes, course, h => by simp [allCalls] at h
  | a :: actions, s, bytes, course, h => by
    rcases List.mem_append.1 h with h | h
    · obtain ⟨r, mode, o, rfl, hb⟩ := encode_of_mem_calls h
      exact ⟨r, mode, o, List.mem_cons_self, hb⟩
    · obtain ⟨r, mode, o, hmem, hb⟩ := encode_of_mem_allCalls actions h
      exact ⟨r, mode, o, List.mem_cons_of_mem a hmem, hb⟩

theorem deliveries_exchangeCalls (c : Channel) (bytes : Bytes) (peer : Conduct) :
    c.deliveries (exchangeCalls c bytes peer) =
      if goesOut c bytes peer then [bytes] else [] := by
  obtain ⟨hrun, hnone⟩ := run_drain c peer.draining
  unfold exchangeCalls
  rw [List.append_cons, Channel.deliveries_append, hrun, hnone, List.nil_append]
  rcases hd : c.drain peer.draining with ⟨e | n, c₁, left⟩ <;> simp only [goesOut, hd]
  · rfl
  · rw [Channel.deliveries_append, Channel.run_peer, Channel.deliveries_peer, List.nil_append]
    rcases hs : (left.flatten.foldl Channel.after c₁).sendAll bytes peer.sending with ⟨e | u, c₂⟩
    · simp only [Channel.deliveries, Channel.delivery, hs]
      rfl
    · simp only [Channel.deliveries, Channel.delivery, hs, Channel.deliveries_append,
        Channel.deliveries_peer]
      rfl

/-- The calls of an action deliver the request that is sent. -/
theorem deliveries_calls (s : Session) (a : Action) :
    List.Forall₂ (fun r bytes => Request.encode r = .ok bytes) (s.sent? a).toList
      (s.channel.deliveries (s.calls a)) := by
  cases a with
  | send r mode o =>
    rcases hb : r.encode with e | bytes
    · simp only [sent?, calls, hb]
      exact .nil
    · simp only [sent?, calls, hb]
      split
      · exact .nil
      · rw [deliveries_exchangeCalls]
        split
        · exact .cons hb .nil
        · exact .nil
  | _ => exact .nil

theorem deliveries_allCalls : ∀ (actions : List Action) (s : Session),
    List.Forall₂ (fun r bytes => Request.encode r = .ok bytes) (s.requests actions)
      (s.channel.deliveries (s.allCalls actions))
  | [], s => .nil
  | a :: actions, s => by
    rw [requests, allCalls, Channel.deliveries_append, ← run_calls]
    exact List.rel_append (deliveries_calls s a) (deliveries_allCalls actions _)

theorem eq_of_sent {s : Session} {a : Action} {r : Request} (h : s.sent? a = some r) :
    ∃ mode o, a = .send r mode o := by
  cases a with
  | send r' mode o =>
    refine ⟨mode, o, ?_⟩
    simp only [sent?] at h
    split at h
    · simp at h
    · split at h
      · simp at h
      · split at h
        · rw [Option.some.inj h]
        · simp at h
  | _ => simp [sent?] at h

theorem mem_requests : ∀ (actions : List Action) {s : Session} {r : Request},
    r ∈ s.requests actions → ∃ mode o, Action.send r mode o ∈ actions
  | [], s, r, h => by simp [requests] at h
  | a :: actions, s, r, h => by
    rcases List.mem_append.1 h with h | h
    · obtain ⟨mode, o, rfl⟩ := eq_of_sent (Option.mem_toList.1 h)
      exact ⟨mode, o, List.mem_cons_self⟩
    · obtain ⟨mode, o, hmem⟩ := mem_requests actions h
      exact ⟨mode, o, List.mem_cons_of_mem a hmem⟩

/-- Requests that were made up in order are read back from their messages, one after the other. -/
theorem decodeDocuments_requests {rs : List Request} {messages : List Bytes}
    (h : List.Forall₂ (fun r bytes => Request.encode r = .ok bytes) rs messages)
    (hr : ∀ r ∈ rs, r.Built) :
    ∃ ts : List (Tree Label), rs.map Request.labels? = ts.map some ∧ ∀ rest,
      Wire.decodeDocuments ts.length (messages.flatten ++ rest) =
        (.ok (ts.map Request.received), rest) := by
  induction h with
  | nil => exact ⟨[], rfl, fun rest => rfl⟩
  | cons hb _ ih =>
    rw [List.forall_mem_cons] at hr
    obtain ⟨t, ht, -, hd⟩ := hr.1.decodeDocument_encode hb
    obtain ⟨ts, hts, hds⟩ := ih hr.2
    refine ⟨t :: ts, by rw [List.map_cons, List.map_cons, ht, hts], fun rest => ?_⟩
    rw [List.flatten_cons, List.append_assoc]
    exact Wire.decodeDocuments_succ (hd _) (hds rest)

/-- On a fresh connection all that is sent is what the calls of a run deliver, in order, and behind
it at most a part of the data of one call that was cut off, after which nothing is sent. So the peer
reads the requests that were sent in a session, one after the other, and at most the start of one
behind them. -/
theorem sent_framed :
    (∀ (window : Option Nat) (calls : List Call),
      ((Channel.new (.connected window)).run calls).socket.sent =
          ((Channel.new (.connected window)).deliveries calls).flatten ∨
        ∃ before bytes course after part, calls = before ++ .sendAll bytes course :: after ∧
          ((Channel.new (.connected window)).run before).CutsOff bytes course part ∧
          ∀ later, ((Channel.new (.connected window)).run
              (before ++ .sendAll bytes course :: later)).socket.sent =
            ((Channel.new (.connected window)).deliveries calls).flatten ++ part) ∧
    ∀ (settings : SessionSettings) (window : Option Nat) (actions : List Action),
      (∀ r mode o, Action.send r mode o ∈ actions → r.Built) →
      ∃ (ts : List (Tree Label)) (tail : Bytes),
        ((Session.new settings (.connected window)).requests actions).map Request.labels? =
            ts.map some ∧
          Wire.decodeDocuments ts.length
              ((Session.new settings (.connected window)).run actions).channel.socket.sent =
            (.ok (ts.map Request.received), tail) ∧
          (tail = [] ∨ (Wire.decodeDocument tail).1 = .error (.malformed .truncated) ∧
            ∃ r mode o left, Action.send r mode o ∈ actions ∧ left ≠ [] ∧
              r.encode = .ok (tail ++ left)) := by
  refine ⟨fun window calls => Channel.sent_run calls (Channel.new (.connected window)),
    fun settings window actions hbuilt => ?_⟩
  generalize hs : Session.new settings (.connected window) = s
  have hnone : s.channel.socket.sent = [] := by
    rw [← hs]
    rfl
  obtain ⟨ts, hts, hds⟩ := decodeDocuments_requests (deliveries_allCalls actions s) fun r hr => by
    obtain ⟨mode, o, hmem⟩ := mem_requests actions hr
    exact hbuilt r mode o hmem
  rw [run_allCalls]
  rcases Channel.sent_run (s.allCalls actions) s.channel with h | ⟨before, bytes, course, after,
    part, hcalls, ⟨-, -, left, hleft, rfl⟩, hlater⟩
  · refine ⟨ts, [], hts, ?_, Or.inl rfl⟩
    have hd := hds []
    rw [List.append_nil] at hd
    rw [h, hnone, List.nil_append, hd]
  · refine ⟨ts, part, hts, ?_, Or.inr ?_⟩
    · have h := hlater after
      rw [← hcalls] at h
      rw [h, hnone, List.nil_append]
      exact hds part
    · obtain ⟨r, mode, o, hmem, hb⟩ := encode_of_mem_allCalls actions
        (show Call.sendAll (part ++ left) course ∈ s.allCalls actions by rw [hcalls]; simp)
      obtain ⟨t, -, -, hd⟩ := (hbuilt r mode o hmem).decodeDocument_encode hb
      have hd := hd []
      rw [List.append_nil] at hd
      exact ⟨Wire.decodeDocument_cut hd hleft, r, mode, o, left, hmem, hleft, hb⟩

/-- A peer that reads all we send lets a request out. -/
theorem goesOut_of_up {c : Channel} (h : c.Up) (bytes : Bytes) :
    goesOut c bytes { answer := [] } = true := by
  obtain ⟨n, c₁, hd, hup, -⟩ := h.drainStale
  obtain ⟨c₂, hs, -⟩ := hup.sendAll bytes
  simp only [goesOut, Channel.drain, hd, List.flatten_nil, List.foldl_nil, hs]
  rfl

/-- The second of two calls is cut off after one byte; a request without an answer goes out. -/
theorem sent_framed_sample :
    (∃ calls, ((Channel.new (.connected (some 4))).deliveries calls).flatten = [1, 2, 3] ∧
      ((Channel.new (.connected (some 4))).run calls).socket.sent = [1, 2, 3, 4] ∧
      ∃ before bytes course after part, calls = before ++ .sendAll bytes course :: after ∧
        ((Channel.new (.connected (some 4))).run before).CutsOff bytes course part ∧
        ∀ later, ((Channel.new (.connected (some 4))).run
          (before ++ .sendAll bytes course :: later)).socket.sent = [1, 2, 3] ++ part) ∧
    ∃ (r : Request) (actions : List Action),
      (∀ r' mode o, Action.send r' mode o ∈ actions → r'.Built) ∧
      (Session.new {} (.connected none)).requests actions = [r] ∧
      ∃ (ts : List (Tree Label)) (tail : Bytes), [r].map Request.labels? = ts.map some ∧
        Wire.decodeDocuments ts.length
            ((Session.new {} (.connected none)).run actions).channel.socket.sent =
          (.ok (ts.map Request.received), tail) ∧
        (tail = [] ∨ (Wire.decodeDocument tail).1 = .error (.malformed .truncated) ∧
          ∃ r' mode o left, Action.send r' mode o ∈ actions ∧ left ≠ [] ∧
            r'.encode = .ok (tail ++ left)) := by
  obtain ⟨hcalls, hactions⟩ := sent_framed
  constructor
  · refine ⟨[.sendAll [1, 2, 3] [], .sendAll [4, 5] []], rfl, rfl, ?_⟩
    rcases hcalls (some 4) [.sendAll [1, 2, 3] [], .sendAll [4, 5] []] with h | h
    · exact absurd h (by decide)
    · exact h
  · let r := Request.bare "a" "x"
    let o : Occasion := ⟨0, 0, { answer := [] }⟩
    have hbuilt : ∀ r' mode o', Action.send r' mode o' ∈ [.send r .bypass o] → r'.Built := by
      intro r' mode o' h
      rw [(Action.send.inj (List.mem_singleton.1 h)).1]
      exact .withValue "a" "x" ""
    obtain ⟨bytes, hb⟩ : ∃ bytes, r.encode = .ok bytes := ⟨_, rfl⟩
    have hone : (Session.new {} (.connected none)).requests [.send r .bypass o] = [r] := by
      have hup : (Session.new {} (.connected none)).channel.Up := Channel.up_new
      have hw : (Session.new {} (.connected none)).waits o = o.peer := by decide
      simp only [requests, sent?, hb, hits, hw]
      rw [if_neg (by simp), if_pos (goesOut_of_up hup bytes)]
      rfl
    have h := hactions {} none _ hbuilt
    rw [hone] at h
    exact ⟨r, _, hbuilt, hone, h⟩

end Session

end Treegram
