import Treegram.Proofs.Listening

/-!
# Runs of a channel

What a channel has sent is the data of the calls that sent all of theirs, one after the other. The
one thing that can stand behind it is a part of the data of a call that was cut off
(`sendAll_cases`): then the channel is out of step and never sends anything again
(`run_of_desynced`). So the peer sees whole messages, at most the last of them cut off (`sent_run`).
-/

namespace Treegram

namespace Channel

inductive Call where
  | sendAll (bytes : Bytes) (course : Course)
  | receiveDocument (course : Course)
  | decodeDocument (course : Course)
  | receiveAll (n : Nat) (course : Course)
  | drainStale
  | discardBuffered
  | shutdown
  | raise (raised : Bool)
  | peer (action : PeerAction)
  deriving DecidableEq

def perform (c : Channel) : Call → Channel
  | .sendAll bytes course => (c.sendAll bytes course).2
  | .receiveDocument course => (c.receiveDocument course).2
  | .decodeDocument course => (c.decodeDocument course).2
  | .receiveAll n course => (c.receiveAll n course).2
  | .drainStale => c.drainStale.2
  | .discardBuffered => c.discardBuffered.2
  | .shutdown => c.shutdown
  | .raise raised => { c with raised }
  | .peer action => c.after action

/-- The data of the call, if it sends all of it. -/
def delivery (c : Channel) : Call → List Bytes
  | .sendAll bytes course => if (c.sendAll bytes course).1 = .ok () then [bytes] else []
  | _ => []

def run (c : Channel) (calls : List Call) : Channel :=
  calls.foldl perform c

/-- The data of the calls of a run that send all of theirs, in order. -/
def deliveries (c : Channel) : List Call → List Bytes
  | [] => []
  | call :: calls => c.delivery call ++ (c.perform call).deliveries calls

theorem run_append (c : Channel) (calls more : List Call) :
    c.run (calls ++ more) = (c.run calls).run more :=
  List.foldl_append

theorem run_peer (c : Channel) (actions : List PeerAction) :
    c.run (actions.map .peer) = actions.foldl after c :=
  List.foldl_map

theorem deliveries_append : ∀ (calls : List Call) (c : Channel) (more : List Call),
    c.deliveries (calls ++ more) = c.deliveries calls ++ (c.run calls).deliveries more
  | [], c, more => rfl
  | call :: calls, c, more => by
    rw [List.cons_append, deliveries, deliveries, deliveries_append calls, List.append_assoc]
    rfl

/-- The peer delivers nothing. -/
theorem deliveries_peer : ∀ (actions : List PeerAction) (c : Channel),
    c.deliveries (actions.map .peer) = []
  | [], _ => rfl
  | action :: actions, c => deliveries_peer actions (c.after action)

/-! ## Sending -/

/-- Whether `c'` has sent `part` in addition, and has the same guard. -/
structure Wrote (c : Channel) (part : Bytes) (c' : Channel) : Prop where
  sent : c'.socket.sent = c.socket.sent ++ part
  desynced : c'.desynced = c.desynced

theorem Silent.wrote {c c' : Channel} (h : c.Silent c') : c.Wrote [] c' :=
  ⟨by rw [h.sent, List.append_nil], h.desynced⟩

theorem Wrote.trans {c c' c'' : Channel} {p q : Bytes} (h : c.Wrote p c') (h' : c'.Wrote q c'') :
    c.Wrote (p ++ q) c'' :=
  ⟨by rw [h'.sent, h.sent, List.append_assoc], h'.desynced.trans h.desynced⟩

theorem put_cases (c : Channel) (hungUp : Bool) (bytes : Bytes) :
    (∃ e, c.put hungUp bytes = (0, some e, c)) ∨
      ∃ part left c', bytes = part ++ left ∧ c.put hungUp bytes = (part.length, none, c') ∧
        c.Wrote part c' := by
  unfold put
  cases hungUp with
  | true => exact Or.inl ⟨.closed, rfl⟩
  | false =>
    rcases c.socket.write_cases bytes with h | ⟨part, left, hb, h⟩ <;> rw [h]
    · exact Or.inl ⟨.brokenPipe, rfl⟩
    · refine Or.inr ⟨part, left, _, hb, rfl, ?_, rfl⟩
      simp only [Socket.sent, List.append_assoc]

/-- A part of the data goes out, and all of it exactly if there is no fault. -/
theorem send_spec : ∀ (course : Course) (c : Channel) (bytes : Bytes),
    ∃ part left fault c', bytes = part ++ left ∧ c.send bytes course = (part.length, fault, c') ∧
      (fault = none ↔ left = []) ∧ c.Wrote part c'
  | [], c, bytes => by
    unfold send
    by_cases hb : bytes = []
    · rw [if_pos hb]
      exact ⟨[], [], none, c, hb, rfl, by simp, (Silent.refl c).wrote⟩
    · rw [if_neg hb]
      rcases c.put_cases c.socket.isHungUp bytes with ⟨e, h⟩ | ⟨part, left, c', rfl, h, hw⟩ <;>
        rw [h]
      · exact ⟨[], bytes, some e, c, rfl, rfl, by simp [hb], (Silent.refl c).wrote⟩
      · refine ⟨part, left, _, c', rfl, rfl, ?_, hw⟩
        rw [List.length_append]
        rcases left with _ | ⟨b, left⟩ <;> simp
  | look :: course, c, bytes => by
    unfold send
    by_cases hb : bytes = []
    · rw [if_pos hb]
      exact ⟨[], [], none, c, hb, rfl, by simp, (Silent.refl c).wrote⟩
    · rw [if_neg hb]
      have hlook := (c.silent_onLook look).wrote
      dsimp only
      split
      · rename_i e _
        exact ⟨[], bytes, some e, _, rfl, rfl, by simp [hb], hlook⟩
      · rcases (c.onLook look).put_cases (c.hangsUp look) bytes with
          ⟨e, h⟩ | ⟨part, left, c', rfl, h, hw⟩ <;> rw [h]
        · exact ⟨[], bytes, some e, _, rfl, rfl, by simp [hb], hlook⟩
        · obtain ⟨more, rest, fault, c'', rfl, hs, hf, hw'⟩ := send_spec course c' left
          refine ⟨part ++ more, rest, fault, c'', (List.append_assoc ..).symm, ?_, hf, ?_⟩
          · simp only [List.drop_left, hs, List.length_append]
          · exact (hlook.trans hw).trans hw'

/-- A call sends all of its data or fails; if it fails after a part of it, the channel is out of
step. -/
theorem sendAll_cases {c : Channel} (h : c.desynced = false) (bytes : Bytes) (course : Course) :
    (∃ c', c.sendAll bytes course = (.ok (), c') ∧ c.Wrote bytes c') ∨
      ∃ e part left c', bytes = part ++ left ∧ left ≠ [] ∧
        c.sendAll bytes course = (.error e, c') ∧ c'.socket.sent = c.socket.sent ++ part ∧
        (c'.desynced = true ↔ part ≠ []) := by
  obtain ⟨part, left, fault, c', rfl, hs, hf, hw⟩ := send_spec course c bytes
  unfold sendAll
  rw [if_neg (by simp [h]), hs]
  rcases fault with _ | e
  · rw [hf.1 rfl, List.append_nil]
    exact Or.inl ⟨c', rfl, hw⟩
  · refine Or.inr ⟨e, part, left, _, rfl, fun hl => ?_, rfl, hw.sent, ?_⟩
    · have := hf.2 hl
      simp at this
    · rw [decide_eq_true_iff, List.length_pos_iff]

/-! ## Runs -/

/-- No call but those for whole messages sends anything or touches the guard. -/
theorem silent_perform (c : Channel) (call : Call)
    (hs : ∀ bytes course, call ≠ .sendAll bytes course)
    (hr : ∀ course, call ≠ .receiveDocument course) : c.Silent (c.perform call) := by
  cases call with
  | sendAll bytes course => exact absurd rfl (hs bytes course)
  | receiveDocument course => exact absurd rfl (hr course)
  | decodeDocument course => exact c.silent_decodeDocument course
  | receiveAll n course => exact c.silent_receiveAll n course
  | drainStale => exact c.silent_drainStale
  | discardBuffered => exact ⟨rfl, rfl⟩
  | shutdown => exact ⟨rfl, rfl⟩
  | raise raised => exact ⟨rfl, rfl⟩
  | peer action => exact c.silent_after action

/-- No other call sends anything or takes the guard back. -/
theorem perform_of_not_sendAll (c : Channel) {call : Call}
    (h : ∀ bytes course, call ≠ .sendAll bytes course) :
    (c.perform call).socket.sent = c.socket.sent ∧
      (c.desynced = true → (c.perform call).desynced = true) ∧ c.delivery call = [] := by
  have hnone : c.delivery call = [] := by
    cases call with
    | sendAll bytes course => exact absurd rfl (h bytes course)
    | _ => rfl
  by_cases hcall : ∃ course, call = .receiveDocument course
  · obtain ⟨course, rfl⟩ := hcall
    refine ⟨c.sent_receiveDocument course, fun hd => ?_, hnone⟩
    rw [perform, receiveDocument, if_pos hd]
    exact hd
  · have hs := c.silent_perform call h fun course hc => hcall ⟨course, hc⟩
    exact ⟨hs.sent, hs.desynced.trans, hnone⟩

/-- A channel that is out of step sends nothing. -/
theorem perform_of_desynced {c : Channel} (h : c.desynced = true) (call : Call) :
    c.Silent (c.perform call) ∧ c.delivery call = [] := by
  by_cases hcall : ∃ bytes course, call = .sendAll bytes course
  · obtain ⟨bytes, course, rfl⟩ := hcall
    have hs : c.sendAll bytes course = (.error .desynchronized, c) := by
      rw [sendAll, if_pos h]
    simp only [perform, delivery, hs]
    exact ⟨.refl c, rfl⟩
  · obtain ⟨hs, hd, hnone⟩ :=
      c.perform_of_not_sendAll fun bytes course hc => hcall ⟨bytes, course, hc⟩
    exact ⟨⟨hs, (hd h).trans h.symm⟩, hnone⟩

theorem run_of_desynced : ∀ (calls : List Call) {c : Channel}, c.desynced = true →
    c.Silent (c.run calls) ∧ c.deliveries calls = []
  | [], c, _ => ⟨.refl c, rfl⟩
  | call :: calls, c, h => by
    obtain ⟨hs, hd⟩ := perform_of_desynced h call
    obtain ⟨hs', hd'⟩ := run_of_desynced calls (hs.desynced.trans h)
    exact ⟨hs.trans hs', by rw [deliveries, hd, hd', List.append_nil]⟩

/-- Whether the call is cut off after the bytes `part`. -/
def CutsOff (c : Channel) (bytes : Bytes) (course : Course) (part : Bytes) : Prop :=
  (∃ e, (c.sendAll bytes course).1 = .error e) ∧ part ≠ [] ∧
    ∃ left, left ≠ [] ∧ bytes = part ++ left

/-- A call sends what it delivers, or is cut off. -/
theorem perform_cases (c : Channel) (call : Call) :
    (c.perform call).socket.sent = c.socket.sent ++ (c.delivery call).flatten ∨
      ∃ bytes course part, call = .sendAll bytes course ∧ c.CutsOff bytes course part ∧
        c.delivery call = [] ∧ (c.perform call).socket.sent = c.socket.sent ++ part ∧
        (c.perform call).desynced = true := by
  have nothing {c' : Channel} (h : c'.socket.sent = c.socket.sent) :
      c'.socket.sent = c.socket.sent ++ ([] : List Bytes).flatten := by
    rw [h, List.flatten_nil, List.append_nil]
  by_cases hcall : ∃ bytes course, call = .sendAll bytes course
  · by_cases hd : c.desynced = true
    · obtain ⟨hs, hnone⟩ := perform_of_desynced hd call
      rw [hnone]
      exact Or.inl (nothing hs.sent)
    · rw [Bool.not_eq_true] at hd
      obtain ⟨bytes, course, rfl⟩ := hcall
      rcases sendAll_cases hd bytes course with ⟨c', h, hw⟩ |
        ⟨e, part, left, c', hb, hl, h, hs, hc⟩ <;> simp only [perform, delivery, h]
      · left
        rw [if_pos trivial, List.flatten_singleton]
        exact hw.sent
      · rw [if_neg (by simp)]
        by_cases hp : part = []
        · rw [hp, List.append_nil] at hs
          exact Or.inl (nothing hs)
        · exact Or.inr ⟨bytes, course, part, rfl, ⟨⟨e, by rw [h]⟩, hp, left, hl, hb⟩, rfl, hs,
            hc.2 hp⟩
  · obtain ⟨hs, -, hnone⟩ :=
      c.perform_of_not_sendAll fun bytes course hc => hcall ⟨bytes, course, hc⟩
    rw [hnone]
    exact Or.inl (nothing hs)

/-- In a run of calls all that is sent is what they deliver, in order, and behind it, if one of
them is cut off, a part of its data; then nothing is sent any more, whatever happens. -/
theorem sent_run : ∀ (calls : List Call) (c : Channel),
    (c.run calls).socket.sent = c.socket.sent ++ (c.deliveries calls).flatten ∨
      ∃ before bytes course after part, calls = before ++ .sendAll bytes course :: after ∧
        (c.run before).CutsOff bytes course part ∧
        ∀ later, (c.run (before ++ .sendAll bytes course :: later)).socket.sent =
          c.socket.sent ++ (c.deliveries calls).flatten ++ part
  | [], c => Or.inl (by simp only [run, List.foldl_nil, deliveries, List.flatten_nil,
      List.append_nil])
  | call :: calls, c => by
    have hrun : c.run (call :: calls) = (c.perform call).run calls := rfl
    have hdel : c.deliveries (call :: calls) =
        c.delivery call ++ (c.perform call).deliveries calls := rfl
    rw [hrun, hdel, List.flatten_append]
    rcases c.perform_cases call with hs | ⟨bytes, course, part, rfl, hcut, hnone, hs, hd⟩
    · rcases sent_run calls (c.perform call) with h | ⟨before, bytes, course, after, part, rfl, h⟩
      · rw [h, hs, List.append_assoc]
        exact Or.inl rfl
      · obtain ⟨hcut, hlater⟩ := h
        refine Or.inr ⟨call :: before, bytes, course, after, part, rfl, hcut, fun later => ?_⟩
        have := hlater later
        rw [hs, List.append_assoc c.socket.sent] at this
        exact this
    · right
      refine ⟨[], bytes, course, calls, part, rfl, hcut, fun later => ?_⟩
      obtain ⟨hsilent, -⟩ := run_of_desynced later hd
      obtain ⟨-, hnone'⟩ := run_of_desynced calls hd
      simp only [hnone, hnone', List.flatten_nil, List.append_nil]
      rw [← hs]
      exact hsilent.sent

end Channel

end Treegram
