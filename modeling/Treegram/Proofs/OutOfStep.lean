import Treegram.Proofs.Arrivals
import Treegram.Proofs.CalmCalls
import Treegram.Proofs.ChannelRuns

/-!
# When a channel falls out of step

A channel falls out of step in a call that cuts a message off, and in no other (`desynced_perform`).
It stays so: a run leaves it out of step exactly if it was before, or a call of the run cut a
message off (`desynced_run`). A call that fails and leaves it in step has sent nothing and taken
nothing of what is unread.

What a call to receive a message takes is read off the recording reader (`heard_handed`), not off
the count that the channel's guard goes by.
-/

namespace Treegram

namespace Channel

variable {c c' : Channel}

/-- The bytes that a call to receive a message hands out for it. -/
def handed (c : Channel) (course : Course) : Bytes :=
  if c.desynced then [] else (c.recorded course).2.record

/-- Whether the call cuts a message off: it fails after it has sent a part of its data, or after
bytes were handed out for the message that it is to receive. -/
def CutsShort (c : Channel) : Call → Prop
  | .sendAll bytes course => ∃ e c' part, c.sendAll bytes course = (.error e, c') ∧ part ≠ [] ∧
      c'.socket.sent = c.socket.sent ++ part
  | .receiveDocument course => ∃ e c', c.receiveDocument course = (.error e, c') ∧
      c.handed course ≠ []
  | _ => False

/-- Whether a call with this course has sent nothing, and has left what is unread as it was, in
front of what came in meanwhile. -/
structure Untouched (c : Channel) (course : Course) (c' : Channel) : Prop where
  sent : c'.socket.sent = c.socket.sent
  unread : ∃ looks : Course, looks <+: course ∧
    c'.unread = c.unread ++ c.socket.arrivals looks.actions

theorem Untouched.of_heard {looks course : Course} (hs : c'.socket.sent = c.socket.sent)
    (hl : looks <+: course) (h : c.Heard looks [] c') : c.Untouched course c' :=
  ⟨hs, looks, hl, h.bytes⟩

/-! ## Sending -/

theorem heard_put (c : Channel) (hungUp : Bool) (bytes : Bytes) :
    c.Heard [] [] (c.put hungUp bytes).2.2 := by
  unfold put
  cases hungUp with
  | true => exact .refl c
  | false =>
    rcases c.socket.write_cases bytes with h | ⟨part, left, -, h⟩ <;> rw [h]
    · exact .refl c
    · exact ⟨(List.append_nil _).symm, rfl⟩

/-- The looks of a call to send. -/
def sendLooks (c : Channel) (bytes : Bytes) : Course → Course
  | [] => []
  | look :: course =>
    if bytes = [] then []
    else
      match (c.onLook look).over? look with
      | some _ => [look]
      | none =>
        match (c.onLook look).put (c.hangsUp look) bytes with
        | (_, some _, _) => [look]
        | (n, none, c) => look :: c.sendLooks (bytes.drop n) course

/-- Sending takes nothing out of what is unread. -/
theorem heard_send : ∀ (course : Course) (c : Channel) (bytes : Bytes),
    c.sendLooks bytes course <+: course ∧
      c.Heard (c.sendLooks bytes course) [] (c.send bytes course).2.2
  | [], c, bytes => by
    have hput := c.heard_put c.socket.isHungUp bytes
    refine ⟨List.nil_prefix, ?_⟩
    unfold send sendLooks
    split
    · exact .refl c
    · split <;> rename_i h <;> rw [h] at hput <;> exact hput
  | look :: course, c, bytes => by
    have hlook := c.heard_onLook look
    have hput := hlook.trans ((c.onLook look).heard_put (c.hangsUp look) bytes)
    have hone : [look] <+: look :: course := ⟨course, rfl⟩
    unfold send sendLooks
    split
    · exact ⟨List.nil_prefix, .refl c⟩
    · dsimp only
      rcases (c.onLook look).over? look with _ | e <;> dsimp only
      · rcases h : (c.onLook look).put (c.hangsUp look) bytes with ⟨n, _ | e, c'⟩ <;>
          rw [h] at hput <;> dsimp only
        · obtain ⟨hl, hsend⟩ := heard_send course c' (bytes.drop n)
          exact ⟨(List.prefix_cons_inj look).2 hl, hput.trans hsend⟩
        · exact ⟨hone, hput⟩
      · exact ⟨hone, hlook⟩

theorem sendAll_of_desynced (h : c.desynced = true) (bytes : Bytes) (course : Course) :
    c.sendAll bytes course = (.error .desynchronized, c) := by
  rw [sendAll, if_pos h]

theorem heard_sendAll (h : c.desynced = false) (bytes : Bytes) (course : Course) :
    c.Heard (c.sendLooks bytes course) [] (c.sendAll bytes course).2 := by
  have hs := (heard_send course c bytes).2
  rw [sendAll, if_neg (by simp [h])]
  rcases hsend : c.send bytes course with ⟨n, _ | e, c'⟩ <;> rw [hsend] at hs
  · exact hs
  · exact ⟨hs.bytes, hs.ends⟩

/-- A call to send that fails in step has sent nothing. -/
theorem untouched_sendAll {bytes : Bytes} {course : Course} {e : Fault}
    (h : c.sendAll bytes course = (.error e, c')) (hd : c'.desynced = false) :
    c.Untouched course c' := by
  rcases hc : c.desynced with _ | _
  · rcases sendAll_cases hc bytes course with
      ⟨c₁, h₁, -⟩ | ⟨e₁, part, left, c₁, -, -, h₁, hs, hp⟩ <;> rw [h₁, Prod.mk.injEq] at h
    · simp at h
    · obtain ⟨-, rfl⟩ := h
      have hnone : part = [] := by
        by_contra hne
        rw [hp.2 hne] at hd
        simp at hd
      have hh := heard_sendAll hc bytes course
      rw [h₁] at hh
      exact .of_heard (by rw [hs, hnone, List.append_nil]) (heard_send course c bytes).1 hh
  · rw [sendAll_of_desynced hc, Prod.mk.injEq] at h
    rw [← h.2, hc] at hd
    simp at hd

/-! ## Receiving -/

theorem receiveDocument_of_desynced (h : c.desynced = true) (course : Course) :
    c.receiveDocument course = (.error .desynchronized, c) := by
  rw [receiveDocument, if_pos h]

/-- A message is received from what is handed out for it; if that fails, the channel is out of step
exactly if anything was handed out. -/
theorem receiveDocument_recorded (h : c.desynced = false) (course : Course) :
    c.receiveDocument course =
      ((c.recorded course).1, { (c.recorded course).2.reader.channel with
        desynced := !(c.recorded course).1.isOk && !(c.handed course).isEmpty }) := by
  have hq := quiet_decodeDocument ⟨c, course, 0⟩
  obtain ⟨looks, -, htaken, -⟩ := c.heard_recorded course
  have hdec := c.decodeDocument_recorder course
  rw [hdec] at hq
  have hhanded : c.handed course = (c.recorded course).2.record := by
    rw [handed, if_neg (by simp [h])]
  rw [receiveDocument, if_neg (by simp [h]), hdec, hhanded]
  rcases hr : c.recorded course with ⟨e | t, r⟩ <;> rw [hr] at hq htaken
  · have hpos : decide (0 < r.reader.taken) = !r.record.isEmpty := by
      rw [htaken]
      cases r.record <;> rfl
    simp only [hpos]
    rfl
  · have hd : r.reader.channel.desynced = false := hq.silent.desynced.trans h
    simp only [Except.isOk, Except.toBool, Bool.not_true, Bool.false_and]
    rw [← hd]

/-- What is handed out for a message and what is left unread are together what was unread and what
came in meanwhile. -/
theorem heard_handed (c : Channel) (course : Course) : ∃ looks : Course, looks <+: course ∧
    c.Heard looks (c.handed course) (c.receiveDocument course).2 := by
  rcases h : c.desynced with _ | _
  · obtain ⟨looks, hcourse, -, hh⟩ := c.heard_recorded course
    refine ⟨looks, ⟨_, hcourse.symm⟩, ?_⟩
    rw [receiveDocument_recorded h, handed, if_neg (by simp [h])]
    exact ⟨hh.bytes, hh.ends⟩
  · refine ⟨[], List.nil_prefix, ?_⟩
    rw [receiveDocument_of_desynced h, handed, if_pos h]
    exact .refl c

/-- A call to receive a message that fails in step has taken nothing. -/
theorem untouched_receiveDocument {course : Course} {e : Fault}
    (h : c.receiveDocument course = (.error e, c')) (hd : c'.desynced = false) :
    c.Untouched course c' := by
  obtain ⟨looks, hl, hh⟩ := c.heard_handed course
  have hsent := c.sent_receiveDocument course
  rcases hc : c.desynced with _ | _
  · have hr := receiveDocument_recorded hc course
    rw [h, Prod.mk.injEq] at hr
    have hnone : c.handed course = [] := by
      rw [hr.2, ← hr.1] at hd
      simpa [Except.isOk, Except.toBool] using hd
    rw [h] at hsent hh
    rw [hnone] at hh
    exact .of_heard hsent hl hh
  · rw [receiveDocument_of_desynced hc, Prod.mk.injEq] at h
    rw [← h.2, hc] at hd
    simp at hd

/-! ## Calls and runs -/

/-- A call leaves the channel out of step exactly if it was before, or the call cuts a message
off. -/
theorem desynced_perform (c : Channel) (call : Call) :
    (c.perform call).desynced = true ↔ c.desynced = true ∨ c.CutsShort call := by
  rcases h : c.desynced with _ | _
  · simp only [Bool.false_eq_true, false_or]
    cases call with
    | sendAll bytes course =>
      rcases sendAll_cases h bytes course with
        ⟨c', hs, hw⟩ | ⟨e, part, left, c', -, -, hs, hsent, hd⟩
      · simp [perform, CutsShort, hs, hw.desynced, h]
      · simp only [perform, CutsShort, hs, hd, Prod.mk.injEq, Except.error.injEq]
        constructor
        · exact fun hne => ⟨e, c', part, ⟨rfl, rfl⟩, hne, hsent⟩
        · rintro ⟨_, _, part', ⟨-, rfl⟩, hne, hsent'⟩
          rw [hsent, List.append_cancel_left_eq] at hsent'
          rw [hsent']
          exact hne
    | receiveDocument course =>
      have hr := receiveDocument_recorded h course
      rcases he : (c.recorded course).1 with e | t <;> rw [he] at hr <;>
        simp [perform, CutsShort, hr, Except.isOk, Except.toBool]
    | _ =>
      rw [Silent.desynced (c.silent_perform _ ?_ ?_)]
      · simp [CutsShort, h]
      all_goals simp
  · have hs := (perform_of_desynced h call).1
    rw [hs.desynced, h]
    simp

/-- A run leaves the channel out of step exactly if it was before, or one of the calls cuts a
message off. -/
theorem desynced_run : ∀ (calls : List Call) (c : Channel),
    (c.run calls).desynced = true ↔ c.desynced = true ∨
      ∃ before call after, calls = before ++ call :: after ∧ (c.run before).CutsShort call
  | [], c => by simp [run]
  | call :: calls, c => by
    have hrun : c.run (call :: calls) = (c.perform call).run calls := rfl
    rw [hrun, desynced_run calls, desynced_perform, or_assoc]
    refine or_congr_right ⟨?_, ?_⟩
    · rintro (hcut | ⟨before, call', after, rfl, hcut⟩)
      · exact ⟨[], call, calls, rfl, hcut⟩
      · exact ⟨call :: before, call', after, rfl, hcut⟩
    · rintro ⟨_ | ⟨first, before⟩, call', after, h, hcut⟩
      · obtain ⟨rfl, rfl⟩ := List.cons_eq_cons.1 h
        exact Or.inl hcut
      · obtain ⟨rfl, rfl⟩ := List.cons_eq_cons.1 h
        exact Or.inr ⟨before, call', after, rfl, hcut⟩

/-- A channel falls out of step exactly where a message is cut off, and stays so: then every call
for a message is refused and changes nothing. A call for a message that fails in step has sent
nothing and left all that is unread. -/
theorem desynced_exact :
    (∀ (c : Channel) (calls : List Call), (c.run calls).desynced = true ↔ c.desynced = true ∨
      ∃ before call after, calls = before ++ call :: after ∧ (c.run before).CutsShort call) ∧
    (∀ (c : Channel) (call : Call), c.desynced = false →
      ((c.perform call).desynced = true ↔ c.CutsShort call)) ∧
    (∀ (c : Channel) (course : Course), ∃ looks : Course, looks <+: course ∧
      c.handed course ++ (c.receiveDocument course).2.unread =
        c.unread ++ c.socket.arrivals looks.actions) ∧
    (∀ (c : Channel) (bytes : Bytes) (course : Course), c.desynced = true →
      c.sendAll bytes course = (.error .desynchronized, c) ∧
        c.receiveDocument course = (.error .desynchronized, c)) ∧
    ∀ (c c' : Channel) (course : Course) (e : Fault), c'.desynced = false →
      (∀ bytes, c.sendAll bytes course = (.error e, c') → c.Untouched course c') ∧
        (c.receiveDocument course = (.error e, c') → c.Untouched course c') := by
  refine ⟨fun c calls => desynced_run calls c, fun c call h => ?_, fun c course => ?_,
    fun c bytes course h =>
      ⟨sendAll_of_desynced h bytes course, receiveDocument_of_desynced h course⟩,
    fun c c' course e hd =>
      ⟨fun _ h => untouched_sendAll h hd, fun h => untouched_receiveDocument h hd⟩⟩
  · rw [desynced_perform, h]
    simp
  · obtain ⟨looks, hl, hh⟩ := c.heard_handed course
    exact ⟨looks, hl, hh.bytes⟩

/-- A peer that takes one byte of two, one that has sent one byte of a message, and one whose first
byte comes in when the time of the call is over. -/
theorem desynced_exact_sample : ∃ narrow half late late' : Channel,
    (narrow.CutsShort (.sendAll [1, 2] []) ∧
      (narrow.run [.sendAll [1, 2] [], .peer .read, .drainStale]).desynced = true) ∧
    (half.CutsShort (.receiveDocument []) ∧ (half.perform (.receiveDocument [])).sendAll [] [] =
      (.error .desynchronized, half.perform (.receiveDocument []))) ∧
    late.receiveDocument [{ peer := [.write [1]], expired := true }] = (.error .timeout, late') ∧
    late'.desynced = false ∧ late'.unread = [1] ∧
    late.Untouched [{ peer := [.write [1]], expired := true }] late' := by
  let narrow : Channel := new (.connected (some 1))
  have hnarrow : narrow.CutsShort (.sendAll [1, 2] []) :=
    ⟨.timeout, _, [1], rfl, List.cons_ne_nil 1 [], rfl⟩
  let t : Tree Label := ⟨.element "a" "", .nil⟩
  have ht : t.Sendable := (t.encode_eq_ok_iff.1 rfl).1
  let m : Bytes := t.units.flatMap WireUnit.bytes
  let half : Channel := new { Socket.connected none with incoming := m.take 1 }
  have hvisible : half.visible false = m.take 1 := by simp [visible, unread, half, new, data_new]
  have hslice : Wire.decodeDocument (half.visible false) = (.error (.malformed .truncated),
      (Wire.decodeDocument (half.visible false)).2) := by
    have h := Wire.decodeDocument_single ht (by decide)
    rw [← List.take_append_drop 1 (t.units.flatMap WireUnit.bytes)] at h
    rw [hvisible]
    exact Prod.ext (Wire.decodeDocument_cut h (by decide)) rfl
  obtain ⟨half', hhalf, hd⟩ := half.calm_nil.receiveDocument_of_error rfl hslice
  have hperform : half.perform (.receiveDocument []) = half' := by rw [perform, hhalf]
  have hcut : (half.perform (.receiveDocument [])).desynced = true := by
    rw [hperform, hd, hvisible]
    decide
  let late : Channel := new (.connected none)
  let look : Look := { peer := [.write [1]], expired := true }
  let late' : Channel := { late.onLook look with buffer := .new }
  have hlate : late.receiveDocument [look] = (.error .timeout, late') := by
    have hnone : late.buffer.data = [] := data_new
    have hshort : late.buffer.data.length < 1 := by
      rw [hnone]
      decide
    have hrefill : late.refill [look] = (some .timeout, late', []) := rfl
    have htake : ByteSource.take 1 (⟨late, [look], 0⟩ : Reader) =
        (.error .timeout, ⟨late', [], 0⟩) := by
      simp only [ByteSource.take, receive_of_fault hshort hrefill]
      rw [hnone]
      rfl
    rw [receiveDocument, if_neg (by decide), Wire.decodeDocument_of_error htake]
    rfl
  obtain ⟨hrun, hstep, -, hrefused, huntouched⟩ := desynced_exact
  refine ⟨narrow, half, late, late', ⟨hnarrow, ?_⟩, ⟨(hstep half _ rfl).1 hcut, ?_⟩, hlate, rfl, ?_,
    (huntouched late late' _ _ rfl).2 hlate⟩
  · exact (hrun narrow _).2 (Or.inr ⟨[], _, _, rfl, hnarrow⟩)
  · exact (hrefused _ [] [] hcut).1
  · show Buffer.new.data ++ [1] = [1]
    rw [data_new]
    rfl

end Channel

end Treegram
