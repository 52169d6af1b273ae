import Treegram.Proofs.ByteFlow
import Treegram.Proofs.EventStream

/-!
# Telling whether a call has to wait

Where no event, and no reason why there is none, can be had at once, a call that nothing comes in
for only waits (`Channel.Idle.receiveDocument`). Where there is one, its first byte is handed out,
or the end of the stream found, at the first look (`Channel.take_one`, `Channel.take_none`): if the
call still fails because its time runs out, it has cut an event off. What it can fail for is settled
look by look (`Channel.stops_receive`).
-/

namespace Treegram

/-- Whether nothing comes in at the looks: the peer at most reads. -/
def Course.BringsNothing (course : Course) : Prop :=
  ∀ look ∈ course, ∀ action ∈ look.peer, action = .read

/-- Whether the time of the call is not over at its first look, nor its grace period. -/
def Course.StartsInTime (course : Course) : Prop :=
  ∀ look ∈ course.head?, look.expired = false ∧ look.late = false

/-- Whether a wait can end so that one of the looks, if any, ends for the reason `ending`. -/
def Fault.Stops (ending : Option Fault) (e : Fault) : Prop :=
  e = .closed ∨ e = .reset ∨ e = .timeout ∨ e = .interrupted ∧ ending = some .interrupted

/-- A peer that only reads changes nothing about what comes in. -/
theorem Socket.foldl_after_read : ∀ (actions : List PeerAction) (s : Socket),
    (∀ action ∈ actions, action = .read) →
      (actions.foldl after s).incoming = s.incoming ∧ (actions.foldl after s).broken = s.broken ∧
        (actions.foldl after s).ends = s.ends
  | [], _, _ => ⟨rfl, rfl, rfl⟩
  | action :: actions, s, h => by
    rw [List.forall_mem_cons] at h
    obtain ⟨rfl, h⟩ := h
    obtain ⟨hincoming, hbroken, hends⟩ := foldl_after_read actions (s.after .read) h
    have hread : (s.after .read).incoming = s.incoming ∧ (s.after .read).broken = s.broken ∧
        (s.after .read).ends = s.ends := by
      simp only [after]
      split <;> exact ⟨rfl, rfl, rfl⟩
    exact ⟨hincoming.trans hread.1, hbroken.trans hread.2.1, hends.trans hread.2.2⟩

theorem Course.BringsNothing.arrivals {looks course : Course} (h : course.BringsNothing)
    (hl : looks <+: course) (s : Socket) : s.arrivals looks.actions = [] := by
  have hread : ∀ action ∈ looks.actions, action = .read := by
    intro action ha
    obtain ⟨look, hlook, ha⟩ := List.mem_flatMap.1 ha
    exact h look (hl.subset hlook) action ha
  have hincoming := s.incoming_foldl_after looks.actions
  rw [(s.foldl_after_read _ hread).1] at hincoming
  exact List.self_eq_append_right.1 hincoming

namespace Channel

variable {c : Channel} {course : Course}

/-! ## Channels on which there is nothing -/

/-- Whether nothing is unread, and the stream has not ended. -/
structure Idle (c : Channel) : Prop where
  unread : c.unread = []
  broken : c.socket.broken = false
  isEnded : c.socket.isEnded = false

/-- Where nothing was handed out before, a wait that brings no bytes ends the call in step. -/
theorem receiveDocument_of_refill {c' : Channel} {course' : Course} {e : Fault}
    (hd : c.desynced = false) (hdata : c.buffer.data = [])
    (hr : c.refill course = (some e, c', course')) :
    c.receiveDocument course = (.error e, { c' with desynced := false }) := by
  have hreceive := receive_of_fault (n := 1) (by rw [hdata]; exact Nat.zero_lt_one) hr
  have htake : ByteSource.take 1 (⟨c, course, 0⟩ : Reader) = (.error e, ⟨c', course', 0⟩) := by
    simp only [ByteSource.take, hreceive, hdata, List.length_nil, Nat.add_zero]
  rw [receiveDocument, if_neg (by simp [hd]), Wire.decodeDocument_of_error htake]
  simp

namespace Idle

theorem onLook (h : c.Idle) {look : Look} (hl : ∀ action ∈ look.peer, action = .read) :
    (c.onLook look).Idle := by
  obtain ⟨hincoming, hbroken, hends⟩ := c.socket.foldl_after_read look.peer hl
  rw [← socket_onLook] at hincoming hbroken hends
  refine ⟨?_, hbroken.trans h.broken, (Socket.isEnded_congr hends).trans h.isEnded⟩
  rw [Channel.unread, buffer_onLook, hincoming]
  exact h.unread

/-- A wait for bytes goes on until a look ends it, or its time runs out. -/
theorem refill : ∀ {course : Course} {c : Channel}, c.Idle → course.BringsNothing →
    (c.refill course).1 = some ((c.ending? course).getD .timeout)
  | [], c, h, _ => by
    have hpull := (c.pull_of_nothing (List.append_eq_nil_iff.1 h.unread).2).2.2 h.broken h.isEnded
    rw [Channel.refill, hpull]
    rfl
  | look :: course, c, h, hq => by
    obtain ⟨hlook, hq⟩ := List.forall_mem_cons.1 hq
    have h' := h.onLook hlook
    have hpull := ((c.onLook look).pull_of_nothing (List.append_eq_nil_iff.1 h'.unread).2).2.2
      h'.broken h'.isEnded
    rw [Channel.refill, ending?]
    rcases (c.onLook look).over? look with _ | e
    · let c' : Channel := { c.onLook look with buffer := .new }
      have hidle : c'.Idle := by
        refine ⟨?_, h'.broken, h'.isEnded⟩
        rw [Channel.unread, data_new]
        exact (List.append_eq_nil_iff.1 h'.unread).2
      have hrest := hidle.refill hq
      rw [ending?_congr course (show c'.raised = (c.onLook look).raised from rfl)] at hrest
      simp only [hpull, if_true]
      exact hrest
    · rfl

/-- A call for a message comes to no more than a wait. -/
theorem receiveDocument (h : c.Idle) (hd : c.desynced = false) (hq : course.BringsNothing) :
    (c.receiveDocument course).1 = .error ((c.ending? course).getD .timeout) ∧
      (c.receiveDocument course).2.unread = [] ∧
      (c.receiveDocument course).2.desynced = false := by
  obtain ⟨looks, hlooks, hheard⟩ := c.heard_handed course
  have hbytes := hheard.bytes
  rw [h.unread, hq.arrivals hlooks] at hbytes
  have hr : c.refill course = (some ((c.ending? course).getD .timeout), (c.refill course).2) :=
    Prod.ext (h.refill hq) rfl
  have hcall := receiveDocument_of_refill hd (List.append_eq_nil_iff.1 h.unread).1 hr
  refine ⟨by rw [hcall], (List.append_eq_nil_iff.1 hbytes).2, by rw [hcall]⟩

end Idle

/-! ## Channels on which there is something -/

theorem over?_of_startsInTime {look : Look} (h : Course.StartsInTime (look :: course)) :
    c.over? look = none := by
  obtain ⟨hexpired, hlate⟩ := h look rfl
  simp [over?, hexpired, hlate]

theorem pull_ready (hi : c.socket.incoming ≠ []) :
    c.pull.1 ≠ .blocked ∧ c.pull.1.fault? = none ∧ c.pull.2.buffer.data ≠ [] := by
  have hunread := c.unread_pull
  obtain ⟨bytes, buffer, hp⟩ := pull_of_incoming hi
  rw [hp] at hunread ⊢
  refine ⟨by simp, rfl, fun hnone => ?_⟩
  -- all that was at the socket would still be there
  have hlen := congrArg List.length hunread
  have hpos := List.length_pos_iff.2 hi
  simp only [unread, hnone, List.nil_append, List.length_drop, Buffer.defaultCapacity] at hlen
  omega

/-- At the first look the bytes at the socket come in. -/
theorem refill_ready (hi : c.socket.incoming ≠ []) (ht : course.StartsInTime) :
    ∃ c' course', c.refill course = (none, c', course') ∧ c'.buffer.data ≠ [] := by
  cases course with
  | nil =>
    obtain ⟨-, hfault, hdata⟩ := pull_ready hi
    exact ⟨c.pull.2, [], by simp only [refill, hfault], hdata⟩
  | cons look course =>
    have hi' : (c.onLook look).socket.incoming ≠ [] := by
      rw [socket_onLook, Socket.incoming_foldl_after]
      exact List.append_ne_nil_of_left_ne_nil hi _
    obtain ⟨hblocked, hfault, hdata⟩ := pull_ready hi'
    refine ⟨(c.onLook look).pull.2, course, ?_, hdata⟩
    simp only [refill, over?_of_startsInTime ht, if_neg hblocked, hfault]

/-- A call in time hands out a first byte if there is one. -/
theorem taken_of_ready (h : c.unread ≠ []) (ht : course.StartsInTime) :
    0 < (Wire.decodeDocument (σ := Reader) ⟨c, course, 0⟩).2.taken := by
  have hone : (c.receive 1 course).1.2 = none := by
    by_cases hdata : 1 ≤ c.buffer.data.length
    · rw [receive_of_le hdata]
    · have hshort := Nat.lt_of_not_le hdata
      have hnone : c.buffer.data = [] := List.length_eq_zero_iff.1 (Nat.lt_one_iff.1 hshort)
      have hi : c.socket.incoming ≠ [] := by
        rwa [unread, hnone, List.nil_append] at h
      obtain ⟨c', course', hr, hdata'⟩ := refill_ready hi ht
      rw [receive_of_refill hshort hr, hnone]
      dsimp only [List.length_nil]
      rw [receive_of_le (List.length_pos_iff.2 hdata')]
  rcases hreceive : c.receive 1 course with ⟨⟨bytes, fault⟩, c', course'⟩
  obtain rfl : fault = none := by rw [← hone, hreceive]
  have hlen := length_of_receive hreceive
  have htake : ByteSource.take 1 (⟨c, course, 0⟩ : Reader) = (.ok bytes, ⟨c', course', 1⟩) := by
    simp only [ByteSource.take, hreceive, hlen, Nat.zero_add]
  have hquiet : Wire.Keeps Reader.Quiet ⟨c', course', 1⟩ (ByteSource.take 1) ⟨c, course, 0⟩ := by
    unfold Wire.Keeps
    rw [htake]
    exact kept_quiet.refl _
  exact (kept_quiet.decodeDocument hquiet).taken

/-- A call in time finds the end of the stream if that is all there is. -/
theorem receiveDocument_of_ended (hd : c.desynced = false) (hu : c.unread = [])
    (he : c.socket.broken = true ∨ c.socket.isEnded = true) (hq : course.BringsNothing)
    (ht : course.StartsInTime) :
    (c.receiveDocument course).1 = .error (if c.socket.broken then .reset else .closed) := by
  have hpull (c : Channel) (hi : c.socket.incoming = [])
      (he : c.socket.broken = true ∨ c.socket.isEnded = true) : c.pull.1 ≠ .blocked ∧
        c.pull.1.fault? = some (if c.socket.broken then .reset else .closed) := by
    obtain ⟨hbroken, hended, -⟩ := c.pull_of_nothing hi
    rcases hb : c.socket.broken with _ | _
    · rw [hended hb (he.resolve_left (by simp [hb]))]
      exact ⟨by simp, rfl⟩
    · rw [hbroken hb]
      exact ⟨by simp, rfl⟩
  obtain ⟨hdata, hi⟩ := List.append_eq_nil_iff.1 hu
  have hr : (c.refill course).1 = some (if c.socket.broken then .reset else .closed) := by
    cases course with
    | nil => exact (hpull c hi he).2
    | cons look course =>
      obtain ⟨hincoming, hbroken, hends⟩ :=
        c.socket.foldl_after_read look.peer (hq look List.mem_cons_self)
      rw [← socket_onLook] at hincoming hbroken hends
      have hlook := hpull (c.onLook look) (hincoming.trans hi)
        (by rwa [hbroken, Socket.isEnded_congr hends])
      simp only [refill, over?_of_startsInTime ht, if_neg hlook.1]
      rw [hlook.2, hbroken]
  rw [receiveDocument_of_refill hd hdata (Prod.ext hr rfl)]

/-! ## What a call fails for -/

theorem stops_pull {e : Fault} (h : c.pull.1.fault? = some e) (ending : Option Fault) :
    e.Stops ending := by
  unfold Fault.Stops
  rcases hp : c.pull.1 with _ | _ | _ | _ <;> rw [hp] at h <;> simp [ReadOutcome.fault?] at h <;>
    simp [← h]

theorem stops_over {look : Look} {e : Fault} (h : c.over? look = some e) :
    e.Stops (some e) := by
  unfold over? at h
  unfold Fault.Stops
  split at h
  · simp [← Option.some.inj h]
  · split at h
    · simp [← Option.some.inj h]
    · simp at h

/-- A wait ends for a reason that its looks give, or leaves these to the waits behind it. -/
theorem stops_refill : ∀ (course : Course) (c : Channel),
    (∀ e, (c.refill course).1 = some e → e.Stops (c.ending? course)) ∧
      ((c.refill course).1 = none →
        (c.refill course).2.1.ending? (c.refill course).2.2 = c.ending? course)
  | [], c => ⟨fun e h => stops_pull h _, fun _ => rfl⟩
  | look :: course, c => by
    rw [refill, ending?]
    rcases ho : (c.onLook look).over? look with _ | e <;> dsimp only
    · have hraised : (c.onLook look).pull.2.raised = (c.onLook look).raised := by rw [pull_eq]
      rw [← ending?_congr course hraised]
      split
      · exact stops_refill course _
      · exact ⟨fun e h => stops_pull h _, fun _ => rfl⟩
    · refine ⟨fun e' h => ?_, fun h => by simp at h⟩
      rw [← Option.some.inj h]
      exact stops_over ho

theorem stops_receive (c : Channel) (n : Nat) (course : Course) :
    (∀ e, (c.receive n course).1.2 = some e → e.Stops (c.ending? course)) ∧
      ((c.receive n course).1.2 = none →
        (c.receive n course).2.1.ending? (c.receive n course).2.2 = c.ending? course) := by
  obtain ⟨hstops, hpasses⟩ := stops_refill course c
  by_cases hn : n ≤ c.buffer.data.length
  · rw [receive_of_le hn]
    exact ⟨fun e h => by simp at h, fun _ => ending?_congr course rfl⟩
  · rw [Nat.not_le] at hn
    rcases hr : c.refill course with ⟨_ | e, c', course'⟩ <;> rw [hr] at hstops hpasses
    · have := prospect_refill_lt course hr
      have hrest := stops_receive c' (n - c.buffer.data.length) course'
      rw [hpasses rfl] at hrest
      rw [receive_of_refill hn hr]
      exact hrest
    · rw [receive_of_fault hn hr]
      refine ⟨fun e' h => hstops e' h, fun h => by simp at h⟩
termination_by c.prospect course

/-- A call for a message fails for a reason that its looks give, or because the message is
malformed. -/
theorem stops_decodeDocument {e : Fault} {r : Reader}
    (h : Wire.decodeDocument (σ := Reader) ⟨c, course, 0⟩ = (.error e, r)) :
    (∃ cause, e = .malformed cause) ∨ e.Stops (c.ending? course) := by
  have htake (n : Nat) (r : Reader) (hr : r.channel.ending? r.course = c.ending? course) :
      Wire.Upholds (fun r : Reader => r.channel.ending? r.course = c.ending? course)
        (fun e => (∃ cause, e = .malformed cause) ∨ e.Stops (c.ending? course))
        (ByteSource.take n) r := by
    obtain ⟨hstops, hpasses⟩ := stops_receive r.channel n r.course
    rw [hr] at hstops hpasses
    rcases hreceive : r.channel.receive n r.course with ⟨⟨bytes, _ | e⟩, c', course'⟩ <;>
      rw [hreceive] at hstops hpasses
    · have htaken : ByteSource.take n r = (.ok bytes, ⟨c', course', r.taken + bytes.length⟩) := by
        simp only [ByteSource.take, hreceive]
      refine ⟨fun h => ?_, fun h => ?_⟩ <;> rw [htaken, Prod.mk.injEq] at h
      · rw [← h.2]
        exact hpasses rfl
      · simp at h
    · have htaken : ByteSource.take n r = (.error e, ⟨c', course', r.taken + bytes.length⟩) := by
        simp only [ByteSource.take, hreceive]
      refine ⟨fun h => ?_, fun h => ?_⟩ <;> rw [htaken, Prod.mk.injEq] at h
      · simp at h
      · rw [← Except.error.inj h.1]
        exact .inr (hstops e rfl)
  exact (Wire.upholds_decodeDocument htake (fun cause => .inl ⟨cause, rfl⟩) rfl).error h

/-- A call in time that finds bytes receives a message, or fails after it has handed some out. -/
theorem receiveDocument_of_ready (hd : c.desynced = false) (h : c.unread ≠ [])
    (hq : course.BringsNothing) (ht : course.StartsInTime) :
    (∃ t, (c.receiveDocument course).1 = .ok t) ∨
      ∃ e, (c.receiveDocument course).1 = .error e ∧
        ((∃ cause, e = .malformed cause) ∨ e.Stops (c.ending? course)) ∧
        (c.receiveDocument course).2.desynced = true ∧
        ∃ part, part ≠ [] ∧ part ++ (c.receiveDocument course).2.unread = c.unread := by
  have htaken := taken_of_ready h ht
  obtain ⟨looks, hlooks, hheard⟩ := c.heard_handed course
  have hbytes := hheard.bytes
  have hrecorded := receiveDocument_recorded hd course
  rw [hq.arrivals hlooks, List.append_nil] at hbytes
  rcases hr : Wire.decodeDocument (σ := Reader) ⟨c, course, 0⟩ with ⟨e | t, r⟩
  · have hcall : c.receiveDocument course = (.error e, { r.channel with desynced := true }) := by
      rw [hr] at htaken
      rw [receiveDocument, if_neg (by simp [hd]), hr]
      simp [htaken]
    refine .inr ⟨e, by rw [hcall], stops_decodeDocument hr, by rw [hcall], c.handed course, ?_,
      hbytes⟩
    rw [hcall, Prod.mk.injEq] at hrecorded
    have hdesynced := congrArg Channel.desynced hrecorded.2
    intro hnone
    simp [hnone] at hdesynced
  · refine .inl ⟨t, ?_⟩
    rw [receiveDocument, if_neg (by simp [hd]), hr]

end Channel

namespace Subscription

variable {s : Subscription} {now : Instant} {course : Course}

theorem fitted_perform (h : s.channel.Fitted) (step : Step) : (s.perform step).channel.Fitted := by
  cases step with
  | get now course => exact h.perform (.receiveDocument _)
  | setTimeout timeout => exact h
  | raise raised => exact h.of_buffer rfl
  | peer action => exact h.of_buffer rfl

/-- Whatever happens to a subscription, its buffer stays in order. -/
theorem fitted_run : ∀ (steps : List Step) {s : Subscription}, s.channel.Fitted →
    (s.run steps).channel.Fitted
  | [], _, h => h
  | step :: steps, _, h => fitted_run steps (fitted_perform h step)

/-- Events, or the reason why there are none, can be had where bytes are unread, be it in the
buffer or at the socket, or the stream has ended. -/
theorem hasEvents_iff (h : s.channel.buffer.Sound) : s.hasEvents = true ↔
    s.channel.unread ≠ [] ∨ s.channel.socket.broken = true ∨ s.channel.socket.isEnded = true := by
  have hbuffered : s.channel.hasBuffered = true ↔ s.channel.buffer.data ≠ [] := by
    have hread := h.read_le
    have hlen := h.length_data
    rw [Buffer.length] at hlen
    rw [← List.length_pos_iff, hlen]
    simp only [Channel.hasBuffered, Buffer.isEmpty, Bool.not_eq_true', beq_eq_false_iff_ne]
    omega
  have hpending : (!s.channel.socket.incoming.isEmpty) = true ↔ s.channel.socket.incoming ≠ [] := by
    simp
  rw [hasEvents, Bool.or_eq_true, hbuffered, Channel.isReadable, Socket.isReadable, Bool.or_eq_true,
    Bool.or_eq_true, hpending, Channel.unread]
  simp only [ne_eq, List.append_eq_nil_iff]
  tauto

theorem idle_of_not_hasEvents (h : s.channel.buffer.Sound) (hn : s.hasEvents = false) :
    s.channel.Idle := by
  have hiff := hasEvents_iff h
  simp only [hn, Bool.false_eq_true, false_iff, not_or, ne_eq, not_not, Bool.not_eq_true] at hiff
  exact ⟨hiff.1, hiff.2.1, hiff.2.2⟩

/-- Whether a subscription that is told to have no events leaves a call, during which nothing comes
in, to run out of time. -/
def ForetellsTimeouts : Prop :=
  ∀ (settings : SubscriptionSettings) (socket : Socket) (prior : List Step) (now : Instant)
    (course : Course),
    let s := (new settings socket).run prior
    s.channel.desynced = false → s.isExpired now = false → course.BringsNothing →
      course.StartsInTime → s.hasEvents = false → (s.get now course).1 = .error .timeout

/-- A call that waits long enough can be interrupted. -/
theorem not_foretellsTimeouts : ¬ForetellsTimeouts := by
  intro h
  let s : Subscription := new {} (.connected none)
  let course : Course := [{}, { wish := some true, late := true }]
  have hq : course.BringsNothing := by simp [course, Course.BringsNothing]
  have hidle : s.channel.Idle := idle_of_not_hasEvents (Channel.fitted_new _).sound rfl
  have htimeout := h {} (.connected none) [] 0 course rfl (by decide) hq
    (by simp [course, Course.StartsInTime]) rfl
  rw [show (new {} (.connected none)).run [] = s from rfl, get_of_isExpired (by decide),
    (hidle.receiveDocument rfl hq).1] at htimeout
  exact absurd htimeout (by decide)

/-- A subscription that is told to have no events makes a call wait to its end and takes nothing;
one that is told to have some does not. So the call comes to an event, to the reason why there is
none, or it is out of time, or interrupted, with an event that was cut off. -/
theorem hasEvents_foretells (settings : SubscriptionSettings) (socket : Socket)
    (prior : List Step) (now : Instant) (course : Course) :
    let s := (new settings socket).run prior
    let result := (s.get now course).1
    let s' := (s.get now course).2
    s.channel.desynced = false → s.isExpired now = false → course.BringsNothing →
      course.StartsInTime →
      (s.hasEvents = true ↔ s.channel.buffer.data ≠ [] ∨ s.channel.socket.incoming ≠ [] ∨
        s.channel.socket.broken = true ∨ s.channel.socket.isEnded = true) ∧
      (s.hasEvents = false →
        result = .error (if s.channel.ending? course = some .interrupted then .interrupted
          else .timeout) ∧
        s'.channel.unread = s.channel.unread ∧ s'.channel.desynced = false) ∧
      (s.hasEvents = true →
        (∃ e, result = .ok e) ∨ (∃ cause, result = .error (.malformed cause)) ∨
          result = .error .closed ∨ result = .error .reset ∨
          (result = .error .timeout ∨ result = .error .interrupted ∧
              s.channel.ending? course = some .interrupted) ∧
            s'.channel.desynced = true ∧
            ∃ part, part ≠ [] ∧ part ++ s'.channel.unread = s.channel.unread) := by
  intro s result s' hd he hq ht
  have hfitted : s.channel.Fitted := fitted_run prior ((Channel.fitted_new socket).of_buffer rfl)
  have hiff := hasEvents_iff hfitted.sound
  have hget := get_of_isExpired he course
  have hresult : result = (s.channel.receiveDocument course).1.bind Event.ofDocument := by
    simp only [result, hget]
  have hchannel : s'.channel = (s.channel.receiveDocument course).2 := by
    simp only [s', hget]
  rw [hresult, hchannel]
  refine ⟨?_, fun hn => ?_, fun hn => ?_⟩
  · rw [hiff, Channel.unread]
    simp only [ne_eq, List.append_eq_nil_iff]
    tauto
  · have hidle := idle_of_not_hasEvents hfitted.sound hn
    obtain ⟨hfails, hunread, hdesynced⟩ := hidle.receiveDocument hd hq
    rw [hfails, hunread, hidle.unread, Channel.ending?_getD]
    exact ⟨rfl, rfl, hdesynced⟩
  · by_cases hu : s.channel.unread = []
    · have hended := (hiff.1 hn).resolve_left (not_not.2 hu)
      rw [Channel.receiveDocument_of_ended hd hu hended hq ht]
      split
      · exact .inr (.inr (.inr (.inl rfl)))
      · exact .inr (.inr (.inl rfl))
    · rcases Channel.receiveDocument_of_ready hd hu hq ht with ⟨t, hok⟩ | ⟨e, herror, hcause, hcut⟩
      · rw [hok]
        rcases Event.ofDocument_cases t with ⟨event, hevent, -⟩ | ⟨cause, hcause⟩
        · exact .inl ⟨event, hevent⟩
        · exact .inr (.inl ⟨cause, hcause⟩)
      · rw [herror]
        rcases hcause with ⟨cause, rfl⟩ | rfl | rfl | rfl | ⟨rfl, hending⟩
        · exact .inr (.inl ⟨cause, rfl⟩)
        · exact .inr (.inr (.inl rfl))
        · exact .inr (.inr (.inr (.inl rfl)))
        · exact .inr (.inr (.inr (.inr ⟨.inl rfl, hcut⟩)))
        · exact .inr (.inr (.inr (.inr ⟨.inr ⟨rfl, hending⟩, hcut⟩)))

/-- Nothing, the start of an event, and a peer that has closed. -/
theorem hasEvents_foretells_sample :
    let idle := (new {} (.connected none)).run []
    let cut := (new {} (.connected none)).run [.peer (.write [1])]
    let ended := (new {} (.connected none)).run [.peer .close]
    (idle.hasEvents = false ∧ (idle.get 0 []).1 = .error .timeout ∧
      (idle.get 0 []).2.channel.unread = idle.channel.unread ∧
      (idle.get 0 []).2.channel.desynced = false) ∧
    (cut.hasEvents = true ∧
      ((∃ e, (cut.get 0 []).1 = .ok e) ∨ (∃ cause, (cut.get 0 []).1 = .error (.malformed cause)) ∨
        (cut.get 0 []).1 = .error .closed ∨ (cut.get 0 []).1 = .error .reset ∨
        ((cut.get 0 []).1 = .error .timeout ∨ (cut.get 0 []).1 = .error .interrupted ∧
            cut.channel.ending? [] = some .interrupted) ∧
          (cut.get 0 []).2.channel.desynced = true ∧
          ∃ part, part ≠ [] ∧ part ++ (cut.get 0 []).2.channel.unread = cut.channel.unread)) ∧
    (ended.hasEvents = true ↔ ended.channel.buffer.data ≠ [] ∨
      ended.channel.socket.incoming ≠ [] ∨ ended.channel.socket.broken = true ∨
      ended.channel.socket.isEnded = true) := by
  have hquiet : Course.BringsNothing [] := by simp [Course.BringsNothing]
  have hstarts : Course.StartsInTime [] := by simp [Course.StartsInTime]
  obtain ⟨-, hidle, -⟩ := hasEvents_foretells {} (.connected none) [] 0 [] rfl (by decide) hquiet
    hstarts
  obtain ⟨-, -, hcut⟩ := hasEvents_foretells {} (.connected none) [.peer (.write [1])] 0 [] rfl
    (by decide) hquiet hstarts
  obtain ⟨hended, -, -⟩ := hasEvents_foretells {} (.connected none) [.peer .close] 0 [] rfl
    (by decide) hquiet hstarts
  exact ⟨⟨by decide, hidle (by decide)⟩, ⟨by decide, hcut (by decide)⟩, hended⟩

end Subscription

end Treegram
