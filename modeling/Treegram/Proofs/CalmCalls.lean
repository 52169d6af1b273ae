import Treegram.Proofs.Buffers
import Treegram.Proofs.Listening

/-!
# Messages on a channel and in a slice

While nothing more comes in, a call on a channel can hand out what is in the buffer and, if it has
any time, what is at the socket. It hands that out in order, wherever the buffer ends
(`Calm.receive`). So reading a message there follows reading it from those bytes as a slice, and
where the slice ends the call fails for want of more (`receiveDocument_calm`).

A look at which bytes are there ends no call. So what a call fails for is what the looks come upon
that find none (`Calm.refill_of_nothing`): the end of the stream, or the end of its time.
-/

namespace Treegram

namespace Channel

/-- The bytes that can be handed out during a calm call. -/
def visible (c : Channel) (expired : Bool) : Bytes :=
  if expired then c.buffer.data else c.unread

/-- Why one of the looks ends the call, if one does. -/
def ending? (c : Channel) : Course → Option Fault
  | [] => none
  | look :: course =>
    match (c.onLook look).over? look with
    | some e => some e
    | none => (c.onLook look).ending? course

/-- How many looks it takes to find all that is at the socket, the end of the stream included. -/
def looks (c : Channel) : Nat :=
  (c.socket.incoming.length + (Buffer.defaultCapacity - 1)) / Buffer.defaultCapacity +
    if c.socket.broken || c.socket.isEnded then 1 else 0

/-- Why a calm call fails that needs more than the visible bytes. -/
def shortage (c : Channel) (expired : Bool) (course : Course) : Fault :=
  if expired then .timeout
  else if c.socket.broken then .reset
  else if c.socket.isEnded then .closed
  else (c.ending? course).getD .timeout

/-- Whether nothing comes in during the call, and either its time is over when it starts, or nothing
ends it before all that is at the socket was found. -/
structure Calm (c : Channel) (expired : Bool) (course : Course) : Prop where
  quiet : ∀ look ∈ course, look.peer = []
  passed : expired = true → ∃ look rest, course = look :: rest ∧ look.expired = true
  lasting : expired = false → c.ending? (course.take c.looks) = none

/-- A call with all the time it takes is calm. -/
theorem calm_nil (c : Channel) : c.Calm false [] where
  quiet look h := by simp at h
  passed h := by simp at h
  lasting _ := by
    rw [List.take_nil]
    rfl

/-! ## Looks -/

theorem ending?_congr : ∀ (course : Course) {c d : Channel}, c.raised = d.raised →
    c.ending? course = d.ending? course
  | [], _, _, _ => rfl
  | look :: course, c, d, h => by
    have hr : (c.onLook look).raised = (d.onLook look).raised := by
      simp only [onLook, h]
    have ho : (c.onLook look).over? look = (d.onLook look).over? look := by
      simp only [over?, hr]
    rw [ending?, ending?, ho, ending?_congr course hr]

theorem onLook_of_quiet {c : Channel} {look : Look} (h : look.peer = []) :
    c.onLook look = { c with raised := look.wish.getD c.raised } := by
  rw [onLook, h]
  rfl

theorem pull_of_incoming {c : Channel} (h : c.socket.incoming ≠ []) :
    ∃ bytes buffer, c.pull = (.bytes bytes, { c with
      socket := { c.socket with incoming := c.socket.incoming.drop Buffer.defaultCapacity },
      buffer }) := by
  unfold pull
  rw [Socket.read, if_pos h]
  exact ⟨_, _, rfl⟩

theorem looks_of_incoming {c c' : Channel} (h : c.socket.incoming ≠ [])
    (hs : c'.socket =
      { c.socket with incoming := c.socket.incoming.drop Buffer.defaultCapacity }) :
    c.looks = c'.looks + 1 := by
  have hpos := List.length_pos_iff.2 h
  have hended : c'.socket.isEnded = c.socket.isEnded := by
    rw [hs]
    rfl
  have hbroken : c'.socket.broken = c.socket.broken := by rw [hs]
  have hlen : c'.socket.incoming.length = c.socket.incoming.length - Buffer.defaultCapacity := by
    rw [hs, List.length_drop]
  unfold looks
  rw [hended, hbroken, hlen]
  unfold Buffer.defaultCapacity
  omega

theorem looks_of_nothing {c : Channel} (h : c.socket.incoming = []) :
    c.looks = if c.socket.broken || c.socket.isEnded then 1 else 0 := by
  have hnone : (0 + (Buffer.defaultCapacity - 1)) / Buffer.defaultCapacity = 0 := by decide
  rw [looks, h, List.length_nil, hnone, Nat.zero_add]

theorem pull_of_nothing {c : Channel} (h : c.socket.incoming = []) :
    (c.socket.broken = true → c.pull.1 = .broken) ∧
    (c.socket.broken = false → c.socket.isEnded = true → c.pull.1 = .ended) ∧
    (c.socket.broken = false → c.socket.isEnded = false →
      c.pull = (.blocked, { c with buffer := .new })) := by
  unfold pull
  rw [Socket.read, if_neg (not_not.2 h)]
  refine ⟨fun hb => ?_, fun hb he => ?_, fun hb he => ?_⟩
  · rw [if_pos hb]
  · rw [hb, if_neg Bool.false_ne_true, if_pos he]
  · rw [hb, if_neg Bool.false_ne_true, he, if_neg Bool.false_ne_true]

/-! ## What is handed out -/

theorem receive_of_le {c : Channel} {n : Nat} (h : n ≤ c.buffer.data.length) (course : Course) :
    c.receive n course =
      ((c.buffer.data.take n, none), { c with buffer := (c.buffer.consume n).2 }, course) := by
  obtain ⟨htake, -⟩ := c.buffer.consume_take n
  rw [receive]
  rcases hb : c.buffer.consume n with ⟨bytes, buffer⟩
  rw [hb] at htake
  dsimp only at htake ⊢
  rw [if_pos (by rw [htake, List.length_take]; omega), htake]

section Refill

variable {c c' : Channel} {n : Nat} {course course' : Course} (h : c.buffer.data.length < n)

include h

theorem receive_of_fault {e : Fault} (hr : c.refill course = (some e, c', course')) :
    c.receive n course = ((c.buffer.data, some e), c', course') := by
  have htake := Buffer.consume_of_lt h
  rw [receive]
  rcases hb : c.buffer.consume n with ⟨bytes, buffer⟩
  rw [hb] at htake
  dsimp only at htake ⊢
  rw [htake, if_neg (Nat.ne_of_lt h)]
  split <;> rename_i hr' <;> rw [hr] at hr' <;> simp_all

theorem receive_of_refill (hr : c.refill course = (none, c', course')) :
    c.receive n course =
      let rest := c'.receive (n - c.buffer.data.length) course'
      ((c.buffer.data ++ rest.1.1, rest.1.2), rest.2) := by
  have htake := Buffer.consume_of_lt h
  rw [receive]
  rcases hb : c.buffer.consume n with ⟨bytes, buffer⟩
  rw [hb] at htake
  dsimp only at htake ⊢
  rw [htake, if_neg (Nat.ne_of_lt h)]
  split <;> rename_i hr' <;> rw [hr] at hr' <;> simp_all

end Refill

/-- Whether of `c` only bytes were handed out. -/
def Tapped (c c' : Channel) : Prop :=
  ∃ incoming, c'.socket = { c.socket with incoming }

theorem Tapped.trans {c c' c'' : Channel} (h : c.Tapped c') (h' : c'.Tapped c'') :
    c.Tapped c'' := by
  obtain ⟨b, hb⟩ := h
  obtain ⟨b', hb'⟩ := h'
  exact ⟨b', by rw [hb', hb]⟩

theorem Tapped.shortage {c c' : Channel} (h : c.Tapped c') {course course' : Course}
    (he : c'.ending? course' = c.ending? course) (expired : Bool) :
    c'.shortage expired course' = c.shortage expired course := by
  obtain ⟨b, hb⟩ := h
  unfold Channel.shortage
  rw [hb, he]
  rfl

/-- Whether a calm call on `c` that has come to `c'` stays calm, and would fail as before for want
of more. -/
structure Proceeds (expired : Bool) (c : Channel) (course : Course) (c' : Channel)
    (course' : Course) : Prop where
  calm : c'.Calm expired course'
  tapped : c.Tapped c'
  shortage : c'.shortage expired course' = c.shortage expired course
  socket : expired = true → c'.socket = c.socket

section Calls

variable {expired : Bool} {c c' c'' : Channel} {course course' course'' : Course}

theorem Proceeds.trans (h : Proceeds expired c course c' course')
    (h' : Proceeds expired c' course' c'' course'') : Proceeds expired c course c'' course'' where
  calm := h'.calm
  tapped := h.tapped.trans h'.tapped
  shortage := h'.shortage.trans h.shortage
  socket he := (h'.socket he).trans (h.socket he)

theorem Calm.setBuffer (h : c.Calm expired course) (buffer : Buffer) :
    Proceeds expired c course { c with buffer } course where
  calm.quiet := h.quiet
  calm.passed := h.passed
  calm.lasting he := by
    have hlooks : ({ c with buffer } : Channel).looks = c.looks := rfl
    rw [hlooks, ending?_congr _ (show ({ c with buffer } : Channel).raised = c.raised from rfl)]
    exact h.lasting he
  tapped := ⟨_, rfl⟩
  shortage := by
    have ht : c.Tapped { c with buffer } := ⟨_, rfl⟩
    exact ht.shortage (ending?_congr course rfl) expired
  socket _ := rfl

/-- A look at which bytes are there does not end the call. -/
theorem Calm.refill_of_incoming (h : c.Calm false course) (hi : c.socket.incoming ≠ []) :
    ∃ c' course', c.refill course = (none, c', course') ∧ c'.unread = c.socket.incoming ∧
      Proceeds false c course c' course' := by
  cases course with
  | nil =>
    obtain ⟨bytes, buffer, hp⟩ := pull_of_incoming hi
    refine ⟨c.pull.2, [], by rw [refill, hp]; rfl, c.unread_pull, ?_⟩
    rw [hp]
    exact ⟨⟨by simp, by simp, fun _ => by simp [ending?]⟩, ⟨_, rfl⟩, rfl, by simp⟩
  | cons look course =>
    have hlook := c.onLook_of_quiet (h.quiet look List.mem_cons_self)
    have hi' : (c.onLook look).socket.incoming ≠ [] := by
      rw [hlook]
      exact hi
    obtain ⟨bytes, buffer, hp⟩ := pull_of_incoming hi'
    have hunread := (c.onLook look).unread_pull
    have hs : (c.onLook look).socket = c.socket := by rw [hlook]
    have hlast := h.lasting rfl
    rw [hs] at hp
    have hlooks : c.looks = (c.onLook look).pull.2.looks + 1 :=
      looks_of_incoming hi (by rw [hp])
    rw [hlooks, List.take_succ_cons, ending?] at hlast
    split at hlast
    · simp at hlast
    · rename_i ho
      have hcongr (course : Course) : (c.onLook look).pull.2.ending? course =
          (c.onLook look).ending? course := ending?_congr course (by rw [hp])
      have htapped : c.Tapped (c.onLook look).pull.2 := ⟨_, by rw [hp]⟩
      refine ⟨(c.onLook look).pull.2, course, ?_, by rw [hunread, hs],
        ⟨⟨?_, by simp, fun _ => ?_⟩, htapped, htapped.shortage ?_ false, by simp⟩⟩
      · simp only [refill, ho, hp]
        rfl
      · exact fun look' hmem => h.quiet look' (List.mem_cons_of_mem look hmem)
      · rw [hcongr, hlast]
      · simp only [hcongr, ending?, ho]

/-- A look at which nothing is there finds the end of the stream or ends the call; or the peer is
idle, and it takes another look. -/
theorem Calm.refill_of_nothing : ∀ {course : Course} {c : Channel}, c.Calm false course →
    c.socket.incoming = [] → (c.refill course).1 = some (c.shortage false course)
  | [], c, _, hi => by
    obtain ⟨hbroken, hended, hopen⟩ := c.pull_of_nothing hi
    rw [refill, Channel.shortage, if_neg Bool.false_ne_true]
    rcases hb : c.socket.broken with _ | _
    · rcases he : c.socket.isEnded with _ | _
      · rw [hopen hb he]
        rfl
      · simp only [hended hb he]
        rfl
    · simp only [hbroken hb]
      rfl
  | look :: course, c, h, hi => by
    have hlook := c.onLook_of_quiet (h.quiet look List.mem_cons_self)
    have hs : (c.onLook look).socket = c.socket := by rw [hlook]
    obtain ⟨hbroken, hended, hopen⟩ := (c.onLook look).pull_of_nothing (by rw [hs, hi])
    rw [hs] at hbroken hended hopen
    have hlast := h.lasting rfl
    rw [looks_of_nothing hi] at hlast
    rw [refill, Channel.shortage, if_neg Bool.false_ne_true, ending?]
    rcases ho : (c.onLook look).over? look with _ | e
    · rcases hb : c.socket.broken with _ | _
      · rcases he : c.socket.isEnded with _ | _
        · let c' : Channel := { c.onLook look with socket := c.socket, buffer := .new }
          have hcalm : c'.Calm false course := by
            refine ⟨fun look' hmem => h.quiet look' (List.mem_cons_of_mem look hmem), by simp,
              fun _ => ?_⟩
            rw [looks_of_nothing (show c'.socket.incoming = [] from hi),
              show c'.socket = c.socket from rfl, hb, he]
            rfl
          have hrest := hcalm.refill_of_nothing hi
          rw [Channel.shortage, if_neg Bool.false_ne_true, hb, he,
            ending?_congr course (show c'.raised = (c.onLook look).raised from rfl)] at hrest
          simp only [hopen hb he, if_true]
          exact hrest
        · simp only [hended hb he]
          rfl
      · simp only [hbroken hb]
        rfl
    · -- the end of the stream would have been found, so the peer is idle
      have hidle : (c.socket.broken || c.socket.isEnded) = false := by
        by_contra hne
        rw [Bool.not_eq_false] at hne
        simp [hne, ending?, ho] at hlast
      obtain ⟨hb, he⟩ := Bool.or_eq_false_iff.1 hidle
      rw [hb, he]
      rfl

/-- A call with time left hands out the bytes that are there, the first ones first, and fails for
want of more. -/
theorem Calm.receive_lasting {c : Channel} {course : Course} (h : c.Calm false course) (n : Nat) :
    (n ≤ c.unread.length → ∃ c' course',
      c.receive n course = ((c.unread.take n, none), c', course') ∧
        c'.unread = c.unread.drop n ∧ Proceeds false c course c' course') ∧
    (c.unread.length < n → ∃ c' course',
      c.receive n course = ((c.unread, some (c.shortage false course)), c', course')) := by
  have hlen : c.unread.length = c.buffer.data.length + c.socket.incoming.length := by
    rw [unread, List.length_append]
  by_cases hn : n ≤ c.buffer.data.length
  · have htake : c.unread.take n = c.buffer.data.take n := List.take_append_of_le_length hn
    have hc := receive_of_le hn course
    rw [← htake] at hc
    refine ⟨fun _ => ⟨_, _, hc, ?_, h.setBuffer _⟩, fun h => by omega⟩
    show (c.buffer.consume n).2.data ++ c.socket.incoming = _
    rw [(c.buffer.consume_take n).2, unread, List.drop_append_of_le_length hn]
  · rw [Nat.not_le] at hn
    by_cases hi : c.socket.incoming = []
    · have hun : c.unread = c.buffer.data := by rw [unread, hi, List.append_nil]
      have hr : c.refill course =
          (some (c.shortage false course), (c.refill course).2.1, (c.refill course).2.2) := by
        rw [← h.refill_of_nothing hi]
      rw [receive_of_fault hn hr, hun]
      exact ⟨fun h => by omega, fun _ => ⟨_, _, rfl⟩⟩
    · obtain ⟨c', course', hr, hun, hp⟩ := h.refill_of_incoming hi
      have := prospect_refill_lt course hr
      obtain ⟨hle, hlt⟩ := hp.calm.receive_lasting (n - c.buffer.data.length)
      rw [hun, hp.shortage] at hlt
      rw [hun] at hle
      rw [receive_of_refill hn hr, hlen]
      constructor
      · intro h
        obtain ⟨c'', course'', hc, hun', hp'⟩ := hle (by omega)
        refine ⟨c'', course'', ?_, ?_, hp.trans hp'⟩
        · simp only [hc, unread, List.take_append, List.take_of_length_le (Nat.le_of_lt hn)]
        · rw [hun', unread, List.drop_append, List.drop_of_length_le (Nat.le_of_lt hn),
            List.nil_append]
      · intro h
        obtain ⟨c'', course'', hc⟩ := hlt (by omega)
        exact ⟨c'', course'', by simp only [hc, unread]⟩
termination_by c.prospect course

/-- A call whose time is over hands out the bytes in the buffer and does not look further. -/
theorem Calm.receive_expired (h : c.Calm true course) (n : Nat) :
    (n ≤ c.buffer.data.length → ∃ c' course',
      c.receive n course = ((c.buffer.data.take n, none), c', course') ∧
        c'.buffer.data = c.buffer.data.drop n ∧ Proceeds true c course c' course') ∧
    (c.buffer.data.length < n → ∃ c' course',
      c.receive n course = ((c.buffer.data, some .timeout), c', course')) := by
  refine ⟨fun hn => ⟨_, _, receive_of_le hn course, (c.buffer.consume_take n).2, h.setBuffer _⟩,
    fun hn => ?_⟩
  obtain ⟨look, rest, rfl, hlook⟩ := h.passed rfl
  have hr : c.refill (look :: rest) =
      (some .timeout, { c.onLook look with buffer := .new }, rest) := by
    simp only [refill, over?, if_pos hlook]
  exact ⟨_, _, receive_of_fault hn hr⟩

/-- In a calm call bytes that are there are handed out, the first ones first; for want of more it
fails. -/
theorem Calm.receive (h : c.Calm expired course) (n : Nat) :
    (n ≤ (c.visible expired).length → ∃ c' course',
      c.receive n course = (((c.visible expired).take n, none), c', course') ∧
        c'.visible expired = (c.visible expired).drop n ∧ Proceeds expired c course c' course') ∧
    ((c.visible expired).length < n → ∃ c' course',
      c.receive n course =
        ((c.visible expired, some (c.shortage expired course)), c', course')) := by
  cases expired
  · exact h.receive_lasting n
  · exact h.receive_expired n

end Calls

/-! ## Messages -/

/-- Whether the reader is in the calm call on `c` and can still hand out `b`. -/
structure Reader.Shows (expired : Bool) (c : Channel) (course : Course) (r : Reader) (b : Bytes) :
    Prop where
  visible : r.channel.visible expired = b
  proceeds : Proceeds expired c course r.channel r.course

theorem mirror_shows (expired : Bool) (c : Channel) (course : Course) :
    Wire.Mirror (Reader.Shows expired c course) (some (c.shortage expired course)) := by
  intro n r b h
  obtain ⟨hle, hlt⟩ := h.proceeds.calm.receive n
  rw [h.visible] at hle hlt
  rw [h.proceeds.shortage] at hlt
  rcases hb : Bytes.split? n b with _ | ⟨front, back⟩
  · have ht : ByteSource.take n b = (.error (.malformed .truncated), b) := by
      simp only [ByteSource.take, hb]
    obtain ⟨c', course', hc⟩ := hlt (Bytes.split?_eq_none.1 hb)
    refine ⟨fun h => ?_, fun h he => ?_, fun _ hl => ?_⟩
    · rw [ht] at h
      simp at h
    · rw [ht, Prod.mk.injEq] at h
      exact absurd (Except.error.inj h.1).symm he
    · rw [← Option.some.inj hl]
      simp only [ByteSource.take, hc]
      exact ⟨_, rfl⟩
  · obtain ⟨rfl, hn⟩ := Bytes.split?_eq_some.1 hb
    have ht : ByteSource.take n (front ++ back) = (.ok front, back) := Wire.take_append front _ hn
    obtain ⟨c', course', hc, hv, hp⟩ := hle (by rw [List.length_append]; omega)
    rw [List.take_left' hn] at hc
    rw [List.drop_left' hn] at hv
    refine ⟨fun {a t'} h' => ?_, fun h _ => ?_, fun h _ => ?_⟩
    · rw [ht, Prod.mk.injEq, Except.ok.injEq] at h'
      obtain ⟨rfl, rfl⟩ := h'
      simp only [ByteSource.take, hc]
      exact ⟨_, rfl, hv, h.proceeds.trans hp⟩
    · rw [ht] at h
      simp at h
    · rw [ht] at h
      simp at h

section Messages

variable {c : Channel} {expired : Bool} {course : Course}

theorem Calm.shows (h : c.Calm expired course) :
    Reader.Shows expired c course ⟨c, course, 0⟩ (c.visible expired) :=
  ⟨rfl, h, ⟨_, rfl⟩, rfl, fun _ => rfl⟩

/-- A calm call hands out bytes for a message if there are any. -/
theorem Calm.taken_decodeDocument (h : c.Calm expired course) :
    0 < (Wire.decodeDocument (σ := Reader) ⟨c, course, 0⟩).2.taken ↔ c.visible expired ≠ [] := by
  obtain ⟨hle, hlt⟩ := h.receive 1
  by_cases hv : c.visible expired = []
  · obtain ⟨c', course', hc⟩ := hlt (by rw [hv]; exact Nat.zero_lt_one)
    have htake : ByteSource.take 1 (⟨c, course, 0⟩ : Reader) =
        (.error (c.shortage expired course), ⟨c', course', 0⟩) := by
      simp only [ByteSource.take, hc, hv, List.length_nil, Nat.add_zero]
    rw [Wire.decodeDocument_of_error htake]
    exact ⟨fun h => absurd h (Nat.lt_irrefl 0), fun h => absurd hv h⟩
  · have hpos := List.length_pos_iff.2 hv
    obtain ⟨c', course', hc, -⟩ := hle hpos
    have hlen : ((c.visible expired).take 1).length = 1 := by
      rw [List.length_take]
      omega
    have htake : ByteSource.take 1 (⟨c, course, 0⟩ : Reader) =
        (.ok ((c.visible expired).take 1), ⟨c', course', 1⟩) := by
      simp only [ByteSource.take, hc, hlen, Nat.zero_add]
    have hone : Wire.Keeps Reader.Quiet ⟨c', course', 1⟩ (ByteSource.take 1) ⟨c, course, 0⟩ := by
      unfold Wire.Keeps
      rw [htake]
      exact kept_quiet.refl _
    exact ⟨fun _ => hv, fun _ => (kept_quiet.decodeDocument hone).taken⟩

/-- A message that the visible bytes hold is received, and the bytes behind it are left. -/
theorem Calm.receiveDocument_of_ok {t : Tree Label} {rest : Bytes} (hcalm : c.Calm expired course)
    (hc : c.desynced = false) (h : Wire.decodeDocument (c.visible expired) = (.ok t, rest)) :
    ∃ c', c.receiveDocument course = (.ok t, c') ∧ c'.visible expired = rest ∧
      c'.desynced = false ∧ c.Tapped c' ∧ (expired = true → c'.socket = c.socket) := by
  obtain ⟨r, hr, hR⟩ := ((mirror_shows expired c course).decodeDocument hcalm.shows).ok h
  have hq := quiet_decodeDocument ⟨c, course, 0⟩
  rw [hr] at hq
  refine ⟨r.channel, ?_, hR.visible, hq.silent.desynced.trans hc, hR.proceeds.tapped,
    hR.proceeds.socket⟩
  rw [receiveDocument, if_neg (by simp [hc]), hr]

/-- A message that the visible bytes do not hold is not received, for the same reason or for want
of more; the channel is out of step if there are any. -/
theorem Calm.receiveDocument_of_error {e : Fault} {rest : Bytes} (hcalm : c.Calm expired course)
    (hc : c.desynced = false) (h : Wire.decodeDocument (c.visible expired) = (.error e, rest)) :
    ∃ c', c.receiveDocument course =
        (.error (if e = .malformed .truncated then c.shortage expired course else e), c') ∧
      (c'.desynced = true ↔ c.visible expired ≠ []) := by
  have hf := (mirror_shows expired c course).decodeDocument hcalm.shows
  have ht := hcalm.taken_decodeDocument
  obtain ⟨r, hr⟩ : ∃ r : Reader, Wire.decodeDocument (σ := Reader) ⟨c, course, 0⟩ =
      (.error (if e = .malformed .truncated then c.shortage expired course else e), r) := by
    by_cases he : e = .malformed .truncated
    · rw [if_pos he]
      exact hf.short (by rw [← he]; exact h) rfl
    · rw [if_neg he]
      exact hf.error h he
  rw [hr] at ht
  refine ⟨_, by rw [receiveDocument, if_neg (by simp [hc]), hr], ?_⟩
  rw [decide_eq_true_iff]
  exact ht

end Messages

/-- Receiving a message in a calm call agrees with reading it from the visible bytes, and depends
on nothing but these and the reason why there are no more. -/
theorem receiveDocument_calm :
    (∀ (c : Channel) (expired : Bool) (course : Course), c.desynced = false →
      c.Calm expired course →
      (∀ t rest, Wire.decodeDocument (c.visible expired) = (.ok t, rest) →
        ∃ c', c.receiveDocument course = (.ok t, c') ∧ c'.visible expired = rest ∧
          c'.desynced = false ∧ (expired = true → c'.socket = c.socket)) ∧
      ∀ e rest, Wire.decodeDocument (c.visible expired) = (.error e, rest) →
        ∃ c', c.receiveDocument course =
            (.error (if e = .malformed .truncated then c.shortage expired course else e), c') ∧
          (c'.desynced = true ↔ c.visible expired ≠ [])) ∧
    ∀ (c d : Channel) (expired : Bool) (course course' : Course), c.desynced = false →
      d.desynced = false → c.Calm expired course → d.Calm expired course' →
      c.visible expired = d.visible expired →
      c.shortage expired course = d.shortage expired course' →
      ∃ result c' d', c.receiveDocument course = (result, c') ∧
        d.receiveDocument course' = (result, d') ∧ c'.desynced = d'.desynced ∧
        (result.isOk = true → c'.visible expired = d'.visible expired) := by
  refine ⟨fun c expired course hc h => ⟨fun t rest ht => ?_,
      fun e rest he => h.receiveDocument_of_error hc he⟩,
    fun c d expired course course' hc hd h h' hv hs => ?_⟩
  · obtain ⟨c', hc', hv, hd, -, hs⟩ := h.receiveDocument_of_ok hc ht
    exact ⟨c', hc', hv, hd, hs⟩
  rcases hr : Wire.decodeDocument (c.visible expired) with ⟨e | t, rest⟩
  · obtain ⟨c', hc', hcd⟩ := h.receiveDocument_of_error hc hr
    rw [hv] at hr hcd
    obtain ⟨d', hd', hdd⟩ := h'.receiveDocument_of_error hd hr
    rw [← hs] at hd'
    exact ⟨_, c', d', hc', hd', Bool.eq_iff_iff.2 (hcd.trans hdd.symm), by simp [Except.isOk,
      Except.toBool]⟩
  · obtain ⟨c', hc', hcv, hcd, -⟩ := h.receiveDocument_of_ok hc hr
    rw [hv] at hr
    obtain ⟨d', hd', hdv, hdd, -⟩ := h'.receiveDocument_of_ok hd hr
    exact ⟨_, c', d', hc', hd', hcd.trans hdd.symm, fun _ => hcv.trans hdv.symm⟩

theorem decodeDocument_nil :
    Wire.decodeDocument ([] : Bytes) = (.error (.malformed .truncated), []) :=
  Wire.decodeDocument_of_error rfl

/-- A message with one byte behind it is received alike from the socket and from the buffer; the
wait for what is missing of one runs out or is interrupted. -/
theorem receiveDocument_calm_sample :
    ∃ c d e : Channel, c.buffer.data = [] ∧ d.socket.incoming = [] ∧ e.socket.incoming ≠ [] ∧
      (∃ t c', c.receiveDocument [] = (.ok t, c') ∧ c'.visible false = [255] ∧
        c'.desynced = false ∧ (false = true → c'.socket = c.socket)) ∧
      (∃ result c' d', c.receiveDocument [] = (result, c') ∧
        d.receiveDocument [] = (result, d') ∧ c'.desynced = d'.desynced ∧
        (result.isOk = true → c'.visible false = d'.visible false)) ∧
      (∃ c', e.receiveDocument [] = (.error .timeout, c') ∧
        (c'.desynced = true ↔ e.visible false ≠ [])) ∧
      (∃ c', e.receiveDocument [{ expired := true }] = (.error .timeout, c') ∧
        (c'.desynced = true ↔ e.visible true ≠ [])) ∧
      ∃ c', e.receiveDocument [{}, { wish := some true }, { late := true }] =
          (.error .interrupted, c') ∧
        (c'.desynced = true ↔ e.visible false ≠ []) := by
  let t : Tree Label := ⟨.element "a" "", .nil⟩
  have ht : t.Sendable := (t.encode_eq_ok_iff.1 rfl).1
  let m : Bytes := t.units.flatMap WireUnit.bytes
  have hm (rest : Bytes) : Wire.decodeDocument (m ++ rest) = (.ok ⟨.document, .single t⟩, rest) :=
    Wire.decodeDocument_units ht (fun h => absurd h (by decide)) rest
  have hcut : ∃ rest, Wire.decodeDocument (m.take 1) = (.error (.malformed .truncated), rest) := by
    have h := hm []
    rw [List.append_nil, ← List.take_append_drop 1 m] at h
    exact ⟨_, Prod.ext (Wire.decodeDocument_cut h (by decide)) rfl⟩
  obtain ⟨rest, hcut⟩ := hcut
  let c : Channel := new { Socket.connected none with incoming := m ++ [255] }
  let d : Channel := { new (.connected none) with buffer := (Buffer.new.fill (m ++ [255])).2 }
  let e : Channel := new { Socket.connected none with incoming := m.take 1 }
  have hc : c.visible false = m ++ [255] := by simp [visible, unread, c, new, data_new]
  have hd : d.visible false = m ++ [255] := by
    simp only [visible, unread, d, Bool.false_eq_true, if_false]
    rw [Buffer.data_fill_new (by decide)]
    exact List.append_nil _
  have he : e.visible false = m.take 1 := by simp [visible, unread, e, new, data_new]
  have he' : e.visible true = [] := data_new
  have hexpired : e.Calm true [{ expired := true }] :=
    ⟨by simp, fun _ => ⟨_, _, rfl, rfl⟩, by simp⟩
  have hlate : e.Calm false [{}, { wish := some true }, { late := true }] :=
    ⟨by simp, by simp, fun _ => by decide⟩
  obtain ⟨hcalm, hsplit⟩ := receiveDocument_calm
  refine ⟨c, d, e, data_new, rfl, by decide, ?_, ?_, ?_, ?_, ?_⟩
  · exact ⟨_, (hcalm c false [] rfl c.calm_nil).1 _ _ (by rw [hc]; exact hm _)⟩
  · exact hsplit c d false [] [] rfl rfl c.calm_nil d.calm_nil (by rw [hc, hd]) rfl
  · exact (hcalm e false [] rfl e.calm_nil).2 _ _ (by rw [he]; exact hcut)
  · exact (hcalm e true _ rfl hexpired).2 _ _ (by rw [he']; exact decodeDocument_nil)
  · exact (hcalm e false _ rfl hlate).2 _ _ (by rw [he]; exact hcut)

/-- A channel that was shut down, and whose peer then closed with bytes of ours unread. -/
def abandoned : Channel :=
  ((new (.connected none)).sendAll [1, 2] []).2.shutdown.after .close

/-- Behind our own end of the stream a wait need not find it closed. -/
theorem receiveDocument_abandoned :
    abandoned.desynced = false ∧ abandoned.socket.shut = true ∧ abandoned.Calm false [] ∧
      (Wire.decodeDocument (abandoned.visible false)).1 = .error (.malformed .truncated) ∧
      (abandoned.receiveDocument []).1 = .error .reset ∧
      (abandoned.receiveDocument []).1 ≠ .error .closed := by
  have hcalm := abandoned.calm_nil
  have hnil : abandoned.visible false = [] := by
    show Buffer.new.data ++ [] = []
    rw [data_new]
    rfl
  have hslice : Wire.decodeDocument (abandoned.visible false) =
      (.error (.malformed .truncated), []) := by
    rw [hnil]
    exact decodeDocument_nil
  obtain ⟨c', hc, -⟩ := hcalm.receiveDocument_of_error rfl hslice
  have hreset : (abandoned.receiveDocument []).1 = .error .reset := by
    rw [hc]
    rfl
  refine ⟨rfl, rfl, hcalm, by rw [hslice], hreset, ?_⟩
  rw [hreset]
  simp

end Channel

end Treegram
