import Mathlib.Data.List.Induction
import Treegram.Proofs.OutOfStep
import Treegram.Subscription

/-!
# The stream of events

Each call for an event takes one message out of the stream, whether the event in it is valid or not.
So as long as every call finds the whole of its message, the messages that were taken and what is
unread are together what came in (`Abreast`), and the k-th call comes to what the k-th message
holds. Behind the last message there is nothing to take, and a call says only why no more comes
(`get_stream`): the peer has closed, or the time is up, or the caller was interrupted, which may
come after the grace period and before the time is up (`not_endsUninterrupted`).

A subscription sends nothing, so no connection of one breaks: at its end the stream is closed
(`mute_run`).
-/

namespace Treegram

/-- A document holds an event, which keeps it, or is malformed. -/
theorem Event.ofDocument_cases (d : Tree Label) :
    (∃ e, ofDocument d = .ok e ∧ e.document = d) ∨
      ∃ cause, ofDocument d = .error (.malformed cause) := by
  fun_cases ofDocument d with
  | case6 => exact .inl ⟨_, rfl, rfl⟩
  | _ => exact .inr ⟨_, rfl⟩

/-- Whether the message holds the tree, which is an element. -/
def Tree.SentAs (t : Tree Label) (message : Bytes) : Prop :=
  t.node.kind = .element ∧ t.encode = .ok message

namespace Channel

/-! ## Nothing is sent -/

/-- Whether nothing of ours waits for the peer, and no reset is pending. -/
structure Mute (c : Channel) : Prop where
  outgoing : c.socket.outgoing = []
  broken : c.socket.broken = false

theorem steady_mute : Steady Mute where
  after := by
    rintro c ⟨ho, hb⟩ (bytes | _ | _ | _ | _) <;> simp only [Channel.after, Socket.after]
    · split <;> exact ⟨ho, hb⟩
    · split
      · exact ⟨ho, hb⟩
      · exact ⟨rfl, hb⟩
    · exact ⟨ho, hb⟩
    · exact ⟨ho, hb⟩
    · split
      · exact ⟨ho, hb⟩
      · exact ⟨ho, by simp [ho, hb]⟩
  read := by
    rintro c ⟨ho, hb⟩ n
    unfold Socket.read
    split
    · exact ⟨ho, hb⟩
    · split
      · exact ⟨ho, rfl⟩
      · split <;> exact ⟨ho, hb⟩
  rest h _ _ := ⟨h.outgoing, h.broken⟩

theorem Mute.receiveDocument {c : Channel} (h : c.Mute) (course : Course) :
    (c.receiveDocument course).2.Mute := by
  have hrest := steady_mute.decodeDocument (r := ⟨c, course, 0⟩) h
  unfold Channel.receiveDocument
  split
  · exact h
  · split <;> rename_i hr <;> rw [hr] at hrest <;> exact ⟨hrest.outgoing, hrest.broken⟩

/-- A look that ends a call does so because its time is over, or interrupts it. -/
theorem ending?_getD : ∀ (course : Course) (c : Channel), (c.ending? course).getD .timeout =
    if c.ending? course = some .interrupted then .interrupted else .timeout
  | [], c => rfl
  | look :: course, c => by
    have hrest := ending?_getD course (c.onLook look)
    rw [ending?]
    rcases ho : (c.onLook look).over? look with _ | e
    · exact hrest
    · unfold over? at ho
      split at ho
      · rw [← Option.some.inj ho]
        rfl
      · split at ho
        · rw [← Option.some.inj ho]
          rfl
        · simp at ho

/-- Where nothing of ours waits, want of more means that the stream is closed, or that the call is
over. -/
theorem Mute.shortage {c : Channel} (h : c.Mute) (course : Course) :
    c.shortage false course =
      if c.socket.isEnded then .closed
      else if c.ending? course = some .interrupted then .interrupted
      else .timeout := by
  simp only [Channel.shortage, h.broken, Bool.false_eq_true, if_false, ending?_getD]

/-- During quiet looks bytes are only handed out. -/
theorem Heard.of_quiet {c c' : Channel} {looks : Course} {handed : Bytes}
    (h : c.Heard looks handed c') (hq : ∀ look ∈ looks, look.peer = []) :
    handed ++ c'.unread = c.unread ∧ c'.socket.ends = c.socket.ends := by
  have hbytes := h.bytes
  have hends := h.ends
  rw [arrivals_of_quiet hq, List.append_nil] at hbytes
  rw [show looks.actions = [] from List.flatMap_eq_nil_iff.2 hq] at hends
  exact ⟨hbytes, hends⟩

end Channel

namespace Subscription

/-! ## Calls -/

/-- Whether the time for a call at `now` is over at once. -/
def isExpired (s : Subscription) (now : Instant) : Bool :=
  (Deadline.after now s.timeout).isExpired now

section

variable {s : Subscription} {now : Instant} {course : Course}

theorem get_of_isExpired (h : s.isExpired now = false) (course : Course) :
    s.get now course = ((s.channel.receiveDocument course).1.bind Event.ofDocument,
      { s with channel := (s.channel.receiveDocument course).2 }) := by
  unfold get
  rw [show (Deadline.after now s.timeout).isExpired now = false from h, if_neg (by simp)]

/-- A message that is there whole is taken, and the event is what it holds. -/
theorem get_whole (hd : s.channel.desynced = false) (he : s.isExpired now = false)
    (hcalm : s.channel.Calm false course) {t : Tree Label} {bytes rest : Bytes}
    (ht : t.SentAs bytes) (hun : s.channel.unread = bytes ++ rest) :
    (s.get now course).1 = Event.ofDocument ⟨.document, .single t⟩ ∧
      (s.get now course).2.channel.desynced = false ∧
      (s.get now course).2.channel.unread = rest ∧
      (s.get now course).2.channel.socket.ends = s.channel.socket.ends := by
  obtain ⟨hkind, hb⟩ := ht
  obtain ⟨hs, rfl⟩ := t.encode_eq_ok_iff.1 hb
  have hne : t.node.kind ≠ .document := by
    rw [hkind]
    decide
  have hm := Wire.decodeDocument_units hs (fun h => absurd h hne) rest
  rw [if_neg hne, ← hun] at hm
  obtain ⟨c', hc', hrest, hd', ⟨incoming, hsocket⟩, -⟩ := hcalm.receiveDocument_of_ok hd hm
  rw [get_of_isExpired he, hc']
  exact ⟨rfl, hd', hrest, by rw [hsocket]; rfl⟩

/-- Where nothing is unread, a call says why no more comes and takes nothing. -/
theorem get_nothing (hd : s.channel.desynced = false) (he : s.isExpired now = false)
    (hcalm : s.channel.Calm false course) (hun : s.channel.unread = []) :
    (s.get now course).1 = .error (s.channel.shortage false course) ∧
      (s.get now course).2.channel.desynced = false ∧
      (s.get now course).2.channel.unread = [] ∧
      (s.get now course).2.channel.socket.ends = s.channel.socket.ends := by
  have hv : s.channel.visible false = [] := hun
  obtain ⟨c', hc', hd'⟩ := hcalm.receiveDocument_of_error hd
    (by rw [hv]; exact Channel.decodeDocument_nil)
  obtain ⟨looks, hlooks, hh⟩ := s.channel.heard_handed course
  obtain ⟨hbytes, hends⟩ := hh.of_quiet fun look hl => hcalm.quiet look (hlooks.subset hl)
  rw [hc', hun] at hbytes
  rw [hc'] at hends
  rw [get_of_isExpired he, hc', if_pos rfl]
  refine ⟨rfl, ?_, (List.append_eq_nil_iff.1 hbytes).2, hends⟩
  rw [Bool.eq_false_iff]
  exact fun h => hd'.1 h hv

end

/-! ## Runs -/

/-- What happens to a subscription. -/
inductive Step where
  | get (now : Instant) (course : Course)
  | setTimeout (timeout : Duration)
  | raise (raised : Bool)
  | peer (action : PeerAction)
  deriving DecidableEq

def perform (s : Subscription) : Step → Subscription
  | .get now course => (s.get now course).2
  | .setTimeout timeout => s.setTimeout timeout
  | .raise raised => { s with channel := { s.channel with raised } }
  | .peer action => { s with channel := s.channel.after action }

def run (s : Subscription) (steps : List Step) : Subscription :=
  steps.foldl perform s

def Step.isGet : Step → Bool
  | get .. => true
  | _ => false

/-- What the peer does in the step, a call apart. -/
def Step.actions : Step → List PeerAction
  | peer action => [action]
  | _ => []

/-- How many of the steps are calls for an event. -/
def gets (steps : List Step) : Nat :=
  steps.countP Step.isGet

/-- The bytes that came in by the end of the steps, those that were there before included. -/
def arrived (s : Subscription) (steps : List Step) : Bytes :=
  s.channel.unread ++ s.channel.socket.arrivals (steps.flatMap Step.actions)

/-- Whether every call for an event has time left, comes upon no more than what is there when it
starts, and is made when the message it is to take has come in. -/
def Timely (s : Subscription) (messages : List Bytes) (steps : List Step) : Prop :=
  ∀ before now course after, steps = before ++ .get now course :: after →
    (s.run before).isExpired now = false ∧ (s.run before).channel.Calm false course ∧
      (messages.take (gets before + 1)).flatten <+: s.arrived before

/-- Whether the messages that were taken in the steps and what is unread behind them are together
what came in. -/
structure Abreast (s : Subscription) (messages : List Bytes) (steps : List Step) : Prop where
  desynced : (s.run steps).channel.desynced = false
  bytes : (messages.take (gets steps)).flatten ++ (s.run steps).channel.unread = s.arrived steps
  ends : (s.run steps).channel.socket.ends =
    ((steps.flatMap Step.actions).foldl Socket.after s.channel.socket).ends

section

variable {s : Subscription} {messages : List Bytes} {steps more : List Step} {now : Instant}
  {course : Course}

theorem run_append (s : Subscription) (steps more : List Step) :
    s.run (steps ++ more) = (s.run steps).run more :=
  List.foldl_append

theorem gets_append (steps more : List Step) : gets (steps ++ more) = gets steps + gets more :=
  List.countP_append

theorem arrived_append (s : Subscription) (steps more : List Step) :
    s.arrived (steps ++ more) = s.arrived steps ++
      ((steps.flatMap Step.actions).foldl Socket.after s.channel.socket).arrivals
        (more.flatMap Step.actions) := by
  unfold arrived
  rw [List.flatMap_append, Socket.arrivals_append, List.append_assoc]

theorem Timely.left (h : s.Timely messages (steps ++ more)) : s.Timely messages steps := by
  rintro before now course after rfl
  exact h before now course (after ++ more) (by simp)

theorem Timely.snoc (h : s.Timely messages steps) (he : (s.run steps).isExpired now = false)
    (hcalm : (s.run steps).channel.Calm false course)
    (hin : (messages.take (gets steps + 1)).flatten <+: s.arrived steps) :
    s.Timely messages (steps ++ [.get now course]) := by
  intro before now' course' after heq
  rcases List.eq_nil_or_concat after with rfl | ⟨after, step, rfl⟩
  · obtain ⟨rfl, hlast⟩ := List.append_inj' heq rfl
    simp only [List.cons.injEq, Step.get.injEq, and_true] at hlast
    obtain ⟨rfl, rfl⟩ := hlast
    exact ⟨he, hcalm, hin⟩
  · rw [List.concat_eq_append, ← List.cons_append, ← List.append_assoc] at heq
    exact h before now' course' after (List.append_inj' heq rfl).1

/-- A step that is no call adds to what is unread what comes in. -/
theorem Abreast.snoc (h : s.Abreast messages steps) {step : Step} (hstep : step.isGet = false) :
    s.Abreast messages (steps ++ [step]) := by
  have hheard : (s.run steps).channel.Heard [{ peer := step.actions }] []
      ((s.run steps).perform step).channel := by
    rcases step with _ | _ | raised | action
    · simp [Step.isGet] at hstep
    · exact (s.run steps).channel.heard_onLook _
    · have hl := (s.run steps).channel.heard_onLook {}
      exact ⟨hl.bytes, hl.ends⟩
    · exact (s.run steps).channel.heard_onLook _
  have hactions : Course.actions [{ peer := step.actions }] = [step].flatMap Step.actions := rfl
  have hbytes := hheard.bytes
  have hends := hheard.ends
  rw [hactions] at hbytes hends
  have hgets : gets (steps ++ [step]) = gets steps := by
    rw [gets_append]
    simp [gets, hstep]
  refine ⟨?_, ?_, ?_⟩
  · rw [run_append]
    rcases step with _ | _ | _ | _
    · simp [Step.isGet] at hstep
    all_goals exact h.desynced
  · rw [run_append, arrived_append, hgets, ← Socket.arrivals_congr _ h.ends, ← h.bytes,
      List.append_assoc, ← hbytes]
    rfl
  · rw [run_append, List.flatMap_append, List.foldl_append, ← Socket.ends_foldl_after _ h.ends]
    exact hends

/-- The message that is to be taken next is in front of what is unread. -/
theorem Abreast.next (h : s.Abreast messages steps)
    (hin : (messages.take (gets steps + 1)).flatten <+: s.arrived steps) {bytes : Bytes}
    (hb : messages[gets steps]? = some bytes) :
    ∃ rest, (s.run steps).channel.unread = bytes ++ rest := by
  rw [← h.bytes, List.take_add_one, hb, List.flatten_append,
    List.prefix_append_right_inj] at hin
  obtain ⟨rest, hrest⟩ := hin
  exact ⟨rest, by simpa using hrest.symm⟩

/-- Behind the last message nothing is unread. -/
theorem Abreast.spent (h : s.Abreast messages steps) (hle : messages.length ≤ gets steps)
    (hin : s.arrived steps <+: messages.flatten) : (s.run steps).channel.unread = [] := by
  rw [← h.bytes, List.take_of_length_le hle] at hin
  have hlen := hin.length_le
  rw [List.length_append] at hlen
  exact List.eq_nil_of_length_eq_zero (by omega)

/-- A call comes to nothing more than the message it has taken. -/
theorem Abreast.taken (h : s.Abreast messages steps)
    (hd : ((s.run steps).get now course).2.channel.desynced = false)
    (hbytes : (messages.take (gets steps + 1)).flatten ++
        ((s.run steps).get now course).2.channel.unread =
      (messages.take (gets steps)).flatten ++ (s.run steps).channel.unread)
    (hends : ((s.run steps).get now course).2.channel.socket.ends =
      (s.run steps).channel.socket.ends) : s.Abreast messages (steps ++ [.get now course]) := by
  refine ⟨?_, ?_, ?_⟩
  · rw [run_append]
    exact hd
  · rw [run_append, gets_append, arrived_append, ← h.bytes]
    exact hbytes.trans (List.append_nil _).symm
  · rw [run_append, List.flatMap_append, List.foldl_append]
    exact hends.trans h.ends

/-- The next call comes to what the next message holds, or there is none and it says why; either
way it takes what it comes to. -/
theorem Abreast.get (h : s.Abreast messages steps) {ts : List (Tree Label)}
    (hts : List.Forall₂ Tree.SentAs ts messages) (he : (s.run steps).isExpired now = false)
    (hcalm : (s.run steps).channel.Calm false course)
    (hin : (messages.take (gets steps + 1)).flatten <+: s.arrived steps)
    (hout : s.arrived steps <+: messages.flatten) :
    s.Abreast messages (steps ++ [.get now course]) ∧
      (∀ t, ts[gets steps]? = some t →
        ((s.run steps).get now course).1 = Event.ofDocument ⟨.document, .single t⟩) ∧
      (ts.length ≤ gets steps → ((s.run steps).get now course).1 =
        .error ((s.run steps).channel.shortage false course)) := by
  have hlen := hts.length_eq
  by_cases hlt : gets steps < messages.length
  · have hsome := List.getElem?_eq_getElem hlt
    have ht := hts.get (hlen.symm ▸ hlt) hlt
    obtain ⟨rest, hun⟩ := h.next hin hsome
    obtain ⟨hresult, hd, hrest, hends⟩ := get_whole h.desynced he hcalm ht hun
    refine ⟨h.taken hd ?_ hends, fun t ht => ?_, fun hle => by omega⟩
    · rw [hrest, hun, List.take_add_one, hsome, List.flatten_append]
      simp
    · rw [hresult]
      obtain ⟨hlt', rfl⟩ := List.getElem?_eq_some_iff.1 ht
      rfl
  · have hle := Nat.le_of_not_lt hlt
    have hun := h.spent hle hout
    obtain ⟨hresult, hd, hrest, hends⟩ := get_nothing h.desynced he hcalm hun
    refine ⟨h.taken hd ?_ hends, fun t ht => ?_, fun _ => hresult⟩
    · rw [hrest, hun, List.take_of_length_le hle, List.take_of_length_le (by omega)]
    · have := (List.getElem?_eq_some_iff.1 ht).1
      omega

/-- Calls that are made in time keep abreast of the messages. -/
theorem abreast_run {ts : List (Tree Label)} (hd : s.channel.desynced = false)
    (hts : List.Forall₂ Tree.SentAs ts messages) (steps : List Step) :
    s.Timely messages steps → s.arrived steps <+: messages.flatten → s.Abreast messages steps := by
  induction steps using List.reverseRecOn with
  | nil =>
    intro _ _
    refine ⟨hd, ?_, rfl⟩
    simp [gets, arrived, run, Socket.arrivals]
  | append_singleton steps step ih =>
    intro htimely hout
    have hout' : s.arrived steps <+: messages.flatten := by
      rw [arrived_append] at hout
      exact (List.prefix_append _ _).trans hout
    have h := ih htimely.left hout'
    rcases hstep : step.isGet with _ | _
    · exact h.snoc hstep
    · cases step with
      | get now course =>
        obtain ⟨he, hcalm, hin⟩ := htimely steps now course [] rfl
        exact (h.get hts he hcalm hin hout').1
      | _ => simp [Step.isGet] at hstep

theorem mute_perform (h : s.channel.Mute) (step : Step) : (s.perform step).channel.Mute := by
  cases step with
  | get now course => exact h.receiveDocument _
  | setTimeout timeout => exact h
  | raise raised => exact ⟨h.outgoing, h.broken⟩
  | peer action => exact Channel.steady_mute.after h action

/-- Whatever happens to a subscription, it sends nothing. -/
theorem mute_run : ∀ (steps : List Step) {s : Subscription}, s.channel.Mute →
    (s.run steps).channel.Mute
  | [], _, h => h
  | step :: steps, _, h => mute_run steps (mute_perform h step)

theorem mute_new (settings : SubscriptionSettings) (window : Option Nat) :
    (new settings (.connected window)).channel.Mute :=
  ⟨rfl, rfl⟩

end

/-- However the bytes of a row of elements come in, and whatever else happens between the calls, the
k-th call for an event comes to what the k-th element is as an event: the event with this element,
or that it is malformed. Behind the last element a call finds the stream closed if the peer has
ended it, and else its time runs out, unless it is interrupted. Every call leaves the channel in
step. -/
theorem get_stream (settings : SubscriptionSettings) (window : Option Nat) (prior : List Step)
    (ts : List (Tree Label)) (messages : List Bytes) (steps : List Step) :
    let s := (new settings (.connected window)).run prior
    s.channel.desynced = false → List.Forall₂ Tree.SentAs ts messages →
    s.Timely messages steps → s.arrived steps = messages.flatten →
    ∀ before now course after, steps = before ++ .get now course :: after →
      let s' := s.run before
      (∀ t, ts[gets before]? = some t →
        (s'.get now course).1 = Event.ofDocument ⟨.document, .single t⟩ ∧
          ((∃ e, (s'.get now course).1 = .ok e ∧ e.document = ⟨.document, .single t⟩) ∨
            ∃ cause, (s'.get now course).1 = .error (.malformed cause))) ∧
      (ts.length ≤ gets before → (s'.get now course).1 =
        .error (if s'.channel.socket.isEnded then .closed
          else if s'.channel.ending? course = some .interrupted then .interrupted
          else .timeout)) ∧
      (s'.get now course).2.channel.desynced = false := by
  intro s hd hts htimely harrived before now course after heq s'
  obtain ⟨he, hcalm, hin⟩ := htimely before now course after heq
  have hout : s.arrived before <+: messages.flatten := by
    rw [← harrived, heq, arrived_append]
    exact List.prefix_append _ _
  rw [heq] at htimely
  have habreast := abreast_run hd hts before htimely.left hout
  obtain ⟨hafter, hevent, hnone⟩ := habreast.get hts he hcalm hin hout
  refine ⟨fun t ht => ?_, fun hle => ?_, ?_⟩
  · rw [hevent t ht]
    exact ⟨rfl, Event.ofDocument_cases _⟩
  · have hmute : s'.channel.Mute := mute_run before (mute_run prior (mute_new settings window))
    rw [hnone hle, hmute.shortage]
  · have hd' := hafter.desynced
    rw [run_append] at hd'
    exact hd'

theorem timeout_run : ∀ (steps : List Step) {s : Subscription},
    (∀ step ∈ steps, ∀ timeout, step ≠ .setTimeout timeout) → (s.run steps).timeout = s.timeout
  | [], _, _ => rfl
  | step :: steps, s, h => by
    rw [List.forall_mem_cons] at h
    have hrest := timeout_run (s := s.perform step) steps h.2
    rw [show s.run (step :: steps) = (s.perform step).run steps from rfl, hrest]
    cases step with
    | setTimeout timeout => exact absurd rfl (h.1 timeout)
    | _ => rfl

/-- An event without a class, and a valid one. -/
def sampleEvents : List (Tree Label) :=
  [⟨.element Event.elementName "", .nil⟩,
    ⟨((Label.element Event.elementName "").addAttribute "class" "a").addAttribute "raise_time" "5",
      .nil⟩]

/-- The bytes of the events come in as two chunks, cut within the second event; there is a call for
each event, one more, and one behind the end of the stream. -/
def sampleSteps (stream : Bytes) : List Step :=
  [.peer (.write (stream.take 20)), .peer (.write (stream.drop 20)), .get 0 [], .get 0 [],
    .get 0 [], .peer .close, .get 0 []]

theorem arrived_sampleSteps (stream : Bytes) {n : Nat} (h : 2 ≤ n) :
    (new {} (.connected none)).arrived ((sampleSteps stream).take n) = stream := by
  obtain ⟨n, rfl⟩ := Nat.exists_eq_add_of_le' h
  rcases n with _ | _ | _ | _ | _ | n <;>
    simp [sampleSteps, arrived, Step.actions, Socket.arrivals, Socket.after, PeerAction.bytes, new,
      Channel.new, Socket.connected, Socket.isEnded, Channel.unread, Channel.data_new]

theorem timely_sampleSteps (messages : List Bytes) :
    (new {} (.connected none)).Timely messages (sampleSteps messages.flatten) := by
  intro before now course after heq
  have hmem : Step.get now course ∈ sampleSteps messages.flatten := by
    rw [heq]
    exact List.mem_append_right before List.mem_cons_self
  obtain ⟨rfl, rfl⟩ : now = 0 ∧ course = [] := by simpa [sampleSteps] using hmem
  have hbefore : before = (sampleSteps messages.flatten).take before.length := by
    rw [heq, List.take_left]
  have htimeout : ∀ step ∈ before, ∀ timeout, step ≠ .setTimeout timeout := by
    intro step hstep timeout
    rw [hbefore] at hstep
    have := List.mem_of_mem_take hstep
    rintro rfl
    simp [sampleSteps] at this
  have hlen : 2 ≤ before.length := by
    rcases before with _ | ⟨_, _ | ⟨_, before⟩⟩
    · simp [sampleSteps] at heq
    · simp [sampleSteps] at heq
    · simp
  refine ⟨?_, Channel.calm_nil _, ?_⟩
  · rw [isExpired, timeout_run before htimeout]
    decide
  · obtain ⟨rest, hrest⟩ := List.take_prefix (gets before + 1) messages
    have harrived := arrived_sampleSteps messages.flatten hlen
    rw [← hbefore] at harrived
    exact ⟨rest.flatten, by rw [← List.flatten_append, hrest, harrived]⟩

/-- Whether the stream has ended is settled by what the peer has done. -/
theorem isEnded_sampleSteps {messages : List Bytes}
    (hts : List.Forall₂ Tree.SentAs sampleEvents messages) {n : Nat} (h : 2 ≤ n) :
    ((new {} (.connected none)).run
        ((sampleSteps messages.flatten).take n)).channel.socket.isEnded = decide (5 < n) := by
  have htimely := timely_sampleSteps messages
  rw [← List.take_append_drop n (sampleSteps messages.flatten)] at htimely
  have habreast := abreast_run rfl hts _ htimely.left
    ⟨[], by rw [arrived_sampleSteps _ h, List.append_nil]⟩
  rw [Socket.isEnded_congr habreast.ends]
  obtain ⟨n, rfl⟩ := Nat.exists_eq_add_of_le' h
  rcases n with _ | _ | _ | _ | _ | n <;>
    simp [sampleSteps, Step.actions, Socket.after, new, Channel.new, Socket.connected,
      Socket.isEnded]

/-- An invalid event, a valid one, no event and the end of the stream. -/
theorem get_stream_sample : ∃ (messages : List Bytes) (e : Event),
    let s := new {} (.connected none)
    let call := fun n => (s.run ((sampleSteps messages.flatten).take n)).get 0 []
    s.channel.desynced = false ∧ List.Forall₂ Tree.SentAs sampleEvents messages ∧
      s.Timely messages (sampleSteps messages.flatten) ∧
      s.arrived (sampleSteps messages.flatten) = messages.flatten ∧
      (call 2).1 = .error (.malformed .noClass) ∧
      ((call 3).1 = .ok e ∧ e.eventClass = "a" ∧ e.raised = ⟨5, 0⟩) ∧
      (call 4).1 = .error .timeout ∧ (call 6).1 = .error .closed ∧
      (call 6).2.channel.desynced = false := by
  obtain ⟨messages, hts⟩ : ∃ messages, List.Forall₂ Tree.SentAs sampleEvents messages :=
    ⟨[_, _], .cons ⟨rfl, rfl⟩ (.cons ⟨rfl, rfl⟩ .nil)⟩
  have htimely := timely_sampleSteps messages
  have harrived := arrived_sampleSteps messages.flatten (n := 7) (by decide)
  have hstream := get_stream {} none [] sampleEvents messages (sampleSteps messages.flatten) rfl hts
    htimely harrived
  obtain ⟨hfirst, -⟩ := hstream ((sampleSteps messages.flatten).take 2) 0 [] _ rfl
  obtain ⟨hsecond, -⟩ := hstream ((sampleSteps messages.flatten).take 3) 0 [] _ rfl
  obtain ⟨-, hthird, -⟩ := hstream ((sampleSteps messages.flatten).take 4) 0 [] _ rfl
  obtain ⟨-, hlast, hd⟩ := hstream ((sampleSteps messages.flatten).take 6) 0 [] _ rfl
  have hnone (n : Nat) (h : 2 ≤ n) : (if ((new {} (.connected none)).run
      ((sampleSteps messages.flatten).take n)).channel.socket.isEnded then Fault.closed
      else .timeout) = if 5 < n then .closed else .timeout := by
    rw [isEnded_sampleSteps hts h]
    simp
  refine ⟨messages, _, rfl, hts, htimely, harrived, (hfirst _ rfl).1, ⟨(hsecond _ rfl).1, rfl, rfl⟩,
    ?_, ?_, hd⟩
  · exact (hthird (Nat.le_refl 2)).trans (congrArg Except.error (hnone 4 (by decide)))
  · exact (hlast (show 2 ≤ 3 by decide)).trans
      (congrArg Except.error (hnone 6 (by decide)))

/-- Whether a call behind the last event finds the stream closed or runs out of time. -/
def EndsUninterrupted : Prop :=
  ∀ (settings : SubscriptionSettings) (window : Option Nat) (prior : List Step)
    (ts : List (Tree Label)) (messages : List Bytes) (steps : List Step),
    let s := (new settings (.connected window)).run prior
    s.channel.desynced = false → List.Forall₂ Tree.SentAs ts messages →
    s.Timely messages steps → s.arrived steps = messages.flatten →
    ∀ before now course after, steps = before ++ .get now course :: after →
      ts.length ≤ gets before →
      ((s.run before).get now course).1 = .error .timeout ∨
        ((s.run before).get now course).1 = .error .closed

/-- A wait that lasts past the grace period and is cut short then. -/
def cutShort : Course :=
  [{}, { wish := some true, late := true }]

/-- Where nothing comes, a call that waits so long is interrupted. -/
theorem get_cutShort {s : Subscription} {now : Instant} (hd : s.channel.desynced = false)
    (hmute : s.channel.Mute) (hended : s.channel.socket.isEnded = false)
    (he : s.isExpired now = false) (hun : s.channel.unread = []) :
    s.channel.Calm false cutShort ∧ (s.get now cutShort).1 = .error .interrupted := by
  have hlooks : s.channel.looks = 0 := by
    simp [Channel.looks, (List.append_eq_nil_iff.1 hun).2, hmute.broken, hended,
      Buffer.defaultCapacity]
  have hcalm : s.channel.Calm false cutShort :=
    ⟨by simp [cutShort], by simp, fun _ => by simp [hlooks, Channel.ending?]⟩
  have hending : s.channel.ending? cutShort = some .interrupted := rfl
  obtain ⟨hresult, -⟩ := get_nothing hd he hcalm hun
  rw [hmute.shortage, hended, if_neg Bool.false_ne_true, if_pos hending] at hresult
  exact ⟨hcalm, hresult⟩

/-- A call that waits long enough can be interrupted. -/
theorem not_endsUninterrupted : ¬EndsUninterrupted := by
  obtain ⟨messages, hts⟩ : ∃ messages, List.Forall₂ Tree.SentAs sampleEvents messages :=
    ⟨[_, _], .cons ⟨rfl, rfl⟩ (.cons ⟨rfl, rfl⟩ .nil)⟩
  let s := new {} (.connected none)
  let before := (sampleSteps messages.flatten).take 4
  have htimely : s.Timely messages before := by
    have h := timely_sampleSteps messages
    rw [← List.take_append_drop 4 (sampleSteps messages.flatten)] at h
    exact h.left
  have harrived : s.arrived before = messages.flatten :=
    arrived_sampleSteps messages.flatten (by decide)
  have hin : s.arrived before <+: messages.flatten := ⟨[], by rw [harrived, List.append_nil]⟩
  have habreast := abreast_run rfl hts before htimely hin
  have he : (s.run before).isExpired 0 = false := by
    rw [isExpired, timeout_run before (by simp [before, sampleSteps])]
    decide
  obtain ⟨hcalm, hresult⟩ := get_cutShort habreast.desynced
    (mute_run before (mute_new {} none)) (isEnded_sampleSteps hts (by decide)) he
    (habreast.spent (Nat.le_of_eq hts.length_eq.symm) hin)
  have hnext : (messages.take (gets before + 1)).flatten <+: s.arrived before := by
    rw [List.take_of_length_le (hts.length_eq ▸ Nat.le_succ 2)]
    exact harrived ▸ List.prefix_rfl
  have hall : s.arrived (before ++ [.get 0 cutShort]) = messages.flatten := by
    rw [arrived_append, harrived]
    exact List.append_nil _
  intro h
  have hends := h {} none [] sampleEvents messages (before ++ [Step.get 0 cutShort]) rfl hts
    (htimely.snoc he hcalm hnext) hall before 0 cutShort [] rfl (Nat.le_refl 2)
  rw [show (new {} (.connected none)).run [] = s from rfl, hresult] at hends
  simp at hends

end Subscription

end Treegram
