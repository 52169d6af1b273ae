import Treegram.Proofs.AnsweredRequests
import Treegram.Proofs.CacheContents

/-!
# Runs of a session

Between two requests the owner of a session may tidy up its cache and change its settings, and the
peer may do what it likes. Whatever the course of a run, the replies that were returned are told
apart by their numbers, those still in the cache included, and the status of the session is that of
the reply with its number (`Sound`). So it need not be drawn again from a reply with this number.

A reply that comes in has a larger number than all before it, and the status of the session is
always that of the reply returned last (`replies_sound`).
-/

namespace Treegram

namespace Session

/-- What happens to a session. The requests it has names for are sent like any other, or not at
all if an argument is refused. -/
inductive Action where
  | send (r : Request) (mode : CacheMode) (o : Occasion)
  | clearCache (all : Bool) (now : Instant)
  | lookUp (key : Bytes) (now : Instant)
  | setLifetime (lifetime : Duration)
  | setBudget (budget : Nat)
  | setTimeout (timeout : Duration)
  | raise (raised : Bool)
  | peer (action : PeerAction)
  deriving DecidableEq

/-- What a request comes to, if the action is one, and the session behind the action. -/
def perform (s : Session) : Action → Option (Except Fault Reply) × Session
  | .send r mode o =>
    let (result, s) := s.send r mode o
    (some result, s)
  | .clearCache all now => (none, s.clearCache all now)
  | .lookUp key now => (none, { s with cache := (s.cache.lookup key now).2 })
  | .setLifetime lifetime => (none, { s with cache := s.cache.setLifetime lifetime })
  | .setBudget budget => (none, { s with cache := s.cache.setBudget budget })
  | .setTimeout timeout => (none, { s with timeout })
  | .raise raised => (none, { s with channel := { s.channel with raised } })
  | .peer action => (none, { s with channel := s.channel.after action })

structure Event where
  before : Session
  action : Action
  result : Option (Except Fault Reply)
  after : Session

def trace (s : Session) : List Action → List Event
  | [] => []
  | a :: actions =>
    let (result, after) := s.perform a
    ⟨s, a, result, after⟩ :: after.trace actions

/-- Whether the request of the given bytes is answered from the cache. -/
def hits (s : Session) (mode : CacheMode) (bytes : Bytes) (now : Instant) : Bool :=
  mode == .cached && (s.cache.lookup bytes now).1.isSome

/-- Whether the action is a request that is answered from the cache. -/
def Remembers (s : Session) : Action → Prop
  | .send r mode o => ∃ bytes, r.encode = .ok bytes ∧ s.hits mode bytes o.asked = true
  | _ => False

/-- Whether the reply was returned. -/
def Event.Returned (e : Event) (r : Reply) : Prop :=
  e.result = some (.ok r)

/-- Whether the reply was read from the channel and returned. -/
def Event.Read (e : Event) (r : Reply) : Prop :=
  e.Returned r ∧ ¬e.before.Remembers e.action

def Event.reply? (e : Event) : Option Reply :=
  e.result.bind Except.toOption

def returned (events : List Event) : List Reply :=
  events.flatMap fun e => e.reply?.toList

theorem mem_returned {events : List Event} {e : Event} {r : Reply} (he : e ∈ events)
    (hr : e.Returned r) : r ∈ returned events := by
  refine List.mem_flatMap.2 ⟨e, he, ?_⟩
  rw [Event.reply?, hr]
  exact List.mem_singleton.2 rfl

/-! ## The invariant -/

/-- Whether the session goes with the replies it has returned. -/
structure Sound (s : Session) (past : List Reply) : Prop where
  /-- No reply has a number that is still to be given. -/
  numbered : ∀ r ∈ past, r.id ≤ s.replies
  /-- The numbers tell the replies apart. -/
  distinct : ∀ r ∈ past, ∀ r' ∈ past, r.id = r'.id → r = r'
  /-- The cache holds nothing else. -/
  cached : ∀ e ∈ s.cache.entries, e.reply ∈ past
  /-- The status is that of the reply with its number. -/
  noted : ∀ id, s.lastStatus.reply = some id → ∃ r ∈ past, r.id = id ∧ s.lastStatus = r.status

theorem status_reply (r : Reply) : r.status.reply = some r.id := by
  unfold Reply.status Status.extract
  split <;> rfl

theorem sound_new (settings : SessionSettings) (socket : Socket) :
    (Session.new settings socket).Sound [] where
  numbered r h := by simp at h
  distinct r h := by simp at h
  cached e h := by simp [Session.new, Cache.empty] at h
  noted id h := by simp [Session.new, Status.absent] at h

/-- Whether all that has changed is the channel, the settings, how many replies came in and what
the cache has lost. -/
structure Trimmed (s s' : Session) : Prop where
  replies : s.replies ≤ s'.replies
  entries : ∀ e ∈ s'.cache.entries, e ∈ s.cache.entries
  lastStatus : s'.lastStatus = s.lastStatus

theorem Trimmed.trans {s s' s'' : Session} (h : s.Trimmed s') (h' : s'.Trimmed s'') :
    s.Trimmed s'' where
  replies := Nat.le_trans h.replies h'.replies
  entries e he := h.entries e (h'.entries e he)
  lastStatus := h'.lastStatus.trans h.lastStatus

/-- Whether there is one reply more than that, with the next number. -/
structure Extended (s s' : Session) (r : Reply) : Prop where
  id : r.id = s.replies + 1
  replies : s'.replies = r.id
  entries : ∀ e ∈ s'.cache.entries, e.reply = r ∨ e ∈ s.cache.entries
  lastStatus : s'.lastStatus = s.lastStatus

section Steps

variable {s : Session} {past : List Reply} {r : Reply}

theorem Sound.trimmed {s' : Session} (h : s.Sound past) (ht : s.Trimmed s') : s'.Sound past where
  numbered r hp := Nat.le_trans (h.numbered r hp) ht.replies
  distinct := h.distinct
  cached e he := h.cached e (ht.entries e he)
  noted id hi := by
    rw [ht.lastStatus] at hi ⊢
    exact h.noted id hi

/-- The status need not be drawn again from a reply with the number it has. -/
theorem lastStatus_note (h : s.Sound past) (hr : r ∈ past) : (s.note r).lastStatus = r.status := by
  unfold note
  split
  · rename_i hid
    obtain ⟨r', hp, hid', hs⟩ := h.noted _ hid
    rw [hs, h.distinct r' hp r hr hid']
  · rfl

theorem Sound.note (h : s.Sound past) (hr : r ∈ past) : (s.note r).Sound past where
  numbered r' hp := by
    rw [note_replies]
    exact h.numbered r' hp
  distinct := h.distinct
  cached e he := by
    rw [note_cache] at he
    exact h.cached e he
  noted id hi := by
    have hs := lastStatus_note h hr
    rw [hs, status_reply] at hi
    exact ⟨r, hr, Option.some.inj hi, hs⟩

theorem Sound.extended {s' : Session} (h : s.Sound past) (hr : s.Extended s' r) :
    s'.Sound (past ++ [r]) where
  numbered r' hp := by
    have hid := hr.id
    rw [hr.replies]
    rcases List.mem_append.1 hp with hp | hp
    · have := h.numbered r' hp
      omega
    · obtain rfl := List.mem_singleton.1 hp
      exact Nat.le_refl _
  distinct := by
    have hne : ∀ r' ∈ past, r'.id ≠ r.id := fun r' hp => by
      have := h.numbered r' hp
      have := hr.id
      omega
    intro r₁ h₁ r₂ h₂ heq
    rcases List.mem_append.1 h₁ with h₁ | h₁ <;> rcases List.mem_append.1 h₂ with h₂ | h₂
    · exact h.distinct r₁ h₁ r₂ h₂ heq
    · rw [List.mem_singleton.1 h₂] at heq
      exact absurd heq (hne r₁ h₁)
    · rw [List.mem_singleton.1 h₁] at heq
      exact absurd heq.symm (hne r₂ h₂)
    · rw [List.mem_singleton.1 h₁, List.mem_singleton.1 h₂]
  cached e he := by
    rcases hr.entries e he with hr | he
    · exact List.mem_append_right past (List.mem_singleton.2 hr)
    · exact List.mem_append_left [r] (h.cached e he)
  noted id hi := by
    rw [hr.lastStatus] at hi ⊢
    obtain ⟨r', hp, h'⟩ := h.noted id hi
    exact ⟨r', List.mem_append_left [r] hp, h'⟩

/-- A reply that was returned may be returned again. -/
theorem Sound.append_of_mem (h : s.Sound past) (hr : r ∈ past) : s.Sound (past ++ [r]) := by
  have hmem : ∀ r' ∈ past ++ [r], r' ∈ past := by
    intro r' hp
    rcases List.mem_append.1 hp with hp | hp
    · exact hp
    · rw [List.mem_singleton.1 hp]
      exact hr
  refine ⟨fun r' hp => h.numbered r' (hmem r' hp), fun r₁ h₁ r₂ h₂ => ?_, fun e he => ?_,
    fun id hi => ?_⟩
  · exact h.distinct r₁ (hmem r₁ h₁) r₂ (hmem r₂ h₂)
  · exact List.mem_append_left [r] (h.cached e he)
  · obtain ⟨r', hp, h'⟩ := h.noted id hi
    exact ⟨r', List.mem_append_left [r] hp, h'⟩

end Steps

/-! ## What a request does -/

/-- A request that is sent fails and leaves the session trimmed, or is answered by a reply with the
next number. -/
theorem ask_cases (s : Session) (bytes : Bytes) (mode : CacheMode) (o : Occasion) :
    (∃ (e : Fault) (s' : Session), s.ask bytes mode o = (.error e, s') ∧ s.Trimmed s') ∨
      ∃ (r : Reply) (s' : Session), s.ask bytes mode o = (.ok r, s'.note r) ∧
        s.Extended s' r := by
  unfold ask
  rcases exchange s.channel bytes (s.waits o) with ⟨e | document, channel⟩
  · exact Or.inl ⟨e, _, rfl, Nat.le_refl _, fun _ he => he, rfl⟩
  · rcases hr : Reply.ofDocument document (s.replies + 1) with e | r
    · simp only [hr]
      exact Or.inl ⟨e, _, rfl, Nat.le_succ _, fun _ he => he, rfl⟩
    · have hid : r.id = s.replies + 1 := by
        unfold Reply.ofDocument at hr
        split at hr
        · rw [← Except.ok.inj hr]
        · simp at hr
      simp only [hr]
      cases mode
      · exact Or.inr ⟨r, _, rfl, hid, hid.symm, fun e he => Cache.mem_insert he, rfl⟩
      · exact Or.inr ⟨r, _, rfl, hid, hid.symm, fun e he => Or.inr he, rfl⟩

/-- A request fails and leaves the session trimmed, is answered from the cache, or is answered by
a reply with the next number. -/
theorem send_cases (s : Session) (r : Request) (mode : CacheMode) (o : Occasion) :
    (∃ (e : Fault) (s' : Session), s.send r mode o = (.error e, s') ∧ s.Trimmed s') ∨
    (∃ (reply : Reply) (s' : Session), s.send r mode o = (.ok reply, s'.note reply) ∧
      s.Remembers (.send r mode o) ∧ (∃ e ∈ s.cache.entries, e.reply = reply) ∧ s.Trimmed s') ∨
    ∃ (reply : Reply) (s' : Session), s.send r mode o = (.ok reply, s'.note reply) ∧
      s.Extended s' reply := by
  rcases hb : r.encode with e | bytes
  · refine Or.inl ⟨e, s, ?_, Nat.le_refl _, fun _ he => he, rfl⟩
    unfold send
    rw [hb]
  · cases mode with
    | bypass =>
      rw [send_bypass hb]
      exact (s.ask_cases bytes .bypass o).imp_right Or.inr
    | cached =>
      have hmem := fun e => @Cache.mem_of_mem_lookup s.cache e bytes o.asked
      rcases hl : s.cache.lookup bytes o.asked with ⟨_ | reply, cache⟩ <;> rw [hl] at hmem
      · have ht : s.Trimmed { s with cache } := ⟨Nat.le_refl _, hmem, rfl⟩
        rw [send_of_lookup_none hb hl]
        rcases { s with cache }.ask_cases bytes .cached o with ⟨e, s', h, ht'⟩ | ⟨reply, s', h, hr⟩
        · exact Or.inl ⟨e, s', h, ht.trans ht'⟩
        · refine Or.inr (Or.inr ⟨reply, s', h, hr.id, hr.replies, fun e he => ?_, hr.lastStatus⟩)
          exact (hr.entries e he).imp_right (hmem e)
      · rw [send_of_lookup_some hb hl]
        refine Or.inr (Or.inl ⟨reply, { s with cache }, rfl, ?_, ?_, Nat.le_refl _, hmem, rfl⟩)
        · refine ⟨bytes, hb, ?_⟩
          simp only [hits, hl]
          rfl
        · exact Cache.mem_of_lookup (by rw [hl])

/-! ## Steps and runs -/

/-- Whether the session goes with the replies before the event and its own behind it, and what is
said of its own is true. -/
structure Event.Follows (e : Event) (past : List Reply) : Prop where
  sound : e.after.Sound (past ++ e.reply?.toList)
  read : ∀ r, e.Read r → ∀ r' ∈ past, r'.id < r.id
  ok : ∀ r, e.Returned r → e.after.lastStatus = r.status
  error : ∀ f, e.result = some (.error f) → e.after.lastStatus = e.before.lastStatus

section Runs

variable {s s' : Session} {past : List Reply} {a : Action}

theorem follows_of_trimmed (h : s.Sound past) (ht : s.Trimmed s')
    {result : Option (Except Fault Reply)} (hr : ∀ r, result ≠ some (.ok r)) :
    Event.Follows ⟨s, a, result, s'⟩ past where
  sound := by
    have hnone : Event.reply? ⟨s, a, result, s'⟩ = none := by
      rcases result with _ | f | r
      · rfl
      · rfl
      · exact absurd rfl (hr r)
    rw [hnone, Option.toList_none, List.append_nil]
    exact h.trimmed ht
  read r he := absurd he.1 (hr r)
  ok r he := absurd he (hr r)
  error f _ := ht.lastStatus

theorem follows_of_ok {r : Reply} (hs : s'.Sound (past ++ [r])) (hl : s'.lastStatus = r.status)
    (hlt : ¬s.Remembers a → ∀ r' ∈ past, r'.id < r.id) :
    Event.Follows ⟨s, a, some (.ok r), s'⟩ past where
  sound := hs
  read r' he := by
    obtain ⟨hr, hn⟩ := he
    rw [← Except.ok.inj (Option.some.inj hr)]
    exact hlt hn
  ok r' hr := by
    rw [← Except.ok.inj (Option.some.inj hr)]
    exact hl
  error f hf := by simp at hf

theorem follows_perform (h : s.Sound past) (a : Action) :
    Event.Follows ⟨s, a, (s.perform a).1, (s.perform a).2⟩ past := by
  have trimmed {a : Action} {s' : Session} (ht : s.Trimmed s') :
      Event.Follows ⟨s, a, none, s'⟩ past := follows_of_trimmed h ht (by simp)
  cases a with
  | send r mode o =>
    simp only [perform]
    rcases s.send_cases r mode o with ⟨e, s', hs, ht⟩ | ⟨reply, s', hs, hm, ⟨e, he, rfl⟩, ht⟩ |
      ⟨reply, s', hs, hr⟩ <;> rw [hs]
    · exact follows_of_trimmed h ht (by simp)
    · have hp := h.cached e he
      have hs' := h.trimmed ht
      exact follows_of_ok ((hs'.note hp).append_of_mem hp) (lastStatus_note hs' hp)
        fun hn => absurd hm hn
    · have hp : reply ∈ past ++ [reply] := List.mem_append_right past (List.mem_singleton.2 rfl)
      have hs' := h.extended hr
      refine follows_of_ok (hs'.note hp) (lastStatus_note hs' hp) fun _ r' hr' => ?_
      have := h.numbered r' hr'
      have := hr.id
      omega
  | clearCache all now => exact trimmed ⟨Nat.le_refl _, fun e he => Cache.mem_of_clear he, rfl⟩
  | lookUp key now => exact trimmed ⟨Nat.le_refl _, fun e he => Cache.mem_of_mem_lookup he, rfl⟩
  | setLifetime lifetime => exact trimmed ⟨Nat.le_refl _, fun e he => he, rfl⟩
  | setBudget budget => exact trimmed ⟨Nat.le_refl _, fun e he => Cache.mem_of_setBudget he, rfl⟩
  | setTimeout timeout => exact trimmed ⟨Nat.le_refl _, fun e he => he, rfl⟩
  | raise raised => exact trimmed ⟨Nat.le_refl _, fun e he => he, rfl⟩
  | peer action => exact trimmed ⟨Nat.le_refl _, fun e he => he, rfl⟩

theorem trace_cons (s : Session) (a : Action) (actions : List Action) :
    s.trace (a :: actions) =
      ⟨s, a, (s.perform a).1, (s.perform a).2⟩ :: (s.perform a).2.trace actions :=
  rfl

theorem trace_send {r : Request} {mode : CacheMode} {o : Occasion} {result : Except Fault Reply}
    (h : s.send r mode o = (result, s')) (actions : List Action) :
    s.trace (.send r mode o :: actions) =
      ⟨s, .send r mode o, some result, s'⟩ :: s'.trace actions := by
  simp only [trace, perform, h]

/-- Each event of a run goes with the replies before the run and those of the events before it. -/
theorem follows_trace : ∀ (actions : List Action) {s : Session} {past : List Reply},
    s.Sound past → ∀ pre e post, s.trace actions = pre ++ e :: post →
      e.Follows (past ++ returned pre)
  | [], s, past, _, pre, e, post, heq => by simp [trace] at heq
  | a :: actions, s, past, h, pre, e, post, heq => by
    have hstep := follows_perform h a
    rw [trace_cons] at heq
    rcases pre with _ | ⟨e', pre⟩
    · rw [List.nil_append, List.cons.injEq] at heq
      rw [← heq.1, returned, List.flatMap_nil, List.append_nil]
      exact hstep
    · rw [List.cons_append, List.cons.injEq] at heq
      have hrest := follows_trace actions hstep.sound pre e post heq.2
      rw [heq.1, List.append_assoc] at hrest
      exact hrest

/-- All replies of a run go together. -/
theorem sound_trace : ∀ (actions : List Action) {s : Session} {past : List Reply},
    s.Sound past → ∃ s', Sound s' (past ++ returned (s.trace actions))
  | [], s, past, h => ⟨s, by rw [trace, returned, List.flatMap_nil, List.append_nil]; exact h⟩
  | a :: actions, s, past, h => by
    obtain ⟨s', hs⟩ := sound_trace actions (follows_perform h a).sound
    rw [List.append_assoc] at hs
    exact ⟨s', hs⟩

end Runs

/-- In every run, a reply that is read has a larger number than all that were returned before, the
same number is given to the same reply only, and the status of the session is that of the reply
returned last; a request that fails leaves it alone. -/
theorem replies_sound (settings : SessionSettings) (socket : Socket) (actions : List Action) :
    let events := (Session.new settings socket).trace actions
    (∀ pre e post, events = pre ++ e :: post → ∀ r, e.Read r →
      ∀ e' ∈ pre, ∀ r', e'.Returned r' → r'.id < r.id) ∧
    (∀ e ∈ events, ∀ e' ∈ events, ∀ r r', e.Returned r → e'.Returned r' → r.id = r'.id → r = r') ∧
    (∀ e ∈ events, ∀ r, e.Returned r → e.after.lastStatus = r.status) ∧
    ∀ e ∈ events, ∀ f, e.result = some (.error f) → e.after.lastStatus = e.before.lastStatus := by
  have h := sound_new settings socket
  have hfollows := follows_trace actions h
  have hevent : ∀ e ∈ (Session.new settings socket).trace actions, ∃ past, e.Follows past := by
    intro e he
    obtain ⟨pre, post, heq⟩ := List.append_of_mem he
    exact ⟨_, hfollows pre e post heq⟩
  refine ⟨fun pre e post heq r hr e' he' r' hr' => ?_, fun e he e' he' r r' hr hr' hid => ?_,
    fun e he r hr => ?_, fun e he f hf => ?_⟩
  · exact (hfollows pre e post heq).read r hr r' (mem_returned he' hr')
  · obtain ⟨s', hs'⟩ := sound_trace actions h
    exact hs'.distinct r (mem_returned he hr) r' (mem_returned he' hr') hid
  · obtain ⟨past, hp⟩ := hevent e he
    exact hp.ok r hr
  · obtain ⟨past, hp⟩ := hevent e he
    exact hp.error f hf

def sampleResponse : Tree Label := ⟨.element Reply.responseName "", .nil⟩

/-- An empty reply. -/
def sampleReply (id : Nat) : Reply := ⟨⟨.document, .single sampleResponse⟩, sampleResponse, id⟩

/-- Two replies that are read, between them the first once more from the cache, and a request that
cannot be sent. -/
theorem replies_sound_sample : ∃ (actions : List Action) (e₁ e₂ e₃ e₄ : Event) (f : Fault),
    (Session.new {} (.connected none)).trace actions = [e₁, e₂, e₃, e₄] ∧
      (e₁.Read (sampleReply 1) ∧ e₂.Returned (sampleReply 1) ∧ e₂.before.Remembers e₂.action ∧
        e₃.Read (sampleReply 2) ∧ e₄.result = some (.error f)) ∧
      (sampleReply 1).id < (sampleReply 2).id ∧ sampleReply 1 = sampleReply 1 ∧
      e₂.after.lastStatus = (sampleReply 1).status ∧
      e₄.after.lastStatus = e₄.before.lastStatus := by
  let r := Request.bare "a" "x"
  obtain ⟨bytes, hb⟩ : ∃ bytes, r.encode = .ok bytes := ⟨_, rfl⟩
  obtain ⟨ht, -⟩ := sampleResponse.encode_eq_ok_iff.1 rfl
  let answer := sampleResponse.units.flatMap WireUnit.bytes
  have ha : Wire.decodeDocument answer = (.ok ⟨.document, .single sampleResponse⟩, []) := by
    have h := Wire.decodeDocument_units ht (fun h => absurd h (by decide)) []
    rw [List.append_nil] at h
    exact h
  let o : Occasion := ⟨0, 0, [PeerAction.write answer]⟩
  let s₀ := Session.new {} (.connected none)
  have hl₀ : s₀.cache.lookup bytes 0 = (none, s₀.cache) := rfl
  have hr₀ : Reply.ofDocument ⟨.document, .single sampleResponse⟩ (s₀.replies + 1) =
      .ok (sampleReply 1) := rfl
  obtain ⟨s₁, hask₁, hup₁, hn₁, htime₁, hc₁⟩ := ask_answered bytes .cached 0 Channel.up_new
    (show s₀.isExpired 0 = false by decide) ha hr₀
  have hsend₁ : s₀.send r .cached o = (.ok (sampleReply 1), s₁) :=
    (send_of_lookup_none hb hl₀).trans hask₁
  have hl₁ : (s₁.cache.lookup bytes 0).1 = some (sampleReply 1) := by
    rw [hc₁, ← Except.ok.inj hb]
    rfl
  have hlookup : s₁.cache.lookup bytes 0 =
      (some (sampleReply 1), (s₁.cache.lookup bytes 0).2) := Prod.ext hl₁ rfl
  have hsend₂ := send_of_lookup_some (o := o) hb hlookup
  let s₂ := { s₁ with cache := (s₁.cache.lookup bytes 0).2 }.note (sampleReply 1)
  have htime₂ : s₂.isExpired 0 = false := by
    simp only [s₂, isExpired, note_timeout, htime₁]
    decide
  have hr₂ : Reply.ofDocument ⟨.document, .single sampleResponse⟩ (s₂.replies + 1) =
      .ok (sampleReply 2) := by
    simp only [s₂, note_replies, hn₁]
    rfl
  have hup₂ : s₂.channel.Up := by
    rw [note_channel]
    exact hup₁
  obtain ⟨s₃, hask₃, -⟩ := ask_answered bytes .bypass 0 hup₂ htime₂ ha hr₂
  have hsend₃ : s₂.send r .bypass o = (.ok (sampleReply 2), s₃) := (send_bypass hb).trans hask₃
  obtain ⟨f, hsend₄⟩ : ∃ f, s₃.send (.bare "a" "") .bypass o = (.error f, s₃) := ⟨_, rfl⟩
  have htrace := trace_send hsend₁ [.send r .cached o, .send r .bypass o,
    .send (.bare "a" "") .bypass o]
  rw [trace_send hsend₂, trace_send hsend₃, trace_send hsend₄, trace] at htrace
  obtain ⟨hread, hsame, hok, herror⟩ := replies_sound {} (.connected none) _
  rw [htrace] at hread hsame hok herror
  have hunread : ¬s₀.Remembers (.send r .cached o) := by
    rintro ⟨bytes', hb', h⟩
    rw [← Except.ok.inj (hb.symm.trans hb')] at h
    simp only [hits, o, hl₀] at h
    simp at h
  have hbypass : ¬s₂.Remembers (.send r .bypass o) := by
    rintro ⟨bytes', -, h⟩
    simp [hits] at h
  have hhit : s₁.Remembers (.send r .cached o) := by
    refine ⟨bytes, hb, ?_⟩
    simp only [hits, o, hl₁]
    rfl
  refine ⟨_, _, _, _, _, f, htrace,
    ⟨⟨rfl, hunread⟩, rfl, hhit, ⟨rfl, hbypass⟩, rfl⟩, ?_, ?_, ?_, ?_⟩
  · exact hread [_, _] _ [_] rfl _ ⟨rfl, hbypass⟩ _ (.head _) _ rfl
  · exact hsame _ (.head _) _ (.tail _ (.head _)) _ _ rfl rfl rfl
  · exact hok _ (.tail _ (.head _)) _ rfl
  · exact herror _ (.tail _ (.tail _ (.tail _ (.head _)))) f rfl

end Session

end Treegram
