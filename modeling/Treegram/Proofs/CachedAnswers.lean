import Treegram.Proofs.CacheInvariant
import Treegram.Proofs.SentRequests

/-!
# Answers from the cache

A request that is answered from the cache has nothing to do with the channel (`Spares`), and one
that is not drains it at least. Which of the two it is, the cache tells beforehand.

The cache is only filled by requests that may be answered from it, and what it keeps for the bytes
of a request is the reply that was stored for them last (`Recalls`). The bytes tell requests apart
(`Built.labels_eq`), so the reply is one to the same request (`answers_recalled`).
-/

namespace Treegram

/-- Requests with the same bytes are the same, up to the identities of their nodes. -/
theorem Request.Built.labels_eq {r r' : Request} {bytes : Bytes} (h : r.Built) (h' : r'.Built)
    (hb : r.encode = .ok bytes) (hb' : r'.encode = .ok bytes) :
    ∃ t, r.labels? = some t ∧ r'.labels? = some t := by
  obtain ⟨t, ht, -, hd⟩ := h.decodeDocument_encode hb
  obtain ⟨t', ht', -, hd'⟩ := h'.decodeDocument_encode hb'
  have hsame := (hd []).symm.trans (hd' [])
  simp only [received, Forest.single, Prod.mk.injEq, Except.ok.injEq, Tree.mk.injEq,
    Forest.cons.injEq, and_true, true_and] at hsame
  have heq : t = t' := congrArg₂ Tree.mk hsame.1 hsame.2
  exact ⟨t, ht, heq ▸ ht'⟩

namespace Session

/-! ## The channel -/

/-- Whether a request leaves the channel alone: it comes to the same and does the same to the rest,
whatever the channel is. -/
def Spares (s : Session) (r : Request) (mode : CacheMode) (o : Occasion) : Prop :=
  ∀ channel, { s with channel }.send r mode o =
    ((s.send r mode o).1, { (s.send r mode o).2 with channel })

/-- On a channel that is out of step there is no exchange: stale bytes are dropped, and then the
guard is looked at. -/
theorem exchange_of_desynced {c : Channel} (h : c.desynced = true) (bytes : Bytes)
    (peer : Conduct) : ∃ drained : Channel, drained.buffer = .new ∧ drained.socket.broken = false ∧
      exchange c bytes peer = if c.breaksDuring peer.draining then (.error .reset, drained)
        else (.error .desynchronized,
          (c.afterDrain peer.draining).foldl Channel.after drained) := by
  obtain ⟨result, drained, left, hd, hresult, hnew, hbroken, hguard⟩ := c.drain_cases peer.draining
  refine ⟨drained, hnew, hbroken, ?_⟩
  have hleft : (left.flatten.foldl Channel.after drained).desynced = true := by
    rw [Channel.foldl_after_eq]
    exact hguard.trans h
  rw [exchange, Channel.afterDrain, hd, hresult]
  rcases c.breaksDuring peer.draining with _ | _
  · simp only [Bool.false_eq_true, if_false, Channel.sendAll, if_pos hleft]
  · rfl

/-- A channel on which nothing can be done but to drop what is in its buffer. -/
def cutOff : Channel :=
  { Channel.new (.connected none) with
    buffer := { Buffer.new with writePos := 1 }
    desynced := true }

theorem exchange_cutOff (bytes : Bytes) (peer : Conduct) :
    (exchange cutOff bytes peer).2 ≠ cutOff := by
  obtain ⟨drained, hnew, -, hx⟩ := exchange_of_desynced (c := cutOff) rfl bytes peer
  have hnew : (exchange cutOff bytes peer).2.buffer = .new := by
    rw [hx, apply_ite Prod.snd, apply_ite Channel.buffer, Channel.buffer_foldl_after, ite_self,
      hnew]
  intro h
  rw [h] at hnew
  exact Nat.one_ne_zero (congrArg Buffer.writePos hnew)

theorem note_setChannel (s : Session) (reply : Reply) (channel : Channel) :
    { s with channel }.note reply = { s.note reply with channel } := by
  unfold note
  split <;> rfl

/-- A request is answered from the cache if and only if it leaves the channel alone. -/
theorem spares_iff {s : Session} {r : Request} {bytes : Bytes} (hb : r.encode = .ok bytes)
    (mode : CacheMode) (o : Occasion) : s.Spares r mode o ↔ s.hits mode bytes o.asked = true := by
  constructor
  · intro h
    by_contra hm
    have hchannel := congrArg (fun p => Session.channel p.2) (h cutOff)
    have hmiss : { s with channel := cutOff }.hits mode bytes o.asked = false :=
      Bool.eq_false_iff.2 hm
    dsimp only at hchannel
    rw [channel_send hb, hmiss] at hchannel
    exact exchange_cutOff _ _ hchannel
  · intro hm channel
    cases mode with
    | bypass => simp [hits] at hm
    | cached =>
      rcases hl : s.cache.lookup bytes o.asked with ⟨_ | reply, cache⟩
      · simp [hits, hl] at hm
      · rw [send_of_lookup_some hb hl]
        have hl' : ({ s with channel } : Session).cache.lookup bytes o.asked = (some reply, cache) :=
          hl
        rw [send_of_lookup_some hb hl']
        exact Prod.ext rfl (note_setChannel { s with cache } reply channel)

theorem hits_cached {s : Session} (h : s.cache.Tallied) (bytes : Bytes) (now : Instant) :
    s.hits .cached bytes now = s.cache.contains bytes now := by
  rw [← h.isSome_lookup]
  rfl

theorem calls_eq_nil_iff {s : Session} {r : Request} {bytes : Bytes} (hb : r.encode = .ok bytes)
    (mode : CacheMode) (o : Occasion) :
    s.calls (.send r mode o) = [] ↔ s.hits mode bytes o.asked = true := by
  have hne : exchangeCalls s.channel bytes (s.waits o) ≠ [] := by
    unfold exchangeCalls
    split
    · simp
    · split <;> simp
  simp only [calls, hb]
  by_cases hm : s.hits mode bytes o.asked = true
  · rw [if_pos hm]
    exact iff_of_true rfl hm
  · rw [if_neg hm]
    exact iff_of_false hne hm

/-! ## What is stored -/

/-- Whether the reply was read and kept for the request of the given bytes. -/
def Event.Stores (e : Event) (bytes : Bytes) (reply : Reply) : Prop :=
  ∃ r o, e.action = .send r .cached o ∧ r.encode = .ok bytes ∧ e.Read reply ∧
    ((e.before.cache.lookup bytes o.asked).2.insert bytes reply o.answered).1 = true

/-- Whether the reply is the one that was stored last for the given bytes. -/
def Recalls (past : List Event) (bytes : Bytes) (reply : Reply) : Prop :=
  ∃ before e after, past = before ++ e :: after ∧ e.Stores bytes reply ∧
    ∀ e' ∈ after, ∀ reply', ¬e'.Stores bytes reply'

theorem cache_ask (s : Session) (bytes : Bytes) (o : Occasion) :
    (∃ f, (s.ask bytes .cached o).1 = .error f ∧ (s.ask bytes .cached o).2.cache = s.cache) ∨
      ∃ reply, (s.ask bytes .cached o).1 = .ok reply ∧
        (s.ask bytes .cached o).2.cache = (s.cache.insert bytes reply o.answered).2 := by
  unfold ask
  rcases exchange s.channel bytes (s.waits o) with ⟨f | document, channel⟩
  · exact Or.inl ⟨f, rfl, rfl⟩
  · rcases hr : Reply.ofDocument document (s.replies + 1) with f | reply
    · simp only [hr]
      exact Or.inl ⟨f, rfl, trivial⟩
    · simp only [hr, note_cache]
      exact Or.inr ⟨reply, rfl, rfl⟩

theorem cache_ask_bypass (s : Session) (bytes : Bytes) (o : Occasion) :
    (s.ask bytes .bypass o).2.cache = s.cache := by
  unfold ask
  rcases exchange s.channel bytes (s.waits o) with ⟨f | document, channel⟩
  · rfl
  · rcases hr : Reply.ofDocument document (s.replies + 1) with f | reply <;>
      simp only [hr, note_cache]

section

variable {s : Session} {past : List Event} {e : Event} {bytes : Bytes} {reply : Reply}

theorem recalls_of_stores (h : e.Stores bytes reply) : Recalls (past ++ [e]) bytes reply :=
  ⟨past, e, [], rfl, h, by simp⟩

theorem Recalls.append (h : Recalls past bytes reply) (he : ∀ reply', ¬e.Stores bytes reply') :
    Recalls (past ++ [e]) bytes reply := by
  obtain ⟨before, e', after, rfl, hs, hafter⟩ := h
  refine ⟨before, e', after ++ [e], by simp, hs, fun e'' hm => ?_⟩
  rcases List.mem_append.1 hm with hm | hm
  · exact hafter e'' hm
  · rw [List.mem_singleton.1 hm]
    exact he

theorem not_stores_of_remembers (h : e.before.Remembers e.action) : ¬e.Stores bytes reply :=
  fun ⟨_, _, _, _, hread, _⟩ => hread.2 h

theorem not_stores_of_error {f : Fault} (h : e.result = some (.error f)) :
    ¬e.Stores bytes reply := by
  rintro ⟨_, _, _, _, ⟨hreturned, _⟩, _⟩
  rw [Event.Returned, h] at hreturned
  simp at hreturned

/-- Whether the books of the cache are right, and each entry holds the reply that was stored last
for its key, which is no part of a longer answer. -/
structure Recalling (s : Session) (past : List Event) : Prop where
  sound : s.cache.Sound
  recalls : ∀ x ∈ s.cache.entries, Recalls past x.key x.reply
  whole : ∀ x ∈ s.cache.entries, x.reply.isContinued = false

/-- An event that puts nothing into the cache and stores nothing for what is left in it. -/
theorem Recalling.keep (h : s.Recalling past) (hs : e.after.cache.Sound)
    (hsub : ∀ x ∈ e.after.cache.entries, x ∈ s.cache.entries)
    (he : ∀ x ∈ e.after.cache.entries, ∀ reply, ¬e.Stores x.key reply) :
    e.after.Recalling (past ++ [e]) where
  sound := hs
  recalls x hx := (h.recalls x (hsub x hx)).append (he x hx)
  whole x hx := h.whole x (hsub x hx)

/-- An event that does no more to the cache than to look into it. -/
theorem Recalling.lookup (h : s.Recalling past) (key : Bytes) (now : Instant)
    (hcache : e.after.cache = (s.cache.lookup key now).2)
    (he : ∀ key' reply, ¬e.Stores key' reply) : e.after.Recalling (past ++ [e]) := by
  refine h.keep ?_ (fun x hx => ?_) fun x _ => he x.key
  · rw [hcache]
    exact h.sound.lookup key now
  · rw [hcache] at hx
    exact Cache.mem_of_mem_lookup hx

/-- A reply that is read for a request is kept as the last one, or nothing is. -/
theorem Recalling.insert (h : s.Recalling past) {r : Request} {o : Occasion}
    (hb : r.encode = .ok bytes) (ha : e.action = .send r .cached o) (hbefore : e.before = s)
    (hread : e.Read reply)
    (hafter : e.after.cache =
      ((s.cache.lookup bytes o.asked).2.insert bytes reply o.answered).2) :
    e.after.Recalling (past ++ [e]) := by
  have hlooked := h.sound.lookup bytes o.asked
  have hmem := fun x => @Cache.mem_of_mem_lookup s.cache x bytes o.asked
  have hs : e.after.cache.Sound := by
    rw [hafter]
    exact hlooked.insert bytes reply o.answered
  have hstored : ∀ key reply', e.Stores key reply' → key = bytes ∧
      ((s.cache.lookup bytes o.asked).2.insert bytes reply o.answered).1 = true := by
    rintro key reply' ⟨r', o', ha', hb', ⟨hreturned, -⟩, hkept⟩
    obtain ⟨rfl, -, rfl⟩ := Action.send.inj (ha.symm.trans ha')
    obtain rfl := Except.ok.inj (hb'.symm.trans hb)
    have hreply := hread.1.symm.trans hreturned
    rw [Option.some.injEq, Except.ok.injEq] at hreply
    rw [hbefore, ← hreply] at hkept
    exact ⟨rfl, hkept⟩
  rcases hlooked.toTallied.insert_cases bytes reply o.answered with hins | ⟨hkept, hwhole, hins⟩
  · rw [hins] at hafter hstored
    refine h.keep hs (fun x hx => hmem x (by rw [← hafter]; exact hx)) fun x _ reply' hx => ?_
    simpa using (hstored _ _ hx).2
  · rw [← hafter] at hins
    have hnew : e.Stores bytes reply := ⟨r, o, ha, hb, hread, by rw [hbefore]; exact hkept⟩
    refine ⟨hs, fun x hx => ?_, fun x hx => ?_⟩
    · rcases hins x hx with ⟨hkey, hreply⟩ | ⟨hkey, hold⟩
      · rw [hkey, hreply]
        exact recalls_of_stores hnew
      · exact (h.recalls x (hmem x hold)).append fun reply' hx => hkey (hstored _ _ hx).1
    · rcases hins x hx with ⟨-, hreply⟩ | ⟨-, hold⟩
      · rw [hreply]
        exact hwhole
      · exact h.whole x (hmem x hold)

/-! ## Steps and runs -/

theorem Recalling.send (h : s.Recalling past) (r : Request) (mode : CacheMode) (o : Occasion) :
    (s.send r mode o).2.Recalling (past ++
      [⟨s, .send r mode o, some (s.send r mode o).1, (s.send r mode o).2⟩]) := by
  rcases hb : r.encode with f | bytes
  · have hsend : s.send r mode o = (.error f, s) := by
      unfold Session.send
      rw [hb]
    rw [hsend]
    exact h.keep (e := ⟨s, .send r mode o, some (.error f), s⟩) h.sound (fun x hx => hx)
      fun x hx reply => not_stores_of_error rfl
  · cases mode with
    | bypass =>
      have hcache : (s.send r .bypass o).2.cache = s.cache := by
        rw [send_bypass hb, cache_ask_bypass]
      refine h.keep (e := ⟨s, _, _, _⟩) (by rw [hcache]; exact h.sound) ?_ ?_
      · intro x hx
        rwa [hcache] at hx
      · rintro x hx reply ⟨r', o', ha, -⟩
        simp at ha
    | cached =>
      rcases hl : s.cache.lookup bytes o.asked with ⟨_ | reply, cache⟩
      · have hsend := send_of_lookup_none (o := o) hb hl
        rcases ({ s with cache } : Session).cache_ask bytes o with ⟨f, hf, hcache⟩ |
          ⟨reply, hreply, hcache⟩
        · rw [← hsend] at hf hcache
          refine h.lookup (e := ⟨s, _, _, _⟩) bytes o.asked ?_ fun key reply =>
            not_stores_of_error (congrArg some hf)
          rw [hl]
          exact hcache
        · rw [← hsend] at hreply hcache
          have hunread : ¬s.Remembers (.send r .cached o) := by
            rintro ⟨bytes', hb', hhit⟩
            obtain rfl := Except.ok.inj (hb.symm.trans hb')
            simp [hits, hl] at hhit
          refine h.insert (e := ⟨s, _, _, _⟩) hb rfl rfl ⟨congrArg some hreply, hunread⟩ ?_
          rw [hl]
          exact hcache
      · have hremembers : s.Remembers (.send r .cached o) := ⟨bytes, hb, by simp [hits, hl]⟩
        have hcache : (s.send r .cached o).2.cache = (s.cache.lookup bytes o.asked).2 := by
          rw [send_of_lookup_some hb hl, note_cache, hl]
        exact h.lookup (e := ⟨s, _, _, _⟩) bytes o.asked hcache fun key reply =>
          not_stores_of_remembers hremembers

theorem recalling_new (settings : SessionSettings) (socket : Socket) :
    (Session.new settings socket).Recalling [] where
  sound := Cache.sound_empty settings.lifetime settings.budget
  recalls x hx := by simp [Session.new, Cache.empty] at hx
  whole x hx := by simp [Session.new, Cache.empty] at hx

theorem Recalling.perform (h : s.Recalling past) (a : Action) :
    (s.perform a).2.Recalling (past ++ [⟨s, a, (s.perform a).1, (s.perform a).2⟩]) := by
  have tidied {a : Action} {s' : Session} (ha : ∀ r mode o, a ≠ .send r mode o)
      (hs : s'.cache.Sound) (hsub : ∀ x ∈ s'.cache.entries, x ∈ s.cache.entries) :
      s'.Recalling (past ++ [⟨s, a, none, s'⟩]) :=
    h.keep (e := ⟨s, a, none, s'⟩) hs hsub fun x _ reply ⟨r, o, he, _⟩ => ha r .cached o he
  cases a with
  | send r mode o => exact h.send r mode o
  | clearCache all now =>
    exact tidied (by simp) (h.sound.clear all now) fun x hx => Cache.mem_of_clear hx
  | lookUp key now =>
    exact tidied (by simp) (h.sound.lookup key now) fun x hx => Cache.mem_of_mem_lookup hx
  | setLifetime lifetime => exact tidied (by simp) (h.sound.setLifetime lifetime) fun x hx => hx
  | setBudget budget =>
    exact tidied (by simp) (h.sound.setBudget budget) fun x hx => Cache.mem_of_setBudget hx
  | setTimeout timeout => exact tidied (by simp) h.sound fun x hx => hx
  | raise raised => exact tidied (by simp) h.sound fun x hx => hx
  | peer action => exact tidied (by simp) h.sound fun x hx => hx

/-- Before each event of a run the cache goes with the events up to it. -/
theorem recalling_trace : ∀ (actions : List Action) {s : Session} {past : List Event},
    s.Recalling past → ∀ pre e post, s.trace actions = pre ++ e :: post →
      e.before.Recalling (past ++ pre) ∧ e.action ∈ actions ∧
        (e.result, e.after) = e.before.perform e.action
  | [], s, past, _, pre, e, post, heq => by simp [trace] at heq
  | a :: actions, s, past, h, pre, e, post, heq => by
    rw [trace_cons] at heq
    rcases pre with _ | ⟨e', pre⟩
    · rw [List.nil_append, List.cons.injEq] at heq
      rw [← heq.1, List.append_nil]
      exact ⟨h, List.mem_cons_self, rfl⟩
    · rw [List.cons_append, List.cons.injEq] at heq
      obtain ⟨hrest, hmem, hperform⟩ := recalling_trace actions (h.perform a) pre e post heq.2
      rw [heq.1, List.append_assoc] at hrest
      exact ⟨hrest, List.mem_cons_of_mem a hmem, hperform⟩

/-- A reply that is returned without the cache being asked was read during the call. -/
theorem read_of_bypass {r : Request} {o : Occasion} (h : (s.send r .bypass o).1 = .ok reply) :
    ∃ bytes document, r.encode = .ok bytes ∧
      (exchange s.channel bytes (s.waits o)).1 = .ok document ∧
      Reply.ofDocument document (s.replies + 1) = .ok reply := by
  rcases hb : r.encode with f | bytes
  · simp [Session.send, hb] at h
  · rw [send_bypass hb] at h
    unfold ask at h
    rcases hx : exchange s.channel bytes (s.waits o) with ⟨f | document, channel⟩
    · simp [hx] at h
    · refine ⟨bytes, document, rfl, by rw [hx], ?_⟩
      rcases hr : Reply.ofDocument document (s.replies + 1) with f | reply'
      · simp [hx, hr] at h
      · simp only [hx, hr] at h
        rw [h]

end

/-- In every run, a request that may be answered from the cache leaves the channel alone if and only
if the cache holds an entry for its bytes that is not stale. It is then answered by the reply that
was stored last for these bytes, which is no part of a longer answer and came in for a request that
was the same. A reply to a request that may not be answered so was read during the call. -/
theorem answers_recalled (settings : SessionSettings) (socket : Socket) (actions : List Action)
    (hbuilt : ∀ r mode o, Action.send r mode o ∈ actions → r.Built) :
    ∀ pre e post, (Session.new settings socket).trace actions = pre ++ e :: post → ∀ r o,
      (∀ bytes, e.action = .send r .cached o → r.encode = .ok bytes →
        (e.before.Spares r .cached o ↔ e.before.cache.contains bytes o.asked = true) ∧
        (e.before.calls e.action = [] ↔ e.before.cache.contains bytes o.asked = true) ∧
        (e.before.cache.contains bytes o.asked = true →
          ∃ reply before e' after r' o', e.Returned reply ∧ reply.isContinued = false ∧
            pre = before ++ e' :: after ∧ e'.Stores bytes reply ∧
            (∀ e'' ∈ after, ∀ reply', ¬e''.Stores bytes reply') ∧
            e'.action = .send r' .cached o' ∧ e'.Returned reply ∧
            ∃ t, r.labels? = some t ∧ r'.labels? = some t)) ∧
      (e.action = .send r .bypass o → ∀ reply, e.Returned reply →
        ∃ bytes document, r.encode = .ok bytes ∧
          (exchange e.before.channel bytes (e.before.waits o)).1 = .ok document ∧
          Reply.ofDocument document (e.before.replies + 1) = .ok reply) := by
  intro pre e post heq r o
  have htrace := recalling_trace actions (recalling_new settings socket)
  obtain ⟨hrecalling, hmem, hperform⟩ := htrace pre e post heq
  rw [List.nil_append] at hrecalling
  have hresult : e.result = (e.before.perform e.action).1 := congrArg Prod.fst hperform
  have htallied := hrecalling.sound.toTallied
  refine ⟨fun bytes ha hb => ⟨?_, ?_, fun hc => ?_⟩, fun ha reply hr => ?_⟩
  · rw [spares_iff hb, hits_cached htallied]
  · rw [ha, calls_eq_nil_iff hb, hits_cached htallied]
  · obtain ⟨x, hx, rfl, hnow⟩ := (htallied.contains_iff bytes o.asked).1 hc
    have hlookup := htallied.lookup_eq_some_iff.2 ⟨x, hx, rfl, hnow, rfl⟩
    have hsend := send_of_lookup_some (o := o) hb (Prod.ext hlookup rfl)
    obtain ⟨before, e', after, rfl, hstores, hlast⟩ := hrecalling.recalls x hx
    obtain ⟨r', o', ha', hb', hread, -⟩ := id hstores
    obtain ⟨-, hmem', -⟩ := htrace before e' (after ++ e :: post) (by rw [heq]; simp)
    rw [ha] at hmem hresult
    rw [ha'] at hmem'
    refine ⟨x.reply, before, e', after, r', o', ?_, hrecalling.whole x hx, rfl, hstores, hlast, ha',
      hread.1, (hbuilt _ _ _ hmem).labels_eq (hbuilt _ _ _ hmem') hb hb'⟩
    simp only [Session.perform, hsend] at hresult
    exact hresult
  · rw [ha] at hresult
    rw [Event.Returned, hresult] at hr
    exact read_of_bypass (Option.some.inj hr)

/-- A request is answered, answered again from the cache, and answered anew when the cache is not
asked. -/
theorem answers_recalled_sample : ∃ (r : Request) (bytes : Bytes) (o : Occasion)
    (e₁ e₂ e₃ : Event), r.encode = .ok bytes ∧
      (Session.new {} (.connected none)).trace
        [.send r .cached o, .send r .cached o, .send r .bypass o] = [e₁, e₂, e₃] ∧
      e₂.before.cache.contains bytes o.asked = true ∧ e₂.before.Spares r .cached o ∧
      e₂.Returned (sampleReply 1) ∧ e₁.Stores bytes (sampleReply 1) ∧
      e₃.Returned (sampleReply 2) ∧ ∃ document,
        (exchange e₃.before.channel bytes (e₃.before.waits o)).1 = .ok document := by
  let r := Request.bare "a" "x"
  obtain ⟨bytes, hb⟩ : ∃ bytes, r.encode = .ok bytes := ⟨_, rfl⟩
  obtain ⟨hsent, -⟩ := sampleResponse.encode_eq_ok_iff.1 rfl
  have ha := Wire.decodeDocument_single hsent (by decide)
  let answer := sampleResponse.units.flatMap WireUnit.bytes
  let o : Occasion := ⟨0, 0, [PeerAction.write answer]⟩
  let s₀ := Session.new {} (.connected none)
  have hr₁ : Reply.ofDocument ⟨.document, .single sampleResponse⟩ (s₀.replies + 1) =
      .ok (sampleReply 1) := rfl
  obtain ⟨s₁, hask₁, hup₁, hn₁, htime₁, hc₁⟩ := ask_answered bytes .cached 0 Channel.up_new
    (show s₀.isExpired 0 = false by decide) ha hr₁
  have hsend₁ : s₀.send r .cached o = (.ok (sampleReply 1), s₁) :=
    (send_of_lookup_none hb rfl).trans hask₁
  have hcontains : s₁.cache.contains bytes 0 = true := by
    rw [hc₁, ← Except.ok.inj hb]
    rfl
  have hl₁ : (s₁.cache.lookup bytes 0).1 = some (sampleReply 1) := by
    rw [hc₁, ← Except.ok.inj hb]
    rfl
  have hsend₂ := send_of_lookup_some (o := o) hb (Prod.ext hl₁ rfl)
  let s₂ := { s₁ with cache := (s₁.cache.lookup bytes 0).2 }.note (sampleReply 1)
  have htime₂ : s₂.isExpired 0 = false := by
    simp only [s₂, isExpired, note_timeout, htime₁]
    decide
  have hr₂ : Reply.ofDocument ⟨.document, .single sampleResponse⟩ (s₂.replies + 1) =
      .ok (sampleReply 2) := by
    simp only [s₂, note_replies, hn₁]
    rfl
  have hup₂ : s₂.channel.Up := by
    rw [note_channel]
    exact hup₁
  obtain ⟨s₃, hask₃, -⟩ := ask_answered bytes .bypass 0 hup₂ htime₂ ha hr₂
  have hsend₃ : s₂.send r .bypass o = (.ok (sampleReply 2), s₃) := (send_bypass hb).trans hask₃
  have htrace := trace_send hsend₁ [.send r .cached o, .send r .bypass o]
  rw [trace_send hsend₂, trace_send hsend₃, trace] at htrace
  have hbuilt : ∀ r' mode o', Action.send r' mode o' ∈
      [.send r .cached o, .send r .cached o, .send r .bypass o] → r'.Built := by
    intro r' mode o' h
    have hr : r' = r := by
      simp only [List.mem_cons, Action.send.injEq, List.not_mem_nil, or_false] at h
      rcases h with ⟨h, -⟩ | ⟨h, -⟩ | ⟨h, -⟩ <;> exact h
    rw [hr]
    exact .withValue "a" "x" ""
  have hrecalled := answers_recalled {} (.connected none) _ hbuilt
  rw [htrace] at hrecalled
  obtain ⟨hcached, -⟩ := hrecalled [_] _ _ rfl r o
  obtain ⟨hspares, -, hfound⟩ := hcached bytes rfl hb
  obtain ⟨-, hbypass⟩ := hrecalled [_, _] _ _ rfl r o
  obtain ⟨bytes', document, hb', hx, -⟩ := hbypass rfl (sampleReply 2) rfl
  obtain rfl := Except.ok.inj (hb.symm.trans hb')
  obtain ⟨reply, before, e', after, r', o', hreturned, -, hpre, hstores, -⟩ := hfound hcontains
  obtain rfl := Except.ok.inj (Option.some.inj hreturned)
  obtain ⟨rfl, rfl, -⟩ : before = [] ∧ e' = _ ∧ after = [] := by
    rcases before with _ | ⟨e'', before⟩
    · simp only [List.nil_append, List.cons.injEq] at hpre
      exact ⟨rfl, hpre.1.symm, hpre.2.symm⟩
    · simp at hpre
  exact ⟨r, bytes, o, _, _, _, hb, htrace, hcontains, hspares.2 hcontains, rfl, hstores, rfl,
    document, hx⟩

end Session

end Treegram
