import Treegram.Proofs.CachedAnswers

/-!
# Requests that fail

A request that fails may have asked the cache before, and a miss drops what is stale there; no
failure does more to the cache (`Cache.Aged`). A message that comes in without a response is counted
as a reply, and no other failure is. The status of the session is that of the reply before, whatever
fails (`send_failed`).
-/

namespace Treegram

namespace Cache

/-- Whether the cache is `c` without the entries that are stale at the time. -/
structure Aged (c : Cache) (now : Instant) (c' : Cache) : Prop where
  tallied : c'.Tallied
  entries : c'.entries = c.entries.filter fun e => now < e.expires
  lifetime : c'.lifetime = c.lifetime
  budget : c'.budget = c.budget

section

variable {c : Cache} {now : Instant}

theorem Tallied.aged_expireIfDue (h : c.Tallied) (now : Instant) :
    c.Aged now (c.expireIfDue now) :=
  ⟨h.expireIfDue now, h.entries_expireIfDue now, c.lifetime_expireIfDue now,
    (c.budget_expireIfDue now).1⟩

/-- A look-up that finds nothing does no more than to drop stale entries. -/
theorem eq_of_lookup_none {c' : Cache} {key : Bytes} (h : c.lookup key now = (none, c')) :
    c' = c.expireIfDue now := by
  unfold Cache.lookup at h
  dsimp only at h
  split at h
  · simp at h
  · simp only [Prod.mk.injEq, true_and] at h
    exact h.symm

end

end Cache

namespace Session

/-- Whether a whole message comes in for the request, and there is no response in it. -/
def LacksResponse (s : Session) (r : Request) (o : Occasion) : Prop :=
  ∃ bytes document, r.encode = .ok bytes ∧
    (exchange s.channel bytes (s.waits o)).1 = .ok document ∧
    document.childNamed? Reply.responseName = none

/-- The cache with which a request goes to the peer. -/
def consulted (s : Session) (mode : CacheMode) (now : Instant) : Cache :=
  match mode with
  | .cached => s.cache.expireIfDue now
  | .bypass => s.cache

section

variable {s : Session} {r : Request} {bytes : Bytes} {mode : CacheMode} {o : Occasion} {e : Fault}

theorem send_of_encode_error (h : r.encode = .error e) (mode : CacheMode) (o : Occasion) :
    s.send r mode o = (.error e, s) ∧ s.calls (.send r mode o) = [] := by
  simp only [send, calls, h]
  exact ⟨trivial, trivial⟩

/-- A request that fails has gone to the peer: what the cache answers does not fail. -/
theorem send_of_error (hb : r.encode = .ok bytes) (h : (s.send r mode o).1 = .error e) :
    s.send r mode o = { s with cache := s.consulted mode o.asked }.ask bytes mode o := by
  cases mode with
  | bypass => exact send_bypass hb
  | cached =>
    rcases hl : s.cache.lookup bytes o.asked with ⟨_ | reply, cache⟩
    · rw [send_of_lookup_none hb hl, Cache.eq_of_lookup_none hl]
      rfl
    · rw [send_of_lookup_some hb hl] at h
      simp at h

theorem ask_of_exchange_error {channel : Channel} (mode : CacheMode)
    (h : exchange s.channel bytes (s.waits o) = (.error e, channel)) :
    s.ask bytes mode o = (.error e, { s with channel }) := by
  unfold ask
  rw [h]

/-- What goes wrong with the peer is what the request comes to. -/
theorem send_of_exchange_error {channel : Channel} (hb : r.encode = .ok bytes)
    (hm : s.hits mode bytes o.asked = false)
    (h : exchange s.channel bytes (s.waits o) = (.error e, channel)) :
    (s.send r mode o).1 = .error e := by
  cases mode with
  | bypass => rw [send_bypass hb, ask_of_exchange_error .bypass h]
  | cached =>
    rcases hl : s.cache.lookup bytes o.asked with ⟨_ | reply, cache⟩
    · rw [send_of_lookup_none hb hl, ask_of_exchange_error (s := { s with cache }) .cached h]
    · simp [hits, hl] at hm

theorem ofDocument_eq_error {document : Tree Label} {id : Nat}
    (h : Reply.ofDocument document id = .error e) :
    document.childNamed? Reply.responseName = none ∧ e = .malformed .noResponse := by
  unfold Reply.ofDocument at h
  split at h
  · simp at h
  · rename_i hnone
    exact ⟨hnone, (Except.error.inj h).symm⟩

/-- What goes to the peer fails on the way, or with a message that holds no response; only that is
counted. -/
theorem ask_of_error (h : (s.ask bytes mode o).1 = .error e) :
    ((exchange s.channel bytes (s.waits o)).1 = .error e ∧
      (s.ask bytes mode o).2 = { s with channel := (exchange s.channel bytes (s.waits o)).2 }) ∨
    ((∃ document, (exchange s.channel bytes (s.waits o)).1 = .ok document ∧
        document.childNamed? Reply.responseName = none) ∧
      e = .malformed .noResponse ∧
      (s.ask bytes mode o).2 =
        { s with
          channel := (exchange s.channel bytes (s.waits o)).2
          replies := s.replies + 1 }) := by
  unfold ask at h ⊢
  rcases hx : exchange s.channel bytes (s.waits o) with ⟨f | document, channel⟩
  · simp only [hx, Except.error.injEq] at h
    exact Or.inl ⟨by rw [h], rfl⟩
  · rcases hr : Reply.ofDocument document (s.replies + 1) with f | reply
    · obtain ⟨hnone, hf⟩ := ofDocument_eq_error hr
      simp only [hx, hr, Except.error.injEq] at h
      simp only [hr]
      exact Or.inr ⟨⟨document, rfl, hnone⟩, h.symm.trans hf, trivial⟩
    · simp [hx, hr] at h

/-- Whether the status and the settings of the sessions are the same. -/
structure SameStatus (s s' : Session) : Prop where
  lastStatus : s'.lastStatus = s.lastStatus
  agent : s'.agent = s.agent
  timeout : s'.timeout = s.timeout

theorem cache_send_of_error (hb : r.encode = .ok bytes) (h : (s.send r mode o).1 = .error e) :
    (s.send r mode o).2.cache = s.consulted mode o.asked := by
  have hsend := send_of_error hb h
  rw [hsend] at h ⊢
  rcases ask_of_error h with ⟨-, hs⟩ | ⟨-, -, hs⟩ <;> rw [hs]

theorem cache_send_bypass (s : Session) (r : Request) (o : Occasion) :
    (s.send r .bypass o).2.cache = s.cache := by
  rcases hb : r.encode with e | bytes
  · rw [(send_of_encode_error hb .bypass o).1]
  · rw [send_bypass hb, cache_ask_bypass]

theorem send_counts (h : (s.send r mode o).1 = .error e) :
    s.SameStatus (s.send r mode o).2 ∧
      (s.LacksResponse r o → e = .malformed .noResponse ∧
        (s.send r mode o).2.replies = s.replies + 1) ∧
      (¬s.LacksResponse r o → (s.send r mode o).2.replies = s.replies) := by
  rcases hb : r.encode with f | bytes
  · rw [(send_of_encode_error hb mode o).1]
    refine ⟨⟨rfl, rfl, rfl⟩, ?_, fun _ => rfl⟩
    rintro ⟨bytes, document, hb', -⟩
    simp [hb] at hb'
  · have hsend := send_of_error hb h
    rw [hsend] at h ⊢
    -- the cache has no part in what the peer is asked
    rcases ask_of_error h with ⟨hx, hs⟩ | ⟨⟨document, hx, hnone⟩, he, hs⟩ <;> rw [hs]
    · refine ⟨⟨rfl, rfl, rfl⟩, ?_, fun _ => rfl⟩
      rintro ⟨bytes', document, hb', hx', -⟩
      obtain rfl := Except.ok.inj (hb.symm.trans hb')
      exact absurd (hx.symm.trans hx') (by simp)
    · exact ⟨⟨rfl, rfl, rfl⟩, fun _ => ⟨he, rfl⟩,
        fun hn => absurd ⟨bytes, document, hb, hx, hnone⟩ hn⟩

end

theorem Recalling.run : ∀ (actions : List Action) {s : Session} {past : List Event},
    s.Recalling past → ∃ past', (s.run actions).Recalling past'
  | [], _, past, h => ⟨past, h⟩
  | a :: actions, _, _, h => (h.perform a).run actions

/-- Whatever is done to a session, the books of its cache are right. -/
theorem tallied_run (settings : SessionSettings) (socket : Socket) (actions : List Action) :
    ((Session.new settings socket).run actions).cache.Tallied := by
  obtain ⟨_, h⟩ := (recalling_new settings socket).run actions
  exact h.sound.toTallied

/-- A request that cannot be encoded changes nothing and makes no call. One that may not be
answered from the cache leaves the cache as it is, whatever it comes to, and one that may and fails
has only dropped what was stale, if the books of the cache are right, as they are for every session
that comes up. Whatever fails, the status is that of the reply before, and a reply is counted
exactly if a whole message came in without a response. A request whose arguments are refused
changes nothing. -/
theorem send_failed (s : Session) :
    (∀ r mode o e, r.encode = .error e →
      s.send r mode o = (.error e, s) ∧ s.calls (.send r mode o) = []) ∧
    (∀ r o, (s.send r .bypass o).2.cache = s.cache) ∧
    (s.cache.Tallied → ∀ r o bytes e, r.encode = .ok bytes → (s.send r .cached o).1 = .error e →
      s.cache.Aged o.asked (s.send r .cached o).2.cache) ∧
    (∀ settings socket actions, s = (Session.new settings socket).run actions →
      s.cache.Tallied) ∧
    (∀ r mode o e, (s.send r mode o).1 = .error e →
      s.SameStatus (s.send r mode o).2 ∧
        (s.LacksResponse r o → e = .malformed .noResponse ∧
          (s.send r mode o).2.replies = s.replies + 1) ∧
        (¬s.LacksResponse r o → (s.send r mode o).2.replies = s.replies)) ∧
    ∀ kind mode command args o r e,
      (Request.new s.agent kind command).addArguments args = (r, some e) →
        s.request kind mode command args o = (.error e, s) := by
  refine ⟨fun r mode o e h => send_of_encode_error h mode o, s.cache_send_bypass, ?_, ?_, ?_, ?_⟩
  · intro htallied r o bytes e hb h
    rw [cache_send_of_error hb h]
    exact htallied.aged_expireIfDue o.asked
  · rintro settings socket actions rfl
    exact tallied_run settings socket actions
  · exact fun r mode o e h => send_counts h
  · intro kind mode command args o r e h
    unfold request
    rw [h]

/-- Two entries, the second of which expires at 3. -/
def agingCache : Cache :=
  (((Cache.empty 3 65536).insert [0] (sampleReply 1) 0).2.insert [] (sampleReply 2) 2).2

/-- A request without a command, one to a peer that has closed, behind which of two entries in the
cache the one that is not stale is left, one that is answered by something else than a response, and
one with an argument that is refused. -/
theorem send_failed_sample : ∃ (s up : Session) (nameless r refused : Request) (bytes : Bytes)
    (o o' : Occasion) (f f' : Fault) (x x' : CacheEntry),
    (nameless.encode = .error f ∧ s.send nameless .cached o = (.error f, s)) ∧
    ((up.send r .bypass o').2.cache = up.cache ∧ up.cache.Tallied) ∧
    (s.cache.Tallied ∧ r.encode = .ok bytes ∧ (s.send r .cached o).1 = .error .closed ∧
      s.cache.entries = [x, x'] ∧ (s.send r .cached o).2.cache.entries = [x]) ∧
    (¬s.LacksResponse r o ∧ (s.send r .cached o).2.replies = s.replies) ∧
    (up.LacksResponse r o' ∧ (up.send r .bypass o').1 = .error (.malformed .noResponse) ∧
      (up.send r .bypass o').2.replies = up.replies + 1) ∧
    (Request.new s.agent .parse "x").addArguments [("a", "b")] = (refused, some f') ∧
      s.request .parse .cached "x" [("a", "b")] o = (.error f', s) := by
  let nameless := Request.bare "a" ""
  let r := Request.bare "a" "x"
  obtain ⟨f, hf⟩ : ∃ f, nameless.encode = .error f := ⟨_, rfl⟩
  obtain ⟨b, rest, hb⟩ : ∃ b rest, r.encode = .ok (b :: rest) := ⟨_, _, rfl⟩
  have htallied : agingCache.Tallied :=
    (((Cache.sound_empty 3 65536).insert [0] (sampleReply 1) 0).insert []
      (sampleReply 2) 2).toTallied
  let s := { Session.new {} ((Socket.connected none).after .close) with cache := agingCache }
  let o : Occasion := ⟨4, 4, { answer := [] }⟩
  obtain ⟨channel, hx⟩ : ∃ channel,
      exchange s.channel (b :: rest) (s.waits o) = (.error .closed, channel) := by
    rw [waits_of_isExpired (by decide)]
    exact ⟨_, rfl⟩
  have hclosed : (s.send r .cached o).1 = .error .closed :=
    send_of_exchange_error hb rfl hx
  have hheld : ¬s.LacksResponse r o := by
    rintro ⟨bytes, document, hb', hx', -⟩
    obtain rfl := Except.ok.inj (hb.symm.trans hb')
    simp [hx] at hx'
  let other : Tree Label := ⟨.element "x" "", .nil⟩
  obtain ⟨hother, -⟩ := other.encode_eq_ok_iff.1 rfl
  let up := Session.new {} (.connected none)
  let o' : Occasion := ⟨0, 0, [PeerAction.write (other.units.flatMap WireUnit.bytes)]⟩
  have hx' : ∃ channel, exchange up.channel (b :: rest) (up.waits o') =
      (.ok ⟨.document, .single other⟩, channel) := by
    rw [waits_of_isExpired (by decide)]
    obtain ⟨channel, hx', -⟩ := exchange_answered Channel.up_new (b :: rest)
      (Wire.decodeDocument_single hother (by decide))
    exact ⟨channel, hx'⟩
  obtain ⟨channel', hx'⟩ := hx'
  have hlacks : up.LacksResponse r o' := ⟨_, _, hb, by rw [hx'], rfl⟩
  have hmissing : (up.send r .bypass o').1 = .error (.malformed .noResponse) := by
    rw [send_bypass hb, ask, hx']
    rfl
  obtain ⟨hencode, -, hcached, -, hfails, hrequest⟩ := send_failed s
  obtain ⟨-, hbypass, -, hbooks, hcounts, -⟩ := send_failed up
  refine ⟨s, up, nameless, r, _, b :: rest, o, o', f, _, ⟨[], sampleReply 2, 5, _⟩,
    ⟨[0], sampleReply 1, 3, _⟩, ⟨hf, (hencode nameless .cached o f hf).1⟩,
    ⟨hbypass r o', hbooks {} (.connected none) [] rfl⟩, ⟨htallied, hb, hclosed, rfl, ?_⟩,
    ⟨hheld, (hfails r .cached o _ hclosed).2.2 hheld⟩,
    ⟨hlacks, hmissing, ((hcounts r .bypass o' _ hmissing).2.1 hlacks).2⟩, rfl,
    hrequest .parse .cached "x" _ o _ _ rfl⟩
  rw [(hcached htallied r o _ _ hb hclosed).entries]
  rfl

end Session

end Treegram
