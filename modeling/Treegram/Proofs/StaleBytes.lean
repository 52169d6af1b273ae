import Treegram.Proofs.Drains
import Treegram.Proofs.SentRequests

/-!
# Stale bytes

Bytes that are in the buffer or at the socket when a request is sent are dropped before anything
else happens, and of them nothing is left but their number, which nobody uses. But it takes the more
reads to drop them the more there are. So two sessions that differ in such bytes only
(`SameButStale`) can be told apart by a request only if the peer acts while they are dropped
(`not_ignoresStale`). If it does the same by the last read in both, they are the same behind each
request that goes to the peer; and whatever it does, one session comes to what the other comes to
with a peer that does the same at other times (`send_stale`). Over whole runs with a peer that waits
for the requests, every request comes to the same (`trace_stale`).
-/

namespace Treegram

/-- The occasion on which the peer acts at other times while stale bytes are dropped. -/
def Occasion.retimed (o : Occasion) (draining : List (List PeerAction)) : Occasion :=
  { o with peer := { o.peer with draining } }

namespace Session

/-- If the peer has done the same by the last read of a drain, and does the same behind it, stale
bytes make no difference. -/
theorem exchange_congr {c c' : Channel} (h : c'.emptied = c.emptied) (bytes : Bytes)
    {peer : Conduct} {draining : List (List PeerAction)}
    (hduring : c.duringDrain draining = c'.duringDrain peer.draining)
    (hafter : c.afterDrain draining = c'.afterDrain peer.draining) :
    exchange c' bytes peer = exchange c bytes { peer with draining } := by
  have hsame := Channel.emptied_foldl_after (c'.duringDrain peer.draining) h
  rw [exchange_eq, exchange_eq, hduring, hafter, Channel.drainStale_of_emptied hsame]
  rcases ((c'.duringDrain peer.draining).foldl Channel.after c).drainStale with ⟨e | n, c₁⟩ <;> rfl

/-- Whether the sessions differ at most in bytes that came in and were not read. -/
structure SameButStale (s s' : Session) : Prop where
  rest : s' = { s with channel := s'.channel }
  channel : s'.channel.emptied = s.channel.emptied

section

variable {s s' : Session}

theorem waits_retimed (s : Session) (o : Occasion) (draining : List (List PeerAction)) :
    s.waits (o.retimed draining) = { s.waits o with draining } := by
  show (if s.isExpired o.asked then _ else _) = _
  unfold waits
  split <;> rfl

theorem SameButStale.ask (h : s.SameButStale s') (bytes : Bytes) (mode : CacheMode)
    {o : Occasion} {draining : List (List PeerAction)}
    (hduring : s.channel.duringDrain draining = s'.channel.duringDrain o.peer.draining)
    (hafter : s.channel.afterDrain draining = s'.channel.afterDrain o.peer.draining) :
    s'.ask bytes mode o = s.ask bytes mode (o.retimed draining) := by
  have hx : exchange s'.channel bytes (s.waits o) =
      exchange s.channel bytes (s.waits (o.retimed draining)) := by
    rw [waits_retimed]
    rw [← s.waits_draining o] at hduring hafter
    exact exchange_congr h.channel bytes hduring hafter
  rw [h.rest]
  unfold Session.ask
  simp only [show ({ s with channel := s'.channel } : Session).waits o = s.waits o from rfl, hx]
  rfl

theorem SameButStale.note (h : s.SameButStale s') (r : Reply) :
    (s.note r).SameButStale (s'.note r) := by
  have hs := h.rest
  refine ⟨?_, ?_⟩
  · rw [note_channel, hs]
    unfold Session.note
    split <;> rfl
  · rw [note_channel, note_channel]
    exact h.channel

theorem SameButStale.setCache (h : s.SameButStale s') (cache : Cache) :
    { s with cache }.SameButStale { s' with cache } where
  rest := by
    have hs := h.rest
    rw [hs]
  channel := h.channel

/-- A request that goes to the peer comes to the same and does the same to both, if the peer has
done the same by the last read of the drain. -/
theorem SameButStale.send_of_miss (h : s.SameButStale s') {r : Request} {mode : CacheMode}
    {o : Occasion} {bytes : Bytes} (hb : r.encode = .ok bytes)
    (hm : s.hits mode bytes o.asked = false) {draining : List (List PeerAction)}
    (hduring : s.channel.duringDrain draining = s'.channel.duringDrain o.peer.draining)
    (hafter : s.channel.afterDrain draining = s'.channel.afterDrain o.peer.draining) :
    s'.send r mode o = s.send r mode (o.retimed draining) := by
  cases mode with
  | bypass => rw [send_bypass hb, send_bypass hb, h.ask bytes .bypass hduring hafter]
  | cached =>
    have hcache : s'.cache = s.cache := by rw [h.rest]
    rcases hl : s.cache.lookup bytes o.asked with ⟨_ | reply, cache⟩
    · have hl' : s'.cache.lookup bytes o.asked = (none, cache) := by rw [hcache, hl]
      rw [send_of_lookup_none hb hl', send_of_lookup_none (o := o.retimed draining) hb hl]
      exact (h.setCache cache).ask bytes .cached hduring hafter
    · simp [Session.hits, hl] at hm

theorem SameButStale.send_of_alike (h : s.SameButStale s') {r : Request} {mode : CacheMode}
    {o : Occasion} {bytes : Bytes} (hb : r.encode = .ok bytes)
    (hm : s.hits mode bytes o.asked = false)
    (hafter : s'.channel.afterDrain o.peer.draining = s.channel.afterDrain o.peer.draining) :
    s'.send r mode o = s.send r mode o := by
  refine h.send_of_miss hb hm ?_ hafter.symm
  have hsame := (s.channel.duringDrain_append o.peer.draining).trans
    (s'.channel.duringDrain_append o.peer.draining).symm
  rw [hafter] at hsame
  exact List.append_cancel_right hsame

/-- The peer may do at other times what it does, so that it has done the same by the last read. -/
theorem SameButStale.exists_retimed (h : s.SameButStale s') {r : Request} {mode : CacheMode}
    {o : Occasion} {bytes : Bytes} (hb : r.encode = .ok bytes)
    (hm : s.hits mode bytes o.asked = false) :
    ∃ draining, draining.flatten = o.peer.draining.flatten ∧
      s'.send r mode o = s.send r mode (o.retimed draining) := by
  let actions := s'.channel.duringDrain o.peer.draining
  let left := (s'.channel.drain o.peer.draining).2.2
  let k := (actions.foldl Channel.after s.channel).socket.incoming.length
  let draining := actions :: (.replicate k [] ++ left)
  obtain ⟨j, hj⟩ := Channel.drain_padded left k s.channel actions (Nat.le_refl k)
  have hflatten : draining.flatten = actions ++ left.flatten := by
    simp [draining]
  have hafter : s.channel.afterDrain draining = left.flatten := by
    rw [Channel.afterDrain, hj]
    simp
  have hduring : s.channel.duringDrain draining = actions := by
    have happ := s.channel.duringDrain_append draining
    rw [hafter, hflatten] at happ
    exact List.append_cancel_right happ
  refine ⟨draining, ?_, h.send_of_miss hb hm hduring hafter⟩
  rw [hflatten]
  exact s'.channel.duringDrain_append o.peer.draining

/-- A request that is answered from the cache, or not at all, touches neither channel. -/
theorem SameButStale.send_of_hit (h : s.SameButStale s') {r : Request} {mode : CacheMode}
    {o : Occasion} (hm : ∀ bytes, r.encode = .ok bytes → s.hits mode bytes o.asked = true) :
    (s'.send r mode o).1 = (s.send r mode o).1 ∧
      (s.send r mode o).2.SameButStale (s'.send r mode o).2 ∧
      (s.send r mode o).2.channel = s.channel ∧ (s'.send r mode o).2.channel = s'.channel := by
  rcases hb : r.encode with e | bytes
  · simp only [Session.send, hb]
    exact ⟨trivial, h, trivial, trivial⟩
  · have hhit := hm bytes hb
    cases mode with
    | bypass => simp [Session.hits] at hhit
    | cached =>
      have hcache : s'.cache = s.cache := by rw [h.rest]
      rcases hl : s.cache.lookup bytes o.asked with ⟨_ | reply, cache⟩
      · simp [Session.hits, hl] at hhit
      · have hl' : s'.cache.lookup bytes o.asked = (some reply, cache) := by rw [hcache, hl]
        rw [send_of_lookup_some hb hl, send_of_lookup_some hb hl', note_channel, note_channel]
        exact ⟨rfl, (h.setCache cache).note reply, rfl, rfl⟩

/-! ## Runs -/

/-- Whether the peer lets a request be sent before it acts. -/
def Action.isPatient : Action → Prop
  | send _ _ o => o.peer.draining.flatten = []
  | _ => True

/-- With a patient peer whatever happens comes to the same, and leaves sessions that differ at most
in stale bytes. -/
theorem SameButStale.perform (h : s.SameButStale s') {a : Action} (ha : a.isPatient) :
    (s'.perform a).1 = (s.perform a).1 ∧ (s.perform a).2.SameButStale (s'.perform a).2 := by
  have hs := h.rest
  have hcache : s'.cache = s.cache := by rw [hs]
  cases a with
  | send r mode o =>
    by_cases hm : ∃ bytes, r.encode = .ok bytes ∧ s.hits mode bytes o.asked = false
    · obtain ⟨bytes, hb, hm⟩ := hm
      have hnone := Channel.afterDrain_of_silent ha
      have hsend := h.send_of_alike hb hm ((hnone _).trans (hnone _).symm)
      simp only [Session.perform, hsend]
      exact ⟨trivial, rfl, rfl⟩
    · have hhit : ∀ bytes, r.encode = .ok bytes → s.hits mode bytes o.asked = true := by
        intro bytes hb
        by_contra hne
        exact hm ⟨bytes, hb, Bool.eq_false_iff.2 hne⟩
      obtain ⟨hresult, hafter, -⟩ := h.send_of_hit hhit
      exact ⟨congrArg some hresult, hafter⟩
  | clearCache all now =>
    simp only [Session.perform, clearCache, hcache]
    exact ⟨trivial, h.setCache _⟩
  | lookUp key now =>
    simp only [Session.perform, hcache]
    exact ⟨trivial, h.setCache _⟩
  | setLifetime lifetime =>
    simp only [Session.perform, hcache]
    exact ⟨trivial, h.setCache _⟩
  | setBudget budget =>
    simp only [Session.perform, hcache]
    exact ⟨trivial, h.setCache _⟩
  | setTimeout timeout => exact ⟨rfl, by rw [hs]; rfl, h.channel⟩
  | raise raised =>
    refine ⟨rfl, by rw [hs]; rfl, ?_⟩
    exact congrArg (fun c : Channel => { c with raised }) h.channel
  | peer action =>
    refine ⟨rfl, by rw [hs]; rfl, ?_⟩
    exact Channel.emptied_foldl_after [action] h.channel

/-- Over a whole run with a patient peer all comes to the same, event by event. -/
theorem trace_stale (actions : List Action) : (∀ a ∈ actions, a.isPatient) →
    ∀ {s s' : Session}, s.SameButStale s' →
      List.Forall₂ (fun e e' => e'.result = e.result ∧ e.after.SameButStale e'.after)
        (s.trace actions) (s'.trace actions) := by
  induction actions with
  | nil => exact fun _ _ _ _ => .nil
  | cons a actions ih =>
    intro hactions s s' h
    rw [List.forall_mem_cons] at hactions
    obtain ⟨hresult, hafter⟩ := h.perform hactions.1
    exact .cons ⟨hresult, hafter⟩ (ih hactions.2 hafter)

end

/-! ## A peer that does not wait -/

/-- A peer that writes its answer while stale bytes are dropped is heard if there are none behind
its answer to drop. -/
theorem exchange_racing {c : Channel} (h : c.Up) (bytes : Bytes) {answer : Bytes}
    {draining : List (List PeerAction)} (hflatten : draining.flatten = [.write answer]) :
    ∃ c' : Channel, c'.Up ∧
      c'.unread = (if c.afterDrain draining = [] then [] else answer) ∧
      exchange c bytes { draining, answer := [] } = c'.receiveDocument [] := by
  have hup : ((c.duringDrain draining).foldl Channel.after c).Up ∧
      (c.afterDrain draining = [] ∨ c.afterDrain draining = [.write answer]) := by
    have happ := (c.duringDrain_append draining).trans hflatten
    rcases List.append_eq_singleton_iff.1 happ with ⟨hduring, hafter⟩ | ⟨hduring, hafter⟩ <;>
      rw [hduring]
    · exact ⟨h, Or.inr hafter⟩
    · exact ⟨(h.after_write answer).1, Or.inl hafter⟩
  obtain ⟨n, c₁, hdrain, h₁, hun₁⟩ := hup.1.drainStale
  rw [exchange_eq]
  simp only [hdrain]
  rcases hup.2 with hafter | hafter <;> rw [hafter]
  · obtain ⟨c₂, hsend, h₂, hun₂⟩ := h₁.sendAll bytes
    refine ⟨c₂, h₂, by rw [hun₂, hun₁, if_pos rfl], ?_⟩
    simp only [List.foldl_nil, hsend]
  · obtain ⟨h₂, hun₂⟩ := h₁.after_write answer
    obtain ⟨c₃, hsend, h₃, hun₃⟩ := h₂.sendAll bytes
    refine ⟨c₃, h₃, by rw [hun₃, hun₂, hun₁, if_neg (by simp), List.nil_append], ?_⟩
    simp only [List.foldl_cons, List.foldl_nil, hsend]

/-- Whether sessions that differ in stale bytes only get the same for a request, whenever the peer
acts. -/
def IgnoresStale : Prop :=
  ∀ (settings : SessionSettings) (socket : Socket) (actions actions' : List Action) (r : Request)
    (mode : CacheMode) (o : Occasion),
    let s := (Session.new settings socket).run actions
    let s' := (Session.new settings socket).run actions'
    s.SameButStale s' → s.channel.desynced = false → s'.channel.desynced = false →
      (s'.send r mode o).1 = (s.send r mode o).1

/-- An answer that comes behind the first read. -/
def hasty (answer : Bytes) : Occasion :=
  ⟨0, 0, { draining := [[], [.write answer]], answer := [] }⟩

/-- With nothing stale, the first read is the last. -/
theorem afterDrain_fresh (answer : Bytes) :
    (Session.new {} (.connected none)).channel.afterDrain (hasty answer).peer.draining =
      [.write answer] := by
  rw [Channel.afterDrain, hasty, Channel.drain_of_nothing rfl]
  rfl

/-- With something stale, it is followed by one that drops the answer. -/
theorem afterDrain_stale {c : Channel} (h : c.Up) (hs : c.socket.incoming ≠ []) {answer : Bytes}
    (ha : answer ≠ []) : c.afterDrain (hasty answer).peer.draining = [] := by
  have hwritten : (c.afterRead.after (.write answer)).socket.incoming ≠ [] := by
    rw [show (c.afterRead.after (.write answer)).socket.incoming = _ from
      c.afterRead.socket.incoming_after _, show c.afterRead.socket.isEnded = false from h.isEnded]
    exact List.append_ne_nil_of_right_ne_nil _ ha
  obtain ⟨n, -, hfirst⟩ := Channel.drain_of_bytes [] hs [[.write answer]]
  obtain ⟨m, -, hsecond⟩ := Channel.drain_of_bytes [.write answer] hwritten []
  rw [Channel.afterDrain, hasty, hfirst]
  exact congrArg (fun p => List.flatten p.2.2) hsecond

/-- What a request on a connection that is up comes to with such an answer. -/
theorem send_hasty {s : Session} (h : s.channel.Up) (he : s.isExpired 0 = false) {r : Request}
    {bytes : Bytes} (hb : r.encode = .ok bytes) {answer : Bytes} {t : Tree Label}
    (hne : answer ≠ []) (ha : Wire.decodeDocument answer = (.ok t, [])) {reply : Reply}
    (hr : Reply.ofDocument t (s.replies + 1) = .ok reply) :
    (s.channel.afterDrain (hasty answer).peer.draining = [] →
      (s.send r .bypass (hasty answer)).1 = .error .timeout) ∧
    (s.channel.afterDrain (hasty answer).peer.draining ≠ [] →
      (s.send r .bypass (hasty answer)).1 = .ok reply) := by
  have hw : s.waits (hasty answer) = (hasty answer).peer := waits_of_isExpired he
  obtain ⟨c, hup, hun, hx⟩ := exchange_racing h bytes
    (show (hasty answer).peer.draining.flatten = [.write answer] from rfl)
  rw [send_bypass hb]
  constructor <;> intro hafter
  · rw [if_pos hafter] at hun
    obtain ⟨c', hc', -⟩ := hup.receiveDocument_cut hne (by rw [hun]; exact ha)
    unfold Session.ask
    rw [hw, show exchange s.channel bytes (hasty answer).peer = _ from hx.trans hc']
  · rw [if_neg hafter] at hun
    obtain ⟨c', hc', -⟩ := (Channel.calm_nil c).receiveDocument_of_ok hup.desynced
      (show Wire.decodeDocument (c.visible false) = _ by
        rw [show c.visible false = answer from hun]
        exact ha)
    rw [← hw] at hx
    obtain ⟨s', hask, -⟩ := ask_of_exchange (o := hasty answer) .bypass
      (by rw [hw]; exact (hw ▸ hx).trans hc') hr
    rw [hask]

/-- With a peer that does not wait, stale bytes may cost a request its answer. -/
theorem not_ignoresStale : ¬IgnoresStale := by
  obtain ⟨bytes, hb⟩ : ∃ bytes, (Request.bare "a" "x").encode = .ok bytes := ⟨_, rfl⟩
  obtain ⟨hsent, -⟩ := sampleResponse.encode_eq_ok_iff.1 rfl
  have ha := Wire.decodeDocument_single hsent (by decide)
  have hne : sampleResponse.units.flatMap WireUnit.bytes ≠ [] := by decide
  have hfresh := send_hasty Channel.up_new (s := Session.new {} (.connected none)) (by decide) hb
    hne ha rfl
  have hstale := send_hasty (s := (Session.new {} (.connected none)).run [.peer (.write [0])])
    (Channel.up_new.after_write [0]).1 (by decide) hb hne ha rfl
  intro h
  have hsame := h {} (.connected none) [] [.peer (.write [0])] (.bare "a" "x") .bypass
    (hasty (sampleResponse.units.flatMap WireUnit.bytes)) ⟨rfl, rfl⟩ rfl rfl
  rw [hstale.1 (afterDrain_stale (Channel.up_new.after_write [0]).1 (List.cons_ne_nil 0 []) hne)]
    at hsame
  have hkept := hfresh.2 (by rw [afterDrain_fresh]; simp)
  exact absurd (hsame.trans hkept) (by simp)

/-- A request that goes to the peer does the same, to the last byte, to sessions that differ in
stale bytes only, if the peer has the same left to do when these are dropped; and in any case it
does to one what it does to the other if the peer does the same, in order, at other times. One that
is answered from the cache, or not at all, comes to the same and leaves stale bytes where they
are. -/
theorem send_stale {s s' : Session} (h : s.SameButStale s') (r : Request) (mode : CacheMode)
    (o : Occasion) :
    (∀ bytes, r.encode = .ok bytes → s.hits mode bytes o.asked = false →
      (s'.channel.afterDrain o.peer.draining = s.channel.afterDrain o.peer.draining →
        s'.send r mode o = s.send r mode o) ∧
      ∃ draining, draining.flatten = o.peer.draining.flatten ∧
        s'.send r mode o = s.send r mode (o.retimed draining)) ∧
    ((∀ bytes, r.encode = .ok bytes → s.hits mode bytes o.asked = true) →
      (s'.send r mode o).1 = (s.send r mode o).1 ∧
        (s.send r mode o).2.SameButStale (s'.send r mode o).2 ∧
        (s.send r mode o).2.channel = s.channel ∧ (s'.send r mode o).2.channel = s'.channel) :=
  ⟨fun _ hb hm => ⟨h.send_of_alike hb hm, h.exists_retimed hb hm⟩, h.send_of_hit⟩

def lateResponse : Tree Label := ⟨.element Reply.responseName "late", .nil⟩

/-- An old reply is around, and a part of it once more; the request gets the reply that follows. If
that follows on the first read it is dropped, and so it is without the old one if it comes earlier.
A reply that is kept is found again, whatever is around. -/
theorem send_stale_sample : ∃ (s s' kept kept' : Session) (r : Request)
    (bytes late answer : Bytes),
    let o : Occasion := ⟨0, 0, [PeerAction.write answer]⟩
    (s.SameButStale s' ∧ s'.channel.unread = s.channel.unread ++ (late ++ late.take 3) ∧
      Wire.decodeDocument late = (.ok ⟨.document, .single lateResponse⟩, [])) ∧
    (r.encode = .ok bytes ∧ s.hits .cached bytes 0 = false ∧
      (s'.send r .cached o).1 = .ok (sampleReply 1) ∧ s'.send r .cached o = s.send r .cached o) ∧
    ((s'.send r .bypass (hasty answer)).1 = .error .timeout ∧
      ∃ draining, draining.flatten = [.write answer] ∧
        s'.send r .bypass (hasty answer) = s.send r .bypass ((hasty answer).retimed draining)) ∧
    kept.SameButStale kept' ∧ kept.hits .cached bytes 0 = true ∧
      kept'.channel.unread = kept.channel.unread ++ late ∧
      (kept'.send r .cached o).1 = (kept.send r .cached o).1 ∧
      (kept'.send r .cached o).2.channel = kept'.channel := by
  let r := Request.bare "a" "x"
  obtain ⟨bytes, hb⟩ : ∃ bytes, r.encode = .ok bytes := ⟨_, rfl⟩
  obtain ⟨hsent, -⟩ := sampleResponse.encode_eq_ok_iff.1 rfl
  obtain ⟨hlate, -⟩ := lateResponse.encode_eq_ok_iff.1 rfl
  have hanswer := Wire.decodeDocument_single hsent (by decide)
  let late := lateResponse.units.flatMap WireUnit.bytes
  let answer := sampleResponse.units.flatMap WireUnit.bytes
  have hne : answer ≠ [] := by decide
  let s := Session.new {} (.connected none)
  let s' := { s with channel := s.channel.after (.write (late ++ late.take 3)) }
  have hstale : s.SameButStale s' := ⟨rfl, rfl⟩
  have hmiss : s.hits .cached bytes 0 = false := rfl
  have hr : Reply.ofDocument ⟨.document, .single sampleResponse⟩ (s.replies + 1) =
      .ok (sampleReply 1) := rfl
  obtain ⟨kept, hask, hup, -, -, hcache⟩ := ask_answered bytes .cached 0 Channel.up_new
    (show s.isExpired 0 = false by decide) hanswer hr
  have hsend : s.send r .cached ⟨0, 0, [PeerAction.write answer]⟩ = (.ok (sampleReply 1), kept) :=
    (send_of_lookup_none hb rfl).trans hask
  let kept' := { kept with channel := kept.channel.after (.write late) }
  have hkept : kept.SameButStale kept' := by
    refine ⟨rfl, ?_⟩
    show (kept.channel.after (.write late)).emptied = _
    simp only [Channel.emptied, Channel.after, Socket.after, hup.isEnded, Bool.false_eq_true,
      if_false]
  have hhit : kept.hits .cached bytes 0 = true := by
    have hl : (kept.cache.lookup bytes 0).1 = some (sampleReply 1) := by
      rw [hcache, ← Except.ok.inj hb]
      rfl
    rw [hits, hl]
    rfl
  obtain ⟨hgoes, -⟩ := send_stale hstale r .cached ⟨0, 0, [PeerAction.write answer]⟩
  obtain ⟨hraces, -⟩ := send_stale hstale r .bypass (hasty answer)
  obtain ⟨-, hfound⟩ := send_stale hkept r .cached ⟨0, 0, [PeerAction.write answer]⟩
  have hsame := (hgoes bytes hb hmiss).1 rfl
  have hup' := (Channel.up_new.after_write (late ++ late.take 3)).1
  have hdropped := (send_hasty (s := s') hup' (by decide) hb hne hanswer hr).1
    (afterDrain_stale hup' (by decide) hne)
  obtain ⟨hresult, -, -, hchannel⟩ := hfound fun bytes' hb' => by
    rw [← Except.ok.inj (hb.symm.trans hb')]
    exact hhit
  exact ⟨s, s', kept, kept', r, bytes, late, answer,
    ⟨hstale, (Channel.up_new.after_write (late ++ late.take 3)).2,
      Wire.decodeDocument_single hlate (by decide)⟩,
    ⟨hb, hmiss, by rw [hsame, hsend], hsame⟩, ⟨hdropped, (hraces bytes hb rfl).2⟩,
    hkept, hhit, (hup.after_write late).2, hresult, hchannel⟩

end Session

end Treegram
