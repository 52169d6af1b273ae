import Treegram.Proofs.FailedRequests
import Treegram.Proofs.OutOfStep

/-!
# Requests on a channel that is out of step

Once a message was cut off, the channel stays out of step and sends nothing any more. Requests are
refused then, but the guard is not what they come upon first. The cache may still answer them; and
the channel is drained before, which tells instead that the connection broke, once
(`send_desynced`).
-/

namespace Treegram

namespace Session

/-- Nothing that is done to a session brings its channel back into step, and nothing is sent. -/
theorem silent_run_of_desynced {s : Session} (h : s.channel.desynced = true)
    (actions : List Action) : s.channel.Silent (s.run actions).channel := by
  rw [run_allCalls]
  exact (Channel.run_of_desynced _ h).1

section

variable {s : Session} {r : Request} {bytes : Bytes} {mode : CacheMode} {o : Occasion}

theorem run_send {result : Except Fault Reply} {s' : Session}
    (h : s.send r mode o = (result, s')) (actions : List Action) :
    s.run (.send r mode o :: actions) = s'.run actions := by
  simp only [run, List.foldl_cons, perform, h]

/-- A request that the cache answers comes to a reply that it holds. -/
theorem send_of_hit (hb : r.encode = .ok bytes) (hm : s.hits mode bytes o.asked = true) :
    ∃ reply, (s.send r mode o).1 = .ok reply ∧ ∃ e ∈ s.cache.entries, e.reply = reply := by
  cases mode with
  | bypass => simp [hits] at hm
  | cached =>
    rcases hl : s.cache.lookup bytes o.asked with ⟨_ | reply, cache⟩
    · simp [hits, hl] at hm
    · refine ⟨reply, by rw [send_of_lookup_some hb hl], ?_⟩
      exact Cache.mem_of_lookup (congrArg Prod.fst hl)

/-- A request that the cache does not answer fails. Behind it there is no reset to report, unless
the peer has closed behind the drain. -/
theorem send_of_miss (h : s.channel.desynced = true) (hb : r.encode = .ok bytes)
    (hm : s.hits mode bytes o.asked = false) :
    (s.send r mode o).1 = .error (if s.channel.breaksDuring o.peer.draining then .reset
        else .desynchronized) ∧
      (.close ∉ s.channel.afterDrain o.peer.draining →
        (s.send r mode o).2.channel.socket.broken = false) := by
  obtain ⟨drained, -, hbroken, hx⟩ := exchange_of_desynced h bytes (s.waits o)
  rw [waits_draining] at hx
  refine ⟨send_of_exchange_error hb hm (Prod.ext ?_ rfl), fun hc => ?_⟩
  · rw [hx]
    split <;> rfl
  · rw [channel_send hb, hm, if_neg Bool.false_ne_true, hx]
    split
    · exact hbroken
    · exact (Channel.broken_foldl_after _ hc).trans hbroken

end

def sampleRequest : Request :=
  .bare "a" "x"

def sampleAnswer : Bytes :=
  sampleResponse.units.flatMap WireUnit.bytes

/-- A reply that is kept, and one that is cut off behind its first byte. -/
def cutReply : List Action :=
  [.send sampleRequest .cached ⟨0, 0, [PeerAction.write sampleAnswer]⟩,
    .send sampleRequest .bypass ⟨0, 0, [PeerAction.write (sampleAnswer.take 1)]⟩]

/-- A request of which only a part goes out, and a peer that closes without reading it. -/
def cutRequest : List Action :=
  [.send sampleRequest .bypass ⟨0, 0, { answer := [] }⟩, .peer .close]

theorem run_cutReply {bytes : Bytes} (hb : sampleRequest.encode = .ok bytes) :
    ((Session.new {} (.connected none)).run cutReply).channel.desynced = true ∧
      ((Session.new {} (.connected none)).run cutReply).hits .cached bytes 0 = true := by
  obtain ⟨hsent, -⟩ := sampleResponse.encode_eq_ok_iff.1 rfl
  have ha : Wire.decodeDocument sampleAnswer = (.ok ⟨.document, .single sampleResponse⟩, []) :=
    Wire.decodeDocument_single hsent (by decide)
  let s₀ := Session.new {} (.connected none)
  have hr : Reply.ofDocument ⟨.document, .single sampleResponse⟩ (s₀.replies + 1) =
      .ok (sampleReply 1) := rfl
  obtain ⟨s₁, hask, hup, -, htime, hcache⟩ := ask_answered bytes .cached 0 Channel.up_new
    (show s₀.isExpired 0 = false by decide) ha hr
  have hsend : s₀.send sampleRequest .cached _ = (.ok (sampleReply 1), s₁) :=
    (send_of_lookup_none hb rfl).trans hask
  let o : Occasion := ⟨0, 0, [PeerAction.write (sampleAnswer.take 1)]⟩
  have hw : s₁.waits o = o.peer := by
    refine waits_of_isExpired ?_
    simp only [isExpired, htime]
    decide
  have hcut : Wire.decodeDocument (sampleAnswer.take 1 ++ sampleAnswer.drop 1) =
      (.ok ⟨.document, .single sampleResponse⟩, []) := by
    rw [List.take_append_drop]
    exact ha
  obtain ⟨c, hx, hd⟩ := exchange_cut hup bytes (by decide) (by decide) hcut
  have hrun : s₀.run cutReply = (s₁.send sampleRequest .bypass o).2 := run_send hsend [_]
  rw [hrun]
  constructor
  · rw [channel_send hb, show s₁.hits .bypass bytes 0 = false from rfl, hw,
      show exchange s₁.channel bytes o.peer = _ from hx]
    exact hd
  · have hl : (s₁.cache.lookup bytes 0).1 = some (sampleReply 1) := by
      rw [hcache, ← Except.ok.inj hb]
      rfl
    rw [hits, cache_send_bypass, hl]
    rfl

theorem run_cutRequest :
    ((Session.new {} (.connected (some 3))).run cutRequest).channel.desynced = true ∧
      ((Session.new {} (.connected (some 3))).run cutRequest).channel.socket.broken = true := by
  decide

/-- Whatever happens to a session whose channel is out of step, the channel stays so and sends
nothing. A request is refused for that if and only if the cache does not answer it and no reset of
the connection is pending when stale bytes are dropped. One the cache answers gets a reply it holds,
and one that comes upon a reset gets that instead, and is the last to get it. -/
theorem send_desynced (s : Session) (h : s.channel.desynced = true) (actions : List Action) :
    let s' := s.run actions
    s'.channel.desynced = true ∧ s'.channel.socket.sent = s.channel.socket.sent ∧
      ∀ r mode o bytes, r.encode = .ok bytes →
        ((s'.send r mode o).1 = .error .desynchronized ↔
          s'.hits mode bytes o.asked = false ∧
            s'.channel.breaksDuring o.peer.draining = false) ∧
        (s'.hits mode bytes o.asked = true →
          ∃ reply, (s'.send r mode o).1 = .ok reply ∧ ∃ e ∈ s'.cache.entries, e.reply = reply) ∧
        (s'.hits mode bytes o.asked = false → s'.channel.breaksDuring o.peer.draining = true →
          (s'.send r mode o).1 = .error .reset) ∧
        (s'.hits mode bytes o.asked = false → .close ∉ s'.channel.afterDrain o.peer.draining →
          (s'.send r mode o).2.channel.socket.broken = false) := by
  intro s'
  obtain ⟨hsent, hdesynced⟩ := silent_run_of_desynced h actions
  have hd : s'.channel.desynced = true := hdesynced.trans h
  refine ⟨hd, hsent, fun r mode o bytes hb => ⟨?_, send_of_hit hb, fun hm hbroken => ?_,
    fun hm => (send_of_miss hd hb hm).2⟩⟩
  · rcases hm : s'.hits mode bytes o.asked with _ | _
    · rw [(send_of_miss hd hb hm).1]
      rcases s'.channel.breaksDuring o.peer.draining with _ | _ <;> simp
    · obtain ⟨reply, hreply, -⟩ := send_of_hit hb hm
      simp [hreply]
  · rw [(send_of_miss hd hb hm).1, hbroken]
    rfl

/-- Behind a reply that was cut off a kept one is returned. Behind a request that was cut off a
reset is reported first, and from then on the request is refused. -/
theorem send_desynced_sample : ∃ (s down : Session) (r : Request) (bytes : Bytes) (o : Occasion),
    r.encode = .ok bytes ∧
    (s.channel.desynced = true ∧ (s.run [.raise true]).channel.desynced = true ∧
      (s.run [.raise true]).hits .cached bytes o.asked = true ∧
      ∃ reply, ((s.run [.raise true]).send r .cached o).1 = .ok reply) ∧
    (down.channel.desynced = true ∧ down.hits .bypass bytes o.asked = false ∧
      down.channel.socket.broken = true ∧ (down.send r .bypass o).1 = .error .reset) ∧
    (down.run [.send r .bypass o]).channel.socket.broken = false ∧
      ((down.run [.send r .bypass o]).send r .bypass o).1 = .error .desynchronized := by
  obtain ⟨bytes, hb⟩ : ∃ bytes, sampleRequest.encode = .ok bytes := ⟨_, rfl⟩
  let o : Occasion := ⟨0, 0, { answer := [] }⟩
  obtain ⟨s, hd, hhit⟩ : ∃ s : Session, s.channel.desynced = true ∧
      s.hits .cached bytes 0 = true := ⟨_, run_cutReply hb⟩
  obtain ⟨down, hd', hbroken⟩ : ∃ s : Session, s.channel.desynced = true ∧
      s.channel.socket.broken = true := ⟨_, run_cutRequest⟩
  obtain ⟨hkept, -, hsends⟩ := send_desynced s hd [.raise true]
  obtain ⟨-, hreply, -⟩ := hsends sampleRequest .cached o bytes hb
  obtain ⟨reply, hreply, -⟩ := hreply hhit
  obtain ⟨-, -, hfirst⟩ := send_desynced down hd' []
  obtain ⟨-, -, hreset, hlast⟩ := hfirst sampleRequest .bypass o bytes hb
  have hunbroken := hlast rfl List.not_mem_nil
  obtain ⟨-, -, hsecond⟩ := send_desynced down hd' [.send sampleRequest .bypass o]
  obtain ⟨hrefused, -⟩ := hsecond sampleRequest .bypass o bytes hb
  exact ⟨s, down, sampleRequest, bytes, o, hb, ⟨hd, hkept, hhit, reply, hreply⟩,
    ⟨hd', rfl, hbroken, hreset rfl hbroken⟩, hunbroken, hrefused.2 ⟨rfl, hunbroken⟩⟩

/-- Whether every request in the mode is refused once a message was cut off. -/
def RefusesAll (mode : CacheMode) : Prop :=
  ∀ settings socket actions r o bytes,
    ((Session.new settings socket).run actions).channel.desynced = true →
      r.encode = .ok bytes →
        (((Session.new settings socket).run actions).send r mode o).1 = .error .desynchronized

/-- A kept reply comes first, and so does a reset. -/
theorem not_refusesAll : ¬RefusesAll .cached ∧ ¬RefusesAll .bypass := by
  obtain ⟨bytes, hb⟩ : ∃ bytes, sampleRequest.encode = .ok bytes := ⟨_, rfl⟩
  let o : Occasion := ⟨0, 0, { answer := [] }⟩
  constructor <;> intro h
  · obtain ⟨hd, hhit⟩ := run_cutReply hb
    have hrefused := h {} _ cutReply _ o bytes hd hb
    obtain ⟨reply, hreply, -⟩ := send_of_hit (o := o) hb hhit
    simp [hreply] at hrefused
  · obtain ⟨hd, hbroken⟩ := run_cutRequest
    have hrefused := h {} _ cutRequest _ o bytes hd hb
    rw [(send_of_miss hd hb rfl).1] at hrefused
    simp [o, hbroken] at hrefused

end Session

end Treegram
