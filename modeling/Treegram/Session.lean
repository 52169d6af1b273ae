import Treegram.Channel
import Treegram.Path
import Treegram.Request
import Treegram.Settings

/-!
# Sessions

A session sends one request at a time and waits for its reply. A request whose bytes were answered
before may be answered from the cache, without anything being sent or read. Bytes that are around
before a request is sent answer no request of this session and are dropped.

A failure ends the request and nothing else, unless a request or a reply was cut off.
-/

namespace Treegram

structure Session where
  channel : Channel
  agent : String
  timeout : Duration
  cache : Cache
  /-- The status of the reply returned last. -/
  lastStatus : Status
  /-- The number of replies that came in; they are numbered from 1. -/
  replies : Nat
  deriving DecidableEq

/-- What the peer does during a request. -/
structure Conduct where
  /-- What the peer does before each read while stale bytes are dropped. What is left of that when
  they are, it does before the request is sent. -/
  draining : List (List PeerAction) := []
  /-- What happens at the looks while the request is sent. -/
  sending : Course := []
  /-- What the peer does once the whole request has been sent. -/
  answer : List PeerAction
  /-- What happens at the looks while the reply is read. -/
  receiving : Course := []
  deriving DecidableEq

/-- A peer that acts between the two waits only. -/
instance : Coe (List PeerAction) Conduct := ⟨fun answer => { answer }⟩

/-- What happens around a request. -/
structure Occasion where
  /-- When the cache is asked. -/
  asked : Instant
  /-- When the reply is kept. -/
  answered : Instant
  peer : Conduct
  deriving DecidableEq

namespace Session

def new (settings : SessionSettings) (socket : Socket) : Session where
  channel := { Channel.new socket with raised := settings.raised }
  agent := settings.agent
  timeout := settings.timeout
  cache := .empty settings.lifetime settings.budget
  lastStatus := .absent
  replies := 0

/-- With the status of `reply` as the last one; it is drawn from the reply unless that was done
last time. -/
def note (s : Session) (reply : Reply) : Session :=
  if s.lastStatus.reply = some reply.id then s else { s with lastStatus := reply.status }

@[simp] theorem note_channel (s : Session) (reply : Reply) :
    (s.note reply).channel = s.channel := by
  unfold note
  split <;> rfl

@[simp] theorem note_timeout (s : Session) (reply : Reply) :
    (s.note reply).timeout = s.timeout := by
  unfold note
  split <;> rfl

@[simp] theorem note_cache (s : Session) (reply : Reply) : (s.note reply).cache = s.cache := by
  unfold note
  split <;> rfl

@[simp] theorem note_replies (s : Session) (reply : Reply) :
    (s.note reply).replies = s.replies := by
  unfold note
  split <;> rfl

/-- Whether the time for a request that starts at `now` is over at once. -/
def isExpired (s : Session) (now : Instant) : Bool :=
  (Deadline.after now s.timeout).isExpired now

/-- How the waits of a request go; if its time is over at once, the first look tells. -/
def waits (s : Session) (o : Occasion) : Conduct :=
  if s.isExpired o.asked then
    { o.peer with sending := .calm true, receiving := .calm true }
  else o.peer

theorem waits_of_isExpired {s : Session} {o : Occasion} (h : s.isExpired o.asked = false) :
    s.waits o = o.peer := by
  rw [waits, h]
  rfl

theorem waits_draining (s : Session) (o : Occasion) : (s.waits o).draining = o.peer.draining := by
  unfold waits
  split <;> rfl

/-- Sends `bytes` on a drained channel and reads the message that answers them. -/
def exchange (c : Channel) (bytes : Bytes) (peer : Conduct) :
    Except Fault (Tree Label) × Channel :=
  match c.drain peer.draining with
  | (.error e, c, _) => (.error e, c)
  | (.ok _, c, left) =>
    match (left.flatten.foldl Channel.after c).sendAll bytes peer.sending with
    | (.error e, c) => (.error e, c)
    | (.ok _, c) => (peer.answer.foldl Channel.after c).receiveDocument peer.receiving

/-- Has the request of the given bytes answered by the peer. -/
def ask (s : Session) (bytes : Bytes) (mode : CacheMode) (o : Occasion) :
    Except Fault Reply × Session :=
  match exchange s.channel bytes (s.waits o) with
  | (.error e, channel) => (.error e, { s with channel })
  | (.ok document, channel) =>
    let s := { s with channel, replies := s.replies + 1 }
    match Reply.ofDocument document s.replies with
    | .error e => (.error e, s)
    | .ok reply =>
      let s :=
        match mode with
        | .cached => { s with cache := (s.cache.insert bytes reply o.answered).2 }
        | .bypass => s
      (.ok reply, s.note reply)

def send (s : Session) (r : Request) (mode : CacheMode) (o : Occasion) :
    Except Fault Reply × Session :=
  match r.encode with
  | .error e => (.error e, s)
  | .ok bytes =>
    match mode with
    | .bypass => s.ask bytes .bypass o
    | .cached =>
      match s.cache.lookup bytes o.asked with
      | (some reply, cache) => (.ok reply, { s with cache }.note reply)
      | (none, cache) => { s with cache }.ask bytes .cached o

/-- Sends a configuration, execution or parse request with arguments. -/
def request (s : Session) (kind : RequestKind) (mode : CacheMode) (command : String)
    (args : List (String × String)) (o : Occasion) : Except Fault Reply × Session :=
  match (Request.new s.agent kind command).addArguments args with
  | (_, some e) => (.error e, s)
  | (r, none) => s.send r mode o

def requestContinue (s : Session) (o : Occasion) : Except Fault Reply × Session :=
  s.send (.bare s.agent "continue") .bypass o

def requestBreak (s : Session) (o : Occasion) : Except Fault Reply × Session :=
  s.send (.bare s.agent "break") .bypass o

/-- Logs in, and tells whether the answer is a prompt. -/
def authenticate (s : Session) (user password tag : String) (o : Occasion) :
    Except Fault Bool × Session :=
  let (result, s) := s.send (.hello s.agent user password tag) .bypass o
  (result.map fun reply => (reply.response.childNamed? "prompt").isSome, s)

/-- What a reply says about whether a command is known. -/
def foundIn (reply : Reply) : Except Fault Bool :=
  match reply.response.attribute? "found" with
  | none => .error (.malformed .noFound)
  | some value =>
    match flag? value with
    | some found => .ok found
    | none => .error (.malformed (.badFound value))

def findCommand (s : Session) (command : String) (o : Occasion) : Except Fault Bool × Session :=
  let (result, s) := s.send (.withValue s.agent "probe" command) .cached o
  (result.bind foundIn, s)

def getHelp (s : Session) (command : String) (o : Occasion) : Except Fault Reply × Session :=
  s.send (.withValue s.agent "help" command) .cached o

def clearCache (s : Session) (all : Bool) (now : Instant) : Session :=
  { s with cache := s.cache.clear all now }

def close (s : Session) : Session :=
  { s with cache := s.cache.clear true 0, channel := s.channel.shutdown }

end Session

end Treegram
