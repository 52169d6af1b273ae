import Treegram.Channel
import Treegram.Event
import Treegram.Settings

/-!
# Subscriptions

Events come in on a stream of their own, one message for each. Every call reads one message, so an
invalid event costs no other one.
-/

namespace Treegram

structure Subscription where
  channel : Channel
  timeout : Duration
  deriving DecidableEq

namespace Subscription

def new (settings : SubscriptionSettings) (socket : Socket) : Subscription where
  channel := { Channel.new socket with raised := settings.raised }
  timeout := settings.timeout

/-- Whether the next event, or the reason why there is none, can be had without a wait. -/
def hasEvents (s : Subscription) : Bool :=
  s.channel.hasBuffered || s.channel.isReadable

/-- Reads one event. Unless its time is over at once, the wait goes as `course` says. -/
def get (s : Subscription) (now : Instant) (course : Course := []) :
    Except Fault Event × Subscription :=
  let (result, channel) :=
    s.channel.receiveDocument
      (if (Deadline.after now s.timeout).isExpired now then .calm true else course)
  (result.bind Event.ofDocument, { s with channel })

def setTimeout (s : Subscription) (timeout : Duration) : Subscription :=
  { s with timeout }

def close (s : Subscription) : Subscription :=
  { s with channel := s.channel.shutdown }

end Subscription

end Treegram
