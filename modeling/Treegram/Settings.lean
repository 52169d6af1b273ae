import Treegram.Cache

/-!
# Settings

What a session and a subscription are opened with, and the well-known places of the sockets.
-/

namespace Treegram

def commandSocket : String := "/var/run/core.socket"

def eventSocket : String := "/var/run/core.event.socket"

def feedbackSocket : String := "/var/run/core.feedback.socket"

def defaultTimeout : Duration := 15000

def defaultAgent : String := "libcoreipc"

structure SessionSettings where
  socket : String := commandSocket
  agent : String := defaultAgent
  timeout : Duration := defaultTimeout
  lifetime : Duration := Cache.defaultLifetime
  budget : Nat := Cache.defaultBudget
  /-- Whether the owner has asked for waits to be cut short. -/
  raised : Bool := false
  deriving DecidableEq

structure SubscriptionSettings where
  socket : String := eventSocket
  timeout : Duration := defaultTimeout
  /-- Whether the owner has asked for waits to be cut short. -/
  raised : Bool := false
  deriving DecidableEq

end Treegram
