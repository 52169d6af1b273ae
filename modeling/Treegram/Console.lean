import Treegram.Session
import Treegram.Subscription

/-!
# The two programs

One sends a request and prints the reply, the other prints events as they come in. What they print
and how they exit is determined by their arguments and by what the peer does.
-/

namespace Treegram

namespace Console

/-- What a run of a program leaves behind. -/
structure Outcome where
  exit : Nat
  output : String := ""
  errors : String := ""
  /-- The requests the peer got. -/
  sent : List Bytes := []
  deriving DecidableEq

def abortCode : Nat := 101

def lines (ls : List String) : String :=
  String.join (ls.map (· ++ "\n"))

/-! ## Sending a request -/

def usage : String :=
  "usage: demo_request <config|execute|parse> <command> [key=value | @attr=value ...]"

def requestAgent : String := "demo_request"

def kind? (s : String) : Option RequestKind :=
  if s = "config" then some .config
  else if s = "execute" then some .execute
  else if s = "parse" then some .parse
  else none

/-- The key and the value of an argument, between which the first equals sign stands. -/
def pair (s : String) : String × String :=
  match Path.cut? '=' s.toList with
  | some (key, value) => (String.ofList key, String.ofList value)
  | none => (s, "")

/-- A node in one line; document nodes are not shown. -/
def nodeLine? (depth : Nat) (l : Label) : Option String :=
  let indent := String.join (List.replicate depth "  ")
  match l.kind with
  | .element =>
    let attributes := l.attributes.map fun a => " " ++ a.name ++ "=" ++ quote a.value
    let value := if l.value = "" then "" else " " ++ quote l.value
    some (indent ++ "<" ++ l.name ++ String.join attributes ++ ">" ++ value)
  | .document => none
  | kind => some (indent ++ "[" ++ kind.title ++ "] " ++ quote l.value)

/-- A tree, one node a line, each deeper than its parent. -/
def treeLines (t : Tree Label) : List String :=
  t.outline.filterMap fun (depth, l) => nodeLine? depth l

/-- What `s` has sent since `before`, if anything. -/
def sentSince (before s : Session) : List Bytes :=
  let sent := s.channel.socket.seen.drop before.channel.socket.seen.length
  if sent = [] then [] else [sent]

/-- Sends the request the arguments describe and prints the reply; the peer answers each request
by the actions of one list. The rest of a longer answer is given up. -/
def request (args : List String) (answers : List (List PeerAction)) : Outcome :=
  match args with
  | kind :: command :: args =>
    match kind? kind with
    | none => { exit := 1, errors := lines [usage] }
    | some kind =>
      let start := Session.new { agent := requestAgent } (.connected none)
      match start.request kind .bypass command (args.map pair) ⟨0, 0, answers.headD []⟩ with
      | (.error e, s) =>
        { exit := 2, errors := lines ["request failed: " ++ e.message],
          sent := sentSince start s }
      | (.ok reply, s) =>
        let output := ("message: " ++ s.lastStatus.line) :: treeLines reply.response
        if reply.isContinued then
          let (result, s') := s.requestBreak ⟨0, 0, answers.tail.headD []⟩
          { exit := match result with
              | .ok _ => 0
              | .error _ => abortCode
            output := lines (output ++ ["(continued; sending break)"])
            sent := sentSince start s ++ sentSince s s' }
        else { exit := 0, output := lines output, sent := sentSince start s }
  | _ => { exit := 1, errors := lines [usage] }

/-! ## Listening to events -/

/-- How long the program waits for an event if it is not told. -/
def eventTimeout : Duration := 5000

def eventLine (e : Event) : String :=
  e.eventClass ++ " at " ++ toString e.raised.totalMilliseconds ++ " ms"

/-- Prints events until something but the time runs out, or until `rounds` waits are over. The
waits without an event since the latest one are counted from `idle`. -/
def watch (s : Subscription) (idle : Nat) : Nat → List String × Option Fault
  | 0 => ([], none)
  | rounds + 1 =>
    match s.get 0 with
    | (.ok e, s') =>
      let (rest, fault) := watch s' 1 rounds
      (eventLine e :: rest, fault)
    | (.error .timeout, s') =>
      let (rest, fault) := watch s' (idle + 1) rounds
      (("waiting for events... " ++ toString idle) :: rest, fault)
    | (.error e, _) => ([], some e)

/-- Prints the events that come in during `rounds` waits; the peer does what `actions` says before
the first of them. -/
def events (args : List String) (actions : List PeerAction) (rounds : Nat) : Outcome :=
  let timeout :=
    match args with
    | [] => some eventTimeout
    | s :: _ => (IntegerType.word64.read? s.toList).map Int.toNat
  match timeout with
  | none => { exit := abortCode }
  | some timeout =>
    let s := Subscription.new { timeout } (.connected none)
    let s := { s with channel := actions.foldl Channel.after s.channel }
    match watch s 1 rounds with
    | (output, none) => { exit := 0, output := lines output }
    | (output, some e) =>
      { exit := 2, output := lines output
        errors := lines ["event channel failed: " ++ e.message] }

/-! ## Choosing the program -/

/-- The program the first argument names. The peer's answer is `input`, behind which it closes, and
each event takes more than a byte of it, so the rounds suffice. -/
def run (args : List String) (input : Bytes) : Outcome :=
  match args with
  | "request" :: args => request args [[.read, .write input, .close]]
  | "events" :: args => events args [.write input, .close] (input.length + 2)
  | _ => { exit := 1, errors := lines ["usage: treegram <request|events> ..."] }

end Console

end Treegram
