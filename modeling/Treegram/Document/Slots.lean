/-!
# Slots

Where the identities of nodes come from. A slot that was vacated is handed out again, the latest
first, before a new one is opened.
-/

namespace Treegram

/-- Slots `0` to `opened - 1` have been handed out; those in `vacant` are free again. -/
structure Slots where
  /-- The free slots, the one vacated last at the head. -/
  vacant : List Nat
  /-- The number of slots that were ever handed out. -/
  opened : Nat
  deriving DecidableEq

namespace Slots

def next (s : Slots) : Nat :=
  s.vacant.headD s.opened

/-- What is left after handing out the next slot. -/
def advance (s : Slots) : Slots :=
  match s.vacant with
  | [] => { s with opened := s.opened + 1 }
  | _ :: vacant => { s with vacant }

/-- After vacating the slots of a list, its head last. -/
def vacate (s : Slots) (slots : List Nat) : Slots :=
  { s with vacant := slots ++ s.vacant }

end Slots

end Treegram
