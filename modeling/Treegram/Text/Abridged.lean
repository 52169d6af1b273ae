/-!
# Abridged text

Text cut to a number of bytes. A text that is too long keeps the longest run of whole characters
that leaves room for an ellipsis, and gets as much of the ellipsis as the limit admits (`abridge`).

By way of the bytes (`abridgeBytes`), a search goes back from the byte at which the ellipsis has to
start to one between two characters, and what stands in front of that is kept. Nothing comes of a
search that goes past the start, or of a text taken up to a byte within a character or behind its
end.
-/

namespace Treegram

namespace Abridged

def ellipsis : List Char := ['.', '.', '.']

/-- The longest run of leading characters of `cs` that takes at most `room` bytes. -/
def fitting (room : Nat) : List Char → List Char
  | [] => []
  | c :: cs => if c.utf8Size ≤ room then c :: fitting (room - c.utf8Size) cs else []

end Abridged

/-- `s` itself if it has at most `limit` bytes, else its start and an ellipsis. -/
def abridge (limit : Nat) (s : String) : String :=
  if s.utf8ByteSize ≤ limit then s
  else String.ofList (Abridged.fitting (limit - 3) s.toList ++ Abridged.ellipsis.take limit)

/-! ## By way of the bytes -/

namespace Abridged

/-- Whether the byte `cut` of `s` is between two characters, or at an end. -/
def isBoundary (s : String) (cut : Nat) : Bool :=
  String.Pos.Raw.isValid s ⟨cut⟩

/-- The last boundary of `s` that is not behind the byte `cut`. -/
def boundaryFrom (s : String) : Nat → Option Nat
  | 0 => if isBoundary s 0 then some 0 else none
  | cut + 1 => if isBoundary s (cut + 1) then some (cut + 1) else boundaryFrom s cut

/-- The text in front of the byte `cut`, which has to be a boundary. -/
def front (s : String) (cut : Nat) : Option String :=
  if h : String.Pos.Raw.IsValid s ⟨cut⟩ then
    some ⟨s.toByteArray.extract 0 cut, h.isValidUTF8_extract_zero⟩
  else none

end Abridged

/-- `s` itself if it has at most `limit` bytes, else what is in front of a boundary that leaves room
for an ellipsis, and as many bytes of that as the limit admits. -/
def abridgeBytes (limit : Nat) (s : String) : Option String :=
  if s.utf8ByteSize ≤ limit then some s
  else do
    let cut ← Abridged.boundaryFrom s (limit - "...".utf8ByteSize)
    return (← Abridged.front s cut) ++ (← Abridged.front "..." (min limit "...".utf8ByteSize))

end Treegram
