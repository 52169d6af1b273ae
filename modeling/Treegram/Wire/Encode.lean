import Treegram.Wire.Unit

/-!
# Writing messages

A tree determines its units, and these the pieces that are written: control bytes and texts, up to
the first thing that cannot be sent. The length of a message is found from the pieces alone, so it
is known before a byte is written; both end at the same piece.
-/

namespace Treegram

def Label.attributeUnits (l : Label) : List WireUnit :=
  l.attributes.map fun a => .attr .element a.name a.value

/-- The units of a forest of siblings, the first of which is opened at `place`, in front of the
units `after` it. -/
def Forest.unitsOnto (place : Place) (f : Forest Label) (after : List WireUnit) :
    List WireUnit :=
  match f with
  | .nil => after
  | .cons l kids rest =>
    .node place l.kind l.name l.value :: (l.attributeUnits ++
      (match kids with
      | .nil => rest.unitsOnto .sibling after
      | .cons .. => kids.unitsOnto .child (.close l.kind :: rest.unitsOnto .sibling after)))

/-- The units of a message that holds the tree `t`. -/
def Tree.units (t : Tree Label) : List WireUnit :=
  .node .child t.node.kind t.node.name t.node.value ::
    (t.node.attributeUnits ++ t.children.unitsOnto .child [.close t.node.kind])

/-- A part of a message, or the reason why it ends there. -/
inductive Piece where
  | byte (b : UInt8)
  | text (s : String)
  | refuse (cause : Refusal)
  deriving DecidableEq

/-- The pieces of a unit. A document node is only in order in the first unit of a message. -/
def WireUnit.pieces (first : Bool) : WireUnit → List Piece
  | .node place kind name value =>
    if kind = .document ∧ first = false then [.refuse .innerDocument]
    else
      match nameFault? kind name with
      | some fault => [.refuse (.badName fault)]
      | none => [.byte (place.control.byte kind.tag), .text name, .text value]
  | .attr kind name value =>
    if name = "" then [.refuse .namelessAttribute]
    else [.byte (Control.newAttribute.byte kind.tag), .text name, .text value]
  | .close kind => [.byte (Control.endOfChildren.byte kind.tag)]

/-- The pieces of a message that consists of `units`. -/
def pieces : List WireUnit → List Piece
  | [] => []
  | u :: us => u.pieces true ++ us.flatMap (WireUnit.pieces false)

namespace Piece

/-- The bytes of the pieces up to the first that cannot be written, and why that one cannot. -/
def write : List Piece → Bytes × Option Refusal
  | [] => ([], none)
  | .byte b :: ps =>
    let (bytes, cause) := write ps
    (b :: bytes, cause)
  | .text s :: ps =>
    if s.utf8ByteSize ≤ maxText then
      let (bytes, cause) := write ps
      (Bytes.ofLength s.utf8ByteSize ++ Bytes.ofString s ++ bytes, cause)
    else ([], some (.longText s.utf8ByteSize))
  | .refuse cause :: _ => ([], some cause)

def measure : List Piece → Except Refusal Nat
  | [] => .ok 0
  | .byte _ :: ps => (measure ps).map (1 + ·)
  | .text s :: ps =>
    if s.utf8ByteSize ≤ maxText then (measure ps).map (4 + s.utf8ByteSize + ·)
    else .error (.longText s.utf8ByteSize)
  | .refuse cause :: _ => .error cause

end Piece

namespace Tree

/-- The length of the message that holds `t`. -/
def encodedLength (t : Tree Label) : Except Refusal Nat :=
  Piece.measure (pieces t.units)

/-- `out` with the message that holds `t` behind it; if the tree is refused, with what comes
before the refused piece. -/
def encodeOnto (t : Tree Label) (out : Bytes) : Bytes × Option Refusal :=
  let (bytes, cause) := Piece.write (pieces t.units)
  (out ++ bytes, cause)

def encode (t : Tree Label) : Except Refusal Bytes :=
  match Piece.write (pieces t.units) with
  | (bytes, none) => .ok bytes
  | (_, some cause) => .error cause

end Tree

end Treegram
