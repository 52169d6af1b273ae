import Treegram.Wire.Encode
import Treegram.Wire.Source

/-!
# Units as bytes

What a unit looks like in a message, and that it is read back from there with all that follows it
left (`readUnit_bytes`). A list of units is written out in full exactly if each of them can be
sent, and then the message is their bytes one after the other (`write_pieces_iff`).
-/

namespace Treegram

namespace Bytes

@[simp] theorem length_ofString (s : String) : (ofString s).length = s.utf8ByteSize := by
  simp [ofString]

@[simp] theorem toString?_ofString (s : String) : toString? (ofString s) = some s := by
  have hs : (⟨(ofString s).toArray⟩ : ByteArray) = s.toByteArray := by simp [ofString]
  rw [toString?, hs, String.fromUTF8?, dif_pos s.isValidUTF8]
  rfl

@[simp] theorem length_ofLength (n : Nat) : (ofLength n).length = 4 := rfl

theorem toLength_ofLength {n : Nat} (h : n < 0x100000000) : toLength (ofLength n) = n := by
  simp only [toLength, ofLength, List.foldl_cons, List.foldl_nil, UInt8.toNat_ofNat']
  omega

end Bytes

/-- Whether a text is not too long for a message. -/
def Short (s : String) : Prop :=
  s.utf8ByteSize ≤ maxText

/-- A text behind its length, as it stands in a message. -/
def textBytes (s : String) : Bytes :=
  Bytes.ofLength s.utf8ByteSize ++ Bytes.ofString s

namespace WireUnit

/-- The unit as it stands in a message. -/
def bytes : WireUnit → Bytes
  | .node place kind name value =>
    place.control.byte kind.tag :: (textBytes name ++ textBytes value)
  | .attr kind name value =>
    Control.newAttribute.byte kind.tag :: (textBytes name ++ textBytes value)
  | .close kind => [Control.endOfChildren.byte kind.tag]

/-- Whether the texts of the unit are not too long for a message. -/
def Fits : WireUnit → Prop
  | .node _ _ name value => Short name ∧ Short value
  | .attr _ name value => Short name ∧ Short value
  | .close _ => True

/-- Whether the unit is in order, at the start of a message or further on. -/
def InOrder (first : Bool) : WireUnit → Prop
  | .node _ kind name _ => (kind = .document → first = true) ∧ nameFault? kind name = none
  | .attr _ name _ => name ≠ ""
  | .close _ => True

/-- Whether the unit can be sent, at the start of a message or further on. -/
def Sendable (first : Bool) (u : WireUnit) : Prop :=
  u.InOrder first ∧ u.Fits

theorem bytes_ne_nil (u : WireUnit) : u.bytes ≠ [] := by
  cases u <;> simp [bytes]

end WireUnit

/-! ## Reading -/

namespace Wire

open ByteSource (take)

variable {α β : Type}

theorem bind_of_ok {σ : Type} {x : Reading σ α} {f : α → Reading σ β} {s s' : σ} {a : α}
    (h : x s = (.ok a, s')) : (x >>= f) s = f a s' := by
  simp only [bind, h]

theorem take_append (b rest : Bytes) {n : Nat} (h : b.length = n) :
    take (σ := Bytes) n (b ++ rest) = (.ok b, rest) := by
  have hs : Bytes.split? n (b ++ rest) = some (b, rest) := Bytes.split?_eq_some.2 ⟨rfl, h⟩
  simp only [take, hs]

theorem readControl_cons (c : Control) (kind : NodeKind) (rest : Bytes) :
    readControl (σ := Bytes) (c.byte kind.tag :: rest) = (.ok (c, kind), rest) := by
  have ht := take_append [c.byte kind.tag] rest (n := 1) rfl
  have hk : kind.tag % 64 = kind.tag := Nat.mod_eq_of_lt (by have := kind.tag_lt; omega)
  rw [List.singleton_append] at ht
  rw [readControl, bind_of_ok ht]
  simp only [List.headD_cons, Control.ofByte_byte, hk, NodeKind.ofTag?_tag]
  rfl

theorem readText_append {s : String} (h : Short s) (rest : Bytes) :
    readText (σ := Bytes) (textBytes s ++ rest) = (.ok s, rest) := by
  have hlen : (Bytes.ofLength s.utf8ByteSize).toLength = s.utf8ByteSize :=
    Bytes.toLength_ofLength (by simp only [Short, maxText] at h; omega)
  rw [readText, textBytes, List.append_assoc,
    bind_of_ok (take_append _ _ (Bytes.length_ofLength _))]
  simp only [hlen]
  rw [if_neg (Nat.not_lt.2 h), bind_of_ok (take_append _ _ (Bytes.length_ofString s))]
  simp only [Bytes.toString?_ofString]
  rfl

/-- A unit is read back from its bytes, and what follows them is left. -/
theorem readUnit_bytes {u : WireUnit} (h : u.Fits) (rest : Bytes) :
    readUnit (σ := Bytes) (u.bytes ++ rest) = (.ok u, rest) := by
  have texts (g : String → String → WireUnit) {name value : String}
      (hn : Short name) (hv : Short value) :
      (do return g (← readText) (← readText) : Reading Bytes WireUnit)
        (textBytes name ++ textBytes value ++ rest) = (.ok (g name value), rest) := by
    rw [List.append_assoc, bind_of_ok (readText_append hn _), bind_of_ok (readText_append hv _)]
    rfl
  rcases u with ⟨place, kind, name, value⟩ | ⟨kind, name, value⟩ | kind
  · rw [WireUnit.bytes, List.cons_append, readUnit, bind_of_ok (readControl_cons _ _ _)]
    cases place <;> exact texts _ h.1 h.2
  · rw [WireUnit.bytes, List.cons_append, readUnit, bind_of_ok (readControl_cons _ _ _)]
    exact texts _ h.1 h.2
  · rw [WireUnit.bytes, List.singleton_append, readUnit, bind_of_ok (readControl_cons _ _ _)]
    rfl

end Wire

/-! ## Writing -/

namespace Piece

/-- Other pieces are written behind the first if all of these can be. -/
theorem write_append_eq (ps qs : List Piece) : write (ps ++ qs) =
    match write ps with
    | (b, none) => (b ++ (write qs).1, (write qs).2)
    | (b, some cause) => (b, some cause) := by
  induction ps with
  | nil => rfl
  | cons p ps ih =>
    rcases p with x | s | cause
    · rw [List.cons_append, write, write, ih]
      rcases write ps with ⟨b, _ | cause⟩ <;> rfl
    · rw [List.cons_append, write, write, ih]
      split
      · rcases write ps with ⟨b, _ | cause⟩ <;> simp
      · rfl
    · rfl

theorem write_append (ps qs : List Piece) {b : Bytes} :
    write (ps ++ qs) = (b, none) ↔
      ∃ b₁ b₂, write ps = (b₁, none) ∧ write qs = (b₂, none) ∧ b = b₁ ++ b₂ := by
  rw [write_append_eq]
  rcases write ps with ⟨b₁, _ | cause⟩
  · rcases write qs with ⟨b₂, _ | cause⟩
    · simp [eq_comm]
    · simp
  · simp

end Piece

theorem write_two_texts (x : UInt8) (s t : String) {b : Bytes} :
    Piece.write [.byte x, .text s, .text t] = (b, none) ↔
      (Short s ∧ Short t) ∧ b = x :: (textBytes s ++ textBytes t) := by
  simp only [Short]
  by_cases hs : s.utf8ByteSize ≤ maxText
  · by_cases ht : t.utf8ByteSize ≤ maxText
    · simp [Piece.write, textBytes, hs, ht, eq_comm]
    · simp [Piece.write, hs, ht]
  · simp [Piece.write, hs]

/-- A unit is written in full exactly if it is in order and its texts are not too long. -/
theorem WireUnit.write_pieces_iff (u : WireUnit) (first : Bool) {b : Bytes} :
    Piece.write (u.pieces first) = (b, none) ↔ u.Sendable first ∧ b = u.bytes := by
  rw [Sendable, and_assoc]
  rcases u with ⟨place, kind, name, value⟩ | ⟨kind, name, value⟩ | kind
  · simp only [pieces, InOrder, Fits, bytes]
    split
    · rename_i h
      simp [Piece.write, h]
    · rename_i h
      rcases hf : nameFault? kind name with _ | fault
      · have hd : kind = .document → first = true := by simpa using h
        simp only [write_two_texts, and_true]
        exact ⟨fun h => ⟨hd, h.1, h.2⟩, fun h => h.2⟩
      · simp [Piece.write]
  · simp only [pieces, InOrder, Fits, bytes]
    by_cases hn : name = ""
    · simp [Piece.write, hn]
    · rw [if_neg hn, write_two_texts]
      exact ⟨fun h => ⟨hn, h.1, h.2⟩, fun h => h.2⟩
  · simp [pieces, Piece.write, InOrder, Fits, bytes, eq_comm]

theorem write_flatMap_iff (us : List WireUnit) {b : Bytes} :
    Piece.write (us.flatMap (WireUnit.pieces false)) = (b, none) ↔
      (∀ u ∈ us, u.Sendable false) ∧ b = us.flatMap WireUnit.bytes := by
  induction us generalizing b with
  | nil => simp [Piece.write, eq_comm]
  | cons u us ih =>
    simp only [List.flatMap_cons, Piece.write_append, WireUnit.write_pieces_iff, ih,
      List.forall_mem_cons]
    constructor
    · rintro ⟨b₁, b₂, ⟨h₁, rfl⟩, ⟨h₂, rfl⟩, rfl⟩
      exact ⟨⟨h₁, h₂⟩, rfl⟩
    · rintro ⟨⟨h₁, h₂⟩, rfl⟩
      exact ⟨_, _, ⟨h₁, rfl⟩, ⟨h₂, rfl⟩, rfl⟩

/-- A message is written in full exactly if its units can be sent, and it is their bytes. -/
theorem write_pieces_iff (u : WireUnit) (us : List WireUnit) {b : Bytes} :
    Piece.write (pieces (u :: us)) = (b, none) ↔
      (u.Sendable true ∧ ∀ v ∈ us, v.Sendable false) ∧
        b = (u :: us).flatMap WireUnit.bytes := by
  simp only [pieces, Piece.write_append, WireUnit.write_pieces_iff, write_flatMap_iff,
    List.flatMap_cons]
  constructor
  · rintro ⟨b₁, b₂, ⟨h₁, rfl⟩, ⟨h₂, rfl⟩, rfl⟩
    exact ⟨⟨h₁, h₂⟩, rfl⟩
  · rintro ⟨⟨h₁, h₂⟩, rfl⟩
    exact ⟨_, _, ⟨h₁, rfl⟩, ⟨h₂, rfl⟩, rfl⟩

end Treegram
