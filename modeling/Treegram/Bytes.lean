/-!
# Byte strings

Byte strings as lists, the UTF-8 form of text, and the four-byte form of lengths, most significant
byte first.
-/

namespace Treegram

abbrev Bytes := List UInt8

namespace Bytes

/-- The UTF-8 form of `s`. -/
def ofString (s : String) : Bytes :=
  s.toByteArray.data.toList

/-- The text whose UTF-8 form is `b`. -/
def toString? (b : Bytes) : Option String :=
  String.fromUTF8? ⟨b.toArray⟩

/-- `n` in four bytes; multiples of 2³² are lost. -/
def ofLength (n : Nat) : Bytes :=
  [.ofNat (n / 0x1000000), .ofNat (n / 0x10000), .ofNat (n / 0x100), .ofNat n]

/-- The number whose base-256 digits are `b`. -/
def toLength (b : Bytes) : Nat :=
  b.foldl (fun n x => n * 256 + x.toNat) 0

/-- The first `n` bytes and the others, if there are so many. -/
def split? (n : Nat) (b : Bytes) : Option (Bytes × Bytes) :=
  let front := b.take n
  if front.length = n then some (front, b.drop n) else none

theorem split?_eq_some {n : Nat} {b front back : Bytes} :
    split? n b = some (front, back) ↔ b = front ++ back ∧ front.length = n := by
  simp only [split?]
  constructor
  · intro h
    split at h
    · rename_i hn
      simp only [Option.some.injEq, Prod.mk.injEq] at h
      obtain ⟨rfl, rfl⟩ := h
      exact ⟨(List.take_append_drop n b).symm, hn⟩
    · simp at h
  · rintro ⟨rfl, rfl⟩
    simp

theorem split?_eq_none {n : Nat} {b : Bytes} : split? n b = none ↔ b.length < n := by
  simp only [split?, List.length_take]
  split <;> simp <;> omega

end Bytes

end Treegram
