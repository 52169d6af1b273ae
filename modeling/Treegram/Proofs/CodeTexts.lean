import Mathlib.Data.List.Forall2
import Mathlib.Data.Nat.Digits.Defs
import Mathlib.Tactic.Ring
import Treegram.Proofs.Numerals
import Treegram.Status.Code

/-!
# Codes as texts

The number of a status code is read from the numerals of 32-bit words, decimal or hexadecimal, and
from nothing else (`StatusCode.number?_eq_some_iff`). Among them are the code as it is shown and its
number in decimal, so a code survives either text, whatever zeros and blanks are added
(`StatusCode.codes_exact`).
-/

namespace Treegram

variable {radix bound acc n v : Nat} {cs : List Char}

/-! ## Numerals in any radix -/

/-- Whether `c` is the digit with the value `d`. Above nine it is a letter, of either case. -/
def IsDigit (radix : Nat) (c : Char) (d : Nat) : Prop :=
  d < radix ∧ (c = d.digitChar ∨ c = d.digitChar.toUpper)

/-- Whether a text is one or more digits that write `n`. -/
def IsWritten (radix : Nat) (cs : List Char) (n : Nat) : Prop :=
  ∃ ds, ds ≠ [] ∧ List.Forall₂ (IsDigit radix) cs ds ∧ Nat.ofDigits radix ds.reverse = n

/-- Whether a text is a numeral of `n`: one or more digits, behind a plus sign or not. -/
inductive IsUnsigned (radix : Nat) : List Char → Nat → Prop
  | plain {cs : List Char} {n : Nat} : IsWritten radix cs n → IsUnsigned radix cs n
  | plus {cs : List Char} {n : Nat} : IsWritten radix cs n → IsUnsigned radix ('+' :: cs) n

theorem isDigit_sixteen_of_digit? {c : Char} {d : Nat} (h : digit? 16 c = some d) :
    IsDigit 16 c d := by
  have hbelow : ∀ n < 103, ∀ d ∈ digit? 16 (Char.ofNat n), d < 16 ∧
      (Char.ofNat n = d.digitChar ∨ Char.ofNat n = d.digitChar.toUpper) := by
    decide
  have hc : c.toNat < 103 := by
    by_contra hc
    simp only [digit?] at h
    split_ifs at h <;> omega
  have hd := hbelow c.toNat hc d (by rwa [Char.ofNat_toNat])
  rwa [Char.ofNat_toNat] at hd

theorem digit?_of_isDigit_sixteen {c : Char} {d : Nat} (h : IsDigit 16 c d) :
    digit? 16 c = some d := by
  have hread : ∀ d < 16, digit? 16 d.digitChar = some d ∧
      digit? 16 d.digitChar.toUpper = some d := by
    decide
  obtain ⟨hd, rfl | rfl⟩ := h
  · exact (hread d hd).1
  · exact (hread d hd).2

/-- A smaller radix has fewer digits and not other ones. -/
theorem digit?_eq_some_iff_sixteen (hradix : radix ≤ 16) {c : Char} {d : Nat} :
    digit? radix c = some d ↔ digit? 16 c = some d ∧ d < radix := by
  simp only [digit?]
  generalize (if 48 ≤ c.toNat ∧ c.toNat ≤ 57 then _ else _) = value
  split_ifs <;> simp only [Option.some.injEq, false_and, false_iff] <;> omega

theorem digit?_eq_some_iff (hradix : radix ≤ 16) {c : Char} {d : Nat} :
    digit? radix c = some d ↔ IsDigit radix c d := by
  rw [digit?_eq_some_iff_sixteen hradix]
  constructor
  · rintro ⟨h, hd⟩
    exact ⟨hd, (isDigit_sixteen_of_digit? h).2⟩
  · rintro ⟨hd, h⟩
    exact ⟨digit?_of_isDigit_sixteen ⟨by omega, h⟩, hd⟩

theorem written?_eq_some_iff (hradix : radix ≤ 16) : ∀ {cs : List Char} {acc : Nat},
    written? radix acc cs = some v ↔ ∃ ds, List.Forall₂ (IsDigit radix) cs ds ∧
      Nat.ofDigits radix ds.reverse + radix ^ ds.length * acc = v
  | [], acc => by simp [written?, List.forall₂_nil_left_iff]
  | c :: cs, acc => by
    rw [written?, Option.bind_eq_some_iff]
    simp only [digit?_eq_some_iff hradix, written?_eq_some_iff hradix]
    constructor
    · rintro ⟨d, hd, ds, hds, rfl⟩
      refine ⟨d :: ds, .cons hd hds, ?_⟩
      rw [List.reverse_cons, Nat.ofDigits_append, Nat.ofDigits_singleton, List.length_reverse,
        List.length_cons]
      ring
    · rintro ⟨_, ⟨⟩, rfl⟩
      rename_i d ds hd hds
      refine ⟨d, hd, ds, hds, ?_⟩
      rw [List.reverse_cons, Nat.ofDigits_append, Nat.ofDigits_singleton, List.length_reverse,
        List.length_cons]
      ring

theorem natural?_eq_some_iff (hpos : 0 < radix) (hradix : radix ≤ 16) :
    natural? radix bound cs = some n ↔ IsWritten radix cs n ∧ n < bound := by
  rcases cs with _ | ⟨c, cs⟩
  · simp only [natural?, reduceCtorEq, false_iff, not_and]
    rintro ⟨ds, hne, hds, -⟩
    exact absurd (List.forall₂_nil_left_iff.1 hds) hne
  · rw [natural?, digitsValue?_eq_some_iff hpos, written?_eq_some_iff hradix]
    simp only [Nat.mul_zero, Nat.add_zero, ne_eq, reduceCtorEq, not_false_eq_true, true_imp_iff]
    refine and_congr_left fun _ => exists_congr fun ds => ⟨fun h => ⟨?_, h⟩, And.right⟩
    rintro rfl
    exact absurd (List.forall₂_nil_right_iff.1 h.1) (List.cons_ne_nil c cs)

theorem IsWritten.ne_nil (h : IsWritten radix cs n) : cs ≠ [] := by
  obtain ⟨ds, hne, hds, -⟩ := h
  rintro rfl
  exact hne (List.forall₂_nil_left_iff.1 hds)

theorem IsWritten.isSome_digit? (hradix : radix ≤ 16) (h : IsWritten radix cs n) :
    ∀ c ∈ cs, (digit? radix c).isSome = true := by
  obtain ⟨ds, -, hds, -⟩ := h
  have hboth := hds.imp fun c d hcd =>
    And.intro (Option.isSome_of_mem ((digit?_eq_some_iff hradix).2 hcd)) hcd
  exact ((List.forall₂_and_left _ _).1 hboth).1

theorem digit?_plus (hradix : radix ≤ 16) : digit? radix '+' = none := by
  refine Option.eq_none_iff_forall_ne_some.2 fun d hd => ?_
  rw [digit?_eq_some_iff_sixteen hradix] at hd
  exact absurd hd.1 (by simp [digit?])

theorem positive?_eq_some_iff (hpos : 0 < radix) (hradix : radix ≤ 16) :
    positive? radix bound cs = some n ↔ IsUnsigned radix cs n ∧ n < bound := by
  unfold positive?
  split
  · rw [natural?_eq_some_iff hpos hradix]
    refine and_congr_left fun _ => ⟨.plus, fun h => ?_⟩
    cases h with
    | plain h => simpa [digit?_plus hradix] using h.isSome_digit? hradix '+'
    | plus h => exact h
  · rename_i hplus
    rw [natural?_eq_some_iff hpos hradix]
    refine and_congr_left fun _ => ⟨.plain, fun h => ?_⟩
    cases h with
    | plain h => exact h
    | plus => exact absurd rfl (hplus _)

/-! ## What is written -/

theorem isDigit_zero (hpos : 0 < radix) : IsDigit radix '0' 0 :=
  ⟨hpos, .inl rfl⟩

theorem IsWritten.zeros (hpos : 0 < radix) (h : IsWritten radix cs n) (zeros : Nat) :
    IsWritten radix (List.replicate zeros '0' ++ cs) n := by
  obtain ⟨ds, hne, hds, rfl⟩ := h
  refine ⟨List.replicate zeros 0 ++ ds, by simp [hne], ?_, ?_⟩
  · refine List.rel_append ?_ hds
    exact List.forall₂_iff_get.2 ⟨by simp, fun i _ _ => by simpa using isDigit_zero hpos⟩
  · rw [List.reverse_append, List.reverse_replicate, Nat.ofDigits_append_replicate_zero]

theorem isWritten_toDigits (hone : 1 < radix) (n : Nat) :
    IsWritten radix (Nat.toDigits radix n) n := by
  induction n using Nat.base_induction radix hone with
  | single d hd =>
    rw [Nat.toDigits_of_lt_base hd]
    exact ⟨[d], by simp, .cons ⟨hd, .inl rfl⟩ .nil, Nat.ofDigits_singleton⟩
  | digit n d hd hn ih =>
    obtain ⟨ds, hne, hds, hvalue⟩ := ih
    rw [← Nat.toDigits_append_toDigits hone hn hd, Nat.toDigits_of_lt_base hd]
    refine ⟨ds ++ [d], by simp, List.rel_append hds (.cons ⟨hd, .inl rfl⟩ .nil), ?_⟩
    rw [List.reverse_append, List.reverse_singleton, List.singleton_append, Nat.ofDigits_cons,
      hvalue, Nat.add_comm]

/-! ## Codes -/

/-- Whether a text is a numeral of `n`, decimal or, behind a zero and an `x` of either case,
hexadecimal. -/
inductive IsCode : List Char → Nat → Prop
  | decimal {cs : List Char} {n : Nat} : IsUnsigned 10 cs n → IsCode cs n
  | small {cs : List Char} {n : Nat} : IsUnsigned 16 cs n → IsCode ('0' :: 'x' :: cs) n
  | capital {cs : List Char} {n : Nat} : IsUnsigned 16 cs n → IsCode ('0' :: 'X' :: cs) n

theorem not_isUnsigned_ten {x : Char} (hx : digit? 10 x = none) :
    ¬IsUnsigned 10 ('0' :: x :: cs) n := by
  rintro (h | _)
  simpa [hx] using h.isSome_digit? (by decide) x

theorem isCode_small : IsCode ('0' :: 'x' :: cs) n ↔ IsUnsigned 16 cs n := by
  refine ⟨fun h => ?_, .small⟩
  cases h with
  | decimal h => exact absurd h (not_isUnsigned_ten (by decide))
  | small h => exact h

theorem isCode_capital : IsCode ('0' :: 'X' :: cs) n ↔ IsUnsigned 16 cs n := by
  refine ⟨fun h => ?_, .capital⟩
  cases h with
  | decimal h => exact absurd h (not_isUnsigned_ten (by decide))
  | capital h => exact h

theorem isCode_decimal (hsmall : ∀ ds, cs ≠ '0' :: 'x' :: ds)
    (hcapital : ∀ ds, cs ≠ '0' :: 'X' :: ds) : IsCode cs n ↔ IsUnsigned 10 cs n := by
  refine ⟨fun h => ?_, .decimal⟩
  cases h with
  | decimal h => exact h
  | small => exact absurd rfl (hsmall _)
  | capital => exact absurd rfl (hcapital _)

theorem IsUnsigned.not_blank (hradix : radix ≤ 16) (h : IsUnsigned radix cs n) :
    ∀ c ∈ cs, isBlank c = false := by
  have hdigits {cs : List Char} (h : IsWritten radix cs n) : ∀ c ∈ cs, isBlank c = false := by
    intro c hc
    obtain ⟨d, hd⟩ := Option.isSome_iff_exists.1 (h.isSome_digit? hradix c hc)
    have hread := ((digit?_eq_some_iff_sixteen hradix).1 hd).1
    refine isBlank_eq_false ?_ ?_ <;> simp only [digit?] at hread <;> split_ifs at hread <;> omega
  cases h with
  | plain h => exact hdigits h
  | plus h => exact List.forall_mem_cons.2 ⟨by decide, hdigits h⟩

theorem IsCode.not_blank (h : IsCode cs n) : ∀ c ∈ cs, isBlank c = false := by
  cases h with
  | decimal h => exact h.not_blank (by decide)
  | small h | capital h =>
    exact List.forall_mem_cons.2 ⟨by decide,
      List.forall_mem_cons.2 ⟨by decide, h.not_blank (by decide)⟩⟩

theorem IsCode.trim_eq {text : List Char} (h : IsCode cs n) (htext : IsPadded cs text) :
    trim text = cs := by
  refine htext.trim_eq_of_not_blank ?_ h.not_blank
  rintro rfl
  cases h with
  | decimal h =>
    cases h with
    | plain h => exact h.ne_nil rfl

namespace StatusCode

/-- No numeral below the bound is too large for a word. -/
theorem toNat_map_ofNat (hpos : 0 < radix) (hradix : radix ≤ 16) (cs : List Char) :
    ((positive? radix UInt32.size cs).map UInt32.ofNat).map UInt32.toNat =
      positive? radix UInt32.size cs := by
  rcases h : positive? radix UInt32.size cs with _ | n
  · rfl
  · have hn := ((positive?_eq_some_iff hpos hradix).1 h).2
    rw [Option.map_some, Option.map_some, UInt32.toNat_ofNat_of_lt' hn]

theorem number?_eq_some_iff (s : String) (n : Nat) :
    (number? s).map UInt32.toNat = some n ↔ IsCode (trim s.toList) n ∧ n < UInt32.size := by
  unfold number?
  generalize trim s.toList = cs
  dsimp only
  split
  · rw [toNat_map_ofNat (by decide) (by decide), positive?_eq_some_iff (by decide) (by decide),
      isCode_small]
  · rw [toNat_map_ofNat (by decide) (by decide), positive?_eq_some_iff (by decide) (by decide),
      isCode_capital]
  · rename_i hsmall hcapital
    rw [toNat_map_ofNat (by decide) (by decide), positive?_eq_some_iff (by decide) (by decide),
      isCode_decimal hsmall hcapital]

theorem number?_of_isCode {s : String} {raw : UInt32} (h : IsCode cs raw.toNat)
    (hs : IsPadded cs s.toList) : number? s = some raw := by
  have hread := (number?_eq_some_iff s raw.toNat).2 ⟨by rwa [h.trim_eq hs], raw.toNat_lt⟩
  obtain ⟨v, hv, hraw⟩ := Option.map_eq_some_iff.1 hread
  rw [hv, UInt32.toNat_inj.1 hraw]

/-- A code is shown in eight digits. -/
theorem exists_digits (c : StatusCode) : ∃ digits, c.text.toList = '0' :: 'x' :: digits ∧
    digits.length = 8 ∧ IsWritten 16 digits c.raw.toNat := by
  refine ⟨_, String.toList_ofList, ?_,
    (isWritten_toDigits (by decide) c.raw.toNat).zeros (by decide) _⟩
  have hlength := (Nat.length_toDigits_le_iff (k := 8) (show 1 < 16 by decide) (by decide)).2
    c.raw.toNat_lt
  rw [List.length_append, List.length_replicate]
  omega

/-- A code is read back from the text that shows it and from its number in decimal, with zeros in
front of the digits and blanks around. What is read are the numerals of 32-bit words. -/
theorem codes_exact :
    (∀ c : StatusCode, ∃ digits, c.text.toList = '0' :: 'x' :: digits ∧ digits.length = 8 ∧
      IsWritten 16 digits c.raw.toNat ∧ ∀ (zeros : Nat) (s : String),
        IsPadded ('0' :: 'x' :: (List.replicate zeros '0' ++ digits)) s.toList →
          number? s = some c.raw) ∧
    (∀ (raw : UInt32) (zeros : Nat) (s : String),
      IsPadded (List.replicate zeros '0' ++ (toString raw.toNat).toList) s.toList →
        number? s = some raw) ∧
    ∀ (s : String) (n : Nat), (number? s).map UInt32.toNat = some n ↔
      IsCode (trim s.toList) n ∧ n < UInt32.size := by
  refine ⟨fun c => ?_, fun raw zeros s hs => ?_, number?_eq_some_iff⟩
  · obtain ⟨digits, htext, hlength, hdigits⟩ := c.exists_digits
    exact ⟨digits, htext, hlength, hdigits, fun zeros s =>
      number?_of_isCode (.small (.plain (hdigits.zeros (by decide) zeros)))⟩
  · have hdigits : IsWritten 10 (toString raw.toNat).toList raw.toNat := by
      rw [Nat.toString_eq_repr, Nat.toList_repr]
      exact isWritten_toDigits (by decide) _
    exact number?_of_isCode (.decimal (.plain (hdigits.zeros (by decide) zeros))) hs

/-- A warning's code, with zeros and blanks, in either radix. -/
theorem codes_exact_padded : (⟨0x4000002A⟩ : StatusCode).text = "0x4000002a" ∧
    number? "\t0x0004000002a " = some 0x4000002A ∧ number? " 001073741866\n" = some 0x4000002A := by
  obtain ⟨hshown, hdecimal, -⟩ := codes_exact
  obtain ⟨digits, htext, -, -, hread⟩ := hshown ⟨0x4000002A⟩
  have hcode : (⟨0x4000002A⟩ : StatusCode).text.toList = '0' :: 'x' :: "4000002a".toList := by
    decide
  obtain rfl : digits = "4000002a".toList :=
    List.tail_eq_of_cons_eq (List.tail_eq_of_cons_eq (htext.symm.trans hcode))
  refine ⟨by decide, hread 3 _ ⟨['\t'], [' '], by decide, ?_, ?_⟩,
    hdecimal 0x4000002A 2 _ ⟨[' '], ['\n'], by decide, ?_, ?_⟩⟩ <;>
  exact List.forall_mem_singleton.2 rfl

end StatusCode

end Treegram
