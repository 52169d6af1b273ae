import Mathlib.Data.List.TakeWhile
import Treegram.Text.Value

/-!
# What numerals are read as

A run of digits is read as the number it writes, however long it is, and refused exactly if that
number is not below the bound (`digitsValue?_eq_some_iff`). So an integer type reads a text exactly
if it is a decimal numeral of a member, with a minus sign only where the type is signed
(`IntegerType.read?_eq_some_iff`). Among these numerals are all decimal texts of the member
(`IsSpelling.isNumeral`).
-/

namespace Treegram

variable {radix bound acc n v : Nat} {cs : List Char}

/-! ## Digits -/

/-- The number that digits write behind others that are worth `acc`, whatever its size. -/
def written? (radix acc : Nat) : List Char → Option Nat
  | [] => some acc
  | c :: cs => (digit? radix c).bind fun d => written? radix (acc * radix + d) cs

theorem le_of_written? (hradix : 0 < radix) : ∀ {cs : List Char} {acc : Nat},
    written? radix acc cs = some v → acc ≤ v
  | [], acc, h => Nat.le_of_eq (Option.some.inj h)
  | c :: cs, acc, h => by
    rw [written?, Option.bind_eq_some_iff] at h
    obtain ⟨d, -, h⟩ := h
    calc acc ≤ acc * radix + d := Nat.le_add_right_of_le (Nat.le_mul_of_pos_right acc hradix)
      _ ≤ v := le_of_written? hradix h

/-- The bound holds of the number as a whole exactly if it holds of all that its first digits
write. -/
theorem digitsValue?_eq_some_iff (hradix : 0 < radix) : ∀ {cs : List Char} {acc : Nat},
    digitsValue? radix bound acc cs = some v ↔
      written? radix acc cs = some v ∧ (cs ≠ [] → v < bound)
  | [], acc => by simp [digitsValue?, written?]
  | c :: cs, acc => by
    rw [digitsValue?, written?]
    rcases digit? radix c with _ | d
    · simp
    · dsimp only
      rw [Option.bind_some]
      split
      · rename_i hlt
        rw [digitsValue?_eq_some_iff hradix]
        refine and_congr_right fun hv => ⟨fun h _ => ?_, fun h _ => h (by simp)⟩
        rcases cs with _ | ⟨c', cs⟩
        · exact Option.some.inj hv ▸ hlt
        · exact h (by simp)
      · rename_i hge
        simp only [reduceCtorEq, false_iff, not_and]
        intro hv hbound
        exact hge (Nat.lt_of_le_of_lt (le_of_written? hradix hv) (hbound (by simp)))

theorem digit?_ten_eq_some_iff {c : Char} {d : Nat} :
    digit? 10 c = some d ↔ c.isDigit = true ∧ c.toNat - '0'.toNat = d := by
  have hzero : '0'.toNat = 48 := rfl
  have hnine : '9'.toNat = 57 := rfl
  rw [Char.isDigit_iff_toNat, hzero, hnine]
  simp only [digit?]
  split
  · rw [if_pos (by omega), Option.some.injEq]
    omega
  · rw [if_neg (by split_ifs <;> omega)]
    simp only [reduceCtorEq, false_iff]
    omega

/-- Whether a text is one or more decimal digits. -/
structure IsDecimal (cs : List Char) : Prop where
  ne_nil : cs ≠ []
  digits : ∀ c ∈ cs, c.isDigit = true

theorem IsDecimal.between (h : IsDecimal cs) : ∀ c ∈ cs, 48 ≤ c.toNat ∧ c.toNat ≤ 57 :=
  fun c hc => Char.isDigit_iff_toNat.1 (h.digits c hc)

theorem written?_ten_eq_some_iff : ∀ {cs : List Char} {acc : Nat}, written? 10 acc cs = some v ↔
    (∀ c ∈ cs, c.isDigit = true) ∧ Nat.ofDigitChars 10 cs acc = v
  | [], acc => by simp [written?]
  | c :: cs, acc => by
    rw [written?, Option.bind_eq_some_iff, List.forall_mem_cons, Nat.ofDigitChars_cons,
      Nat.mul_comm 10 acc, and_assoc, ← written?_ten_eq_some_iff]
    simp only [digit?_ten_eq_some_iff, and_assoc, exists_and_left, exists_eq_left']

theorem natural?_ten_eq_some_iff : natural? 10 bound cs = some n ↔
    IsDecimal cs ∧ Nat.ofDigitChars 10 cs 0 = n ∧ n < bound := by
  rcases cs with _ | ⟨c, cs⟩
  · simp only [natural?, reduceCtorEq, false_iff, not_and]
    rintro ⟨h, -⟩
    exact absurd rfl h
  · rw [natural?, digitsValue?_eq_some_iff (by decide), written?_ten_eq_some_iff, and_assoc]
    constructor
    · rintro ⟨hdigits, hvalue, hbound⟩
      exact ⟨⟨by simp, hdigits⟩, hvalue, hbound (by simp)⟩
    · rintro ⟨⟨-, hdigits⟩, hvalue, hbound⟩
      exact ⟨hdigits, hvalue, fun _ => hbound⟩

/-! ## Signs -/

/-- Whether a text is a decimal numeral of an integer: one or more digits after an optional
sign. -/
inductive IsNumeral : List Char → Int → Prop
  | plain {cs : List Char} : IsDecimal cs → IsNumeral cs (Nat.ofDigitChars 10 cs 0)
  | plus {cs : List Char} : IsDecimal cs → IsNumeral ('+' :: cs) (Nat.ofDigitChars 10 cs 0)
  | minus {cs : List Char} : IsDecimal cs → IsNumeral ('-' :: cs) (-Nat.ofDigitChars 10 cs 0)

theorem IsDecimal.not_cons {c : Char} (hc : c.isDigit = false) : ¬IsDecimal (c :: cs) :=
  fun h => by simpa [hc] using h.digits c (by simp)

theorem isNumeral_minus {v : Int} : IsNumeral ('-' :: cs) v ↔
    IsDecimal cs ∧ v = -Nat.ofDigitChars 10 cs 0 := by
  constructor
  · intro h
    cases h with
    | plain h => exact absurd h (IsDecimal.not_cons rfl)
    | minus h => exact ⟨h, rfl⟩
  · rintro ⟨h, rfl⟩
    exact .minus h

theorem isNumeral_plus {v : Int} : IsNumeral ('+' :: cs) v ↔
    IsDecimal cs ∧ v = Nat.ofDigitChars 10 cs 0 := by
  constructor
  · intro h
    cases h with
    | plain h => exact absurd h (IsDecimal.not_cons rfl)
    | plus h => exact ⟨h, rfl⟩
  · rintro ⟨h, rfl⟩
    exact .plus h

theorem isNumeral_plain {v : Int} (hplus : cs.head? ≠ some '+') (hminus : cs.head? ≠ some '-') :
    IsNumeral cs v ↔ IsDecimal cs ∧ v = Nat.ofDigitChars 10 cs 0 := by
  constructor
  · intro h
    cases h with
    | plain h => exact ⟨h, rfl⟩
    | plus => exact absurd rfl hplus
    | minus => exact absurd rfl hminus
  · rintro ⟨h, rfl⟩
    exact .plain h

theorem positive?_ten_eq_some_iff (hminus : cs.head? ≠ some '-') :
    positive? 10 bound cs = some n ↔ IsNumeral cs n ∧ n < bound := by
  unfold positive?
  split
  · rw [natural?_ten_eq_some_iff, isNumeral_plus, Int.ofNat_inj, and_assoc, eq_comm (a := n)]
  · rename_i hplus
    have hplus : cs.head? ≠ some '+' := by
      rcases cs with _ | ⟨c, cs⟩
      · simp
      · rintro ⟨⟩
        exact hplus cs rfl
    rw [natural?_ten_eq_some_iff, isNumeral_plain hplus hminus, Int.ofNat_inj, and_assoc,
      eq_comm (a := n)]

theorem IsNumeral.nonneg {v : Int} (h : IsNumeral cs v) (hminus : cs.head? ≠ some '-') : 0 ≤ v := by
  cases h with
  | plain | plus => exact Int.natCast_nonneg _
  | minus => exact absurd rfl hminus

theorem IsNumeral.nonpos_of_minus {v : Int} (h : IsNumeral cs v) (hminus : cs.head? = some '-') :
    v ≤ 0 := by
  obtain ⟨cs, rfl⟩ := List.head?_eq_some_iff.1 hminus
  obtain ⟨-, rfl⟩ := isNumeral_minus.1 h
  omega

namespace IntegerType

/-- Whether `v` is a member. -/
def Has (t : IntegerType) (v : Int) : Prop :=
  (if t.signed then -(t.bound : Int) else 0) ≤ v ∧ v < t.bound

variable {t : IntegerType} {v : Int}

/-- A numeral of a member is read as that, and nothing else is read. -/
theorem read?_eq_some_iff (hbound : 0 < t.bound) : t.read? cs = some v ↔
    IsNumeral cs v ∧ t.Has v ∧ (cs.head? = some '-' → t.signed = true) := by
  unfold read? Has
  split
  · rename_i cs
    rw [isNumeral_minus]
    rcases t.signed with _ | _
    · simp
    · simp only [if_true, Option.map_eq_some_iff, Option.bind_eq_bind, Option.bind_eq_some_iff,
        Option.pure_def, Option.some.injEq, natural?_ten_eq_some_iff]
      constructor
      · rintro ⟨-, ⟨n, ⟨h, rfl, hn⟩, rfl⟩, rfl⟩
        exact ⟨⟨h, rfl⟩, ⟨by omega, by omega⟩, fun _ => trivial⟩
      · rintro ⟨⟨h, rfl⟩, hv, -⟩
        exact ⟨_, ⟨_, ⟨h, rfl, by omega⟩, rfl⟩, rfl⟩
  · rename_i hminus
    have hminus : cs.head? ≠ some '-' := by
      rcases cs with _ | ⟨c, cs⟩
      · simp
      · rintro ⟨⟩
        exact hminus cs rfl
    simp only [Option.map_eq_some_iff, Option.bind_eq_bind, Option.bind_eq_some_iff,
      Option.pure_def, Option.some.injEq, positive?_ten_eq_some_iff hminus]
    constructor
    · rintro ⟨-, ⟨n, ⟨h, hn⟩, rfl⟩, rfl⟩
      exact ⟨h, ⟨by split <;> omega, by omega⟩, fun hhead => absurd hhead hminus⟩
    · rintro ⟨h, hv, -⟩
      obtain ⟨n, rfl⟩ := Int.eq_ofNat_of_zero_le (h.nonneg hminus)
      exact ⟨n, ⟨n, ⟨h, by omega⟩, rfl⟩, rfl⟩

example : int64.read? ['-', '0'] = some 0 ∧ word64.read? ['-', '0'] = none := by
  decide

end IntegerType

theorem IsNumeral.unique {v w : Int} (hv : IsNumeral cs v) (hw : IsNumeral cs w) : v = w := by
  -- a type that has both reads the text as either
  let t : IntegerType := ⟨true, v.natAbs + w.natAbs + 1⟩
  have hread {u : Int} (hu : IsNumeral cs u) (hle : u.natAbs ≤ v.natAbs + w.natAbs) :
      t.read? cs = some u := by
    rw [IntegerType.read?_eq_some_iff (Nat.succ_pos _)]
    refine ⟨hu, ⟨?_, ?_⟩, fun _ => rfl⟩
    · show -((v.natAbs + w.natAbs + 1 : Nat) : Int) ≤ u
      omega
    · show u < ((v.natAbs + w.natAbs + 1 : Nat) : Int)
      omega
  exact Option.some.inj ((hread hv (by omega)).symm.trans (hread hw (by omega)))

/-! ## Decimal texts -/

/-- Whether a text is the decimal text of `v`, with any number of zeros in front of the digits. A
plus sign may stand where there is no minus sign. -/
inductive IsSpelling : Int → List Char → Prop
  | plain (n zeros : Nat) : IsSpelling n (List.replicate zeros '0' ++ Nat.toDigits 10 n)
  | plus (n zeros : Nat) : IsSpelling n ('+' :: (List.replicate zeros '0' ++ Nat.toDigits 10 n))
  | minus (n zeros : Nat) : 0 < n →
    IsSpelling (-n) ('-' :: (List.replicate zeros '0' ++ Nat.toDigits 10 n))

theorem isDecimal_replicate_append (n zeros : Nat) :
    IsDecimal (List.replicate zeros '0' ++ Nat.toDigits 10 n) where
  ne_nil := by simp
  digits c hc := by
    rcases List.mem_append.1 hc with hc | hc
    · rw [List.eq_of_mem_replicate hc]
      rfl
    · exact Nat.isDigit_of_mem_toDigits (by decide) (by decide) hc

theorem ofDigitChars_replicate_append (n zeros : Nat) :
    Nat.ofDigitChars 10 (List.replicate zeros '0' ++ Nat.toDigits 10 n) 0 = n := by
  rw [Nat.ofDigitChars_append, Nat.ofDigitChars_replicate_zero, Nat.mul_zero,
    Nat.ofDigitChars_ten_toDigits]

theorem IsSpelling.isNumeral {v : Int} (h : IsSpelling v cs) : IsNumeral cs v := by
  have hdigits := isDecimal_replicate_append
  cases h with
  | plain n zeros =>
    have h := IsNumeral.plain (hdigits n zeros)
    rwa [ofDigitChars_replicate_append] at h
  | plus n zeros =>
    have h := IsNumeral.plus (hdigits n zeros)
    rwa [ofDigitChars_replicate_append] at h
  | minus n zeros =>
    have h := IsNumeral.minus (hdigits n zeros)
    rwa [ofDigitChars_replicate_append] at h

/-- Only negative integers have a decimal text with a minus sign. -/
theorem IsSpelling.neg_of_minus {v : Int} (h : IsSpelling v cs) (hminus : cs.head? = some '-') :
    v < 0 := by
  cases h with
  | plain n zeros =>
    have hc := (isDecimal_replicate_append n zeros).digits '-' (List.mem_of_mem_head? hminus)
    exact absurd hc (by decide)
  | plus => simp at hminus
  | minus n zeros hn => omega

/-! ## Blanks -/

/-- Whether a text is `core` with blanks around it. -/
def IsPadded (core cs : List Char) : Prop :=
  ∃ front back, cs = front ++ core ++ back ∧ (∀ c ∈ front, isBlank c = true) ∧
    ∀ c ∈ back, isBlank c = true

theorem isPadded_trim (cs : List Char) : IsPadded (trim cs) cs := by
  let rest := cs.dropWhile isBlank
  refine ⟨cs.takeWhile isBlank, (rest.reverse.takeWhile isBlank).reverse, ?_,
    fun c hc => List.mem_takeWhile_imp hc, fun c hc => ?_⟩
  · show cs = _ ++ (rest.reverse.dropWhile isBlank).reverse ++ _
    rw [List.append_assoc, ← List.reverse_append, List.takeWhile_append_dropWhile,
      List.reverse_reverse, List.takeWhile_append_dropWhile]
  · exact List.mem_takeWhile_imp (List.mem_reverse.1 hc)

theorem dropWhile_blanks_append {front core : List Char} (hfront : ∀ c ∈ front, isBlank c = true)
    (hcore : ∀ c ∈ core.head?, isBlank c = false) (hne : core ≠ []) (back : List Char) :
    (front ++ (core ++ back)).dropWhile isBlank = core ++ back := by
  rw [List.dropWhile_append_of_pos hfront]
  rcases core with _ | ⟨c, core⟩
  · exact absurd rfl hne
  · exact List.dropWhile_cons_of_neg (by simp [hcore c rfl])

/-- Text without a blank at either end is all that trimming leaves. -/
theorem IsPadded.trim_eq {core : List Char} (h : IsPadded core cs) (hne : core ≠ [])
    (hhead : ∀ c ∈ core.head?, isBlank c = false) (hlast : ∀ c ∈ core.getLast?, isBlank c = false) :
    trim cs = core := by
  obtain ⟨front, back, rfl, hfront, hback⟩ := h
  have hback : ∀ c ∈ back.reverse, isBlank c = true := fun c hc => hback c (List.mem_reverse.1 hc)
  rw [← List.head?_reverse] at hlast
  rw [trim, List.append_assoc, dropWhile_blanks_append hfront hhead hne, List.reverse_append,
    ← List.append_nil core.reverse,
    dropWhile_blanks_append hback hlast (by simpa using hne), List.append_nil, List.reverse_reverse]

theorem IsPadded.trim_eq_of_not_blank {core : List Char} (h : IsPadded core cs) (hne : core ≠ [])
    (hcore : ∀ c ∈ core, isBlank c = false) : trim cs = core :=
  h.trim_eq hne (fun c hc => hcore c (List.mem_of_mem_head? hc))
    fun c hc => hcore c (List.mem_of_getLast? hc)

theorem isBlank_eq_false {c : Char} (hlow : 0x20 < c.toNat) (hhigh : c.toNat < 0x7F) :
    isBlank c = false := by
  simp [isBlank]
  omega

theorem IsDecimal.not_blank (h : IsDecimal cs) : ∀ c ∈ cs, isBlank c = false := by
  intro c hc
  have hrange := h.between c hc
  exact isBlank_eq_false (by omega) (by omega)

/-- Neither end of a numeral is a blank. -/
theorem IsNumeral.trim_eq {core : List Char} {v : Int} (h : IsNumeral core v)
    (hcs : IsPadded core cs) : trim cs = core := by
  have hlast {sign : Char} {ds : List Char} (hds : IsDecimal ds) :
      ∀ c ∈ (sign :: ds).getLast?, isBlank c = false := by
    intro c hc
    rw [List.getLast?_cons_of_ne_nil hds.ne_nil] at hc
    exact hds.not_blank c (List.mem_of_getLast? hc)
  cases h with
  | plain h => exact hcs.trim_eq_of_not_blank h.ne_nil h.not_blank
  | plus h => exact hcs.trim_eq (by simp) (by simp; decide) (hlast h)
  | minus h => exact hcs.trim_eq (by simp) (by simp; decide) (hlast h)

end Treegram
