/-!
# Values

The texts that stand for single values: whole numbers below a bound, truth values and characters.
A numeral is a run of digits in some radix, read as a whole; there is no separator and no rounding,
and the number of digits is not limited, their value is. A flag is one of eight words in any mix of
case or the decimal numeral of a 64-bit integer, of which only zero is false.

Blanks are the characters with Unicode's White_Space property. Those around a flag do not count.
-/

namespace Treegram

/-! ## Blanks -/

/-- Whether `c` has the White_Space property. -/
def isBlank (c : Char) : Bool :=
  let n := c.toNat
  0x09 ≤ n && n ≤ 0x0D || n == 0x20 || n == 0x85 || n == 0xA0 || n == 0x1680 ||
    0x2000 ≤ n && n ≤ 0x200A || n == 0x2028 || n == 0x2029 || n == 0x202F || n == 0x205F ||
    n == 0x3000

/-- The text between the blanks at its two ends. -/
def trim (cs : List Char) : List Char :=
  ((cs.dropWhile isBlank).reverse.dropWhile isBlank).reverse

/-! ## Numerals -/

/-- The value of `c` as a digit of `radix`, which is at most sixteen; letters of either case. -/
def digit? (radix : Nat) (c : Char) : Option Nat :=
  let n := c.toNat
  let value :=
    if 48 ≤ n ∧ n ≤ 57 then n - 48
    else if 97 ≤ n ∧ n ≤ 102 then n - 87
    else if 65 ≤ n ∧ n ≤ 70 then n - 55
    else 16
  if value < radix then some value else none

/-- The value of the digits `cs` read after digits worth `acc`. No digit makes the value smaller,
so reading stops at the first that takes it to the bound. -/
def digitsValue? (radix bound acc : Nat) : List Char → Option Nat
  | [] => some acc
  | c :: cs =>
    match digit? radix c with
    | some d =>
      let value := acc * radix + d
      if value < bound then digitsValue? radix bound value cs else none
    | none => none

/-- The number below `bound` written by one or more digits. -/
def natural? (radix bound : Nat) : List Char → Option Nat
  | [] => none
  | c :: cs => digitsValue? radix bound 0 (c :: cs)

/-- The number below `bound` written by one or more digits after an optional plus sign. -/
def positive? (radix bound : Nat) : List Char → Option Nat
  | '+' :: cs => natural? radix bound cs
  | cs => natural? radix bound cs

/-- A type of integers: all below `bound`, if signed from `-bound` on and otherwise from zero. -/
structure IntegerType where
  signed : Bool
  bound : Nat
  deriving DecidableEq

namespace IntegerType

def int8 : IntegerType := ⟨true, 0x80⟩
def int16 : IntegerType := ⟨true, 0x8000⟩
def int32 : IntegerType := ⟨true, 0x80000000⟩
def int64 : IntegerType := ⟨true, 0x8000000000000000⟩
def word8 : IntegerType := ⟨false, UInt8.size⟩
def word16 : IntegerType := ⟨false, UInt16.size⟩
def word32 : IntegerType := ⟨false, UInt32.size⟩
def word64 : IntegerType := ⟨false, UInt64.size⟩

/-- The decimal numeral of a member; a minus sign is for signed types only. -/
def read? (t : IntegerType) : List Char → Option Int
  | '-' :: cs => if t.signed then (natural? 10 (t.bound + 1) cs).map fun n => -(n : Int) else none
  | cs => (positive? 10 t.bound cs).map fun n => (n : Int)

end IntegerType

/-! ## Truth values and characters -/

/-- The truth value spelled out, in lower case. -/
def truth? (cs : List Char) : Option Bool :=
  if cs = ['t', 'r', 'u', 'e'] then some true
  else if cs = ['f', 'a', 'l', 's', 'e'] then some false
  else none

def character? : List Char → Option Char
  | [c] => some c
  | _ => none

namespace Flag

def trueWords : List (List Char) :=
  [['y', 'e', 's'], ['t', 'r', 'u', 'e'], ['u', 'p'], ['o', 'n']]

def falseWords : List (List Char) :=
  [['n', 'o'], ['f', 'a', 'l', 's', 'e'], ['d', 'o', 'w', 'n'], ['o', 'f', 'f']]

end Flag

/-- The truth value a text stands for. -/
def flag? (s : String) : Option Bool :=
  let cs := trim s.toList
  let word := cs.map Char.toLower
  if word ∈ Flag.trueWords then some true
  else if word ∈ Flag.falseWords then some false
  else (IntegerType.int64.read? cs).map (· != 0)

end Treegram
