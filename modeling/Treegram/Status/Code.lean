import Treegram.Text.Value

/-!
# Status codes

A status code is a 32-bit word: two bits of severity, two reserved bits, twelve bits of group and
sixteen of local code, from the most significant on. The top bit alone tells whether the request
failed.
-/

namespace Treegram

/-- How grave a status is. -/
inductive Severity where
  | info
  | warning
  | error
  | critical
  deriving DecidableEq

namespace Severity

/-- The severity as the two high bits of a code. -/
def bits : Severity → Nat
  | info => 0
  | warning => 1
  | error => 2
  | critical => 3

def ofBits : Nat → Severity
  | 0 => info
  | 1 => warning
  | 2 => error
  | _ => critical

def isFailure : Severity → Bool
  | error | critical => true
  | _ => false

def title : Severity → String
  | info => "info"
  | warning => "warning"
  | error => "error"
  | critical => "critical"

end Severity

structure StatusCode where
  raw : UInt32
  deriving DecidableEq

namespace StatusCode

/-- The code with the given parts and no reserved bit; a group of more than twelve bits is cut. -/
def new (severity : Severity) (group localCode : Nat) : StatusCode :=
  ⟨.ofNat (severity.bits * 0x40000000 + group % 0x1000 * 0x10000 + localCode % 0x10000)⟩

def severity (c : StatusCode) : Severity :=
  .ofBits (c.raw.toNat / 0x40000000)

def group (c : StatusCode) : Nat :=
  c.raw.toNat / 0x10000 % 0x1000

def localCode (c : StatusCode) : Nat :=
  c.raw.toNat % 0x10000

def isFailed (c : StatusCode) : Bool :=
  0x80000000 ≤ c.raw.toNat

/-- The group and local code of `c` under another severity; the reserved bits are cleared. -/
def retag (c : StatusCode) (severity : Severity) : StatusCode :=
  new severity c.group c.localCode

/-- The code in eight hexadecimal digits. -/
def text (c : StatusCode) : String :=
  let digits := Nat.toDigits 16 c.raw.toNat
  String.ofList ('0' :: 'x' :: (List.replicate (8 - digits.length) '0' ++ digits))

/-- The number of a code as it is written in a message: decimal, or hexadecimal behind `0x`. A
plus sign may stand before the digits. -/
def number? (s : String) : Option UInt32 :=
  let value :=
    match trim s.toList with
    | '0' :: 'x' :: cs => positive? 16 UInt32.size cs
    | '0' :: 'X' :: cs => positive? 16 UInt32.size cs
    | cs => positive? 10 UInt32.size cs
  value.map UInt32.ofNat

end StatusCode

end Treegram
