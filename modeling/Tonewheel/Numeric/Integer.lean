import Tonewheel.Numeric.Decimal

/-!
# Integer numerals (SPEC_FULL, section 4.1)

An integer is an optional sign and decimal digits, or an optional sign, `0x` or `0X`, and a
hexadecimal numeral that may carry a sign of its own. Values beyond 64 bits are refused.
-/

namespace Tonewheel.Integer

/-- Whether a number fits a signed 64-bit word. -/
def fits (n : Int) : Bool := -0x8000000000000000 ≤ n && n < 0x8000000000000000

def hexDigitValue (c : Char) : Option Nat :=
  if c.isDigit then some (c.toNat - '0'.toNat)
  else if 'a' ≤ c ∧ c ≤ 'f' then some (c.toNat - 'a'.toNat + 10)
  else if 'A' ≤ c ∧ c ≤ 'F' then some (c.toNat - 'A'.toNat + 10)
  else none

/-- The value of a run of hexadecimal digits that continues a number. -/
def hexValueFrom : Nat → List Char → Option Nat
  | n, [] => some n
  | n, c :: cs =>
    match hexDigitValue c with
    | some d => hexValueFrom (16 * n + d) cs
    | none => none

/-- A hexadecimal numeral with an optional sign and at least one digit. -/
def readHex (cs : List Char) : Option Int :=
  let (negative, digits) := Decimal.splitSign cs
  if digits.isEmpty then none
  else
    (hexValueFrom 0 digits).bind fun n =>
      let value : Int := if negative then -(n : Int) else n
      if fits value then some value else none

/-- At least one decimal digit and nothing else. -/
def readDigits (cs : List Char) : Option Int :=
  if cs.isEmpty || !cs.all Char.isDigit then none
  else
    let value : Int := Decimal.digitsValue cs
    if fits value then some value else none

def readUnsigned : List Char → Option Int
  | '0' :: 'x' :: cs => readHex cs
  | '0' :: 'X' :: cs => readHex cs
  | cs => readDigits cs

/-- Negation within a signed 64-bit word, where the lowest number is its own. -/
def negate (n : Int) : Int := Int.bmod (-n) 0x10000000000000000

def read (cs : List Char) : Option Int :=
  let (negative, rest) := Decimal.splitSign cs
  (readUnsigned rest).map fun n => if negative then negate n else n

end Tonewheel.Integer
