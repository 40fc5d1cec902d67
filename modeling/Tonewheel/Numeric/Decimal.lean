/-!
# Decimal numerals (SPEC_FULL, section 4.1)

A numeral is an optional sign followed by `inf`, `infinity` or `nan` in any case, or by decimal
digits with at most one point and an optional exponent. `Decimal.read` accepts exactly these, and
`toDouble` and `toSingle` give the nearest binary number, ties to even.
-/

namespace Tonewheel

inductive Magnitude where
  | infinite
  | notANumber
  /-- The number `digits * 10 ^ exponent`. -/
  | finite (digits : Nat) (exponent : Int)
  deriving Repr, DecidableEq

structure Decimal where
  negative : Bool
  magnitude : Magnitude
  deriving Repr, DecidableEq

namespace Decimal

def digitsValue (cs : List Char) : Nat :=
  cs.foldl (fun n c => 10 * n + (c.toNat - '0'.toNat)) 0

/-- A leading `+` or `-` and what follows it; no sign counts as `+`. -/
def splitSign : List Char → Bool × List Char
  | '-' :: cs => (true, cs)
  | '+' :: cs => (false, cs)
  | cs => (false, cs)

/-- The exponent part: nothing, or `e` with an optional sign and at least one digit. -/
def readExponent : List Char → Option Int
  | [] => some 0
  | c :: cs =>
    if c = 'e' ∨ c = 'E' then
      let (negative, digits) := splitSign cs
      if digits.isEmpty || !digits.all Char.isDigit then none
      else if negative then some (-(digitsValue digits : Int)) else some (digitsValue digits)
    else none

def splitFraction : List Char → List Char × List Char
  | '.' :: cs => cs.span Char.isDigit
  | cs => ([], cs)

/-- The magnitude of a numeral: a word for infinity or NaN, or digits with at least one of them on
either side of the point. -/
def readMagnitude (cs : List Char) : Option Magnitude :=
  let word := String.ofList (cs.map Char.toLower)
  if word = "inf" ∨ word = "infinity" then some .infinite
  else if word = "nan" then some .notANumber
  else
    let (whole, rest) := cs.span Char.isDigit
    let (fraction, tail) := splitFraction rest
    if whole.isEmpty && fraction.isEmpty then none
    else (readExponent tail).map fun e =>
      .finite (digitsValue (whole ++ fraction)) (e - fraction.length)

def read (cs : List Char) : Option Decimal :=
  let (negative, rest) := splitSign cs
  (readMagnitude rest).map fun m => { negative, magnitude := m }

/-- How many decimal digits a number has, zero having none. -/
def digitCount (n : Nat) : Nat :=
  if n = 0 then 0 else (Nat.toDigits 10 n).length

/-- A finite magnitude by its order: `none` when it is zero or below any binary number of the
formats used here, and infinite when it is above any. -/
def inRange (digits : Nat) (exponent : Int) : Option Magnitude :=
  let order := digitCount digits + exponent
  if digits = 0 ∨ order < -400 then none
  else if 400 < order then some .infinite
  else some (.finite digits exponent)

def toDouble (d : Decimal) : Float :=
  let value : Float :=
    match d.magnitude with
    | .infinite => Float.ofBits 0x7ff0000000000000
    | .notANumber => Float.ofBits 0x7ff8000000000000
    | .finite digits exponent =>
      match inRange digits exponent with
      | none => 0
      | some (.finite m e) => Float.ofScientific m (e < 0) e.natAbs
      | some _ => Float.ofBits 0x7ff0000000000000
  if d.negative then -value else value

def toSingle (d : Decimal) : Float32 :=
  let value : Float32 :=
    match d.magnitude with
    | .infinite => Float32.ofBits 0x7f800000
    | .notANumber => Float32.ofBits 0x7fc00000
    | .finite digits exponent =>
      match inRange digits exponent with
      | none => 0
      | some (.finite m e) => Float32.ofScientific m (e < 0) e.natAbs
      | some _ => Float32.ofBits 0x7f800000
  if d.negative then -value else value

end Decimal

end Tonewheel
