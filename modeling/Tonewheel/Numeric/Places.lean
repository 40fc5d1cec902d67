/-!
# Decimal text with a fixed number of places

`Places.ofDouble` and `Places.ofSingle` write the exact binary value rounded to a given number of
decimal places. Halves go to the even neighbour. Infinity is `inf` and NaN is `NaN`.
-/

namespace Tonewheel.Places

/-- `num / den` rounded to a whole number, a half going to the even neighbour. -/
def roundQuotient (num den : Nat) : Nat :=
  let q := num / den
  let twice := 2 * (num % den)
  if den < twice then q + 1
  else if twice < den then q
  else if q % 2 = 0 then q else q + 1

/-- `n` hundredths, thousandths and so on, written with a point before the last `places` digits. -/
def withPoint (places n : Nat) : String :=
  let digits := Nat.toDigits 10 n
  let padded := List.replicate (places + 1 - digits.length) '0' ++ digits
  let cut := padded.length - places
  if places = 0 then String.ofList padded
  else String.ofList (padded.take cut ++ '.' :: padded.drop cut)

/-- The number `mantissa * 2 ^ exponent` to the given places. -/
def ofBinary (places mantissa : Nat) (exponent : Int) : String :=
  let scaled := mantissa * Nat.pow 10 places
  withPoint places <|
    if exponent < 0 then roundQuotient scaled (1 <<< exponent.natAbs)
    else scaled <<< exponent.natAbs

/-- The text of a float given by sign, biased exponent and fraction, for a format with
`fractionBits` bits of fraction, exponent bias `bias` and all-ones exponent `top`. -/
def ofFields (places fractionBits : Nat) (bias top : Int) (negative : Bool)
    (exponent : Int) (fraction : Nat) : String :=
  if exponent = top then
    if fraction ≠ 0 then "NaN" else if negative then "-inf" else "inf"
  else
    let unit := bias + fractionBits
    let text :=
      if exponent = 0 then ofBinary places fraction (1 - unit)
      else ofBinary places ((1 <<< fractionBits) + fraction) (exponent - unit)
    if negative then "-" ++ text else text

def ofDouble (places : Nat) (x : Float) : String :=
  let bits := x.toBits.toNat
  ofFields places 52 1023 2047 (bits >>> 63 != 0) ((bits >>> 52) % 2048 : Nat)
    (bits % 0x10000000000000)

def ofSingle (places : Nat) (x : Float32) : String :=
  let bits := x.toBits.toNat
  ofFields places 23 127 255 (bits >>> 31 != 0) ((bits >>> 23) % 256 : Nat) (bits % 0x800000)

/-- A number at the right end of a column at least `width` characters wide. -/
def column (width n : Nat) : String :=
  let digits := Nat.toDigits 10 n
  String.ofList (List.replicate (width - digits.length) ' ' ++ digits)

end Tonewheel.Places
