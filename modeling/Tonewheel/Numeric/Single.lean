/-!
# Single-precision conversions

Samples are 32-bit floats and every operation on them is rounded once. This module holds the
conversions around them that are exact or truncate: to a double (`widen`), to the nearest whole
number (`nearest`), to a bounded integer (`truncate`), from an integer (`ofInt`), and `clamp`.
Each is defined from operations that evaluate in the logic, so a concrete conversion can be
decided.
-/

namespace Tonewheel.Single

def pi : Float32 := Float32.ofBits 0x40490fdb

def tau : Float32 := Float32.ofBits 0x40c90fdb

/-- The double of the same value. Every single is a double: the exponent is rebiased by 896 and
the fraction moves up by 29 bits; below the normal range the value is its fraction times 2^-149. -/
def widen (x : Float32) : Float :=
  let bits := x.toBits
  let negative := bits >>> 31 != 0
  let exponent := (bits >>> 23) &&& 0xff
  let fraction := (bits &&& 0x7fffff).toUInt64
  let magnitude :=
    if exponent == 0 then fraction.toFloat * Float.ofBits 0x36a0000000000000
    else if exponent == 0xff then Float.ofBits ((0x7ff0000000000000 : UInt64) ||| (fraction <<< 29))
    else Float.ofBits (((exponent.toUInt64 + 896) <<< 52) ||| (fraction <<< 29))
  if negative then -magnitude else magnitude

/-- The nearest whole number, halves going up. Negative numbers and NaN give zero. -/
def nearest (x : Float32) : Nat :=
  let whole := x.toUInt64
  if 0.5 ≤ x - whole.toFloat32 then whole.toNat + 1 else whole.toNat

/-- Truncation toward zero, held between `-limit` and `limit - 1`; NaN gives zero. It is the
saturating conversion to a two's complement word for which `limit` is a power of two. -/
def truncate (limit : Nat) (x : Float32) : Int :=
  if x < 0 then -(min limit (-x).toUInt64.toNat : Nat)
  else (min (limit - 1) x.toUInt64.toNat : Nat)

/-- The single nearest to an integer of at most 32 bits. -/
def ofInt (n : Int) : Float32 :=
  match n with
  | .ofNat m => m.toUInt32.toFloat32
  | .negSucc m => -(m + 1).toUInt32.toFloat32

/-- The number held between two bounds. A NaN stays a NaN. -/
def clamp (lo hi x : Float32) : Float32 :=
  if x < lo then lo else if hi < x then hi else x

end Tonewheel.Single
