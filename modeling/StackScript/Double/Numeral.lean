import StackScript.Double.Basic

/-!
# Decimal numerals

A numeral is a sign, the digits before and behind its point, and an exponent.  There are two ways
from a numeral to a `Double`.

* `Numeral.nearest?` is the number nearest to what the numeral stands for.
* `Numeral.stepwise?` computes with doubles.  The leading digits are taken as a number of 64 bits,
  that is rounded, and the result is multiplied or divided by a power of ten, which is rounded too.
  A short numeral of moderate size comes out the same; others may miss the nearest number by a few
  units of the last place.

Either way a numeral beyond the largest finite number has no value.
-/

namespace StackScript

namespace Double

/-- The product of two finite numbers, rounded to the nearest; none when that is beyond the largest
finite number. -/
def mul? (x y : Double) : Option Double :=
  let q := x.scale + y.scale
  ofRatio? (x.negative != y.negative) ((x.significand * y.significand) <<< q.toNat)
    (1 <<< (-q).toNat)

/-- The quotient of a finite number by another that is not zero, rounded to the nearest; none when
that is beyond the largest finite number. -/
def div? (x y : Double) : Option Double :=
  let q := x.scale - y.scale
  ofRatio? (x.negative != y.negative) (x.significand <<< q.toNat) (y.significand <<< (-q).toNat)

/-- The largest power of ten among the finite numbers has this exponent. -/
def maxPowerOfTen : Nat := 308

/-- The number nearest to a power of ten up to the largest. -/
def powerOfTen (n : Nat) : Double := ofNat (Nat.pow 10 n)

end Double

/-- A decimal numeral as it is written, digit by digit. -/
structure Numeral where
  negative : Bool
  /-- The digits before the point. -/
  whole : List Nat
  /-- The digits behind the point. -/
  places : List Nat
  exponent : Int
  deriving DecidableEq, Repr

namespace Numeral

/-- The number that digits write. -/
def digitsValue (digits : List Nat) : Nat := digits.foldl (fun n d => n * 10 + d) 0

/-- The number nearest to a numeral's value. -/
def nearest? (d : Numeral) : Option Double :=
  Double.ofDecimal? d.negative (digitsValue (d.whole ++ d.places)) (d.exponent - d.places.length)

/-- Appends digits to a number for as long as it stays within 64 bits, and counts them. -/
def absorb (n count : Nat) : List Nat → Nat × Nat
  | [] => (n, count)
  | d :: rest =>
    if n * 10 + d < UInt64.size then absorb (n * 10 + d) (count + 1) rest else (n, count)

/-- The leading digits of a numeral as a number of 64 bits, and the exponent that goes with it.
When digits before the point are left out, those behind it may still be appended. -/
def leading (d : Numeral) : Nat × Int :=
  let (n, before) := absorb 0 0 d.whole
  let (n, behind) := absorb n 0 d.places
  (n, d.exponent + (d.whole.length - before : Nat) - behind)

/-- A number below `2 ^ 64` times `10 ^ exponent`, computed with powers of ten that are finite.
Divided twice by the largest of them, such a number is zero. -/
def shift? (x : Double) (exponent : Int) : Option Double :=
  let most : Int := Double.maxPowerOfTen
  if most < exponent then if x.isZero then some x else none
  else if 0 ≤ exponent then x.mul? (.powerOfTen exponent.toNat)
  else if -most ≤ exponent then x.div? (.powerOfTen (-exponent).toNat)
  else if exponent < -(2 * most) then some (.zero x.negative)
  else do
    let y ← x.div? (.powerOfTen Double.maxPowerOfTen)
    y.div? (.powerOfTen (-(exponent + most)).toNat)

/-- The number that a numeral comes to when it is computed with doubles. -/
def stepwise? (d : Numeral) : Option Double :=
  let (n, exponent) := d.leading
  (Double.ofRatio? d.negative n 1).bind (shift? · exponent)

end Numeral

end StackScript
