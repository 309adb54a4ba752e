/-!
# Double-precision numbers

A number of the binary64 format, held as its 64 bits.  Numbers are stored, compared and printed, and
what is computed from them is computed exactly and rounded once, so the bits are all there is to a
number.

* `Double.equals` is numeric equality: the two zeros are equal, and a NaN equals nothing.
* `Double.ofRatio?` is the number nearest to a ratio, a tie going to the even significand.
-/

namespace StackScript

/-- A floating-point number of 64 bits, as its bits. -/
structure Double where
  bits : UInt64
  deriving DecidableEq, Repr, Inhabited

namespace Double

/-- Where the exponent field begins: `2 ^ 52`. -/
def exponentUnit : Nat := 0x10000000000000

/-- The value of the sign bit: `2 ^ 63`. -/
def signUnit : Nat := 0x8000000000000000

/-- The sign bit, set on `-0` too. -/
def negative (x : Double) : Bool := x.bits.toNat / signUnit == 1

/-- The eleven bits of the exponent field. -/
def exponentField (x : Double) : Nat := x.bits.toNat / exponentUnit % 2048

/-- The fifty-two bits of the fraction field. -/
def fraction (x : Double) : Nat := x.bits.toNat % exponentUnit

/-- Neither an infinity nor a NaN. -/
def isFinite (x : Double) : Bool := x.exponentField != 2047

/-- The exponent has all bits set and the fraction is not zero. -/
def isNaN (x : Double) : Bool := x.exponentField == 2047 && x.fraction != 0

/-- One of the two zeros. -/
def isZero (x : Double) : Bool := x.exponentField == 0 && x.fraction == 0

/-- Numeric equality. -/
def equals (x y : Double) : Bool :=
  !x.isNaN && !y.isNaN && (x.bits == y.bits || (x.isZero && y.isZero))

/-- The significand `m` of a finite number of size `m * 2 ^ scale`. -/
def significand (x : Double) : Nat :=
  if x.exponentField = 0 then x.fraction else exponentUnit + x.fraction

/-- The scale `q` of a finite number of size `significand * 2 ^ q`. -/
def scale (x : Double) : Int :=
  if x.exponentField = 0 then -1074 else (x.exponentField : Int) - 1075

/-- The number with the given sign whose other bits are `magnitude`. -/
def ofMagnitude (negative : Bool) (magnitude : Nat) : Double :=
  ⟨(magnitude + if negative then signUnit else 0).toUInt64⟩

/-- The zero of this sign. -/
def zero (negative : Bool) : Double := ofMagnitude negative 0

/-- The infinity of this sign. -/
def infinity (negative : Bool) : Double := ofMagnitude negative (2047 * exponentUnit)

/-- The NaN whose fraction field has its first bit set only. -/
def nan (negative : Bool) : Double := ofMagnitude negative (2047 * exponentUnit + exponentUnit / 2)

/-- `num / den` rounded to the nearest integer, a tie going to the even one. -/
def roundHalfEven (num den : Nat) : Nat :=
  let whole := num / den
  let twice := 2 * (num % den)
  if den < twice then whole + 1
  else if twice = den then whole + whole % 2
  else whole

/-- `num * 2 ^ k ≥ den`, for `k` of either sign. -/
def atLeast (num den : Nat) (k : Int) : Bool :=
  den <<< (-k).toNat ≤ num <<< k.toNat

/-- The number nearest to `num / den`, a tie going to the even significand; none when the ratio
lies beyond the largest finite number. -/
def ofRatio? (negative : Bool) (num den : Nat) : Option Double :=
  if num = 0 then some (zero negative)
  else
    let guess : Int := (num.log2 : Int) - (den.log2 : Int)
    let top := if atLeast num den (-guess) then guess else guess - 1
    let q := max (top - 52) (-1074)
    let m := roundHalfEven (num <<< (-q).toNat) (den <<< q.toNat)
    -- The implicit leading bit of `m` carries into the exponent field, as does a round-up to 2 ^ 53.
    let magnitude := (q + 1074).toNat * exponentUnit + m
    if magnitude < 2047 * exponentUnit then some (ofMagnitude negative magnitude) else none

/-- The number nearest to `digits * 10 ^ exponent`; none when that is beyond the largest finite
number. -/
def ofDecimal? (negative : Bool) (digits : Nat) (exponent : Int) : Option Double :=
  if digits = 0 then some (zero negative)
  else
    -- The value lies between 10 ^ (length - 1) and 10 ^ length.
    let length := exponent + (Nat.toDigits 10 digits).length
    if 310 < length then none
    else if length < -330 then some (zero negative)
    else ofRatio? negative (digits * Nat.pow 10 exponent.toNat)
      (Nat.pow 10 (-exponent).toNat)

/-- The number nearest to an integer; none when that is beyond the largest finite number. -/
def ofInt? (n : Int) : Option Double := ofRatio? (n < 0) n.natAbs 1

/-- The number nearest to a natural number. -/
def ofNat (n : Nat) : Double := (ofRatio? false n 1).getD (zero false)

/-- The sixteen hexadecimal digits of the bits. -/
def hex (x : Double) : String :=
  let digits := Nat.toDigits 16 x.bits.toNat
  String.ofList (List.replicate (16 - digits.length) '0' ++ digits)

end Double

end StackScript
