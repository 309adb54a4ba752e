import StackScript.Double.Basic

/-!
# Shortest decimals

The decimal with the fewest digits that reads back as a given number, and the two ways it is
written out: positionally in listings, and with an exponent for extreme sizes in JSON.

A finite nonzero number `m * 2 ^ q` is what every real between the midpoints to its two neighbours
rounds to, the midpoints included when `m` is even.  For one digit, two digits and so on, the number
lies between two neighbours on the grid of decimals with that many digits, and if any point of the
grid reads back then one of these two does.
-/

namespace StackScript

/-- The decimal `digits * 10 ^ exponent`. -/
structure Decimal where
  digits : Nat
  exponent : Int
  deriving DecidableEq, Repr

namespace Decimal

/-- A power of ten `10 ^ k` as a ratio. -/
def powerNum (k : Int) : Nat := Nat.pow 10 k.toNat

/-- The denominator of `10 ^ k`. -/
def powerDen (k : Int) : Nat := Nat.pow 10 (-k).toNat

/-- The same decimal with no trailing zero among its digits. -/
def trim : Nat → Decimal → Decimal
  | 0, d => d
  | fuel + 1, d =>
    if d.digits ≠ 0 ∧ d.digits % 10 = 0 then trim fuel ⟨d.digits / 10, d.exponent + 1⟩ else d

end Decimal

namespace Double

/-- A finite number's size and the ends of the interval that rounds to it, as multiples of one
unit `unitNum / unitDen`. -/
structure Interval where
  low : Nat
  value : Nat
  high : Nat
  /-- The ends round to the number too. -/
  closed : Bool
  unitNum : Nat
  unitDen : Nat

/-- The interval of a finite nonzero number, in quarters of its last place. -/
def interval (x : Double) : Interval :=
  let m := x.significand
  let q := x.scale - 2
  -- Below a power of two the numbers lie twice as dense.
  let narrow := m == exponentUnit && 1 < x.exponentField
  { low := 4 * m - (if narrow then 1 else 2)
    value := 4 * m
    high := 4 * m + 2
    closed := m % 2 == 0
    unitNum := Nat.pow 2 q.toNat
    unitDen := Nat.pow 2 (-q).toNat }

namespace Interval

/-- Whether the decimal `c * 10 ^ k` rounds to the number. -/
def contains (i : Interval) (c : Nat) (k : Int) : Bool :=
  let point := c * Decimal.powerNum k * i.unitDen
  let unit := i.unitNum * Decimal.powerDen k
  if i.closed then i.low * unit ≤ point && point ≤ i.high * unit
  else i.low * unit < point && point < i.high * unit

/-- The number divided by `10 ^ k`, as a ratio. -/
def scaledNum (i : Interval) (k : Int) : Nat := i.value * i.unitNum * Decimal.powerDen k

/-- The denominator of the number divided by `10 ^ k`. -/
def scaledDen (i : Interval) (k : Int) : Nat := i.unitDen * Decimal.powerNum k

/-- Whether the number is at least `10 ^ k`. -/
def reaches (i : Interval) (k : Int) : Bool := i.scaledDen k ≤ i.scaledNum k

/-- The largest `k` with `10 ^ k` at most the number, found near `guess`. -/
def magnitude (i : Interval) (guess : Int) : Int :=
  if i.reaches (guess + 1) then guess + 1
  else if i.reaches guess then guess
  else guess - 1

/-- The nearer of the number's two neighbours on the grid of multiples of `10 ^ k` that reads back;
of two equally near, the greater. -/
def onGrid? (i : Interval) (k : Int) : Option Decimal :=
  let num := i.scaledNum k
  let den := i.scaledDen k
  let below := num / den
  let nearAbove := den ≤ 2 * (num % den)
  match i.contains below k, i.contains (below + 1) k with
  | true, true => some ⟨if nearAbove then below + 1 else below, k⟩
  | true, false => some ⟨below, k⟩
  | false, true => some ⟨below + 1, k⟩
  | false, false => none

/-- The first grid with a decimal that reads back, from `count` more grids on. -/
def search (i : Interval) : Nat → Int → Decimal
  | 0, k => ⟨i.scaledNum k / i.scaledDen k, k⟩
  | count + 1, k =>
    match i.onGrid? k with
    | some d => d
    | none => search i count (k - 1)

end Interval

/-- The shortest decimal of a number's size; seventeen digits always suffice. -/
def shortest (x : Double) : Decimal :=
  if x.isZero then ⟨0, 0⟩
  else
    let i := x.interval
    let log : Int := (x.significand.log2 : Int) + x.scale
    let top := i.magnitude (log * 30103 / 100000)
    Decimal.trim 20 (i.search 17 top)

end Double

/-! ### Written forms -/

namespace Decimal

/-- The digits of a decimal, most significant first. -/
def digitChars (d : Decimal) : List Char := Nat.toDigits 10 d.digits

/-- A row of zeros. -/
def zeros (n : Nat) : List Char := List.replicate n '0'

/-- Digits with a point after the first `places` of them, filled up with zeros on either side.
Nothing follows a point that has no digit behind it. -/
def positional (d : Decimal) : List Char :=
  let ds := d.digitChars
  let places : Int := ds.length + d.exponent
  if 0 ≤ d.exponent then ds ++ zeros d.exponent.toNat
  else if 0 < places then ds.take places.toNat ++ '.' :: ds.drop places.toNat
  else '0' :: '.' :: zeros (-places).toNat ++ ds

/-- One digit before the point, the others behind it, and the exponent. -/
def scientific (d : Decimal) : List Char :=
  let ds := d.digitChars
  let exponent : Int := ds.length + d.exponent - 1
  ds.take 1 ++ (if ds.length ≤ 1 then [] else '.' :: ds.drop 1) ++
    'e' :: (toString exponent).toList

end Decimal

namespace Double

/-- A text with the sign of the number before it. -/
def signed (x : Double) (body : List Char) : String :=
  String.ofList (if x.negative then '-' :: body else body)

/-- The number as listings show it: positional always, and no point in a whole number. -/
def text (x : Double) : String :=
  if x.isNaN then "NaN"
  else if !x.isFinite then x.signed "inf".toList
  else x.signed x.shortest.positional

/-- The number as JSON writes it: positional from `10 ^ -5` up to `10 ^ 16`, a whole number with a
trailing `.0`, and with an exponent beyond.  JSON has no other numbers, and those become `null`. -/
def jsonText (x : Double) : String :=
  if !x.isFinite then "null"
  else
    let d := x.shortest
    let places : Int := d.digitChars.length + d.exponent
    if x.isZero then x.signed "0.0".toList
    else if 16 < places || places ≤ -5 then x.signed d.scientific
    else if 0 ≤ d.exponent then x.signed (d.positional ++ ['.', '0'])
    else x.signed d.positional

end Double

end StackScript
