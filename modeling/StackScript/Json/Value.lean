import StackScript.Double.Basic

/-!
# JSON values

The values of the interchange format.  A number is an integer when it is written as one and lies
in the range of a 64-bit integer, signed or unsigned; every other number is a `Double`.  An object
keeps its fields in the order they were written, repeated names included.

A text can follow the grammar and still hold a part without a value: a number beyond the largest
`Double`, a string that escapes half of a surrogate pair, an object with such a name.  That part is
`unreadable`.  It may stand where nobody looks, and every reader refuses it.
-/

namespace StackScript

/-- A JSON value.  The fields of an object are in the order of the text. -/
inductive Json where
  | null
  | bool (value : Bool)
  | int (value : Int)
  | float (value : Double)
  | str (value : String)
  | arr (items : List Json)
  | obj (fields : List (String × Json))
  | unreadable
  deriving Inhabited

namespace Json

mutual

/-- How deep arrays and objects are nested: zero for a value that is neither. -/
def depth : Json → Nat
  | .arr items => depthOfItems items + 1
  | .obj fields => depthOfFields fields + 1
  | _ => 0

/-- How deep the deepest item is nested. -/
def depthOfItems : List Json → Nat
  | [] => 0
  | j :: rest => max j.depth (depthOfItems rest)

/-- How deep the deepest field is nested. -/
def depthOfFields : List (String × Json) → Nat
  | [] => 0
  | (_, j) :: rest => max j.depth (depthOfFields rest)

end

mutual

/-- No part of the value is unreadable. -/
def isReadable : Json → Bool
  | .unreadable => false
  | .arr items => itemsReadable items
  | .obj fields => fieldsReadable fields
  | _ => true

/-- Every item is readable. -/
def itemsReadable : List Json → Bool
  | [] => true
  | j :: rest => j.isReadable && itemsReadable rest

/-- Every field is readable. -/
def fieldsReadable : List (String × Json) → Bool
  | [] => true
  | (_, j) :: rest => j.isReadable && fieldsReadable rest

end

/-! ### Values of one kind -/

/-- A truth value. -/
def toBool? : Json → Option Bool
  | .bool b => some b
  | _ => none

/-- A string. -/
def toStr? : Json → Option String
  | .str s => some s
  | _ => none

/-- An integer. -/
def toInt? : Json → Option Int
  | .int n => some n
  | _ => none

/-- An integer that is not negative. -/
def toNat? : Json → Option Nat
  | .int (.ofNat n) => some n
  | _ => none

/-- A natural number below `bound`. -/
def toNatBelow? (bound : Nat) (j : Json) : Option Nat :=
  j.toNat?.filter (· < bound)

/-- An integer of eight bits without a sign. -/
def toUInt8? (j : Json) : Option UInt8 := (j.toNatBelow? UInt8.size).map (·.toUInt8)

/-- An integer of sixteen bits without a sign. -/
def toUInt16? (j : Json) : Option UInt16 := (j.toNatBelow? UInt16.size).map (·.toUInt16)

/-- An integer of thirty-two bits without a sign. -/
def toUInt32? (j : Json) : Option UInt32 := (j.toNatBelow? UInt32.size).map (·.toUInt32)

/-- An integer of sixty-four bits with a sign. -/
def toInt64? (j : Json) : Option Int64 :=
  (j.toInt?.filter fun n => Int64.minValue.toInt ≤ n && n ≤ Int64.maxValue.toInt).map Int64.ofInt

/-- Any number; an integer is rounded to the nearest `Double`. -/
def toDouble? : Json → Option Double
  | .float x => some x
  | .int n => Double.ofInt? n
  | _ => none

/-! ### Values of the library's types -/

/-- A natural number. -/
def ofNat (n : Nat) : Json := .int n

/-- A value that may be missing, which is null then. -/
def ofOption (write : α → Json) : Option α → Json
  | none => .null
  | some a => write a

/-- A list, item by item. -/
def ofList (write : α → Json) (items : List α) : Json := .arr (items.map write)

/-- An enumeration's case that carries a value. -/
def tagged (tag : String) (content : Json) : Json := .obj [(tag, content)]

end Json

end StackScript
