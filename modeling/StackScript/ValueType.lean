/-!
# Static types

The types a script may declare, and what using a value of one type where another is expected
amounts to (`ValueType.fit`): nothing, a conversion when the script runs, or an error.

Deduction is best effort.  `unknown` is the type of a value it could not tell, and a value of
unknown type fits everywhere, at worst through a conversion.
-/

namespace StackScript

/-- A static type. -/
inductive ValueType where
  | unknown
  | any
  | int
  | num
  | str
  | bool
  | array (element : ValueType)
  | hash
  deriving DecidableEq, Repr, Inhabited

/-- How a value of one type may be used as one of another. -/
inductive Fit where
  /-- As it is. -/
  | identical
  /-- After a conversion at run time. -/
  | castable
  /-- Not at all. -/
  | incompatible
  deriving DecidableEq, Repr

namespace ValueType

/-- No type could be told. -/
def isUnknown : ValueType → Bool
  | .unknown => true
  | _ => false

/-- A target that takes every value unchanged. -/
def isOpen : ValueType → Bool
  | .unknown | .any => true
  | _ => false

/-- It is the type of a number, a text or a truth value. -/
def isScalar : ValueType → Bool
  | .int | .num | .str | .bool => true
  | _ => false

/-- How a value of type `source` fits where `target` is expected. -/
def fit (source target : ValueType) : Fit :=
  if target.isOpen || source = target then .identical
  else
    match source, target with
    | .unknown, _ | .any, _ => .castable
    | .array a, .array b => a.fit b
    | a, b => if a.isScalar && b.isScalar then .castable else .incompatible

/-- The type as messages and listings spell it. -/
def text : ValueType → String
  | .unknown => "unknown"
  | .any => "Any"
  | .int => "Int"
  | .num => "Num"
  | .str => "Str"
  | .bool => "Bool"
  | .array .unknown => "Array"
  | .array t => "Array[" ++ t.text ++ "]"
  | .hash => "Hash"

end ValueType

end StackScript
