import StackScript.Json.Record
import StackScript.ValueType

/-!
# Types in JSON

A type is its name, and an array type carries the type of its elements.
-/

namespace StackScript.ValueType

/-- The names of the types that carry nothing. -/
def plainNames : List (String × ValueType) :=
  [("None", .unknown), ("Any", .any), ("Int", .int), ("Num", .num), ("Str", .str), ("Bool", .bool),
    ("Hash", .hash)]

/-- A type as its name; an array's as an object that holds the type of its elements. -/
def toJson : ValueType → Json
  | .unknown => .str "None"
  | .any => .str "Any"
  | .int => .str "Int"
  | .num => .str "Num"
  | .str => .str "Str"
  | .bool => .str "Bool"
  | .array t => Json.tagged "Array" t.toJson
  | .hash => .str "Hash"

/-- A type nested at most `depth` objects deep. -/
def read? : (depth : Nat) → Json → Option ValueType
  | depth + 1, .obj [("Array", element)] => (read? depth element).map .array
  | depth, j => Json.oneOf? plainNames depth j

end StackScript.ValueType
