import StackScript.CompiledUnit.Json
import StackScript.LinkedProgram

/-!
# Linked programs in JSON
-/

namespace StackScript.LinkedProgram

/-- A unit's name and offset, as an array of the two. -/
def placeToJson (place : String × Nat) : Json := .arr [.str place.1, .ofNat place.2]

/-- Reads where a unit is: a pair of its name and its offset. -/
def readPlace? : (depth : Nat) → Json → Option (String × Nat)
  | _ + 1, .arr [.str name, j] => j.toNat?.map fun offset => (name, offset)
  | _, _ => none

/-- A linked program as a record, with every field written. -/
def toJson (p : LinkedProgram) : Json :=
  .obj [("bytecode", p.chunk.toJson), ("units", .ofList placeToJson p.units),
    ("exports", offsetsToJson p.exports)]

/-- Reads a linked program. -/
def read? : (depth : Nat) → Json → Option LinkedProgram
  | 0, _ => none
  | depth + 1, j => do
    let r ← j.record? ["bytecode", "units", "exports"]
    return { chunk := ← r.required "bytecode" (Chunk.read? depth)
             units := ← r.required "units" (Json.listOf? readPlace? depth)
             exports := ← r.required "exports" (readOffsets? depth) }

/-- The program a value holds, at any depth of nesting. -/
def ofJson? (j : Json) : Option LinkedProgram := read? j.depth j

end StackScript.LinkedProgram
