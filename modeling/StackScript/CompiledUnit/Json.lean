import StackScript.Code.Json
import StackScript.CompiledUnit
import StackScript.Tree.Json

/-!
# Compiled units in JSON
-/

namespace StackScript

/-- Offsets by name. -/
def offsetsToJson (offsets : NameMap Nat) : Json :=
  .obj (offsets.toList.map fun (name, offset) => (name, .ofNat offset))

/-- Of a name that stands twice, the last offset counts. -/
def readOffsets? : (depth : Nat) → Json → Option (NameMap Nat)
  | _ + 1, .obj fields =>
    (fields.mapM fun ((name, j) : String × Json) => j.toNat?.map fun offset => (name, offset)).map fun entries =>
      Std.ExtTreeMap.ofList entries
  | _, _ => none

namespace Export

/-- An export as a record of its name and its offset. -/
def toJson (e : Export) : Json := .obj [("name", .str e.name), ("position", .ofNat e.position)]

/-- Reads an export. -/
def read? : (depth : Nat) → Json → Option Export
  | 0, _ => none
  | _ + 1, j => do
    let r ← j.record? ["name", "position"]
    return { name := ← r.required "name" Json.toStr?
             position := ← r.required "position" Json.toNat? }

end Export

namespace Interface

/-- What a unit has to do with others as a record of three lists. -/
def toJson (i : Interface) : Json :=
  .obj [("dependencies", .ofList .str i.dependencies), ("exports", .ofList Export.toJson i.exports),
    ("modules", .ofList .str i.modules)]

/-- Reads what a unit has to do with others. -/
def read? : (depth : Nat) → Json → Option Interface
  | 0, _ => none
  | depth + 1, j => do
    let r ← j.record? ["dependencies", "exports", "modules"]
    return { dependencies := ← r.required "dependencies" (Json.strings? depth)
             exports := ← r.required "exports" (Json.listOf? Export.read? depth)
             modules := ← r.required "modules" (Json.strings? depth) }

end Interface

namespace CallSite

/-- A call as a record of what is called, where in the source, where in the code, and whether it is
resolved. -/
def toJson (c : CallSite) : Json :=
  .obj [("name", .str c.name), ("span", c.span.toJson), ("position", .ofNat c.position),
    ("resolved", .bool c.resolved)]

/-- Reads a call. -/
def read? : (depth : Nat) → Json → Option CallSite
  | 0, _ => none
  | depth + 1, j => do
    let r ← j.record? ["name", "span", "position", "resolved"]
    return { name := ← r.required "name" Json.toStr?
             span := ← r.required "span" (Span.read? depth)
             position := ← r.required "position" Json.toNat?
             resolved := ← r.required "resolved" Json.toBool? }

end CallSite

namespace CompiledUnit

/-- A unit as a record, with every field written. -/
def toJson (u : CompiledUnit) : Json :=
  .obj [("name", .str u.name), ("bytecode", u.chunk.toJson),
    ("uses", .ofList CallSite.toJson u.uses.toList),
    ("subroutines", offsetsToJson u.subroutines), ("module", u.interface.toJson)]

/-- Reads a unit. -/
def read? : (depth : Nat) → Json → Option CompiledUnit
  | 0, _ => none
  | depth + 1, j => do
    let r ← j.record? ["name", "bytecode", "uses", "subroutines", "module"]
    return { name := ← r.required "name" Json.toStr?
             chunk := ← r.required "bytecode" (Chunk.read? depth)
             uses := (← r.required "uses" (Json.listOf? CallSite.read? depth)).toArray
             subroutines := ← r.required "subroutines" (readOffsets? depth)
             interface := ← r.required "module" (Interface.read? depth) }

/-- The unit a value holds, at any depth of nesting. -/
def ofJson? (j : Json) : Option CompiledUnit := read? j.depth j

end CompiledUnit

end StackScript
