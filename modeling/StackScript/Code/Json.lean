import StackScript.Code.Listing
import StackScript.Json.Record
import StackScript.ValueType.Json

/-!
# Code in JSON
-/

namespace StackScript

namespace Opcode

/-- Opcodes are written by name. -/
def toJson (op : Opcode) : Json := .str op.name

/-- Reads the name of an opcode. -/
def read? : (depth : Nat) → Json → Option Opcode :=
  Json.oneOf? (all.map fun op => (op.name, op))

end Opcode

namespace Builtin

/-- The name of a builtin as an operand. -/
def tag : Builtin → String
  | .print => "Print"
  | .say => "Say"
  | .elems => "Elems"
  | .push => "Push"
  | .pop => "Pop"
  | .shift => "Shift"
  | .substr => "Substr"
  | .length => "Length"

/-- Builtins are written by their tags. -/
def toJson (b : Builtin) : Json := .str b.tag

/-- Reads the tag of a builtin. -/
def read? : (depth : Nat) → Json → Option Builtin :=
  Json.oneOf? (all.map fun b => (b.tag, b))

end Builtin

namespace Label

/-- Labels are written as their numbers. -/
def toJson (l : Label) : Json := .ofNat l.id.toNat

/-- Reads the number of a label. -/
def ofJson? (j : Json) : Option Label := j.toUInt32?.map Label.mk

end Label

namespace CallTarget

/-- The target of a call under a tag that says how far it is known. -/
def toJson : CallTarget → Json
  | .label l => .tagged "Label" l.toJson
  | .address offset => .tagged "Address" (.ofNat offset)
  | .unresolved => .str "Unresolved"

/-- Reads the target of a call. -/
def read? : (depth : Nat) → Json → Option CallTarget
  | _ + 1, .obj [("Label", j)] => (Label.ofJson? j).map .label
  | _ + 1, .obj [("Address", j)] => j.toNat?.map .address
  | depth, j => Json.oneOf? [("Unresolved", .unresolved)] depth j

end CallTarget

namespace Operand

/-- An operand under the tag of its kind. -/
def toJson : Operand → Json
  | .constant index => .tagged "Constant" (.ofNat index.toNat)
  | .int value => .tagged "Int" (.int value.toInt)
  | .slot s => .tagged "Local" (.ofNat s.toNat)
  | .count n => .tagged "Count" (.ofNat n.toNat)
  | .label l => .tagged "Label" l.toJson
  | .offset o => .tagged "Jump" (.ofNat o)
  | .call target argc =>
    .tagged "Call" (.obj [("target", target.toJson), ("argc", .ofNat argc.toNat)])
  | .builtin b argc =>
    .tagged "Builtin" (.obj [("builtin", b.toJson), ("argc", .ofNat argc.toNat)])
  | .frame params locals =>
    .tagged "Frame" (.obj [("params", .ofNat params.toNat), ("locals", .ofNat locals.toNat)])
  | .type t => .tagged "Type" t.toJson

/-- The content of the operand called `tag`. -/
def readContent? : (depth : Nat) → (tag : String) → Json → Option Operand
  | _, "Constant", j => j.toUInt16?.map .constant
  | _, "Int", j => j.toInt64?.map .int
  | _, "Local", j => j.toUInt16?.map .slot
  | _, "Count", j => j.toUInt16?.map .count
  | _, "Label", j => (Label.ofJson? j).map .label
  | _, "Jump", j => j.toNat?.map .offset
  | depth + 1, "Call", j => do
    let r ← j.record? ["target", "argc"]
    return .call (← r.required "target" (CallTarget.read? depth)) (← r.required "argc" Json.toUInt8?)
  | depth + 1, "Builtin", j => do
    let r ← j.record? ["builtin", "argc"]
    return .builtin (← r.required "builtin" (Builtin.read? depth)) (← r.required "argc" Json.toUInt8?)
  | _ + 1, "Frame", j => do
    let r ← j.record? ["params", "locals"]
    return .frame (← r.required "params" Json.toUInt16?) (← r.required "locals" Json.toUInt16?)
  | depth, "Type", j => (ValueType.read? depth j).map .type
  | _, _, _ => none

/-- Reads an operand: a tag and what belongs to it. -/
def read? : (depth : Nat) → Json → Option Operand
  | depth + 1, .obj [(tag, content)] => readContent? depth tag content
  | _, _ => none

end Operand

namespace Instruction

/-- An instruction as a record of its opcode and its operand, which is null if there is none. -/
def toJson (i : Instruction) : Json :=
  .obj [("opcode", i.opcode.toJson), ("operand", .ofOption Operand.toJson i.operand)]

/-- Reads an instruction. -/
def read? : (depth : Nat) → Json → Option Instruction
  | 0, _ => none
  | depth + 1, j => do
    let r ← j.record? ["opcode", "operand"]
    return { opcode := ← r.required "opcode" (Opcode.read? depth)
             operand := ← r.nullable "operand" (Operand.read? depth) }

/-- Reads an instruction of any depth. -/
def ofJson? (j : Json) : Option Instruction := read? j.depth j

end Instruction

namespace Constant

/-- A constant under the tag of its type. -/
def toJson : Constant → Json
  | .num x => .tagged "Num" (.float x)
  | .str s => .tagged "Str" (.str s)

/-- Reads a constant. -/
def read? : (depth : Nat) → Json → Option Constant
  | _ + 1, .obj [("Num", j)] => j.toDouble?.map .num
  | _ + 1, .obj [("Str", j)] => j.toStr?.map .str
  | _, _ => none

end Constant

namespace Chunk

/-- A chunk as a record of its code and its pool. -/
def toJson (c : Chunk) : Json :=
  .obj [("instructions", .ofList Instruction.toJson c.instructions.toList),
    ("constants", .ofList Constant.toJson c.constants.toList)]

/-- Reads a chunk. -/
def read? : (depth : Nat) → Json → Option Chunk
  | 0, _ => none
  | depth + 1, j => do
    let r ← j.record? ["instructions", "constants"]
    let instructions ← r.required "instructions" (Json.listOf? Instruction.read? depth)
    let constants ← r.required "constants" (Json.listOf? Constant.read? depth)
    return { instructions := instructions.toArray, constants := constants.toArray }

/-- Reads a chunk of any depth. -/
def ofJson? (j : Json) : Option Chunk := read? j.depth j

end Chunk

end StackScript
