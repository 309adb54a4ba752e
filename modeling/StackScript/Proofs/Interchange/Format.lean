import StackScript.Json.Value

/-!
# The interchange format

What the JSON of programs, compiled units and linked programs looks like, said of JSON values alone.  A
record is an object that has each of its fields, in their order, and no others.

* `Shape`: what a value may look like.
* `Fits`: it does look like that.
* `Shape.program`, `Shape.unit`, `Shape.linkedProgram`: the shapes of the three.
-/

namespace StackScript

/-- The parts of the format that may contain themselves. -/
inductive FormatPart where
  | type
  | expr
  | stmt

/-- What a document may look like. -/
inductive Shape where
  | bool
  | integer (least greatest : Int)
  /-- An integer that is not negative. -/
  | natural
  | number
  | text
  /-- A value or `null`. -/
  | optional (shape : Shape)
  | list (shape : Shape)
  | pair (first second : Shape)
  /-- An object with any names. -/
  | map (shape : Shape)
  | record (fields : List (String × Shape))
  /-- The names of the cases without content, and the shapes of the others' contents. -/
  | cases (bare : List String) (content : List (String × Shape))
  | part (part : FormatPart)

namespace Shape

/-! ### Trees -/

/-- An integer of 8 bits without a sign. -/
def uint8 : Shape := .integer 0 255

/-- An integer of 16 bits without a sign. -/
def uint16 : Shape := .integer 0 65535

/-- An integer of 32 bits without a sign. -/
def uint32 : Shape := .integer 0 4294967295

/-- An integer of 64 bits with a sign. -/
def int64 : Shape := .integer (-9223372036854775808) 9223372036854775807

/-- A place in the source. -/
def span : Shape := .record [("line", uint32), ("column", uint32)]

/-- An operator between two operands. -/
def binaryOp : Shape :=
  .cases ["Add", "Subtract", "Multiply", "Divide", "Modulo", "Concat", "Equal", "NotEqual", "LessThan",
    "LessThanEqual", "GreaterThan", "GreaterThanEqual"] []

/-- An operator before an operand. -/
def unaryOp : Shape := .cases ["Minus", "Not"] []

/-- What an expression is, apart from its place. -/
def exprKind : Shape :=
  .cases ["Undef"]
    [("Integer", int64), ("Float", .number), ("Str", .text), ("Bool", .bool), ("Variable", .text),
      ("Declare", .record [("name", .text), ("ty", .part .type)]),
      ("OfType", .record [("ty", .part .type), ("expr", .part .expr)]),
      ("List", .list (.part .expr)),
      ("Binary", .record [("op", binaryOp), ("left", .part .expr), ("right", .part .expr)]),
      ("Unary", .record [("op", unaryOp), ("operand", .part .expr)]),
      ("Assign", .record [("target", .part .expr), ("value", .part .expr)]),
      ("Index", .record [("target", .part .expr), ("index", .part .expr)]),
      ("Call", .record [("name", .text), ("args", .list (.part .expr))])]

/-- A parameter of a subroutine. -/
def param : Shape := .record [("pattern", .part .expr), ("copy", .bool)]

/-- A body in braces. -/
def block : Shape := .record [("statements", .list (.part .stmt))]

/-- An `elsif`. -/
def branch : Shape := .record [("condition", .part .expr), ("body", block)]

/-- The content of a package or a module. -/
def namespaceBody : Shape := .record [("name", .text), ("body", block)]

/-- A syntax tree. -/
def program : Shape := .record [("body", .list (.part .stmt))]

/-! ### Code -/

/-- The operation of an instruction. -/
def opcode : Shape :=
  .cases ["LoadConst", "PushInt", "LoadUndef", "LoadTrue", "LoadFalse", "Pop", "Dup", "DupN", "Copy", "Add",
    "Sub", "Mul", "Div", "Mod", "Concat", "Neg", "Eq", "Ne", "Lt", "Le", "Gt", "Ge", "Not", "LoadLocal",
    "StoreLocal", "Jump", "JumpIfFalse", "JumpIfGreaterOrEqual", "Call", "CallBuiltin", "Return", "PushFrame",
    "ToCompatible", "MakeArgArray", "BoxArray", "ArrayGet", "Checkpoint", "Halt"] []

/-- A builtin. -/
def builtin : Shape :=
  .cases ["Print", "Say", "Elems", "Push", "Pop", "Shift", "Substr", "Length"] []

/-- What a call goes to, before and after it is resolved. -/
def callTarget : Shape := .cases ["Unresolved"] [("Label", uint32), ("Address", .natural)]

/-- The operand of an instruction. -/
def operand : Shape :=
  .cases []
    [("Constant", uint16), ("Int", int64), ("Local", uint16), ("Count", uint16), ("Label", uint32),
      ("Jump", .natural), ("Call", .record [("target", callTarget), ("argc", uint8)]),
      ("Builtin", .record [("builtin", builtin), ("argc", uint8)]),
      ("Frame", .record [("params", uint16), ("locals", uint16)]), ("Type", .part .type)]

/-- An instruction, with an operand or without. -/
def instruction : Shape := .record [("opcode", opcode), ("operand", .optional operand)]

/-- An entry of the constant pool. -/
def constant : Shape := .cases [] [("Num", .number), ("Str", .text)]

/-- A chunk of code with its pool. -/
def chunk : Shape := .record [("instructions", .list instruction), ("constants", .list constant)]

/-! ### Units -/

/-- A subroutine that a unit offers to others. -/
def exported : Shape := .record [("name", .text), ("position", .natural)]

/-- What a unit needs of others and offers to them. -/
def interface : Shape :=
  .record [("dependencies", .list .text), ("exports", .list exported), ("modules", .list .text)]

/-- A call that waits to be resolved. -/
def callSite : Shape :=
  .record [("name", .text), ("span", span), ("position", .natural), ("resolved", .bool)]

/-- A compiled unit. -/
def unit : Shape :=
  .record [("name", .text), ("bytecode", chunk), ("uses", .list callSite), ("subroutines", .map .natural),
    ("module", interface)]

/-- A linked program. -/
def linkedProgram : Shape :=
  .record [("bytecode", chunk), ("units", .list (.pair .text .natural)), ("exports", .map .natural)]

end Shape

/-- What the part looks like. -/
def FormatPart.shape : FormatPart → Shape
  | .type => .cases ["None", "Any", "Int", "Num", "Str", "Bool", "Hash"] [("Array", .part .type)]
  | .expr => .record [("kind", .exprKind), ("span", .span)]
  | .stmt =>
    .cases []
      [("Expression", .record [("expression", .part .expr)]), ("Block", .block),
        ("Sub", .record [("name", .text), ("params", .list .param), ("return_type", .part .type),
          ("traits", .list .text), ("body", .block), ("span", .span)]),
        ("Return", .record [("value", .optional (.part .expr)), ("span", .span)]),
        ("If", .record [("main", .branch), ("elsifs", .list .branch), ("otherwise", .optional .block)]),
        ("While", .branch),
        ("For", .record [("variable", .text), ("iterable", .part .expr), ("body", .block)]),
        ("Loop", .record [("init", .optional (.part .expr)), ("condition", .optional (.part .expr)),
          ("step", .optional (.part .expr)), ("body", .block)]),
        ("Use", .record [("module", .text)]), ("Package", .namespaceBody), ("Module", .namespaceBody)]

mutual

/-- The value has the shape.  JSON has no numbers that are not finite. -/
inductive Fits : Shape → Json → Prop where
  | bool {b : Bool} : Fits .bool (.bool b)
  | integer {least greatest n : Int} : least ≤ n → n ≤ greatest → Fits (.integer least greatest) (.int n)
  | natural {n : Nat} : Fits .natural (.int n)
  | number {x : Double} : x.isFinite = true → Fits .number (.float x)
  | text {s : String} : Fits .text (.str s)
  | null {s : Shape} : Fits (.optional s) .null
  | present {s : Shape} {j : Json} : Fits s j → Fits (.optional s) j
  | list {s : Shape} {items : List Json} : (∀ j ∈ items, Fits s j) → Fits (.list s) (.arr items)
  | pair {s t : Shape} {i j : Json} : Fits s i → Fits t j → Fits (.pair s t) (.arr [i, j])
  | map {s : Shape} {fields : List (String × Json)} : (fields.map Prod.fst).Nodup →
      (∀ f ∈ fields, Fits s f.2) → Fits (.map s) (.obj fields)
  | record {shapes : List (String × Shape)} {fields : List (String × Json)} :
      FitsFields shapes fields → Fits (.record shapes) (.obj fields)
  | bare {bare : List String} {content : List (String × Shape)} {tag : String} : tag ∈ bare →
      Fits (.cases bare content) (.str tag)
  | content {bare : List String} {content : List (String × Shape)} {tag : String} {s : Shape} {j : Json} :
      content.lookup tag = some s → Fits s j → Fits (.cases bare content) (.obj [(tag, j)])
  | part {p : FormatPart} {j : Json} : Fits p.shape j → Fits (.part p) j

/-- The fields are those of the shape, in their order. -/
inductive FitsFields : List (String × Shape) → List (String × Json) → Prop where
  | nil : FitsFields [] []
  | cons {name : String} {s : Shape} {j : Json} {shapes : List (String × Shape)}
      {fields : List (String × Json)} : Fits s j → FitsFields shapes fields →
      FitsFields ((name, s) :: shapes) ((name, j) :: fields)

end

end StackScript
