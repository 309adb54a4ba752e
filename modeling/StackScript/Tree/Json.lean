import StackScript.Tree.Basic
import StackScript.ValueType.Json

/-!
# Syntax trees in JSON

Every node writes all its fields.  A reader takes the number of arrays and objects it may still
open; `Program.ofJson?` sets no limit beyond the nesting of the value itself.
-/

namespace StackScript

/-! ### Leaves -/

namespace Span

/-- A place as an object of its line and its column. -/
def toJson (s : Span) : Json :=
  .obj [("line", .ofNat s.line.toNat), ("column", .ofNat s.column.toNat)]

/-- Reads a place. -/
def read? : (depth : Nat) → Json → Option Span
  | 0, _ => none
  | _ + 1, j => do
    let r ← j.record? ["line", "column"]
    return { line := ← r.required "line" Json.toUInt32?
             column := ← r.required "column" Json.toUInt32? }

end Span

namespace BinaryOp

/-- The name under which an operator is written. -/
def name : BinaryOp → String
  | .add => "Add"
  | .subtract => "Subtract"
  | .multiply => "Multiply"
  | .divide => "Divide"
  | .modulo => "Modulo"
  | .concat => "Concat"
  | .equal => "Equal"
  | .notEqual => "NotEqual"
  | .less => "LessThan"
  | .lessEqual => "LessThanEqual"
  | .greater => "GreaterThan"
  | .greaterEqual => "GreaterThanEqual"

/-- All operators between two operands, in the order of their declaration. -/
def all : List BinaryOp :=
  [.add, .subtract, .multiply, .divide, .modulo, .concat, .equal, .notEqual, .less, .lessEqual,
    .greater, .greaterEqual]

/-- An operator as its name. -/
def toJson (op : BinaryOp) : Json := .str op.name

/-- Reads an operator off its name. -/
def read? : (depth : Nat) → Json → Option BinaryOp :=
  Json.oneOf? (all.map fun op => (op.name, op))

end BinaryOp

namespace UnaryOp

/-- The name under which an operator is written. -/
def name : UnaryOp → String
  | .minus => "Minus"
  | .not => "Not"

/-- All operators before an operand. -/
def all : List UnaryOp := [.minus, .not]

/-- An operator as its name. -/
def toJson (op : UnaryOp) : Json := .str op.name

/-- Reads an operator off its name. -/
def read? : (depth : Nat) → Json → Option UnaryOp :=
  Json.oneOf? (all.map fun op => (op.name, op))

end UnaryOp

/-! ### Expressions -/

namespace Expr

/-- An expression of the given kind at the given place. -/
def node (span : Span) (kind : Json) : Json := .obj [("kind", kind), ("span", span.toJson)]

mutual

/-- An expression as an object of its kind and its place. -/
def toJson : Expr → Json
  | .integer v s => node s (.tagged "Integer" (.int v.toInt))
  | .float v s => node s (.tagged "Float" (.float v))
  | .str v s => node s (.tagged "Str" (.str v))
  | .bool v s => node s (.tagged "Bool" (.bool v))
  | .undefined s => node s (.str "Undef")
  | .var n s => node s (.tagged "Variable" (.str n))
  | .declare n t s => node s (.tagged "Declare" (.obj [("name", .str n), ("ty", t.toJson)]))
  | .typed t p s => node s (.tagged "OfType" (.obj [("ty", t.toJson), ("expr", p.toJson)]))
  | .list es s => node s (.tagged "List" (.arr (listToJson es)))
  | .binary op l r s =>
    node s (.tagged "Binary"
      (.obj [("op", op.toJson), ("left", l.toJson), ("right", r.toJson)]))
  | .unary op e s => node s (.tagged "Unary" (.obj [("op", op.toJson), ("operand", e.toJson)]))
  | .assign t v s => node s (.tagged "Assign" (.obj [("target", t.toJson), ("value", v.toJson)]))
  | .index t i s => node s (.tagged "Index" (.obj [("target", t.toJson), ("index", i.toJson)]))
  | .call n es s =>
    node s (.tagged "Call" (.obj [("name", .str n), ("args", .arr (listToJson es))]))

/-- Each expression of a list, written. -/
def listToJson : List Expr → List Json
  | [] => []
  | e :: rest => e.toJson :: listToJson rest

end

mutual

/-- Reads an expression; every level of it takes one off the depth. -/
def read? : (depth : Nat) → Json → Option Expr
  | 0, _ => none
  | depth + 1, j => do
    let r ← j.record? ["kind", "span"]
    let span ← r.withDefault "span" {} (Span.read? depth)
    r.required "kind" (readKind? depth span)

/-- What kind of expression stands at `span`. -/
def readKind? : (depth : Nat) → Span → Json → Option Expr
  | depth + 1, span, .obj [(tag, content)] => readContent? depth span tag content
  | _, span, .str "Undef" => some (.undefined span)
  | _, _, _ => none

/-- The content of a kind. -/
def readContent? : (depth : Nat) → Span → String → Json → Option Expr
  | _, span, "Integer", j => j.toInt64?.map (.integer · span)
  | _, span, "Float", j => j.toDouble?.map (.float · span)
  | _, span, "Str", j => j.toStr?.map (.str · span)
  | _, span, "Bool", j => j.toBool?.map (.bool · span)
  | _, span, "Undef", .null => some (.undefined span)
  | _, span, "Variable", j => j.toStr?.map (.var · span)
  | depth + 1, span, "Declare", j => do
    let r ← j.record? ["name", "ty"]
    return .declare (← r.required "name" Json.toStr?)
      (← r.withDefault "ty" .unknown (ValueType.read? depth)) span
  | depth + 1, span, "OfType", j => do
    let r ← j.record? ["ty", "expr"]
    return .typed (← r.required "ty" (ValueType.read? depth)) (← r.required "expr" (read? depth))
      span
  | depth + 1, span, "List", .arr items => (items.mapM (read? depth)).map (.list · span)
  | depth + 1, span, "Binary", j => do
    let r ← j.record? ["op", "left", "right"]
    return .binary (← r.required "op" (BinaryOp.read? depth)) (← r.required "left" (read? depth))
      (← r.required "right" (read? depth)) span
  | depth + 1, span, "Unary", j => do
    let r ← j.record? ["op", "operand"]
    return .unary (← r.required "op" (UnaryOp.read? depth)) (← r.required "operand" (read? depth))
      span
  | depth + 1, span, "Assign", j => do
    let r ← j.record? ["target", "value"]
    return .assign (← r.required "target" (read? depth)) (← r.required "value" (read? depth)) span
  | depth + 1, span, "Index", j => do
    let r ← j.record? ["target", "index"]
    return .index (← r.required "target" (read? depth)) (← r.required "index" (read? depth)) span
  | depth + 1, span, "Call", j => do
    let r ← j.record? ["name", "args"]
    return .call (← r.required "name" Json.toStr?) (← r.required "args" (readList? depth)) span
  | _, _, _, _ => none

/-- Reads an array of expressions. -/
def readList? : (depth : Nat) → Json → Option (List Expr)
  | depth + 1, .arr items => items.mapM (read? depth)
  | _, _ => none

end

/-- The expression a value holds, at any depth of nesting. -/
def ofJson? (j : Json) : Option Expr := read? j.depth j

end Expr

/-! ### Statements -/

namespace Param

/-- A parameter as an object. -/
def toJson (p : Param) : Json := .obj [("pattern", p.pattern.toJson), ("copy", .bool p.copy)]

/-- Reads a parameter; `copy` may be left out. -/
def read? : (depth : Nat) → Json → Option Param
  | 0, _ => none
  | depth + 1, j => do
    let r ← j.record? ["pattern", "copy"]
    return { pattern := ← r.required "pattern" (Expr.read? depth)
             copy := ← r.withDefault "copy" false Json.toBool? }

end Param

namespace Stmt

/-- A body of statements. -/
def blockJson (statements : List Json) : Json := .obj [("statements", .arr statements)]

mutual

/-- A statement as an object with its kind for the only key. -/
def toJson : Stmt → Json
  | .expr e => .tagged "Expression" (.obj [("expression", e.toJson)])
  | .block body => .tagged "Block" (blockJson (listToJson body))
  | .sub head body =>
    .tagged "Sub" (.obj
      [("name", .str head.name), ("params", .ofList Param.toJson head.params),
        ("return_type", head.returnType.toJson), ("traits", .ofList .str head.traits),
        ("body", blockJson (listToJson body)), ("span", head.span.toJson)])
  | .ret value span =>
    .tagged "Return" (.obj [("value", .ofOption Expr.toJson value), ("span", span.toJson)])
  | .cond condition body elsifs otherwise =>
    .tagged "If" (.obj
      [("main", .obj [("condition", condition.toJson), ("body", blockJson (listToJson body))]),
        ("elsifs", .arr (branchesToJson elsifs)),
        ("otherwise", match otherwise with
          | none => .null
          | some body => blockJson (listToJson body))])
  | .whileLoop condition body =>
    .tagged "While"
      (.obj [("condition", condition.toJson), ("body", blockJson (listToJson body))])
  | .forEach name iterable body =>
    .tagged "For" (.obj
      [("variable", .str name), ("iterable", iterable.toJson),
        ("body", blockJson (listToJson body))])
  | .loop init condition step body =>
    .tagged "Loop" (.obj
      [("init", .ofOption Expr.toJson init), ("condition", .ofOption Expr.toJson condition),
        ("step", .ofOption Expr.toJson step), ("body", blockJson (listToJson body))])
  | .use name => .tagged "Use" (.obj [("module", .str name)])
  | .package .package name body =>
    .tagged "Package" (.obj [("name", .str name), ("body", blockJson (listToJson body))])
  | .package .module name body =>
    .tagged "Module" (.obj [("name", .str name), ("body", blockJson (listToJson body))])

/-- Each statement of a list, written. -/
def listToJson : List Stmt → List Json
  | [] => []
  | s :: rest => s.toJson :: listToJson rest

/-- Each branch of a list, written as an object of its condition and its body. -/
def branchesToJson : List (Expr × List Stmt) → List Json
  | [] => []
  | (condition, body) :: rest =>
    .obj [("condition", condition.toJson), ("body", blockJson (listToJson body))] ::
      branchesToJson rest

end

mutual

/-- Reads a statement. -/
def read? : (depth : Nat) → Json → Option Stmt
  | depth + 1, .obj [(tag, content)] => readContent? depth tag content
  | _, _ => none

/-- The content of the statement called `tag`. -/
def readContent? : (depth : Nat) → (tag : String) → Json → Option Stmt
  | 0, _, _ => none
  | depth + 1, "Expression", j => do
    let r ← j.record? ["expression"]
    return .expr (← r.required "expression" (Expr.read? depth))
  | depth + 1, "Block", j => do
    let r ← j.record? ["statements"]
    return .block (← r.required "statements" (readList? depth))
  | depth + 1, "Sub", j => do
    let r ← j.record? ["name", "params", "return_type", "traits", "body", "span"]
    return .sub
      { name := ← r.required "name" Json.toStr?
        params := ← r.required "params" (Json.listOf? Param.read? depth)
        returnType := ← r.withDefault "return_type" .unknown (ValueType.read? depth)
        traits := ← r.withDefault "traits" [] (Json.strings? depth)
        span := ← r.withDefault "span" {} (Span.read? depth) }
      (← r.required "body" (readBlock? depth))
  | depth + 1, "Return", j => do
    let r ← j.record? ["value", "span"]
    return .ret (← r.nullable "value" (Expr.read? depth))
      (← r.withDefault "span" {} (Span.read? depth))
  | depth + 1, "If", j => do
    let r ← j.record? ["main", "elsifs", "otherwise"]
    let (condition, body) ← r.required "main" (readBranch? depth)
    return .cond condition body (← r.withDefault "elsifs" [] (readBranches? depth))
      (← r.withDefault "otherwise" none (Json.orNull (readBlock? depth)))
  | depth + 1, "While", j => do
    let r ← j.record? ["condition", "body"]
    return .whileLoop (← r.required "condition" (Expr.read? depth))
      (← r.required "body" (readBlock? depth))
  | depth + 1, "For", j => do
    let r ← j.record? ["variable", "iterable", "body"]
    return .forEach (← r.required "variable" Json.toStr?)
      (← r.required "iterable" (Expr.read? depth)) (← r.required "body" (readBlock? depth))
  | depth + 1, "Loop", j => do
    let r ← j.record? ["init", "condition", "step", "body"]
    return .loop (← r.nullable "init" (Expr.read? depth))
      (← r.nullable "condition" (Expr.read? depth)) (← r.nullable "step" (Expr.read? depth))
      (← r.required "body" (readBlock? depth))
  | _ + 1, "Use", j => do
    let r ← j.record? ["module"]
    return .use (← r.required "module" Json.toStr?)
  | depth + 1, "Package", j => do
    let r ← j.record? ["name", "body"]
    return .package .package (← r.required "name" Json.toStr?)
      (← r.required "body" (readBlock? depth))
  | depth + 1, "Module", j => do
    let r ← j.record? ["name", "body"]
    return .package .module (← r.required "name" Json.toStr?)
      (← r.required "body" (readBlock? depth))
  | _ + 1, _, _ => none

/-- Reads a block. -/
def readBlock? : (depth : Nat) → Json → Option (List Stmt)
  | 0, _ => none
  | depth + 1, j => do
    let r ← j.record? ["statements"]
    r.required "statements" (readList? depth)

/-- Reads a branch. -/
def readBranch? : (depth : Nat) → Json → Option (Expr × List Stmt)
  | 0, _ => none
  | depth + 1, j => do
    let r ← j.record? ["condition", "body"]
    return (← r.required "condition" (Expr.read? depth), ← r.required "body" (readBlock? depth))

/-- Reads an array of branches. -/
def readBranches? : (depth : Nat) → Json → Option (List (Expr × List Stmt))
  | depth + 1, .arr items => items.mapM (readBranch? depth)
  | _, _ => none

/-- Reads an array of statements. -/
def readList? : (depth : Nat) → Json → Option (List Stmt)
  | depth + 1, .arr items => items.mapM (read? depth)
  | _, _ => none

end

/-- The statement a value holds, at any depth of nesting. -/
def ofJson? (j : Json) : Option Stmt := read? j.depth j

/-- The statement called `tag` with the given content, at any depth of nesting. -/
def ofContent? (tag : String) (j : Json) : Option Stmt := readContent? j.depth tag j

end Stmt

namespace Program

/-- A program as an object with its statements. -/
def toJson (p : Program) : Json := .obj [("body", .arr (Stmt.listToJson p.body))]

/-- Reads a program. -/
def read? : (depth : Nat) → Json → Option Program
  | 0, _ => none
  | depth + 1, j => do
    let r ← j.record? ["body"]
    return ⟨← r.required "body" (Stmt.readList? depth)⟩

/-- The program a value holds, at any depth of nesting. -/
def ofJson? (j : Json) : Option Program := read? j.depth j

end Program

end StackScript
