import StackScript.Double.Basic
import StackScript.ValueType

/-!
# Syntax trees

The tree of a script as a front end hands it over: expressions, statements, and the program they
make up.  Every expression carries the place it was written at; a variable's name includes its
sigil.
-/

namespace StackScript

/-- A place in a source text. -/
structure Span where
  line : UInt32 := 0
  column : UInt32 := 0
  deriving DecidableEq, Repr, Inhabited

/-- The operators between two operands. -/
inductive BinaryOp where
  | add
  | subtract
  | multiply
  | divide
  | modulo
  | concat
  | equal
  | notEqual
  | less
  | lessEqual
  | greater
  | greaterEqual
  deriving DecidableEq, Repr, Inhabited

/-- Whether an operator yields a truth value. -/
def BinaryOp.isComparison : BinaryOp → Bool
  | .equal | .notEqual | .less | .lessEqual | .greater | .greaterEqual => true
  | .add | .subtract | .multiply | .divide | .modulo | .concat => false

/-- The operators before an operand. -/
inductive UnaryOp where
  | minus
  | not
  deriving DecidableEq, Repr, Inhabited

/-- Expressions, each with its place. -/
inductive Expr where
  | integer (value : Int64) (span : Span)
  | float (value : Double) (span : Span)
  | str (value : String) (span : Span)
  | bool (value : Bool) (span : Span)
  | undefined (span : Span)
  | var (name : String) (span : Span)
  /-- `my type name`. -/
  | declare (name : String) (type : ValueType) (span : Span)
  /-- `type pattern`, which only a parameter may be. -/
  | typed (type : ValueType) (pattern : Expr) (span : Span)
  | list (items : List Expr) (span : Span)
  | binary (op : BinaryOp) (left right : Expr) (span : Span)
  | unary (op : UnaryOp) (operand : Expr) (span : Span)
  | assign (target value : Expr) (span : Span)
  | index (target index : Expr) (span : Span)
  | call (name : String) (args : List Expr) (span : Span)
  deriving Inhabited

namespace Expr

/-- The place of an expression. -/
def span : Expr → Span
  | .integer _ s | .float _ s | .str _ s | .bool _ s | .undefined s | .var _ s | .declare _ _ s
  | .typed _ _ s | .list _ s | .binary _ _ _ s | .unary _ _ s | .assign _ _ s | .index _ _ s
  | .call _ _ s => s

/-- The expression moved to another place; its parts stay where they are. -/
def withSpan (s : Span) : Expr → Expr
  | .integer v _ => .integer v s
  | .float v _ => .float v s
  | .str v _ => .str v s
  | .bool v _ => .bool v s
  | .undefined _ => .undefined s
  | .var n _ => .var n s
  | .declare n t _ => .declare n t s
  | .typed t p _ => .typed t p s
  | .list es _ => .list es s
  | .binary op l r _ => .binary op l r s
  | .unary op e _ => .unary op e s
  | .assign t v _ => .assign t v s
  | .index t i _ => .index t i s
  | .call n es _ => .call n es s

end Expr

/-- A parameter as written: a variable or a typed one. -/
structure Param where
  pattern : Expr
  /-- The caller's value is copied before it is bound. -/
  copy : Bool := false
  deriving Inhabited

/-- A subroutine declaration but for its body. -/
structure SubHead where
  name : String
  params : List Param
  returnType : ValueType := .unknown
  traits : List String := []
  span : Span := {}
  deriving Inhabited

/-- Whether a namespace may export its subroutines. -/
inductive PackageKind where
  | package
  | module
  deriving DecidableEq, Repr, Inhabited

/-- Statements. -/
inductive Stmt where
  | expr (e : Expr)
  | block (body : List Stmt)
  | sub (head : SubHead) (body : List Stmt)
  | ret (value : Option Expr) (span : Span)
  /-- `if`, any number of `elsif`s, and an `else` that may be missing. -/
  | cond (condition : Expr) (body : List Stmt) (elsifs : List (Expr × List Stmt))
      (otherwise : Option (List Stmt))
  | whileLoop (condition : Expr) (body : List Stmt)
  /-- `for iterable -> name { body }`. -/
  | forEach (name : String) (iterable : Expr) (body : List Stmt)
  /-- `loop (init; condition; step) { body }`. -/
  | loop (init condition step : Option Expr) (body : List Stmt)
  | use (name : String)
  | package (kind : PackageKind) (name : String) (body : List Stmt)
  deriving Inhabited

/-- A program: the statements of its top level. -/
structure Program where
  body : List Stmt
  deriving Inhabited

end StackScript
