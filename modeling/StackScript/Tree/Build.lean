import StackScript.Tree.Basic

/-!
# Building trees by hand

Short forms for trees without places.  `for (1, 2, 3) -> $x { say $x }` is

    forEach "$x" (list [int 1, int 2, int 3]) [expr (call "say" [var "$x"])]
-/

namespace StackScript.Build

/-- An integer. -/
def int (value : Int64) : Expr := .integer value {}

/-- A float. -/
def float (value : Double) : Expr := .float value {}

/-- A text. -/
def str (value : String) : Expr := .str value {}

/-- A truth value. -/
def bool (value : Bool) : Expr := .bool value {}

/-- `undef`. -/
def undefined : Expr := .undefined {}

/-- A variable. -/
def var (name : String) : Expr := .var name {}

/-- `my type name`. -/
def myTyped (name : String) (type : ValueType) : Expr := .declare name type {}

/-- `my name`. -/
def my (name : String) : Expr := myTyped name .unknown

/-- `type pattern`. -/
def typed (type : ValueType) (pattern : Expr) : Expr := .typed type pattern {}

/-- `(items)`. -/
def list (items : List Expr) : Expr := .list items {}

/-- `left op right`. -/
def binary (op : BinaryOp) (left right : Expr) : Expr := .binary op left right {}

/-- `op operand`. -/
def unary (op : UnaryOp) (operand : Expr) : Expr := .unary op operand {}

/-- `target = value`. -/
def assign (target value : Expr) : Expr := .assign target value {}

/-- `target[position]`. -/
def index (target position : Expr) : Expr := .index target position {}

/-- `name(args)`. -/
def call (name : String) (args : List Expr) : Expr := .call name args {}

/-! ### Parameters and subroutines -/

/-- A plain parameter. -/
def param (name : String) : Param := { pattern := var name }

/-- A typed parameter. -/
def typedParam (type : ValueType) (name : String) : Param := { pattern := typed type (var name) }

/-- A subroutine that declares no return type and no traits. -/
def subHead (name : String) (params : List Param) : SubHead := { name, params }

/-! ### Statements -/

/-- An expression as a statement. -/
def expr (e : Expr) : Stmt := .expr e

/-- A bare block. -/
def block (body : List Stmt) : Stmt := .block body

/-- `sub name(params)`, with no return type and no traits. -/
def sub (name : String) (params : List Param) (body : List Stmt) : Stmt :=
  .sub (subHead name params) body

/-- `return`, with a value or without. -/
def ret (value : Option Expr) : Stmt := .ret value {}

/-- `if`, with its `elsif` branches and its `else`. -/
def ifElse (condition : Expr) (body : List Stmt) (elsifs : List (Expr × List Stmt))
    (otherwise : Option (List Stmt)) : Stmt :=
  .cond condition body elsifs otherwise

/-- `while (condition)`. -/
def whileLoop (condition : Expr) (body : List Stmt) : Stmt := .whileLoop condition body

/-- `for my name (iterable)`. -/
def forEach (name : String) (iterable : Expr) (body : List Stmt) : Stmt :=
  .forEach name iterable body

/-- `loop (init; condition; step)`. -/
def loop (init condition step : Option Expr) (body : List Stmt) : Stmt :=
  .loop init condition step body

/-- `use name`. -/
def use (name : String) : Stmt := .use name

/-- `package name`, with a body. -/
def package (name : String) (body : List Stmt) : Stmt := .package .package name body

/-- `module name`, with a body. -/
def module (name : String) (body : List Stmt) : Stmt := .package .module name body

end StackScript.Build

namespace StackScript.SubHead

/-- The subroutine with a declared return type. -/
def returns (type : ValueType) (h : SubHead) : SubHead := { h with returnType := type }

/-- The subroutine with one more trait. -/
def withTrait (name : String) (h : SubHead) : SubHead := { h with traits := h.traits ++ [name] }

/-- The subroutine declared at another place. -/
def withSpan (span : Span) (h : SubHead) : SubHead := { h with span }

end StackScript.SubHead
