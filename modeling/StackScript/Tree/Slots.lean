import StackScript.Tree.Basic
import Std.Data.ExtTreeSet

/-!
# Slots a body needs

What can be told of a subroutine's body before it is lowered: how many slots its variables take
(`slotsNeeded`), and whether it reads the argument list (`mentionsArgList`).

The count follows the scopes that lowering opens.  A scope takes one slot for each name it declares
and the slots of the scopes inside it.  Blocks, branches, the bodies of counted loops and of
packages are scopes of their own; the condition of a `while` belongs to its body's scope; a `for`
takes two hidden slots besides.  The subroutines inside a body reserve their own slots.
-/

namespace StackScript

/-- The slots that one scope takes. -/
structure SlotDemand where
  /-- The names it declares. -/
  names : Std.ExtTreeSet String := ∅
  /-- The slots of the scopes inside it. -/
  inner : Nat := 0

namespace SlotDemand

/-- All the slots: one for each name, and those of the scopes inside. -/
def total (d : SlotDemand) : Nat := d.names.size + d.inner

/-- The demand with one more name; a name declared before takes no more. -/
def declare (d : SlotDemand) (name : String) : SlotDemand := { d with names := d.names.insert name }

/-- The demand with a scope inside. -/
def nest (d : SlotDemand) (slots : Nat) : SlotDemand := { d with inner := d.inner + slots }

mutual

/-- The demand with the names that an expression declares. -/
def expr (d : SlotDemand) : Expr → SlotDemand
  | .declare name _ _ => d.declare name
  | .typed _ pattern _ => d.expr pattern
  | .list items _ => d.exprs items
  | .binary _ left right _ => (d.expr left).expr right
  | .unary _ operand _ => d.expr operand
  | .assign target value _ => (d.expr target).expr value
  | .index target position _ => (d.expr target).expr position
  | .call _ args _ => d.exprs args
  | .integer _ _ | .float _ _ | .str _ _ | .bool _ _ | .undefined _ | .var _ _ => d

/-- The demand with the names that a list of expressions declares, in order. -/
def exprs (d : SlotDemand) : List Expr → SlotDemand
  | [] => d
  | e :: rest => (d.expr e).exprs rest

end

/-- The demand with the names of an expression that may be left out. -/
def optExpr (d : SlotDemand) : Option Expr → SlotDemand
  | none => d
  | some e => d.expr e

mutual

/-- The demand with a statement: the names it declares in the scope itself, and the scopes it opens. -/
def stmt (d : SlotDemand) : Stmt → SlotDemand
  | .expr e => d.expr e
  | .block body => d.nest (stmts {} body).total
  | .sub _ _ | .use _ => d
  | .ret value _ => d.optExpr value
  | .cond condition body elsifs otherwise =>
    let d := ((d.expr condition).nest (stmts {} body).total).branches elsifs
    match otherwise with
    | none => d
    | some body => d.nest (stmts {} body).total
  | .whileLoop condition body => d.nest ((({} : SlotDemand).expr condition).stmts body).total
  | .forEach _ iterable body => (d.expr iterable).nest ((stmts {} body).total + 2)
  | .loop init condition step body =>
    let header := ((({} : SlotDemand).optExpr init).optExpr condition).optExpr step
    d.nest (header.nest (stmts {} body).total).total
  | .package _ _ body => d.nest (stmts {} body).total

/-- The demand with a list of statements, in order. -/
def stmts (d : SlotDemand) : List Stmt → SlotDemand
  | [] => d
  | s :: rest => (d.stmt s).stmts rest

/-- The demand with the branches of a conditional, each condition in the scope and each body in one of its
own. -/
def branches (d : SlotDemand) : List (Expr × List Stmt) → SlotDemand
  | [] => d
  | (condition, body) :: rest =>
    ((d.expr condition).nest (stmts {} body).total).branches rest

end

end SlotDemand

/-- The number of slots a body needs beyond its arguments. -/
def slotsNeeded (body : List Stmt) : Nat := (SlotDemand.stmts {} body).total

/-! ### The argument list -/

/-- The variable that holds all arguments of a call. -/
def argList : String := "@_"

namespace Expr

mutual

/-- Whether an expression reads the argument list. -/
def mentionsArgList : Expr → Bool
  | .var name _ => name == argList
  | .typed _ pattern _ => pattern.mentionsArgList
  | .list items _ => anyMentionsArgList items
  | .binary _ left right _ => left.mentionsArgList || right.mentionsArgList
  | .unary _ operand _ => operand.mentionsArgList
  | .assign target value _ => target.mentionsArgList || value.mentionsArgList
  | .index target position _ => target.mentionsArgList || position.mentionsArgList
  | .call _ args _ => anyMentionsArgList args
  | .integer _ _ | .float _ _ | .str _ _ | .bool _ _ | .undefined _ | .declare _ _ _ => false

/-- Whether one of the expressions reads the argument list. -/
def anyMentionsArgList : List Expr → Bool
  | [] => false
  | e :: rest => e.mentionsArgList || anyMentionsArgList rest

end

end Expr

namespace Stmt

mutual

/-- Whether a statement reads the argument list, subroutines inside it left out. -/
def mentionsArgList : Stmt → Bool
  | .expr e => e.mentionsArgList
  | .block body => anyMentionsArgList body
  | .sub _ _ | .use _ => false
  | .ret value _ => value.any Expr.mentionsArgList
  | .cond condition body elsifs otherwise =>
    condition.mentionsArgList || anyMentionsArgList body || branchMentionsArgList elsifs ||
      match otherwise with
      | none => false
      | some body => anyMentionsArgList body
  | .whileLoop condition body => condition.mentionsArgList || anyMentionsArgList body
  | .forEach _ iterable body => iterable.mentionsArgList || anyMentionsArgList body
  | .loop init condition step body =>
    init.any Expr.mentionsArgList || condition.any Expr.mentionsArgList ||
      step.any Expr.mentionsArgList || anyMentionsArgList body
  | .package _ _ body => anyMentionsArgList body

/-- Whether one of the statements reads the argument list. -/
def anyMentionsArgList : List Stmt → Bool
  | [] => false
  | s :: rest => s.mentionsArgList || anyMentionsArgList rest

/-- Whether one of the branches reads the argument list, in its condition or in its body. -/
def branchMentionsArgList : List (Expr × List Stmt) → Bool
  | [] => false
  | (condition, body) :: rest =>
    condition.mentionsArgList || anyMentionsArgList body || branchMentionsArgList rest

end

end Stmt

/-- Whether a body reads the argument list. -/
def mentionsArgList (body : List Stmt) : Bool := Stmt.anyMentionsArgList body

end StackScript
