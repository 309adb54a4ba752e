import StackScript.Lowering.Session

/-!
# Static types of expressions

`Session.typeOf` deduces the type of an expression as far as the open scopes and the known
subroutines tell it.  `Lower.enforce` holds a value just computed to a declared type.
-/

namespace StackScript

/-- The type that a variable's sigil implies. -/
def sigilType (name : String) : ValueType :=
  match name.toList with
  | '@' :: _ => .array .unknown
  | '%' :: _ => .hash
  | _ => .unknown

/-- The type of a sum, difference, product or remainder. -/
def arithmeticType : ValueType → ValueType → ValueType
  | .int, .int => .int
  | .int, .num | .num, .int | .num, .num => .num
  | _, _ => .unknown

namespace Session

/-- The type of a variable: the one it was bound with, or else what its sigil implies. -/
def variableType (s : Session) (name : String) : ValueType :=
  match s.scopes.resolve? name with
  | some b => if b.type.isUnknown then sigilType name else b.type
  | none => sigilType name

/-- The type of a call's result. -/
def callType (s : Session) (name : String) : ValueType :=
  match Builtin.ofName? name with
  | some b => b.resultType
  | none =>
    match s.packages.resolveSub? s.package name with
    | some (_, sub) => sub.returnType
    | none => .unknown

/-- The type of an expression, as far as it can be told. -/
def typeOf (s : Session) : Expr → ValueType
  | .integer _ _ => .int
  | .float _ _ => .num
  | .str _ _ => .str
  | .bool _ _ => .bool
  | .undefined _ => .unknown
  | .var name _ => s.variableType name
  | .declare name type _ => if type.isUnknown then sigilType name else type
  | .typed type _ _ => type
  | .list _ _ => .array .unknown
  | .binary op left right _ =>
    if op.isComparison then .bool
    else
      match op with
      | .concat => .str
      | .divide => .num
      | _ => arithmeticType (s.typeOf left) (s.typeOf right)
  | .unary .not _ _ => .bool
  | .unary .minus operand _ =>
    match s.typeOf operand with
    | .int => .int
    | .num => .num
    | _ => .unknown
  | .assign target value _ =>
    match s.typeOf target with
    | .unknown => s.typeOf value
    | type => type
  | .index target _ _ =>
    match s.typeOf target with
    | .array element => element
    | _ => .unknown
  | .call name _ _ => s.callType name

end Session

namespace Lower

/-- Holds the value on top of the stack, that of `e`, to the type `expected`: emits a conversion if
it needs one, and reports a mismatch if it does not fit.  Yields whether it fits. -/
def enforce (e : Expr) (expected : ValueType) (role : Role) : Lower Bool := do
  if expected.isUnknown then return true
  let actual ← Step.view (·.typeOf e)
  match actual.fit expected with
  | .identical => return true
  | .castable =>
    emit (.toCompatible expected)
    return true
  | .incompatible =>
    report (.mismatch role actual expected) e.span
    return false

end Lower

end StackScript
