import StackScript.Lowering.Typing

/-!
# Lowering expressions

The code of an expression leaves exactly one value on the stack.  Operands are computed from left to
right, arguments from right to left, so that the callee finds them in order; where the callee reads
the argument list, the list is made from the arguments and lies on top of them.

An assignment computes its value before its target is declared, so that `my $x = $x` reads the
outer `$x`.
-/

namespace StackScript

/-- The instruction that computes a binary operator. -/
def BinaryOp.opcode : BinaryOp → Opcode
  | .add => .add
  | .subtract => .sub
  | .multiply => .mul
  | .divide => .div
  | .modulo => .mod
  | .concat => .concat
  | .equal => .eq
  | .notEqual => .ne
  | .less => .lt
  | .lessEqual => .le
  | .greater => .gt
  | .greaterEqual => .ge

/-- The instruction that computes a unary operator. -/
def UnaryOp.opcode : UnaryOp → Opcode
  | .minus => .neg
  | .not => .not

namespace Lower

/-- Adds one to a slot. -/
def emitIncrement (slot : Slot) : Lower Unit := do
  emit (.load slot)
  emit (.pushInt 1)
  emitOp .add
  emit (.store slot)

/-- A variable's value, or undef where the name means nothing. -/
def lowerVariable (name : String) (span : Span) : Lower Unit := do
  match ← resolve? name with
  | some b => emit (.load b.slot)
  | none =>
    report (.undeclaredRead name) span
    emitOp .loadUndefined

/-- A declaration stores undef and yields it. -/
def lowerDeclaration (name : String) (type : ValueType) : Lower Unit := do
  let slot ← declare name type
  emitOp .loadUndefined
  emitOp .dup
  emit (.store slot)

/-- The slot an assignment goes to and the type it is declared with; a new variable is declared
here. -/
def assignmentTarget? : Expr → Lower (Option (Slot × ValueType))
  | .var name span => do
    match ← resolve? name with
    | some b => return some (b.slot, b.type)
    | none =>
      report (.undeclaredWrite name) span
      return none
  | .declare name type _ => do
    let slot ← declare name type
    return some (slot, type)
  | target => do
    report .notAssignable target.span
    return none

/-- Stores the value on top of the stack, that of `value`, and keeps it there. -/
def storeInto (target value : Expr) : Lower Unit := do
  match ← assignmentTarget? target with
  | none => return
  | some (slot, type) =>
    if ← enforce value type .assignment then
      emitOp .dup
      emit (.store slot)

/-! ### Calls -/

/-- The number of values a call passes, if an operand can hold it. -/
def checkedArgc? (name : String) (count : Nat) (span : Span) : Lower (Option UInt8) := do
  if count < UInt8.size then return some count.toUInt8
  report (.tooManyArguments name) span
  return none

/-- `last` and `next`. -/
def lowerLoopControl (name : String) (args : List Expr) (span : Span) : Lower Unit := do
  if !args.isEmpty then
    report (.loopControlArguments name) span
  else
    match ← Step.view (·.scopes.innermostLoop?) with
    | none => report .noLoop span
    | some control =>
      if name == "last" then
        emit (.jump control.done)
      else
        match control with
        | .forEach _ _ indexSlot _ => emitIncrement indexSlot
        | _ => pure ()
        emit (.jump control.next)
      emitOp .loadUndefined

/-- `checkpoint` with the number of the mark. -/
def lowerCheckpoint (args : List Expr) (span : Span) : Lower Unit := do
  match args with
  | [.integer id _] =>
    if ← Step.view (·.options.checkpoints) then emit (.checkpoint id)
    emitOp .loadUndefined
  | _ => report .checkpointArgument span

mutual

/-- The code of an expression. -/
def lowerExpr : Expr → Lower Unit
  | .integer value _ => emit (.pushInt value)
  | .float value _ => emitConstant (.num value)
  | .str value _ => emitConstant (.str value)
  | .bool value _ => emit (.pushBool value)
  | .undefined _ => emitOp .loadUndefined
  | .var name span => lowerVariable name span
  | .declare name type _ => lowerDeclaration name type
  | .typed _ _ span => do
    report .typedOutsideParams span
    emitOp .loadUndefined
  | .list items _ => do
    lowerEach items
    if items.length < UInt16.size then emit (.boxArray items.length.toUInt16)
    else Step.fail .listTooLong
  | .binary op left right _ => do
    lowerExpr left
    lowerExpr right
    emitOp op.opcode
  | .unary op operand _ => do
    lowerExpr operand
    emitOp op.opcode
  | .assign target value _ => do
    lowerExpr value
    storeInto target value
  | .index target position _ => do
    lowerExpr target
    lowerExpr position
    emitOp .arrayGet
  | .call name args span => do
    if name == "last" || name == "next" then lowerLoopControl name args span
    else if name == "checkpoint" then lowerCheckpoint args span
    else
      match Builtin.ofName? name with
      | some builtin =>
        match ← checkedArgc? name args.length span with
        | none => return
        | some argc =>
          lowerBackward args
          emit (.callBuiltin builtin argc)
      | none =>
        match ← resolveSub? name with
        | none =>
          match ← checkedArgc? name args.length span with
          | none => return
          | some argc =>
            lowerBackward args
            recordUse name span false
            emit (.placeholderCall argc)
        | some (owner, sub) =>
          let absolute ← Step.view (·.packages.qualify owner (Path.base name))
          if args.length < sub.params.length then
            report (.tooFewArguments absolute sub.params.length args.length) span
          else
            match ← checkedArgc? name (args.length + sub.usesArgList.toNat) span with
            | none => return
            | some argc =>
              if ← lowerArgs args sub.params then
                if sub.usesArgList then emit (.makeArgArray args.length.toUInt16)
                recordUse absolute span true
                emit (.call sub.label argc)

/-- The code of expressions from the first to the last. -/
def lowerEach : List Expr → Lower Unit
  | [] => pure ()
  | e :: rest => do
    lowerExpr e
    lowerEach rest

/-- The code of expressions from the last to the first. -/
def lowerBackward : List Expr → Lower Unit
  | [] => pure ()
  | e :: rest => do
    lowerBackward rest
    lowerExpr e

/-- The code of the arguments for the given parameters, from the last to the first, as far as each
fits its parameter; an argument beyond the parameters is not held to anything. -/
def lowerArgs : List Expr → List SubParam → Lower Bool
  | [], _ => pure true
  | e :: rest, params => do
    if ← lowerArgs rest params.tail then
      lowerExpr e
      match params.head? with
      | none => return true
      | some param =>
        if param.copy then emitOp .copy
        enforce e param.type .argument
    else return false

end

end Lower

end StackScript
