import StackScript.Lowering.Expr
import StackScript.Tree.Slots

/-!
# Lowering statements

The code of a statement leaves the stack as it found it.

A subroutine is emitted where it is declared, behind a jump over its body:

      Jump skip
    entry:
      PushFrame params, locals
      body
      LoadUndef, Return
    skip:

A `for` loop keeps its list and the number of its elements on the stack while it runs:

      PushInt 0, StoreLocal index
      list, Dup, CallBuiltin elems
    top:
      LoadLocal index, DupN 1, JumpIfGreaterOrEqual done
      DupN 1, LoadLocal index, ArrayGet, StoreLocal variable
      body
      index + 1, Jump top
    done:
      Pop, Pop
-/

namespace StackScript

/-- The variable and type a parameter declares, or what is wrong with it and where. -/
def Param.resolve (p : Param) : Except (Problem × Span) SubParam :=
  match p.pattern with
  | .var name _ => .ok { name, type := .unknown, copy := p.copy }
  | .typed type (.var name _) _ => .ok { name, type, copy := p.copy }
  | .typed _ pattern _ => .error (.typedParameterNoVariable, pattern.span)
  | pattern => .error (.parameterNoVariable, pattern.span)

namespace Lower

/-- A number of slots that an operand can hold. -/
def slotCount (n : Nat) : Lower UInt16 :=
  if n < UInt16.size then pure n.toUInt16 else Step.fail .tooManyLocals

/-- Returns undef, held to the type that the subroutine declares. -/
def emitUndefReturn (span : Span) : Lower Unit := do
  let expected ← Step.view (·.scopes.returnType)
  emitOp .loadUndefined
  let _ ← enforce (.undefined span) expected .result
  emitOp .ret

/-- Gives the parameters their slots, in their order. -/
def bindParams : List SubParam → Lower Unit
  | [] => pure ()
  | p :: rest => do
    let _ ← bindArgument p.name p.type
    bindParams rest

/-- Exports the subroutine declared by `head` from the current package. -/
def exportSub (head : SubHead) (entry : Label) : Lower Unit := do
  match ← Step.view fun s => s.packages.enclosingModule? s.package with
  | none => report .exportOutsideModule head.span
  | some _ =>
    -- A name that starts with a hash belongs to no script and stays private.
    if head.name.toList.head? == some '#' then return
    match ← Step.view (·.draft.offset? entry) with
    | none => Step.fail (.noEntryPoint head.name)
    | some position =>
      let absolute ← Step.view fun s => s.packages.qualify s.package head.name
      onInterface (·.addExport absolute position)

/-- Applies the traits of a subroutine, in their order; one that is not known is reported. -/
def applyTraits (head : SubHead) (entry : Label) : List String → Lower Unit
  | [] => pure ()
  | name :: rest => do
    if name == "export" then exportSub head entry
    else report (.unknownTrait name) head.span
    applyTraits head entry rest

mutual

/-- The code of a statement. -/
def lowerStmt : Stmt → Lower Unit
  | .expr e => do
    lowerExpr e
    emitOp .pop
  | .block body => inScope .block (lowerStmts body)
  | .sub head body => do
    match head.params.mapM Param.resolve with
    | .error (problem, span) => report problem span
    | .ok params =>
      let sub ← mention head.name
      if sub.marked then
        report (.redeclared head.name) head.span
      else
        let usesArgList := mentionsArgList body
        setSub head.name { sub with
          marked := true, declared := true, params, returnType := head.returnType, usesArgList }
        let paramSlots ← slotCount (params.length + usesArgList.toNat)
        let locals ← slotCount (slotsNeeded body)
        let skip ← newLabel
        inScope (.subroutine head.returnType) do
          emit (.jump skip)
          mark sub.label
          emit (.pushFrame paramSlots locals)
          if usesArgList then
            let _ ← bindArgument argList (.array .unknown)
          bindParams params
          if ← lowerBody head.returnType body then
            -- Never reached: the body ends in a return.
            emitOp .loadUndefined
            emitOp .ret
          else
            emitUndefReturn head.span
        mark skip
        applyTraits head sub.label head.traits
  | .ret none span => emitUndefReturn span
  | .ret (some value) _ => do
    lowerExpr value
    let expected ← Step.view (·.scopes.returnType)
    let _ ← enforce value expected .result
    emitOp .ret
  | .cond condition body elsifs otherwise => do
    let done ← newLabel
    let next ← newLabel
    lowerExpr condition
    emit (.jumpIfFalse next)
    inScope .block (lowerStmts body)
    emit (.jump done)
    mark next
    lowerBranches done elsifs
    match otherwise with
    | none => pure ()
    | some body => inScope .block (lowerStmts body)
    mark done
  | .whileLoop condition body => do
    let done ← newLabel
    let top ← newMarkedLabel
    inScope (.loop (.whileLoop done top)) do
      lowerExpr condition
      emit (.jumpIfFalse done)
      lowerStmts body
      emit (.jump top)
      mark done
  | .loop init condition step body => do
    let done ← newLabel
    let next ← newLabel
    inScope (.loop (.countedLoop done next)) do
      match init with
      | none => pure ()
      | some e =>
        lowerExpr e
        emitOp .pop
      let top ← newMarkedLabel
      match condition with
      | none => pure ()
      | some e =>
        lowerExpr e
        emit (.jumpIfFalse done)
      inScope .block (lowerStmts body)
      mark next
      match step with
      | none => pure ()
      | some e =>
        lowerExpr e
        emitOp .pop
      emit (.jump top)
      mark done
  | .forEach name iterable body => do
    let indexSlot ← alloc
    let loopSlot ← alloc
    let done ← newLabel
    let top ← newLabel
    emit (.pushInt 0)
    emit (.store indexSlot)
    lowerExpr iterable
    emitOp .dup
    emit (.callBuiltin .elems 1)
    inScope (.loop (.forEach done top indexSlot loopSlot)) do
      bindSlot name loopSlot .unknown
      mark top
      emit (.load indexSlot)
      emit (.dupN 1)
      emit (.jumpIfGreaterOrEqual done)
      emit (.dupN 1)
      emit (.load indexSlot)
      emitOp .arrayGet
      emit (.store loopSlot)
      lowerStmts body
      emitIncrement indexSlot
      emit (.jump top)
      mark done
      emitOp .pop
      emitOp .pop
  | .use name => onInterface (·.addDependency name)
  | .package kind name body => do
    let id ← enterPath name kind
    match kind with
    | .package => pure ()
    | .module =>
      let path ← Step.view (·.packages.path id)
      onInterface (·.addModule path)
    inPackage id (inScope .block (lowerStmts body))

/-- Lowers statements, in their order. -/
def lowerStmts : List Stmt → Lower Unit
  | [] => pure ()
  | s :: rest => do
    lowerStmt s
    lowerStmts rest

/-- The `elsif`s of a conditional, each of which ends with a jump to `done`. -/
def lowerBranches (done : Label) : List (Expr × List Stmt) → Lower Unit
  | [] => pure ()
  | (condition, body) :: rest => do
    let next ← newLabel
    lowerExpr condition
    emit (.jumpIfFalse next)
    inScope .block (lowerStmts body)
    emit (.jump done)
    mark next
    lowerBranches done rest

/-- The body of a subroutine.  The value of an expression at its end is returned.  Yields whether
the body ends in a return. -/
def lowerBody (returnType : ValueType) : List Stmt → Lower Bool
  | [] => pure false
  | [.expr e] => do
    lowerExpr e
    let _ ← enforce e returnType .result
    emitOp .ret
    return true
  | [.ret value span] => do
    lowerStmt (.ret value span)
    return true
  | s :: rest => do
    lowerStmt s
    lowerBody returnType rest

end

end Lower

end StackScript
