import StackScript.Lowering.Compile

/-!
# Templates of lowering

Lowering goes down a tree piece by piece.  For each piece it makes a fixed sequence of moves: it
emits an instruction, creates or marks a label, opens or closes a scope, looks something up, or
lowers a smaller piece.  `Unfolds p ms b` is the table of these sequences, one line for each way in
which lowering a piece can go: the piece `p` is lowered by the moves `ms`, and `b` comes of it.

A move carries what came of it: the label that was new, the slot that was given out, the variable
that was found.  `Follows Q ms σ σ'` says that the moves `ms` lead from the session `σ` to `σ'`,
where the pieces on the way are lowered by lines of the table that satisfy `Q`.
-/

namespace StackScript

/-! ### Statements in parts -/

namespace Step

variable {σ α β γ : Type}

theorem pure_bind {a : α} {f : α → Step σ β} : (pure a >>= f) = f a := rfl

theorem bind_assoc {x : Step σ α} {f : α → Step σ β} {g : β → Step σ γ} :
    x >>= f >>= g = x >>= fun a => f a >>= g := by
  funext s
  show Step.bind (Step.bind x f) g s = Step.bind x (fun a => Step.bind (f a) g) s
  unfold Step.bind
  rcases x s with ⟨_ | _, _⟩ <;> rfl

end Step

section Parts
open Lower

/-- The last branch of a conditional. -/
def lowerOtherwise : Option (List Stmt) → Lower Unit
  | none => pure ()
  | some body => inScope .block (lowerStmts body)

/-- The expression of a loop's header that is computed for its effect only. -/
def lowerEffect : Option Expr → Lower Unit
  | none => pure ()
  | some e => do
    lowerExpr e
    emitOp .pop

/-- The condition of a loop's header, which leaves to `done` if it is false. -/
def lowerGuard (done : Label) : Option Expr → Lower Unit
  | none => pure ()
  | some e => do
    lowerExpr e
    emit (.jumpIfFalse done)

/-- A conditional, with its last branch as a step of its own. -/
theorem lowerStmt_cond {condition : Expr} {body : List Stmt} {elsifs : List (Expr × List Stmt)}
    {rest : Option (List Stmt)} :
    lowerStmt (.cond condition body elsifs rest) = (do
      let done ← newLabel
      let next ← newLabel
      lowerExpr condition
      emit (.jumpIfFalse next)
      inScope .block (lowerStmts body)
      emit (.jump done)
      mark next
      lowerBranches done elsifs
      lowerOtherwise rest
      mark done) := by
  rw [lowerStmt]
  cases rest <;> simp only [lowerOtherwise, Step.pure_bind]

/-- A counted loop, with the parts of its header as steps of their own. -/
theorem lowerStmt_loop {init condition step : Option Expr} {body : List Stmt} :
    lowerStmt (.loop init condition step body) = (do
      let done ← newLabel
      let next ← newLabel
      inScope (.loop (.countedLoop done next)) do
        lowerEffect init
        let top ← newMarkedLabel
        lowerGuard done condition
        inScope .block (lowerStmts body)
        mark next
        lowerEffect step
        emit (.jump top)
        mark done) := by
  rw [lowerStmt]
  cases init <;> cases condition <;> cases step <;>
    simp only [lowerEffect, lowerGuard, Step.bind_assoc, Step.pure_bind]

end Parts

/-! ### Pieces and moves -/

/-- A piece of a tree that is lowered on its own. -/
inductive Piece where
  | expr (e : Expr)
  /-- Expressions from the first to the last. -/
  | each (es : List Expr)
  /-- Expressions from the last to the first. -/
  | backward (es : List Expr)
  /-- The arguments of a call, held to parameters. -/
  | args (es : List Expr) (params : List SubParam)
  | stmt (s : Stmt)
  | stmts (body : List Stmt)
  /-- The `elsif`s of a conditional that ends at `done`. -/
  | branches (done : Label) (elsifs : List (Expr × List Stmt))
  /-- The body of a subroutine. -/
  | body (returnType : ValueType) (body : List Stmt)

namespace Piece

/-- Lowers a piece.  What comes of it is whether the arguments fit, for arguments, whether it ends
in a return, for a body, and nothing to tell apart otherwise. -/
def lower : Piece → Lower Bool
  | .expr e => do
    Lower.lowerExpr e
    return true
  | .each es => do
    Lower.lowerEach es
    return true
  | .backward es => do
    Lower.lowerBackward es
    return true
  | .args es ps => Lower.lowerArgs es ps
  | .stmt s => do
    Lower.lowerStmt s
    return true
  | .stmts ss => do
    Lower.lowerStmts ss
    return true
  | .branches done elsifs => do
    Lower.lowerBranches done elsifs
    return true
  | .body type ss => Lower.lowerBody type ss

/-- A piece is the declaration of a subroutine, or it is not. -/
theorem other_or_sub (p : Piece) :
    (∀ head body, p ≠ .stmt (.sub head body)) ∨ ∃ head body, p = .stmt (.sub head body) := by
  by_cases hp : ∀ head body, p ≠ .stmt (.sub head body)
  · exact .inl hp
  · exact .inr (by simpa using hp)

/-- A piece is a package statement, or it is not. -/
theorem other_or_package (p : Piece) :
    (∀ kind name body, p ≠ .stmt (.package kind name body)) ∨
      ∃ kind name body, p = .stmt (.package kind name body) := by
  by_cases hp : ∀ kind name body, p ≠ .stmt (.package kind name body)
  · exact .inl hp
  · exact .inr (by simpa using hp)

end Piece

/-- One move of lowering, with what came of it. -/
inductive Move where
  | emit (i : Instruction)
  | constant (v : Constant)
  | newLabel (l : Label)
  | newMarkedLabel (l : Label)
  | mark (l : Label)
  | use (name : String) (span : Span) (resolved : Bool)
  | report (p : Problem) (span : Span)
  | enter (kind : ScopeKind)
  | leave
  /-- Makes a package the current one. -/
  | goTo (id : PackageId)
  | alloc (slot : Slot)
  | declare (name : String) (type : ValueType) (slot : Slot)
  | argument (name : String) (type : ValueType) (slot : Slot)
  | params (params : List SubParam)
  | bind (name : String) (slot : Slot) (type : ValueType)
  | enterPath (path : String) (kind : PackageKind) (id : PackageId)
  | mention (name : String) (sub : Subroutine)
  | setSub (name : String) (sub : Subroutine)
  | interface (f : Interface → Interface)
  | traits (head : SubHead) (entry : Label)
  /-- Looks a variable up. -/
  | lookup (name : String) (found : Option Binding)
  /-- Looks for the loop around this place. -/
  | innermost (found : Option LoopControl)
  /-- Goes on only where the session is so. -/
  | sees (P : Session → Prop)
  | piece (p : Piece) (result : Bool)

/-- The move leads from `σ` to `σ'`, where `K` says what lowering a piece does. -/
def Move.Acts (K : Piece → Bool → Session → Session → Prop) : Move → Session → Session → Prop
  | .emit i, σ, σ' => Lower.emit i σ = (.ok (), σ')
  | .constant v, σ, σ' => Lower.emitConstant v σ = (.ok (), σ')
  | .newLabel l, σ, σ' => Lower.newLabel σ = (.ok l, σ')
  | .newMarkedLabel l, σ, σ' => Lower.newMarkedLabel σ = (.ok l, σ')
  | .mark l, σ, σ' => Lower.mark l σ = (.ok (), σ')
  | .use name span resolved, σ, σ' => Lower.recordUse name span resolved σ = (.ok (), σ')
  | .report p span, σ, σ' => Lower.report p span σ = (.ok (), σ')
  | .enter kind, σ, σ' => σ' = { σ with scopes := σ.scopes.enter kind }
  | .leave, σ, σ' => σ' = { σ with scopes := σ.scopes.leave }
  | .goTo id, σ, σ' => σ' = { σ with package := id }
  | .alloc slot, σ, σ' => Lower.alloc σ = (.ok slot, σ')
  | .declare name type slot, σ, σ' => Lower.declare name type σ = (.ok slot, σ')
  | .argument name type slot, σ, σ' => Lower.bindArgument name type σ = (.ok slot, σ')
  | .params ps, σ, σ' => Lower.bindParams ps σ = (.ok (), σ')
  | .bind name slot type, σ, σ' => Lower.bindSlot name slot type σ = (.ok (), σ')
  | .enterPath path kind id, σ, σ' => Lower.enterPath path kind σ = (.ok id, σ')
  | .mention name sub, σ, σ' => Lower.mention name σ = (.ok sub, σ')
  | .setSub name sub, σ, σ' => Lower.setSub name sub σ = (.ok (), σ')
  | .interface f, σ, σ' => Lower.onInterface f σ = (.ok (), σ')
  | .traits head entry, σ, σ' => Lower.applyTraits head entry head.traits σ = (.ok (), σ')
  | .lookup name found, σ, σ' => σ.scopes.resolve? name = found ∧ σ = σ'
  | .innermost found, σ, σ' => σ.scopes.innermostLoop? = found ∧ σ = σ'
  | .sees P, σ, σ' => P σ ∧ σ = σ'
  | .piece p b, σ, σ' => K p b σ σ'

/-- The moves lead from `σ` to `σ'`, one after the other. -/
def Along (K : Piece → Bool → Session → Session → Prop) : List Move → Session → Session → Prop
  | [], σ, σ' => σ = σ'
  | m :: ms, σ, σ' => ∃ σ₁, m.Acts K σ σ₁ ∧ Along K ms σ₁ σ'

/-! ### Parts of templates -/

namespace Move

/-- Emits an instruction without an operand. -/
def op (op : Opcode) : Move := .emit (.bare op)

/-- An expression for its effect only. -/
def effect : Option Expr → List Move
  | none => []
  | some e => [.piece (.expr e) true, .op .pop]

/-- A condition that leaves to `done` if it is false. -/
def guarded (done : Label) : Option Expr → List Move
  | none => []
  | some e => [.piece (.expr e) true, .emit (.jumpIfFalse done)]

/-- A body in a scope of its own. -/
def block (body : List Stmt) : List Move := [.enter .block, .piece (.stmts body) true, .leave]

/-- The last branch of a conditional, which may be missing. -/
def otherwise : Option (List Stmt) → List Move
  | none => []
  | some body => block body

/-- Adds one to a hidden variable. -/
def increment (slot : Slot) : List Move :=
  [.emit (.load slot), .emit (.pushInt 1), .op .add, .emit (.store slot)]

/-- What `next` does before it jumps. -/
def advance : LoopControl → List Move
  | .forEach _ _ indexSlot _ => increment indexSlot
  | _ => []

/-- The emission of an instruction that is left out in some cases. -/
def when (c : Bool) (i : Instruction) : List Move := if c then [.emit i] else []

/-- The slot of the argument list, where there is one. -/
def argListSlot (uses : Bool) (slot : Slot) : List Move :=
  if uses then [.argument argList (.array .unknown) slot] else []

/-- Records the module at a package. -/
def declareModule (id : PackageId) (path : String) : PackageKind → List Move
  | .package => []
  | .module => [.sees fun σ => σ.packages.path id = path, .interface (·.addModule path)]

end Move

/-- The moves that hold the value of `e` to the type `expected`, and whether it fits. -/
inductive Enforces (e : Expr) (expected : ValueType) (role : Role) : List Move → Bool → Prop where
  | free : expected.isUnknown = true → Enforces e expected role [] true
  | identical {actual : ValueType} : expected.isUnknown = false →
      actual.fit expected = .identical →
      Enforces e expected role [.sees fun σ => σ.typeOf e = actual] true
  | castable {actual : ValueType} : expected.isUnknown = false → actual.fit expected = .castable →
      Enforces e expected role
        [.sees fun σ => σ.typeOf e = actual, .emit (.toCompatible expected)] true
  | incompatible {actual : ValueType} : expected.isUnknown = false →
      actual.fit expected = .incompatible →
      Enforces e expected role
        [.sees fun σ => σ.typeOf e = actual, .report (.mismatch role actual expected) e.span] false

/-- The moves that return undef, held to the type that the subroutine declares. -/
inductive ReturnsUndef (span : Span) : List Move → Prop where
  | intro {type : ValueType} {cs : List Move} {ok : Bool} :
      Enforces (.undefined span) type .result cs ok →
      ReturnsUndef span
        (.sees (fun σ => σ.scopes.returnType = type) :: .op .loadUndefined :: (cs ++ [Move.op .ret]))

/-- The moves behind a body, according to whether it ends in a return. -/
inductive Closes (span : Span) : Bool → List Move → Prop where
  | returned : Closes span true [.op .loadUndefined, .op .ret]
  | fallen {ms : List Move} : ReturnsUndef span ms → Closes span false ms

/-- A name that no special form and no builtin has. -/
def Ordinary (name : String) : Prop :=
  name ≠ "last" ∧ name ≠ "next" ∧ name ≠ "checkpoint" ∧ Builtin.ofName? name = none

/-- A call of `name` here means `found`. -/
def Means (name : String) (found : Option (PackageId × Subroutine)) (σ : Session) : Prop :=
  σ.packages.resolveSub? σ.package name = found

/-- A statement whose value a body returns if it stands at its end. -/
def Stmt.closing : Stmt → Bool
  | .expr _ | .ret _ _ => true
  | _ => false

/-! ### The table -/

open Move in
/-- The piece is lowered by these moves, and this comes of it. -/
inductive Unfolds : Piece → List Move → Bool → Prop where
  | integer {v : Int64} {s : Span} : Unfolds (.expr (.integer v s)) [.emit (.pushInt v)] true
  | float {v : Double} {s : Span} : Unfolds (.expr (.float v s)) [.constant (.num v)] true
  | str {v : String} {s : Span} : Unfolds (.expr (.str v s)) [.constant (.str v)] true
  | bool {v : Bool} {s : Span} : Unfolds (.expr (.bool v s)) [.emit (.pushBool v)] true
  | undefined {s : Span} : Unfolds (.expr (.undefined s)) [op .loadUndefined] true
  | var {name : String} {s : Span} {b : Binding} :
      Unfolds (.expr (.var name s)) [.lookup name (some b), .emit (.load b.slot)] true
  | varUndeclared {name : String} {s : Span} :
      Unfolds (.expr (.var name s))
        [.lookup name none, .report (.undeclaredRead name) s, op .loadUndefined] true
  | declare {name : String} {type : ValueType} {s : Span} {slot : Slot} :
      Unfolds (.expr (.declare name type s))
        [.declare name type slot, op .loadUndefined, op .dup, .emit (.store slot)] true
  | typed {type : ValueType} {pattern : Expr} {s : Span} :
      Unfolds (.expr (.typed type pattern s))
        [.report .typedOutsideParams s, op .loadUndefined] true
  | list {items : List Expr} {s : Span} :
      Unfolds (.expr (.list items s))
        [.piece (.each items) true, .sees fun _ => items.length < UInt16.size,
          .emit (.boxArray items.length.toUInt16)] true
  | binary {o : BinaryOp} {left right : Expr} {s : Span} :
      Unfolds (.expr (.binary o left right s))
        [.piece (.expr left) true, .piece (.expr right) true, op o.opcode] true
  | unary {o : UnaryOp} {operand : Expr} {s : Span} :
      Unfolds (.expr (.unary o operand s)) [.piece (.expr operand) true, op o.opcode] true
  | assignVar {name : String} {value : Expr} {s s' : Span} {b : Binding} {cs : List Move} :
      Enforces value b.type .assignment cs true →
      Unfolds (.expr (.assign (.var name s') value s))
        ([piece (.expr value) true, lookup name (some b)] ++ cs ++
          [op .dup, emit (.store b.slot)]) true
  | assignVarMismatch {name : String} {value : Expr} {s s' : Span} {b : Binding}
      {cs : List Move} : Enforces value b.type .assignment cs false →
      Unfolds (.expr (.assign (.var name s') value s))
        ([piece (.expr value) true, lookup name (some b)] ++ cs) true
  | assignVarUndeclared {name : String} {value : Expr} {s s' : Span} :
      Unfolds (.expr (.assign (.var name s') value s))
        [.piece (.expr value) true, .lookup name none, .report (.undeclaredWrite name) s'] true
  | assignDeclare {name : String} {type : ValueType} {value : Expr} {s s' : Span} {slot : Slot}
      {cs : List Move} : Enforces value type .assignment cs true →
      Unfolds (.expr (.assign (.declare name type s') value s))
        ([piece (.expr value) true, declare name type slot] ++ cs ++
          [op .dup, emit (.store slot)]) true
  | assignDeclareMismatch {name : String} {type : ValueType} {value : Expr} {s s' : Span}
      {slot : Slot} {cs : List Move} : Enforces value type .assignment cs false →
      Unfolds (.expr (.assign (.declare name type s') value s))
        ([piece (.expr value) true, declare name type slot] ++ cs) true
  | assignOther {target value : Expr} {s : Span} :
      (∀ name s', target ≠ .var name s') → (∀ name type s', target ≠ .declare name type s') →
      Unfolds (.expr (.assign target value s))
        [.piece (.expr value) true, .report .notAssignable target.span] true
  | index {target position : Expr} {s : Span} :
      Unfolds (.expr (.index target position s))
        [.piece (.expr target) true, .piece (.expr position) true, op .arrayGet] true
  | loopControlArguments {name : String} {args : List Expr} {s : Span} :
      name = "last" ∨ name = "next" → args ≠ [] →
      Unfolds (.expr (.call name args s)) [.report (.loopControlArguments name) s] true
  | noLoop {name : String} {s : Span} : name = "last" ∨ name = "next" →
      Unfolds (.expr (.call name [] s)) [.innermost none, .report .noLoop s] true
  | last {s : Span} {control : LoopControl} :
      Unfolds (.expr (.call "last" [] s))
        [.innermost (some control), .emit (.jump control.done), op .loadUndefined] true
  | next {s : Span} {control : LoopControl} :
      Unfolds (.expr (.call "next" [] s))
        (innermost (some control) :: advance control ++
          [emit (.jump control.next), op .loadUndefined]) true
  | checkpoint {id : Int64} {on : Bool} {s s' : Span} :
      Unfolds (.expr (.call "checkpoint" [.integer id s'] s))
        (sees (fun σ => σ.options.checkpoints = on) :: Move.when on (.checkpoint id) ++
          [op .loadUndefined]) true
  | checkpointArgument {args : List Expr} {s : Span} :
      (∀ id s', args ≠ [.integer id s']) →
      Unfolds (.expr (.call "checkpoint" args s)) [.report .checkpointArgument s] true
  | builtin {name : String} {args : List Expr} {s : Span} {b : Builtin} :
      Builtin.ofName? name = some b → args.length < UInt8.size →
      Unfolds (.expr (.call name args s))
        [.piece (.backward args) true, .emit (.callBuiltin b args.length.toUInt8)] true
  | builtinTooMany {name : String} {args : List Expr} {s : Span} {b : Builtin} :
      Builtin.ofName? name = some b → ¬ args.length < UInt8.size →
      Unfolds (.expr (.call name args s)) [.report (.tooManyArguments name) s] true
  | external {name : String} {args : List Expr} {s : Span} :
      Ordinary name → args.length < UInt8.size →
      Unfolds (.expr (.call name args s))
        [.sees (Means name none), .piece (.backward args) true, .use name s false,
          .emit (.placeholderCall args.length.toUInt8)] true
  | externalTooMany {name : String} {args : List Expr} {s : Span} :
      Ordinary name → ¬ args.length < UInt8.size →
      Unfolds (.expr (.call name args s))
        [.sees (Means name none), .report (.tooManyArguments name) s] true
  | call {name absolute : String} {args : List Expr} {s : Span} {owner : PackageId}
      {sub : Subroutine} : Ordinary name → sub.params.length ≤ args.length →
      args.length + sub.usesArgList.toNat < UInt8.size →
      Unfolds (.expr (.call name args s))
        ([sees (Means name (some (owner, sub))),
            sees fun σ => σ.packages.qualify owner (Path.base name) = absolute,
            piece (.args args sub.params) true] ++
          Move.when sub.usesArgList (.makeArgArray args.length.toUInt16) ++
          [use absolute s true,
            emit (.call sub.label (args.length + sub.usesArgList.toNat).toUInt8)]) true
  | callTooFew {name absolute : String} {args : List Expr} {s : Span} {owner : PackageId}
      {sub : Subroutine} : Ordinary name → args.length < sub.params.length →
      Unfolds (.expr (.call name args s))
        [.sees (Means name (some (owner, sub))),
          .sees fun σ => σ.packages.qualify owner (Path.base name) = absolute,
          .report (.tooFewArguments absolute sub.params.length args.length) s] true
  | callTooMany {name : String} {args : List Expr} {s : Span} {owner : PackageId}
      {sub : Subroutine} : Ordinary name → sub.params.length ≤ args.length →
      ¬ args.length + sub.usesArgList.toNat < UInt8.size →
      Unfolds (.expr (.call name args s))
        [.sees (Means name (some (owner, sub))), .report (.tooManyArguments name) s] true
  | callRefused {name : String} {args : List Expr} {s : Span} {owner : PackageId}
      {sub : Subroutine} : Ordinary name → sub.params.length ≤ args.length →
      args.length + sub.usesArgList.toNat < UInt8.size →
      Unfolds (.expr (.call name args s))
        [.sees (Means name (some (owner, sub))), .piece (.args args sub.params) false] true
  | eachNil : Unfolds (.each []) [] true
  | eachCons {e : Expr} {es : List Expr} :
      Unfolds (.each (e :: es)) [.piece (.expr e) true, .piece (.each es) true] true
  | backwardNil : Unfolds (.backward []) [] true
  | backwardCons {e : Expr} {es : List Expr} :
      Unfolds (.backward (e :: es)) [.piece (.backward es) true, .piece (.expr e) true] true
  | argsNil {ps : List SubParam} : Unfolds (.args [] ps) [] true
  | argsRefused {e : Expr} {es : List Expr} {ps : List SubParam} :
      Unfolds (.args (e :: es) ps) [.piece (.args es ps.tail) false] false
  | argsFree {e : Expr} {es : List Expr} :
      Unfolds (.args (e :: es) []) [.piece (.args es []) true, .piece (.expr e) true] true
  | argsHeld {e : Expr} {es : List Expr} {p : SubParam} {ps : List SubParam} {cs : List Move}
      {ok : Bool} : Enforces e p.type .argument cs ok →
      Unfolds (.args (e :: es) (p :: ps))
        ([piece (.args es ps) true, piece (.expr e) true] ++
          Move.when p.copy (.bare .copy) ++ cs) ok
  | exprStmt {e : Expr} : Unfolds (.stmt (.expr e)) [.piece (.expr e) true, op .pop] true
  | block {body : List Stmt} : Unfolds (.stmt (.block body)) (block body) true
  | subParameter {head : SubHead} {body : List Stmt} {p : Problem} {s : Span} :
      head.params.mapM Param.resolve = .error (p, s) →
      Unfolds (.stmt (.sub head body)) [.report p s] true
  | subRedeclared {head : SubHead} {body : List Stmt} {ps : List SubParam} {sub : Subroutine} :
      head.params.mapM Param.resolve = .ok ps → sub.marked = true →
      Unfolds (.stmt (.sub head body))
        [.mention head.name sub, .report (.redeclared head.name) head.span] true
  | sub {head : SubHead} {body : List Stmt} {ps : List SubParam} {sub : Subroutine}
      {skip : Label} {slot : Slot} {ends : Bool} {close : List Move} :
      head.params.mapM Param.resolve = .ok ps → sub.marked = false →
      Closes head.span ends close →
      Unfolds (.stmt (.sub head body))
        ([mention head.name sub,
            setSub head.name { sub with
              marked := true, declared := true, params := ps, returnType := head.returnType
              usesArgList := mentionsArgList body },
            sees fun _ => ps.length + (mentionsArgList body).toNat < UInt16.size,
            sees fun _ => slotsNeeded body < UInt16.size,
            newLabel skip, enter (.subroutine head.returnType), emit (.jump skip),
            mark sub.label,
            emit (.pushFrame (ps.length + (mentionsArgList body).toNat).toUInt16
              (slotsNeeded body).toUInt16)] ++
          argListSlot (mentionsArgList body) slot ++
          [params ps, piece (.body head.returnType body) ends] ++ close ++
          [leave, mark skip, traits head sub.label]) true
  | retUndef {s : Span} {ms : List Move} : ReturnsUndef s ms → Unfolds (.stmt (.ret none s)) ms true
  | ret {value : Expr} {s : Span} {type : ValueType} {cs : List Move} {ok : Bool} :
      Enforces value type .result cs ok →
      Unfolds (.stmt (.ret (some value) s))
        ([piece (.expr value) true, sees fun σ => σ.scopes.returnType = type] ++ cs ++
          [op .ret]) true
  | cond {condition : Expr} {body : List Stmt} {elsifs : List (Expr × List Stmt)}
      {rest : Option (List Stmt)} {done next : Label} :
      Unfolds (.stmt (.cond condition body elsifs rest))
        ([newLabel done, newLabel next, piece (.expr condition) true,
            emit (.jumpIfFalse next)] ++ Move.block body ++
          [emit (.jump done), mark next, piece (.branches done elsifs) true] ++
          Move.otherwise rest ++ [mark done]) true
  | whileLoop {condition : Expr} {body : List Stmt} {done top : Label} :
      Unfolds (.stmt (.whileLoop condition body))
        [.newLabel done, .newMarkedLabel top, .enter (.loop (.whileLoop done top)),
          .piece (.expr condition) true, .emit (.jumpIfFalse done), .piece (.stmts body) true,
          .emit (.jump top), .mark done, .leave] true
  | loop {init condition step : Option Expr} {body : List Stmt} {done next top : Label} :
      Unfolds (.stmt (.loop init condition step body))
        ([newLabel done, newLabel next, enter (.loop (.countedLoop done next))] ++
          effect init ++ [newMarkedLabel top] ++ guarded done condition ++ Move.block body ++
          [mark next] ++ effect step ++ [emit (.jump top), mark done, leave]) true
  | forEach {name : String} {iterable : Expr} {body : List Stmt} {index item : Slot}
      {done top : Label} :
      Unfolds (.stmt (.forEach name iterable body))
        ([alloc index, alloc item, newLabel done, newLabel top, emit (.pushInt 0),
            emit (.store index), piece (.expr iterable) true, op .dup,
            emit (.callBuiltin .elems 1), enter (.loop (.forEach done top index item)),
            Move.bind name item .unknown, mark top, emit (.load index), emit (.dupN 1),
            emit (.jumpIfGreaterOrEqual done), emit (.dupN 1), emit (.load index),
            op .arrayGet, emit (.store item), piece (.stmts body) true] ++
          increment index ++ [emit (.jump top), mark done, op .pop, op .pop, leave]) true
  | use {name : String} : Unfolds (.stmt (.use name)) [.interface (·.addDependency name)] true
  | package {kind : PackageKind} {name path : String} {body : List Stmt} {id outer : PackageId} :
      Unfolds (.stmt (.package kind name body))
        (enterPath name kind id :: declareModule id path kind ++
          [sees fun σ => σ.package = outer, goTo id] ++ Move.block body ++ [goTo outer]) true
  | stmtsNil : Unfolds (.stmts []) [] true
  | stmtsCons {s : Stmt} {rest : List Stmt} :
      Unfolds (.stmts (s :: rest)) [.piece (.stmt s) true, .piece (.stmts rest) true] true
  | branchesNil {done : Label} : Unfolds (.branches done []) [] true
  | branchesCons {done next : Label} {condition : Expr} {body : List Stmt}
      {rest : List (Expr × List Stmt)} :
      Unfolds (.branches done ((condition, body) :: rest))
        ([newLabel next, piece (.expr condition) true, emit (.jumpIfFalse next)] ++
          Move.block body ++
          [emit (.jump done), mark next, piece (.branches done rest) true]) true
  | bodyNil {type : ValueType} : Unfolds (.body type []) [] false
  | bodyExpr {type : ValueType} {e : Expr} {cs : List Move} {ok : Bool} :
      Enforces e type .result cs ok →
      Unfolds (.body type [.expr e]) (piece (.expr e) true :: cs ++ [op .ret]) true
  | bodyRet {type : ValueType} {value : Option Expr} {s : Span} :
      Unfolds (.body type [.ret value s]) [.piece (.stmt (.ret value s)) true] true
  | bodyCons {type : ValueType} {s : Stmt} {rest : List Stmt} {ends : Bool} :
      rest ≠ [] ∨ s.closing = false →
      Unfolds (.body type (s :: rest)) [.piece (.stmt s) true, .piece (.body type rest) ends] ends

/-! ### Following templates -/

/-- The moves lead from `σ` to `σ'`, and every piece on the way is lowered by a line of the table
whose moves satisfy `Q`. -/
inductive Follows (Q : List Move → Prop) : List Move → Session → Session → Prop where
  | nil {σ : Session} : Follows Q [] σ σ
  | act {m : Move} {ms : List Move} {σ σ₁ σ' : Session} :
      m.Acts (fun _ _ _ _ => False) σ σ₁ → Follows Q ms σ₁ σ' → Follows Q (m :: ms) σ σ'
  | piece {p : Piece} {b : Bool} {ns ms : List Move} {σ σ₁ σ' : Session} :
      Unfolds p ns b → Q ns → Follows Q ns σ σ₁ → Follows Q ms σ₁ σ' →
      Follows Q (.piece p b :: ms) σ σ'

/-- The piece is lowered from `σ` to `σ'` with the result `b`. -/
def Runs (Q : List Move → Prop) (p : Piece) (b : Bool) (σ σ' : Session) : Prop :=
  ∃ ms, Unfolds p ms b ∧ Q ms ∧ Follows Q ms σ σ'

end StackScript
