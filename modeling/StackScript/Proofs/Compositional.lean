import StackScript.Proofs.Moves

/-!
# Properties of whole lowerings

Lowering is put together from a few single steps: by sequencing, by opening scopes and packages, and by
looking at what is in scope.  A property of steps that the single steps have, and that is kept where steps
are put together, is a property of the lowering of every program, whether it ends in a fault or not.

* `Step.Commutes`: a step comes to the same whether the state is changed before it or behind it; so does a
  sequence of such steps.
* `Lower.Sequential`, `Lower.Declarative`, `Lower.Compositional`: the property is kept where steps are put
  together, one behind the other, with declarations, and in scopes of their own.
* `Lower.Enclosing`: what has one property inside a scope has another one as a whole.
* `Lower.Declarative.expr`, `Lower.Enclosing.stmt`: the property holds of lowering expressions and
  statements; `Lower.Enclosing.enclosed`: of lowering statements in scopes of their own.
* `Lower.Enclosing.program`: it holds of lowering a program.
-/

namespace StackScript

/-- Where `P` holds, the step comes to the same whether `f` changes the state before it or behind it, and
`P` holds behind it. -/
structure Step.Commutes {σ α : Type} (P : σ → Prop) (f : σ → σ) (x : Step σ α) : Prop where
  commutes : ∀ {s}, P s → x (f s) = ((x s).1, f (x s).2)
  keeps : ∀ {s}, P s → P (x s).2

namespace Step.Commutes

variable {σ α β : Type} {P : σ → Prop} {f : σ → σ} {x y : Step σ α} {k : α → Step σ β}

/-- Steps that commute with `f`, one after the other, do. -/
theorem bind (hx : Commutes P f x) (hk : ∀ a, Commutes P f (k a)) : Commutes P f (x >>= k) := by
  refine ⟨fun {s} hs => ?_, fun {s} hs => ?_⟩
  · show Step.bind x k (f s) = ((Step.bind x k s).1, f (Step.bind x k s).2)
    have ht := hx.keeps hs
    unfold Step.bind
    rw [hx.commutes hs]
    rcases hr : x s with ⟨e | a, t⟩
    · rfl
    · rw [hr] at ht
      exact (hk a).commutes ht
  · show P (Step.bind x k s).2
    have ht := hx.keeps hs
    unfold Step.bind
    rcases hr : x s with ⟨e | a, t⟩
    · rwa [hr] at ht
    · rw [hr] at ht
      exact (hk a).keeps ht

/-- Commuting with `f` is a matter of what the step does. -/
theorem congr (h : ∀ s, x s = y s) (hy : Commutes P f y) : Commutes P f x := (funext h : x = y) ▸ hy

theorem pure {a : α} : Commutes P f (Pure.pure a) := ⟨fun _ => rfl, id⟩

theorem fail {e : Fault} : Commutes P f (Step.fail e : Step σ α) := ⟨fun _ => rfl, id⟩

/-- Something is read off the state that `f` leaves alone. -/
theorem view {g : σ → α} (hg : ∀ s, g (f s) = g s) : Commutes P f (Step.view g) :=
  ⟨fun {s} _ => by rw [Step.view, hg]; rfl, id⟩

end Step.Commutes

/-! ### Putting steps together -/

/-- An instruction that is emitted whatever the options are, and names no offset. -/
def Instruction.ordinary (i : Instruction) : Bool :=
  match i.operand with
  | some (.offset _) | some (.call (.address _) _) => false
  | _ => i.opcode != .checkpoint

/-- The variables of a statement are all declared in scopes of its own. -/
def Stmt.enclosed : Stmt → Bool
  | .block _ | .whileLoop _ _ | .loop _ _ _ _ | .sub _ _ | .package _ _ _ => true
  | .expr _ | .ret _ _ | .cond _ _ _ _ | .forEach _ _ _ | .use _ => false

namespace Lower

/-- What is read off a session depends only on the scopes and the packages. -/
def Scoped {α : Type} (g : Session → α) : Prop :=
  ∀ {σ τ : Session}, τ.scopes = σ.scopes → τ.packages = σ.packages → τ.package = σ.package → g τ = g σ

/-- A property of steps that the single steps of lowering have, but for those that bind names, and that is
kept where they are put together one behind the other. -/
structure Sequential (C : ∀ {α : Type}, Lower α → Prop) : Prop where
  pure : ∀ {α : Type} {a : α}, C (Pure.pure a)
  bind : ∀ {α β : Type} {x : Lower α} {k : α → Lower β}, C x → (∀ a, C (k a)) → C (x >>= k)
  fail : ∀ {α : Type} {f : Fault}, C (Step.fail (α := α) f)
  view : ∀ {α : Type} {g : Session → α}, Scoped g → C (Step.view g)
  report : ∀ {p : Problem} {span : Span}, C (report p span)
  emit : ∀ {i : Instruction}, i.ordinary = true → C (emit i)
  emitConstant : ∀ {v : Constant}, C (emitConstant v)
  newLabel : C newLabel
  newMarkedLabel : C newMarkedLabel
  mark : ∀ {l : Label}, C (mark l)
  recordUse : ∀ {name : String} {span : Span} {resolved : Bool}, C (recordUse name span resolved)
  alloc : C alloc
  inPackage : ∀ {α : Type} {id : PackageId} {x : Lower α}, C x → C (inPackage id x)
  onPackages : ∀ {f : PackageTree → PackageTree},
    C (Step.update fun σ : Session => { σ with packages := f σ.packages })
  /-- A subroutine of any package is mentioned. -/
  mentionIn : ∀ {id : PackageId} {name : String}, C fun σ : Session =>
    (.ok (σ.packages.mention id name σ.draft).1, { σ with
      packages := (σ.packages.mention id name σ.draft).2.1
      draft := (σ.packages.mention id name σ.draft).2.2 })
  addDependency : ∀ {name : String}, C (onInterface (·.addDependency name))
  addModule : ∀ {path : String}, C (onInterface (·.addModule path))
  /-- The place of a label is looked up and exported. -/
  addExport : ∀ {entry : Label} {name : Session → String} {f : Fault}, Scoped name → C (do
    match ← Step.view (·.draft.offset? entry) with
    | none => Step.fail f
    | some position =>
      let absolute ← Step.view name
      onInterface (·.addExport absolute position))
  /-- A checkpoint is emitted if the options ask for it. -/
  checkpoint : ∀ {α : Type} {id : Int64} {x : Lower α}, C x → C (do
    if ← Step.view (·.options.checkpoints) then Lower.emit (.checkpoint id)
    x)

/-- A property that declarations have as well. -/
structure Declarative (C : ∀ {α : Type}, Lower α → Prop) : Prop extends Sequential C where
  declare : ∀ {name : String} {type : ValueType}, C (declare name type)

/-- A property that all single steps have and that is kept wherever they are put together. -/
structure Compositional (C : ∀ {α : Type}, Lower α → Prop) : Prop extends Declarative C where
  bindArgument : ∀ {name : String} {type : ValueType}, C (bindArgument name type)
  bindSlot : ∀ {name : String} {slot : Slot} {type : ValueType}, C (bindSlot name slot type)
  inScope : ∀ {α : Type} {kind : ScopeKind} {x : Lower α}, C x → C (inScope kind x)

/-- What has the property `D` inside a scope has the property `C` together with its scope. -/
structure Enclosing (C D : ∀ {α : Type}, Lower α → Prop) : Prop where
  steps : Sequential C
  inner : Compositional D
  inScope : ∀ {α : Type} {kind : ScopeKind} {x : Lower α}, D x → C (inScope kind x)

namespace Sequential

variable {C : ∀ {α : Type}, Lower α → Prop} (h : Sequential C)

include h

/-- Two steps, the second of which does not look at what the first yields. -/
theorem andThen {α β : Type} {x : Lower α} {y : Lower β} (hx : C x) (hy : C y) : C (x >>= fun _ => y) :=
  h.bind hx fun _ => hy

theorem emitOp {op : Opcode} (hop : op ≠ .checkpoint) : C (emitOp op) :=
  h.emit (by simpa [Instruction.ordinary, Instruction.bare] using hop)

/-- A number of slots that is too large is a fault. -/
theorem slotCount {n : Nat} : C (slotCount n) := by
  unfold Lower.slotCount
  split
  · exact h.pure
  · exact h.fail

theorem resolve {name : String} : C (resolve? name) :=
  h.view fun hs _ _ => by rw [hs]

theorem innermostLoop : C (Step.view fun σ : Session => σ.scopes.innermostLoop?) :=
  h.view fun hs _ _ => by rw [hs]

theorem returnType : C (Step.view fun σ : Session => σ.scopes.returnType) :=
  h.view fun hs _ _ => by rw [hs]

theorem mention {name : String} : C (mention name) :=
  h.bind (h.view fun _ _ hk => hk) fun id => @mentionIn _ h id name

theorem setSub {name : String} {sub : Subroutine} : C (setSub name sub) :=
  h.bind (h.view fun _ _ hk => hk) fun id => h.onPackages (f := fun t => t.setSub id name sub)

theorem enterPath {path : String} {kind : PackageKind} : C (enterPath path kind) :=
  h.bind (h.view (g := fun σ => (σ.package, (σ.packages.enter σ.package path kind).1))
      fun _ hp hk => by simp only [hp, hk]) fun found =>
    h.andThen (h.onPackages (f := fun t => (t.enter found.1 path kind).2)) (h.pure (a := found.2))

/-! ### Expressions -/

/-- Enforcing a type looks at the type of the expression and emits a conversion or reports the misfit. -/
theorem enforce {e : Expr} {type : ValueType} {role : Role} : C (enforce e type role) := by
  unfold Lower.enforce
  split
  · exact h.pure
  · refine h.bind (h.view fun hs hp hk => Session.typeOf_congr hs hp hk e) fun actual => ?_
    split
    · exact h.pure
    · exact h.andThen (h.emit rfl) h.pure
    · exact h.andThen h.report h.pure

/-- A hidden variable is loaded, added to and stored. -/
theorem increment {slot : Slot} : C (emitIncrement slot) :=
  h.andThen (h.emit rfl) <| h.andThen (h.emit rfl) <| h.andThen (h.emitOp (by decide)) <| h.emit rfl

/-- A variable is looked up; one that is not there is reported. -/
theorem variableRead {name : String} {span : Span} : C (lowerVariable name span) := by
  refine h.bind h.resolve fun found => ?_
  cases found with
  | some b => exact h.emit rfl
  | none => exact h.andThen h.report (h.emitOp (by decide))

/-- A number of arguments that is too large is reported. -/
theorem checkedArgc {name : String} {count : Nat} {span : Span} : C (checkedArgc? name count span) := by
  unfold checkedArgc?
  split
  · exact h.pure
  · exact h.andThen h.report h.pure

/-- `last` and `next` look at the innermost loop. -/
theorem loopControl {name : String} {args : List Expr} {span : Span} :
    C (lowerLoopControl name args span) := by
  unfold lowerLoopControl
  split
  · exact h.report
  · refine h.bind h.innermostLoop fun found => ?_
    cases found with
    | none => exact h.report
    | some control =>
        have hjump {l : Label} : C (do Lower.emit (.jump l); Lower.emitOp .loadUndefined) :=
          h.andThen (h.emit rfl) (h.emitOp (by decide))
        simp only
        split
        · exact hjump
        · split
          · exact h.andThen h.increment hjump
          · exact hjump

/-- A checkpoint is emitted if the options ask for it; a wrong argument is reported. -/
theorem checkpointCall {args : List Expr} {span : Span} : C (lowerCheckpoint args span) := by
  unfold lowerCheckpoint
  split
  · exact h.checkpoint (h.emitOp (by decide))
  · exact h.report

/-- A call is lowered in one of five ways; its arguments, from the last to the first. -/
theorem call {name : String} {args : List Expr} {span : Span} (hbackward : C (lowerBackward args))
    (hargs : ∀ ps, C (lowerArgs args ps)) : C (lowerExpr (.call name args span)) := by
  rw [lowerExpr]
  split
  · exact h.loopControl
  split
  · exact h.checkpointCall
  split
  · refine h.bind h.checkedArgc fun argc => ?_
    cases argc with
    | none => exact h.pure
    | some argc => exact h.andThen hbackward (h.emit rfl)
  refine h.bind (h.view fun _ hp hk => by rw [hp, hk]) fun found => ?_
  cases found with
  | none =>
      refine h.bind h.checkedArgc fun argc => ?_
      cases argc with
      | none => exact h.pure
      | some argc => exact h.andThen hbackward (h.andThen h.recordUse (h.emit rfl))
  | some found =>
      refine h.bind (h.view fun _ hp _ => by rw [hp]) fun absolute => ?_
      simp only
      split
      · exact h.report
      refine h.bind h.checkedArgc fun argc => ?_
      cases argc with
      | none => exact h.pure
      | some argc =>
          refine h.bind (hargs found.2.params) fun fits => ?_
          cases fits with
          | false => exact h.pure
          | true =>
              simp only [if_true]
              split
              · exact h.andThen (h.emit rfl) (h.andThen h.recordUse (h.emit rfl))
              · exact h.andThen h.recordUse (h.emit rfl)

/-! ### Returns and exports -/

/-- The undefined value is checked against the return type and returned. -/
theorem undefReturn {span : Span} : C (emitUndefReturn span) :=
  h.bind h.returnType fun _ => h.andThen (h.emitOp (by decide)) <| h.andThen h.enforce <|
    h.emitOp (by decide)

/-- A subroutine is exported under its absolute name; outside of a module this is reported. -/
theorem exported {head : SubHead} {entry : Label} : C (exportSub head entry) := by
  refine h.bind (h.view fun _ hp hk => by rw [hp, hk]) fun module => ?_
  cases module with
  | none => exact h.report
  | some module =>
      simp only
      split
      · exact h.pure
      · exact h.addExport fun _ hp hk => by rw [hp, hk]

/-- The traits are applied one after the other, unknown ones reported. -/
theorem traits {head : SubHead} {entry : Label} : ∀ names, C (applyTraits head entry names)
  | [] => h.pure
  | name :: rest => by
      unfold applyTraits
      split
      · exact h.andThen h.exported (traits rest)
      · exact h.andThen h.report (traits rest)

end Sequential

/-! ### Expressions that may declare variables -/

namespace Declarative

variable {C : ∀ {α : Type}, Lower α → Prop}

section

variable (h : Declarative C)

include h

/-- A declaration gives the name a slot and clears it. -/
theorem declaration {name : String} {type : ValueType} : C (lowerDeclaration name type) :=
  h.bind h.declare fun _ => h.andThen (h.emitOp (by decide)) <| h.andThen (h.emitOp (by decide)) <|
    h.emit rfl

/-- The target of an assignment is looked up or declared; anything else is reported. -/
theorem assignmentTarget {target : Expr} : C (assignmentTarget? target) := by
  unfold assignmentTarget?
  split
  · refine h.bind h.resolve fun found => ?_
    cases found with
    | some b => exact h.pure
    | none => exact h.andThen h.report h.pure
  · exact h.bind h.declare fun _ => h.pure
  · exact h.andThen h.report h.pure

/-- The value on the stack is held to the type of the target and stored; a copy stays. -/
theorem storeInto {target value : Expr} : C (storeInto target value) := by
  refine h.bind h.assignmentTarget fun found => ?_
  cases found with
  | none => exact h.pure
  | some found =>
      refine h.bind h.enforce fun ok => ?_
      cases ok with
      | true => exact h.andThen (h.emitOp (by decide)) (h.emit rfl)
      | false => exact h.pure

end

mutual

/-- **What holds of the single steps holds of lowering an expression.** -/
theorem expr (h : Declarative C) : ∀ e, C (lowerExpr e)
  | .integer _ _ => by
      rw [lowerExpr]
      exact h.emit rfl
  | .float _ _ | .str _ _ => by
      rw [lowerExpr]
      exact h.emitConstant
  | .bool v _ => by
      rw [lowerExpr]
      cases v <;> exact h.emit rfl
  | .undefined _ => by
      rw [lowerExpr]
      exact h.emitOp (by decide)
  | .var _ _ => by
      rw [lowerExpr]
      exact h.variableRead
  | .declare _ _ _ => by
      rw [lowerExpr]
      exact h.declaration
  | .typed _ _ _ => by
      rw [lowerExpr]
      exact h.andThen h.report (h.emitOp (by decide))
  | .list items _ => by
      rw [lowerExpr]
      refine h.andThen (h.each items) ?_
      split
      · exact h.emit rfl
      · exact h.fail
  | .binary o left right _ => by
      rw [lowerExpr]
      exact h.andThen (h.expr left) (h.andThen (h.expr right) (h.emitOp (by cases o <;> decide)))
  | .index left right _ => by
      rw [lowerExpr]
      exact h.andThen (h.expr left) (h.andThen (h.expr right) (h.emitOp (by decide)))
  | .unary o operand _ => by
      rw [lowerExpr]
      exact h.andThen (h.expr operand) (h.emitOp (by cases o <;> decide))
  | .assign _ value _ => by
      rw [lowerExpr]
      exact h.andThen (h.expr value) h.storeInto
  | .call _ args _ => h.call (h.backward args) (h.args args)

/-- The expressions of a list are lowered from the first one on. -/
theorem each (h : Declarative C) : ∀ es, C (lowerEach es)
  | [] => by
      rw [lowerEach]
      exact h.pure
  | e :: rest => by
      rw [lowerEach]
      exact h.andThen (h.expr e) (h.each rest)

/-- The expressions of a list are lowered from the last one on. -/
theorem backward (h : Declarative C) : ∀ es, C (lowerBackward es)
  | [] => by
      rw [lowerBackward]
      exact h.pure
  | e :: rest => by
      rw [lowerBackward]
      exact h.andThen (h.backward rest) (h.expr e)

/-- The arguments of a call are lowered from the last one on, each checked against its parameter. -/
theorem args (h : Declarative C) : ∀ es ps, C (lowerArgs es ps)
  | [], _ => by
      rw [lowerArgs]
      exact h.pure
  | e :: rest, ps => by
      rw [lowerArgs]
      refine h.bind (h.args rest ps.tail) fun fits => ?_
      cases fits with
      | false => exact h.pure
      | true =>
          refine h.andThen (h.expr e) ?_
          cases ps.head? with
          | none => exact h.pure
          | some q =>
              simp only
              split
              · exact h.andThen (h.emitOp (by decide)) h.enforce
              · exact h.enforce

end

/-! ### Statements -/

section

variable (h : Declarative C)

include h

/-- A value is checked against the return type and returned. -/
theorem returnStmt {span : Span} : ∀ value, C (lowerStmt (.ret value span))
  | none => by
      rw [lowerStmt]
      exact h.undefReturn
  | some value => by
      rw [lowerStmt]
      exact h.andThen (h.expr value) <| h.bind h.returnType fun _ => h.andThen h.enforce <|
        h.emitOp (by decide)

/-- The value of the expression, if there is one, is dropped. -/
theorem effect : ∀ e, C (lowerEffect e)
  | none => h.pure
  | some e => h.andThen (h.expr e) (h.emitOp (by decide))

/-- The condition, if there is one, decides whether to go on. -/
theorem guard {done : Label} : ∀ e, C (lowerGuard done e)
  | none => h.pure
  | some e => h.andThen (h.expr e) (h.emit rfl)

end

end Declarative

namespace Compositional

variable {D : ∀ {α : Type}, Lower α → Prop} (h : Compositional D)

include h

/-- What is compositional encloses itself. -/
theorem self : Enclosing D D := ⟨h.toSequential, h, h.inScope⟩

/-- The parameters are bound one after the other. -/
theorem params : ∀ ps, D (bindParams ps)
  | [] => h.pure
  | _ :: ps => h.andThen h.bindArgument (params ps)

/-- What is emitted within the frame of a subroutine. -/
theorem subBody {head : SubHead} {body : List Stmt} {params : List SubParam}
    (hbody : D (lowerBody head.returnType body)) : D (do
      bindParams params
      if ← lowerBody head.returnType body then
        Lower.emitOp .loadUndefined
        Lower.emitOp .ret
      else
        emitUndefReturn head.span) := by
  refine h.andThen (h.params params) (h.bind hbody fun ends => ?_)
  cases ends with
  | true => exact h.andThen (h.emitOp (by decide)) (h.emitOp (by decide))
  | false => exact h.undefReturn

end Compositional

namespace Enclosing

/-! ### Statements in scopes of their own -/

section

variable {C D : ∀ {α : Type}, Lower α → Prop} (h : Enclosing C D)

include h

/-- A bare block is a scope of its own. -/
theorem block {body : List Stmt} (hbody : D (lowerStmts body)) : C (lowerStmt (.block body)) := by
  rw [lowerStmt]
  exact h.inScope hbody

/-- The condition of a `while` stands in the scope of its body. -/
theorem whileLoop {condition : Expr} {body : List Stmt} (hbody : D (lowerStmts body)) :
    C (lowerStmt (.whileLoop condition body)) := by
  have hD := h.inner
  rw [lowerStmt]
  exact h.steps.bind h.steps.newLabel fun done => h.steps.bind h.steps.newMarkedLabel fun top =>
    h.inScope <| hD.andThen (hD.expr condition) <| hD.andThen (hD.emit rfl) <| hD.andThen hbody <|
    hD.andThen (hD.emit rfl) hD.mark

/-- The header of a counted loop stands in a scope around that of its body. -/
theorem loop {init condition step : Option Expr} {body : List Stmt} (hbody : D (lowerStmts body)) :
    C (lowerStmt (.loop init condition step body)) := by
  have hD := h.inner
  rw [lowerStmt_loop]
  exact h.steps.bind h.steps.newLabel fun done => h.steps.bind h.steps.newLabel fun next => h.inScope <|
    hD.andThen (hD.effect init) <| hD.bind hD.newMarkedLabel fun top => hD.andThen (hD.guard condition) <|
    hD.andThen (hD.inScope hbody) <| hD.andThen hD.mark <| hD.andThen (hD.effect step) <|
    hD.andThen (hD.emit rfl) hD.mark

/-- A subroutine is jumped over; its parameters and its body stand in a scope of their own. -/
theorem sub {head : SubHead} {body : List Stmt} (hbody : D (lowerBody head.returnType body)) :
    C (lowerStmt (.sub head body)) := by
  have hC := h.steps
  have hD := h.inner
  rw [lowerStmt]
  cases head.params.mapM Param.resolve with
  | error problem => exact hC.report
  | ok params =>
      refine hC.bind hC.mention fun s => ?_
      simp only
      split
      · exact hC.report
      refine hC.andThen hC.setSub <| hC.bind hC.slotCount fun _ => hC.bind hC.slotCount fun _ =>
        hC.bind hC.newLabel fun skip => hC.andThen (h.inScope ?_) <| hC.andThen hC.mark
          (hC.traits head.traits)
      refine hD.andThen (hD.emit rfl) <| hD.andThen hD.mark <| hD.andThen (hD.emit rfl) ?_
      split
      · exact hD.andThen hD.bindArgument (hD.subBody hbody)
      · exact hD.subBody hbody

/-- A package has a scope of its own, and the package around is the current one behind it. -/
theorem package {kind : PackageKind} {name : String} {body : List Stmt} (hbody : D (lowerStmts body)) :
    C (lowerStmt (.package kind name body)) := by
  have hC := h.steps
  rw [lowerStmt]
  refine hC.bind hC.enterPath fun child => ?_
  have hinner : C (Lower.inPackage child (Lower.inScope .block (lowerStmts body))) :=
    hC.inPackage (h.inScope hbody)
  cases kind with
  | package => exact hinner
  | module => exact hC.bind (hC.view fun _ hp _ => by rw [hp]) fun _ => hC.andThen hC.addModule hinner

end

/-! ### All statements -/

mutual

/-- **What holds of the single steps holds of lowering a statement.** -/
theorem stmt {C D : ∀ {α : Type}, Lower α → Prop} (h : Enclosing C D) (hC : Declarative C) :
    ∀ s, C (lowerStmt s)
  | .expr e => by
      rw [lowerStmt]
      exact hC.andThen (hC.expr e) (hC.emitOp (by decide))
  | .block body => h.block (h.inner.self.stmts h.inner.toDeclarative body)
  | .sub _ body => h.sub (h.inner.self.body h.inner.toDeclarative body)
  | .ret value _ => hC.returnStmt value
  | .cond condition body elsifs otherwise => by
      rw [lowerStmt_cond]
      refine hC.bind hC.newLabel fun done => hC.bind hC.newLabel fun next =>
        hC.andThen (hC.expr condition) <| hC.andThen (hC.emit rfl) <|
        hC.andThen (h.inScope (h.inner.self.stmts h.inner.toDeclarative body)) <|
        hC.andThen (hC.emit rfl) <| hC.andThen hC.mark <| hC.andThen (h.branches hC elsifs) <|
        hC.andThen ?_ hC.mark
      exact match otherwise with
        | none => hC.pure
        | some body => h.inScope (h.inner.self.stmts h.inner.toDeclarative body)
  | .whileLoop _ body => h.whileLoop (h.inner.self.stmts h.inner.toDeclarative body)
  | .loop _ _ _ body => h.loop (h.inner.self.stmts h.inner.toDeclarative body)
  | .forEach name iterable body => by
      have hD := h.inner
      rw [lowerStmt]
      exact hC.bind hC.alloc fun index => hC.bind hC.alloc fun item => hC.bind hC.newLabel fun done =>
        hC.bind hC.newLabel fun top => hC.andThen (hC.emit rfl) <| hC.andThen (hC.emit rfl) <|
        hC.andThen (hC.expr iterable) <| hC.andThen (hC.emitOp (by decide)) <| hC.andThen (hC.emit rfl) <|
        h.inScope <| hD.andThen hD.bindSlot <| hD.andThen hD.mark <| hD.andThen (hD.emit rfl) <|
        hD.andThen (hD.emit rfl) <| hD.andThen (hD.emit rfl) <| hD.andThen (hD.emit rfl) <|
        hD.andThen (hD.emit rfl) <| hD.andThen (hD.emitOp (by decide)) <| hD.andThen (hD.emit rfl) <|
        hD.andThen (hD.self.stmts hD.toDeclarative body) <| hD.andThen hD.increment <|
        hD.andThen (hD.emit rfl) <| hD.andThen hD.mark <| hD.andThen (hD.emitOp (by decide)) <|
        hD.emitOp (by decide)
  | .use _ => by
      rw [lowerStmt]
      exact hC.addDependency
  | .package _ _ body => h.package (h.inner.self.stmts h.inner.toDeclarative body)
termination_by structural s => s

/-- The statements of a list are lowered one after the other. -/
theorem stmts {C D : ∀ {α : Type}, Lower α → Prop} (h : Enclosing C D) (hC : Declarative C) :
    ∀ body, C (lowerStmts body)
  | [] => by
      rw [lowerStmts]
      exact hC.pure
  | s :: rest => by
      rw [lowerStmts]
      exact hC.andThen (h.stmt hC s) (h.stmts hC rest)
termination_by structural body => body

/-- The branches are tried one after the other, each body in a scope of its own. -/
theorem branches {C D : ∀ {α : Type}, Lower α → Prop} (h : Enclosing C D) (hC : Declarative C)
    {done : Label} : ∀ elsifs, C (lowerBranches done elsifs)
  | [] => by
      rw [lowerBranches]
      exact hC.pure
  | (condition, body) :: rest => by
      rw [lowerBranches]
      exact hC.bind hC.newLabel fun next => hC.andThen (hC.expr condition) <| hC.andThen (hC.emit rfl) <|
        hC.andThen (h.inScope (h.inner.self.stmts h.inner.toDeclarative body)) <|
        hC.andThen (hC.emit rfl) <| hC.andThen hC.mark <| h.branches hC rest
termination_by structural elsifs => elsifs

/-- The statements of a body; an expression or a `return` at its end gives the value. -/
theorem body {C D : ∀ {α : Type}, Lower α → Prop} (h : Enclosing C D) (hC : Declarative C)
    {type : ValueType} : ∀ body, C (lowerBody type body)
  | [] => by
      rw [lowerBody]
      exact hC.pure
  | s :: rest => by
      unfold lowerBody
      split
      · exact hC.pure
      · rename_i e heq
        cases heq
        exact hC.andThen (hC.expr e) <| hC.andThen hC.enforce <| hC.andThen (hC.emitOp (by decide)) hC.pure
      · rename_i heq
        cases heq
        exact hC.andThen (hC.returnStmt _) hC.pure
      · rename_i heq
        cases heq
        exact hC.andThen (h.stmt hC s) (h.body hC rest)
termination_by structural body => body

end

/-- A statement all of whose variables are declared in scopes of its own has what such scopes have. -/
theorem enclosed {C D : ∀ {α : Type}, Lower α → Prop} (h : Enclosing C D) {s : Stmt}
    (hs : s.enclosed = true) : C (lowerStmt s) := by
  have hstmts (body : List Stmt) : D (lowerStmts body) := h.inner.self.stmts h.inner.toDeclarative body
  cases s with
  | block body => exact h.block (hstmts body)
  | whileLoop _ body => exact h.whileLoop (hstmts body)
  | loop _ _ _ body => exact h.loop (hstmts body)
  | sub _ body => exact h.sub (h.inner.self.body h.inner.toDeclarative body)
  | package _ _ body => exact h.package (hstmts body)
  | _ => cases hs

end Enclosing

/-! ### Declarations ahead of the code -/

namespace Sequential

variable {C : ∀ {α : Type}, Lower α → Prop}

/-- One change after another. -/
theorem update_comp (h : Sequential C) {f g : Session → Session} (hf : C (Step.update f))
    (hg : C (Step.update g)) : C (Step.update fun σ => g (f σ)) :=
  h.andThen hf hg

/-- A subroutine is mentioned ahead of the code, and described where it was not before. -/
theorem declareSub (h : Sequential C) {id : PackageId} {head : SubHead} {body : List Stmt} :
    C (Step.update (·.declareSub id head body)) := by
  -- The subroutine is mentioned, and then described if it was not before.
  have hmention := @mentionIn _ h id head.name
  cases hparams : head.params.mapM Param.resolve with
  | error e =>
      have heq : (Step.update (·.declareSub id head body) : Lower Unit) = (do
          let _ ← fun σ : Session => (.ok (σ.packages.mention id head.name σ.draft).1, { σ with
            packages := (σ.packages.mention id head.name σ.draft).2.1
            draft := (σ.packages.mention id head.name σ.draft).2.2 })
          Pure.pure ()) := by
        funext σ
        simp only [Step.update, Session.declareSub, hparams]
        rfl
      rw [heq]
      exact h.andThen hmention h.pure
  | ok params =>
      have heq : (Step.update (·.declareSub id head body) : Lower Unit) = (do
          let sub ← fun σ : Session => (.ok (σ.packages.mention id head.name σ.draft).1, { σ with
            packages := (σ.packages.mention id head.name σ.draft).2.1
            draft := (σ.packages.mention id head.name σ.draft).2.2 })
          if sub.declared then Pure.pure () else
            Step.update fun σ => { σ with packages := σ.packages.setSub id head.name { sub with
              declared := true, params, returnType := head.returnType
              usesArgList := mentionsArgList body } }) := by
        funext σ
        simp only [Step.update, Session.declareSub, hparams]
        show _ = (if (σ.packages.mention id head.name σ.draft).1.declared = true then _ else _ :
          Lower Unit) _
        split <;> rfl
      rw [heq]
      refine h.bind hmention fun sub => ?_
      split
      · exact h.pure
      · exact h.onPackages (f := fun t => t.setSub id head.name _)

mutual

/-- What a statement declares is declared ahead of the code. -/
theorem declareStmt (h : Sequential C) (id : PackageId) :
    ∀ s, C (Step.update (Session.declareStmt · id s))
  | .sub head body => h.update_comp h.declareSub (h.declareStmts id body)
  | .package kind name body =>
      h.bind (h.view (g := fun σ => (σ.packages.enter id name kind).1) fun _ hp _ => by simp only [hp])
        fun child => h.andThen (h.onPackages (f := fun t => (t.enter id name kind).2))
          (h.declareStmts child body)
  | .block body | .whileLoop _ body | .forEach _ _ body | .loop _ _ _ body => h.declareStmts id body
  | .cond _ body elsifs otherwise => by
      have hbody := h.update_comp (h.declareStmts id body) (h.declareBranches id elsifs)
      exact match otherwise with
        | none => hbody
        | some last => h.update_comp hbody (h.declareStmts id last)
  | .expr _ | .ret _ _ | .use _ => h.pure

theorem declareStmts (h : Sequential C) (id : PackageId) :
    ∀ body, C (Step.update (Session.declareStmts · id body))
  | [] => h.pure
  | s :: rest => h.update_comp (h.declareStmt id s) (h.declareStmts id rest)

theorem declareBranches (h : Sequential C) (id : PackageId) :
    ∀ elsifs, C (Step.update (Session.declareBranches · id elsifs))
  | [] => h.pure
  | (_, body) :: rest => h.update_comp (h.declareStmts id body) (h.declareBranches id rest)

end

end Sequential

/-! ### Programs -/

/-- **What holds of the single steps holds of lowering a program.** -/
theorem Enclosing.program {C D : ∀ {α : Type}, Lower α → Prop} (h : Enclosing C D) {p : Program} :
    C (lowerProgram p) :=
  have hD := h.inner
  h.steps.andThen (h.steps.declareStmts PackageTree.root p.body) <| h.steps.bind h.steps.slotCount fun _ =>
    h.inScope <| hD.andThen (hD.emit rfl) <| hD.andThen (hD.self.stmts hD.toDeclarative p.body)
      (hD.emitOp (by decide))

end Lower

end StackScript
