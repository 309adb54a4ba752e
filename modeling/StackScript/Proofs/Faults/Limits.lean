import StackScript.Proofs.Faults.Steps
import StackScript.Proofs.Units

/-!
# Lowering stops at limits only

Every label that a jump names is promised a place where it is created, and gets it where the statement
ends; a subroutine is promised a place where its declaration is lowered, and those that are declared are
made known before anything is lowered.  So what has been lowered without errors can be finished.

* `Lower.keeps_expr`, `Lower.keeps_stmt`: lowering an expression or a statement stops at a limit, or
  keeps what was promised.
* `Lower.lowerProgram_spec`: so does lowering a program.
* `Program.finish_total`: what has been lowered without errors can be finished.
* `compile_faults`: a program compiles, or it is rejected for the errors in it, or a limit is reached.
-/

namespace StackScript

namespace Lower

open Spec

variable {K : List ScopeKind} {A M : List Label}

/-! ### Expressions -/

/-- Enforcing a type emits a conversion or reports a misfit. -/
theorem keeps_enforce {e : Expr} {type : ValueType} {role : Role} :
    Keeps K A M (enforce e type role) := by
  unfold enforce
  split
  · exact .pure id
  · refine .bind .look fun actual => ?_
    split
    · exact .pure id
    · exact .bind (.emit nofun) fun _ => .pure id
    · exact .bind .report fun _ => .pure id

theorem keeps_increment {slot : Slot} : Keeps K A M (emitIncrement slot) :=
  .bind (.emit nofun) fun _ => .bind (.emit nofun) fun _ => .bind .emitOp fun _ => .emit nofun

/-- A variable is read, or reported and the undefined value loaded. -/
theorem keeps_variable {name : String} {span : Span} : Keeps K A M (lowerVariable name span) := by
  refine .bind .look fun found => ?_
  cases found with
  | some b => exact .emit nofun
  | none => exact .bind .report fun _ => .emitOp

theorem keeps_declaration {name : String} {type : ValueType}
    (hK : ∃ k ∈ K, k.isSubroutine = true) : Keeps K A M (lowerDeclaration name type) :=
  .bind (.declare hK) fun _ => .bind .emitOp fun _ => .bind .emitOp fun _ => .emit nofun

/-- A variable that is declared by an assignment may be one too many, which is a limit. -/
theorem keeps_assignmentTarget {target : Expr} (hK : ∃ k ∈ K, k.isSubroutine = true) :
    Keeps K A M (assignmentTarget? target) := by
  unfold assignmentTarget?
  split
  · refine .bind .look fun found => ?_
    cases found with
    | some b => exact .pure id
    | none => exact .bind .report fun _ => .pure id
  · exact .bind (.declare hK) fun _ => .pure id
  · exact .bind .report fun _ => .pure id

theorem keeps_storeInto {target value : Expr} (hK : ∃ k ∈ K, k.isSubroutine = true) :
    Keeps K A M (storeInto target value) := by
  refine .bind (keeps_assignmentTarget hK) fun found => ?_
  cases found with
  | none => exact .pure id
  | some found =>
      refine .bind keeps_enforce fun ok => ?_
      cases ok with
      | true => exact .bind .emitOp fun _ => .emit nofun
      | false => exact .pure id

/-- A call with too many arguments is reported. -/
theorem keeps_checkedArgc {name : String} {count : Nat} {span : Span} :
    Keeps K A M (checkedArgc? name count span) := by
  unfold checkedArgc?
  split
  · exact .pure id
  · exact .bind .report fun _ => .pure id

theorem keeps_checkpoint {args : List Expr} {span : Span} : Keeps K A M (lowerCheckpoint args span) := by
  unfold lowerCheckpoint
  split
  · refine .bind .look fun on => ?_
    cases on with
    | true => exact .bind (.emit nofun) fun _ => .emitOp
    | false => exact .emitOp
  · exact .report

/-- `last` and `next` jump to labels of a loop around them. -/
theorem keeps_loopControl {name : String} {args : List Expr} {span : Span} :
    Keeps K A M (lowerLoopControl name args span) := by
  unfold lowerLoopControl
  split
  · exact .report
  · refine .bind (Q := fun found σ => Session.Fit K A M σ ∧ ∀ control, found = some control →
      ∀ l ∈ [control.done, control.next], l ∈ A ∨ σ.draft.IsMarked l)
      (.view fun hσ => ⟨hσ, fun control hc => hσ.loops (hσ.kinds ▸ Scopes.loop_mem hc)⟩) fun found => ?_
    cases found with
    | none => exact Spec.report.mono And.left id
    | some control =>
        refine Spec.mono (P := fun σ => Session.Fit K A M σ ∧
          ∀ l ∈ [control.done, control.next], l ∈ A ∨ σ.draft.IsMarked l) ?_
          (fun hσ => ⟨hσ.1, hσ.2 control rfl⟩) id
        have hjump {l : Label} (hl : l ∈ [control.done, control.next]) :
            Spec (fun σ => Session.Fit K A M σ ∧
              ∀ l ∈ [control.done, control.next], l ∈ A ∨ σ.draft.IsMarked l)
            (emit (.jump l)) fun _ => Session.Fit K A M :=
          emit_due.mono (fun hσ => ⟨hσ.1, fun l' heq => by
            cases heq
            exact hσ.2 l hl⟩) id
        simp only
        split
        · exact .bind (hjump (by simp)) fun _ => .emitOp
        · split
          · refine .bind (keeps_increment.frame fun hclimbs h l hl => ?_) fun _ =>
              .bind (hjump (by simp)) fun _ => .emitOp
            exact (h l hl).imp_right hclimbs.draft.marked
          · exact .bind (hjump (by simp)) fun _ => .emitOp

mutual

/-- **Lowering an expression stops at limits only.** -/
theorem keeps_expr (hK : ∃ k ∈ K, k.isSubroutine = true) : ∀ e, Keeps K A M (lowerExpr e)
  | .integer _ _ => by
      rw [lowerExpr]
      exact .emit nofun
  | .float _ _ | .str _ _ => by
      rw [lowerExpr]
      exact .emitConstant
  | .bool v _ => by
      rw [lowerExpr]
      exact .emit (by cases v <;> nofun)
  | .undefined _ => by
      rw [lowerExpr]
      exact .emitOp
  | .var _ _ => by
      rw [lowerExpr]
      exact keeps_variable
  | .declare _ _ _ => by
      rw [lowerExpr]
      exact keeps_declaration hK
  | .typed _ _ _ => by
      rw [lowerExpr]
      exact .bind .report fun _ => .emitOp
  | .list items _ => by
      rw [lowerExpr]
      refine .bind (keeps_each hK items) fun _ => ?_
      split
      · exact .emit nofun
      · exact .fail fun _ => rfl
  | .binary _ left right _ | .index left right _ => by
      rw [lowerExpr]
      exact .bind (keeps_expr hK left) fun _ => .bind (keeps_expr hK right) fun _ => .emitOp
  | .unary _ operand _ => by
      rw [lowerExpr]
      exact .bind (keeps_expr hK operand) fun _ => .emitOp
  | .assign _ value _ => by
      rw [lowerExpr]
      exact .bind (keeps_expr hK value) fun _ => keeps_storeInto hK
  | .call name args _ => by
      rw [lowerExpr]
      split
      · exact keeps_loopControl
      split
      · exact keeps_checkpoint
      split
      · refine .bind keeps_checkedArgc fun argc => ?_
        cases argc with
        | none => exact .pure id
        | some argc => exact .bind (keeps_backward hK args) fun _ => .emit nofun
      -- No builtin of this name: either a subroutine of the tree or one of another unit.
      refine .bind .look fun found => ?_
      cases found with
      | none =>
          refine .bind keeps_checkedArgc fun argc => ?_
          cases argc with
          | none => exact .pure id
          | some argc =>
              exact .bind (keeps_backward hK args) fun _ => .bind .recordUse fun _ => .emit nofun
      | some found =>
          refine .bind .look fun absolute => ?_
          simp only
          split
          · exact .report
          refine .bind keeps_checkedArgc fun argc => ?_
          cases argc with
          | none => exact .pure id
          | some argc =>
              refine .bind (keeps_args hK args found.2.params) fun fits => ?_
              cases fits with
              | false => exact .pure id
              | true =>
                  simp only [if_true]
                  split
                  · exact .bind (.emit nofun) fun _ => .bind .recordUse fun _ => .emit nofun
                  · exact .bind .recordUse fun _ => .emit nofun

/-- Expressions from the first one on. -/
theorem keeps_each (hK : ∃ k ∈ K, k.isSubroutine = true) : ∀ es, Keeps K A M (lowerEach es)
  | [] => by
      rw [lowerEach]
      exact .pure id
  | e :: rest => by
      rw [lowerEach]
      exact .bind (keeps_expr hK e) fun _ => keeps_each hK rest

theorem keeps_backward (hK : ∃ k ∈ K, k.isSubroutine = true) : ∀ es, Keeps K A M (lowerBackward es)
  | [] => by
      rw [lowerBackward]
      exact .pure id
  | e :: rest => by
      rw [lowerBackward]
      exact .bind (keeps_backward hK rest) fun _ => keeps_expr hK e

/-- Arguments from the last one on, as far as they fit. -/
theorem keeps_args (hK : ∃ k ∈ K, k.isSubroutine = true) : ∀ es ps, Keeps K A M (lowerArgs es ps)
  | [], _ => by
      rw [lowerArgs]
      exact .pure id
  | e :: rest, ps => by
      rw [lowerArgs]
      refine .bind (keeps_args hK rest ps.tail) fun fits => ?_
      cases fits with
      | false => exact .pure id
      | true =>
          refine .bind (keeps_expr hK e) fun _ => ?_
          cases ps.head? with
          | none => exact .pure id
          | some q =>
              simp only
              split
              · exact .bind .emitOp fun _ => keeps_enforce
              · exact keeps_enforce

end

/-! ### Statements -/

theorem keeps_undefReturn {span : Span} : Keeps K A M (emitUndefReturn span) :=
  .bind .look fun _ => .bind .emitOp fun _ => .bind keeps_enforce fun _ => .emitOp

theorem keeps_return {span : Span} (hK : ∃ k ∈ K, k.isSubroutine = true) :
    ∀ value, Keeps K A M (lowerStmt (.ret value span))
  | none => by
      rw [lowerStmt]
      exact keeps_undefReturn
  | some value => by
      rw [lowerStmt]
      exact .bind (keeps_expr hK value) fun _ => .bind .look fun _ => .bind keeps_enforce fun _ =>
        .emitOp

/-- Parameters are bound directly in the scope of the subroutine. -/
theorem keeps_params {type : ValueType} :
    ∀ ps, Keeps (.subroutine type :: K) A M (bindParams ps)
  | [] => .pure id
  | _ :: ps => .bind .bindArgument fun _ => keeps_params ps

/-- The label of the subroutine that is exported has been marked. -/
theorem keeps_export {head : SubHead} {entry : Label} (hentry : entry ∈ M) :
    Keeps K A M (exportSub head entry) := by
  refine .bind .look fun module => ?_
  cases module with
  | none => exact .report
  | some module =>
      simp only
      split
      · exact .pure id
      refine .bind (Q := fun (position : Option Nat) σ =>
        Session.Fit K A M σ ∧ position.isSome = true)
        (.view fun hσ => ⟨hσ, hσ.marked entry hentry⟩) fun position => ?_
      cases position with
      | none => exact .fail fun hσ => by cases hσ.2
      | some position => exact (Spec.bind .look fun _ => .onInterface).mono And.left id

/-- A subroutine can be exported once its entry is marked. -/
theorem keeps_traits {head : SubHead} {entry : Label} (hentry : entry ∈ M) :
    ∀ names, Keeps K A M (applyTraits head entry names)
  | [] => .pure id
  | name :: rest => by
      unfold applyTraits
      split
      · exact .bind (keeps_export hentry) fun _ => keeps_traits hentry rest
      · exact .bind .report fun _ => keeps_traits hentry rest

theorem keeps_effect (hK : ∃ k ∈ K, k.isSubroutine = true) : ∀ e, Keeps K A M (lowerEffect e)
  | none => .pure id
  | some e => .bind (keeps_expr hK e) fun _ => .emitOp

/-- A condition jumps to a label that is promised a place. -/
theorem keeps_guard {done : Label} (hK : ∃ k ∈ K, k.isSubroutine = true) (hdone : done ∈ A) :
    ∀ e, Keeps K A M (lowerGuard done e)
  | none => .pure id
  | some e => .bind (keeps_expr hK e) fun _ => .emit fun hl => by
      cases hl
      exact .inl hdone

/-- A jump to a label that has been promised a place, or has one. -/
theorem keeps_jump {l : Label} (hl : l ∈ A ∨ l ∈ M) : Keeps K A M (emit (.jump l)) :=
  .emit fun h => by
    cases h
    exact hl

theorem keeps_jumpIfFalse {l : Label} (hl : l ∈ A ∨ l ∈ M) : Keeps K A M (emit (.jumpIfFalse l)) :=
  .emit fun h => by
    cases h
    exact hl

/-- A block of its own in a scope of its own. -/
theorem keeps_block {body : List Stmt} (h : Keeps (.block :: K) A M (lowerStmts body)) :
    Keeps K A M (inScope .block (lowerStmts body)) :=
  .inScope h nofun

/-- A scope inside a subroutine's is still inside the subroutine. -/
theorem inner {kind : ScopeKind} (hK : ∃ k ∈ K, k.isSubroutine = true) :
    ∃ k ∈ kind :: K, k.isSubroutine = true := by
  obtain ⟨k, hk, hsub⟩ := hK
  exact ⟨k, List.mem_cons_of_mem _ hk, hsub⟩

mutual

/-- **Lowering a statement stops at limits only.** -/
theorem keeps_stmt {K : List ScopeKind} {A M : List Label} (hK : ∃ k ∈ K, k.isSubroutine = true) :
    ∀ s, Keeps K A M (lowerStmt s)
  | .expr e => by
      rw [lowerStmt]
      exact .bind (keeps_expr hK e) fun _ => .emitOp
  | .block body => by
      rw [lowerStmt]
      exact keeps_block (keeps_stmts (inner hK) body)
  | .sub head body => by
      rw [lowerStmt]
      cases head.params.mapM Param.resolve with
      | error problem => exact .report
      | ok params =>
          refine .bind .mention fun s => ?_
          simp only
          split
          · exact Spec.report.mono And.left id
          rename_i hm
          refine .bind (.setSub (eq_false_of_ne_true hm) rfl rfl) fun _ => .bind .slotCount fun _ =>
            .bind .slotCount fun _ => .bind .newLabel fun skip => ?_
          have hsub : ∃ k ∈ ScopeKind.subroutine head.returnType :: K, k.isSubroutine = true :=
            ⟨_, List.mem_cons_self, rfl⟩
          refine .bind (.inScope (B := skip :: A) (N := s.label :: M)
            (.bind (keeps_jump (.inl List.mem_cons_self)) fun _ => .bind (Spec.mark.mono
              (fun hσ => hσ.perm (.swap ..)) id) fun _ => .bind (.emit nofun) fun _ => ?_) nofun)
            fun _ => .bind .mark fun _ => Spec.mono (keeps_traits (by simp) head.traits) id
              fun hσ => hσ.forget fun l hl => by simp [hl]
          have hrest : Keeps (.subroutine head.returnType :: K) (skip :: A) (s.label :: M) (do
              bindParams params
              if ← lowerBody head.returnType body then
                emitOp .loadUndefined
                emitOp .ret
              else
                emitUndefReturn head.span) := by
            refine .bind (keeps_params params) fun _ => .bind (keeps_body hsub body) fun ends => ?_
            cases ends with
            | true => exact .bind .emitOp fun _ => .emitOp
            | false => exact keeps_undefReturn
          split
          · exact .bind .bindArgument fun _ => hrest
          · exact hrest
  | .ret value _ => keeps_return hK value
  | .cond condition body elsifs otherwise => by
      rw [lowerStmt_cond]
      refine .bind .newLabel fun done => .bind .newLabel fun next => .bind (keeps_expr hK condition)
        fun _ => .bind (keeps_jumpIfFalse (.inl List.mem_cons_self)) fun _ =>
        .bind (keeps_block (keeps_stmts (inner hK) body)) fun _ =>
        .bind (keeps_jump (.inl (by simp))) fun _ => .bind .mark fun _ =>
        .bind (keeps_branches hK List.mem_cons_self elsifs) fun _ => .bind (Q := fun _ =>
          Session.Fit K (done :: A) (next :: M)) ?_ fun _ =>
        Spec.mark.mono id fun hσ => hσ.forget fun l hl => by simp [hl]
      exact match otherwise with
        | none => .pure id
        | some body => keeps_block (keeps_stmts (inner hK) body)
  | .whileLoop condition body => by
      rw [lowerStmt]
      refine .bind .newLabel fun done => .bind .newMarkedLabel fun top => .inLoop (B := A) (N := M)
        ?_ List.mem_cons_self (.inr List.mem_cons_self)
      exact .bind (keeps_expr (inner hK) condition) fun _ =>
        .bind (keeps_jumpIfFalse (.inl List.mem_cons_self)) fun _ =>
        .bind (keeps_stmts (inner hK) body) fun _ =>
        .bind (keeps_jump (.inr List.mem_cons_self)) fun _ =>
        Spec.mark.mono id fun hσ => hσ.forget fun l hl => by simp [hl]
  | .loop init condition step body => by
      rw [lowerStmt_loop]
      refine .bind .newLabel fun done => .bind .newLabel fun next => .inLoop (B := A) (N := M) ?_
        (List.mem_cons_of_mem _ List.mem_cons_self) (.inl List.mem_cons_self)
      exact .bind (keeps_effect (inner hK) init) fun _ => .bind .newMarkedLabel fun top =>
        .bind (keeps_guard (inner hK) (by simp) condition) fun _ =>
        .bind (keeps_block (keeps_stmts (inner (inner hK)) body)) fun _ => .bind .mark fun _ =>
        .bind (keeps_effect (inner hK) step) fun _ => .bind (keeps_jump (.inr (by simp))) fun _ =>
        Spec.mark.mono id fun hσ => hσ.forget fun l hl => by simp [hl]
  | .forEach name iterable body => by
      rw [lowerStmt]
      refine .bind (.alloc hK) fun index => .bind (.alloc hK) fun item => .bind .newLabel fun done =>
        .bind .newLabel fun top => .bind (.emit nofun) fun _ => .bind (.emit nofun) fun _ =>
        .bind (keeps_expr hK iterable) fun _ => .bind .emitOp fun _ => .bind (.emit nofun) fun _ =>
        .inLoop (B := A) (N := M) ?_ (List.mem_cons_of_mem _ List.mem_cons_self)
          (.inl List.mem_cons_self)
      have hguard : Keeps (.loop (.forEach done top index item) :: K) (done :: A) (top :: M)
          (emit (.jumpIfGreaterOrEqual done)) := .emit fun hl => by
        cases hl
        exact .inl List.mem_cons_self
      exact .bind (.bindSlot nofun) fun _ => .bind .mark fun _ => .bind (.emit nofun) fun _ =>
        .bind (.emit nofun) fun _ => .bind hguard fun _ => .bind (.emit nofun) fun _ =>
        .bind (.emit nofun) fun _ => .bind .emitOp fun _ => .bind (.emit nofun) fun _ =>
        .bind (keeps_stmts (inner hK) body) fun _ => .bind keeps_increment fun _ =>
        .bind (keeps_jump (.inr List.mem_cons_self)) fun _ => .bind .mark fun _ =>
        .bind .emitOp fun _ => Spec.emitOp.mono id fun hσ => hσ.forget fun l hl => by simp [hl]
  | .use _ => by
      rw [lowerStmt]
      exact .onInterface
  | .package kind name body => by
      rw [lowerStmt]
      refine .bind .enterPath fun child => ?_
      have hbody : Keeps K A M (inScope .block (lowerStmts body)) :=
        keeps_block (keeps_stmts (inner hK) body)
      cases kind with
      | package => exact .inPackage hbody
      | module =>
          -- The package stays one of the tree's while the interface is added to.
          exact .bind (.view id) fun _ => .bind (Spec.onInterface.frame fun hclimbs hchild =>
            Nat.lt_of_lt_of_le hchild hclimbs.packages) fun _ => .inPackage hbody
termination_by structural s => s

/-- Statements one after the other. -/
theorem keeps_stmts {K : List ScopeKind} {A M : List Label} (hK : ∃ k ∈ K, k.isSubroutine = true) :
    ∀ body, Keeps K A M (lowerStmts body)
  | [] => by
      rw [lowerStmts]
      exact .pure id
  | s :: rest => by
      rw [lowerStmts]
      exact .bind (keeps_stmt hK s) fun _ => keeps_stmts hK rest
termination_by structural body => body

/-- Branches one after the other; each jumps to the end, which is promised a place. -/
theorem keeps_branches {K : List ScopeKind} {A M : List Label} {done : Label}
    (hK : ∃ k ∈ K, k.isSubroutine = true) (hdone : done ∈ A) :
    ∀ elsifs, Keeps K A M (lowerBranches done elsifs)
  | [] => by
      rw [lowerBranches]
      exact .pure id
  | (condition, body) :: rest => by
      rw [lowerBranches]
      exact .bind .newLabel fun next => .bind (keeps_expr hK condition) fun _ =>
        .bind (keeps_jumpIfFalse (.inl List.mem_cons_self)) fun _ =>
        .bind (keeps_block (keeps_stmts (inner hK) body)) fun _ =>
        .bind (keeps_jump (.inl (List.mem_cons_of_mem _ hdone))) fun _ => .bind .mark fun _ =>
        (keeps_branches hK hdone rest).mono id fun hσ => hσ.forget fun l hl => by simp [hl]
termination_by structural elsifs => elsifs

/-- A body, up to its last statement. -/
theorem keeps_body {K : List ScopeKind} {A M : List Label} {type : ValueType}
    (hK : ∃ k ∈ K, k.isSubroutine = true) : ∀ body, Keeps K A M (lowerBody type body)
  | [] => by
      rw [lowerBody]
      exact .pure id
  | s :: rest => by
      unfold lowerBody
      split
      · exact .pure id
      · rename_i e heq
        cases heq
        exact .bind (keeps_expr hK e) fun _ => .bind keeps_enforce fun _ => .bind .emitOp fun _ =>
          .pure id
      · rename_i heq
        cases heq
        exact .bind (keeps_return hK _) fun _ => .pure id
      · rename_i heq
        cases heq
        exact .bind (keeps_stmt hK s) fun _ => keeps_body hK rest
termination_by structural body => body

end

end Lower

/-! ### Programs -/

namespace Session

/-- Making one subroutine known creates a label for it, or none. -/
theorem declareSub_labelled {s : Session} {id : PackageId} {head : SubHead} {body : List Stmt} :
    s.Climbs (s.declareSub id head body) ∧ ((s.declareSub id head body).Few →
      s.packages.Labelled [] s.draft →
      (s.declareSub id head body).packages.Labelled [] (s.declareSub id head body).draft) := by
  have hmention : s.Climbs { s with
      packages := (s.packages.mention id head.name s.draft).2.1
      draft := (s.packages.mention id head.name s.draft).2.2 } :=
    ⟨.mention, Nat.le_of_eq PackageTree.size_mention.symm⟩
  unfold declareSub
  cases head.params.mapM Param.resolve with
  | error e => exact ⟨hmention, fun hfew h => h.mention nofun hfew⟩
  | ok ps =>
      simp only
      split
      · exact ⟨hmention, fun hfew h => h.mention nofun hfew⟩
      · refine ⟨hmention.trans ⟨.refl, by simp⟩, fun hfew h => ?_⟩
        exact (h.mention nofun hfew).setSub_same (fun hid =>
          PackageTree.sub?_mention_self (PackageTree.size_mention ▸ hid)) rfl rfl

/-- Looking through declarations gives every subroutine an open label of its own. -/
theorem declareStmts_labelled {s : Session} {id : PackageId} {body : List Stmt} :
    s.Climbs (s.declareStmts id body) ∧ ((s.declareStmts id body).Few →
      s.packages.Labelled [] s.draft →
      (s.declareStmts id body).packages.Labelled [] (s.declareStmts id body).draft) :=
  declareStmts_rel (R := fun s s' => s.Climbs s' ∧
      (s'.Few → s.packages.Labelled [] s.draft → s'.packages.Labelled [] s'.draft))
    ⟨.refl, fun _ h => h⟩
    (fun h₁ h₂ => ⟨h₁.1.trans h₂.1, fun hfew h => h₂.2 hfew (h₁.2 (h₂.1.few hfew) h)⟩)
    declareSub_labelled
    ⟨⟨.refl, PackageTree.size_enter⟩, fun _ h =>
      ⟨fun hs => h.waiting (PackageTree.sub?_enter ▸ hs),
        fun hs => h.emitted (PackageTree.sub?_enter ▸ hs),
        fun hs hs' => h.apart (PackageTree.sub?_enter ▸ hs) (PackageTree.sub?_enter ▸ hs')⟩⟩ body s id

end Session

variable {p : Program} {name : String} {options : CompileOptions}

/-- **Lowering a program stops at limits only**, and when it ends all labels that were promised places
have them. -/
theorem Lower.lowerProgram_spec :
    Spec (fun σ => σ = Session.start name options) (lowerProgram p) fun _ => Session.Fit [] [] [] := by
  refine .bind (Q := fun _ => Session.Fit [] [] []) (.total (g := fun _ => ())
    (fun σ => Session.declareStmts_labelled.1) ?_) fun _ =>
    .bind .slotCount fun _ => .inScope (.bind (.emit nofun) fun _ =>
      .bind (keeps_stmts ⟨_, List.mem_cons_self, rfl⟩ p.body) fun _ => .emitOp) nofun
  rintro _ rfl hfew
  have hknows : (Session.start name options).Knows
    ((Session.start name options).declareStmts PackageTree.root p.body) := Session.declareStmts_knows
  obtain ⟨⟨hclosed, hhome⟩, hknown⟩ := @Program.entry_known p name options
  refine ⟨by rw [hknows.scopes]; rfl, ⟨hclosed, hhome⟩, nofun, .nil, nofun,
    Session.declareStmts_labelled.2 hfew ?_, nofun, fun i hi => ?_⟩
  · exact ⟨fun hs => (nomatch Session.sub?_start.symm.trans hs),
      fun hs => (nomatch Session.sub?_start.symm.trans hs),
      fun hs => (nomatch Session.sub?_start.symm.trans hs)⟩
  · rw [hknows.code] at hi
    simp [Session.start] at hi

/-! ### Finishing -/

namespace Program

/-- **The label of a call is marked** when a program has been lowered without errors: it is that of a
subroutine that is declared, and then emitted. -/
theorem call_marked {σ : Session} {l : Label} {argc : UInt8}
    (hl : Lowers (.stmts p.body) true (p.entry name options) σ) (hcount : σ.report.count = 0)
    (h : ∃ i ∈ σ.draft.chunk.instructions, i.operand = some (.call (.label l) argc)) :
    σ.draft.IsMarked l := by
  have hentry : ¬ ∃ i ∈ (p.entry name options).draft.chunk.instructions,
      i.operand = some (.call (.label l) argc) := by
    have hcode : ((Session.start name options).declareStmts PackageTree.root p.body).draft.chunk = {} :=
      Session.declareStmts_knows.code
    simp [entry, Draft.emit, Chunk.emit, hcode, Instruction.pushFrame]
  obtain ⟨q, e, τ, τ', m, υ, υ', hv, hmakes, hnot, j, hj, ho⟩ :=
    hl.exists_change (A := fun σ => ∃ i ∈ σ.draft.chunk.instructions,
      i.operand = some (.call (.label l) argc)) hentry h
  obtain ⟨-, -, -, -, hdoes, -⟩ := id hmakes
  -- The move that brought the instruction about emitted it.
  obtain rfl : m = .emit j := by
    cases m with
    | emit i =>
        have hυ' := Move.acts_emit.mp hdoes
        rw [hυ'] at hj
        rcases Array.mem_push.mp hj with hj | rfl
        · exact absurd ⟨j, hj, ho⟩ hnot
        · rfl
    | constant v =>
        obtain ⟨d, hd, rfl⟩ := Move.acts_constant.mp hdoes
        obtain ⟨index, c, hc, rfl⟩ := Draft.emitConstant_eq_ok.mp hd
        rcases Array.mem_push.mp hj with hj | rfl
        · rw [(Chunk.addConstant_ok hc).1] at hj
          exact absurd ⟨j, hj, ho⟩ hnot
        · cases ho
    | _ =>
        rw [hdoes.chunk_eq rfl] at hj
        exact absurd ⟨j, hj, ho⟩ hnot
  have hcallee : (Move.emit j).callee? = some true := by
    obtain ⟨op, operand⟩ := j
    obtain rfl : operand = some (.call (.label l) argc) := ho
    rfl
  obtain ⟨x, args, s, owner, sub, σ₁, σ₂, rfl, hrun, hm, -⟩ := hmakes.call hcallee
  obtain rfl : l = sub.label := by
    rcases hm with hm | hm
    · cases hm
    · rw [Move.emit.inj hm] at ho
      cases ho
      rfl
  obtain ⟨hsub, hdeclared⟩ := PackageTree.sub?_of_resolveSub? hrun.means
  obtain ⟨head, body, f, ρ, ρ', -, -, -, -, hoffset⟩ :=
    exists_emitted hl hcount ⟨σ, hl, hv⟩ hsub hdeclared
  rw [Draft.IsMarked, hoffset .refl]
  rfl

end Program

/-- A fold comes to its end if each step does. -/
theorem foldlM_total {α β ε : Type} {f : β → α → Except ε β} {l : List α}
    (h : ∀ a ∈ l, ∀ b, ∃ c, f b a = .ok c) : ∀ b, ∃ c, l.foldlM f b = .ok c := by
  induction l with
  | nil => exact fun b => ⟨b, rfl⟩
  | cons a l ih =>
      intro b
      obtain ⟨c, hc⟩ := h a List.mem_cons_self b
      rw [List.foldlM_cons, hc]
      exact ih (fun a ha => h a (List.mem_cons_of_mem _ ha)) c

/-- Code can be finished if all its labels are marked. -/
theorem Draft.finish_total {d : Draft}
    (hjumps : ∀ i ∈ d.chunk.instructions, ∀ {l}, i.label? = some l → d.IsMarked l)
    (hcalls : ∀ i ∈ d.chunk.instructions, ∀ {l argc}, i.operand = some (.call (.label l) argc) →
      d.IsMarked l) : ∃ c, d.finish = .ok c := by
  refine finish_ok_iff.mpr fun i hi l hl => ?_
  have hmarked : d.IsMarked l := by
    unfold Instruction.reference? at hl
    split at hl
    · rename_i heq
      obtain rfl := Option.some.inj hl
      exact hjumps i hi (by rw [Instruction.label?, heq])
    · rename_i heq
      obtain rfl := Option.some.inj hl
      exact hcalls i hi heq
    · cases hl
  exact Option.isSome_iff_ne_none.mp hmarked

/-- The subroutines that have been emitted can be listed. -/
theorem Session.entryPoints_total {σ : Session} (h : σ.packages.Labelled [] σ.draft) :
    ∃ table, σ.entryPoints = .ok table := by
  unfold entryPoints
  refine foldlM_total (fun ⟨id, sub⟩ he table => ?_) ∅
  obtain ⟨he, hm⟩ := List.mem_filter.mp he
  obtain ⟨x, hx⟩ := PackageTree.mem_subroutines he
  obtain ⟨offset, ho⟩ := Option.isSome_iff_exists.mp ((h.emitted hx hm).resolve_left nofun)
  simp only [ho]
  exact ⟨_, rfl⟩

/-- **What has been lowered without errors can be finished.** -/
theorem Program.finish_total {σ : Session}
    (hl : Lowers (.stmts p.body) true (p.entry name options) σ) (hcount : σ.report.count = 0)
    (hfit : Session.Fit [] [] [] σ.halted) : ∃ u, σ.halted.finish = .ok u := by
  obtain ⟨table, htable⟩ := Session.entryPoints_total hfit.subs
  obtain ⟨c, hc⟩ : ∃ c, σ.halted.draft.finish = .ok c := by
    refine Draft.finish_total (fun i hi {l} hil => ?_) fun i hi {l argc} ho => ?_
    · exact (hfit.jumps i hi hil).resolve_left nofun
    · have hgrow : σ.draft.Grows σ.halted.draft := .emit
      refine hgrow.marked (call_marked hl hcount ⟨i, ?_, ho⟩)
      rcases Array.mem_push.mp hi with hi | rfl
      · exact hi
      · cases ho
  have hempty : σ.halted.report.isEmpty = true := Report.isEmpty_iff.mpr hcount
  unfold Session.finish
  rw [if_pos hempty, htable, hc]
  exact ⟨_, rfl⟩

/-! ### Compiling -/

/-- There are three limits. -/
theorem Fault.isLimit_iff {f : Fault} :
    f.isLimit = true ↔ f = .tooManyLocals ∨ f = .tooManyConstants ∨ f = .listTooLong := by
  cases f <;> simp [isLimit]

/-- Where lowering stops, a limit has been reached. -/
theorem Program.stops_at_limit {f : Fault} {σ : Session}
    (hlabels : p.labelCount name options < UInt32.size)
    (h : (Lower.lowerProgram p).run (Session.start name options) = (.error f, σ)) :
    f.isLimit = true := by
  refine Lower.lowerProgram_spec.stops h rfl ?_
  rw [labelCount, h] at hlabels
  exact Nat.le_of_lt hlabels

/-- Where lowering ends and no errors have been found, the program compiles. -/
theorem Program.finishes {σ : Session} (hlabels : p.labelCount name options < UInt32.size)
    (h : (Lower.lowerProgram p).run (Session.start name options) = (.ok (), σ))
    (hcount : σ.report.count = 0) : ∃ u, σ.finish = .ok u := by
  have hfit : Session.Fit [] [] [] σ := by
    refine Lower.lowerProgram_spec.ends h rfl ?_
    rw [labelCount, h] at hlabels
    exact Nat.le_of_lt hlabels
  obtain ⟨-, τ, hl, rfl⟩ := lowerProgram_eq_ok.mp h
  exact finish_total (Lowers.stmts_iff.mpr ⟨hl, rfl⟩) hcount hfit

/-- A session in which errors have been found is rejected with those errors. -/
theorem Session.finish_rejected {σ : Session} (h : 0 < σ.report.count) :
    σ.finish = .error (.rejected σ.report.items) := by
  rw [finish, if_neg fun hempty => Nat.ne_of_gt h (Report.isEmpty_iff.mp hempty)]

/-- **Only limits are faults.**  As long as labels have numbers of their own, lowering a program stops
for one of three reasons only: there are too many locals, too many constants, or too many items in a
list.  No error in the script stops it.  If it ends, the program is rejected with the errors that were
found, or compiles if there were none. -/
theorem compile_faults (hlabels : p.labelCount name options < UInt32.size) :
    (∀ f, compile name options p = .error (.fault f) ↔
      ∃ σ, (Lower.lowerProgram p).run (Session.start name options) = (.error f, σ)) ∧
    (∀ f σ, (Lower.lowerProgram p).run (Session.start name options) = (.error f, σ) →
      f = .tooManyLocals ∨ f = .tooManyConstants ∨ f = .listTooLong) ∧
    (∀ ds, compile name options p = .error (.rejected ds) ↔
      ∃ σ, (Lower.lowerProgram p).run (Session.start name options) = (.ok (), σ) ∧
        0 < σ.report.count ∧ ds = σ.report.items) ∧
    ((∃ u, compile name options p = .ok u) ↔
      ∃ σ, (Lower.lowerProgram p).run (Session.start name options) = (.ok (), σ) ∧
        σ.report.count = 0) := by
  refine and_left_comm.mp ⟨fun f σ h => Fault.isLimit_iff.mp (Program.stops_at_limit hlabels h), ?_⟩
  rcases hrun : (Lower.lowerProgram p).run (Session.start name options) with ⟨f | ⟨⟨⟩⟩, σ⟩
  · have hc : compile name options p = .error (.fault f) := by rw [compile, hrun]
    simp [hc]
  · have hc : compile name options p = σ.finish := by rw [compile, hrun]
    rcases Nat.eq_zero_or_pos σ.report.count with hcount | hcount
    · obtain ⟨u, hu⟩ := Program.finishes hlabels hrun hcount
      simp [hc, hu, hcount]
    · have hne : σ.report.count ≠ 0 := Nat.ne_of_gt hcount
      simp [hc, Session.finish_rejected hcount, hcount, hne, @eq_comm (List Diagnostic)]

/-- A call that comes before the declaration, a loop that is left, and four errors: a name that is not
declared, a subroutine declared twice, a parameter that is no variable, and `last` outside of a loop. -/
def mistaken : Program where
  body := [
    .expr (.call "twice" [.var "$unknown" {}] {}),
    .sub { name := "twice", params := [⟨.var "$x" {}, false⟩] } [
      .whileLoop (.var "$x" {}) [.expr (.call "last" [] {})]],
    .sub { name := "twice", params := [] } [],
    .sub { name := "odd", params := [⟨.integer 1 {}, false⟩] } [],
    .expr (.call "last" [] {})]

/-- Four errors are found in `mistaken`, and none of them stops the lowering. -/
theorem compile_faults_mistaken : mistaken.labelCount "main" {} < UInt32.size ∧
    ∃ ds, compile "main" {} mistaken = .error (.rejected ds) ∧ ds.length = 4 ∧
      ∃ σ, (Lower.lowerProgram mistaken).run (Session.start "main" {}) = (.ok (), σ) ∧
        0 < σ.report.count ∧ ds = σ.report.items := by
  have hlabels : mistaken.labelCount "main" {} < UInt32.size := by decide +kernel
  have hrejected : (match compile "main" {} mistaken with
      | .error (.rejected ds) => some ds.length
      | _ => none) = some 4 := by decide +kernel
  split at hrejected
  · rename_i ds hc
    obtain ⟨-, -, hiff, -⟩ := compile_faults hlabels
    exact ⟨hlabels, ds, hc, Option.some.inj hrejected, (hiff ds).mp hc⟩
  · cases hrejected

end StackScript
