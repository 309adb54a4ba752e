import StackScript.Proofs.Stack.Places

/-!
# The operand-stack discipline

In the code of a program that compiles, and whose loop control stands where statements stand, the
operand stack has one depth at each place, whichever way control gets there.

* `Unfolds.plain`: in such a program the operands of an expression are free of loop control.
* `Program.sound`: every place of the code is sound.
* `compile_stack_discipline`: paths from the start of a routine arrive at every instruction with the
  depth of the place and find there what the instruction takes.
-/

namespace StackScript

open Move

/-! ### Loop control in expressions -/

namespace Expr

mutual

/-- No `last` or `next` is called in the expression. -/
def plain : Expr → Bool
  | .call name args _ => name != "last" && name != "next" && allPlain args
  | .typed _ pattern _ => pattern.plain
  | .list items _ => allPlain items
  | .binary _ left right _ => left.plain && right.plain
  | .unary _ operand _ => operand.plain
  | .assign target value _ => target.plain && value.plain
  | .index target position _ => target.plain && position.plain
  | .integer _ _ | .float _ _ | .str _ _ | .bool _ _ | .undefined _ | .var _ _ | .declare _ _ _ =>
    true

/-- No `last` or `next` is called in one of the expressions. -/
def allPlain : List Expr → Bool
  | [] => true
  | e :: rest => e.plain && allPlain rest

end

/-- The expression is a call of `last` or `next`. -/
def isLoopControl : Expr → Bool
  | .call name args _ => (name == "last" || name == "next") && allPlain args
  | _ => false

end Expr

namespace Stmt

mutual

/-- Every call of `last` or `next` is the whole expression of an expression statement. -/
def steady : Stmt → Bool
  | .expr e => e.plain || e.isLoopControl
  | .ret value _ => value.all (·.plain)
  | .block body | .sub _ body | .package _ _ body => allSteady body
  | .cond condition body elsifs otherwise =>
    condition.plain && allSteady body && branchesSteady elsifs &&
      match otherwise with
      | none => true
      | some body => allSteady body
  | .whileLoop condition body => condition.plain && allSteady body
  | .forEach _ iterable body => iterable.plain && allSteady body
  | .loop init condition step body =>
    init.all (·.plain) && condition.all (·.plain) && step.all (·.plain) && allSteady body
  | .use _ => true

/-- All of the statements are steady. -/
def allSteady : List Stmt → Bool
  | [] => true
  | s :: rest => s.steady && allSteady rest

/-- All of the branches are steady, with plain conditions. -/
def branchesSteady : List (Expr × List Stmt) → Bool
  | [] => true
  | (condition, body) :: rest => condition.plain && allSteady body && branchesSteady rest

end

end Stmt

namespace Piece

/-- Every call of `last` or `next` in the piece stands where a statement may stand. -/
def steady : Piece → Bool
  | .expr e => e.plain || e.isLoopControl
  | .each es | .backward es | .args es _ => Expr.allPlain es
  | .stmt s => s.steady
  | .stmts ss | .body _ ss => Stmt.allSteady ss
  | .branches _ elsifs => Stmt.branchesSteady elsifs

/-- The piece is of an expression, and no `last` or `next` is called in it. -/
def plain : Piece → Bool
  | .expr e => e.plain
  | .each es | .backward es | .args es _ => Expr.allPlain es
  | .stmt _ | .stmts _ | .branches _ _ | .body _ _ => false

/-- Where no loop is left at all, none is left in the middle of an expression. -/
theorem steady_of_plain {p : Piece} (h : p.plain = true) : p.steady = true := by
  cases p with
  | expr e => simp_all [plain, steady]
  | each es | backward es | args es ps => exact h
  | stmt s | stmts ss | branches l es | body t ss => cases h

theorem plain_args {name : String} {args : List Expr} {s : Span}
    (h : Piece.steady (.expr (.call name args s)) = true) : Expr.allPlain args = true := by
  simp only [steady, Expr.plain, Expr.isLoopControl, Bool.or_eq_true, Bool.and_eq_true] at h
  exact h.elim And.right And.right

end Piece

/-- The operands of an expression are free of loop control. -/
theorem Unfolds.plain {p : Piece} {ms : List Move} {b : Bool} (hu : Unfolds p ms b)
    (hs : p.steady = true) (hp : p.inExpr = true) : (pieces ms).all Piece.plain = true := by
  cases hu with
  | exprStmt | block | subParameter | subRedeclared | sub | retUndef | ret | cond | whileLoop | loop
  | forEach | use | package | stmtsNil | stmtsCons | branchesNil | branchesCons | bodyNil | bodyExpr
  | bodyRet | bodyCons => cases hp
  | list | unary | binary | index | assignVarUndeclared | assignOther =>
      simp_all [pieces, op, Piece.steady, Piece.plain, Expr.plain, Expr.isLoopControl]
  | assignVar hc | assignVarMismatch hc | assignDeclare hc | assignDeclareMismatch hc =>
      simp_all [pieces, op, hc.pieces, Piece.steady, Piece.plain, Expr.plain, Expr.isLoopControl]
  | builtin | external | callRefused | call =>
      simpa [pieces, Piece.plain] using Piece.plain_args hs
  | argsRefused | eachCons | backwardCons | argsFree =>
      simp_all [pieces, Piece.steady, Piece.plain, Expr.allPlain]
  | argsHeld hc => simp_all [pieces, hc.pieces, Piece.steady, Piece.plain, Expr.allPlain]
  | @checkpoint _ on => cases on <;> rfl
  | @next _ control => cases control <;> rfl
  | _ => rfl

/-- The pieces of a steady piece are steady. -/
theorem Unfolds.steady {p : Piece} {ms : List Move} {b : Bool} (hu : Unfolds p ms b)
    (hs : p.steady = true) : (pieces ms).all Piece.steady = true := by
  cases hp : p.inExpr with
  | true =>
      refine List.all_eq_true.mpr fun q hq => Piece.steady_of_plain ?_
      exact List.all_eq_true.mp (hu.plain hs hp) q hq
  | false =>
      cases hu with
      | ret hc | bodyExpr hc =>
          simp_all [pieces, op, hc.pieces, Piece.steady, Stmt.allSteady, Stmt.steady]
      | sub _ _ hc => simp_all [pieces, hc.pieces, Piece.steady, Stmt.steady]
      | retUndef hr => simp [hr.pieces]
      | @cond _ _ _ rest =>
          cases rest <;> simp_all [pieces, Move.block, Piece.steady, Stmt.steady]
      | @loop init condition step =>
          cases init <;> cases condition <;> cases step <;>
            simp_all [pieces, Move.block, Piece.steady, Stmt.steady]
      | _ =>
          simp_all [pieces, op, Move.block, Move.increment, Piece.steady, Piece.inExpr, Stmt.steady,
            Stmt.allSteady, Stmt.branchesSteady]

section Steady

variable {p q : Piece} {b e : Bool} {k : Nat} {σ σ' τ τ' : Session}

/-- In a steady piece, loops are left only where no operand waits. -/
theorem Waits.steady (h : Waits p b σ σ' k q e τ τ') (hs : p.steady = true) :
    q.steady = true ∧ (q.plain = true ∨ k = 0) := by
  induction h with
  | self => exact ⟨hs, .inr rfl⟩
  | @part k q r e f ms ns τ τ' υ υ' _ hu _ _ _ ih =>
      have hmem : r ∈ pieces (ms ++ .piece r f :: ns) := by simp [pieces]
      refine ⟨List.all_eq_true.mp (hu.steady ih.1) r hmem, ?_⟩
      cases hin : q.inExpr with
      | true => exact .inl (List.all_eq_true.mp (hu.plain ih.1 hin) r hmem)
      | false => exact .inr rfl

end Steady

namespace Program

variable {p : Program} {name : String} {options : CompileOptions} {u : CompiledUnit}

/-- **Every place of the code is sound** if no operands are waiting where loops are left. -/
theorem sound {t n : Nat} (h : compile name options p = .ok u)
    (hlabels : p.labelCount name options < UInt32.size) (hs : Stmt.allSteady p.body = true)
    (hb : u.chunk.InBody t n) : u.chunk.Sound 0 t n := by
  rcases placed h hlabels hb with hsound | ⟨k, name, s, e, τ, τ', hn, ⟨σ, -, hw⟩, -, hsound⟩
  · exact hsound
  · rcases (hw.steady hs).2 with hplain | rfl
    · rcases hn with rfl | rfl <;> simp [Piece.plain, Expr.plain] at hplain
    · exact hsound

end Program

/-! ### The operand stack of a compiled program -/

/-- **Operand-stack discipline.**  In the unit of a program in which `last` and `next` are
statements, each place has a depth.  A path from the start of the code, or from where the frame of a
subroutine is opened, arrives everywhere with this depth; it finds there an instruction and the
values that this takes, and none at all if the program ends there.  Statements end as deep as they
begin, and expressions one value deeper. -/
theorem compile_stack_discipline {p : Program} {name : String} {options : CompileOptions}
    {u : CompiledUnit} (h : compile name options p = .ok u)
    (hlabels : p.labelCount name options < UInt32.size) (hs : Stmt.allSteady p.body = true) :
    ∃ depth : Nat → Nat,
      (∀ t n k, t = 0 ∨ u.chunk.opens t = true → u.chunk.Path t n k →
        k = depth n ∧ ∃ i, u.chunk.instructions[n]? = some i ∧ i.takes ≤ depth n ∧
          (i.opcode = .halt → depth n = 0) ∧ (i.opcode = .ret → 1 ≤ depth n)) ∧
      (∀ s b τ τ', p.Lowered name options (.stmt s) b τ τ' →
        depth τ'.draft.position = depth τ.draft.position) ∧
      ∀ e b τ τ', p.Lowered name options (.expr e) b τ τ' →
        depth τ'.draft.position = depth τ.draft.position + 1 := by
  have hsound {t n : Nat} (hb : u.chunk.InBody t n) := Program.sound h hlabels hs hb
  refine ⟨u.chunk.depth, fun t n k ht hpath => ?_, fun s b τ τ' hq => ?_, fun e b τ τ' hq => ?_⟩
  · have ho : u.chunk.opens t = true := by
      rcases ht with rfl | ho
      · exact Program.entry_opens h
      · exact ho
    obtain ⟨hb, hk⟩ := hpath.sound (Program.inBody_of_opens h ho) hsound
    obtain ⟨i, hi, htakes, hhalt⟩ := (hsound hb).takes
    have hdepth := (hsound hb).depth_eq hb
    refine ⟨hk, i, hi, by omega, fun hop => ?_, fun hop => ?_⟩
    · have := hhalt hop
      omega
    · have hone : i.takes = 1 := by simp [Instruction.takes, hop]
      omega
  · have := hq.gain h hlabels
    simpa [Piece.gain] using this
  · have := hq.gain h hlabels
    simpa [Piece.gain] using this

/-- A subroutine that looks a value up in its arguments, counts the others and leaves the loop when
it has found it, and a call of it in a loop. -/
def searching : Program where
  body := [
    .sub { name := "find", params := [⟨.var "$wanted" {}, false⟩] } [
      .expr (.assign (.declare "$others" .unknown {}) (.integer 0 {}) {}),
      .forEach "$item" (.var "@_" {}) [
        .cond (.binary .equal (.var "$item" {}) (.var "$wanted" {}) {}) [.expr (.call "last" [] {})]
          [(.unary .not (.var "$item" {}) {}, [.expr (.call "next" [] {})])] none,
        .expr (.assign (.var "$others" {})
          (.binary .add (.var "$others" {}) (.integer 1 {}) {}) {})],
      .ret (some (.var "$others" {})) {}],
    .whileLoop (.bool true {}) [
      .cond (.call "find" [.integer 1 {}, .integer 2 {}] {}) [.expr (.call "last" [] {})] [] none]]

/-- On every path through the code of `searching` the depth of the stack depends on the place alone. -/
theorem compile_stack_discipline_searching :
    ∃ u, ∃ depth : Nat → Nat, compile "searching" {} searching = .ok u ∧
      searching.labelCount "searching" {} < UInt32.size ∧
      Stmt.allSteady searching.body = true ∧
      ∀ n k, u.chunk.Path 0 n k → k = depth n := by
  have hok : (compile "searching" {} searching).isOk = true := by decide +kernel
  have hlabels : searching.labelCount "searching" {} < UInt32.size := by decide +kernel
  have hs : Stmt.allSteady searching.body = true := by decide
  cases h : compile "searching" {} searching with
  | error e => simp [h, Except.isOk, Except.toBool] at hok
  | ok u =>
      obtain ⟨depth, hpath, -⟩ := compile_stack_discipline h hlabels hs
      exact ⟨u, depth, rfl, hlabels, hs, fun n k hk => (hpath 0 n k (.inl rfl) hk).1⟩

end StackScript
