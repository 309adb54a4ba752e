import StackScript.Proofs.Bodies
import StackScript.Proofs.Stack.Height

/-!
# Templates and the operand stack

What a template does to the operand stack, counted from where its piece begins: an expression
leaves one value and a statement none, no instruction takes more than the template has put there,
and jumps arrive with the stack as it is where their labels are marked.  All labels of a template
are marked at one height, its landing: that of the piece, except for a `for`, which keeps two values
on the stack while its body runs.

The pieces of a template stand at known heights as well: inside a loop that the template opens at
the landing, and elsewhere where the template begins, unless the piece is of an expression.  Then
the operands before it are on the stack.

`last` and `next` jump to labels that they look up, those of the loop around them.  How high the
stack is there depends on where they stand.

* `Unfolds.flow`: every template keeps to this.
* `Unfolds.operands`: before a part of an expression its template has lowered operands only.
* `Unfolds.sought`: only `last` and `next` look for a loop.
-/

namespace StackScript

namespace Piece

/-- The piece is an expression, or operands of one. -/
def inExpr : Piece → Bool
  | .expr _ | .each _ | .backward _ | .args _ _ => true
  | .stmt _ | .stmts _ | .branches _ _ | .body _ _ => false

/-- How many values the piece leaves. -/
def gain : Piece → Nat
  | .expr _ => 1
  | .each es | .backward es | .args es _ => es.length
  | .stmt _ | .stmts _ | .branches _ _ | .body _ _ => 0

/-- The labels around the piece that it jumps to from where it begins. -/
def incoming : Piece → List Label
  | .branches done _ => [done]
  | _ => []

/-- The height, counted from where the piece begins, at which the labels of its template are
marked. -/
def landing : Piece → Nat
  | .stmt (.forEach _ _ _) => 2
  | _ => 0

end Piece

/-! ### Moves and the stack -/

namespace Instruction

/-- The label that the instruction may go to. -/
def label? (i : Instruction) : Option Label :=
  match i.operand with
  | some (.label l) => some l
  | _ => none

/-- The label of an instruction is its operand. -/
theorem operand_of_label {i : Instruction} {l : Label} (h : i.label? = some l) :
    i.operand = some (.label l) := by
  unfold label? at h
  split at h
  · rename_i heq
    rw [heq, Option.some.inj h]
  · cases h

end Instruction

namespace Move

/-- The labels that the move marks. -/
def targets : Move → List Label
  | .mark l | .newMarkedLabel l => [l]
  | _ => []

/-- The labels that the move looks up. -/
def sought : Move → List Label
  | .innermost (some control) => [control.done, control.next]
  | _ => []

/-- One of the scopes that a template has opened is a loop. -/
def hasLoop (ks : List ScopeKind) : Bool := ks.any (·.control?.isSome)

/-- The height, counted from where the template begins, and the kinds of the scopes it has opened,
behind the move. -/
def after : Nat × List ScopeKind → Move → Nat × List ScopeKind
  | (h, ks), .emit i => (h - i.takes + i.leaves, ks)
  | (h, ks), .constant _ => (h + 1, ks)
  | (h, ks), .enter kind => (h, kind :: ks)
  | (h, ks), .leave => (h, ks.tail)
  | (h, ks), .piece p _ => (h + p.gain, ks)
  | S, _ => S

/-- A piece stands where the stack is as the loop around it expects it: where `ks` has a loop, at the
landing of the template, and elsewhere where the template begins, unless this is of an
expression. -/
def Lands (inExpr : Bool) (landing h : Nat) (ks : List ScopeKind) : Prop :=
  if hasLoop ks then h = landing else inExpr = false → h = 0

/-- The move is as it should be at this height and in these scopes.  Here `inExpr` says whether the
template is of an expression, `landing` at which height it marks its labels, and `ls` to which
labels it may jump from there. -/
def Fits (inExpr : Bool) (landing : Nat) (ls : List Label) : Nat × List ScopeKind → Move → Prop
  | (h, _), .emit i => i.takes ≤ h ∧ i.opcode ≠ .halt ∧
      (i.branches = true → h - i.takes + i.leaves = landing ∧ ∃ l ∈ ls, i.label? = some l)
  | (h, _), .mark _ | (h, _), .newMarkedLabel _ => h = landing
  | _, .enter (.loop control) => control.done ∈ ls ∧ control.next ∈ ls
  | _, .enter (.subroutine _) => False
  | (_, ks), .leave => ks ≠ []
  | (_, ks), .innermost _ => ks = []
  | (h, ks), .piece p _ => Lands inExpr landing h ks ∧ ∀ l ∈ p.incoming, l ∈ ls ∧ h = landing
  | _, _ => True

/-- Each of the moves is as it should be where it stands. -/
def Flow (inExpr : Bool) (landing : Nat) (ls : List Label) :
    Nat × List ScopeKind → List Move → Prop
  | _, [] => True
  | S, m :: ms => Fits inExpr landing ls S m ∧ Flow inExpr landing ls (after S m) ms

section Parts

variable {inExpr : Bool} {landing h : Nat} {ls : List Label} {ks : List ScopeKind}
  {S : Nat × List ScopeKind}

/-- Moves one after the other are as they should be if the first are, and the others are where those end. -/
theorem flow_append {ms ns : List Move} : Flow inExpr landing ls S (ms ++ ns) ↔
    Flow inExpr landing ls S ms ∧ Flow inExpr landing ls (ms.foldl after S) ns := by
  induction ms generalizing S with
  | nil => simp [Flow]
  | cons m ms ih => simp [Flow, ih, and_assoc]

/-! ### Parts of templates -/

theorem after_effect {e : Option Expr} : (effect e).foldl after S = S := by
  cases e <;> simp [effect, after, op, Piece.gain, Instruction.takes, Instruction.leaves,
    Instruction.bare]

/-- The value of an expression is dropped at once, so the height is as it was. -/
theorem flow_effect {e : Option Expr} (hh : Lands inExpr landing h ks) :
    Flow inExpr landing ls (h, ks) (effect e) := by
  cases e with
  | none => trivial
  | some e =>
      simp [effect, Flow, Fits, after, hh, op, Piece.gain, Piece.incoming, Instruction.takes,
        Instruction.branches, Instruction.bare]

theorem after_guarded {done : Label} {e : Option Expr} : (guarded done e).foldl after S = S := by
  cases e <;> simp [guarded, after, Piece.gain, Instruction.takes, Instruction.leaves,
    Instruction.jumpIfFalse]

/-- A condition is tested at the landing, to which it may jump. -/
theorem flow_guarded {done : Label} {e : Option Expr} (hh : Lands inExpr landing landing ks)
    (hd : done ∈ ls) : Flow inExpr landing ls (landing, ks) (guarded done e) := by
  cases e with
  | none => trivial
  | some e =>
      simp [guarded, Flow, Fits, after, hh, hd, Piece.gain, Piece.incoming, Instruction.takes,
        Instruction.leaves, Instruction.branches, Instruction.jumpIfFalse, Instruction.label?]

theorem after_block {body : List Stmt} : (block body).foldl after S = S := by
  simp [block, after, Piece.gain]

/-- A body in a scope of its own leaves nothing on the stack. -/
theorem flow_block {body : List Stmt} (hh : Lands inExpr landing h ks) :
    Flow inExpr landing ls (h, ks) (block body) := by
  have hh : Lands inExpr landing h (.block :: ks) := hh
  simp [block, Flow, Fits, after, hh, Piece.incoming]

theorem after_otherwise {rest : Option (List Stmt)} : (otherwise rest).foldl after S = S := by
  cases rest with
  | none => rfl
  | some body => exact after_block

theorem flow_otherwise {rest : Option (List Stmt)} (hh : Lands inExpr landing h ks) :
    Flow inExpr landing ls (h, ks) (otherwise rest) := by
  cases rest with
  | none => trivial
  | some body => exact flow_block hh

theorem after_increment {slot : Slot} : (increment slot).foldl after S = S := by
  simp [increment, after, op, Instruction.takes, Instruction.leaves, Instruction.load,
    Instruction.store, Instruction.pushInt, Instruction.bare]

/-- Incrementing a hidden slot takes two places above the stack, and gives them back. -/
theorem flow_increment {slot : Slot} : Flow inExpr landing ls S (increment slot) := by
  simp [increment, Flow, Fits, after, op, Instruction.takes, Instruction.leaves,
    Instruction.branches, Instruction.load, Instruction.store, Instruction.pushInt,
    Instruction.bare]

end Parts

end Move

section Parts

variable {inExpr : Bool} {landing h : Nat} {ls : List Label} {ks : List ScopeKind}

theorem Enforces.after {e : Expr} {type : ValueType} {role : Role} {cs : List Move} {ok : Bool}
    (hc : Enforces e type role cs ok) : cs.foldl Move.after (h + 1, ks) = (h + 1, ks) := by
  cases hc <;> simp [Move.after, Instruction.takes, Instruction.leaves, Instruction.toCompatible]

theorem Enforces.flow {e : Expr} {type : ValueType} {role : Role} {cs : List Move} {ok : Bool}
    (hc : Enforces e type role cs ok) : Move.Flow inExpr landing ls (h + 1, ks) cs := by
  cases hc <;>
    simp [Move.Flow, Move.Fits, Move.after, Instruction.takes, Instruction.branches,
      Instruction.toCompatible]

theorem ReturnsUndef.after {s : Span} {ms : List Move} (hr : ReturnsUndef s ms) :
    ms.foldl Move.after (h, ks) = (h, ks) := by
  obtain ⟨hc⟩ := hr
  simp [Move.after, Move.op, hc.after, Instruction.takes, Instruction.leaves, Instruction.bare]

theorem ReturnsUndef.flow {s : Span} {ms : List Move} (hr : ReturnsUndef s ms) :
    Move.Flow inExpr landing ls (h, ks) ms := by
  obtain ⟨hc⟩ := hr
  simp [Move.Flow, Move.flow_append, Move.Fits, Move.after, Move.op, hc.flow, hc.after,
    Instruction.takes, Instruction.leaves, Instruction.branches, Instruction.bare]

theorem Closes.after {s : Span} {ends : Bool} {ms : List Move} (hc : Closes s ends ms) :
    ms.foldl Move.after (h, ks) = (h, ks) := by
  cases hc with
  | returned =>
      simp [Move.after, Move.op, Instruction.takes, Instruction.leaves, Instruction.bare]
  | fallen hr => exact hr.after

theorem Closes.flow {s : Span} {ends : Bool} {ms : List Move} (hc : Closes s ends ms) :
    Move.Flow inExpr landing ls (h, ks) ms := by
  cases hc with
  | returned =>
      simp [Move.Flow, Move.Fits, Move.after, Move.op, Instruction.takes, Instruction.leaves,
        Instruction.branches, Instruction.bare]
  | fallen hr => exact hr.flow

end Parts

/-- A template leaves what its piece leaves. -/
theorem Unfolds.after {K : Piece → Bool → Session → Session → Prop} {p : Piece} {ms : List Move}
    {b : Bool} {σ σ' : Session} (hu : Unfolds p ms b) (hq : Quiet ms) (ha : Along K ms σ σ')
    (hp : ∀ head body, p ≠ .stmt (.sub head body)) :
    ms.foldl Move.after (0, []) = (p.gain, []) := by
  cases hu with
  | sub | subParameter | subRedeclared => exact absurd rfl (hp _ _)
  | varUndeclared | typed | assignVarUndeclared | assignOther | loopControlArguments | noLoop
  | checkpointArgument | builtinTooMany | externalTooMany | callTooFew | callTooMany
  | callRefused | argsRefused => simp [Quiet, Move.quiet] at hq
  | assignVarMismatch hc | assignDeclareMismatch hc =>
      exact absurd (hc.quiet fun m hm => hq m (by simp [hm])) (by simp)
  | integer | float | str | undefined | var | declare | eachNil | backwardNil | argsNil | stmtsNil
  | branchesNil | bodyNil | use | index | exprStmt | block | stmtsCons | bodyCons | bodyRet
  | whileLoop | last | forEach => rfl
  | eachCons | backwardCons | argsFree => simp [Move.after, Piece.gain, Nat.add_comm]
  | @bool v => cases v <;> rfl
  | @checkpoint _ on => cases on <;> rfl
  | @binary o => cases o <;> rfl
  | @unary o => cases o <;> rfl
  | @next _ control => cases control <;> rfl
  | retUndef hr => exact hr.after
  | @loop init condition step => cases init <;> cases condition <;> cases step <;> rfl
  | branchesCons => rfl
  | @cond _ _ _ rest => cases rest <;> rfl
  | @package kind => cases kind <;> rfl
  | ret hc | bodyExpr hc | assignVar hc | assignDeclare hc =>
      simp [Move.after, Move.op, hc.after, Piece.gain, Instruction.takes, Instruction.leaves,
        Instruction.bare, Instruction.store]
  | @argsHeld _ _ p _ _ _ hc =>
      cases hcopy : p.copy <;>
        simp [Move.after, Move.when, hc.after, Piece.gain, Instruction.takes, Instruction.leaves,
          Instruction.bare]
  -- The number of items is an operand of sixteen bits and that of arguments one of eight; the template
  -- has checked that they fit.
  | @list items =>
      obtain ⟨_, -, _, ⟨hfit, rfl⟩, -⟩ := ha
      have hcount : items.length.toUInt16.toNat = items.length := Nat.mod_eq_of_lt hfit
      simp [Move.after, Piece.gain, Instruction.takes, Instruction.leaves, Instruction.boxArray,
        Instruction.count, hcount]
  | @builtin _ args _ _ _ hfit | @external _ args _ _ hfit =>
      have hcount : args.length.toUInt8.toNat = args.length := Nat.mod_eq_of_lt hfit
      simp [Move.after, Piece.gain, Instruction.takes, Instruction.leaves, Instruction.callBuiltin,
        Instruction.placeholderCall, Instruction.count, hcount]
  | @call _ _ args _ _ sub _ _ hfit =>
      have hlt : args.length + sub.usesArgList.toNat < 256 := hfit
      cases huses : sub.usesArgList <;> rw [huses] at hlt <;>
        simp [Move.after, Move.when, Piece.gain, Instruction.takes, Instruction.leaves,
          Instruction.call, Instruction.makeArgArray, Instruction.count] at hlt ⊢ <;> omega

/-- **A template keeps the stack in order.** -/
theorem Unfolds.flow {K : Piece → Bool → Session → Session → Prop} {p : Piece} {ms : List Move}
    {b : Bool} {σ σ' : Session} (hu : Unfolds p ms b) (hq : Quiet ms) (ha : Along K ms σ σ')
    (hp : ∀ head body, p ≠ .stmt (.sub head body)) :
    Move.Flow p.inExpr p.landing (ms.flatMap Move.targets ++ p.incoming ++ ms.flatMap Move.sought)
      (0, []) ms := by
  -- Where a template of a statement begins, and where one of an expression has operands.
  have hhere : Move.Lands false 0 0 [] := fun _ => rfl
  have hthere {landing h : Nat} : Move.Lands true landing h [] := by simp [Move.Lands, Move.hasLoop]
  cases hu with
  | sub | subParameter | subRedeclared => exact absurd rfl (hp _ _)
  | varUndeclared | typed | assignVarUndeclared | assignOther | loopControlArguments | noLoop
  | checkpointArgument | builtinTooMany | externalTooMany | callTooFew | callTooMany
  | callRefused | argsRefused => simp [Quiet, Move.quiet] at hq
  | assignVarMismatch hc | assignDeclareMismatch hc =>
      exact absurd (hc.quiet fun m hm => hq m (by simp [hm])) (by simp)
  | last =>
      simp [Move.Flow, Move.Fits, Move.after, Move.sought, Move.op, Piece.landing,
        Instruction.takes, Instruction.leaves, Instruction.branches, Instruction.label?,
        Instruction.jump, Instruction.bare]
  | @next _ control =>
      cases control <;>
        simp [Move.Flow, Move.flow_append, Move.flow_increment, Move.after_increment, Move.advance,
          Move.Fits, Move.after, Move.sought, Move.op, Piece.landing, Instruction.takes,
          Instruction.leaves, Instruction.branches, Instruction.label?, Instruction.jump,
          Instruction.bare]
  | integer | float | str | undefined | var | declare | eachNil | backwardNil | argsNil | stmtsNil
  | branchesNil | bodyNil | use =>
      simp [Move.Flow, Move.Fits, Move.after, Move.op, Instruction.takes, Instruction.leaves,
        Instruction.branches, Instruction.bare, Instruction.pushInt, Instruction.load,
        Instruction.store]
  | @bool v =>
      cases v <;>
        simp [Move.Flow, Move.Fits, Instruction.takes, Instruction.branches, Instruction.pushBool,
          Instruction.bare]
  | @checkpoint _ on =>
      cases on <;>
        simp [Move.Flow, Move.Fits, Move.op, Move.when, Instruction.takes, Instruction.branches,
          Instruction.checkpoint, Instruction.bare]
  | @list items =>
      obtain ⟨_, -, _, ⟨hfit, rfl⟩, -⟩ := ha
      have hcount : items.length.toUInt16.toNat = items.length := Nat.mod_eq_of_lt hfit
      simp [Move.Flow, Move.Fits, Move.after, hthere, Piece.inExpr, Piece.incoming, Piece.gain,
        Instruction.takes, Instruction.branches, Instruction.boxArray, Instruction.count, hcount]
  | @binary o =>
      cases o <;>
        simp [Move.Flow, Move.Fits, Move.after, Move.op, hthere, BinaryOp.opcode, Piece.inExpr,
          Piece.incoming, Piece.gain, Instruction.takes, Instruction.branches, Instruction.bare]
  | @unary o =>
      cases o <;>
        simp [Move.Flow, Move.Fits, Move.after, Move.op, hthere, UnaryOp.opcode, Piece.inExpr,
          Piece.incoming, Piece.gain, Instruction.takes, Instruction.branches, Instruction.bare]
  | index =>
      simp [Move.Flow, Move.Fits, Move.after, Move.op, hthere, Piece.inExpr, Piece.incoming,
        Piece.gain, Instruction.takes, Instruction.branches, Instruction.bare]
  | assignVar hc | assignDeclare hc =>
      simp [Move.Flow, Move.flow_append, Move.Fits, Move.after, Move.op, hthere, hc.flow, hc.after,
        Piece.inExpr, Piece.incoming, Piece.gain, Instruction.takes, Instruction.leaves,
        Instruction.branches, Instruction.bare, Instruction.store]
  | @builtin _ args _ _ _ hfit | @external _ args _ _ hfit =>
      have hcount : args.length.toUInt8.toNat = args.length := Nat.mod_eq_of_lt hfit
      simp [Move.Flow, Move.Fits, Move.after, hthere, Piece.inExpr, Piece.incoming, Piece.gain,
        Instruction.takes, Instruction.branches, Instruction.callBuiltin,
        Instruction.placeholderCall, Instruction.count, hcount]
  | @call _ _ args _ _ sub _ _ hfit =>
      have hlt : args.length + sub.usesArgList.toNat < 256 := hfit
      cases huses : sub.usesArgList <;> rw [huses] at hlt <;>
        simp [Move.Flow, Move.Fits, Move.after, Move.when, hthere, Piece.inExpr, Piece.incoming,
          Piece.gain, Instruction.takes, Instruction.leaves, Instruction.branches, Instruction.call,
          Instruction.makeArgArray, Instruction.count] at hlt ⊢ <;> omega
  | eachCons | backwardCons | argsFree =>
      simp [Move.Flow, Move.Fits, hthere, Move.after, Piece.inExpr, Piece.incoming]
  | @argsHeld _ _ p _ _ _ hc =>
      cases hcopy : p.copy <;>
        simp [Move.Flow, Move.Fits, Move.after, Move.when, hthere, hc.flow, Piece.inExpr,
          Piece.incoming, Piece.gain, Instruction.takes, Instruction.leaves, Instruction.branches,
          Instruction.bare]
  | exprStmt =>
      simp [Move.Flow, Move.Fits, Move.after, Move.op, hhere, Piece.inExpr, Piece.landing,
        Piece.incoming, Piece.gain, Instruction.takes, Instruction.branches, Instruction.bare]
  | block => exact Move.flow_block hhere
  | retUndef hr => exact hr.flow
  | ret hc | bodyExpr hc =>
      simp [Move.Flow, Move.flow_append, Move.Fits, Move.after, Move.op, hhere, hc.flow, hc.after,
        Piece.inExpr, Piece.landing, Piece.incoming, Piece.gain, Instruction.takes,
        Instruction.branches, Instruction.bare]
  | stmtsCons | bodyCons | bodyRet =>
      simp [Move.Flow, Move.Fits, Move.after, hhere, Piece.inExpr, Piece.landing, Piece.incoming,
        Piece.gain]
  | cond | branchesCons =>
      simp [Move.Flow, Move.flow_append, Move.flow_block hhere, Move.after_block,
        Move.flow_otherwise hhere, Move.after_otherwise, Move.Fits, Move.after, Move.targets, hhere,
        Piece.inExpr, Piece.incoming, Piece.gain, Piece.landing, Instruction.takes,
        Instruction.leaves, Instruction.branches, Instruction.label?, Instruction.jump,
        Instruction.jumpIfFalse]
  | @whileLoop _ _ done top =>
      have hloop : Move.Lands false 0 0 [.loop (.whileLoop done top)] := rfl
      simp [Move.Flow, Move.Fits, Move.after, Move.targets, hloop, LoopControl.done,
        LoopControl.next, Piece.inExpr, Piece.incoming, Piece.gain, Piece.landing,
        Instruction.takes, Instruction.leaves, Instruction.branches, Instruction.label?,
        Instruction.jump, Instruction.jumpIfFalse]
  | @loop _ _ _ _ done next =>
      have hloop : Move.Lands false 0 0 [.loop (.countedLoop done next)] := rfl
      simp [Move.Flow, Move.flow_append, Move.flow_effect hloop, Move.after_effect,
        Move.flow_guarded hloop, Move.after_guarded, Move.flow_block hloop, Move.after_block,
        Move.Fits, Move.after, Move.targets, LoopControl.done, LoopControl.next, Piece.inExpr,
        Piece.incoming, Piece.landing, Instruction.takes, Instruction.leaves, Instruction.branches,
        Instruction.label?, Instruction.jump]
  | @forEach _ _ _ index item done top =>
      have hbefore : Move.Lands false 2 0 [] := fun _ => rfl
      have hloop : Move.Lands false 2 2 [.loop (.forEach done top index item)] := rfl
      simp [Move.Flow, Move.flow_append, hbefore, hloop, Move.flow_increment, Move.after_increment,
        Move.Fits, Move.after, Move.targets, Move.op, LoopControl.done, LoopControl.next,
        Piece.inExpr, Piece.incoming, Piece.gain, Piece.landing, Instruction.takes,
        Instruction.leaves, Instruction.branches, Instruction.label?, Instruction.jump,
        Instruction.jumpIfGreaterOrEqual, Instruction.count, Instruction.bare, Instruction.load,
        Instruction.store, Instruction.pushInt, Instruction.dupN, Instruction.callBuiltin]
  | @package kind =>
      cases kind <;>
        simp [Move.Flow, Move.declareModule, Move.flow_append, Move.flow_block hhere, Move.Fits,
          Move.after, Piece.inExpr, Piece.landing]

/-! ### Operands -/

namespace Move

/-- The move is the lowering of an operand, or leaves stack and scopes alone. -/
def inOrder : Move → Bool
  | .piece p _ => p.inExpr
  | .emit _ | .constant _ | .enter _ | .leave => false
  | _ => true

/-- How many operands the moves leave on the stack. -/
def operands (ms : List Move) : Nat := ((pieces ms).map Piece.gain).sum

/-- Moves that lower operands raise the stack by what these leave. -/
theorem after_of_inOrder {ms : List Move} {h : Nat} {ks : List ScopeKind}
    (hms : ms.all inOrder = true) : ms.foldl after (h, ks) = (h + operands ms, ks) := by
  induction ms generalizing h with
  | nil => rfl
  | cons m ms ih =>
      simp only [List.all_cons, Bool.and_eq_true] at hms
      rw [List.foldl_cons]
      cases m with
      | piece p b =>
          rw [show after (h, ks) (.piece p b) = (h + p.gain, ks) from rfl, ih hms.2]
          simp [operands, pieces, Nat.add_assoc]
      | emit _ | constant _ | enter _ | leave => simp [inOrder] at hms
      | _ => exact ih hms.2

/-- Where all pieces come first, only operands come before each of them. -/
theorem inOrder_of_split {ms ns ms₁ ms₂ : List Move} {q : Piece} {e : Bool}
    (hms : ms.all inOrder = true) (hns : pieces ns = [])
    (h : ms ++ ns = ms₁ ++ .piece q e :: ms₂) : ms₁.all inOrder = true ∧ q.inExpr = true := by
  rcases List.append_eq_append_iff.mp h with ⟨l, rfl, rfl⟩ | ⟨l, rfl, hl⟩
  · simp [pieces_append, pieces] at hns
  · cases l with
    | nil =>
        obtain rfl : ns = .piece q e :: ms₂ := hl.symm
        simp [pieces] at hns
    | cons m l =>
        obtain ⟨rfl, -⟩ := List.cons.inj hl
        simp only [List.all_append, List.all_cons, Bool.and_eq_true] at hms
        exact ⟨hms.1, hms.2.1⟩

end Move

/-- The template of an expression begins with its operands. -/
theorem Unfolds.operands_first {p : Piece} {ms : List Move} {b : Bool} (hu : Unfolds p ms b)
    (hp : p.inExpr = true) :
    ∃ ms₁ ms₂, ms = ms₁ ++ ms₂ ∧ ms₁.all Move.inOrder = true ∧ Move.pieces ms₂ = [] := by
  cases hu with
  | list => exact ⟨[_], _, rfl, rfl, rfl⟩
  | binary | index => exact ⟨[_, _], _, rfl, rfl, rfl⟩
  | unary | assignVarUndeclared | assignOther => exact ⟨[_], _, rfl, rfl, rfl⟩
  | assignVar hc | assignDeclare hc =>
      refine ⟨[_, _], _, List.append_assoc _ _ _, rfl, ?_⟩
      simp [Move.pieces, Move.op, hc.pieces]
  | assignVarMismatch hc | assignDeclareMismatch hc => exact ⟨[_, _], _, rfl, rfl, hc.pieces⟩
  | builtin => exact ⟨[_], _, rfl, rfl, rfl⟩
  | external => exact ⟨[_, _], _, rfl, rfl, rfl⟩
  | @call _ _ _ _ _ sub =>
      refine ⟨[_, _, _], _, List.append_assoc _ _ _, rfl, ?_⟩
      cases sub.usesArgList <;> rfl
  | callRefused => exact ⟨[_, _], [], rfl, rfl, rfl⟩
  | eachCons | backwardCons | argsFree => exact ⟨[_, _], [], rfl, rfl, rfl⟩
  | argsRefused => exact ⟨[_], [], rfl, rfl, rfl⟩
  | @argsHeld _ _ p _ _ _ hc =>
      refine ⟨[_, _], _, List.append_assoc _ _ _, rfl, ?_⟩
      cases p.copy <;> simpa [Move.pieces, Move.when] using hc.pieces
  | exprStmt | block | subParameter | subRedeclared | sub | retUndef | ret | cond | whileLoop | loop
  | forEach | use | package | stmtsNil | stmtsCons | branchesNil | branchesCons | bodyNil | bodyExpr
  | bodyRet | bodyCons => cases hp
  | @next _ control => exact ⟨[], _, rfl, rfl, by cases control <;> rfl⟩
  | @checkpoint _ on => exact ⟨[], _, rfl, rfl, by cases on <;> rfl⟩
  | _ => exact ⟨[], _, rfl, rfl, rfl⟩

/-- **Before a part of an expression, its template has lowered operands only.** -/
theorem Unfolds.operands {p q : Piece} {ms ns : List Move} {b e : Bool}
    (hu : Unfolds p (ms ++ .piece q e :: ns) b) (hp : p.inExpr = true) :
    ms.foldl Move.after (0, []) = (Move.operands ms, []) ∧ q.inExpr = true := by
  obtain ⟨ms₁, ms₂, heq, h₁, h₂⟩ := hu.operands_first hp
  obtain ⟨hms, hq⟩ := Move.inOrder_of_split h₁ h₂ heq.symm
  refine ⟨?_, hq⟩
  rw [Move.after_of_inOrder hms, Nat.zero_add]

theorem Enforces.sought {e : Expr} {type : ValueType} {role : Role} {cs : List Move} {ok : Bool}
    (hc : Enforces e type role cs ok) : cs.flatMap Move.sought = [] := by
  cases hc <;> rfl

theorem ReturnsUndef.sought {s : Span} {ms : List Move} (hr : ReturnsUndef s ms) :
    ms.flatMap Move.sought = [] := by
  obtain ⟨hc⟩ := hr
  simp [Move.sought, Move.op, hc.sought]

theorem Closes.sought {s : Span} {ends : Bool} {ms : List Move} (hc : Closes s ends ms) :
    ms.flatMap Move.sought = [] := by
  cases hc with
  | returned => rfl
  | fallen hr => exact hr.sought

/-- The label that `last` or `next` jumps to. -/
def LoopControl.target (control : LoopControl) (name : String) : Label :=
  if name = "last" then control.done else control.next

namespace Move

/-- The template of `last` and `next`. -/
def exit (name : String) (control : LoopControl) : List Move :=
  (.innermost (some control) :: if name = "last" then [] else advance control) ++
    [Move.emit (.jump (control.target name)), op .loadUndefined]

/-- The move emits an instruction that may go on somewhere else. -/
def jumps : Move → Bool
  | .emit i => i.branches
  | _ => false

section Exit

variable {name : String} {control : LoopControl}

theorem pieces_exit : pieces (exit name control) = [] := by
  unfold exit
  split <;> cases control <;> rfl

/-- `last` and `next` mark no label. -/
theorem targets_exit : (exit name control).flatMap targets = [] := by
  unfold exit
  split <;> cases control <;> rfl

/-- `last` and `next` jump only where they have found the loop, and at once. -/
theorem exit_split {ms₁ ms₂ : List Move} {m : Move} (h : exit name control = ms₁ ++ m :: ms₂)
    (hm : m.jumps = true) : m = .emit (.jump (control.target name)) ∧ ms₂ = [op .loadUndefined] := by
  obtain ⟨-, hm, hms⟩ := split_unique (P := jumps) h.symm hm
    (by split <;> cases control <;> rfl) rfl
  exact ⟨hm, hms⟩

end Exit

end Move

/-- `last` and `next` go by one template where they are not reported. -/
theorem Unfolds.exit {name : String} {args : List Expr} {s : Span} {ms : List Move} {b : Bool}
    (hu : Unfolds (.expr (.call name args s)) ms b) (hn : name = "last" ∨ name = "next")
    (hq : Quiet ms) : ∃ control, ms = Move.exit name control := by
  -- No builtin and no subroutine is called by these names.
  have hbuiltin : Builtin.ofName? name = none := by rcases hn with rfl | rfl <;> rfl
  have hordinary : ¬ Ordinary name := fun ho => hn.elim ho.1 ho.2.1
  cases hu with
  | last => exact ⟨_, rfl⟩
  | next => exact ⟨_, rfl⟩
  | loopControlArguments | noLoop | checkpointArgument | builtinTooMany | externalTooMany
  | callTooFew | callTooMany | callRefused => simp [Quiet, Move.quiet] at hq
  | checkpoint => simp at hn
  | builtin hb => simp [hb] at hbuiltin
  | external ho | call ho => exact absurd ho hordinary

theorem Move.sought_effect {e : Option Expr} : (effect e).flatMap Move.sought = [] := by
  cases e <;> rfl

theorem Move.sought_guarded {done : Label} {e : Option Expr} :
    (guarded done e).flatMap Move.sought = [] := by
  cases e <;> rfl

/-- Only `last` and `next` look for the loop around them. -/
theorem Unfolds.sought {p : Piece} {ms : List Move} {b : Bool} {l : Label} (hu : Unfolds p ms b)
    (hl : l ∈ ms.flatMap Move.sought) :
    ∃ name control s, (name = "last" ∨ name = "next") ∧ p = .expr (.call name [] s) ∧
      ms = Move.exit name control := by
  cases hu with
  | last => exact ⟨_, _, _, .inl rfl, rfl, rfl⟩
  | next => exact ⟨_, _, _, .inr rfl, rfl, rfl⟩
  | assignVar hc | assignVarMismatch hc | assignDeclare hc | assignDeclareMismatch hc | ret hc
  | bodyExpr hc => simp [Move.sought, Move.op, hc.sought] at hl
  | @argsHeld _ _ p _ _ _ hc =>
      cases h : p.copy <;> simp [Move.sought, Move.when, h, hc.sought] at hl
  | retUndef hr => simp [hr.sought] at hl
  | sub _ _ hc =>
      cases h : mentionsArgList _ <;> simp [Move.sought, Move.argListSlot, h, hc.sought] at hl
  | @checkpoint _ on => cases on <;> cases hl
  | @call _ _ _ _ _ sub => cases h : sub.usesArgList <;> simp [Move.sought, Move.when, h] at hl
  | @cond _ _ _ rest => cases rest <;> cases hl
  | loop =>
      simp only [List.flatMap_append, Move.sought_effect, Move.sought_guarded] at hl
      cases hl
  | @package kind => cases kind <;> cases hl
  | _ => cases hl

end StackScript
