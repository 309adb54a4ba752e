import StackScript.Proofs.Bodies

/-!
# Slots are given out as they are reserved

`slotsNeeded` counts the slots of a body before it is lowered.  Lowering the body gives out no more
slots than that, and just as many unless a `my` repeats a name that its scope binds in another way:
a parameter, the argument list or a loop variable.

* `Unfolds.demand`: a template demands what is reserved for the piece.
* `Move.Does.covers`: each move gives out the slots it demands.
* `Runs.covers`: so lowering a piece gives out the slots that are reserved for it.
-/

namespace StackScript

/-! ### Names a scope declares -/

namespace Expr

mutual

/-- The expression evaluates `my name`. -/
def declares (name : String) : Expr → Bool
  | .declare n _ _ => n == name
  | .typed _ pattern _ => pattern.declares name
  | .list items _ => anyDeclares name items
  | .binary _ left right _ => left.declares name || right.declares name
  | .unary _ operand _ => operand.declares name
  | .assign target value _ => target.declares name || value.declares name
  | .index target position _ => target.declares name || position.declares name
  | .call _ args _ => anyDeclares name args
  | .integer _ _ | .float _ _ | .str _ _ | .bool _ _ | .undefined _ | .var _ _ => false

/-- One of the expressions evaluates `my name`. -/
def anyDeclares (name : String) : List Expr → Bool
  | [] => false
  | e :: rest => e.declares name || anyDeclares name rest

end

end Expr

namespace Stmt

/-- The statement evaluates `my name` directly in the scope it stands in. -/
def declares (name : String) : Stmt → Bool
  | .expr e => e.declares name
  | .ret value _ => value.any (·.declares name)
  | .cond condition _ elsifs _ =>
    condition.declares name || elsifs.any fun branch => branch.1.declares name
  | .forEach _ iterable _ => iterable.declares name
  | .block _ | .sub _ _ | .whileLoop _ _ | .loop _ _ _ _ | .use _ | .package _ _ _ => false

/-- One of the statements evaluates `my name` directly in the scope they stand in. -/
def anyDeclares (name : String) (body : List Stmt) : Bool := body.any (·.declares name)

mutual

/-- No `my` directly in the body of a `for` inside the statement repeats its loop variable. -/
def tidy : Stmt → Bool
  | .forEach name _ body => !anyDeclares name body && allTidy body
  | .block body | .whileLoop _ body | .loop _ _ _ body | .package _ _ body => allTidy body
  | .cond _ body elsifs otherwise =>
    allTidy body && branchesTidy elsifs &&
      match otherwise with
      | none => true
      | some body => allTidy body
  | .expr _ | .sub _ _ | .ret _ _ | .use _ => true

/-- All of the statements are tidy. -/
def allTidy : List Stmt → Bool
  | [] => true
  | s :: rest => s.tidy && allTidy rest

/-- The bodies of all branches are tidy. -/
def branchesTidy : List (Expr × List Stmt) → Bool
  | [] => true
  | (_, body) :: rest => allTidy body && branchesTidy rest

end

end Stmt

/-! ### What a scope demands -/

namespace SlotDemand

/-- A demand is known by its names and by the slots of the scopes inside. -/
theorem ext {d d' : SlotDemand} (hnames : ∀ name, name ∈ d.names ↔ name ∈ d'.names)
    (hinner : d.inner = d'.inner) : d = d' := by
  obtain ⟨names, inner⟩ := d
  obtain ⟨names', inner'⟩ := d'
  obtain rfl : names = names' := Std.ExtTreeSet.ext_mem hnames
  obtain rfl : inner = inner' := hinner
  rfl

/-- A declaration adds its name. -/
theorem mem_declare {d : SlotDemand} {name x : String} :
    x ∈ (d.declare name).names ↔ x ∈ d.names ∨ name = x := by
  simp [declare, Std.ExtTreeSet.mem_insert, or_comm]

mutual

/-- An expression adds the names that it evaluates `my` of. -/
theorem mem_expr {d : SlotDemand} {x : String} : ∀ {e : Expr},
    x ∈ (d.expr e).names ↔ x ∈ d.names ∨ e.declares x = true
  | .declare n _ _ => by simp [expr, Expr.declares, mem_declare]
  | .typed _ pattern _ => by rw [expr, Expr.declares]; exact mem_expr
  | .list items _ => by rw [expr, Expr.declares]; exact mem_exprs
  | .binary _ left right _ => by
      simp [expr, Expr.declares, mem_expr (e := right), mem_expr (e := left), or_assoc]
  | .unary _ operand _ => by rw [expr, Expr.declares]; exact mem_expr
  | .assign target value _ => by
      simp [expr, Expr.declares, mem_expr (e := target), mem_expr (e := value), or_assoc]
  | .index target position _ => by
      simp [expr, Expr.declares, mem_expr (e := target), mem_expr (e := position), or_assoc]
  | .call _ args _ => by rw [expr, Expr.declares]; exact mem_exprs
  | .integer _ _ | .float _ _ | .str _ _ | .bool _ _ | .undefined _ | .var _ _ => by
      simp [expr, Expr.declares]

theorem mem_exprs {d : SlotDemand} {x : String} : ∀ {es : List Expr},
    x ∈ (d.exprs es).names ↔ x ∈ d.names ∨ Expr.anyDeclares x es = true
  | [] => by simp [exprs, Expr.anyDeclares]
  | e :: es => by
      rw [exprs, mem_exprs, mem_expr, Expr.anyDeclares, Bool.or_eq_true, or_assoc]

end

mutual

/-- An expression opens no scope. -/
theorem inner_expr {d : SlotDemand} : ∀ {e : Expr}, (d.expr e).inner = d.inner
  | .declare n _ _ => by rw [expr]; rfl
  | .typed _ pattern _ => by rw [expr]; exact inner_expr
  | .list items _ => by rw [expr]; exact inner_exprs
  | .binary _ left right _ => by rw [expr, inner_expr, inner_expr]
  | .unary _ operand _ => by rw [expr]; exact inner_expr
  | .assign target value _ => by rw [expr, inner_expr, inner_expr]
  | .index target position _ => by rw [expr, inner_expr, inner_expr]
  | .call _ args _ => by rw [expr]; exact inner_exprs
  | .integer _ _ | .float _ _ | .str _ _ | .bool _ _ | .undefined _ | .var _ _ => by rw [expr]

theorem inner_exprs {d : SlotDemand} : ∀ {es : List Expr}, (d.exprs es).inner = d.inner
  | [] => by rw [exprs]
  | e :: es => by rw [exprs, inner_exprs, inner_expr]

end

/-- The order in which a list of expressions and another one are counted does not matter. -/
theorem exprs_expr {d : SlotDemand} {e : Expr} {es : List Expr} :
    (d.exprs es).expr e = (d.expr e).exprs es :=
  ext (fun x => by simp only [mem_expr, mem_exprs]; rw [or_right_comm])
    (by simp only [inner_expr, inner_exprs])

theorem expr_declare {d : SlotDemand} {e : Expr} {name : String} :
    (d.expr e).declare name = (d.declare name).expr e :=
  ext (fun x => by simp only [mem_expr, mem_declare]; rw [or_right_comm])
    (by rw [inner_expr]; exact inner_expr)

/-- Names and scopes inside are counted apart. -/
theorem expr_nest {d : SlotDemand} {e : Expr} {n : Nat} : (d.nest n).expr e = (d.expr e).nest n :=
  ext (fun x => by
      show x ∈ ((d.nest n).expr e).names ↔ x ∈ (d.expr e).names
      rw [mem_expr, mem_expr]
      rfl)
    (by rw [inner_expr]; exact congrArg (· + n) inner_expr.symm)

theorem optExpr_nest {d : SlotDemand} {e : Option Expr} {n : Nat} :
    (d.nest n).optExpr e = (d.optExpr e).nest n := by
  cases e with
  | none => rfl
  | some e => exact expr_nest

theorem nest_nest {d : SlotDemand} {m n : Nat} : (d.nest m).nest n = d.nest (m + n) := by
  simp [nest, Nat.add_assoc]

theorem total_nest {d : SlotDemand} {n : Nat} : (d.nest n).total = d.total + n := by
  simp [total, nest, Nat.add_assoc]

/-- A name that is repeated takes no slot. -/
theorem total_declare_of_mem {d : SlotDemand} {name : String} (h : name ∈ d.names) :
    (d.declare name).total = d.total := by
  simp [total, declare, Std.ExtTreeSet.size_insert, h]

/-- A name that is new takes one slot. -/
theorem total_declare_of_not_mem {d : SlotDemand} {name : String} (h : name ∉ d.names) :
    (d.declare name).total = d.total + 1 := by
  simp [total, declare, Std.ExtTreeSet.size_insert, h]
  omega

end SlotDemand

namespace Piece

/-- What the scope around the piece demands with it. -/
def demand (d : SlotDemand) : Piece → SlotDemand
  | .expr e => d.expr e
  | .each es | .backward es | .args es _ => d.exprs es
  | .stmt s => d.stmt s
  | .stmts ss | .body _ ss => d.stmts ss
  | .branches _ elsifs => d.branches elsifs

/-- The piece evaluates `my name` directly in the scope it stands in. -/
def declares (name : String) : Piece → Bool
  | .expr e => e.declares name
  | .each es | .backward es | .args es _ => Expr.anyDeclares name es
  | .stmt s => s.declares name
  | .stmts ss | .body _ ss => Stmt.anyDeclares name ss
  | .branches _ elsifs => elsifs.any fun branch => branch.1.declares name

/-- No `my` directly in the body of a `for` inside the piece repeats its loop variable. -/
def tidy : Piece → Bool
  | .stmt s => s.tidy
  | .stmts ss | .body _ ss => Stmt.allTidy ss
  | .branches _ elsifs => Stmt.branchesTidy elsifs
  | .expr _ | .each _ | .backward _ | .args _ _ => true

end Piece

/-- What is demanded so far: for the scope in which a template stands or the one it has opened last,
the names bound there without a declaration and the demand of its declarations, and the same for
those around it, innermost first; and whether no declaration repeats a name bound without one. -/
structure Ledger where
  bound : List String
  demand : SlotDemand
  around : List (List String × SlotDemand)
  exact : Prop

namespace Move

/-- What a move enters in the ledger. -/
def demand (L : Ledger) : Move → Option Ledger
  | .declare name _ _ =>
    some { L with demand := L.demand.declare name, exact := L.exact ∧ name ∉ L.bound }
  | .alloc _ => some { L with demand := L.demand.nest 1 }
  | .bind name _ _ => some { L with bound := name :: L.bound }
  | .enter (.subroutine _) | .argument _ _ _ | .params _ => none
  | .enter _ => some { L with bound := [], demand := {}, around := (L.bound, L.demand) :: L.around }
  | .leave =>
    match L.around with
    | [] => none
    | (bound, demand) :: around =>
      some { L with bound, demand := demand.nest L.demand.total, around }
  | .piece p _ =>
    some { L with demand := p.demand L.demand
                  exact := L.exact ∧ p.tidy = true ∧ ∀ x ∈ L.bound, p.declares x = false }
  | _ => some L

/-- An expression whose value is dropped demands what it declares. -/
theorem demand_effect {e : Option Expr} {L : Ledger} :
    (effect e).foldlM demand L = some { L with
      demand := L.demand.optExpr e
      exact := L.exact ∧ ∀ x ∈ L.bound, e.any (·.declares x) = false } := by
  cases e <;>
    simp [effect, demand, op, SlotDemand.optExpr, Piece.demand, Piece.tidy, Piece.declares]

/-- A condition demands what it declares. -/
theorem demand_guarded {done : Label} {e : Option Expr} {L : Ledger} :
    (guarded done e).foldlM demand L = some { L with
      demand := L.demand.optExpr e
      exact := L.exact ∧ ∀ x ∈ L.bound, e.any (·.declares x) = false } := by
  cases e <;>
    simp [guarded, demand, SlotDemand.optExpr, Piece.demand, Piece.tidy, Piece.declares]

theorem demand_when {c : Bool} {i : Instruction} {L : Ledger} :
    (Move.when c i).foldlM demand L = some L := by
  cases c <;> rfl

theorem demand_declareModule {id : PackageId} {path : String} {kind : PackageKind} {L : Ledger} :
    (declareModule id path kind).foldlM demand L = some L := by
  cases kind <;> rfl

/-- A body in a scope of its own demands its own slots, and no name of the scope around it. -/
theorem demand_block {body : List Stmt} {L : Ledger} :
    (block body).foldlM demand L = some { L with
      demand := L.demand.nest (SlotDemand.stmts {} body).total
      exact := L.exact ∧ Stmt.allTidy body = true } := by
  simp [block, demand, Piece.demand, Piece.tidy]

end Move

theorem Enforces.demand {e : Expr} {type : ValueType} {role : Role} {cs : List Move} {ok : Bool}
    (h : Enforces e type role cs ok) {L : Ledger} : cs.foldlM Move.demand L = some L := by
  cases h <;> rfl

theorem ReturnsUndef.demand {s : Span} {ms : List Move} (h : ReturnsUndef s ms) {L : Ledger} :
    ms.foldlM Move.demand L = some L := by
  obtain ⟨hc⟩ := h
  simp [Move.demand, Move.op, hc.demand]

/-- The ledger is carried on from `L` to `L'` by the piece. -/
structure Ledger.After (L : Ledger) (p : Piece) (L' : Ledger) : Prop where
  bound : L'.bound = L.bound
  demand : L'.demand = p.demand L.demand
  around : L'.around = L.around
  exact : L.exact → p.tidy = true → (∀ x ∈ L.bound, p.declares x = false) → L'.exact

/-- A piece that demands nothing leaves the ledger as it is. -/
theorem Ledger.After.same {L : Ledger} {p : Piece} (h : L.demand = p.demand L.demand) :
    L.After p L :=
  ⟨rfl, h, rfl, fun h _ _ => h⟩

/-- A template demands what is reserved for the piece. -/
theorem Unfolds.demand {p : Piece} {ms : List Move} {b : Bool} (h : Unfolds p ms b)
    (hp : ∀ head body, p ≠ .stmt (.sub head body)) (hq : Quiet ms) (L : Ledger) :
    ∃ L', ms.foldlM Move.demand L = some L' ∧ L.After p L' := by
  cases h with
  | sub | subParameter | subRedeclared => exact absurd rfl (hp _ _)
  -- Templates that report an error are not quiet.
  | varUndeclared | typed | assignVarUndeclared | assignOther | loopControlArguments | noLoop
  | checkpointArgument | builtinTooMany | externalTooMany | callTooFew | callTooMany
  | callRefused | argsRefused => simp [Quiet, Move.quiet] at hq
  | integer | float | str | bool | undefined | var | last | eachNil | backwardNil | argsNil
  | stmtsNil | branchesNil | bodyNil | use =>
      exact ⟨L, rfl, .same (by simp [Piece.demand, SlotDemand.expr, SlotDemand.exprs,
        SlotDemand.stmts, SlotDemand.stmt, SlotDemand.branches])⟩
  | @next _ control =>
      exact ⟨L, by cases control <;> rfl,
        .same (by simp [Piece.demand, SlotDemand.expr, SlotDemand.exprs])⟩
  | @checkpoint _ on =>
      exact ⟨L, by cases on <;> rfl,
        .same (by simp [Piece.demand, SlotDemand.expr, SlotDemand.exprs])⟩
  | declare =>
      refine ⟨_, rfl, rfl, by simp [Piece.demand, SlotDemand.expr], rfl,
        fun h _ hb => ⟨h, fun hm => ?_⟩⟩
      simpa [Piece.declares, Expr.declares] using hb _ hm
  | list | binary | unary | index | builtin | external | eachCons | exprStmt | stmtsCons =>
      refine ⟨_, rfl, rfl, ?_, rfl, fun h ht hb => ?_⟩
      · simp [Piece.demand, SlotDemand.expr, SlotDemand.exprs, SlotDemand.stmt, SlotDemand.stmts]
      · simp_all [Piece.declares, Piece.tidy, Expr.declares, Expr.anyDeclares, Stmt.declares,
          Stmt.anyDeclares, Stmt.tidy, Stmt.allTidy]
  | backwardCons | argsFree =>
      refine ⟨_, rfl, rfl, by simp [Piece.demand, SlotDemand.exprs, SlotDemand.exprs_expr], rfl,
        fun h ht hb => ?_⟩
      simp_all [Piece.declares, Piece.tidy, Expr.anyDeclares]
  | assignVarMismatch hc | assignDeclareMismatch hc =>
      exact absurd (hc.quiet fun m hm => hq m (by simp [hm])) (by simp)
  | assignVar hc =>
      simp [Move.demand, Move.op, hc.demand]
      refine ⟨rfl, by simp [Piece.demand, SlotDemand.expr], rfl, fun h ht hb => ?_⟩
      simp_all [Piece.declares, Piece.tidy, Expr.declares]
  | assignDeclare hc =>
      simp [Move.demand, Move.op, hc.demand]
      refine ⟨rfl, by simp [Piece.demand, SlotDemand.expr, SlotDemand.expr_declare], rfl,
        fun h ht hb => ?_⟩
      simp [Piece.declares, Expr.declares] at hb
      exact ⟨⟨h, rfl, fun x hx => (hb x hx).2⟩, fun hm => (hb _ hm).1 rfl⟩
  | argsHeld hc =>
      simp [Move.demand, Move.demand_when, hc.demand]
      refine ⟨rfl, by simp [Piece.demand, SlotDemand.exprs, SlotDemand.exprs_expr], rfl,
        fun h ht hb => ?_⟩
      simp_all [Piece.declares, Piece.tidy, Expr.anyDeclares]
  | call =>
      simp [Move.demand, Move.demand_when]
      refine ⟨rfl, by simp [Piece.demand, SlotDemand.expr], rfl, fun h ht hb => ?_⟩
      simp_all [Piece.declares, Piece.tidy, Expr.declares]
  | block =>
      refine ⟨_, Move.demand_block, rfl, by simp [Piece.demand, SlotDemand.stmt], rfl,
        fun h ht _ => ⟨h, ?_⟩⟩
      simpa [Piece.tidy, Stmt.tidy] using ht
  | retUndef h =>
      exact ⟨L, h.demand, .same (by simp [Piece.demand, SlotDemand.stmt, SlotDemand.optExpr])⟩
  | ret hc =>
      simp [Move.demand, Move.op, hc.demand]
      refine ⟨rfl, by simp [Piece.demand, SlotDemand.stmt, SlotDemand.optExpr], rfl,
        fun h ht hb => ?_⟩
      simp_all [Piece.declares, Piece.tidy, Stmt.declares]
  | bodyExpr hc =>
      simp [Move.demand, Move.op, hc.demand]
      refine ⟨rfl, by simp [Piece.demand, SlotDemand.stmt, SlotDemand.stmts], rfl,
        fun h ht hb => ?_⟩
      simp_all [Piece.declares, Piece.tidy, Stmt.declares, Stmt.anyDeclares]
  | bodyRet | bodyCons =>
      refine ⟨_, rfl, rfl, by simp [Piece.demand, SlotDemand.stmts], rfl, fun h ht hb => ?_⟩
      simp_all [Piece.declares, Piece.tidy, Stmt.anyDeclares, Stmt.allTidy]
  | @cond _ _ _ rest =>
      cases rest with
      | none | some =>
          simp [Move.demand, Move.demand_block, Move.otherwise]
          refine ⟨rfl, by simp [Piece.demand, SlotDemand.stmt], rfl, fun h ht hb => ?_⟩
          simp [Piece.tidy, Stmt.tidy] at ht
          simp [Piece.declares, Stmt.declares] at hb
          simp_all [Piece.declares, Piece.tidy]
          exact fun x hx => (hb x hx).2
  | branchesCons =>
      simp [Move.demand, Move.demand_block]
      refine ⟨rfl, by simp [Piece.demand, SlotDemand.branches], rfl, fun h ht hb => ?_⟩
      simp_all [Piece.declares, Piece.tidy, Stmt.branchesTidy]
      exact fun x hx => (hb x hx).2
  | whileLoop =>
      refine ⟨_, rfl, rfl, by simp [Piece.demand, SlotDemand.stmt], rfl, fun h ht hb => ?_⟩
      simp_all [Piece.tidy, Stmt.tidy]
  | loop =>
      simp [Move.demand, Move.demand_block, Move.demand_effect, Move.demand_guarded]
      refine ⟨rfl, ?_, rfl, fun h ht hb => ?_⟩
      · simp [Piece.demand, SlotDemand.stmt, SlotDemand.optExpr_nest]
      · simp_all [Piece.tidy, Stmt.tidy]
  | forEach =>
      refine ⟨_, rfl, rfl, ?_, rfl, fun h ht hb => ?_⟩
      · simp [Piece.demand, SlotDemand.stmt, SlotDemand.expr_nest, SlotDemand.nest_nest,
          Nat.add_comm]
      · simp_all [Piece.declares, Piece.tidy, Stmt.declares, Stmt.tidy]
  | package =>
      simp [Move.demand, Move.demand_declareModule, Move.demand_block]
      refine ⟨rfl, by simp [Piece.demand, SlotDemand.stmt], rfl, fun h ht _ => ⟨h, ?_⟩⟩
      simpa [Piece.tidy, Stmt.tidy] using ht

/-! ### The ledger and the scopes -/

open Scopes

/-- What is bound in a scope does not depend on the count of slots. -/
theorem Scopes.Below.getElem? {s s' : List Scope} (h : Below s s') {j : Nat} {a : Scope}
    (ha : s[j]? = some a) : ∃ a', s'[j]? = some a' ∧ a'.bindings = a.bindings := by
  induction h generalizing j with
  | nil => simp at ha
  | @scope b r r' _ _ ih =>
      cases j with
      | zero =>
          obtain rfl : b = a := by simpa using ha
          exact ⟨b, rfl, rfl⟩
      | succ j => exact ih (by simpa using ha)
  | @sub b n r _ _ =>
      cases j with
      | zero =>
          obtain rfl : b = a := by simpa using ha
          exact ⟨_, rfl, rfl⟩
      | succ j => exact ⟨a, by simpa using ha, rfl⟩

/-- The names bound in a scope are those in the ledger. -/
def Tracks (bound : List String) (d : SlotDemand) (a : Scope) : Prop :=
  ∀ name, (a.binding? name).isSome = true ↔ name ∈ d.names ∨ name ∈ bound

/-- The ledger is about these scopes. -/
structure Ledger.Fits (L : Ledger) (stack : List Scope) : Prop where
  top : ∃ a r, stack = a :: r ∧ Tracks L.bound L.demand a
  around : ∀ {j g}, L.around[j]? = some g → ∃ a, stack[j + 1]? = some a ∧ Tracks g.1 g.2 a
  inner : Inner L.around.length stack

/-- What is demanded in all. -/
def Ledger.total (L : Ledger) : Nat := L.demand.total + (L.around.map (·.2.total)).sum

/-- The slots given out since there were `taken`, when `base` were demanded, are no more than are
demanded, and just as many if no declaration repeats a name bound without one. -/
structure Ledger.Covers (L : Ledger) (taken base : Nat) (s : Scopes) : Prop where
  fits : L.Fits s.stack
  le : s.taken + base ≤ taken + L.total
  eq : L.exact → s.taken + base = taken + L.total

/-- The ledger is about names, so it goes on fitting when slots are given out. -/
theorem Ledger.Fits.below {L : Ledger} {s s' : List Scope} (h : L.Fits s) (hb : Below s s') :
    L.Fits s' := by
  refine ⟨?_, fun {j g} hg => ?_, h.inner.kept (.of_below hb)⟩
  · obtain ⟨a, r, rfl, ht⟩ := h.top
    obtain ⟨a', ha', hbind⟩ := hb.getElem? (j := 0) rfl
    cases s' with
    | nil => simp at ha'
    | cons b r' =>
        obtain rfl : b = a' := by simpa using ha'
        refine ⟨b, r', rfl, fun name => ?_⟩
        rw [Scope.binding?, hbind]
        exact ht name
  · obtain ⟨a, ha, ht⟩ := h.around hg
    obtain ⟨a', ha', hbind⟩ := hb.getElem? ha
    refine ⟨a', ha', fun name => ?_⟩
    rw [Scope.binding?, hbind]
    exact ht name

/-- A name bound in the innermost scope. -/
theorem Ledger.Fits.bind {L L' : Ledger} {a : Scope} {r : List Scope} {name : String} {b : Binding}
    (h : L.Fits (a :: r)) (haround : L'.around = L.around)
    (hname : ∀ x, x ∈ L'.demand.names ∨ x ∈ L'.bound ↔
      (x ∈ L.demand.names ∨ x ∈ L.bound) ∨ name = x) : L'.Fits (a.bind name b :: r) := by
  obtain ⟨a₀, r₀, hs, ht⟩ := h.top
  obtain ⟨rfl, rfl⟩ := List.cons.inj hs
  refine ⟨⟨_, _, rfl, fun x => ?_⟩, fun {j g} hg => h.around (haround ▸ hg), ?_⟩
  · rw [hname, ← ht x, Scope.binding?, Scope.bind, Std.ExtTreeMap.getElem?_insert]
    by_cases hx : name = x
    · simp [hx]
    · simp [hx, Scope.binding?]
  · rw [haround]
    exact h.inner.kept .bind

/-- A declaration takes a slot exactly if its name is not bound in the scope. -/
theorem Ledger.Covers.declare {L : Ledger} {taken base : Nat} {s s' : Scopes} {name : String}
    {type : ValueType} {slot : Slot} (h : L.Covers taken base s)
    (hd : Scopes.declare name type s = (.ok slot, s')) :
    Ledger.Covers { L with demand := L.demand.declare name, exact := L.exact ∧ name ∉ L.bound }
      taken base s' := by
  obtain ⟨a, r, hs, ht⟩ := h.fits.top
  obtain ⟨a₀, r₀, hs₀, hcase⟩ := declare_ok hd
  obtain ⟨rfl, rfl⟩ := List.cons.inj (hs.symm.trans hs₀)
  rcases hcase with ⟨b, hb, -, rfl⟩ | ⟨t, hb, ha, hbind⟩
  · -- The name is bound: no slot is given out, and none demanded unless it was bound without one.
    have hin : name ∈ L.demand.names ∨ name ∈ L.bound := (ht name).mp (by simp [hb])
    have hfits : Ledger.Fits
        { L with demand := L.demand.declare name, exact := L.exact ∧ name ∉ L.bound } s'.stack := by
      refine ⟨⟨a, r, hs, fun x => ?_⟩, h.fits.around, h.fits.inner⟩
      rw [ht x, SlotDemand.mem_declare]
      constructor
      · rintro (h | h)
        · exact .inl (.inl h)
        · exact .inr h
      · rintro ((h | rfl) | h)
        · exact .inl h
        · exact hin
        · exact .inr h
    by_cases hname : name ∈ L.demand.names
    · have htotal := SlotDemand.total_declare_of_mem hname
      refine ⟨hfits, ?_, fun hex => ?_⟩
      · simpa [Ledger.total, htotal] using h.le
      · simpa [Ledger.total, htotal] using h.eq hex.1
    · have htotal := SlotDemand.total_declare_of_not_mem hname
      refine ⟨hfits, ?_, fun hex => absurd (hin.resolve_left hname) hex.2⟩
      have := h.le
      simp only [Ledger.total, htotal] at this ⊢
      omega
  · have hnot : ¬ (name ∈ L.demand.names ∨ name ∈ L.bound) := by
      rw [← ht name]
      simp [hb]
    have hname : name ∉ L.demand.names := fun h => hnot (.inl h)
    obtain ⟨-, hstack, htaken⟩ := alloc_ok ha
    obtain ⟨a', r', ht', hs'⟩ := bind_ok hbind
    have hfits : L.Fits (a' :: r') := by
      rw [← ht', hstack]
      exact h.fits.below .bump
    have hsame : s'.taken = t.taken := by
      rw [Scopes.taken, Scopes.taken, hs', ht']
      rfl
    have htotal := SlotDemand.total_declare_of_not_mem hname
    refine ⟨?_, ?_, fun hex => ?_⟩
    · rw [hs']
      refine hfits.bind rfl fun x => ?_
      rw [SlotDemand.mem_declare, or_right_comm]
    · have := h.le
      simp only [Ledger.total, htotal] at this ⊢
      omega
    · have := h.eq hex.1
      simp only [Ledger.total, htotal] at this ⊢
      omega

/-- A scope that is opened has an entry of its own in the ledger. -/
theorem Ledger.Covers.enter {L : Ledger} {taken base : Nat} {s : Scopes} {kind : ScopeKind}
    (h : L.Covers taken base s) (hk : kind.isSubroutine = false) :
    Ledger.Covers { L with bound := [], demand := {}, around := (L.bound, L.demand) :: L.around }
      taken base (s.enter kind) := by
  have htotal : Ledger.total { L with
      bound := [], demand := {}, around := (L.bound, L.demand) :: L.around } = L.total := by
    simp [Ledger.total, SlotDemand.total]
  refine ⟨⟨⟨_, _, rfl, fun x => ?_⟩, fun {j g} hg => ?_, h.fits.inner.enter hk⟩, ?_, fun hex => ?_⟩
  · simp [Scope.binding?]
  · cases j with
    | zero =>
        obtain rfl : (L.bound, L.demand) = g := by simpa using hg
        obtain ⟨a, r, hs, ht⟩ := h.fits.top
        exact ⟨a, by simp [Scopes.enter, hs], ht⟩
    | succ j => exact h.fits.around (by simpa using hg)
  · rw [taken_enter hk, htotal]
    exact h.le
  · rw [taken_enter hk, htotal]
    exact h.eq hex

/-- A scope that is left adds its slots to those of the scope around it. -/
theorem Ledger.Covers.leave {L : Ledger} {taken base : Nat} {s : Scopes}
    {g : List String × SlotDemand} {around : List (List String × SlotDemand)}
    (h : L.Covers taken base s) (hg : L.around = g :: around) :
    Ledger.Covers { L with bound := g.1, demand := g.2.nest L.demand.total, around }
      taken base s.leave := by
  obtain ⟨a, r, hs, -⟩ := h.fits.top
  obtain ⟨htaken, hinner⟩ : s.leave.taken = s.taken ∧ Inner around.length s.leave.stack := by
    have := h.fits.inner
    rw [hg] at this
    exact this.leave
  have htotal : Ledger.total { L with bound := g.1, demand := g.2.nest L.demand.total, around } =
      L.total := by
    simp [Ledger.total, SlotDemand.total_nest, hg]
    omega
  refine ⟨⟨?_, fun {j g'} hg' => ?_, hinner⟩, ?_, fun hex => ?_⟩
  · obtain ⟨b, hb, ht⟩ := h.fits.around (j := 0) (g := g) (by simp [hg])
    rw [hs] at hb
    cases r with
    | nil => simp at hb
    | cons b' r =>
        obtain rfl : b' = b := by simpa using hb
        exact ⟨b', r, by simp [Scopes.leave, hs], ht⟩
  · obtain ⟨b, hb, ht⟩ := h.fits.around (j := j + 1) (g := g') (by simpa [hg] using hg')
    exact ⟨b, by simpa [Scopes.leave, hs] using hb, ht⟩
  · rw [htaken, htotal]
    exact h.le
  · rw [htaken, htotal]
    exact h.eq hex

/-- **Each move gives out the slots it demands.** -/
theorem Move.Does.covers {L L' : Ledger} {taken base : Nat} {m : Move} {σ σ' : Session}
    (h : m.Does σ σ') (hm : Move.demand L m = some L') (hL : L.Covers taken base σ.scopes) :
    L'.Covers taken base σ'.scopes := by
  cases m with
  | declare name type slot =>
      obtain rfl := Option.some.inj hm
      obtain ⟨s, hs, rfl⟩ := acts_declare.mp h
      exact hL.declare hs
  | alloc slot =>
      obtain rfl := Option.some.inj hm
      obtain ⟨s, hs, rfl⟩ := acts_alloc.mp h
      obtain ⟨-, hstack, htaken⟩ := alloc_ok hs
      refine ⟨?_, ?_, fun hex => ?_⟩
      · have := hL.fits.below .bump
        rw [← hstack] at this
        exact ⟨this.top, this.around, this.inner⟩
      · have := hL.le
        simp only [Ledger.total, SlotDemand.total_nest] at this ⊢
        omega
      · have := hL.eq hex
        simp only [Ledger.total, SlotDemand.total_nest] at this ⊢
        omega
  | bind name slot type =>
      obtain rfl := Option.some.inj hm
      obtain ⟨s, hs, rfl⟩ := acts_bind.mp h
      obtain ⟨a, r, hstack, hstack'⟩ := bind_ok hs
      have hsame : s.taken = σ.scopes.taken := by
        rw [Scopes.taken, Scopes.taken, hstack, hstack']
        rfl
      obtain ⟨hfits, hle, heq⟩ := hL
      rw [hstack] at hfits
      refine ⟨?_, hsame ▸ hle, fun hex => hsame ▸ heq hex⟩
      rw [hstack']
      -- The name joins those that are bound without a demand for a slot.
      refine hfits.bind rfl fun x => ?_
      simp only [List.mem_cons, eq_comm (a := name)]
      constructor
      · rintro (h | h | h)
        · exact .inl (.inl h)
        · exact .inr h
        · exact .inl (.inr h)
      · rintro ((h | h) | h)
        · exact .inl h
        · exact .inr (.inr h)
        · exact .inr (.inl h)
  | enter kind =>
      obtain rfl := h
      cases kind with
      | subroutine type => cases hm
      | _ =>
          obtain rfl := Option.some.inj hm
          exact hL.enter rfl
  | leave =>
      obtain rfl := h
      cases haround : L.around with
      | nil => simp [Move.demand, haround] at hm
      | cons g around =>
          obtain rfl : _ = L' := by simpa [Move.demand, haround] using hm
          exact hL.leave haround
  | piece p b => exact h.elim
  | argument | params => cases hm
  | _ =>
      obtain rfl := Option.some.inj hm
      rw [h.spares.scopes rfl]
      exact hL

/-- A piece that has carried the ledger on covers what a move for it enters there. -/
theorem Ledger.Covers.after {L L' L₁ : Ledger} {taken base : Nat} {s : Scopes} {p : Piece}
    {b : Bool} (h : L'.Covers taken base s) (ha : L.After p L')
    (hm : Move.demand L (.piece p b) = some L₁) : L₁.Covers taken base s := by
  obtain rfl := Option.some.inj hm
  obtain ⟨hbound, hdemand, haround, hexact⟩ := ha
  obtain ⟨bound, demand, around, exact'⟩ := L'
  obtain rfl : bound = L.bound := hbound
  obtain rfl : demand = p.demand L.demand := hdemand
  obtain rfl : around = L.around := haround
  exact ⟨⟨h.fits.top, h.fits.around, h.fits.inner⟩, h.le,
    fun hex => h.eq (hexact hex.1 hex.2.1 hex.2.2)⟩

/-- **Slots are given out as they are reserved.** -/
theorem Runs.covers {p : Piece} {b : Bool} {σ σ' : Session} {L : Ledger} {taken base : Nat}
    (h : Runs Quiet p b σ σ') (hL : L.Covers taken base σ.scopes) :
    ∃ L', L.After p L' ∧ L'.Covers taken base σ'.scopes := by
  refine h.ind (P := fun p _ σ σ' => ∀ {L : Ledger}, L.Covers taken base σ.scopes →
    ∃ L', L.After p L' ∧ L'.Covers taken base σ'.scopes) ?_ hL
  intro p b ms σ σ' hu hq ha L hL
  rcases p.other_or_sub with hp | ⟨head, body, rfl⟩
  · obtain ⟨L', hms, hafter⟩ := hu.demand hp hq L
    refine ⟨L', hafter, ha.interpret (R := fun L τ => L.Covers taken base τ.scopes)
      (fun hm _ => hm.covers) ?_ hms hL⟩
    intro q c _ L₀ L₁ τ τ' hq _ hm hL
    obtain ⟨L₂, hafter, hL⟩ := hq.2 hL
    exact hL.after hafter hm
  · rw [((hu.subRun hq ha).mono And.left).scopes]
    exact ⟨L, ⟨rfl, rfl, rfl, fun h _ _ => h⟩, hL⟩

end StackScript
