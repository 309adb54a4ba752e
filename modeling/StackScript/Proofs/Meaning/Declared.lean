import StackScript.Proofs.Meaning.Evaluation
import StackScript.Proofs.Meaning.Names
import StackScript.Proofs.Routines

/-!
# Names a piece declares

Behind a simple piece the innermost scope binds what it bound before it and the names that the piece
declares, whether control has passed through the piece or not.

* `Runs.grown`: what a simple piece does to the innermost scope.
* `Program.Lowered.sane`: what is known of every session in which a piece is lowered.
-/

namespace StackScript

open Scopes

/-- The piece is built from what is evaluated. -/
def Piece.simple : Piece → Bool
  | .expr e => e.simple || e.control?.isSome
  | .each es | .backward es => Expr.allSimple es
  | .stmt s => s.simple
  | .stmts ss => Stmt.allSimple ss
  | .branches _ elsifs => Stmt.branchesSimple elsifs
  | .args _ _ | .body _ _ => false

namespace Scopes

/-- What the names bound in the innermost scope stand for. -/
def top? : List Scope → String → Option Binding
  | [], _ => none
  | a :: _, x => a.binding? x

/-- The names of the innermost scope do not depend on the count of slots. -/
theorem Below.top {s s' : List Scope} (h : Below s s') : top? s' = top? s := by
  cases h with
  | nil => rfl
  | scope => rfl
  | sub => rfl

/-- A name that has been declared has the slot, and the other names are as they were. -/
theorem declare_top {s s' : Scopes} {x : String} {type : ValueType} {slot : Slot}
    (h : Scopes.declare x type s = (.ok slot, s')) : ∃ b, b.slot = slot ∧
      (∀ y, top? s'.stack y = if x = y then some b else top? s.stack y) ∧
      (top? s.stack x = some b ∨ top? s.stack x = none ∧ b.type = type) := by
  obtain ⟨a, r, hs, ⟨b, hb, rfl, rfl⟩ | ⟨t, hnone, ha, hb⟩⟩ := declare_ok h
  · have hx : top? s'.stack x = some b := by
      rw [hs]
      exact hb
    refine ⟨b, rfl, fun y => ?_, .inl hx⟩
    split
    · rename_i heq
      rw [← heq, hx]
    · rfl
  · obtain ⟨a', r', ht, hs'⟩ := bind_ok hb
    have htop : top? (a' :: r') = top? s.stack := by
      rw [← ht, (alloc_ok ha).2.1]
      exact Below.bump.top
    refine ⟨⟨slot, type⟩, rfl, fun y => ?_, .inr ⟨?_, rfl⟩⟩
    · rw [hs', ← htop]
      exact binding?_bind
    · rw [hs]
      exact hnone

/-- The innermost scope binds what it did, and these names, those that it did not without a type. -/
structure Grown (declares : String → Bool) (s s' : List Scope) : Prop where
  kept : ∀ {x b}, top? s x = some b → top? s' x = some b
  new : ∀ {x b}, top? s' x = some b →
    top? s x = some b ∨ declares x = true ∧ b.type.isUnknown = true
  bound : ∀ {x}, declares x = true → (top? s' x).isSome = true

namespace Grown

theorem refl {s : List Scope} : Grown (fun _ => false) s s := ⟨id, .inl, by simp⟩

/-- The names that two pieces declare, one after the other. -/
theorem trans {D D' : String → Bool} {s₁ s₂ s₃ : List Scope} (h₁ : Grown D s₁ s₂)
    (h₂ : Grown D' s₂ s₃) : Grown (fun x => D x || D' x) s₁ s₃ := by
  refine ⟨fun hx => h₂.kept (h₁.kept hx), fun {x b} hx => ?_, fun {x} hx => ?_⟩
  · rcases h₂.new hx with hx | ⟨hd, ht⟩
    · rcases h₁.new hx with hx | ⟨hd, ht⟩
      · exact .inl hx
      · exact .inr ⟨by simp [hd], ht⟩
    · exact .inr ⟨by simp [hd], ht⟩
  · rcases Bool.or_eq_true _ _ ▸ hx with hx | hx
    · obtain ⟨b, hb⟩ := Option.isSome_iff_exists.mp (h₁.bound hx)
      simp [h₂.kept hb]
    · exact h₂.bound hx

theorem congr {D D' : String → Bool} {s s' : List Scope} (h : Grown D s s')
    (hD : ∀ x, D x = D' x) : Grown D' s s' := by
  obtain rfl : D = D' := funext hD
  exact h

theorem below {D : String → Bool} {s s' t : List Scope} (h : Grown D s s') (hb : Below s' t) :
    Grown D s t := by
  have hsame : top? t = top? s' := hb.top
  exact ⟨fun hx => hsame ▸ h.kept hx, fun hx => h.new (hsame ▸ hx), fun hx => hsame ▸ h.bound hx⟩

/-- A declaration adds its name to the innermost scope. -/
theorem declare {s s' : Scopes} {name : String} {type : ValueType} {slot : Slot}
    (h : Scopes.declare name type s = (.ok slot, s')) (ht : type.isUnknown = true) :
    Grown (fun x => name == x) s.stack s'.stack := by
  obtain ⟨b, -, htop, hold⟩ := declare_top h
  refine ⟨fun {x c} hx => ?_, fun {x c} hx => ?_, fun {x} hx => ?_⟩
  · rw [htop]
    split
    · rename_i heq
      subst heq
      rcases hold with hold | ⟨hnone, -⟩
      · rw [← hold, hx]
      · cases hnone.symm.trans hx
    · exact hx
  · rw [htop] at hx
    split at hx
    · rename_i heq
      subst heq
      obtain rfl := Option.some.inj hx
      rcases hold with hold | ⟨-, rfl⟩
      · exact .inl hold
      · exact .inr ⟨by simp, ht⟩
    · exact .inl hx
  · obtain rfl : name = x := by simpa using hx
    simp [htop]

end Grown

end Scopes

/-! ### Along a template -/

/-- How many scopes a template has opened so far, and the names it has declared in the scope it
began in; nothing if a move does there what no simple piece does. -/
def Move.declared (S : Nat × (String → Bool)) : Move → Option (Nat × (String → Bool))
  | .declare x type _ =>
    if S.1 = 0 then if type.isUnknown then some (0, fun y => S.2 y || x == y) else none else some S
  | .piece p _ =>
    if S.1 = 0 then if p.simple then some (0, fun y => S.2 y || p.declares y) else none else some S
  | .bind _ _ _ => if S.1 = 0 then none else some S
  | .enter (.subroutine _) | .argument _ _ _ | .params _ => none
  | .enter _ => some (S.1 + 1, S.2)
  | .leave => if S.1 = 0 then none else some (S.1 - 1, S.2)
  | _ => some S

theorem Enforces.declared {e : Expr} {type : ValueType} {role : Role} {cs : List Move} {ok : Bool}
    (h : Enforces e type role cs ok) {S : Nat × (String → Bool)} :
    cs.foldlM Move.declared S = some S := by
  cases h <;> rfl

/-- Only `last` and `next` without arguments leave a loop. -/
theorem Expr.control?_call {name : String} {args : List Expr} {s : Span} {o : Ending}
    (h : (Expr.call name args s).control? = some o) :
    args = [] ∧ (name = "last" ∧ o = .last ∨ name = "next" ∧ o = .next) := by
  unfold control? at h
  split at h
  · rename_i heq
    cases heq
    split at h
    · exact ⟨rfl, .inl ⟨‹_›, (Option.some.inj h).symm⟩⟩
    · split at h
      · exact ⟨rfl, .inr ⟨‹_›, (Option.some.inj h).symm⟩⟩
      · cases h
  · cases h

/-- A simple call that is none of `last` and `next` is of a builtin or a checkpoint. -/
theorem Expr.simple_call {name : String} {args : List Expr} {s : Span}
    (h : Piece.simple (.expr (.call name args s)) = true) (hlast : name ≠ "last")
    (hnext : name ≠ "next") :
    (name = "checkpoint" ∨ ∃ b, Builtin.ofName? name = some b) ∧ allSimple args = true := by
  rcases Bool.or_eq_true _ _ ▸ h with h | h
  · simpa [simple, Option.isSome_iff_exists] using h
  · obtain ⟨o, ho⟩ := Option.isSome_iff_exists.mp h
    obtain ⟨-, ⟨rfl, -⟩ | ⟨rfl, -⟩⟩ := control?_call ho
    · exact absurd rfl hlast
    · exact absurd rfl hnext

/-- The template of a simple piece declares the names that the piece declares. -/
theorem Unfolds.declared {p : Piece} {ms : List Move} {b : Bool} (h : Unfolds p ms b)
    (hq : Quiet ms) (hs : p.simple = true) : ∃ D, ms.foldlM Move.declared (0, fun _ => false) =
      some (0, D) ∧ ∀ x, D x = p.declares x := by
  cases h with
  | integer | str | bool | undefined | var | last | eachNil | backwardNil | stmtsNil
  | branchesNil =>
      exact ⟨_, rfl, by simp [Piece.declares, Expr.declares, Expr.anyDeclares, Stmt.anyDeclares]⟩
  | @next _ control =>
      cases control <;> exact ⟨_, rfl, by simp [Piece.declares, Expr.declares, Expr.anyDeclares]⟩
  | @checkpoint _ on =>
      cases on <;> exact ⟨_, rfl, by simp [Piece.declares, Expr.declares, Expr.anyDeclares]⟩
  | declare | list | unary | binary | index =>
      simp only [Piece.simple, Expr.simple, Expr.control?, Option.isSome_none, Bool.or_false,
        Bool.and_eq_true] at hs
      simp [Move.declared, Move.op, Piece.simple, Piece.declares, Expr.declares, hs]
  | assignVar hc | assignDeclare hc =>
      simp only [Piece.simple, Expr.simple, Expr.control?, Option.isSome_none, Bool.or_false,
        Bool.and_eq_true] at hs
      simp [Move.declared, Move.op, hc.declared, Piece.simple, Piece.declares, Expr.declares, hs,
        Bool.or_comm]
  | @builtin name _ _ _ hb =>
      obtain ⟨-, hs⟩ := Expr.simple_call hs (by rintro rfl; cases hb) (by rintro rfl; cases hb)
      simp [Move.declared, Piece.simple, Piece.declares, Expr.declares, hs]
  | eachCons | backwardCons =>
      simp only [Piece.simple, Expr.allSimple, Bool.and_eq_true] at hs
      simp [Move.declared, Piece.simple, Piece.declares, Expr.anyDeclares, hs, Bool.or_comm]
  | exprStmt | stmtsCons =>
      simp only [Piece.simple, Stmt.simple, Stmt.allSimple, Bool.and_eq_true] at hs
      simp [Move.declared, Move.op, Piece.simple, Piece.declares, Stmt.declares, Stmt.anyDeclares,
        hs]
  | block | whileLoop => exact ⟨_, rfl, by simp [Piece.declares, Stmt.declares]⟩
  | @loop init condition step =>
      cases init <;> cases condition <;> cases step <;>
        exact ⟨_, rfl, by simp [Piece.declares, Stmt.declares]⟩
  | @cond _ _ _ rest =>
      cases rest with
      | none =>
          simp only [Piece.simple, Stmt.simple, Bool.and_eq_true] at hs
          simp [Move.declared, Move.block, Move.otherwise, Piece.simple, Piece.declares,
            Stmt.declares, hs]
      | some body =>
          simp only [Piece.simple, Stmt.simple, Bool.and_eq_true] at hs
          simp [Move.declared, Move.block, Move.otherwise, Piece.simple, Piece.declares,
            Stmt.declares, hs]
  | branchesCons =>
      simp only [Piece.simple, Stmt.branchesSimple, Bool.and_eq_true] at hs
      simp [Move.declared, Move.block, Piece.simple, Piece.declares, hs]
  | forEach =>
      simp only [Piece.simple, Stmt.simple, Bool.and_eq_true] at hs
      simp [Move.declared, Move.op, Move.increment, Piece.simple, Piece.declares, Stmt.declares, hs]
  | assignVarMismatch hc | assignDeclareMismatch hc =>
      exact absurd (hc.quiet fun m hm => hq m (by simp [hm])) (by simp)
  | float | argsNil | argsFree | argsHeld | sub | retUndef | ret | use | package | bodyNil
  | bodyExpr | bodyRet | bodyCons =>
      simp [Piece.simple, Expr.simple, Expr.control?, Stmt.simple] at hs
  | external ho | call ho =>
      obtain ⟨hlast, hnext, hcheckpoint, hbuiltin⟩ := ho
      obtain ⟨h | ⟨b, h⟩, -⟩ := Expr.simple_call hs hlast hnext
      · exact absurd h hcheckpoint
      · rw [hbuiltin] at h
        cases h
  | varUndeclared | typed | assignVarUndeclared | assignOther | loopControlArguments | noLoop
  | checkpointArgument | builtinTooMany | externalTooMany | callTooFew | callTooMany
  | callRefused | argsRefused | subParameter | subRedeclared => simp [Quiet, Move.quiet] at hq

/-- What a template that began at `σ` has done to the innermost scope there. -/
theorem Move.Does.grown {m : Move} {S S' : Nat × (String → Bool)} {σ τ τ' : Session}
    (h : m.Does τ τ') (hm : Move.declared S m = some S')
    (hg : Grown S.2 σ.scopes.stack (τ.scopes.stack.drop S.1)) :
    Grown S'.2 σ.scopes.stack (τ'.scopes.stack.drop S'.1) := by
  obtain ⟨k, D⟩ := S
  -- The scopes that the template has entered since are dropped, so that a declaration counts at depth
  -- zero only.
  cases m with
  | enter kind =>
      obtain rfl := h
      obtain rfl : S' = (k + 1, D) := by cases kind <;> simp_all [Move.declared]
      exact hg
  | leave =>
      obtain rfl := h
      cases k with
      | zero => simp [Move.declared] at hm
      | succ k =>
          obtain rfl : (k, D) = S' := by simpa [Move.declared] using hm
          simpa [Scopes.leave] using hg
  | declare x type slot =>
      obtain ⟨s, hs, rfl⟩ := acts_declare.mp h
      cases k with
      | zero =>
          simp only [Move.declared, if_true] at hm
          split at hm
          · obtain rfl := Option.some.inj hm
            exact hg.trans (.declare hs ‹_›)
          · cases hm
      | succ k =>
          obtain rfl : (k + 1, D) = S' := by simpa [Move.declared] using hm
          exact hg.below ((h.kept (by simp) (by simp)).drop_succ k)
  | bind x s type =>
      cases k with
      | zero => simp [Move.declared] at hm
      | succ k =>
          obtain rfl : (k + 1, D) = S' := by simpa [Move.declared] using hm
          exact hg.below ((h.kept (by simp) (by simp)).drop_succ k)
  | alloc slot =>
      obtain rfl := Option.some.inj hm
      obtain ⟨s, hs, rfl⟩ := acts_alloc.mp h
      rw [(alloc_ok hs).2.1]
      exact hg.below (Below.bump.drop k)
  | piece p b => exact h.elim
  | argument | params => cases hm
  | _ =>
      obtain rfl := Option.some.inj hm
      rw [h.spares.scopes rfl]
      exact hg

/-- **What a simple piece does to the innermost scope.** -/
theorem Runs.grown {p : Piece} {b : Bool} {σ σ' : Session} (h : Runs Quiet p b σ σ')
    (hs : p.simple = true) : Grown p.declares σ.scopes.stack σ'.scopes.stack := by
  refine h.ind (P := fun p _ σ σ' => p.simple = true →
    Grown (fun x => p.declares x) σ.scopes.stack σ'.scopes.stack) ?_ hs
  intro p b ms σ σ' hu hq ha hs
  obtain ⟨D, hfold, hD⟩ := hu.declared hq hs
  have hg : Grown D σ.scopes.stack (σ'.scopes.stack.drop 0) := by
    refine ha.interpret (R := fun S τ => Grown S.2 σ.scopes.stack (τ.scopes.stack.drop S.1))
      (fun hm _ => hm.grown) ?_ hfold .refl
    rintro q c - ⟨k, D⟩ S' τ τ' ⟨hq, ih⟩ - hm hg
    cases k with
    | zero =>
        simp only [Move.declared, if_true] at hm
        split at hm
        · obtain rfl := Option.some.inj hm
          exact hg.trans (ih ‹_›)
        · cases hm
    | succ k =>
        obtain rfl : (k + 1, D) = S' := by simpa [Move.declared] using hm
        exact hg.below (hq.kept.drop_succ k)
  exact hg.congr hD

/-! ### Sessions in which pieces are lowered -/

/-- The names in scope have slots of their own, and the pool is one that operands can index. -/
structure Session.Sane (σ : Session) : Prop where
  apart : Apart σ.scopes.stack
  pool : σ.draft.chunk.constants.size ≤ UInt16.size

/-- A move does not add more constants than an operand can name. -/
theorem Move.Does.pool {m : Move} {σ σ' : Session} (h : m.Does σ σ')
    (hp : σ.draft.chunk.constants.size ≤ UInt16.size) :
    σ'.draft.chunk.constants.size ≤ UInt16.size := by
  cases m with
  | emit i =>
      obtain rfl := acts_emit.mp h
      exact hp
  | constant v =>
      obtain ⟨d, hd, rfl⟩ := acts_constant.mp h
      obtain ⟨index, c, hc, rfl⟩ := Draft.emitConstant_eq_ok.mp hd
      have hsize := @Chunk.size_addConstant v _ hp
      rw [hc] at hsize
      exact hsize
  | piece p b => exact h.elim
  | _ =>
      rw [h.chunk_eq rfl]
      exact hp

/-- The pool stays within what an operand can name. -/
theorem Runs.pool {Q : List Move → Prop} {p : Piece} {b : Bool} {σ σ' : Session}
    (h : Runs Q p b σ σ') : σ.draft.chunk.constants.size ≤ UInt16.size →
      σ'.draft.chunk.constants.size ≤ UInt16.size :=
  h.rel (R := fun σ σ' => σ.draft.chunk.constants.size ≤ UInt16.size →
    σ'.draft.chunk.constants.size ≤ UInt16.size) id (fun h₁ h₂ h => h₂ (h₁ h)) Move.Does.pool

theorem Part.sane {p q : Piece} {b c : Bool} {σ σ' τ τ' : Session} (h : Part p b σ σ' q c τ τ')
    (hσ : σ.Sane) : τ.Sane := by
  obtain ⟨ms, ns, hu, h₁, -, -⟩ := h
  obtain ⟨held, hfold⟩ := hu.holds
  rw [List.foldlM_append] at hfold
  obtain ⟨S, hS, -⟩ := Option.bind_eq_some_iff.mp hfold
  have hheld := h₁.held (fun h => ⟨h.runs.kept, h.runs.apart⟩) hS ⟨.refl, hσ.apart, .refl, by simp⟩
  refine ⟨hheld.apart, ?_⟩
  exact h₁.rel (R := fun σ σ' => σ.draft.chunk.constants.size ≤ UInt16.size →
    σ'.draft.chunk.constants.size ≤ UInt16.size) id (fun h₁ h₂ h => h₂ (h₁ h)) Move.Does.pool
    (fun hl => hl.runs.pool) hσ.pool

/-- **Every session in which compiling a program lowers a piece is sane.** -/
theorem Program.Lowered.sane {p : Program} {name : String} {options : CompileOptions} {q : Piece}
    {b : Bool} {τ τ' : Session} (h : p.Lowered name options q b τ τ') : τ.Sane := by
  obtain ⟨σ, -, hv⟩ := h
  induction hv with
  | self =>
      have hknows : (Session.start name options).Knows
        ((Session.start name options).declareStmts PackageTree.root p.body) :=
        Session.declareStmts_knows
      refine ⟨?_, ?_⟩
      · show Apart (Scopes.enter _ _).stack
        rw [hknows.scopes]
        exact Apart.enter trivial
      · have hpool : (p.entry name options).draft.chunk.constants = #[] :=
          congrArg Chunk.constants hknows.code
        simp [hpool]
  | part _ hpart ih => exact hpart.sane ih

end StackScript
