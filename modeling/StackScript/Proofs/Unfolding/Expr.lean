import StackScript.Proofs.Template

/-!
# Expressions go by the table

`Lowers p b σ σ'` says that lowering the piece `p` leads from `σ` to `σ'` with the result `b`.
Whenever an expression, a list of expressions or a list of arguments is lowered, it is by the moves
of a line of the table (`expr_unfolds`, `each_unfolds`, `backward_unfolds`, `args_unfolds`).
-/

namespace StackScript

/-! ### Steps that end well -/

namespace Step

variable {σ α β γ : Type}

/-- Two steps end well if the first does and the second does from there. -/
theorem bind_eq_ok {x : Step σ α} {f : α → Step σ β} {s s' : σ} {b : β} :
    (x >>= f) s = (.ok b, s') ↔ ∃ a s₁, x s = (.ok a, s₁) ∧ f a s₁ = (.ok b, s') := by
  show Step.bind x f s = _ ↔ _
  unfold Step.bind
  constructor
  · intro h
    split at h
    · exact ⟨_, _, ‹_›, h⟩
    · cases h
  · rintro ⟨a, s₁, h₁, h₂⟩
    rw [h₁]
    exact h₂

/-- A sequence of steps stops where the first step stops or the others do. -/
theorem bind_eq_error {x : Step σ α} {f : α → Step σ β} {s s' : σ} {e : Fault} :
    (x >>= f) s = (.error e, s') ↔
      x s = (.error e, s') ∨ ∃ a s₁, x s = (.ok a, s₁) ∧ f a s₁ = (.error e, s') := by
  show Step.bind x f s = _ ↔ _
  unfold Step.bind
  rcases x s with ⟨e' | a, s₁⟩
  · simp
  · constructor
    · intro h
      exact .inr ⟨a, s₁, rfl, h⟩
    · rintro (h | ⟨_, _, ⟨⟩, h⟩)
      · cases h
      · exact h

theorem pure_eq_ok {s s' : σ} {a b : α} :
    (pure a : Step σ α) s = (.ok b, s') ↔ a = b ∧ s = s' := by
  show (Except.ok a, s) = _ ↔ _
  simp

theorem view_eq_ok {f : σ → α} {s s' : σ} {a : α} :
    Step.view f s = (.ok a, s') ↔ f s = a ∧ s = s' := by
  simp [Step.view]

/-- Reading the state never stops. -/
theorem view_bind {f : σ → α} {g : α → Step σ β} {s : σ} : (Step.view f >>= g) s = g (f s) s := rfl

/-- A step that fails does not end well. -/
theorem fail_ne_ok {f : Fault} {s s' : σ} {a : α} : Step.fail f s ≠ (.ok a, s') := by
  simp [Step.fail]

/-- A step that yields nothing is known by its last session. -/
theorem eq_ok_of_isOk {x : Step σ Unit} {s : σ} (h : (x s).1.isOk = true) : x s = (.ok (), (x s).2) := by
  rcases hx : x s with ⟨f | _, s'⟩
  · rw [hx] at h
    cases h
  · rfl

end Step

section Along

variable {K : Piece → Bool → Session → Session → Prop} {ms ns : List Move} {σ τ σ' : Session}

/-- A row of moves in two parts leads over a session in between. -/
theorem along_append : Along K (ms ++ ns) σ σ' ↔ ∃ τ, Along K ms σ τ ∧ Along K ns τ σ' := by
  induction ms generalizing σ with
  | nil => simp [Along]
  | cons m ms ih =>
      simp only [List.cons_append, Along, ih]
      constructor
      · rintro ⟨σ₁, h₁, τ, h₂, h₃⟩
        exact ⟨τ, ⟨σ₁, h₁, h₂⟩, h₃⟩
      · rintro ⟨τ, ⟨σ₁, h₁, h₂⟩, h₃⟩
        exact ⟨σ₁, h₁, τ, h₂, h₃⟩

theorem Along.append (h₁ : Along K ms σ τ) (h₂ : Along K ns τ σ') : Along K (ms ++ ns) σ σ' :=
  along_append.mpr ⟨τ, h₁, h₂⟩

end Along

namespace Lower

variable {K : Piece → Bool → Session → Session → Prop} {σ σ' : Session} {α : Type}

/-- A body in a scope ends well if it does with the scope open, and the scope is left behind it. -/
theorem inScope_eq_ok {kind : ScopeKind} {x : Lower α} {a : α} :
    inScope kind x σ = (.ok a, σ') ↔
      ∃ τ, x { σ with scopes := σ.scopes.enter kind } = (.ok a, τ) ∧
        σ' = { τ with scopes := τ.scopes.leave } := by
  unfold inScope
  constructor
  · intro h
    split at h
    simp only [Prod.mk.injEq] at h
    obtain ⟨rfl, rfl⟩ := h
    exact ⟨_, ‹_›, rfl⟩
  · rintro ⟨τ, h, rfl⟩
    rw [h]

/-- A body in a package ends well if it does there, and the package around is current behind it. -/
theorem inPackage_eq_ok {id : PackageId} {x : Lower α} {a : α} :
    inPackage id x σ = (.ok a, σ') ↔
      ∃ τ, x { σ with package := id } = (.ok a, τ) ∧ σ' = { τ with package := σ.package } := by
  unfold inPackage
  rcases h : x { σ with package := id } with ⟨r, τ⟩
  simp only [Prod.mk.injEq]
  constructor
  · rintro ⟨rfl, rfl⟩
    exact ⟨τ, ⟨rfl, rfl⟩, rfl⟩
  · rintro ⟨_, ⟨rfl, rfl⟩, rfl⟩
    exact ⟨rfl, rfl⟩

/-- A number of slots is found to be small enough, and nothing else is done. -/
theorem slotCount_eq_ok {n : Nat} {k : UInt16} :
    slotCount n σ = (.ok k, σ') ↔ n < UInt16.size ∧ n.toUInt16 = k ∧ σ = σ' := by
  unfold slotCount
  split
  · simp [Step.pure_eq_ok, *]
  · simp [Step.fail, *]

/-- Enforcing a type is one of the three rows of moves that the table has for it. -/
theorem enforce_eq_ok {e : Expr} {type : ValueType} {role : Role} {ok : Bool} :
    enforce e type role σ = (.ok ok, σ') ↔
      ∃ cs, Enforces e type role cs ok ∧ Along K cs σ σ' := by
  unfold enforce
  constructor
  · intro h
    split at h
    · obtain ⟨rfl, rfl⟩ := Step.pure_eq_ok.mp h
      exact ⟨[], .free ‹_›, rfl⟩
    · rename_i hu
      have hu : type.isUnknown = false := by simpa using hu
      rw [Step.view_bind] at h
      cases hf : (σ.typeOf e).fit type <;> simp only [hf] at h
      · obtain ⟨rfl, rfl⟩ := Step.pure_eq_ok.mp h
        exact ⟨_, .identical hu hf, _, ⟨rfl, rfl⟩, rfl⟩
      · obtain ⟨_, τ, h₁, h₂⟩ := Step.bind_eq_ok.mp h
        obtain ⟨rfl, rfl⟩ := Step.pure_eq_ok.mp h₂
        exact ⟨_, .castable hu hf, _, ⟨rfl, rfl⟩, _, h₁, rfl⟩
      · obtain ⟨_, τ, h₁, h₂⟩ := Step.bind_eq_ok.mp h
        obtain ⟨rfl, rfl⟩ := Step.pure_eq_ok.mp h₂
        exact ⟨_, .incompatible hu hf, _, ⟨rfl, rfl⟩, _, h₁, rfl⟩
  · rintro ⟨cs, h, ha⟩
    cases h with
    | free hu =>
        obtain rfl : σ = σ' := ha
        simp [hu, Step.pure_eq_ok]
    | identical hu hf =>
        obtain ⟨_, ⟨rfl, rfl⟩, rfl⟩ := ha
        simp [hu, Step.view_bind, hf, Step.pure_eq_ok]
    | castable hu hf =>
        obtain ⟨_, ⟨rfl, rfl⟩, _, h, rfl⟩ := ha
        simpa [hu, Step.view_bind, hf] using Step.bind_eq_ok.mpr ⟨_, _, h, rfl⟩
    | incompatible hu hf =>
        obtain ⟨_, ⟨rfl, rfl⟩, _, h, rfl⟩ := ha
        simpa [hu, Step.view_bind, hf] using Step.bind_eq_ok.mpr ⟨_, _, h, rfl⟩

/-- Returning the undefined value is a row of moves of the table. -/
theorem emitUndefReturn_eq_ok {span : Span} :
    emitUndefReturn span σ = (.ok (), σ') ↔ ∃ ms, ReturnsUndef span ms ∧ Along K ms σ σ' := by
  simp only [emitUndefReturn, Step.view_bind, Step.bind_eq_ok]
  constructor
  · rintro ⟨_, τ, h₁, ok, τ', h₂, h₃⟩
    obtain ⟨cs, hc, ha⟩ := (enforce_eq_ok (K := K)).mp h₂
    exact ⟨_, .intro hc, _, ⟨rfl, rfl⟩, _, h₁, along_append.mpr ⟨_, ha, _, h₃, rfl⟩⟩
  · rintro ⟨ms, ⟨hc⟩, _, ⟨rfl, rfl⟩, τ, h₁, h₂⟩
    obtain ⟨τ', ha, _, h₃, rfl⟩ := along_append.mp h₂
    exact ⟨(), τ, h₁, _, τ', enforce_eq_ok.mpr ⟨_, hc, ha⟩, h₃⟩

end Lower

/-- The piece is lowered from `σ` to `σ'` with the result `b`. -/
def Lowers (p : Piece) (b : Bool) (σ σ' : Session) : Prop := p.lower σ = (.ok b, σ')

namespace Lowers
open Lower

variable {σ σ' : Session} {b : Bool}

/-- A step that is taken for its effect yields `true` as a piece. -/
theorem unit_iff {x : Lower Unit} : (do x; return true : Lower Bool) σ = (.ok b, σ') ↔
    x σ = (.ok (), σ') ∧ b = true := by
  rw [Step.bind_eq_ok]
  constructor
  · rintro ⟨_, _, h, h'⟩
    obtain ⟨rfl, rfl⟩ := Step.pure_eq_ok.mp h'
    exact ⟨h, rfl⟩
  · rintro ⟨h, rfl⟩
    exact ⟨(), σ', h, rfl⟩

theorem expr_iff {e : Expr} : Lowers (.expr e) b σ σ' ↔ lowerExpr e σ = (.ok (), σ') ∧ b = true :=
  unit_iff

theorem each_iff {es : List Expr} :
    Lowers (.each es) b σ σ' ↔ lowerEach es σ = (.ok (), σ') ∧ b = true :=
  unit_iff

theorem backward_iff {es : List Expr} :
    Lowers (.backward es) b σ σ' ↔ lowerBackward es σ = (.ok (), σ') ∧ b = true :=
  unit_iff

theorem stmt_iff {s : Stmt} : Lowers (.stmt s) b σ σ' ↔ lowerStmt s σ = (.ok (), σ') ∧ b = true :=
  unit_iff

theorem stmts_iff {ss : List Stmt} :
    Lowers (.stmts ss) b σ σ' ↔ lowerStmts ss σ = (.ok (), σ') ∧ b = true :=
  unit_iff

theorem branches_iff {done : Label} {es : List (Expr × List Stmt)} :
    Lowers (.branches done es) b σ σ' ↔ lowerBranches done es σ = (.ok (), σ') ∧ b = true :=
  unit_iff

end Lowers


/-! ### Every lowering follows a template -/

section Unfolding
open Lower

variable {σ σ' : Session}

/-- A number of arguments is small enough, or it is reported. -/
theorem checkedArgc?_eq_ok {name : String} {n : Nat} {span : Span} {found : Option UInt8} :
    checkedArgc? name n span σ = (.ok found, σ') ↔
      (n < UInt8.size ∧ found = some n.toUInt8 ∧ σ = σ') ∨
      (¬ n < UInt8.size ∧ found = none ∧ report (.tooManyArguments name) span σ = (.ok (), σ')) := by
  unfold checkedArgc?
  split
  · rename_i hlt
    rw [Step.pure_eq_ok]
    simp only [hlt, true_and, not_true_eq_false, false_and, or_false]
    rw [eq_comm]
  · rename_i hge
    simp only [Step.bind_eq_ok, Step.pure_eq_ok, hge, false_and, not_false_eq_true, true_and,
      false_or]
    constructor
    · rintro ⟨_, _, h, rfl, rfl⟩
      exact ⟨rfl, h⟩
    · rintro ⟨rfl, h⟩
      exact ⟨_, _, h, rfl, rfl⟩

/-- `last` and `next` go by the table: in a loop, outside of one, or with arguments. -/
theorem loopControl_unfolds {name : String} {args : List Expr} {s : Span}
    (hn : name = "last" ∨ name = "next") (h : lowerLoopControl name args s σ = (.ok (), σ')) :
    ∃ ms, Unfolds (.expr (.call name args s)) ms true ∧ Along Lowers ms σ σ' := by
  unfold lowerLoopControl at h
  split at h
  · rename_i ha
    exact ⟨_, .loopControlArguments hn (by simpa using ha), _, h, rfl⟩
  · rename_i ha
    obtain rfl : args = [] := by simpa using ha
    rw [Step.view_bind] at h
    cases hc : σ.scopes.innermostLoop? with
    | none =>
        simp only [hc] at h
        exact ⟨_, .noLoop hn, _, ⟨hc, rfl⟩, _, h, rfl⟩
    | some control =>
        simp only [hc] at h
        rcases hn with rfl | rfl
        · simp only [beq_self_eq_true, if_true, Step.bind_eq_ok] at h
          obtain ⟨_, τ, h₁, h₂⟩ := h
          exact ⟨_, .last, _, ⟨hc, rfl⟩, _, h₁, _, h₂, rfl⟩
        · simp only [show ("next" == "last") = false from by decide, Bool.false_eq_true, if_false] at h
          refine ⟨_, .next, _, ⟨hc, rfl⟩, ?_⟩
          cases control with
          | whileLoop done next =>
              simp only [Step.bind_eq_ok] at h
              obtain ⟨_, τ, h₁, h₂⟩ := h
              exact ⟨_, h₁, _, h₂, rfl⟩
          | countedLoop done next =>
              simp only [Step.bind_eq_ok] at h
              obtain ⟨_, τ, h₁, h₂⟩ := h
              exact ⟨_, h₁, _, h₂, rfl⟩
          | forEach done next index item =>
              simp only [emitIncrement, Step.bind_eq_ok] at h
              obtain ⟨_, _, ⟨_, _, i₁, _, _, i₂, _, _, i₃, i₄⟩, _, τ, h₁, h₂⟩ := h
              exact ⟨_, i₁, _, i₂, _, i₃, _, i₄, _, h₁, _, h₂, rfl⟩

/-- A checkpoint goes by the table, whether checkpoints are emitted or not. -/
theorem checkpoint_unfolds {args : List Expr} {s : Span}
    (h : lowerCheckpoint args s σ = (.ok (), σ')) :
    ∃ ms, Unfolds (.expr (.call "checkpoint" args s)) ms true ∧ Along Lowers ms σ σ' := by
  unfold lowerCheckpoint at h
  split at h
  · rw [Step.view_bind] at h
    refine ⟨_, .checkpoint, _, ⟨rfl, rfl⟩, ?_⟩
    split at h
    · rename_i hon
      obtain ⟨_, τ, h₁, h₂⟩ := Step.bind_eq_ok.mp h
      rw [hon]
      exact ⟨_, h₁, _, h₂, rfl⟩
    · rename_i hon
      rw [Bool.not_eq_true _ |>.mp hon]
      exact ⟨_, h, rfl⟩
  · rename_i hne
    exact ⟨_, .checkpointArgument fun id s' e => hne id s' e, _, h, rfl⟩

/-- An assignment goes by the table, a line for each kind of target. -/
theorem assign_unfolds {target value : Expr} {s : Span}
    (h : lowerExpr (.assign target value s) σ = (.ok (), σ')) :
    ∃ ms, Unfolds (.expr (.assign target value s)) ms true ∧ Along Lowers ms σ σ' := by
  simp only [lowerExpr, storeInto, Step.bind_eq_ok] at h
  obtain ⟨_, τ, hv, found, τ₁, ht, h⟩ := h
  have hv : Lowers (.expr value) true σ τ := Lowers.expr_iff.mpr ⟨hv, rfl⟩
  -- The value is lowered before it is known whether the target can take it.
  unfold assignmentTarget? at ht
  split at ht
  · rename_i name s'
    rw [resolve?, Step.view_bind] at ht
    cases hb : τ.scopes.resolve? name with
    | none =>
        simp only [hb, Step.bind_eq_ok, Step.pure_eq_ok] at ht
        obtain ⟨_, _, ht, rfl, rfl⟩ := ht
        obtain ⟨_, rfl⟩ := Step.pure_eq_ok.mp h
        exact ⟨_, .assignVarUndeclared, _, hv, _, ⟨hb, rfl⟩, _, ht, rfl⟩
    | some b =>
        simp only [hb, Step.pure_eq_ok] at ht
        obtain ⟨rfl, rfl⟩ := ht
        simp only [Step.bind_eq_ok] at h
        obtain ⟨ok, τ₂, he, h⟩ := h
        obtain ⟨cs, hc, ha⟩ := (enforce_eq_ok (K := Lowers)).mp he
        cases ok with
        | false =>
            obtain ⟨_, rfl⟩ := Step.pure_eq_ok.mp h
            exact ⟨_, .assignVarMismatch hc, _, hv, _, ⟨hb, rfl⟩, ha⟩
        | true =>
            obtain ⟨_, τ₃, h₁, h₂⟩ := Step.bind_eq_ok.mp h
            exact ⟨_, .assignVar hc, _, hv, _, ⟨hb, rfl⟩,
              along_append.mpr ⟨_, ha, _, h₁, _, h₂, rfl⟩⟩
  · rename_i name type s'
    simp only [Step.bind_eq_ok, Step.pure_eq_ok] at ht
    obtain ⟨slot, _, hd, rfl, rfl⟩ := ht
    simp only [Step.bind_eq_ok] at h
    obtain ⟨ok, τ₂, he, h⟩ := h
    obtain ⟨cs, hc, ha⟩ := (enforce_eq_ok (K := Lowers)).mp he
    cases ok with
    | false =>
        obtain ⟨_, rfl⟩ := Step.pure_eq_ok.mp h
        exact ⟨_, .assignDeclareMismatch hc, _, hv, _, hd, ha⟩
    | true =>
        obtain ⟨_, τ₃, h₁, h₂⟩ := Step.bind_eq_ok.mp h
        exact ⟨_, .assignDeclare hc, _, hv, _, hd, along_append.mpr ⟨_, ha, _, h₁, _, h₂, rfl⟩⟩
  · rename_i hvar hdecl
    simp only [Step.bind_eq_ok, Step.pure_eq_ok] at ht
    obtain ⟨_, _, ht, rfl, rfl⟩ := ht
    obtain ⟨_, rfl⟩ := Step.pure_eq_ok.mp h
    exact ⟨_, .assignOther hvar hdecl, _, hv, _, ht, rfl⟩

/-- A call of a subroutine goes by the table: it is known here, or it is external. -/
theorem subCall_unfolds {name : String} {args : List Expr} {s : Span} (ho : Ordinary name)
    (h : lowerExpr (.call name args s) σ = (.ok (), σ')) :
    ∃ ms, Unfolds (.expr (.call name args s)) ms true ∧ Along Lowers ms σ σ' := by
  obtain ⟨hl, hn, hc, hb⟩ := id ho
  rw [lowerExpr, if_neg (by simp [hl, hn]), if_neg (by simp [hc])] at h
  simp only [hb, resolveSub?, Step.view_bind] at h
  cases hm : σ.packages.resolveSub? σ.package name with
  | none =>
      simp only [hm] at h
      obtain ⟨found, τ, hf, h⟩ := Step.bind_eq_ok.mp h
      rcases checkedArgc?_eq_ok.mp hf with ⟨hlt, rfl, rfl⟩ | ⟨hge, rfl, hr⟩
      · simp only [Step.bind_eq_ok] at h
        obtain ⟨_, τ, h₁, _, τ₁, h₂, h₃⟩ := h
        exact ⟨_, .external ho hlt, _, ⟨hm, rfl⟩, _, Lowers.backward_iff.mpr ⟨h₁, rfl⟩, _, h₂, _,
          h₃, rfl⟩
      · obtain ⟨_, rfl⟩ := Step.pure_eq_ok.mp h
        exact ⟨_, .externalTooMany ho hge, _, ⟨hm, rfl⟩, _, hr, rfl⟩
  | some found =>
      obtain ⟨owner, sub⟩ := found
      simp only [hm, Step.view_bind] at h
      split at h
      · rename_i hlt
        exact ⟨_, .callTooFew ho hlt, _, ⟨hm, rfl⟩, _, ⟨rfl, rfl⟩, _, h, rfl⟩
      -- There are enough arguments; they may still be too many to count, or one of them may be refused.
      rename_i hle
      have hle : sub.params.length ≤ args.length := Nat.not_lt.mp hle
      obtain ⟨found, τ, hf, h⟩ := Step.bind_eq_ok.mp h
      rcases checkedArgc?_eq_ok.mp hf with ⟨hlt, rfl, rfl⟩ | ⟨hge, rfl, hr⟩
      · obtain ⟨ok, τ, ha, h⟩ := Step.bind_eq_ok.mp h
        cases ok with
        | false =>
            obtain ⟨_, rfl⟩ := Step.pure_eq_ok.mp h
            exact ⟨_, .callRefused ho hle hlt, _, ⟨hm, rfl⟩, _, ha, rfl⟩
        | true =>
            refine ⟨_, .call ho hle hlt, _, ⟨hm, rfl⟩, _, ⟨rfl, rfl⟩, _, ha, along_append.mpr ?_⟩
            cases hu : sub.usesArgList with
            | false =>
                simp only [if_true, hu, Bool.false_eq_true, if_false, Step.bind_eq_ok] at h
                obtain ⟨_, τ₁, h₁, h₂⟩ := h
                exact ⟨_, rfl, _, h₁, _, h₂, rfl⟩
            | true =>
                simp only [if_true, hu, Step.bind_eq_ok] at h
                obtain ⟨_, τ₁, h₁, _, τ₂, h₂, h₃⟩ := h
                exact ⟨_, ⟨_, h₁, rfl⟩, _, h₂, _, h₃, rfl⟩
      · obtain ⟨_, rfl⟩ := Step.pure_eq_ok.mp h
        exact ⟨_, .callTooMany ho hle hge, _, ⟨hm, rfl⟩, _, hr, rfl⟩

/-- A call goes by the table, whether of a builtin or of a subroutine. -/
theorem call_unfolds {name : String} {args : List Expr} {s : Span}
    (h : lowerExpr (.call name args s) σ = (.ok (), σ')) :
    ∃ ms, Unfolds (.expr (.call name args s)) ms true ∧ Along Lowers ms σ σ' := by
  by_cases hloop : name = "last" ∨ name = "next"
  · rw [lowerExpr, if_pos (by simpa using hloop)] at h
    exact loopControl_unfolds hloop h
  by_cases hcp : name = "checkpoint"
  · subst hcp
    exact checkpoint_unfolds (by simpa [lowerExpr] using h)
  cases hb : Builtin.ofName? name with
  | some b =>
      rw [lowerExpr, if_neg (by simpa using hloop), if_neg (by simpa using hcp)] at h
      simp only [hb] at h
      obtain ⟨found, τ, hf, h⟩ := Step.bind_eq_ok.mp h
      rcases checkedArgc?_eq_ok.mp hf with ⟨hlt, rfl, rfl⟩ | ⟨hge, rfl, hr⟩
      · obtain ⟨_, τ, h₁, h₂⟩ := Step.bind_eq_ok.mp h
        exact ⟨_, .builtin hb hlt, _, Lowers.backward_iff.mpr ⟨h₁, rfl⟩, _, h₂, rfl⟩
      · obtain ⟨_, rfl⟩ := Step.pure_eq_ok.mp h
        exact ⟨_, .builtinTooMany hb hge, _, hr, rfl⟩
  | none =>
      obtain ⟨hl, hn⟩ := not_or.mp hloop
      exact subCall_unfolds ⟨hl, hn, hcp, hb⟩ h

/-- **Lowering an expression goes by the table.** -/
theorem expr_unfolds {e : Expr} (h : lowerExpr e σ = (.ok (), σ')) :
    ∃ ms, Unfolds (.expr e) ms true ∧ Along Lowers ms σ σ' := by
  cases e with
  | integer v s => exact ⟨_, .integer, _, h, rfl⟩
  | float v s => exact ⟨_, .float, _, h, rfl⟩
  | str v s => exact ⟨_, .str, _, h, rfl⟩
  | bool v s => exact ⟨_, .bool, _, h, rfl⟩
  | undefined s => exact ⟨_, .undefined, _, h, rfl⟩
  | var name s =>
      rw [lowerExpr, lowerVariable, resolve?, Step.view_bind] at h
      cases hb : σ.scopes.resolve? name with
      | none =>
          simp only [hb, Step.bind_eq_ok] at h
          obtain ⟨_, τ, h₁, h₂⟩ := h
          exact ⟨_, .varUndeclared, _, ⟨hb, rfl⟩, _, h₁, _, h₂, rfl⟩
      | some b =>
          simp only [hb] at h
          exact ⟨_, .var, _, ⟨hb, rfl⟩, _, h, rfl⟩
  | declare name type s =>
      simp only [lowerExpr, lowerDeclaration, Step.bind_eq_ok] at h
      obtain ⟨slot, τ, h, _, τ₁, h₁, _, τ₂, h₂, h₃⟩ := h
      exact ⟨_, .declare, _, h, _, h₁, _, h₂, _, h₃, rfl⟩
  | typed type pattern s =>
      simp only [lowerExpr, Step.bind_eq_ok] at h
      obtain ⟨_, τ, h, h₁⟩ := h
      exact ⟨_, .typed, _, h, _, h₁, rfl⟩
  | list items s =>
      simp only [lowerExpr, Step.bind_eq_ok] at h
      obtain ⟨_, τ, h, h₁⟩ := h
      split at h₁
      · exact ⟨_, .list, _, Lowers.each_iff.mpr ⟨h, rfl⟩, _, ⟨‹_›, rfl⟩, _, h₁, rfl⟩
      · exact absurd h₁ Step.fail_ne_ok
  | binary o left right s =>
      simp only [lowerExpr, Step.bind_eq_ok] at h
      obtain ⟨_, τ, h₁, _, τ₁, h₂, h₃⟩ := h
      exact ⟨_, .binary, _, Lowers.expr_iff.mpr ⟨h₁, rfl⟩, _, Lowers.expr_iff.mpr ⟨h₂, rfl⟩, _, h₃,
        rfl⟩
  | unary o operand s =>
      simp only [lowerExpr, Step.bind_eq_ok] at h
      obtain ⟨_, τ, h₁, h₂⟩ := h
      exact ⟨_, .unary, _, Lowers.expr_iff.mpr ⟨h₁, rfl⟩, _, h₂, rfl⟩
  | assign target value s => exact assign_unfolds h
  | index target position s =>
      simp only [lowerExpr, Step.bind_eq_ok] at h
      obtain ⟨_, τ, h₁, _, τ₁, h₂, h₃⟩ := h
      exact ⟨_, .index, _, Lowers.expr_iff.mpr ⟨h₁, rfl⟩, _, Lowers.expr_iff.mpr ⟨h₂, rfl⟩, _, h₃,
        rfl⟩
  | call name args s => exact call_unfolds h

/-- Lowering expressions from the first one on goes by the table. -/
theorem each_unfolds {es : List Expr} (h : lowerEach es σ = (.ok (), σ')) :
    ∃ ms, Unfolds (.each es) ms true ∧ Along Lowers ms σ σ' := by
  cases es with
  | nil =>
      obtain ⟨_, rfl⟩ := Step.pure_eq_ok.mp (lowerEach.eq_1 ▸ h)
      exact ⟨_, .eachNil, rfl⟩
  | cons e es =>
      simp only [lowerEach, Step.bind_eq_ok] at h
      obtain ⟨_, τ, h₁, h₂⟩ := h
      exact ⟨_, .eachCons, _, Lowers.expr_iff.mpr ⟨h₁, rfl⟩, _, Lowers.each_iff.mpr ⟨h₂, rfl⟩, rfl⟩

/-- Lowering expressions from the last one on goes by the table. -/
theorem backward_unfolds {es : List Expr} (h : lowerBackward es σ = (.ok (), σ')) :
    ∃ ms, Unfolds (.backward es) ms true ∧ Along Lowers ms σ σ' := by
  cases es with
  | nil =>
      obtain ⟨_, rfl⟩ := Step.pure_eq_ok.mp (lowerBackward.eq_1 ▸ h)
      exact ⟨_, .backwardNil, rfl⟩
  | cons e es =>
      simp only [lowerBackward, Step.bind_eq_ok] at h
      obtain ⟨_, τ, h₁, h₂⟩ := h
      exact ⟨_, .backwardCons, _, Lowers.backward_iff.mpr ⟨h₁, rfl⟩, _,
        Lowers.expr_iff.mpr ⟨h₂, rfl⟩, rfl⟩

/-- Lowering arguments goes by the table, and yields whether they all fit. -/
theorem args_unfolds {es : List Expr} {ps : List SubParam} {b : Bool}
    (h : lowerArgs es ps σ = (.ok b, σ')) :
    ∃ ms, Unfolds (.args es ps) ms b ∧ Along Lowers ms σ σ' := by
  cases es with
  | nil =>
      rw [lowerArgs] at h
      obtain ⟨rfl, rfl⟩ := Step.pure_eq_ok.mp h
      exact ⟨_, .argsNil, rfl⟩
  | cons e es =>
      simp only [lowerArgs, Step.bind_eq_ok] at h
      obtain ⟨ok, τ, ha, h⟩ := h
      cases ok with
      | false =>
          obtain ⟨rfl, rfl⟩ := Step.pure_eq_ok.mp h
          exact ⟨_, .argsRefused, _, ha, rfl⟩
      | true =>
          obtain ⟨_, τ₁, he, h⟩ := Step.bind_eq_ok.mp h
          have he : Lowers (.expr e) true τ τ₁ := Lowers.expr_iff.mpr ⟨he, rfl⟩
          cases ps with
          | nil =>
              obtain ⟨rfl, rfl⟩ := Step.pure_eq_ok.mp h
              exact ⟨_, .argsFree, _, ha, _, he, rfl⟩
          | cons p ps =>
              simp only [List.head?_cons] at h
              cases hcopy : p.copy with
              | false =>
                  simp only [hcopy, Bool.false_eq_true, if_false] at h
                  obtain ⟨cs, hc, hcs⟩ := (enforce_eq_ok (K := Lowers)).mp h
                  refine ⟨_, .argsHeld hc, _, ha, _, he, ?_⟩
                  rw [hcopy]
                  exact hcs
              | true =>
                  simp only [hcopy, if_true, Step.bind_eq_ok] at h
                  obtain ⟨_, τ₂, h₁, h⟩ := h
                  obtain ⟨cs, hc, hcs⟩ := (enforce_eq_ok (K := Lowers)).mp h
                  refine ⟨_, .argsHeld hc, _, ha, _, he, ?_⟩
                  rw [hcopy]
                  exact ⟨_, h₁, hcs⟩

end Unfolding

end StackScript
