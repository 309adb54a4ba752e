import StackScript.Proofs.Unfolding.Expr

/-!
# Statements go by the table

`Lowers.unfolds`: lowering a piece makes the moves of a line of the table.  The pieces a line lowers
are smaller than the piece it is for (`Unfolds.smaller`), so a lowering is a run by the table as a
whole (`Lowers.runs`).
-/

namespace StackScript

section Unfolding
open Lower

variable {σ σ' : Session}

/-! ### Parts of statements -/

/-- A body in a scope of its own is a row of moves. -/
theorem along_block {body : List Stmt} (h : inScope .block (lowerStmts body) σ = (.ok (), σ')) :
    Along Lowers (Move.block body) σ σ' := by
  obtain ⟨τ, h₁, rfl⟩ := inScope_eq_ok.mp h
  exact ⟨_, rfl, _, Lowers.stmts_iff.mpr ⟨h₁, rfl⟩, _, rfl, rfl⟩

theorem along_increment {slot : Slot} (h : emitIncrement slot σ = (.ok (), σ')) :
    Along Lowers (Move.increment slot) σ σ' := by
  simp only [emitIncrement, Step.bind_eq_ok] at h
  obtain ⟨_, τ₁, h₁, _, τ₂, h₂, _, τ₃, h₃, h₄⟩ := h
  exact ⟨_, h₁, _, h₂, _, h₃, _, h₄, rfl⟩

/-- The last branch is a row of moves, none if it is left out. -/
theorem along_otherwise {rest : Option (List Stmt)}
    (h : lowerOtherwise rest σ = (.ok (), σ')) : Along Lowers (Move.otherwise rest) σ σ' := by
  cases rest with
  | none =>
      obtain ⟨_, rfl⟩ := Step.pure_eq_ok.mp h
      exact rfl
  | some body => exact along_block h

/-- An expression whose value is dropped is a row of moves. -/
theorem along_effect {e : Option Expr} (h : lowerEffect e σ = (.ok (), σ')) :
    Along Lowers (Move.effect e) σ σ' := by
  cases e with
  | none =>
      obtain ⟨_, rfl⟩ := Step.pure_eq_ok.mp h
      exact rfl
  | some e =>
      obtain ⟨_, τ, h₁, h₂⟩ := Step.bind_eq_ok.mp h
      exact ⟨_, Lowers.expr_iff.mpr ⟨h₁, rfl⟩, _, h₂, rfl⟩

/-- A condition that may be left out is a row of moves. -/
theorem along_guarded {done : Label} {e : Option Expr} (h : lowerGuard done e σ = (.ok (), σ')) :
    Along Lowers (Move.guarded done e) σ σ' := by
  cases e with
  | none =>
      obtain ⟨_, rfl⟩ := Step.pure_eq_ok.mp h
      exact rfl
  | some e =>
      obtain ⟨_, τ, h₁, h₂⟩ := Step.bind_eq_ok.mp h
      exact ⟨_, Lowers.expr_iff.mpr ⟨h₁, rfl⟩, _, h₂, rfl⟩

/-! ### Statements -/

/-- The body of a subroutine and what is emitted behind it. -/
theorem along_subBody {head : SubHead} {body : List Stmt}
    (h : (lowerBody head.returnType body >>= fun ends => if ends = true then
        emitOp .loadUndefined >>= fun _ => emitOp .ret else emitUndefReturn head.span) σ =
      (.ok (), σ')) :
    ∃ ends close, Closes head.span ends close ∧
      Along Lowers (.piece (.body head.returnType body) ends :: close) σ σ' := by
  obtain ⟨ends, τ, hb, h⟩ := Step.bind_eq_ok.mp h
  cases ends with
  | true =>
      obtain ⟨_, τ₁, h₁, h₂⟩ := Step.bind_eq_ok.mp h
      exact ⟨_, _, .returned, _, hb, _, h₁, _, h₂, rfl⟩
  | false =>
      obtain ⟨ms, hm, ha⟩ := (emitUndefReturn_eq_ok (K := Lowers)).mp h
      exact ⟨_, _, .fallen hm, _, hb, ha⟩

/-- What is done in the scope of a subroutine. -/
theorem along_subFrame {head : SubHead} {body : List Stmt} {ps : List SubParam} {skip entry : Label}
    {paramSlots locals : UInt16}
    (h : inScope (.subroutine head.returnType) (do
        emit (.jump skip)
        mark entry
        emit (.pushFrame paramSlots locals)
        if mentionsArgList body then
          let _ ← bindArgument argList (.array .unknown)
        bindParams ps
        if ← lowerBody head.returnType body then
          emitOp .loadUndefined
          emitOp .ret
        else
          emitUndefReturn head.span) σ = (.ok (), σ')) :
    ∃ slot ends close, Closes head.span ends close ∧ Along Lowers
      ([Move.enter (.subroutine head.returnType), .emit (.jump skip), .mark entry,
          .emit (.pushFrame paramSlots locals)] ++ Move.argListSlot (mentionsArgList body) slot ++
        [Move.params ps, .piece (.body head.returnType body) ends] ++ close ++ [Move.leave]) σ σ' := by
  obtain ⟨τ, hin, rfl⟩ := inScope_eq_ok.mp h
  obtain ⟨_, τ₁, hjump, h⟩ := Step.bind_eq_ok.mp hin
  obtain ⟨_, τ₂, hentry, h⟩ := Step.bind_eq_ok.mp h
  obtain ⟨_, τ₃, hframe, h⟩ := Step.bind_eq_ok.mp h
  have hbody : ∃ slot ends close, Closes head.span ends close ∧
      Along Lowers (Move.argListSlot (mentionsArgList body) slot ++
        (.params ps :: .piece (.body head.returnType body) ends :: close)) τ₃ τ := by
    cases hu : mentionsArgList body with
    | false =>
        rw [if_neg (by simp [hu])] at h
        obtain ⟨_, τ₄, hbind, h⟩ := Step.bind_eq_ok.mp h
        obtain ⟨ends, close, hc, ha⟩ := along_subBody h
        exact ⟨0, ends, close, hc, _, hbind, ha⟩
    | true =>
        rw [if_pos hu] at h
        obtain ⟨slot, τ₄, hslot, h⟩ := Step.bind_eq_ok.mp h
        obtain ⟨_, τ₅, hbind, h⟩ := Step.bind_eq_ok.mp h
        obtain ⟨ends, close, hc, ha⟩ := along_subBody h
        exact ⟨slot, ends, close, hc, _, hslot, _, hbind, ha⟩
  obtain ⟨slot, ends, close, hc, ha⟩ := hbody
  refine ⟨slot, ends, close, hc, along_append.mpr ⟨τ, ?_, _, rfl, rfl⟩⟩
  simp only [List.append_assoc, List.cons_append, List.nil_append]
  exact ⟨_, rfl, _, hjump, _, hentry, _, hframe, ha⟩

/-- A declaration goes by the table: a wrong parameter, a name taken, or the code of the subroutine. -/
theorem sub_unfolds {head : SubHead} {body : List Stmt}
    (h : lowerStmt (.sub head body) σ = (.ok (), σ')) :
    ∃ ms, Unfolds (.stmt (.sub head body)) ms true ∧ Along Lowers ms σ σ' := by
  simp only [lowerStmt] at h
  cases hp : head.params.mapM Param.resolve with
  | error e =>
      obtain ⟨p, s⟩ := e
      simp only [hp] at h
      exact ⟨_, .subParameter hp, _, h, rfl⟩
  | ok ps =>
      simp only [hp] at h
      obtain ⟨sub, τ, hm, h⟩ := Step.bind_eq_ok.mp h
      cases hk : sub.marked with
      | true =>
          simp only [hk, if_true] at h
          exact ⟨_, .subRedeclared hp hk, _, hm, _, h, rfl⟩
      | false =>
          simp only [hk, Bool.false_eq_true, if_false] at h
          obtain ⟨_, τ₁, hset, h⟩ := Step.bind_eq_ok.mp h
          simp only [Step.bind_eq_ok, slotCount_eq_ok] at h
          obtain ⟨_, _, ⟨hps, rfl, rfl⟩, _, _, ⟨hls, rfl, rfl⟩, skip, τ₂, hskip, _, τ₃, hin, _, τ₄,
            hmark, htraits⟩ := h
          obtain ⟨slot, ends, close, hc, ha⟩ := along_subFrame hin
          have hrest : Along Lowers [.mark skip, .traits head sub.label] τ₃ σ' :=
            ⟨_, hmark, _, htraits, rfl⟩
          have ha := ha.append hrest
          refine ⟨_, @Unfolds.sub head body ps sub skip slot ends close hp hk hc, ?_⟩
          simp only [List.append_assoc, List.cons_append, List.nil_append] at ha ⊢
          exact ⟨_, hm, _, hset, _, ⟨hps, rfl⟩, _, ⟨hls, rfl⟩, _, hskip, ha⟩

/-- A conditional goes by the table, with its branches as one piece. -/
theorem cond_unfolds {condition : Expr} {body : List Stmt} {elsifs : List (Expr × List Stmt)}
    {rest : Option (List Stmt)} (h : lowerStmt (.cond condition body elsifs rest) σ = (.ok (), σ')) :
    ∃ ms, Unfolds (.stmt (.cond condition body elsifs rest)) ms true ∧ Along Lowers ms σ σ' := by
  simp only [lowerStmt_cond, Step.bind_eq_ok] at h
  obtain ⟨done, τ₁, hdone, next, τ₂, hnext, _, τ₃, hc, _, τ₄, hj, _, τ₅, hb, _, τ₆, hend, _, τ₇,
    hm, _, τ₈, hbr, _, τ₉, ho, hm'⟩ := h
  have start : Along Lowers [.newLabel done, .newLabel next, .piece (.expr condition) true,
      .emit (.jumpIfFalse next)] σ τ₄ :=
    ⟨_, hdone, _, hnext, _, Lowers.expr_iff.mpr ⟨hc, rfl⟩, _, hj, rfl⟩
  have middle : Along Lowers [.emit (.jump done), .mark next, .piece (.branches done elsifs) true]
      τ₅ τ₈ :=
    ⟨_, hend, _, hm, _, Lowers.branches_iff.mpr ⟨hbr, rfl⟩, rfl⟩
  exact ⟨_, .cond, (((start.append (along_block hb)).append middle).append
    (along_otherwise ho)).append ⟨_, hm', rfl⟩⟩

/-- A `while` goes by the table. -/
theorem while_unfolds {condition : Expr} {body : List Stmt}
    (h : lowerStmt (.whileLoop condition body) σ = (.ok (), σ')) :
    ∃ ms, Unfolds (.stmt (.whileLoop condition body)) ms true ∧ Along Lowers ms σ σ' := by
  simp only [lowerStmt, Step.bind_eq_ok, inScope_eq_ok] at h
  obtain ⟨done, τ₁, hdone, top, τ₂, htop, τ₃, ⟨_, τ₄, hc, _, τ₅, hj, _, τ₆, hb, _, τ₇, hend, hm⟩,
    rfl⟩ := h
  exact ⟨_, .whileLoop, _, hdone, _, htop, _, rfl, _, Lowers.expr_iff.mpr ⟨hc, rfl⟩, _, hj, _,
    Lowers.stmts_iff.mpr ⟨hb, rfl⟩, _, hend, _, hm, _, rfl, rfl⟩

/-- A counted loop goes by the table, whichever parts of its header are left out. -/
theorem loop_unfolds {init condition step : Option Expr} {body : List Stmt}
    (h : lowerStmt (.loop init condition step body) σ = (.ok (), σ')) :
    ∃ ms, Unfolds (.stmt (.loop init condition step body)) ms true ∧ Along Lowers ms σ σ' := by
  rw [lowerStmt_loop] at h
  obtain ⟨done, τ₁, hdone, h⟩ := Step.bind_eq_ok.mp h
  obtain ⟨next, τ₂, hnext, h⟩ := Step.bind_eq_ok.mp h
  obtain ⟨τ₃, hin, hleave⟩ := inScope_eq_ok.mp h
  simp only [Step.bind_eq_ok] at hin
  obtain ⟨_, τ₄, hi, top, τ₅, htop, _, τ₆, hc, _, τ₇, hb, _, τ₈, hm, _, τ₉, hs, _, τ₁₀, hend, hm'⟩ :=
    hin
  have start : Along Lowers [.newLabel done, .newLabel next,
      .enter (.loop (.countedLoop done next))] σ _ :=
    ⟨_, hdone, _, hnext, _, rfl, rfl⟩
  have top : Along Lowers [.newMarkedLabel top] τ₄ τ₅ := ⟨_, htop, rfl⟩
  have middle : Along Lowers [.mark next] τ₇ τ₈ := ⟨_, hm, rfl⟩
  exact ⟨_, .loop, ((((((start.append (along_effect hi)).append top).append
    (along_guarded hc)).append (along_block hb)).append middle).append (along_effect hs)).append
    ⟨_, hend, _, hm', _, hleave, rfl⟩⟩

/-- A `for` goes by the table, with its two hidden values on the stack. -/
theorem forEach_unfolds {name : String} {iterable : Expr} {body : List Stmt}
    (h : lowerStmt (.forEach name iterable body) σ = (.ok (), σ')) :
    ∃ ms, Unfolds (.stmt (.forEach name iterable body)) ms true ∧ Along Lowers ms σ σ' := by
  rw [lowerStmt] at h
  obtain ⟨index, τ₁, hindex, h⟩ := Step.bind_eq_ok.mp h
  obtain ⟨item, τ₂, hitem, h⟩ := Step.bind_eq_ok.mp h
  obtain ⟨done, τ₃, hdone, h⟩ := Step.bind_eq_ok.mp h
  obtain ⟨top, τ₄, htop, h⟩ := Step.bind_eq_ok.mp h
  obtain ⟨_, τ₅, h₁, h⟩ := Step.bind_eq_ok.mp h
  obtain ⟨_, τ₆, h₂, h⟩ := Step.bind_eq_ok.mp h
  obtain ⟨_, τ₇, hit, h⟩ := Step.bind_eq_ok.mp h
  obtain ⟨_, τ₈, h₃, h⟩ := Step.bind_eq_ok.mp h
  obtain ⟨_, τ₉, h₄, h⟩ := Step.bind_eq_ok.mp h
  obtain ⟨τ₁₀, h, hleave⟩ := inScope_eq_ok.mp h
  simp only [Step.bind_eq_ok] at h
  obtain ⟨_, τ₁₁, hbind, _, τ₁₂, hm, _, τ₁₃, h₅, _, τ₁₄, h₆, _,
    τ₁₅, h₇, _, τ₁₆, h₈, _, τ₁₇, h₉, _, τ₁₈, h₁₀, h⟩ := h
  obtain ⟨_, τ₁₉, h₁₁, _, τ₂₀, hbody, _, τ₂₁, hinc, _, τ₂₂,
    hend, _, τ₂₃, hm', _, τ₂₄, h₁₂, h₁₃⟩ := h
  refine ⟨_, @Unfolds.forEach name iterable body index item done top,
    (along_append.mpr ⟨τ₂₀, ?_, along_increment hinc⟩).append
      ⟨_, hend, _, hm', _, h₁₂, _, h₁₃, _, hleave, rfl⟩⟩
  exact ⟨_, hindex, _, hitem, _, hdone, _, htop, _, h₁, _, h₂, _, Lowers.expr_iff.mpr ⟨hit, rfl⟩, _,
    h₃, _, h₄, _, rfl, _, hbind, _, hm, _, h₅, _, h₆, _, h₇, _, h₈, _, h₉, _, h₁₀, _, h₁₁, _,
    Lowers.stmts_iff.mpr ⟨hbody, rfl⟩, rfl⟩

/-- A package goes by the table, and so does a module. -/
theorem package_unfolds {kind : PackageKind} {name : String} {body : List Stmt}
    (h : lowerStmt (.package kind name body) σ = (.ok (), σ')) :
    ∃ ms, Unfolds (.stmt (.package kind name body)) ms true ∧ Along Lowers ms σ σ' := by
  have hin : ∀ {id : PackageId} {τ : Session},
      inPackage id (inScope .block (lowerStmts body)) τ = (.ok (), σ') →
      Along Lowers ([Move.sees fun σ => σ.package = τ.package, .goTo id] ++ Move.block body ++
        [Move.goTo τ.package]) τ σ' := by
    intro id τ h
    obtain ⟨τ', h', rfl⟩ := inPackage_eq_ok.mp h
    exact along_append.mpr ⟨τ', ⟨_, ⟨rfl, rfl⟩, _, rfl, along_block h'⟩, _, rfl, rfl⟩
  simp only [lowerStmt] at h
  obtain ⟨id, τ, hid, h⟩ := Step.bind_eq_ok.mp h
  cases kind with
  | package =>
      exact ⟨_, @Unfolds.package .package name "" body id τ.package, _, hid, hin h⟩
  | module =>
      obtain ⟨path, _, hv, h⟩ := Step.bind_eq_ok.mp h
      obtain ⟨rfl, rfl⟩ := Step.view_eq_ok.mp hv
      obtain ⟨_, τ₁, hi, h⟩ := Step.bind_eq_ok.mp h
      exact ⟨_, .package, _, hid, _, ⟨rfl, rfl⟩, _, hi, hin h⟩

/-- A `return` goes by the table, with a value or without. -/
theorem ret_unfolds {value : Option Expr} {s : Span}
    (h : lowerStmt (.ret value s) σ = (.ok (), σ')) :
    ∃ ms, Unfolds (.stmt (.ret value s)) ms true ∧ Along Lowers ms σ σ' := by
  cases value with
  | none =>
      rw [lowerStmt] at h
      obtain ⟨ms, hm, ha⟩ := (emitUndefReturn_eq_ok (K := Lowers)).mp h
      exact ⟨ms, .retUndef hm, ha⟩
  | some value =>
      simp only [lowerStmt, Step.bind_eq_ok, Step.view_eq_ok] at h
      obtain ⟨_, τ, hv, _, _, ⟨rfl, rfl⟩, ok, τ₁, he, h⟩ := h
      obtain ⟨cs, hc, ha⟩ := (enforce_eq_ok (K := Lowers)).mp he
      exact ⟨_, .ret hc, _, Lowers.expr_iff.mpr ⟨hv, rfl⟩, _, ⟨rfl, rfl⟩,
        along_append.mpr ⟨_, ha, _, h, rfl⟩⟩

/-- **Lowering a statement goes by the table.** -/
theorem stmt_unfolds {s : Stmt} (h : lowerStmt s σ = (.ok (), σ')) :
    ∃ ms, Unfolds (.stmt s) ms true ∧ Along Lowers ms σ σ' := by
  cases s with
  | expr e =>
      rw [lowerStmt] at h
      obtain ⟨_, τ, h₁, h₂⟩ := Step.bind_eq_ok.mp h
      exact ⟨_, .exprStmt, _, Lowers.expr_iff.mpr ⟨h₁, rfl⟩, _, h₂, rfl⟩
  | block body => exact ⟨_, .block, along_block (by rwa [lowerStmt] at h)⟩
  | sub head body => exact sub_unfolds h
  | ret value s => exact ret_unfolds h
  | cond condition body elsifs rest => exact cond_unfolds h
  | whileLoop condition body => exact while_unfolds h
  | loop init condition step body => exact loop_unfolds h
  | forEach name iterable body => exact forEach_unfolds h
  | use name => exact ⟨_, .use, _, by rwa [lowerStmt] at h, rfl⟩
  | package kind name body => exact package_unfolds h

/-- Lowering a list of statements goes by the table. -/
theorem stmts_unfolds {ss : List Stmt} (h : lowerStmts ss σ = (.ok (), σ')) :
    ∃ ms, Unfolds (.stmts ss) ms true ∧ Along Lowers ms σ σ' := by
  cases ss with
  | nil =>
      rw [lowerStmts] at h
      obtain ⟨_, rfl⟩ := Step.pure_eq_ok.mp h
      exact ⟨_, .stmtsNil, rfl⟩
  | cons s rest =>
      simp only [lowerStmts, Step.bind_eq_ok] at h
      obtain ⟨_, τ, h₁, h₂⟩ := h
      exact ⟨_, .stmtsCons, _, Lowers.stmt_iff.mpr ⟨h₁, rfl⟩, _, Lowers.stmts_iff.mpr ⟨h₂, rfl⟩, rfl⟩

/-- Lowering branches goes by the table. -/
theorem branches_unfolds {done : Label} {elsifs : List (Expr × List Stmt)}
    (h : lowerBranches done elsifs σ = (.ok (), σ')) :
    ∃ ms, Unfolds (.branches done elsifs) ms true ∧ Along Lowers ms σ σ' := by
  rcases elsifs with _ | ⟨⟨condition, body⟩, rest⟩
  · rw [lowerBranches] at h
    obtain ⟨_, rfl⟩ := Step.pure_eq_ok.mp h
    exact ⟨_, .branchesNil, rfl⟩
  · simp only [lowerBranches, Step.bind_eq_ok] at h
    obtain ⟨next, τ₁, hnext, _, τ₂, hc, _, τ₃, hj, _, τ₄, hb, _, τ₅, hend, _, τ₆, hm, hr⟩ := h
    have start : Along Lowers [.newLabel next, .piece (.expr condition) true,
        .emit (.jumpIfFalse next)] σ τ₃ :=
      ⟨_, hnext, _, Lowers.expr_iff.mpr ⟨hc, rfl⟩, _, hj, rfl⟩
    exact ⟨_, .branchesCons, (start.append (along_block hb)).append
      ⟨_, hend, _, hm, _, Lowers.branches_iff.mpr ⟨hr, rfl⟩, rfl⟩⟩

/-- A statement of a body that is not its last expression or its last `return`. -/
theorem Stmt.not_last {s : Stmt} {rest : List Stmt} (hexpr : ∀ e, s = .expr e → rest = [] → False)
    (hret : ∀ value span, s = .ret value span → rest = [] → False) :
    rest ≠ [] ∨ s.closing = false := by
  by_cases hr : rest = []
  · cases s with
    | expr e => exact absurd hr (hexpr e rfl)
    | ret value span => exact absurd hr (hret value span rfl)
    | _ => exact .inr rfl
  · exact .inl hr

/-- Lowering a body goes by the table, and yields whether it ends with a `return`. -/
theorem body_unfolds {type : ValueType} {ss : List Stmt} {b : Bool}
    (h : lowerBody type ss σ = (.ok b, σ')) :
    ∃ ms, Unfolds (.body type ss) ms b ∧ Along Lowers ms σ σ' := by
  unfold lowerBody at h
  split at h
  · obtain ⟨rfl, rfl⟩ := Step.pure_eq_ok.mp h
    exact ⟨_, .bodyNil, rfl⟩
  · simp only [Step.bind_eq_ok, Step.pure_eq_ok] at h
    obtain ⟨_, τ, h₁, ok, τ₁, h₂, _, τ₂, h₃, rfl, rfl⟩ := h
    obtain ⟨cs, hc, ha⟩ := (enforce_eq_ok (K := Lowers)).mp h₂
    exact ⟨_, .bodyExpr hc, _, Lowers.expr_iff.mpr ⟨h₁, rfl⟩,
      along_append.mpr ⟨_, ha, _, h₃, rfl⟩⟩
  · obtain ⟨hret, rfl⟩ := Lowers.unit_iff.mp h
    exact ⟨_, .bodyRet, _, Lowers.stmt_iff.mpr ⟨hret, rfl⟩, rfl⟩
  · rename_i s rest hexpr hret
    obtain ⟨_, τ, h₁, h₂⟩ := Step.bind_eq_ok.mp h
    exact ⟨_, .bodyCons (Stmt.not_last hexpr hret), _, Lowers.stmt_iff.mpr ⟨h₁, rfl⟩, _, h₂, rfl⟩

/-- **Every lowering of a piece goes by a line of the table.** -/
theorem Lowers.unfolds {p : Piece} {b : Bool} (h : Lowers p b σ σ') :
    ∃ ms, Unfolds p ms b ∧ Along Lowers ms σ σ' := by
  cases p with
  | expr e =>
      obtain ⟨h', rfl⟩ := Lowers.expr_iff.mp h
      exact expr_unfolds h'
  | each es =>
      obtain ⟨h', rfl⟩ := Lowers.each_iff.mp h
      exact each_unfolds h'
  | backward es =>
      obtain ⟨h', rfl⟩ := Lowers.backward_iff.mp h
      exact backward_unfolds h'
  | args es ps => exact args_unfolds h
  | stmt s =>
      obtain ⟨h', rfl⟩ := Lowers.stmt_iff.mp h
      exact stmt_unfolds h'
  | stmts ss =>
      obtain ⟨h', rfl⟩ := Lowers.stmts_iff.mp h
      exact stmts_unfolds h'
  | branches done elsifs =>
      obtain ⟨h', rfl⟩ := Lowers.branches_iff.mp h
      exact branches_unfolds h'
  | body type ss => exact body_unfolds h

end Unfolding

/-! ### Whole lowerings -/

namespace Piece

/-- A measure that goes down from a piece to the pieces it is lowered by. -/
noncomputable def size : Piece → Nat
  | .expr e => sizeOf e
  | .each es | .backward es | .args es _ => sizeOf es
  | .stmt s => sizeOf s
  | .stmts ss | .body _ ss => sizeOf ss
  | .branches _ elsifs => sizeOf elsifs

end Piece

namespace Move

/-- The pieces lowered by the moves. -/
def pieces : List Move → List Piece
  | [] => []
  | .piece p _ :: ms => p :: pieces ms
  | _ :: ms => pieces ms

@[simp]
theorem pieces_append {ms ns : List Move} : pieces (ms ++ ns) = pieces ms ++ pieces ns := by
  fun_induction pieces ms <;> simp_all [pieces]

@[simp]
theorem pieces_when {c : Bool} {i : Instruction} : pieces (Move.when c i) = [] := by
  cases c <;> rfl

@[simp]
theorem pieces_advance {control : LoopControl} : pieces (advance control) = [] := by
  cases control <;> rfl

@[simp]
theorem pieces_argListSlot {uses : Bool} {slot : Slot} : pieces (argListSlot uses slot) = [] := by
  cases uses <;> rfl

@[simp]
theorem pieces_declareModule {id : PackageId} {path : String} {kind : PackageKind} :
    pieces (declareModule id path kind) = [] := by
  cases kind <;> rfl

/-- The only piece is the expression, if there is one. -/
@[simp]
theorem pieces_effect {e : Option Expr} : pieces (effect e) = e.toList.map .expr := by
  cases e <;> rfl

@[simp]
theorem pieces_guarded {done : Label} {e : Option Expr} :
    pieces (guarded done e) = e.toList.map .expr := by
  cases e <;> rfl

/-- The only piece is the body, if there is one. -/
@[simp]
theorem pieces_otherwise {rest : Option (List Stmt)} :
    pieces (otherwise rest) = rest.toList.map .stmts := by
  cases rest <;> rfl

end Move

/-- Enforcing a type lowers no piece. -/
@[simp]
theorem Enforces.pieces {e : Expr} {type : ValueType} {role : Role} {cs : List Move} {ok : Bool}
    (h : Enforces e type role cs ok) : Move.pieces cs = [] := by
  cases h <;> rfl

theorem ReturnsUndef.pieces {s : Span} {ms : List Move} (h : ReturnsUndef s ms) :
    Move.pieces ms = [] := by
  obtain ⟨hc⟩ := h
  simp [Move.pieces, Move.op, hc.pieces]

theorem Closes.pieces {s : Span} {ends : Bool} {ms : List Move} (h : Closes s ends ms) :
    Move.pieces ms = [] := by
  cases h with
  | returned => rfl
  | fallen h => exact h.pieces

/-- The pieces in a template are smaller than the piece it is for. -/
theorem Unfolds.smaller {p : Piece} {ms : List Move} {b : Bool} (h : Unfolds p ms b) :
    ∀ q ∈ Move.pieces ms, q.size < p.size := by
  cases h with
  | assignVar hc | assignVarMismatch hc | assignDeclare hc | assignDeclareMismatch hc | argsHeld hc
  | ret hc | bodyExpr hc =>
      simp [Move.pieces, Move.op, hc.pieces, Piece.size]
      omega
  | @sub head body _ _ _ _ _ _ _ _ hc =>
      intro q hq
      obtain rfl : q = .body head.returnType body := by simpa [Move.pieces, hc.pieces] using hq
      simp only [Piece.size, Stmt.sub.sizeOf_spec]
      omega
  | retUndef h => simp [h.pieces]
  | @cond _ _ _ rest =>
      cases rest <;> simp [Move.pieces, Move.block, Piece.size] <;> omega
  | @loop init condition step =>
      cases init <;> cases condition <;> cases step <;>
        simp [Move.pieces, Move.block, Piece.size] <;> omega
  | _ =>
      simp [Move.pieces, Move.op, Move.block, Move.increment, Piece.size]
      try omega

/-- Moves that lower the pieces on the way as `K` says can be followed if what `K` says can. -/
theorem Along.follows {K : Piece → Bool → Session → Session → Prop} {Q : List Move → Prop}
    {ms : List Move} {σ σ' : Session} (h : Along K ms σ σ')
    (hK : ∀ p ∈ Move.pieces ms, ∀ {b τ τ'}, K p b τ τ' → Runs Q p b τ τ') : Follows Q ms σ σ' := by
  induction ms generalizing σ with
  | nil =>
      obtain rfl : σ = σ' := h
      exact .nil
  | cons m ms ih =>
      obtain ⟨σ₁, hm, h⟩ := h
      cases m with
      | piece p b =>
          obtain ⟨ns, hu, hq, hf⟩ := hK p (by simp [Move.pieces]) hm
          exact .piece hu hq hf (ih h fun q hq => hK q (by simp [Move.pieces, hq]))
      | _ => exact .act hm (ih h hK)

/-- **Every lowering of a piece is a run by the table.** -/
theorem Lowers.runs {p : Piece} {b : Bool} {σ σ' : Session} (h : Lowers p b σ σ') :
    Runs (fun _ => True) p b σ σ' := by
  obtain ⟨ms, hu, ha⟩ := h.unfolds
  refine ⟨ms, hu, trivial, ha.follows fun q hq {c τ τ'} hl => ?_⟩
  have := hu.smaller q hq
  exact hl.runs
termination_by p.size

end StackScript
