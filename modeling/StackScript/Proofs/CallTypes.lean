import StackScript.Proofs.Calls

/-!
# Static types of calls

A call is looked up twice.  Lowering finds out what to emit for it: a special form, a builtin, a subroutine
of the unit or one of another unit.  Typing finds out the type of its value, and asks the same questions but
the first.  So the two agree, unless a special form has the name of a subroutine that has a type: such a call
is of the type of the subroutine, though what is emitted leaves undef.

* `Dispatches`: what is emitted for a call, and of what type its value is.
* `Unfolds.dispatches`: by which line of the table a call is lowered.
* `Dispatches.callType_eq_iff`: where typing agrees.
* `Runs.packages_eq`: an expression declares nothing that calls could mean.
* `call_type_agrees_iff`: the type of a call and the type of what is emitted for it.
* `checkpoint_typed_amiss`: a call that is of the wrong type.
-/

namespace StackScript

open Lower

/-! ### What is emitted for a call -/

/-- The name of a special form, which is recognised before anything else that a call may mean. -/
def isSpecialForm (name : String) : Bool := name == "last" || name == "next" || name == "checkpoint"

theorem isSpecialForm_eq_true {name : String} :
    isSpecialForm name = true ↔ name = "last" ∨ name = "next" ∨ name = "checkpoint" := by
  simp [isSpecialForm, or_assoc]

/-- No builtin has the name of a special form. -/
theorem isSpecialForm_of_builtin {name : String} {b : Builtin} (h : Builtin.ofName? name = some b) :
    isSpecialForm name = false := by
  refine Bool.eq_false_iff.mpr fun hs => ?_
  rcases isSpecialForm_eq_true.mp hs with rfl | rfl | rfl <;> cases h

theorem Ordinary.not_special {name : String} (h : Ordinary name) : isSpecialForm name = false := by
  obtain ⟨hlast, hnext, hcheckpoint, -⟩ := h
  simp [isSpecialForm, hlast, hnext, hcheckpoint]

/-- In the session `σ` a call of `name` comes down to this instruction, which leaves a value of this
type. -/
inductive Dispatches (σ : Session) (name : String) : Instruction → ValueType → Prop where
  | special : isSpecialForm name = true → Dispatches σ name (.bare .loadUndefined) .unknown
  | builtin {b : Builtin} {argc : UInt8} : Builtin.ofName? name = some b →
      Dispatches σ name (.callBuiltin b argc) b.resultType
  | call {owner : PackageId} {sub : Subroutine} {argc : UInt8} : Ordinary name →
      Means name (some (owner, sub)) σ → Dispatches σ name (.call sub.label argc) sub.returnType
  | external {argc : UInt8} : Ordinary name → Means name none σ →
      Dispatches σ name (.placeholderCall argc) .unknown

/-- The last move of a call in which nothing is wrong emits what the call comes down to. -/
theorem Unfolds.dispatches {K : Piece → Bool → Session → Session → Prop} {name : String}
    {args : List Expr} {s : Span} {ms : List Move} {b : Bool} {σ σ' : Session}
    (h : Unfolds (.expr (.call name args s)) ms b) (hq : Quiet ms) (ha : Along K ms σ σ') :
    ∃ front i type, ms = front ++ [.emit i] ∧ Dispatches σ name i type := by
  cases h with
  | loopControlArguments | noLoop | checkpointArgument | builtinTooMany | externalTooMany | callTooFew
  | callTooMany | callRefused => simp [Quiet, Move.quiet] at hq
  | @last _ control =>
      exact ⟨[.innermost (some control), .emit (.jump control.done)], _, _, rfl, .special rfl⟩
  | @next _ control =>
      exact ⟨.innermost (some control) :: (Move.advance control ++ [.emit (.jump control.next)]), _, _,
        by simp [Move.op], .special rfl⟩
  | @checkpoint id on =>
      exact ⟨.sees (fun σ => σ.options.checkpoints = on) :: Move.when on (.checkpoint id), _, _, rfl,
        .special rfl⟩
  | builtin hb => exact ⟨[.piece (.backward args) true], _, _, rfl, .builtin hb⟩
  | external hname =>
      obtain ⟨_, ⟨hmeans, -⟩, -⟩ := ha
      exact ⟨[.sees (Means name none), .piece (.backward args) true, .use name s false], _, _, rfl,
        .external hname hmeans⟩
  | call hname =>
      obtain ⟨_, ⟨hmeans, -⟩, -⟩ := ha
      exact ⟨_, _, _, List.append_cons _ _ _, .call hname hmeans⟩

/-- What moves emit last is the end of the code. -/
theorem Along.back?_of_emit {K : Piece → Bool → Session → Session → Prop} {front : List Move}
    {i : Instruction} {σ σ' : Session} (h : Along K (front ++ [.emit i]) σ σ') :
    σ'.draft.chunk.instructions.back? = some i := by
  obtain ⟨τ, -, σ₁, hemit, hend⟩ := along_append.mp h
  obtain rfl := Move.acts_emit.mp hemit
  obtain rfl : _ = σ' := hend
  exact Array.back?_push

/-! ### What typing makes of it -/

namespace Session

theorem callType_of_means {σ : Session} {name : String} {found : Option (PackageId × Subroutine)}
    (hb : Builtin.ofName? name = none) (h : Means name found σ) :
    σ.callType name = (found.map (·.2.returnType)).getD .unknown := by
  rw [callType, hb, h]
  cases found <;> rfl

/-- The name means a subroutine of the unit that has a type. -/
def MeansTyped (σ : Session) (name : String) : Prop :=
  ∃ owner sub, Means name (some (owner, sub)) σ ∧ sub.returnType ≠ .unknown

/-- A special form is typed as a call of the subroutine of that name. -/
theorem callType_of_special {σ : Session} {name : String} (h : isSpecialForm name = true) :
    σ.callType name = .unknown ↔ ¬ σ.MeansTyped name := by
  have hb : Builtin.ofName? name = none := by
    cases hb : Builtin.ofName? name with
    | none => rfl
    | some b => cases h.symm.trans (isSpecialForm_of_builtin hb)
  rw [callType_of_means hb rfl, MeansTyped]
  unfold Means
  cases σ.packages.resolveSub? σ.package name with
  | none => simp
  | some found =>
      obtain ⟨owner, sub⟩ := found
      simp

end Session

/-- **Typing agrees with what is emitted**, unless a special form has the name of a subroutine that has a
type. -/
theorem Dispatches.callType_eq_iff {σ : Session} {name : String} {i : Instruction} {type : ValueType}
    (h : Dispatches σ name i type) :
    σ.callType name = type ↔ ¬ (isSpecialForm name = true ∧ σ.MeansTyped name) := by
  cases h with
  | special hs => simp [hs, Session.callType_of_special hs]
  | builtin hb => simp [isSpecialForm_of_builtin hb, Session.callType, hb]
  | call hname hmeans =>
      simp [hname.not_special, Session.callType_of_means hname.2.2.2 hmeans]
  | external hname hmeans =>
      simp [hname.not_special, Session.callType_of_means hname.2.2.2 hmeans]

/-! ### Expressions declare no subroutines -/

/-- The parts of an expression are expressions. -/
theorem Unfolds.inExpr {p : Piece} {ms : List Move} {b : Bool} (hu : Unfolds p ms b)
    (hp : p.inExpr = true) : (Move.pieces ms).all Piece.inExpr = true := by
  cases hu with
  | exprStmt | block | subParameter | subRedeclared | sub | retUndef | ret | cond | whileLoop | loop
  | forEach | use | package | stmtsNil | stmtsCons | branchesNil | branchesCons | bodyNil | bodyExpr
  | bodyRet | bodyCons => cases hp
  | assignVar hc | assignVarMismatch hc | assignDeclare hc | assignDeclareMismatch hc | argsHeld hc =>
      simp [Move.pieces, Move.op, hc.pieces, Piece.inExpr]
  | call => simp [Move.pieces, Piece.inExpr]
  | @checkpoint _ on => cases on <;> rfl
  | @next _ control => cases control <;> rfl
  | _ => rfl

/-- **Lowering an expression changes neither the packages nor which of them is the current one**, so calls
mean behind it what they meant before it. -/
theorem Runs.packages_eq {Q : List Move → Prop} {p : Piece} {b : Bool} {σ σ' : Session}
    (h : Runs Q p b σ σ') (hp : p.inExpr = true) :
    σ'.packages = σ.packages ∧ σ'.package = σ.package := by
  refine h.ind (P := fun p _ σ σ' => p.inExpr = true →
    σ'.packages = σ.packages ∧ σ'.package = σ.package) ?_ hp
  clear h hp
  intro p b ms σ σ' hu _ ha hp
  have hpackage : ∀ kind name body, p ≠ .stmt (.package kind name body) := by
    rintro kind name body rfl
    cases hp
  have hsub : ∀ head body, p ≠ .stmt (.sub head body) := by
    rintro head body rfl
    cases hp
  exact ha.packages_eq (fun hq h => h.2 (List.all_eq_true.mp (hu.inExpr hp) _ hq)) (hu.stays hpackage)
    (hu.subless hsub)

/-! ### The type of a call -/

/-- **The type of a call and the type of what is emitted for it.**  If nothing is found wrong with a call, the
code ends with what the call comes down to: undef for a special form, a call of the builtin or of the
subroutine that the name means, or a call that is left to be linked.  The static type of the call, before and
behind it, is that of the value which this leaves, unless the call is a special form that has the name of a
subroutine with a type. -/
theorem call_type_agrees_iff {σ σ' : Session} {name : String} {args : List Expr} {s : Span}
    (h : lowerExpr (.call name args s) σ = (.ok (), σ')) (hc : σ'.report.count = σ.report.count) :
    ∃ i type, σ'.draft.chunk.instructions.back? = some i ∧ Dispatches σ name i type ∧
      σ'.typeOf (.call name args s) = σ.typeOf (.call name args s) ∧
      (σ.typeOf (.call name args s) = type ↔ ¬ (isSpecialForm name = true ∧ σ.MeansTyped name)) := by
  have hlowers : Lowers (.expr (.call name args s)) true σ σ' := Lowers.expr_iff.mpr ⟨h, rfl⟩
  obtain ⟨hpackages, hpackage⟩ := hlowers.runs.packages_eq rfl
  obtain ⟨ms, hu, ha⟩ := hlowers.unfolds
  obtain ⟨front, i, type, rfl, hdispatches⟩ := hu.dispatches (ha.quiet_runs hc).1 ha
  refine ⟨i, type, ha.back?_of_emit, hdispatches, ?_, hdispatches.callType_eq_iff⟩
  simp only [Session.typeOf, Session.callType, hpackages, hpackage]

/-- A session in the package `Outer::Inner`; `Outer` has the subroutines `f` and `checkpoint`, which return
integers. -/
def inward : Session :=
  let σ := (Session.start "main" {}).declareStmts PackageTree.root [.package .package "Outer" [
    .sub { name := "f", params := [], returnType := .int } [],
    .sub { name := "checkpoint", params := [], returnType := .int } [],
    .package .package "Inner" []]]
  { σ with package := 2, scopes := σ.scopes.enter (.subroutine .unknown) }

/-- The subroutine is found in the package around. -/
theorem call_type_agrees_iff_inward :
    ∃ σ' i, lowerExpr (.call "f" [] {}) inward = (.ok (), σ') ∧
      σ'.draft.chunk.instructions.back? = some i ∧ Dispatches inward "f" i .int ∧
      σ'.typeOf (.call "f" [] {}) = .int := by
  have h := Step.eq_ok_of_isOk (x := lowerExpr (.call "f" [] {})) (s := inward) (by decide +kernel)
  obtain ⟨i, type, hlast, hdispatches, hsame, hagrees⟩ := call_type_agrees_iff h (by decide +kernel)
  have htype : inward.typeOf (.call "f" [] {}) = .int := by decide +kernel
  obtain rfl : ValueType.int = type :=
    htype.symm.trans (hagrees.mpr fun hspecial => absurd hspecial.1 (by decide))
  exact ⟨_, i, h, hlast, hdispatches, hsame.trans htype⟩

/-- **A special form of the wrong type.**  The call is taken for an integer, as the subroutine returns one.
What is emitted for it leaves undef, which is stored to an integer variable without a conversion. -/
theorem checkpoint_typed_amiss :
    inward.typeOf (.call "checkpoint" [.integer 1 {}] {}) = .int ∧
      Dispatches inward "checkpoint" (.bare .loadUndefined) .unknown ∧
      (lowerExpr (.assign (.declare "$x" .int {}) (.call "checkpoint" [.integer 1 {}] {}) {})
        inward).2.draft.chunk.instructions =
        #[.checkpoint 1, .bare .loadUndefined, .bare .dup, .store 0] :=
  ⟨by decide +kernel, .special rfl, by decide +kernel⟩

end StackScript
