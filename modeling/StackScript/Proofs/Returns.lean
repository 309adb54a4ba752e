import StackScript.Proofs.Marks

/-!
# What subroutines return

A subroutine that declares a return type hands out values of that type only.  Each return in its code
that control can get to is one of an expression, given or implied, which is of the declared type as
far as can be deduced, or has been converted to it just before.

* `Unfolds.returning`: the lines of the table that emit a return check the value first.
* `VisitsOwn`: what is lowered inside a subroutine and inside no other one in it.
* `VisitsOwn.returnType`: it sees the type that the subroutine declares.
* `Program.behind_return`: control does not get to what is emitted right behind a return.
* `compile_returns`: what this comes to.
-/

namespace StackScript

open Move

/-! ### The declared type -/

/-- The return type of a subroutine's scope. -/
def ScopeKind.returnType? : ScopeKind → Option ValueType
  | .subroutine type => some type
  | _ => none

namespace Scopes

/-- The return type in force is that of the innermost subroutine. -/
theorem returnType_eq {s : Scopes} :
    s.returnType = ((s.stack.map (·.kind)).findSome? ScopeKind.returnType?).getD .unknown := by
  obtain ⟨stack⟩ := s
  show returnType.go stack = _
  induction stack with
  | nil => rfl
  | cons a stack ih =>
      unfold returnType.go
      cases hk : a.kind <;> simp [hk, ih, List.findSome?, ScopeKind.returnType?]

/-- The declared type is that of the innermost subroutine, so scopes inside it do not matter. -/
theorem returnType_of_kinds {s s' : Scopes} {ks : List ScopeKind}
    (h : s'.stack.map (·.kind) = ks ++ s.stack.map (·.kind))
    (hks : ∀ k ∈ ks, k.isSubroutine = false) : s'.returnType = s.returnType := by
  have hnone : ks.findSome? ScopeKind.returnType? = none := by
    refine List.findSome?_eq_none_iff.mpr fun k hk => ?_
    cases k with
    | subroutine type => cases hks _ hk
    | _ => rfl
  rw [returnType_eq, returnType_eq, h, List.findSome?_append, hnone, Option.none_or]

/-- The return type in force stays the same while its subroutine is open. -/
theorem Kept.returnType {s s' : Scopes} (h : Kept s.stack s'.stack) :
    s'.returnType = s.returnType :=
  @returnType_of_kinds s s' [] h.kinds (by simp)

end Scopes

/-! ### Templates that return -/

/-- The move emits a return. -/
def Move.returns : Move → Bool
  | .emit i => i.opcode = .ret
  | _ => false

/-- The expression whose value is returned where the piece has been evaluated. -/
def Piece.returned? : Piece → Option Expr
  | .stmt (.ret (some x) _) => some x
  | .stmt (.ret none s) => some (.undefined s)
  | .body _ [.expr x] => some x
  | _ => none

/-- The moves that evaluate what the piece returns, and the type that it is held to. -/
inductive Evaluates : Piece → Expr → ValueType → List Move → Prop where
  | value {x : Expr} {s : Span} {type : ValueType} :
      Evaluates (.stmt (.ret (some x) s)) x type
        [.piece (.expr x) true, .sees fun σ => σ.scopes.returnType = type]
  | bare {s : Span} {type : ValueType} :
      Evaluates (.stmt (.ret none s)) (.undefined s) type
        [.sees fun σ => σ.scopes.returnType = type, .op .loadUndefined]
  | last {x : Expr} {type : ValueType} :
      Evaluates (.body type [.expr x]) x type [.piece (.expr x) true]

/-- The moves evaluate `x`, hold it to `type` and return it. -/
def Returning (p : Piece) (x : Expr) (type : ValueType) (ms : List Move) : Prop :=
  ∃ front cs ok, Evaluates p x type front ∧ Enforces x type .result cs ok ∧
    ms = front ++ cs ++ [Move.op .ret]

theorem Evaluates.returned {p : Piece} {x : Expr} {type : ValueType} {front : List Move}
    (h : Evaluates p x type front) : p.returned? = some x := by
  cases h <;> rfl

/-- Evaluating what is returned emits no `return`. -/
theorem Evaluates.returnless {p : Piece} {x : Expr} {type : ValueType} {front : List Move}
    (h : Evaluates p x type front) : front.all (!·.returns) = true := by
  cases h <;> rfl

theorem Enforces.returnless {x : Expr} {type : ValueType} {role : Role} {cs : List Move} {ok : Bool}
    (h : Enforces x type role cs ok) : cs.all (!·.returns) = true := by
  cases h <;> rfl

theorem ReturnsUndef.returning {s : Span} {ms : List Move} (h : ReturnsUndef s ms) :
    ∃ type, Returning (.stmt (.ret none s)) (.undefined s) type ms := by
  obtain ⟨hc⟩ := h
  exact ⟨_, _, _, _, .bare, hc, rfl⟩

/-- **A template that returns evaluates an expression, holds it to a type and returns it**, if it is
not that of a subroutine. -/
theorem Unfolds.returning {p : Piece} {ms : List Move} {b : Bool} {m : Move} (hu : Unfolds p ms b)
    (hm : m ∈ ms) (hr : m.returns = true) (hp : ∀ head body, p ≠ .stmt (.sub head body)) :
    ∃ x type, Returning p x type ms := by
  have hnone (h : ms.all (!·.returns) = true) : False := by
    have := List.all_eq_true.mp h m hm
    simp [hr] at this
  cases hu with
  | sub | subParameter | subRedeclared => exact absurd rfl (hp _ _)
  | ret hc => exact ⟨_, _, _, _, _, .value, hc, rfl⟩
  | retUndef h => exact ⟨_, h.returning⟩
  | bodyExpr hc => exact ⟨_, _, _, _, _, .last, hc, rfl⟩
  | assignVar hc | assignVarMismatch hc | assignDeclare hc | assignDeclareMismatch hc =>
      refine (hnone ?_).elim
      simp only [List.all_cons, List.all_append, hc.returnless]
      rfl
  | @argsHeld _ _ p _ _ _ hc =>
      refine (hnone ?_).elim
      simp only [List.all_append, hc.returnless]
      cases p.copy <;> rfl
  | @next _ control => cases control <;> exact (hnone rfl).elim
  | @checkpoint _ on => cases on <;> exact (hnone rfl).elim
  | @call _ _ _ _ _ sub =>
      refine (hnone ?_).elim
      cases sub.usesArgList <;> rfl
  | @cond _ _ _ rest => cases rest <;> exact (hnone rfl).elim
  | @loop init condition step =>
      cases init <;> cases condition <;> cases step <;> exact (hnone rfl).elim
  | @package kind => cases kind <;> exact (hnone rfl).elim
  | @bool v => cases v <;> exact (hnone rfl).elim
  | @binary o => cases o <;> exact (hnone rfl).elim
  | @unary o => cases o <;> exact (hnone rfl).elim
  | _ => exact (hnone rfl).elim

/-- Before `n` the value of `x`, whose code ends where the session is `υ`, is known to be of the
type, or is converted to it. -/
def Chunk.Conforms (c : Chunk) (x : Expr) (type : ValueType) (υ : Session) (n : Nat) : Prop :=
  (n = υ.draft.position ∧ (υ.typeOf x).fit type = .identical) ∨
    (n = υ.draft.position + 1 ∧
      c.instructions[υ.draft.position]? = some (.toCompatible type))

section Template

variable {c : Chunk} {d : Draft} {p : Piece} {x : Expr} {type : ValueType} {σ σ' τ : Session}

/-- What is evaluated is the expression, and the type is that which the subroutine declares. -/
theorem Evaluates.lowers {front : List Move} (he : Evaluates p x type front)
    (h : Along Lowers front σ τ) :
    Lowers (.expr x) true σ τ ∧ (type = σ.scopes.returnType ∨ ∃ body, p = .body type body) := by
  cases he with
  | value =>
      obtain ⟨_, hx, _, ⟨rfl, rfl⟩, rfl⟩ := h
      exact ⟨hx, .inl (Scopes.Kept.returnType hx.runs.kept)⟩
  | bare =>
      obtain ⟨_, ⟨rfl, rfl⟩, _, hload, rfl⟩ := h
      obtain rfl := acts_emit.mp hload
      exact ⟨rfl, .inl rfl⟩
  | last =>
      obtain ⟨_, hx, rfl⟩ := h
      exact ⟨hx, .inr ⟨_, rfl⟩⟩

theorem Enforces.conforms {role : Role} {cs : List Move} {ok : Bool} (hc : Enforces x type role cs ok)
    (hq : Quiet cs) (h : Along Lowers cs τ σ') (hd : σ'.draft.Grows d) (hfin : d.finish = .ok c)
    (htype : type ≠ .unknown) : c.Conforms x type τ σ'.draft.position := by
  cases hc with
  | free hfree => cases type <;> simp_all [ValueType.isUnknown]
  | identical _ hfit =>
      obtain ⟨_, ⟨rfl, rfl⟩, rfl⟩ := h
      exact .inl ⟨rfl, hfit⟩
  | castable _ hfit =>
      obtain ⟨_, ⟨rfl, rfl⟩, _, hemit, rfl⟩ := h
      obtain ⟨j, hj, hr⟩ := acts_emit_at hemit hd hfin
      obtain rfl : Instruction.toCompatible type = j := Except.ok.inj hr
      exact .inr ⟨Move.Does.position (m := .emit _) hemit, hj⟩
  | incompatible => simp [Quiet, Move.quiet] at hq

/-- There is code for an expression. -/
theorem Lowers.expr_width (h : Lowers (.expr x) true σ σ') (hcount : σ'.report.count = 0)
    (hd : σ'.draft.Grows d) (hfin : d.finish = .ok c) : σ.draft.position < σ'.draft.position := by
  have hgain : c.height σ'.draft.position = c.height σ.draft.position + 1 :=
    (h.quiet hcount).gain hd hfin
  refine Nat.lt_of_le_of_ne h.before.grows.position_le fun heq => ?_
  rw [heq] at hgain
  omega

/-- Where the value of an expression is returned, it has been held to the type. -/
theorem Returning.conforms {ms ns : List Move} {m : Move} (h : Returning p x type (ms ++ m :: ns))
    (hm : m.returns = true) (ha : Along Lowers ms σ σ') (hcount : σ'.report.count = 0)
    (hd : σ'.draft.Grows d) (hfin : d.finish = .ok c) :
    p.returned? = some x ∧ (type = σ.scopes.returnType ∨ ∃ body, p = .body type body) ∧
      ∃ τ, Lowers (.expr x) true σ τ ∧ σ.draft.position < τ.draft.position ∧
        (type ≠ .unknown → c.Conforms x type τ σ'.draft.position) := by
  have hq := ha.quiet_of_lowers hcount
  obtain ⟨front, cs, ok, he, hc, hms⟩ := h
  obtain ⟨rfl, -, -⟩ := split_unique (P := Move.returns) hms hm
    (by rw [List.all_append, he.returnless, hc.returnless]; rfl) rfl
  obtain ⟨τ, hfront, hcs⟩ := along_append.mp ha
  obtain ⟨hx, htype'⟩ := he.lowers hfront
  have hcount' : τ.report.count = 0 := hcs.before.count_eq_zero hcount
  exact ⟨he.returned, htype', τ, hx, hx.expr_width hcount' (hcs.before.grows.trans hd) hfin,
    hc.conforms (fun m hm => hq m (List.mem_append_right _ hm)) hcs hd hfin⟩

end Template

/-! ### Inside a subroutine -/

/-- The body of a subroutine is lowered piece by piece, each of them for the same type. -/
theorem Unfolds.body_piece {p : Piece} {ms : List Move} {b e : Bool} {type : ValueType}
    {body : List Stmt} (hu : Unfolds p ms b) (hm : .piece (.body type body) e ∈ ms)
    (hp : ∀ head body, p ≠ .stmt (.sub head body)) : ∃ body', p = .body type body' := by
  have hflat {cs : List Move} (hcs : pieces cs = []) : .piece (.body type body) e ∉ cs := by
    intro h
    obtain ⟨ms₁, ms₂, rfl⟩ := List.append_of_mem h
    simp [pieces] at hcs
  cases hu with
  | sub | subParameter | subRedeclared => exact absurd rfl (hp _ _)
  | @bodyCons type' _ rest =>
      obtain ⟨⟨rfl, -⟩, -⟩ : (type = type' ∧ body = rest) ∧ e = b := by simpa using hm
      exact ⟨_, rfl⟩
  | assignVar hc | assignVarMismatch hc | assignDeclare hc | assignDeclareMismatch hc | ret hc
  | bodyExpr hc => simp [op, hflat hc.pieces] at hm
  | @argsHeld _ _ p _ _ _ hc => cases h : p.copy <;> simp [Move.when, h, hflat hc.pieces] at hm
  | retUndef hr => exact absurd hm (hflat hr.pieces)
  | @checkpoint _ on => cases on <;> simp [Move.when, op] at hm
  | @call _ _ _ _ _ sub => cases h : sub.usesArgList <;> simp [Move.when, h] at hm
  | @cond _ _ _ rest => cases rest <;> simp [Move.block, otherwise] at hm
  | @loop init condition step =>
      cases init <;> cases condition <;> cases step <;>
        simp [effect, guarded, Move.block, op] at hm
  | @package kind => cases kind <;> simp [declareModule, Move.block] at hm
  | @next _ control => cases control <;> simp [advance, increment, op] at hm
  | _ => simp [op, Move.block, increment] at hm

/-- The code from `a` to `b` is inside a body whose frame is opened behind `s`. -/
def Chunk.Nested (c : Chunk) (s a b : Nat) : Prop :=
  ∃ t, c.opens t = true ∧ s < t ∧ t ≤ a ∧ b ≤ c.bodyEnd t

theorem Chunk.Nested.mono {c : Chunk} {s a b a' b' : Nat} (h : c.Nested s a b) (ha : a ≤ a')
    (hb : b' ≤ b) : c.Nested s a' b' := by
  obtain ⟨t, ho, hst, hta, hbt⟩ := h
  exact ⟨t, ho, hst, Nat.le_trans hta ha, Nat.le_trans hb hbt⟩

/-- What is nested in a body is not of the body itself. -/
theorem Chunk.InBody.not_nested {c : Chunk} {t s a b n : Nat} (h : c.InBody t n) (ht : t ≤ s)
    (ha : a ≤ n) (hb : n < b) : ¬ c.Nested s a b := by
  rintro ⟨t', ho, hst, hta, hbt⟩
  have := h.2.2.2 t' ho (Nat.lt_of_le_of_lt ht hst) (Nat.le_trans hta ha)
  omega

section Inside

variable {c : Chunk} {d : Draft} {p q : Piece} {b e : Bool} {σ σ' τ τ' : Session}

/-- The code of a subroutine is nested in itself, but for the jump over it. -/
theorem Part.nested {head : SubHead} {body : List Stmt} {s : Nat}
    (h : Part (.stmt (.sub head body)) b σ σ' q e τ τ') (hcount : σ'.report.count = 0)
    (hd : σ'.draft.Grows d) (hc : d.finish = .ok c) (hs : s ≤ σ.draft.position) :
    c.Nested s τ.draft.position τ'.draft.position := by
  obtain ⟨-, hsub⟩ := h.subRun hcount
  cases hsub with
  | intro _ _ hclose h₁ h₂ h₃ hbody h₅ h₆ =>
  obtain ⟨hrun, rfl, rfl⟩ := hbody
  obtain ⟨e₃, hlt, e₆, hjump, hopen, -⟩ := SubRun.layout hclose h₁ h₂ h₃ hrun.grows h₅ h₆ hd hc
  refine ⟨σ.draft.position + 1, ?_, by omega, by omega, ?_⟩
  · simp [Chunk.opens, hopen, Instruction.pushFrame]
  · simp only [Chunk.bodyEnd, hjump]
    omega

/-- A body is lowered for the type that its subroutine declares. -/
theorem Part.returnType {head : SubHead} {body : List Stmt}
    (h : Part (.stmt (.sub head body)) b σ σ' q e τ τ') (hcount : σ'.report.count = 0) :
    τ.scopes.returnType = head.returnType := by
  obtain ⟨-, hsub⟩ := h.subRun hcount
  cases hsub with
  | intro _ _ _ h₁ h₂ h₃ hbody =>
  obtain ⟨-, rfl, rfl⟩ := hbody
  rw [(SubRun.kept h₂ h₃).returnType, SubRun.entered h₁]
  rfl

/-- Lowering `p` from `σ` to `σ'` lowers the piece from one session to the other on the way, and not for
the sake of a subroutine that is declared in `p`. -/
inductive VisitsOwn (p : Piece) (b : Bool) (σ σ' : Session) :
    Piece → Bool → Session → Session → Prop where
  | self : VisitsOwn p b σ σ' p b σ σ'
  | part {q r : Piece} {e f : Bool} {τ τ' υ υ' : Session} :
      VisitsOwn p b σ σ' q e τ τ' → (∀ head body, q ≠ .stmt (.sub head body)) →
      Part q e τ τ' r f υ υ' → VisitsOwn p b σ σ' r f υ υ'

/-- A piece that is visited without entering a subroutine is visited. -/
theorem VisitsOwn.visits (h : VisitsOwn p b σ σ' q e τ τ') : Visits p b σ σ' q e τ τ' := by
  induction h with
  | self => exact .self
  | part _ _ hpart ih => exact .part ih hpart

/-- What is lowered on the way is lowered for the sake of `p`, unless its code is nested in that of a
subroutine. -/
theorem Visits.own_or_nested (h : Visits p b σ σ' q e τ τ') (hl : Lowers p b σ σ')
    (hcount : σ'.report.count = 0) (hd : σ'.draft.Grows d) (hc : d.finish = .ok c) :
    VisitsOwn p b σ σ' q e τ τ' ∨ c.Nested σ.draft.position τ.draft.position τ'.draft.position := by
  induction h with
  | self => exact .inl .self
  | @part q r e f τ τ' ρ ρ' hv hpart ih =>
      obtain ⟨-, hbefore, hbehind⟩ := hv.within hl
      rcases q.other_or_sub with hq | ⟨head, body, rfl⟩
      · rcases ih with hown | hnested
        · exact .inl (.part hown hq hpart)
        · obtain ⟨ms, ns, -, h₁, -, h₂⟩ := hpart
          exact .inr (hnested.mono h₁.before.grows.position_le h₂.before.grows.position_le)
      · have hcount' : τ'.report.count = 0 := hbehind.count_eq_zero hcount
        exact .inr (hpart.nested hcount' (hbehind.grows.trans hd) hc hbefore.grows.position_le)

/-- **The declared type inside a subroutine.**  What is lowered for the body of a subroutine itself is
lowered for the type of that body. -/
theorem VisitsOwn.returnType (h : VisitsOwn p b σ σ' q e τ τ') (hl : Lowers p b σ σ')
    (hcount : σ'.report.count = 0) (hd : σ'.draft.Grows d) (hc : d.finish = .ok c)
    (hp : ∀ type body, p = .body type body → type = σ.scopes.returnType) :
    τ.scopes.returnType = σ.scopes.returnType ∧
      ∀ type body, q = .body type body → type = σ.scopes.returnType := by
  induction h with
  | self => exact ⟨rfl, hp⟩
  | @part q r e f τ τ' ρ ρ' hv hq hpart ih =>
      obtain ⟨-, -, hbehind⟩ := hv.visits.within hl
      have hcount' : τ'.report.count = 0 := hbehind.count_eq_zero hcount
      obtain ⟨ms, ns, hu, h₁, hr, h₂⟩ := hpart
      obtain ⟨hsame, hbody⟩ := ih
      obtain ⟨hquiet, r₁, hrun, r₂⟩ := hr.quiet_around h₁ h₂ hcount'
      -- The scopes opened on the way are none of a subroutine, so the declared type is the same.
      have hρ := hu.flowing (m := .piece r f) hquiet r₁ hrun r₂ hq (hbehind.grows.trans hd) hc
      obtain ⟨hflow, -⟩ :=
        flow_append.mp (hu.flow hquiet (along_append.mpr ⟨ρ, h₁, ρ', hr, h₂⟩) hq)
      have hkind := Scopes.returnType_of_kinds hρ.kinds fun k hk => hflow.subless hk
      refine ⟨hkind.trans hsame, ?_⟩
      rintro type body rfl
      have hmem : .piece (.body type body) f ∈ ms ++ .piece (.body type body) f :: ns := by simp
      obtain ⟨body', rfl⟩ := hu.body_piece hmem hq
      exact hbody type body' rfl

end Inside

/-! ### The end of a body -/

/-- A body tells whether it ends in an expression or a return, and if so it ends by returning. -/
theorem Runs.body_ends {Q : List Move → Prop} {type : ValueType} {body : List Stmt} {ends : Bool}
    {σ σ' : Session} (h : Runs Q (.body type body) ends σ σ') :
    ends = body.getLast?.any Stmt.closing ∧
      (ends = true → ∃ ρ, σ.draft.Marks ρ.draft ∧ (Move.op .ret).Does ρ σ') := by
  -- All the templates that end a body end in the same instruction.
  have hret {ms : List Move} {σ} (h : Along (Runs Q) (ms ++ [Move.op .ret]) σ σ') :
      ∃ ρ, σ.draft.Marks ρ.draft ∧ (Move.op .ret).Does ρ σ' := by
    obtain ⟨ρ, h₁, _, hret, rfl⟩ := along_append.mp h
    exact ⟨ρ, h₁.marks_of Runs.marks, hret⟩
  induction body generalizing σ with
  | nil =>
      obtain ⟨ms, hu, -, ha⟩ := h.unfolds
      cases hu
      exact ⟨rfl, by simp⟩
  | cons s rest ih =>
      obtain ⟨ms, hu, -, ha⟩ := h.unfolds
      cases hu with
      | bodyExpr => exact ⟨rfl, fun _ => hret ha⟩
      | bodyRet =>
          obtain ⟨_, hs, rfl⟩ := ha
          obtain ⟨ms, hu, -, ha⟩ := hs.unfolds
          refine ⟨rfl, fun _ => ?_⟩
          cases hu with
          | ret => exact hret ha
          | retUndef hr =>
              obtain ⟨hc⟩ := hr
              exact @hret (_ :: _ :: _) _ ha
      | bodyCons hor =>
          obtain ⟨σ₁, hs, _, hrest, rfl⟩ := ha
          obtain ⟨hends, hlast⟩ := ih hrest
          refine ⟨?_, fun h => ?_⟩
          · rw [hends]
            cases rest with
            | nil =>
                have : s.closing = false := by simpa using hor
                simp [this]
            | cons s' rest => rw [List.getLast?_cons_cons]
          · obtain ⟨ρ, hmarks, hdoes⟩ := hlast h
            exact ⟨ρ, hs.marks.trans hmarks, hdoes⟩

/-- What a move emits itself is a return only if the move is one. -/
theorem Move.Does.returns {m : Move} {σ σ' : Session} {d : Draft} {c : Chunk} {i : Instruction}
    (h : m.Does σ σ') (hlt : σ.draft.position < σ'.draft.position) (hd : σ'.draft.Grows d)
    (hc : d.finish = .ok c) (hi : c.instructions[σ.draft.position]? = some i)
    (hop : i.opcode = .ret) : m.returns = true := by
  have hpos := h.position
  cases m with
  | emit j =>
      obtain ⟨j', hj, hr⟩ := acts_emit_at h hd hc
      obtain rfl := Option.some.inj (hj.symm.trans hi)
      simpa [Move.returns, (Draft.resolveInstruction_eq_ok hr).1] using hop
  | constant v =>
      obtain ⟨index, hj, -⟩ := acts_constant_at h hd hc
      obtain rfl := Option.some.inj (hj.symm.trans hi)
      cases hop
  | piece p b => exact h.elim
  | _ =>
      have hpos : σ'.draft.position = σ.draft.position := hpos
      omega

namespace Program

variable {p : Program} {name : String} {options : CompileOptions} {u : CompiledUnit}

/-- A path from the frame of a body stays in the body. -/
theorem path_inBody {t n : Nat} {k : Int} (h : compile name options p = .ok u)
    (hlabels : p.labelCount name options < UInt32.size) (ho : u.chunk.opens t = true)
    (hpath : u.chunk.Path t n k) : u.chunk.InBody t n := by
  induction hpath with
  | start => exact inBody_of_opens h ho
  | step _ hi hf ih => exact flows_inBody h hlabels ih hi hf

/-- **Control does not get to what is emitted right behind a return.**  No label is marked there, so
that no branch arrives, and the return does not go on. -/
theorem behind_return {σ ρ ρ₁ ρ₂ ρ₃ : Session} {i j : Instruction} {e n : Nat} {k : Int}
    (h : compile name options p = .ok u)
    (hl : Lowers (.stmts p.body) true (p.entry name options) σ)
    (hfin : σ.halted.draft.finish = .ok u.chunk) (hρ : ρ.draft.Bounded)
    (h₁ : (Move.op .ret).Does ρ ρ₁) (h₂ : (Move.emit i).Does ρ₁ ρ₂) (h₃ : (Move.emit j).Does ρ₂ ρ₃)
    (hm : ρ₃.draft.Marks σ.halted.draft) (hd : ρ₁.draft.Grows σ.halted.draft)
    (he : e ≤ ρ.draft.position) (hpath : u.chunk.Path e n k) :
    n ≠ ρ₁.draft.position ∧ n ≠ ρ₂.draft.position := by
  have e₁ : ρ₁.draft.position = ρ.draft.position + 1 := h₁.position
  have e₂ : ρ₂.draft.position = ρ₁.draft.position + 1 := h₂.position
  have hm₂ : ρ₂.draft.Marks σ.halted.draft := h₃.marks.trans hm
  have hret := (h₁.marks)
  obtain ⟨_, hi, hr⟩ := acts_emit_at h₁ hd hfin
  obtain rfl := Except.ok.inj hr
  obtain rfl := acts_emit.mp h₁
  obtain rfl := acts_emit.mp h₂
  obtain rfl := acts_emit.mp h₃
  -- Along the path: an instruction that goes on is not the return, and a branch goes to a marked place.
  induction hpath with
  | start => exact ⟨by omega, by omega⟩
  | @step n m k b hpath hb hf ih =>
      rcases Instruction.flows_iff.mp hf with ⟨rfl, hop⟩ | ⟨hbranch, hoperand⟩
      · refine ⟨?_, by omega⟩
        intro hn
        obtain rfl : n = ρ.draft.position := by omega
        obtain rfl := Option.some.inj (hi.symm.trans hb)
        simp [Instruction.bare] at hop
      · have hne := branch_ne h hl hρ hm₂ hb hbranch
        have hne' := branch_ne h hl (hρ.mono hret) hm hb hbranch
        rw [hoperand] at hne hne'
        refine ⟨?_, ?_⟩
        · rintro rfl
          exact hne (by rw [e₁])
        · rintro rfl
          exact hne' (by rw [e₂])

/-- Where compiling the program comes to what the subroutine with its frame at `e` returns.  In lowering its
body, and not for the sake of a subroutine declared there, it comes to a `return` or to an expression at the
end; or it comes to the end of the statements. -/
inductive Returned (p : Program) (name : String) (options : CompileOptions) (r : Routine) (e : Nat) :
    Expr → Session → Prop where
  | given {head : SubHead} {q : Piece} {a b c : Bool} {x : Expr} {τ τ' υ υ' σ σ' : Session} :
      r.head = some head → p.Lowered name options (.stmt (.sub head r.body)) a τ τ' →
      e = τ.draft.position + 1 →
      Part (.stmt (.sub head r.body)) a τ τ' (.body head.returnType r.body) b υ υ' →
      VisitsOwn (.body head.returnType r.body) b υ υ' q c σ σ' → q.returned? = some x →
      Returned p name options r e x σ
  | fallen {head : SubHead} {σ : Session} : p.Body name options r e σ →
      r.head = some head → r.body.getLast?.any Stmt.closing = false →
      Returned p name options r e (.undefined head.span) σ

/-- At `n` the value of an expression that the routine with its frame at `e` returns has been held to the
type. -/
def Conforms (p : Program) (name : String) (options : CompileOptions) (c : Chunk) (r : Routine)
    (e : Nat) (type : ValueType) (n : Nat) : Prop :=
  ∃ x υ υ', p.Returned name options r e x υ ∧ Lowers (.expr x) true υ υ' ∧
    υ.draft.position < υ'.draft.position ∧ c.Conforms x type υ' n

section Routine

variable {σ τ τ' υ υ' : Session} {head : SubHead} {body : List Stmt} {b c : Bool} {e n : Nat}
  {i : Instruction}

/-- The returns in the code of a body. -/
theorem Lowered.conforms (hdecl : p.Lowered name options (.stmt (.sub head body)) b τ τ')
    (hpart : Part (.stmt (.sub head body)) b τ τ' (.body head.returnType body) c υ υ')
    (h : compile name options p = .ok u) (htype : υ.scopes.returnType = head.returnType)
    (hknown : head.returnType ≠ .unknown) (hin : u.chunk.InBody (τ.draft.position + 1) n)
    (he : τ.draft.position + 1 ≤ υ.draft.position) (hle : υ.draft.position ≤ n)
    (hlt : n < υ'.draft.position) (hi : u.chunk.instructions[n]? = some i) (hop : i.opcode = .ret) :
    p.Conforms name options u.chunk ⟨some head, body⟩ (τ.draft.position + 1) head.returnType n := by
  have hq : p.Lowered name options (.body head.returnType body) c υ υ' := hdecl.trans (.part .self hpart)
  obtain ⟨σ, hl, hcount, hfin⟩ := lowers_of_compile h
  obtain ⟨hbody, -, hbehind⟩ := hq.within hl
  have hd : υ'.draft.Grows σ.halted.draft := hbehind.grows.trans .emit
  have hcount' : υ'.report.count = 0 := hbehind.count_eq_zero hcount
  -- The piece whose own template emits the return.  It is not a subroutine, and it is not inside one
  -- that is declared in this body: otherwise the place would belong to another frame.
  obtain ⟨q, f, ρ, ρ', m, κ, κ', hv, hmakes, rfl, hlt'⟩ := hbody.exists_emitter hle hlt
  obtain ⟨-, hbefore', hbehind'⟩ := hv.within hbody
  obtain ⟨hκ, hκ'⟩ := hmakes.before
  have hcount'' : ρ'.report.count = 0 := hbehind'.count_eq_zero hcount'
  have hd' := hκ'.grows.trans (hbehind'.grows.trans hd)
  have hle₁ := hκ.grows.position_le
  have hle₂ := hκ'.grows.position_le
  obtain ⟨ms, ns, hu, h₁, hdoes, h₂⟩ := hmakes
  have hret := hdoes.returns hlt' hd' hfin hi hop
  have hlow : p.Lowered name options q f ρ ρ' := hq.trans hv
  have hsub : ∀ head body, q ≠ .stmt (.sub head body) := by
    rintro head body rfl
    obtain ⟨⟨_, -, hframe⟩, hjump, -⟩ := hlow.layout h
    have hne : κ.draft.position ≠ ρ.draft.position := by
      intro heq
      rw [heq] at hi
      obtain rfl := Option.some.inj (hjump.symm.trans hi)
      cases hop
    have hfrom := hbefore'.grows.position_le
    refine hin.not_nested (s := υ.draft.position) (a := ρ.draft.position + 1)
      (b := ρ'.draft.position) he (by omega) (by omega) ⟨_, ?_, by omega, Nat.le_refl _, ?_⟩
    · simp [Chunk.opens, hframe, Instruction.pushFrame]
    · simp [Chunk.bodyEnd, hjump]
  obtain hown : VisitsOwn (.body head.returnType body) c υ υ' q f ρ ρ' :=
    (hv.own_or_nested hbody hcount' hd hfin).resolve_right (hin.not_nested he hle₁ (by omega))
  obtain ⟨hsame, hpiece⟩ :=
    hown.returnType hbody hcount' hd hfin (by rintro _ _ ⟨⟩; exact htype.symm)
  obtain ⟨x, type', hr⟩ := hu.returning (m := m) (by simp) hret hsub
  have hcountκ : κ.report.count = 0 :=
    (hdoes.before.trans hκ').count_eq_zero hcount''
  obtain ⟨hx, htype', ρ₁, hlow₁, hwidth, hconforms⟩ :=
    hr.conforms hret h₁ hcountκ (hdoes.grows.trans hd') hfin
  obtain rfl : head.returnType = type' := by
    rcases htype' with heq | ⟨body', rfl⟩
    · rw [heq, hsame, htype]
    · rw [hpiece type' body' rfl, htype]
  exact ⟨x, ρ, ρ₁, .given rfl hdecl rfl hpart hown hx, hlow₁, hwidth, hconforms hknown⟩

/-- The return that a body falls through to. -/
theorem Body.conforms {close : List Move} {σ' : Session}
    (hb : p.Body name options ⟨some head, body⟩ e σ)
    (hends : body.getLast?.any Stmt.closing = false) (hret : ReturnsUndef head.span close)
    (h : Along Lowers close σ σ') (hcount : σ'.report.count = 0) {d : Draft} {c : Chunk}
    (hd : σ'.draft.Grows d) (hfin : d.finish = .ok c) (htype : σ.scopes.returnType = head.returnType)
    (hknown : head.returnType ≠ .unknown) (hle : σ.draft.position ≤ n) (hlt : n < σ'.draft.position)
    (hi : c.instructions[n]? = some i) (hop : i.opcode = .ret) :
    p.Conforms name options c ⟨some head, body⟩ e head.returnType n := by
  obtain ⟨type, hr⟩ := hret.returning
  obtain ⟨ms, m, ns, κ, κ', rfl, h₁, hm, h₂, hle', hlt'⟩ := h.exists_move hle hlt
  have hdoes : m.Does κ κ' := by
    rcases hm.does_or_piece with hm | ⟨q, b, rfl, -⟩
    · exact hm
    · have := hret.pieces
      simp [pieces] at this
  obtain rfl := hdoes.width_le hle' hlt'
  have hd' := h₂.before.grows.trans hd
  have hcount' : κ.report.count = 0 :=
    (hdoes.before.trans h₂.before).count_eq_zero hcount
  obtain ⟨-, htype', τ, hlow, hwidth, hconforms⟩ :=
    hr.conforms (hdoes.returns hlt' hd' hfin hi hop) h₁ hcount' (hdoes.grows.trans hd') hfin
  obtain rfl : type = head.returnType := by
    rcases htype' with heq | ⟨_, heq⟩
    · rw [heq, htype]
    · cases heq
  exact ⟨_, σ, τ, .fallen hb rfl hends, hlow, hwidth, hconforms hknown⟩

/-- Behind a body that ends in an expression or a `return` there are two instructions that control does
not get to. -/
theorem Lowered.dead_end
    (hsub : p.Lowered name options (.stmt (.sub head body)) b τ τ')
    (hpart : Part (.stmt (.sub head body)) b τ τ' (.body head.returnType body) c υ υ')
    (h : compile name options p = .ok u) (hends : body.getLast?.any Stmt.closing = true) :
    υ'.draft.position + 2 = τ'.draft.position ∧
      u.chunk.instructions[υ'.draft.position]? = some (.bare .loadUndefined) ∧
      u.chunk.instructions[υ'.draft.position + 1]? = some (.bare .ret) ∧
      ∀ {n k}, u.chunk.Path (τ.draft.position + 1) n k →
        n ≠ υ'.draft.position ∧ n ≠ υ'.draft.position + 1 := by
  obtain ⟨σ, hl, hcount, hfin⟩ := lowers_of_compile h
  obtain ⟨-, -, hbehind⟩ := hsub.within hl
  have hcount' : τ'.report.count = 0 := hbehind.count_eq_zero hcount
  have hd : τ'.draft.Grows σ.halted.draft := hbehind.grows.trans .emit
  obtain ⟨hbounded, hmarks⟩ := hsub.marks hl
  obtain ⟨-, hrun⟩ := hpart.subRun hcount'
  obtain ⟨ms, ns, -, hfront, -, -⟩ := hpart
  cases hrun with
  | intro _ _ hclose h₁ h₂ h₃ hbody h₅ h₆ =>
  obtain ⟨hbody, rfl, rfl⟩ := hbody
  obtain ⟨e₃, -, e₆, -⟩ := SubRun.layout hclose h₁ h₂ h₃ hbody.grows h₅ h₆ hd hfin
  obtain ⟨rfl, hlast⟩ := hbody.body_ends
  -- The body ends by returning, so that what closes it comes right behind a return.
  obtain ⟨ρ, hρ, hret⟩ := hlast hends
  rw [hends] at hclose
  cases hclose with
  | returned =>
  obtain ⟨κ, hload, _, hret', rfl⟩ := h₅
  have hd₅ := (h₆.grows_flat rfl).trans hd
  have hm₅ := ((h₆.does rfl).marks_of False.elim).trans hmarks
  have hdκ := (Move.Does.grows (m := .op .ret) hret').trans hd₅
  have eκ : κ.draft.position = _ + 1 := Move.Does.position (m := .op .loadUndefined) hload
  have e₅ : _ = κ.draft.position + 1 := Move.Does.position (m := .op .ret) hret'
  obtain ⟨_, hi, hr⟩ := acts_emit_at hload hdκ hfin
  obtain rfl := Except.ok.inj hr
  obtain ⟨_, hi', hr⟩ := acts_emit_at hret' hd₅ hfin
  obtain rfl := Except.ok.inj hr
  rw [eκ] at hi'
  refine ⟨by omega, hi, hi', fun hpath => ?_⟩
  rw [← eκ]
  exact behind_return h hl hfin
    (hbounded.mono ((hfront.marks_of fun h => h.runs.marks).trans hρ)) hret hload hret' hm₅
    ((Move.Does.grows (m := .op .loadUndefined) hload).trans hdκ)
    (by have := hρ.position_le; omega) hpath

end Routine

end Program

/-- **Return types are enforced on every exit.**  Take a subroutine of a program that compiles, with its
frame at `e`, that declares a return type.  Every return in the unit that control can get to from its
frame, without calls, is that of an expression: given with a `return`, at whatever depth, standing at
the end of the body, or undef if none is given or the end is reached otherwise.  Just before the return
stands a conversion to the declared type, or the code of the expression if the type deduced for it there
is identical to the declared one.  The code behind a body that ends in an expression or a `return` loads
undef and returns it unconverted; control does not get there. -/
theorem compile_returns {p : Program} {name : String} {options : CompileOptions} {u : CompiledUnit}
    {head : SubHead} {body : List Stmt} {e : Nat} {σ : Session} (h : compile name options p = .ok u)
    (hlabels : p.labelCount name options < UInt32.size)
    (hb : p.Body name options ⟨some head, body⟩ e σ) (htype : head.returnType ≠ .unknown) :
    (∀ n i k, u.chunk.Path e n k → u.chunk.instructions[n]? = some i → i.opcode = .ret →
      p.Conforms name options u.chunk ⟨some head, body⟩ e head.returnType n) ∧
    (body.getLast?.any Stmt.closing = true →
      ∃ n, n + 2 = u.chunk.bodyEnd e ∧ u.chunk.instructions[n]? = some (.bare .loadUndefined) ∧
        u.chunk.instructions[n + 1]? = some (.bare .ret) ∧
        ∀ k, ¬ u.chunk.Path e n k ∧ ¬ u.chunk.Path e (n + 1) k) := by
  obtain ⟨σ₀, hl, hcount, hfin⟩ := Program.lowers_of_compile h
  have hbody := id hb
  cases hb with
  | @sub _ _ b c τ τ' υ υ' hsub hpart =>
  obtain ⟨⟨_, -, hframe⟩, hjump, -⟩ := hsub.layout h
  have ho : u.chunk.opens (τ.draft.position + 1) = true := by
    simp [Chunk.opens, hframe, Instruction.pushFrame]
  have hstop : u.chunk.bodyEnd (τ.draft.position + 1) = τ'.draft.position := by
    simp [Chunk.bodyEnd, hjump]
  obtain ⟨-, -, hbehind⟩ := hsub.within hl
  have hcount' : τ'.report.count = 0 := hbehind.count_eq_zero hcount
  have hd : τ'.draft.Grows σ₀.halted.draft := hbehind.grows.trans .emit
  have htypeυ := hpart.returnType hcount'
  refine ⟨?_, fun hends => ?_⟩
  · intro n i k hpath hi hop
    obtain ⟨-, hrun⟩ := hpart.subRun hcount'
    cases hrun with
    | @intro _ _ _ _ _ _ _ _ _ σ₄ σ₅ _ _ hclose h₁ h₂ h₃ hrun h₅ h₆ =>
    obtain ⟨hrun, rfl, rfl⟩ := hrun
    obtain ⟨e₃, -, e₆, -⟩ := SubRun.layout hclose h₁ h₂ h₃ hrun.grows h₅ h₆ hd hfin
    have hd₅ := (h₆.grows_flat rfl).trans hd
    have hcount₅ : σ₅.report.count = 0 :=
      ((h₆.does rfl).mono (L := Lowers) False.elim).before.count_eq_zero hcount'
    have hin := Program.path_inBody h hlabels ho hpath
    have hne : n ≠ τ.draft.position + 1 := by
      rintro rfl
      obtain rfl := Option.some.inj (hframe.symm.trans hi)
      cases hop
    obtain ⟨-, hle, hlt, -⟩ := id hin
    rw [hstop] at hlt
    rcases Nat.lt_or_ge n σ₄.draft.position with hn | hn
    · exact hsub.conforms hpart h htypeυ htype hin (by omega) (by omega) hn hi hop
    -- Behind the statements there is a return of undef, to which control gets only if they do not
    -- return themselves.
    cases hends : body.getLast?.any Stmt.closing with
    | true =>
        obtain ⟨hwidth, -, -, hdead⟩ := hsub.dead_end hpart h hends
        have := hdead hpath
        omega
    | false =>
        obtain ⟨rfl, -⟩ := hrun.body_ends
        rw [hends] at hclose
        cases hclose with
        | fallen hret =>
        exact hbody.conforms hends hret ((h₅.does hret.pieces).mono False.elim) hcount₅ hd₅ hfin
          (hrun.kept.returnType.trans htypeυ) htype hn (by omega) hi hop
  · obtain ⟨hwidth, hload, hret, hdead⟩ := hsub.dead_end hpart h hends
    refine ⟨_, hwidth.trans hstop.symm, hload, hret, fun k => ⟨?_, ?_⟩⟩
    · exact fun hpath => (hdead hpath).1 rfl
    · exact fun hpath => (hdead hpath).2 rfl

/-- A subroutine that declares `Int`, with a `return` in a branch, one without a value in a loop, and an
expression at its end. -/
def halving : Program where
  body := [
    .sub { name := "half", params := [⟨.var "$n" {}, false⟩], returnType := .int } [
      .cond (.var "$n" {}) [.ret (some (.binary .divide (.var "$n" {}) (.integer 2 {}) {})) {}] [] none,
      .whileLoop (.var "$n" {}) [.ret none {}],
      .expr (.integer 0 {})]]

theorem compile_returns_halving :
    ∃ u head body e σ, compile "main" {} halving = .ok u ∧
      halving.labelCount "main" {} < UInt32.size ∧ halving.Body "main" {} ⟨some head, body⟩ e σ ∧
      head.returnType ≠ .unknown ∧
      (∀ n i k, u.chunk.Path e n k → u.chunk.instructions[n]? = some i → i.opcode = .ret →
        halving.Conforms "main" {} u.chunk ⟨some head, body⟩ e head.returnType n) ∧
      ∃ n, n + 2 = u.chunk.bodyEnd e ∧ ∀ k, ¬ u.chunk.Path e n k := by
  have hok : (compile "main" {} halving).isOk = true := by decide +kernel
  have hlabels : halving.labelCount "main" {} < UInt32.size := by decide +kernel
  cases h : compile "main" {} halving with
  | error e => simp [h, Except.isOk, Except.toBool] at hok
  | ok u =>
      obtain ⟨e, σ, hb⟩ := Program.exists_body h (List.mem_cons_of_mem _ (List.mem_cons_self ..))
      obtain ⟨hreturns, hdead⟩ := compile_returns h hlabels hb (by decide)
      obtain ⟨n, hn, -, -, hpath⟩ := hdead rfl
      exact ⟨u, _, _, e, σ, rfl, hlabels, hb, by decide, hreturns, n, hn, fun k => (hpath k).1⟩

end StackScript
