import StackScript.Proofs.Faults.Halting
import StackScript.Proofs.Routines

/-!
# The sessions of a lowering

Lowering a program goes through many sessions, and need not come to its end: a fault may stop it.
`Program.GoesThrough` are the sessions on the way, those before a fault and those in which the fault
closes what was open.

* `Program.Meets`: lowering the program comes to a piece.
* `Program.GoesThrough.run`: however lowering a program ends, it goes through the session then.
* `Progress`: the moves that lowering a piece has made so far.
-/

namespace StackScript

open Lower

namespace Program

/-- The moves by which a program is lowered, when its subroutines are known. -/
def template (p : Program) : List Move :=
  [.sees fun _ => slotsNeeded p.body < UInt16.size, .enter (.subroutine .unknown),
    .emit (.pushFrame 0 (slotsNeeded p.body).toUInt16), .piece (.stmts p.body) true, .op .halt, .leave]

/-- Lowering the program comes to the piece in this session.  It need not come to the end of it. -/
inductive Meets (p : Program) (name : String) (options : CompileOptions) : Piece → Session → Prop where
  | top : Meets p name options (.stmts p.body) (p.entry name options)
  | part {q r : Piece} {b c : Bool} {ms ns : List Move} {τ υ : Session} : Meets p name options q τ →
      Unfolds q (ms ++ .piece r c :: ns) b → Along Lowers ms τ υ → Meets p name options r υ

/-- Lowering the program goes through the session.  No scope is open before its subroutines are
known. -/
inductive GoesThrough (p : Program) (name : String) (options : CompileOptions) : Session → Prop where
  | program {ms ns : List Move} {υ : Session} : p.template = ms ++ ns →
      Along Lowers ms ((Session.start name options).declareStmts PackageTree.root p.body) υ →
      GoesThrough p name options υ
  /-- The first moves of a piece have been made. -/
  | piece {q : Piece} {b : Bool} {ms ns : List Move} {τ υ : Session} : p.Meets name options q τ →
      Unfolds q (ms ++ ns) b → Along Lowers ms τ υ → GoesThrough p name options υ
  /-- A part of the next move has been made. -/
  | begun {q : Piece} {b : Bool} {m : Move} {ms ns : List Move} {τ υ υ' : Session} :
      p.Meets name options q τ → Unfolds q (ms ++ m :: ns) b → Along Lowers ms τ υ →
      m.Begins υ υ' → GoesThrough p name options υ'
  /-- A fault closes the scopes and leaves the packages one by one. -/
  | closing {id : PackageId} {υ : Session} : GoesThrough p name options υ →
      GoesThrough p name options { υ with scopes := υ.scopes.leave, package := id }

variable {p : Program} {name : String} {options : CompileOptions}

/-- However lowering a piece ends, lowering the program goes through the session then. -/
theorem Meets.goesThrough {q : Piece} {τ : Session} (h : p.Meets name options q τ) :
    p.GoesThrough name options (q.lower τ).2 := by
  rcases hr : q.lower τ with ⟨f | b, υ⟩
  · have hh := Piece.halts hr
    clear hr
    induction hh with
    | move hu ha => exact .piece h hu ha
    | begun hu ha hm => exact .begun h hu ha hm
    | @piece r b c ms ns σ υ hu ha hr =>
        have hsize : r.size < q.size := hu.smaller r (by simp [Move.pieces])
        have hpart := (h.part hu ha).goesThrough
        rwa [hr] at hpart
    | closing _ ih => exact .closing ih
  · obtain ⟨ms, hu, ha⟩ := Lowers.unfolds hr
    rw [← List.append_nil ms] at hu
    exact .piece h hu ha
termination_by q.size

/-- **However lowering a program ends, it goes through the session then.** -/
theorem GoesThrough.run :
    p.GoesThrough name options ((lowerProgram p).run (Session.start name options)).2 := by
  rcases hr : lowerProgram p (Session.start name options) with ⟨f | ⟨⟩, υ⟩
  · show p.GoesThrough name options (lowerProgram p (Session.start name options)).2
    rw [hr]
    rcases Step.bind_eq_error.mp hr with h | ⟨_, τ, hτ, h⟩
    · cases h
    · cases hτ
      by_cases hn : slotsNeeded p.body < UInt16.size
      · have heq : slotCount (slotsNeeded p.body) = pure (slotsNeeded p.body).toUInt16 := if_pos hn
        rw [heq, Step.pure_bind] at h
        obtain ⟨τ, hτ, rfl⟩ := inScope_eq_error.mp h
        -- The fault is in the statements: the other moves end.
        have hstmts : lowerStmts p.body (p.entry name options) = (.error f, τ) := by
          rcases Step.bind_eq_error.mp hτ with h | ⟨_, τ', hτ', h⟩
          · exact absurd h ends_emit.ne_error
          · cases hτ'
            rcases Step.bind_eq_error.mp h with h | ⟨_, _, _, h⟩
            · exact h
            · exact absurd h ends_emitOp.ne_error
        have htop : p.GoesThrough name options _ := Meets.top.goesThrough
        have hlower : (Piece.stmts p.body).lower (p.entry name options) = (.error f, τ) :=
          Step.bind_eq_error.mpr (.inl hstmts)
        rw [hlower] at htop
        exact .closing htop
      · have heq : slotCount (slotsNeeded p.body) = Step.fail .tooManyLocals := if_neg hn
        rw [heq] at h
        cases h
        exact .program (List.nil_append _).symm rfl
  · show p.GoesThrough name options (lowerProgram p (Session.start name options)).2
    rw [hr]
    obtain ⟨hn, σ, hl, rfl⟩ := lowerProgram_eq_ok.mp hr
    refine .program (List.append_nil _).symm ?_
    exact ⟨_, ⟨hn, rfl⟩, _, rfl, _, rfl, _, Lowers.stmts_iff.mpr ⟨hl, rfl⟩, _, rfl, _, rfl, rfl⟩

end Program

/-- The piece declares a subroutine. -/
def Piece.isSub : Piece → Bool
  | .stmt (.sub _ _) => true
  | _ => false

theorem Piece.ne_sub {p : Piece} (h : p.isSub = false) (head : SubHead) (body : List Stmt) :
    p ≠ .stmt (.sub head body) := by
  rintro rfl
  cases h

/-! ### Moves that have been made -/

/-- A move that has been made. -/
structure Made where
  /-- The piece whose template the move is of. -/
  piece : Piece
  /-- Where lowering the piece began. -/
  start : Session
  move : Move
  /-- The moves behind it in the template. -/
  rest : List Move
  /-- Where the move was made. -/
  spot : Session

/-- The instruction at `n` is of a subroutine that the move has lowered. -/
def Made.Nests (e : Made) (n : Nat) : Prop :=
  ∃ q b υ, q.isSub = true ∧ e.move = .piece q b ∧ Lowers q b e.spot υ ∧
    e.spot.draft.position ≤ n ∧ n < υ.draft.position

/-- Lowering `p`, which began in `σ₀`, goes on with the moves `ms` from `σ` as far as `τ`, and to their
end if `d` is true; these are the moves that it makes.  Subroutines are lowered in one move. -/
inductive Progress : Piece → Session → Bool → List Move → Session → List Made → Session → Prop where
  | stop {p : Piece} {ms : List Move} {σ₀ σ : Session} : Progress p σ₀ false ms σ [] σ
  | done {p : Piece} {σ₀ σ : Session} : Progress p σ₀ true [] σ [] σ
  | act {p : Piece} {d : Bool} {m : Move} {ms : List Move} {es : List Made} {σ₀ σ σ₁ τ : Session} :
      m.Does σ σ₁ → Progress p σ₀ d ms σ₁ es τ →
      Progress p σ₀ d (m :: ms) σ (⟨p, σ₀, m, ms, σ⟩ :: es) τ
  | sub {p q : Piece} {b d : Bool} {ms : List Move} {es : List Made} {σ₀ σ σ₁ τ : Session} :
      q.isSub = true → Lowers q b σ σ₁ → Progress p σ₀ d ms σ₁ es τ →
      Progress p σ₀ d (.piece q b :: ms) σ (⟨p, σ₀, .piece q b, ms, σ⟩ :: es) τ
  | piece {p q : Piece} {b d : Bool} {ms ns : List Move} {es es' : List Made}
      {σ₀ σ σ₁ τ : Session} : q.isSub = false → Unfolds q ns b → Progress q σ true ns σ es σ₁ →
      Progress p σ₀ d ms σ₁ es' τ → Progress p σ₀ d (.piece q b :: ms) σ (es ++ es') τ
  | inside {p q : Piece} {b : Bool} {ms ns : List Move} {es : List Made} {σ₀ σ τ : Session} :
      q.isSub = false → Unfolds q ns b → Progress q σ false ns σ es τ →
      Progress p σ₀ false (.piece q b :: ms) σ es τ

namespace Progress

variable {p : Piece} {b d : Bool} {ms : List Move} {es : List Made} {σ₀ σ τ : Session}

theorem follows (h : Progress p σ₀ true ms σ es τ) : Follows (fun _ => True) ms σ τ := by
  generalize hd : true = d at h
  induction h with
  | stop => cases hd
  | done => exact .nil
  | act hm _ ih => exact .act hm (ih hd)
  | sub _ hq _ ih =>
      obtain ⟨ns, hu, -, hf⟩ := hq.runs
      exact .piece hu trivial hf (ih hd)
  | piece _ hu _ _ ih₁ ih₂ => exact .piece hu trivial (ih₁ rfl) (ih₂ hd)
  | inside => cases hd

theorem grows (h : Progress p σ₀ d ms σ es τ) : σ.draft.Grows τ.draft := by
  induction h with
  | stop | done => exact .refl
  | act hm _ ih => exact hm.grows.trans ih
  | sub _ hq _ ih => exact hq.runs.grows.trans ih
  | piece _ _ _ _ ih₁ ih₂ => exact ih₁.trans ih₂
  | inside _ _ _ ih => exact ih

/-- Every instruction has been emitted by one of the moves, or is of a subroutine. -/
theorem covers {n : Nat} {i : Instruction} (h : Progress p σ₀ d ms σ es τ)
    (hle : σ.draft.position ≤ n) (hi : τ.draft.chunk.instructions[n]? = some i) :
    ∃ e ∈ es, e.Nests n ∨ e.spot.draft.position = n ∧
      (e.move = .emit i ∨ ∃ index, i = .loadConst index) := by
  have hlt : n < τ.draft.position := (Array.getElem?_eq_some_iff.mp hi).1
  induction h with
  | stop | done => omega
  | @act _ _ m _ _ _ σ σ₁ _ hm hrest ih =>
      rcases Nat.lt_or_ge n σ₁.draft.position with hn | hn
      · obtain rfl := hm.width_le hle hn
        rw [hrest.grows.instruction_eq hn] at hi
        refine ⟨_, List.mem_cons_self, .inr ⟨rfl, ?_⟩⟩
        rcases hm.emitted hi with rfl | ⟨-, index⟩
        · exact .inl rfl
        · exact .inr index
      · obtain ⟨e, he, hn⟩ := ih hn hi hlt
        exact ⟨e, List.mem_cons_of_mem _ he, hn⟩
  | @sub _ q b _ _ _ _ σ σ₁ _ hq hl _ ih =>
      rcases Nat.lt_or_ge n σ₁.draft.position with hn | hn
      · exact ⟨_, List.mem_cons_self, .inl ⟨q, b, σ₁, hq, rfl, hl, hle, hn⟩⟩
      · obtain ⟨e, he, hn⟩ := ih hn hi hlt
        exact ⟨e, List.mem_cons_of_mem _ he, hn⟩
  | @piece _ _ _ _ _ _ _ _ _ σ σ₁ _ _ _ h₁ h₂ ih₁ ih₂ =>
      rcases Nat.lt_or_ge n σ₁.draft.position with hn | hn
      · rw [h₂.grows.instruction_eq hn] at hi
        obtain ⟨e, he, hn⟩ := ih₁ hle hi hn
        exact ⟨e, List.mem_append_left _ he, hn⟩
      · obtain ⟨e, he, hn⟩ := ih₂ hn hi hlt
        exact ⟨e, List.mem_append_right _ he, hn⟩
  | inside _ _ _ ih => exact ih hle hi hlt

end Progress

/-- A piece that is lowered to its end is lowered by moves. -/
theorem Lowers.exists_progress {p : Piece} {b : Bool} {σ σ' : Session} (h : Lowers p b σ σ') :
    ∃ ms es, Unfolds p ms b ∧ Progress p σ true ms σ es σ' := by
  refine h.ind (P := fun p b σ σ' => ∃ ms es, Unfolds p ms b ∧ Progress p σ true ms σ es σ') ?_
  intro p b ms σ σ' hu ha
  suffices hall : ∀ {τ}, Along (fun p b σ σ' => Lowers p b σ σ' ∧ ∃ ms es, Unfolds p ms b ∧
      Progress p σ true ms σ es σ') ms τ σ' → ∃ es, Progress p σ true ms τ es σ' by
    obtain ⟨es, hes⟩ := hall ha
    exact ⟨ms, es, hu, hes⟩
  clear hu ha
  intro τ ha
  induction ms generalizing τ with
  | nil =>
      obtain rfl : τ = σ' := ha
      exact ⟨[], .done⟩
  | cons m ms ih =>
      obtain ⟨τ₁, hm, ha⟩ := ha
      obtain ⟨es, hes⟩ := ih ha
      rcases hm.does_or_piece with hm | ⟨q, c, rfl, hq, ns, fs, hu, hfs⟩
      · exact ⟨_, .act hm hes⟩
      · cases hsub : q.isSub with
        | true => exact ⟨_, .sub hsub hq hes⟩
        | false => exact ⟨_, .piece hsub hu hfs hes⟩

end StackScript
