import StackScript.Proofs.Bodies

/-!
# The routines of a program

The code of a program is that of its routines: its top level and its subroutines (`Routine`).
`Program.Body` says where the frame of a routine is opened when the program is compiled.

* `Program.exists_body`: every routine of a program that compiles, nested or not, has code.
* `Program.exists_body_of_opens`: every frame is opened for a routine of the program.
* `Program.exists_inBody`: every instruction is of the body of a routine.
-/

namespace StackScript

/-! ### Where an instruction comes from -/

/-- What is not so before moves and is behind them comes about by one of them. -/
theorem Along.exists_change {K : Piece → Bool → Session → Session → Prop} {ms : List Move}
    {A : Session → Prop} {σ σ' : Session} (h : Along K ms σ σ') (hσ : ¬ A σ) (hσ' : A σ') :
    ∃ ms₁ m ms₂ τ τ', ms = ms₁ ++ m :: ms₂ ∧ Along K ms₁ σ τ ∧ m.Acts K τ τ' ∧ Along K ms₂ τ' σ' ∧
      ¬ A τ ∧ A τ' := by
  induction ms generalizing σ with
  | nil =>
      obtain rfl : σ = σ' := h
      exact absurd hσ' hσ
  | cons m ms ih =>
      obtain ⟨σ₁, hm, h⟩ := h
      by_cases h₁ : A σ₁
      · exact ⟨[], m, ms, σ, σ₁, rfl, rfl, hm, h, hσ, h₁⟩
      · obtain ⟨ms₁, m', ms₂, τ, τ', rfl, h₂, hm', h₃, hA⟩ := ih h h₁
        exact ⟨m :: ms₁, m', ms₂, τ, τ', rfl, ⟨σ₁, hm, h₂⟩, hm', h₃, hA⟩

/-- An instruction emitted on the way is emitted by one of the moves. -/
theorem Along.exists_move {K : Piece → Bool → Session → Session → Prop} {ms : List Move}
    {σ σ' : Session} {n : Nat} (h : Along K ms σ σ') (hle : σ.draft.position ≤ n)
    (hlt : n < σ'.draft.position) :
    ∃ ms₁ m ms₂ τ τ', ms = ms₁ ++ m :: ms₂ ∧ Along K ms₁ σ τ ∧ m.Acts K τ τ' ∧ Along K ms₂ τ' σ' ∧
      τ.draft.position ≤ n ∧ n < τ'.draft.position := by
  obtain ⟨ms₁, m, ms₂, τ, τ', hms, h₁, hm, h₂, hτ, hτ'⟩ :=
    h.exists_change (A := fun σ => n < σ.draft.position) (Nat.not_lt.mpr hle) hlt
  exact ⟨ms₁, m, ms₂, τ, τ', hms, h₁, hm, h₂, Nat.not_lt.mp hτ, hτ'⟩

/-- If only one member of a list has a property, the list is split there in one way. -/
theorem split_unique {α : Type} {P : α → Bool} {A B C D : List α} {m n : α}
    (h : A ++ m :: B = C ++ n :: D) (hm : P m = true) (hA : C.all (!P ·) = true)
    (hB : D.all (!P ·) = true) : A = C ∧ m = n ∧ B = D := by
  simp only [List.all_eq_true, Bool.not_eq_true'] at hA hB
  rcases List.append_eq_append_iff.mp h with ⟨l, rfl, hl⟩ | ⟨l, rfl, hl⟩
  · cases l with
    | nil => simp_all
    | cons x l =>
        obtain ⟨rfl, -⟩ := List.cons.inj hl
        have := hA m (by simp)
        rw [hm] at this
        cases this
  · cases l with
    | nil => simp_all
    | cons x l =>
        obtain ⟨rfl, rfl⟩ := List.cons.inj hl
        have := hB m (by simp)
        rw [hm] at this
        cases this

/-- A move emits one instruction at most. -/
theorem Move.Does.width_le {m : Move} {σ σ' : Session} {n : Nat} (h : m.Does σ σ')
    (hle : σ.draft.position ≤ n) (hlt : n < σ'.draft.position) : n = σ.draft.position := by
  have hpos := h.position
  have hwidth : m.width ≤ 1 := by cases m <;> simp [Move.width]
  omega

namespace Chunk

/-- A frame that is opened stands in the code. -/
theorem lt_size_of_opens {c : Chunk} {t : Nat} (h : c.opens t = true) : t < c.size := by
  unfold opens at h
  cases hi : c.instructions[t]? with
  | none => simp [hi] at h
  | some i => exact (Array.getElem?_eq_some_iff.mp hi).1

/-- If a frame is opened at the start, every offset is of a body: of those around it that begin
last. -/
theorem exists_inBody {c : Chunk} {n : Nat} (h : c.opens 0 = true) (hn : n < c.size) :
    ∃ t, c.InBody t n := by
  have hlast : ∀ m, m ≤ n → ∃ t, c.opens t = true ∧ t ≤ m ∧ n < c.bodyEnd t ∧
      ∀ t', c.opens t' = true → t < t' → t' ≤ m → c.bodyEnd t' ≤ n := by
    intro m
    induction m with
    | zero => exact fun _ => ⟨0, h, Nat.le_refl _, hn, fun t' _ h₁ h₂ => by omega⟩
    | succ m ih =>
        intro hm
        by_cases hlast : c.opens (m + 1) = true ∧ n < c.bodyEnd (m + 1)
        · exact ⟨m + 1, hlast.1, Nat.le_refl _, hlast.2, fun t' _ h₁ h₂ => by omega⟩
        · obtain ⟨t, ho, hle, hlt, hin⟩ := ih (by omega)
          refine ⟨t, ho, by omega, hlt, fun t' ho' h₁ h₂ => ?_⟩
          rcases Nat.eq_or_lt_of_le h₂ with rfl | h₂
          · exact Nat.le_of_not_lt fun hlt' => hlast ⟨ho', hlt'⟩
          · exact hin t' ho' h₁ (by omega)
  obtain ⟨t, ho, hle, hlt, hin⟩ := hlast n (Nat.le_refl n)
  exact ⟨t, ho, hle, hlt, hin⟩

end Chunk

/-! ### Pieces that are visited -/

/-- Induction over a lowering: what holds of a piece if it holds of those on a line of the table holds of
every piece. -/
theorem Lowers.ind {P : Piece → Bool → Session → Session → Prop} {p : Piece} {b : Bool}
    {σ σ' : Session}
    (step : ∀ {p b ms σ σ'}, Unfolds p ms b →
      Along (fun p b σ σ' => Lowers p b σ σ' ∧ P p b σ σ') ms σ σ' → P p b σ σ')
    (h : Lowers p b σ σ') : P p b σ σ' :=
  ind_of_unfolds (K := Lowers) (Q := fun _ => True)
    (fun h => by
      obtain ⟨ms, hu, ha⟩ := h.unfolds
      exact ⟨ms, hu, trivial, ha⟩)
    (fun hu _ ha => step hu ha) h

/-- What is visited on the way of a piece that is visited is visited. -/
theorem Visits.trans {p q r : Piece} {b c e : Bool} {σ σ' τ τ' υ υ' : Session}
    (h₁ : Visits p b σ σ' q c τ τ') (h₂ : Visits q c τ τ' r e υ υ') :
    Visits p b σ σ' r e υ υ' := by
  induction h₂ with
  | self => exact h₁
  | part _ hp ih => exact .part ih hp

/-- One session comes before another in a lowering. -/
structure Session.Before (σ σ' : Session) : Prop where
  grows : σ.draft.Grows σ'.draft
  count : σ.report.count ≤ σ'.report.count
  uses : ∀ {c}, c ∈ σ.uses → c ∈ σ'.uses

theorem Session.Before.refl {σ : Session} : σ.Before σ := ⟨.refl, Nat.le_refl _, id⟩

theorem Session.Before.trans {σ₁ σ₂ σ₃ : Session} (h₁ : σ₁.Before σ₂) (h₂ : σ₂.Before σ₃) :
    σ₁.Before σ₃ :=
  ⟨h₁.grows.trans h₂.grows, Nat.le_trans h₁.count h₂.count, fun h => h₂.uses (h₁.uses h)⟩

/-- If no error has been reported in the end then none had been before. -/
theorem Session.Before.count_eq_zero {σ σ' : Session} (h : σ.Before σ') (hc : σ'.report.count = 0) :
    σ.report.count = 0 :=
  Nat.le_zero.mp (hc ▸ h.count)

/-- A move comes after what was before it. -/
theorem Move.Does.before {m : Move} {σ σ' : Session} (h : m.Does σ σ') : σ.Before σ' := by
  refine ⟨h.grows, h.count_le, fun {c} hc => ?_⟩
  cases m with
  | use name span resolved =>
      obtain rfl := acts_use.mp h
      exact Array.mem_push.mpr (.inl hc)
  | piece p b => exact h.elim
  | _ => rwa [h.spares.uses (by simp)]

/-- A piece is lowered from before to after. -/
theorem Lowers.before {p : Piece} {b : Bool} {σ σ' : Session} (h : Lowers p b σ σ') :
    σ.Before σ' :=
  h.runs.rel (R := Session.Before) .refl .trans Move.Does.before

theorem Along.before {ms : List Move} {σ σ' : Session} (h : Along Lowers ms σ σ') : σ.Before σ' :=
  h.rel (R := Session.Before) .refl .trans Move.Does.before Lowers.before

/-- A piece that is visited is lowered within the lowering that visits it. -/
theorem Visits.within {p q : Piece} {b c : Bool} {σ σ' τ τ' : Session}
    (h : Visits p b σ σ' q c τ τ') (hp : Lowers p b σ σ') :
    Lowers q c τ τ' ∧ σ.Before τ ∧ τ'.Before σ' := by
  induction h with
  | self => exact ⟨hp, .refl, .refl⟩
  | part _ hpart ih =>
      obtain ⟨-, hbefore, hbehind⟩ := ih
      obtain ⟨ms, ns, -, h₁, hq, h₂⟩ := hpart
      exact ⟨hq, hbefore.trans h₁.before, h₂.before.trans hbehind⟩

/-! ### Frames are opened for subroutines -/

/-- A piece among the moves is lowered somewhere along them. -/
theorem Along.exists_piece {K : Piece → Bool → Session → Session → Prop} {ms : List Move}
    {q : Piece} {σ σ' : Session} (h : Along K ms σ σ') (hq : q ∈ Move.pieces ms) :
    ∃ ms₁ c ms₂ τ τ', ms = ms₁ ++ .piece q c :: ms₂ ∧ Along K ms₁ σ τ ∧ K q c τ τ' ∧
      Along K ms₂ τ' σ' := by
  induction ms generalizing σ with
  | nil => simp [Move.pieces] at hq
  | cons m ms ih =>
      obtain ⟨σ₁, hm, h⟩ := h
      have hrest (hq : q ∈ Move.pieces ms) : ∃ ms₁ c ms₂ τ τ', m :: ms = ms₁ ++ .piece q c :: ms₂ ∧
          Along K ms₁ σ τ ∧ K q c τ τ' ∧ Along K ms₂ τ' σ' := by
        obtain ⟨ms₁, c, ms₂, τ, τ', rfl, h₁, hp, h₂⟩ := ih h hq
        exact ⟨m :: ms₁, c, ms₂, τ, τ', rfl, ⟨σ₁, hm, h₁⟩, hp, h₂⟩
      cases m with
      | piece p c =>
          rcases List.mem_cons.mp (by simpa [Move.pieces] using hq) with rfl | hq
          · exact ⟨[], c, ms, σ, σ₁, rfl, rfl, hm, h⟩
          · exact hrest hq
      | _ => exact hrest hq

/-- Before the frame of a subroutine comes the jump over its code. -/
theorem Unfolds.before_frame {head : SubHead} {body : List Stmt} {ms ms₁ ms₂ : List Move} {m : Move}
    {b : Bool} (h : Unfolds (.stmt (.sub head body)) ms b) (hms : ms = ms₁ ++ m :: ms₂)
    (hm : m.opensFrame = true) : Move.pieces ms₁ = [] ∧ (ms₁.map Move.width).sum = 1 := by
  have hmem : m ∈ ms := by simp [hms]
  cases h with
  | subParameter _ =>
      obtain rfl : m = .report _ _ := by simpa using hmem
      cases hm
  | subRedeclared _ _ =>
      rcases List.mem_cons.mp hmem with rfl | hmem
      · cases hm
      · obtain rfl : m = .report _ _ := by simpa using hmem
        cases hm
  | @sub _ _ _ _ _ slot _ _ _ _ hclose =>
      simp only [List.append_assoc] at hms
      have hrest := hclose.frameless
      obtain ⟨rfl, -, -⟩ := split_unique (C := [_, _, _, _, _, _, _, _]) hms.symm hm rfl (by
        cases mentionsArgList body <;> simpa [Move.argListSlot, Move.opensFrame] using hrest)
      exact ⟨rfl, rfl⟩

/-- Lowering `p` from `σ` to `σ'` makes the move `m`, which lowers no piece, from `τ` to `τ'`. -/
def Makes (p : Piece) (b : Bool) (σ σ' : Session) (m : Move) (τ τ' : Session) : Prop :=
  ∃ ms ns, Unfolds p (ms ++ m :: ns) b ∧ Along Lowers ms σ τ ∧ m.Does τ τ' ∧ Along Lowers ns τ' σ'

/-- A move that a piece makes lies within its lowering. -/
theorem Makes.before {p : Piece} {b : Bool} {m : Move} {σ σ' τ τ' : Session}
    (h : Makes p b σ σ' m τ τ') : σ.Before τ ∧ τ'.Before σ' := by
  obtain ⟨ms, ns, -, h₁, -, h₂⟩ := h
  exact ⟨h₁.before, h₂.before⟩

/-- **What comes about while a piece is lowered comes about by a move that one of the pieces visited
on the way makes.** -/
theorem Lowers.exists_change {A : Session → Prop} {p : Piece} {b : Bool} {σ σ' : Session}
    (h : Lowers p b σ σ') (hσ : ¬ A σ) (hσ' : A σ') :
    ∃ q e τ τ' m υ υ', Visits p b σ σ' q e τ τ' ∧ Makes q e τ τ' m υ υ' ∧ ¬ A υ ∧ A υ' := by
  refine h.ind (P := fun p b σ σ' => ¬ A σ → A σ' → ∃ q e τ τ' m υ υ',
    Visits p b σ σ' q e τ τ' ∧ Makes q e τ τ' m υ υ' ∧ ¬ A υ ∧ A υ') ?_ hσ hσ'
  intro p b ms σ σ' hu ha hσ hσ'
  obtain ⟨ms₁, m, ms₂, τ, τ', rfl, h₁, hm, h₂, hτ, hτ'⟩ := ha.exists_change hσ hσ'
  have l₁ := h₁.mono And.left
  have l₂ := h₂.mono And.left
  rcases hm.does_or_piece with hdoes | ⟨q, e, rfl, hq, hP⟩
  · exact ⟨p, b, σ, σ', m, τ, τ', .self, ⟨ms₁, ms₂, hu, l₁, hdoes, l₂⟩, hτ, hτ'⟩
  · obtain ⟨r, f, ρ, ρ', m, υ, υ', hv, hmakes⟩ := hP hτ hτ'
    exact ⟨r, f, ρ, ρ', m, υ, υ', .trans (.part .self ⟨ms₁, ms₂, hu, l₁, hq, l₂⟩) hv, hmakes⟩

/-- Every instruction emitted while a piece is lowered is emitted by such a move. -/
theorem Lowers.exists_emitter {p : Piece} {b : Bool} {σ σ' : Session} {n : Nat}
    (h : Lowers p b σ σ') (hle : σ.draft.position ≤ n) (hlt : n < σ'.draft.position) :
    ∃ q e τ τ' m υ υ', Visits p b σ σ' q e τ τ' ∧ Makes q e τ τ' m υ υ' ∧
      n = υ.draft.position ∧ n < υ'.draft.position := by
  obtain ⟨q, e, τ, τ', m, υ, υ', hv, hmakes, hυ, hυ'⟩ :=
    h.exists_change (A := fun σ => n < σ.draft.position) (Nat.not_lt.mpr hle) hlt
  obtain ⟨-, -, -, -, hdoes, -⟩ := id hmakes
  exact ⟨q, e, τ, τ', m, υ, υ', hv, hmakes, hdoes.width_le (Nat.not_lt.mp hυ) hυ', hυ'⟩

/-- Every frame opened while a piece is lowered is that of a subroutine visited on the way. -/
theorem Lowers.visits_of_opens {p : Piece} {b : Bool} {σ σ' : Session} {d : Draft} {c : Chunk}
    {t : Nat} (h : Lowers p b σ σ') (hd : σ'.draft.Grows d) (hc : d.finish = .ok c)
    (ho : c.opens t = true) (hle : σ.draft.position ≤ t) (hlt : t < σ'.draft.position) :
    ∃ head body e τ τ', Visits p b σ σ' (.stmt (.sub head body)) e τ τ' ∧
      t = τ.draft.position + 1 := by
  obtain ⟨q, e, τ, τ', m, υ, υ', hv, hmakes, rfl, hlt⟩ := h.exists_emitter hle hlt
  have hgrow : υ'.draft.Grows d := hmakes.before.2.grows.trans ((hv.within h).2.2.grows.trans hd)
  obtain ⟨ms, ns, hu, h₁, hdoes, -⟩ := hmakes
  cases hframe : m.opensFrame with
  | false =>
      rw [(hdoes.closed hframe hgrow hc).first hlt] at ho
      cases ho
  | true =>
      rcases q.other_or_sub with hq | ⟨head, body, rfl⟩
      · have := hu.frameless hq
        simp [hframe] at this
      · obtain ⟨hpieces, hwidth⟩ := hu.before_frame rfl hframe
        exact ⟨head, body, e, τ, τ', hv, by rw [h₁.position hpieces, hwidth]⟩

/-! ### The subroutines of a tree -/

/-- The top level of a program, or one of its subroutines. -/
structure Routine where
  /-- Missing for the top level. -/
  head : Option SubHead
  body : List Stmt

namespace Stmt

mutual

/-- The subroutines that a statement declares, those inside others included. -/
def subs : Stmt → List Routine
  | .sub head body => ⟨some head, body⟩ :: allSubs body
  | .block body | .whileLoop _ body | .forEach _ _ body | .loop _ _ _ body | .package _ _ body =>
    allSubs body
  | .cond _ body elsifs otherwise =>
    allSubs body ++ branchesSubs elsifs ++
      match otherwise with
      | none => []
      | some body => allSubs body
  | .expr _ | .ret _ _ | .use _ => []

/-- The subroutines that a list of statements declares. -/
def allSubs : List Stmt → List Routine
  | [] => []
  | s :: rest => s.subs ++ allSubs rest

/-- The subroutines that the bodies of the branches declare. -/
def branchesSubs : List (Expr × List Stmt) → List Routine
  | [] => []
  | (_, body) :: rest => allSubs body ++ branchesSubs rest

end

end Stmt

/-- The top level of a program and all its subroutines. -/
def Program.routines (p : Program) : List Routine := ⟨none, p.body⟩ :: Stmt.allSubs p.body

/-- The subroutines that are declared in a piece. -/
def Piece.subs : Piece → List Routine
  | .stmt s => s.subs
  | .stmts ss | .body _ ss => Stmt.allSubs ss
  | .branches _ elsifs => Stmt.branchesSubs elsifs
  | .expr _ | .each _ | .backward _ | .args _ _ => []

/-- The subroutines in a piece are those in the pieces of its template. -/
theorem Unfolds.subs {p : Piece} {ms : List Move} {b : Bool} (h : Unfolds p ms b)
    (hp : ∀ head body, p ≠ .stmt (.sub head body)) :
    p.subs = (Move.pieces ms).flatMap Piece.subs := by
  cases h with
  | sub | subParameter | subRedeclared => exact absurd rfl (hp _ _)
  | assignVar hc | assignVarMismatch hc | assignDeclare hc | assignDeclareMismatch hc | argsHeld hc
  | ret hc | bodyExpr hc =>
      simp [Move.pieces, Move.op, hc.pieces, Piece.subs, Stmt.subs, Stmt.allSubs]
  | retUndef h => simp [h.pieces, Piece.subs, Stmt.subs]
  | @cond _ _ _ rest =>
      cases rest <;> simp [Move.pieces, Move.block, Piece.subs, Stmt.subs]
  | @loop init condition step =>
      cases init <;> cases condition <;> cases step <;>
        simp [Move.pieces, Move.block, Piece.subs, Stmt.subs]
  | _ =>
      simp [Move.pieces, Move.op, Move.block, Move.increment, Piece.subs, Stmt.subs, Stmt.allSubs,
        Stmt.branchesSubs]

/-- Moves that have found nothing wrong are quiet, and so are the runs of the pieces on the way. -/
theorem Along.quiet_runs {ms : List Move} {σ σ' : Session} (h : Along Lowers ms σ σ')
    (hc : σ'.report.count = σ.report.count) : Quiet ms ∧ Along (Runs Quiet) ms σ σ' :=
  h.quiet (fun h => h.before.count) (fun h => h.runs.count_lt) (fun h hc => h.runs.quiet hc) hc

/-- Where no diagnostic has been found at the end, none was found on the way. -/
theorem Along.quiet_of_lowers {ms : List Move} {σ σ' : Session} (h : Along Lowers ms σ σ')
    (hc : σ'.report.count = 0) : Quiet ms := by
  have hle := h.before.count
  exact (h.quiet_runs (by omega)).1

theorem Along.runs_quiet {ms : List Move} {σ σ' : Session} (h : Along Lowers ms σ σ')
    (hc : σ'.report.count = 0) : Along (Runs Quiet) ms σ σ' := by
  have hle := h.before.count
  exact (h.quiet_runs (by omega)).2

/-- Where no diagnostic has been found at the end of a template, it is quiet, and so are the runs in front
of one of its pieces, of the piece and behind it. -/
theorem Lowers.quiet_around {ms ns : List Move} {q : Piece} {c : Bool} {σ σ' τ τ' : Session}
    (h : Lowers q c τ τ') (h₁ : Along Lowers ms σ τ) (h₂ : Along Lowers ns τ' σ')
    (hc : σ'.report.count = 0) :
    Quiet (ms ++ .piece q c :: ns) ∧ Along (Runs Quiet) ms σ τ ∧ Runs Quiet q c τ τ' ∧
      Along (Runs Quiet) ns τ' σ' := by
  have hall : Along Lowers (ms ++ .piece q c :: ns) σ σ' := along_append.mpr ⟨τ, h₁, τ', h, h₂⟩
  have hτ' : τ'.report.count = 0 := h₂.before.count_eq_zero hc
  have hτ : τ.report.count = 0 := h.before.count_eq_zero hτ'
  exact ⟨hall.quiet_of_lowers hc, h₁.runs_quiet hτ, h.quiet hτ', h₂.runs_quiet hc⟩

/-- A declaration that is not reported lowers the body, and nothing else. -/
theorem Unfolds.sub_pieces {head : SubHead} {body : List Stmt} {ms : List Move} {b : Bool}
    (h : Unfolds (.stmt (.sub head body)) ms b) (hq : Quiet ms) :
    Move.pieces ms = [.body head.returnType body] := by
  cases h with
  | subParameter _ => simp [Quiet, Move.quiet] at hq
  | subRedeclared _ _ => simp [Quiet, Move.quiet] at hq
  | sub _ _ hclose => simp [Move.pieces, hclose.pieces]

/-- Every subroutine in a piece is visited. -/
theorem Lowers.visits_of_mem_subs {p : Piece} {b : Bool} {σ σ' : Session} {r : Routine}
    (h : Lowers p b σ σ') (hc : σ'.report.count = 0) (hr : r ∈ p.subs) :
    ∃ head e τ τ', r.head = some head ∧
      Visits p b σ σ' (.stmt (.sub head r.body)) e τ τ' := by
  refine h.ind (P := fun p b σ σ' => σ'.report.count = 0 → r ∈ p.subs → ∃ head e τ τ',
    r.head = some head ∧ Visits p b σ σ' (.stmt (.sub head r.body)) e τ τ') ?_ hc hr
  intro p b ms σ σ' hu ha hc hr
  -- It is in one of the pieces of the template, unless the piece is the subroutine itself.
  have hpiece {q : Piece} (hq : q ∈ Move.pieces ms) (hr : r ∈ q.subs) : ∃ head e τ τ',
      r.head = some head ∧ Visits p b σ σ' (.stmt (.sub head r.body)) e τ τ' := by
    obtain ⟨ms₁, c, ms₂, τ, τ', rfl, h₁, ⟨hl, hP⟩, h₂⟩ := ha.exists_piece hq
    have h₂ := h₂.mono And.left
    obtain ⟨head, e, υ, υ', hhead, hv⟩ := hP (by have := h₂.before.count; omega) hr
    exact ⟨head, e, υ, υ', hhead,
      .trans (.part .self ⟨ms₁, ms₂, hu, h₁.mono And.left, hl, h₂⟩) hv⟩
  rcases p.other_or_sub with hp | ⟨head, body, rfl⟩
  · rw [hu.subs hp] at hr
    obtain ⟨q, hq, hr⟩ := List.mem_flatMap.mp hr
    exact hpiece hq hr
  · rcases List.mem_cons.mp (by simpa only [Piece.subs, Stmt.subs] using hr) with rfl | hr
    · exact ⟨head, b, σ, σ', rfl, .self⟩
    · have hpieces := hu.sub_pieces ((ha.mono And.left).quiet_of_lowers hc)
      exact hpiece (q := .body head.returnType body) (by simp [hpieces]) hr

/-- What is lowered as part of a subroutine is its body. -/
theorem Part.subRun {head : SubHead} {body : List Stmt} {b c : Bool} {σ σ' τ τ' : Session}
    {q : Piece} (h : Part (.stmt (.sub head body)) b σ σ' q c τ τ') (hc : σ'.report.count = 0) :
    q = .body head.returnType body ∧
      SubRun (fun q e υ υ' => Runs Quiet q e υ υ' ∧ υ = τ ∧ υ' = τ') head body σ σ' := by
  obtain ⟨ms, ns, hu, h₁, hq, h₂⟩ := h
  obtain ⟨hquiet, -, hrun, -⟩ := hq.quiet_around h₁ h₂ hc
  have hpieces := hu.sub_pieces hquiet
  obtain ⟨hms, rfl, hns⟩ : Move.pieces ms = [] ∧ q = .body head.returnType body ∧
      Move.pieces ns = [] := by
    rw [Move.pieces_append] at hpieces
    cases hm : Move.pieces ms with
    | nil => simpa [hm, Move.pieces] using hpieces
    | cons r rs => simp [hm, Move.pieces] at hpieces
  exact ⟨rfl, hu.subRun hquiet (along_append.mpr ⟨τ, (h₁.does hms).mono False.elim, τ',
    ⟨hrun, rfl, rfl⟩, (h₂.does hns).mono False.elim⟩)⟩

/-! ### Before the statements are lowered -/

namespace Session

mutual

/-- What making one subroutine known and entering one package keep to, making all the subroutines of
a program known keeps to. -/
theorem declareStmt_rel {R : Session → Session → Prop} (refl : ∀ {s}, R s s)
    (trans : ∀ {s₁ s₂ s₃}, R s₁ s₂ → R s₂ s₃ → R s₁ s₃)
    (sub : ∀ {s id head body}, R s (s.declareSub id head body))
    (enter : ∀ {s : Session} {id name kind},
      R s { s with packages := (s.packages.enter id name kind).2 })
    (stmt : Stmt) (s : Session) (id : PackageId) : R s (s.declareStmt id stmt) := by
  cases stmt with
  | sub head body => exact trans sub (declareStmts_rel refl trans sub enter body _ _)
  | package kind name body => exact trans enter (declareStmts_rel refl trans sub enter body _ _)
  | block body | whileLoop _ body | forEach _ _ body | loop _ _ _ body =>
      exact declareStmts_rel refl trans sub enter body _ _
  | cond _ body elsifs rest =>
      have h := trans (declareStmts_rel refl trans sub enter body s id)
        (declareBranches_rel refl trans sub enter elsifs _ id)
      cases rest with
      | none => exact h
      | some body => exact trans h (declareStmts_rel refl trans sub enter body _ _)
  | expr | ret | use => exact refl

/-- A list of statements, one after the other. -/
theorem declareStmts_rel {R : Session → Session → Prop} (refl : ∀ {s}, R s s)
    (trans : ∀ {s₁ s₂ s₃}, R s₁ s₂ → R s₂ s₃ → R s₁ s₃)
    (sub : ∀ {s id head body}, R s (s.declareSub id head body))
    (enter : ∀ {s : Session} {id name kind},
      R s { s with packages := (s.packages.enter id name kind).2 })
    (body : List Stmt) (s : Session) (id : PackageId) : R s (s.declareStmts id body) := by
  cases body with
  | nil => exact refl
  | cons stmt rest =>
      exact trans (declareStmt_rel refl trans sub enter stmt s id)
        (declareStmts_rel refl trans sub enter rest _ id)

theorem declareBranches_rel {R : Session → Session → Prop} (refl : ∀ {s}, R s s)
    (trans : ∀ {s₁ s₂ s₃}, R s₁ s₂ → R s₂ s₃ → R s₁ s₃)
    (sub : ∀ {s id head body}, R s (s.declareSub id head body))
    (enter : ∀ {s : Session} {id name kind},
      R s { s with packages := (s.packages.enter id name kind).2 })
    (elsifs : List (Expr × List Stmt)) (s : Session) (id : PackageId) :
    R s (s.declareBranches id elsifs) := by
  cases elsifs with
  | nil => exact refl
  | cons branch rest =>
      exact trans (declareStmts_rel refl trans sub enter branch.2 s id)
        (declareBranches_rel refl trans sub enter rest _ id)

end

/-- Making subroutines known changes the packages and the labels only. -/
structure Knows (s s' : Session) : Prop where
  code : s'.draft.chunk = s.draft.chunk
  scopes : s'.scopes = s.scopes
  interface : s'.interface = s.interface
  uses : s'.uses = s.uses
  report : s'.report = s.report

theorem Knows.refl {s : Session} : s.Knows s := ⟨rfl, rfl, rfl, rfl, rfl⟩

theorem Knows.trans {s₁ s₂ s₃ : Session} (h₁ : s₁.Knows s₂) (h₂ : s₂.Knows s₃) : s₁.Knows s₃ :=
  ⟨h₂.code.trans h₁.code, h₂.scopes.trans h₁.scopes, h₂.interface.trans h₁.interface,
    h₂.uses.trans h₁.uses, h₂.report.trans h₁.report⟩

/-- A subroutine that is made known changes the packages and the labels only. -/
theorem declareSub_knows {s : Session} {id : PackageId} {head : SubHead} {body : List Stmt} :
    s.Knows (s.declareSub id head body) := by
  have hcode : (s.packages.mention id head.name s.draft).2.2.chunk = s.draft.chunk := by
    unfold PackageTree.mention
    split <;> rfl
  unfold declareSub
  simp only
  split
  · exact ⟨hcode, rfl, rfl, rfl, rfl⟩
  · split
    · exact ⟨hcode, rfl, rfl, rfl, rfl⟩
    · exact ⟨hcode, rfl, rfl, rfl, rfl⟩

/-- Looking through declarations changes the packages and the labels only. -/
theorem declareStmts_knows {body : List Stmt} {s : Session} {id : PackageId} :
    s.Knows (s.declareStmts id body) :=
  declareStmts_rel .refl .trans declareSub_knows ⟨rfl, rfl, rfl, rfl, rfl⟩ body s id

end Session

/-! ### Bodies of a program -/

namespace Program

variable {p : Program} {name : String} {options : CompileOptions}

/-- Before the statements of a program there is one instruction, its frame. -/
theorem entry_position : (p.entry name options).draft.position = 1 := by
  have h : ((Session.start name options).declareStmts PackageTree.root p.body).draft.chunk = {} :=
    Session.declareStmts_knows.code
  simp [entry, Draft.position, Draft.emit, Chunk.emit, Chunk.size, h]

/-- The statements of a program that compiles are lowered, and finished as its unit. -/
theorem lowers_of_compile {u : CompiledUnit} (h : compile name options p = .ok u) :
    ∃ σ, Lowers (.stmts p.body) true (p.entry name options) σ ∧ σ.report.count = 0 ∧
      σ.halted.draft.finish = .ok u.chunk := by
  obtain ⟨-, σ, hl, hfin⟩ := compile_eq_ok.mp h
  obtain ⟨hcount, hchunk, -⟩ := Session.finish_eq_ok hfin
  exact ⟨σ, hl, hcount, hchunk⟩

/-- The tables of a unit are those behind the statements of its program. -/
theorem tables_of_compile {u : CompiledUnit} (h : compile name options p = .ok u) :
    ∃ σ, Lowers (.stmts p.body) true (p.entry name options) σ ∧ σ.report.count = 0 ∧
      u.uses = σ.uses ∧ σ.halted.entryPoints = .ok u.subroutines ∧ u.interface = σ.interface := by
  obtain ⟨-, σ, hl, hfin⟩ := compile_eq_ok.mp h
  obtain ⟨hcount, -, huses, htable, hinterface⟩ := Session.finish_eq_ok hfin
  exact ⟨σ, hl, hcount, huses, htable, hinterface⟩

/-- A piece of a program is lowered between its beginning and its end. -/
theorem Lowered.within {q : Piece} {c : Bool} {σ τ τ' : Session}
    (h : p.Lowered name options q c τ τ')
    (hl : Lowers (.stmts p.body) true (p.entry name options) σ) :
    Lowers q c τ τ' ∧ (p.entry name options).Before τ ∧ τ'.Before σ := by
  obtain ⟨σ', hl', hv⟩ := h
  obtain rfl : σ = σ' := (Prod.mk.inj (Eq.trans hl.symm hl')).2
  exact hv.within hl

/-- What is visited on the way of a piece of a program is a piece of the program. -/
theorem Lowered.trans {q r : Piece} {b e : Bool} {τ τ' υ υ' : Session}
    (h : p.Lowered name options q b τ τ') (hv : Visits q b τ τ' r e υ υ') :
    p.Lowered name options r e υ υ' := by
  obtain ⟨σ, hl, hq⟩ := h
  exact ⟨σ, hl, hq.trans hv⟩

/-- The code begins with the frame of the top level. -/
theorem entry_frame {u : CompiledUnit} (h : compile name options p = .ok u) :
    u.chunk.instructions[0]? = some (.pushFrame 0 (slotsNeeded p.body).toUInt16) := by
  obtain ⟨σ, hl, -, hfin⟩ := lowers_of_compile h
  have hfirst : (p.entry name options).draft.chunk.instructions[0]? =
      some (.pushFrame 0 (slotsNeeded p.body).toUInt16) := by
    have h : ((Session.start name options).declareStmts PackageTree.root p.body).draft.chunk = {} :=
      Session.declareStmts_knows.code
    simp [entry, Draft.emit, Chunk.emit, h]
  have hgrow : σ.draft.Grows σ.halted.draft := .emit
  obtain ⟨j, hj, hr⟩ := (Draft.finish_eq_ok hfin).2.2
    ((hl.before.grows.trans hgrow).instruction hfirst)
  obtain rfl : Instruction.pushFrame 0 (slotsNeeded p.body).toUInt16 = j := Except.ok.inj hr
  exact hj

/-- A frame is opened at the start of the code. -/
theorem entry_opens {u : CompiledUnit} (h : compile name options p = .ok u) :
    u.chunk.opens 0 = true := by
  simp [Chunk.opens, entry_frame h, Instruction.pushFrame]

/-- Compiling the program emits the code of the routine: its frame is opened at `t`, and when its
statements have been lowered the session is `σ`. -/
inductive Body (p : Program) (name : String) (options : CompileOptions) :
    Routine → Nat → Session → Prop where
  | top {σ : Session} : Lowers (.stmts p.body) true (p.entry name options) σ →
      Body p name options ⟨none, p.body⟩ 0 σ
  | sub {head : SubHead} {body : List Stmt} {b c : Bool} {τ τ' υ υ' : Session} :
      p.Lowered name options (.stmt (.sub head body)) b τ τ' →
      Part (.stmt (.sub head body)) b τ τ' (.body head.returnType body) c υ υ' →
      Body p name options ⟨some head, body⟩ (τ.draft.position + 1) υ'

/-- A subroutine that is visited has a body, and its frame is behind the jump over it. -/
theorem Body.of_visits {head : SubHead} {body : List Stmt} {b : Bool} {σ τ τ' : Session}
    (hl : Lowers (.stmts p.body) true (p.entry name options) σ) (hc : σ.report.count = 0)
    (h : Visits (.stmts p.body) true (p.entry name options) σ (.stmt (.sub head body)) b τ τ') :
    ∃ υ', p.Body name options ⟨some head, body⟩ (τ.draft.position + 1) υ' := by
  obtain ⟨hsub, -, hbehind⟩ := h.within hl
  have hcount : τ'.report.count = 0 := by
    have := hbehind.count
    omega
  obtain ⟨ms, hu, ha⟩ := hsub.unfolds
  obtain ⟨ms₁, c, ms₂, υ, υ', rfl, h₁, hq, h₂⟩ := ha.exists_piece
    (q := .body head.returnType body) (by simp [hu.sub_pieces (ha.quiet_of_lowers hcount)])
  exact ⟨υ', .sub ⟨σ, hl, h⟩ ⟨ms₁, ms₂, hu, h₁, hq, h₂⟩⟩

/-- **Every routine of a program that compiles has code.** -/
theorem exists_body {u : CompiledUnit} {r : Routine} (h : compile name options p = .ok u)
    (hr : r ∈ p.routines) : ∃ t σ, p.Body name options r t σ := by
  obtain ⟨σ, hl, hc, -⟩ := lowers_of_compile h
  rcases List.mem_cons.mp hr with rfl | hr
  · exact ⟨0, σ, .top hl⟩
  · obtain ⟨head, e, τ, τ', hhead, hv⟩ := hl.visits_of_mem_subs hc hr
    obtain ⟨υ', hb⟩ := Body.of_visits hl hc hv
    rw [← hhead] at hb
    exact ⟨_, υ', hb⟩

/-- **Every frame is opened for a routine of the program.** -/
theorem exists_body_of_opens {u : CompiledUnit} {t : Nat} (h : compile name options p = .ok u)
    (ho : u.chunk.opens t = true) : ∃ r σ, p.Body name options r t σ := by
  obtain ⟨σ, hl, hc, hfin⟩ := lowers_of_compile h
  have hhalt : (Move.op .halt).Does σ { σ with draft := σ.draft.emit (.bare .halt) } := rfl
  rcases Nat.eq_zero_or_pos t with rfl | ht
  · exact ⟨⟨none, p.body⟩, σ, .top hl⟩
  · rcases Nat.lt_or_ge t σ.draft.position with hlt | hge
    · obtain ⟨head, body, e, τ, τ', hv, rfl⟩ :=
        hl.visits_of_opens hhalt.grows hfin ho (by rw [entry_position]; exact ht) hlt
      obtain ⟨υ', hb⟩ := Body.of_visits hl hc hv
      exact ⟨_, υ', hb⟩
    · have hsize : t < σ.halted.draft.position := by
        obtain ⟨-, hsize, -⟩ := Draft.finish_eq_ok hfin
        rw [← hsize]
        exact Chunk.lt_size_of_opens ho
      have hlt : σ.draft.position < σ.halted.draft.position := Nat.lt_of_le_of_lt hge hsize
      rw [hhalt.width_le hge hsize, (hhalt.closed rfl .refl hfin).first hlt] at ho
      cases ho

/-- **Every instruction is of the body of a routine.** -/
theorem exists_inBody {u : CompiledUnit} {n : Nat} (h : compile name options p = .ok u)
    (hn : n < u.chunk.size) : ∃ r t σ, p.Body name options r t σ ∧ u.chunk.InBody t n := by
  obtain ⟨t, ht⟩ := Chunk.exists_inBody (entry_opens h) hn
  obtain ⟨r, σ, hb⟩ := exists_body_of_opens h ht.1
  exact ⟨r, t, σ, hb, ht⟩

end Program

end StackScript
