import StackScript.Proofs.Moves

/-!
# Runs by the table

How to reason about a whole lowering from what its single moves do.

* `Runs.ind`: what holds of a piece whenever it holds of the pieces its template lowers holds of
  every run.
* `Along.keeps`: what every move of a sequence keeps, the sequence keeps.
* `Along.interpret`: what a state has to do with the session before a sequence of moves, what the
  moves make of the state has to do with the session behind it.
* `Runs.rel`: a preorder on sessions that every move keeps to, every run keeps to.
* `Runs.quiet`: a run that finds nothing wrong goes by lines of the table that find nothing wrong.
* `Visits`: the pieces that are lowered on the way.
* `compile_eq_ok`: compiling a program is lowering its statements and finishing the session.
-/

namespace StackScript

variable {K L : Piece → Bool → Session → Session → Prop} {Q : List Move → Prop} {p : Piece}
  {b : Bool} {ms : List Move} {σ σ' : Session}

/-- A move does no less if more is said of pieces. -/
theorem Move.Acts.mono {m : Move} (h : m.Acts K σ σ')
    (hK : ∀ {p b}, m = .piece p b → K p b σ σ' → L p b σ σ') : m.Acts L σ σ' := by
  cases m with
  | piece p b => exact hK rfl h
  | _ => exact h

theorem Along.mono (h : Along K ms σ σ') (hK : ∀ {p b σ σ'}, K p b σ σ' → L p b σ σ') :
    Along L ms σ σ' := by
  induction ms generalizing σ with
  | nil => exact h
  | cons m ms ih =>
      obtain ⟨σ₁, hm, h⟩ := h
      exact ⟨σ₁, hm.mono fun _ => hK, ih h⟩

/-- **Invariants of moves.**  What holds before a sequence of moves holds behind it, if none of these
moves and none of the pieces they lower breaks it. -/
theorem Along.keeps {I : Session → Prop} (does : ∀ {m τ τ'}, m ∈ ms → m.Does τ τ' → I τ → I τ')
    (piece : ∀ {p b τ τ'}, p ∈ Move.pieces ms → K p b τ τ' → I τ → I τ') (h : Along K ms σ σ')
    (hσ : I σ) : I σ' := by
  induction ms generalizing σ with
  | nil =>
      obtain rfl : σ = σ' := h
      exact hσ
  | cons m ms ih =>
      obtain ⟨σ₁, hm, h⟩ := h
      refine ih (fun hn => does (List.mem_cons_of_mem m hn)) (fun hp => piece ?_) h ?_
      · cases m <;> simp [Move.pieces, hp]
      · rcases hm.does_or_piece with hm | ⟨p, b, rfl, hp⟩
        · exact does List.mem_cons_self hm hσ
        · exact piece (by simp [Move.pieces]) hp hσ

/-- What every move and every piece on the way keeps to, a sequence of moves keeps to. -/
theorem Along.rel {R : Session → Session → Prop} (refl : ∀ {σ}, R σ σ)
    (trans : ∀ {σ₁ σ₂ σ₃}, R σ₁ σ₂ → R σ₂ σ₃ → R σ₁ σ₃)
    (does : ∀ {m : Move} {σ σ'}, m.Does σ σ' → R σ σ') (pieces : ∀ {p b σ σ'}, K p b σ σ' → R σ σ')
    (h : Along K ms σ σ') : R σ σ' :=
  h.keeps (I := R σ) (fun _ hm hτ => trans hτ (does hm)) (fun _ hp hτ => trans hτ (pieces hp)) refl

/-- Moves are interpreted one after the other. -/
theorem Move.foldlM_cons {S : Type} {act : S → Move → Option S} {m : Move} {ms : List Move} {s s' : S} :
    (m :: ms).foldlM act s = some s' ↔ ∃ t, act s m = some t ∧ ms.foldlM act t = some s' := by
  rw [List.foldlM_cons]
  exact Option.bind_eq_some_iff

/-- **Interpretation of moves.**  If `R` relates what a move makes of a state to the session the move
leads to, it relates what the moves make of the state to the session they lead to. -/
theorem Along.interpret {S : Type} {act : S → Move → Option S} {R : S → Session → Prop}
    {s s' : S}
    (does : ∀ {m ns s s' τ τ'}, m.Does τ τ' → Along K ns τ' σ' → act s m = some s' → R s τ →
      R s' τ')
    (piece : ∀ {p b ns s s' τ τ'}, K p b τ τ' → Along K ns τ' σ' →
      act s (.piece p b) = some s' → R s τ → R s' τ')
    (h : Along K ms σ σ') (hs : ms.foldlM act s = some s') (hR : R s σ) : R s' σ' := by
  induction ms generalizing s σ with
  | nil =>
      obtain rfl : σ = σ' := h
      obtain rfl : s = s' := by simpa using hs
      exact hR
  | cons m ms ih =>
      obtain ⟨σ₁, hm, h⟩ := h
      obtain ⟨s₁, hs₁, hs⟩ := Move.foldlM_cons.mp hs
      refine ih h hs ?_
      rcases hm.does_or_piece with hd | ⟨p, b, rfl, hp⟩
      · exact does hd h hs₁ hR
      · exact piece hp h hs₁ hR

theorem Follows.along (h : Follows Q ms σ σ') : Along (Runs Q) ms σ σ' := by
  induction h with
  | nil => rfl
  | act hm _ ih => exact ⟨_, hm.mono fun _ h => h.elim, ih⟩
  | piece hu hq hf _ _ ih => exact ⟨_, ⟨_, hu, hq, hf⟩, ih⟩

/-- A run can be taken apart into the runs of its parts. -/
theorem Runs.unfolds (h : Runs Q p b σ σ') :
    ∃ ms, Unfolds p ms b ∧ Q ms ∧ Along (Runs Q) ms σ σ' := by
  obtain ⟨ms, hu, hq, hf⟩ := h
  exact ⟨ms, hu, hq, hf.along⟩

/-- A run is a line of the table and the runs of its pieces. -/
theorem Runs.mk (hu : Unfolds p ms b) (hq : Q ms) (h : Along (Runs Q) ms σ σ') : Runs Q p b σ σ' :=
  ⟨ms, hu, hq, h.follows fun _ _ => id⟩

/-- What lowers pieces by lines of the table has what each piece has whenever the pieces on the way
have it. -/
theorem ind_of_unfolds {K P : Piece → Bool → Session → Session → Prop} {Q : List Move → Prop}
    {p : Piece} {b : Bool} {σ σ' : Session}
    (unfolds : ∀ {p b σ σ'}, K p b σ σ' → ∃ ms, Unfolds p ms b ∧ Q ms ∧ Along K ms σ σ')
    (step : ∀ {p b ms σ σ'}, Unfolds p ms b → Q ms →
      Along (fun p b σ σ' => K p b σ σ' ∧ P p b σ σ') ms σ σ' → P p b σ σ')
    (h : K p b σ σ') : P p b σ σ' := by
  obtain ⟨ms, hu, hq, ha⟩ := unfolds h
  refine step hu hq ?_
  have hs := hu.smaller
  clear hu hq h
  induction ms generalizing σ with
  | nil => exact ha
  | cons m ms ih =>
      obtain ⟨σ₁, hm, ha⟩ := ha
      refine ⟨σ₁, hm.mono ?_, ih ha fun q hq => hs q ?_⟩
      · rintro q c rfl hr
        have : q.size < p.size := hs q (by simp [Move.pieces])
        exact ⟨hr, ind_of_unfolds unfolds step hr⟩
      · cases m <;> simp [Move.pieces, hq]
termination_by p.size

/-- **Induction on runs.**  What holds of a piece whenever it holds of the pieces on the way holds of
every run. -/
theorem Runs.ind {P : Piece → Bool → Session → Session → Prop}
    (step : ∀ {p b ms σ σ'}, Unfolds p ms b → Q ms →
      Along (fun p b σ σ' => Runs Q p b σ σ' ∧ P p b σ σ') ms σ σ' → P p b σ σ')
    (h : Runs Q p b σ σ') : P p b σ σ' :=
  ind_of_unfolds (K := Runs Q) (Q := Q) Runs.unfolds step h

/-- **What every move keeps to, every run keeps to.** -/
theorem Runs.rel {R : Session → Session → Prop} (refl : ∀ {σ}, R σ σ)
    (trans : ∀ {σ₁ σ₂ σ₃}, R σ₁ σ₂ → R σ₂ σ₃ → R σ₁ σ₃)
    (does : ∀ {m : Move} {σ σ'}, m.Does σ σ' → R σ σ') (h : Runs Q p b σ σ') : R σ σ' :=
  h.ind (P := fun _ _ σ σ' => R σ σ') fun _ _ ha => ha.rel refl trans does And.right

/-- The code grows while a piece is lowered. -/
theorem Runs.grows (h : Runs Q p b σ σ') : σ.draft.Grows σ'.draft :=
  h.rel (R := fun σ σ' => σ.draft.Grows σ'.draft) .refl .trans Move.Does.grows

/-- No diagnostic is forgotten while a piece is lowered. -/
theorem Runs.count_le (h : Runs Q p b σ σ') : σ.report.count ≤ σ'.report.count :=
  h.rel (R := fun σ σ' => σ.report.count ≤ σ'.report.count) (Nat.le_refl _) Nat.le_trans
    Move.Does.count_le

theorem Along.grows (h : Along (Runs Q) ms σ σ') : σ.draft.Grows σ'.draft :=
  h.rel (R := fun σ σ' => σ.draft.Grows σ'.draft) .refl .trans Move.Does.grows Runs.grows

theorem Along.count_le (h : Along (Runs Q) ms σ σ') : σ.report.count ≤ σ'.report.count :=
  h.rel (R := fun σ σ' => σ.report.count ≤ σ'.report.count) (Nat.le_refl _) Nat.le_trans
    Move.Does.count_le Runs.count_le

/-! ### Runs without diagnostics -/

/-- The move finds nothing wrong. -/
def Move.quiet : Move → Bool
  | .report _ _ => false
  | .piece (.args _ _) false => false
  | _ => true

/-- None of the moves finds anything wrong. -/
def Quiet (ms : List Move) : Prop := ∀ m ∈ ms, m.quiet = true

theorem Enforces.quiet {e : Expr} {type : ValueType} {role : Role} {cs : List Move} {ok : Bool}
    (h : Enforces e type role cs ok) (hq : Quiet cs) : ok = true := by
  cases h with
  | incompatible => simp [Quiet, Move.quiet] at hq
  | _ => rfl

/-- Arguments are refused only with a diagnostic. -/
theorem Unfolds.refused {es : List Expr} {ps : List SubParam}
    (h : Unfolds (.args es ps) ms false) : ¬ Quiet ms := by
  cases h with
  | argsRefused => simp [Quiet, Move.quiet]
  | argsHeld hc =>
      intro hq
      exact absurd (hc.quiet fun m hm => hq m (by simp [hm])) (by simp)

/-- A move that is not quiet finds a diagnostic. -/
theorem Move.Acts.count_lt {m : Move} (h : m.Acts K σ σ') (hm : m.quiet = false)
    (hK : ∀ {es ps σ σ'}, K (.args es ps) false σ σ' → σ.report.count < σ'.report.count) :
    σ.report.count < σ'.report.count := by
  cases m with
  | report p span =>
      obtain rfl := Move.acts_report.mp h
      simp [Report.count_add]
  | piece p b =>
      cases p with
      | args es ps =>
          cases b with
          | false => exact hK h
          | true => simp [Move.quiet] at hm
      | _ => simp [Move.quiet] at hm
  | _ => simp [Move.quiet] at hm

/-- Moves that find nothing can be followed without finding anything. -/
theorem Along.quiet
    (hK : ∀ {p b σ σ'}, K p b σ σ' → σ.report.count ≤ σ'.report.count)
    (hargs : ∀ {es ps σ σ'}, K (.args es ps) false σ σ' → σ.report.count < σ'.report.count)
    (hL : ∀ {p b σ σ'}, K p b σ σ' → σ'.report.count = σ.report.count → L p b σ σ')
    (h : Along K ms σ σ') (hc : σ'.report.count = σ.report.count) :
    Quiet ms ∧ Along L ms σ σ' := by
  induction ms generalizing σ with
  | nil => exact ⟨fun m hm => by simp at hm, h⟩
  | cons m ms ih =>
      obtain ⟨σ₁, hm, h⟩ := h
      have hrest : σ₁.report.count ≤ σ'.report.count :=
        h.rel (R := fun σ σ' => σ.report.count ≤ σ'.report.count) (Nat.le_refl _) Nat.le_trans
          Move.Does.count_le hK
      have hfirst : σ.report.count ≤ σ₁.report.count := by
        rcases hm.does_or_piece with hd | ⟨p, b, -, hp⟩
        · exact hd.count_le
        · exact hK hp
      have hquiet : m.quiet = true := by
        cases hloud : m.quiet with
        | true => rfl
        | false =>
            have := hm.count_lt hloud hargs
            omega
      obtain ⟨hq, ha⟩ := ih h (by omega)
      refine ⟨fun n hn => ?_, σ₁, hm.mono fun _ hp => hL hp (by omega), ha⟩
      rcases List.mem_cons.mp hn with rfl | hn
      · exact hquiet
      · exact hq n hn

/-- Refused arguments leave a diagnostic. -/
theorem Runs.count_lt {es : List Expr} {ps : List SubParam} (h : Runs Q (.args es ps) false σ σ') :
    σ.report.count < σ'.report.count := by
  have hP : ∀ {p b σ σ'}, Runs Q p b σ σ' → (∃ es ps, p = .args es ps) → b = false →
      σ.report.count < σ'.report.count := by
    intro p b σ σ' h
    refine h.ind (P := fun p b σ σ' => (∃ es ps, p = .args es ps) → b = false →
      σ.report.count < σ'.report.count) ?_
    rintro p b ms σ σ' hu - ha ⟨es, ps, rfl⟩ rfl
    refine Nat.lt_of_not_le fun hc => hu.refused (ha.quiet (L := fun _ _ _ _ => True) (fun h => h.1.count_le) ?_
      (fun _ _ => trivial) ?_).1
    · exact fun h => h.2 ⟨_, _, rfl⟩ rfl
    · have := (ha.mono And.left).count_le
      omega
  exact hP h ⟨_, _, rfl⟩ rfl

/-- **A run that finds nothing goes by quiet lines of the table.** -/
theorem Runs.quiet (h : Runs Q p b σ σ') (hc : σ'.report.count = σ.report.count) :
    Runs Quiet p b σ σ' := by
  refine h.ind (P := fun p b σ σ' => σ'.report.count = σ.report.count → Runs Quiet p b σ σ') ?_ hc
  intro p b ms σ σ' hu _ ha hc
  obtain ⟨hq, ha⟩ := ha.quiet (L := Runs Quiet) (fun h => h.1.count_le) (fun h => h.1.count_lt)
    And.right hc
  exact .mk hu hq ha

/-- Where no diagnostic has been found at the end, the run is quiet. -/
theorem Lowers.quiet (h : Lowers p b σ σ') (hc : σ'.report.count = 0) : Runs Quiet p b σ σ' :=
  h.runs.quiet (by have := h.runs.count_le; omega)

/-! ### Pieces on the way -/

/-- Lowering `p` from `σ` to `σ'` lowers `q` from `τ` to `τ'` as one of its moves. -/
def Part (p : Piece) (b : Bool) (σ σ' : Session) (q : Piece) (c : Bool) (τ τ' : Session) : Prop :=
  ∃ ms ns, Unfolds p (ms ++ .piece q c :: ns) b ∧ Along Lowers ms σ τ ∧ Lowers q c τ τ' ∧
    Along Lowers ns τ' σ'

/-- Lowering `p` from `σ` to `σ'` lowers the piece from one session to the other on the way. -/
inductive Visits (p : Piece) (b : Bool) (σ σ' : Session) :
    Piece → Bool → Session → Session → Prop where
  | self : Visits p b σ σ' p b σ σ'
  | part {q r : Piece} {c d : Bool} {τ τ' υ υ' : Session} :
      Visits p b σ σ' q c τ τ' → Part q c τ τ' r d υ υ' → Visits p b σ σ' r d υ υ'

/-! ### Programs -/

/-- The session in which the statements of a program are lowered: its subroutines are known, and the
frame of the top level is open. -/
def Program.entry (p : Program) (name : String) (options : CompileOptions) : Session :=
  let s := (Session.start name options).declareStmts PackageTree.root p.body
  { s with
    draft := s.draft.emit (.pushFrame 0 (slotsNeeded p.body).toUInt16)
    scopes := s.scopes.enter (.subroutine .unknown) }

/-- The session with the end of the top level. -/
def Session.halted (s : Session) : Session :=
  { s with draft := s.draft.emit (.bare .halt), scopes := s.scopes.leave }

/-- Compiling the program lowers the piece from `τ` to `τ'`. -/
def Program.Lowered (p : Program) (name : String) (options : CompileOptions) (q : Piece) (c : Bool)
    (τ τ' : Session) : Prop :=
  ∃ σ, Lowers (.stmts p.body) true (p.entry name options) σ ∧
    Visits (.stmts p.body) true (p.entry name options) σ q c τ τ'

/-- Lowering a program reserves the slots of the top level and lowers its statements behind the frame. -/
theorem lowerProgram_eq_ok {p : Program} {σ₀ σ' : Session} :
    Lower.lowerProgram p σ₀ = (.ok (), σ') ↔
      slotsNeeded p.body < UInt16.size ∧ ∃ σ,
        Lower.lowerStmts p.body
          { σ₀.declareStmts PackageTree.root p.body with
            draft := (σ₀.declareStmts PackageTree.root p.body).draft.emit
              (.pushFrame 0 (slotsNeeded p.body).toUInt16)
            scopes := (σ₀.declareStmts PackageTree.root p.body).scopes.enter
              (.subroutine .unknown) } = (.ok (), σ) ∧
        σ' = σ.halted := by
  simp only [Lower.lowerProgram, Step.bind_eq_ok, Lower.slotCount_eq_ok, Lower.inScope_eq_ok]
  constructor
  · rintro ⟨_, _, hu, _, _, ⟨hn, rfl, rfl⟩, τ, ⟨_, _, he, _, σ, hl, hh⟩, rfl⟩
    cases hu
    cases he
    cases hh
    exact ⟨hn, σ, hl, rfl⟩
  · rintro ⟨hn, σ, hl, rfl⟩
    exact ⟨(), _, rfl, _, _, ⟨hn, rfl, rfl⟩, _, ⟨(), _, rfl, (), σ, hl, rfl⟩, rfl⟩

/-- A program compiles if its statements are lowered and what they come to can be finished. -/
theorem compile_eq_ok {name : String} {options : CompileOptions} {p : Program} {u : CompiledUnit} :
    compile name options p = .ok u ↔
      slotsNeeded p.body < UInt16.size ∧
        ∃ σ, Lowers (.stmts p.body) true (p.entry name options) σ ∧ σ.halted.finish = .ok u := by
  unfold compile Step.run
  rcases hp : Lower.lowerProgram p (Session.start name options) with ⟨_ | _, σ'⟩
  · constructor
    · intro h
      cases h
    · rintro ⟨hn, σ, hl, -⟩
      have := lowerProgram_eq_ok.mpr ⟨hn, σ, (Lowers.stmts_iff.mp hl).1, rfl⟩
      simp [hp] at this
  · obtain ⟨hn, σ, hl, rfl⟩ := lowerProgram_eq_ok.mp hp
    constructor
    · intro h
      exact ⟨hn, σ, Lowers.stmts_iff.mpr ⟨hl, rfl⟩, h⟩
    · rintro ⟨-, τ, hl', h⟩
      obtain rfl : σ = τ := (Prod.mk.inj (hl.symm.trans (Lowers.stmts_iff.mp hl').1)).2
      exact h

/-- A session is finished if nothing was found and its labels are marked, and the unit has what it
recorded. -/
theorem Session.finish_eq_ok {σ : Session} {u : CompiledUnit} (h : σ.finish = .ok u) :
    σ.report.count = 0 ∧ σ.draft.finish = .ok u.chunk ∧ u.uses = σ.uses ∧
      σ.entryPoints = .ok u.subroutines ∧ u.interface = σ.interface := by
  unfold Session.finish at h
  split at h
  · rename_i hr
    cases he : σ.entryPoints with
    | error f => simp [he] at h
    | ok table =>
        cases hd : σ.draft.finish with
        | error f => simp [he, hd] at h
        | ok chunk =>
            simp only [he, hd, Except.ok.injEq] at h
            subst h
            exact ⟨Report.isEmpty_iff.mp hr, rfl, rfl, rfl, rfl⟩
  · cases h

end StackScript
