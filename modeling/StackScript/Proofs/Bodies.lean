import Mathlib.Algebra.GroupWithZero.Nat
import StackScript.Proofs.Scoping

/-!
# Bodies in finished code

Where the code of a subroutine lies in a finished chunk.  A frame is opened by `PushFrame`; a
subroutine's code reaches from there to the target of the jump that stands just before it, and that
of the top level to the end of the chunk.  An instruction is of the body it lies in and in no body
inside that one (`Chunk.InBody`).

Lowering a piece keeps to this: the bodies whose frames are opened while it is lowered end before
the piece does (`Runs.closed`), so code that a piece emits itself is of the body around the piece.
-/

namespace StackScript

namespace Chunk

/-- A frame is opened at `t`. -/
def opens (c : Chunk) (t : Nat) : Bool := (c.instructions[t]?).any (·.opcode = .pushFrame)

/-- Where the body ends whose frame is opened at `t`. -/
def bodyEnd (c : Chunk) : Nat → Nat
  | 0 => c.size
  | t + 1 =>
    match c.instructions[t]? with
    | some ⟨.jump, some (.offset stop)⟩ => stop
    | _ => t + 1

/-- The offset `n` is of the body whose frame is opened at `t`, and not of one inside it. -/
def InBody (c : Chunk) (t n : Nat) : Prop :=
  c.opens t = true ∧ t ≤ n ∧ n < c.bodyEnd t ∧
    ∀ t', c.opens t' = true → t < t' → t' ≤ n → c.bodyEnd t' ≤ n

/-- An instruction is of one body. -/
theorem InBody.unique {c : Chunk} {t t' n : Nat} (h : c.InBody t n) (h' : c.InBody t' n) :
    t = t' := by
  obtain ⟨ho, hle, hlt, hin⟩ := h
  obtain ⟨ho', hle', hlt', hin'⟩ := h'
  rcases Nat.lt_trichotomy t t' with h | h | h
  · exact absurd (hin t' ho' h hle') (Nat.not_le.mpr hlt')
  · exact h
  · exact absurd (hin' t ho h hle) (Nat.not_le.mpr hlt)

end Chunk

/-! ### Positions -/

namespace Move

/-- How many instructions the move emits. -/
def width : Move → Nat
  | .emit _ | .constant _ => 1
  | _ => 0

/-- Where nothing is emitted the code and the pool stay as they are. -/
theorem Does.chunk_eq {m : Move} {σ σ' : Session} (h : m.Does σ σ') (hm : m.width = 0) :
    σ'.draft.chunk = σ.draft.chunk := by
  cases m with
  | emit i => cases hm
  | constant v => cases hm
  | newLabel l =>
      obtain ⟨-, rfl⟩ := acts_newLabel.mp h
      rfl
  | newMarkedLabel l =>
      obtain ⟨-, rfl⟩ := acts_newMarkedLabel.mp h
      rfl
  | mark l =>
      obtain ⟨d, hd, rfl⟩ := acts_mark.mp h
      unfold Draft.mark at hd
      split at hd <;> cases hd
      rfl
  | mention name sub =>
      obtain ⟨-, rfl⟩ := acts_mention.mp h
      unfold PackageTree.mention
      split <;> rfl
  | piece p b => exact h.elim
  | _ => rw [h.spares.draft rfl]

/-- A move adds as many instructions as it emits. -/
theorem Does.position {m : Move} {σ σ' : Session} (h : m.Does σ σ') :
    σ'.draft.position = σ.draft.position + m.width := by
  cases m with
  | emit i =>
      obtain rfl := acts_emit.mp h
      simp [Draft.position, Draft.emit, Chunk.emit, Chunk.size, width]
  | constant v =>
      obtain ⟨d, hd, rfl⟩ := acts_constant.mp h
      obtain ⟨index, c, hc, rfl⟩ := Draft.emitConstant_eq_ok.mp hd
      simp [Draft.position, Chunk.emit, Chunk.size, width, (Chunk.addConstant_ok hc).1]
  | piece p b => exact h.elim
  | _ =>
      rw [Draft.position, h.chunk_eq rfl]
      rfl

/-- The instruction that a move emits itself. -/
theorem Does.emitted {m : Move} {σ σ' : Session} {i : Instruction} (h : m.Does σ σ')
    (hi : σ'.draft.chunk.instructions[σ.draft.position]? = some i) :
    m = .emit i ∨ (∃ v, m = .constant v) ∧ ∃ index, i = .loadConst index := by
  cases m with
  | emit j =>
      obtain rfl := acts_emit.mp h
      obtain rfl : j = i := by simpa [Draft.emit, Chunk.emit, Draft.position, Chunk.size] using hi
      exact .inl rfl
  | constant v =>
      obtain ⟨d, hd, rfl⟩ := acts_constant.mp h
      obtain ⟨index, c, hc, rfl⟩ := Draft.emitConstant_eq_ok.mp hd
      refine .inr ⟨⟨v, rfl⟩, index, ?_⟩
      simpa [Chunk.emit, Draft.position, Chunk.size, ← (Chunk.addConstant_ok hc).1, eq_comm] using hi
  | piece p b => exact h.elim
  | _ =>
      have hpos : σ'.draft.position = σ.draft.position := h.position
      have hlt : σ.draft.position < σ'.draft.position := (Array.getElem?_eq_some_iff.mp hi).1
      omega

/-- What the move emits itself stands in the finished code, with its labels resolved. -/
theorem acts_emit_at {K : Piece → Bool → Session → Session → Prop} {i : Instruction}
    {σ σ' : Session} {d : Draft} {c : Chunk} (h : (emit i).Acts K σ σ') (hd : σ'.draft.Grows d)
    (hc : d.finish = .ok c) :
    ∃ j, c.instructions[σ.draft.position]? = some j ∧ d.resolveInstruction i = .ok j := by
  obtain rfl := acts_emit.mp h
  refine (Draft.finish_eq_ok hc).2.2 (hd.instruction ?_)
  simp [Draft.emit, Chunk.emit, Draft.position, Chunk.size]

/-- A constant is loaded in the finished code from a place that the pool has. -/
theorem acts_constant_at {K : Piece → Bool → Session → Session → Prop} {v : Constant}
    {σ σ' : Session} {d : Draft} {c : Chunk} (h : (constant v).Acts K σ σ')
    (hd : σ'.draft.Grows d) (hc : d.finish = .ok c) :
    ∃ index, c.instructions[σ.draft.position]? = some (.loadConst index) ∧
      index.toNat < c.constants.size := by
  obtain ⟨d', hd', rfl⟩ := acts_constant.mp h
  obtain ⟨index, c', hc', rfl⟩ := Draft.emitConstant_eq_ok.mp hd'
  obtain ⟨j, hj, hr⟩ := (Draft.finish_eq_ok hc).2.2
    (hd.instruction (n := σ.draft.position) (i := .loadConst index) (by
      simp [Chunk.emit, Draft.position, Chunk.size, (Chunk.addConstant_ok hc').1]))
  obtain rfl : Instruction.loadConst index = j := Except.ok.inj hr
  refine ⟨index, hj, ?_⟩
  obtain ⟨-, -, n, w, rfl, hw, -⟩ := Chunk.addConstant_ok hc'
  rw [(Draft.finish_eq_ok hc).1]
  exact Nat.lt_of_le_of_lt (Nat.mod_le n _) (Array.getElem?_eq_some_iff.mp (hd.constant hw)).1

/-- A marked label stands for the place it was marked at. -/
theorem acts_mark_at {K : Piece → Bool → Session → Session → Prop} {l : Label} {σ σ' : Session}
    {d : Draft} (h : (mark l).Acts K σ σ') (hd : σ'.draft.Grows d) :
    d.offset? l = some σ.draft.position := by
  refine hd.offset ?_
  obtain ⟨d', hd', rfl⟩ := acts_mark.mp h
  unfold Draft.mark at hd'
  split at hd'
  · rename_i hl
    cases hd'
    obtain ⟨hlt, -⟩ := Array.getElem?_eq_some_iff.mp hl
    simp [Draft.offset?, hlt, Draft.position, Chunk.size]
  · cases hd'
  · cases hd'

/-- So does a label that is marked where it is created, as long as labels have numbers of their
own. -/
theorem acts_newMarkedLabel_at {K : Piece → Bool → Session → Session → Prop} {l : Label}
    {σ σ' : Session} {d : Draft} (h : (newMarkedLabel l).Acts K σ σ') (hd : σ'.draft.Grows d)
    (hfew : d.labels.size ≤ UInt32.size) : d.offset? l = some σ.draft.position := by
  have hsize := hd.labels
  refine hd.offset ?_
  obtain ⟨rfl, rfl⟩ := acts_newMarkedLabel.mp h
  simp only [Draft.newMarkedLabel, Array.size_push] at hsize
  have hlt : σ.draft.labels.size < UInt32.size := by omega
  have hid : σ.draft.labels.size.toUInt32.toNat = σ.draft.labels.size := Nat.mod_eq_of_lt hlt
  simp [Draft.offset?, Draft.newMarkedLabel, Draft.nextLabel, hid]

end Move

/-! ### Lowering a subroutine -/

/-- The parts of lowering a subroutine: what comes before its code, the jump over it and its frame,
its parameters, its body, the end of its code, and what comes behind. -/
inductive SubRun (K : Piece → Bool → Session → Session → Prop) (head : SubHead) (body : List Stmt)
    (σ σ' : Session) : Prop where
  | intro {ps : List SubParam} {sub : Subroutine} {skip : Label} {slot : Slot} {ends : Bool}
      {close : List Move} {σ₁ σ₂ σ₃ σ₄ σ₅ : Session} :
      head.params.mapM Param.resolve = .ok ps → sub.marked = false → Closes head.span ends close →
      Along K [.mention head.name sub,
        .setSub head.name { sub with
          marked := true, declared := true, params := ps, returnType := head.returnType
          usesArgList := mentionsArgList body },
        .sees fun _ => ps.length + (mentionsArgList body).toNat < UInt16.size,
        .sees fun _ => slotsNeeded body < UInt16.size,
        .newLabel skip, .enter (.subroutine head.returnType)] σ σ₁ →
      Along K [.emit (.jump skip), .mark sub.label,
        .emit (.pushFrame (ps.length + (mentionsArgList body).toNat).toUInt16
          (slotsNeeded body).toUInt16)] σ₁ σ₂ →
      Along K (Move.argListSlot (mentionsArgList body) slot ++ [Move.params ps]) σ₂ σ₃ →
      K (.body head.returnType body) ends σ₃ σ₄ → Along K close σ₄ σ₅ →
      Along K [.leave, .mark skip, .traits head sub.label] σ₅ σ' → SubRun K head body σ σ'

/-- The parts of lowering a subroutine do not depend on what is said of its body. -/
theorem SubRun.mono {K L : Piece → Bool → Session → Session → Prop} {head : SubHead}
    {body : List Stmt} {σ σ' : Session} (h : SubRun K head body σ σ')
    (hK : ∀ {p b σ σ'}, K p b σ σ' → L p b σ σ') : SubRun L head body σ σ' := by
  obtain ⟨hp, hk, hclose, h₁, h₂, h₃, hbody, h₅, h₆⟩ := h
  exact .intro hp hk hclose (h₁.mono hK) (h₂.mono hK) (h₃.mono hK) (hK hbody) (h₅.mono hK)
    (h₆.mono hK)

/-- A declaration whose body is lowered. -/
theorem Unfolds.subRun_of_pieces {K : Piece → Bool → Session → Session → Prop} {head : SubHead}
    {body : List Stmt} {ms : List Move} {b : Bool} {σ σ' : Session}
    (hu : Unfolds (.stmt (.sub head body)) ms b) (hms : Move.pieces ms ≠ []) (h : Along K ms σ σ') :
    SubRun K head body σ σ' := by
  cases hu with
  | subParameter _ => exact absurd rfl hms
  | subRedeclared _ _ => exact absurd rfl hms
  | sub hp hk hc =>
      obtain ⟨σ₅, h₁, hbehind⟩ := along_append.mp h
      obtain ⟨σ₄, h₂, hclose⟩ := along_append.mp h₁
      obtain ⟨_, h₃, _, hps, _, hbody, rfl⟩ := along_append.mp h₂
      obtain ⟨σ₂, h₄, hlist⟩ := along_append.mp h₃
      obtain ⟨σ₁, hbefore, hframe⟩ := (@along_append K [_, _, _, _, _, _] _ _ _).mp h₄
      exact .intro hp hk hc hbefore hframe (along_append.mpr ⟨_, hlist, _, hps, rfl⟩) hbody hclose
        hbehind

/-- A declaration that is not reported has all its parts. -/
theorem Unfolds.subRun {K : Piece → Bool → Session → Session → Prop} {head : SubHead}
    {body : List Stmt} {ms : List Move} {b : Bool} {σ σ' : Session}
    (hu : Unfolds (.stmt (.sub head body)) ms b) (hq : Quiet ms) (h : Along K ms σ σ') :
    SubRun K head body σ σ' := by
  refine hu.subRun_of_pieces (fun hms => ?_) h
  cases hu with
  | subParameter _ => simp [Quiet, Move.quiet] at hq
  | subRedeclared _ _ => simp [Quiet, Move.quiet] at hq
  | sub _ _ _ => simp [Move.pieces] at hms

section Layout

variable {K : Piece → Bool → Session → Session → Prop} {ms : List Move} {σ σ' : Session}

/-- The code grows along a row of moves, if it does with its pieces. -/
theorem Along.grows_of (hK : ∀ {p b σ σ'}, K p b σ σ' → σ.draft.Grows σ'.draft)
    (h : Along K ms σ σ') : σ.draft.Grows σ'.draft :=
  h.rel (R := fun σ σ' => σ.draft.Grows σ'.draft) .refl .trans Move.Does.grows hK

/-- Moves that lower no piece do the same whatever lowering a piece does. -/
theorem Along.does (h : Along K ms σ σ') (hms : Move.pieces ms = []) :
    Along (fun _ _ _ _ => False) ms σ σ' := by
  induction ms generalizing σ with
  | nil => exact h
  | cons m ms ih =>
      obtain ⟨σ₁, hm, h⟩ := h
      cases m with
      | piece p b => simp [Move.pieces] at hms
      | _ => exact ⟨σ₁, hm, ih h hms⟩

theorem Along.grows_flat (h : Along K ms σ σ') (hms : Move.pieces ms = []) :
    σ.draft.Grows σ'.draft :=
  (h.does hms).grows_of False.elim

/-- Moves that are not about the scopes leave them alone. -/
theorem Along.scopes (h : Along K ms σ σ') (hms : Move.pieces ms = [])
    (hs : ms.all (!·.onScopes) = true) : σ'.scopes = σ.scopes := by
  refine (h.does hms).keeps (I := fun τ => τ.scopes = σ.scopes) (fun hm hd hτ => ?_)
    (fun _ hp => hp.elim) rfl
  rw [hd.spares.scopes (by simpa using List.all_eq_true.mp hs _ hm), hτ]

/-- The position behind moves that lower no piece. -/
theorem Along.position (h : Along K ms σ σ') (hms : Move.pieces ms = []) :
    σ'.draft.position = σ.draft.position + (ms.map Move.width).sum := by
  induction ms generalizing σ with
  | nil =>
      obtain rfl : σ = σ' := h
      rfl
  | cons m ms ih =>
      obtain ⟨σ₁, hm, h⟩ := h
      rcases hm.does_or_piece with hm | ⟨p, b, rfl, -⟩
      · have hms' : Move.pieces ms = [] := by
          cases m <;> simp_all [Move.pieces]
        rw [ih h hms', hm.position, List.map_cons, List.sum_cons, Nat.add_assoc]
      · simp [Move.pieces] at hms

theorem Closes.width {s : Span} {ends : Bool} {close : List Move} (h : Closes s ends close) :
    2 ≤ (close.map Move.width).sum := by
  cases h with
  | returned => decide
  | fallen h =>
      obtain ⟨hc⟩ := h
      simp [Move.width, Move.op]
      omega

/-- **How the code of a subroutine is laid out**: the jump over it, its frame, its body, and at least
one instruction behind the body. -/
theorem SubRun.layout {head : SubHead} {ps : List SubParam} {sub sub' : Subroutine} {skip : Label}
    {slot : Slot} {uses ends : Bool} {params locals : UInt16} {type : ValueType}
    {close : List Move} {σ₁ σ₂ σ₃ σ₄ σ₅ : Session} {A B : Session → Prop} {d : Draft} {c : Chunk}
    (hclose : Closes head.span ends close)
    (h₁ : Along K [.mention head.name sub, .setSub head.name sub', .sees A, .sees B, .newLabel skip,
      .enter (.subroutine type)] σ σ₁)
    (h₂ : Along K [.emit (.jump skip), .mark sub.label, .emit (.pushFrame params locals)] σ₁ σ₂)
    (h₃ : Along K (Move.argListSlot uses slot ++ [Move.params ps]) σ₂ σ₃)
    (hbody : σ₃.draft.Grows σ₄.draft) (h₅ : Along K close σ₄ σ₅)
    (h₆ : Along K [.leave, .mark skip, .traits head sub.label] σ₅ σ') (hd : σ'.draft.Grows d)
    (hc : d.finish = .ok c) :
    σ₃.draft.position = σ.draft.position + 2 ∧ σ₄.draft.position < σ₅.draft.position ∧
      σ'.draft.position = σ₅.draft.position ∧
      c.instructions[σ.draft.position]? = some ⟨.jump, some (.offset σ'.draft.position)⟩ ∧
      c.instructions[σ.draft.position + 1]? = some (.pushFrame params locals) ∧
      d.offset? sub.label = some (σ.draft.position + 1) := by
  have g₃ : σ₂.draft.Grows σ₃.draft := h₃.grows_flat (by simp [Move.pieces])
  have g₅ : σ₄.draft.Grows σ₅.draft := h₅.grows_flat hclose.pieces
  have g₆ : σ₅.draft.Grows σ'.draft := h₆.grows_flat rfl
  have gd : σ₂.draft.Grows d := g₃.trans (hbody.trans (g₅.trans (g₆.trans hd)))
  -- Positions, part by part; only the jump, the frame and what closes the body take up room.
  have e₁ : σ₁.draft.position = σ.draft.position := h₁.position rfl
  have e₂ : σ₂.draft.position = σ₁.draft.position + 2 := h₂.position rfl
  have e₃ : σ₃.draft.position = σ₂.draft.position := by
    have := h₃.position (by simp [Move.pieces])
    cases uses <;> simpa [Move.argListSlot, Move.width] using this
  have e₅ := h₅.position hclose.pieces
  have e₆ : σ'.draft.position = σ₅.draft.position := h₆.position rfl
  obtain ⟨τ₁, hjump, τ₂, hlabel, τ₃, hframe, rfl⟩ := h₂.does rfl
  obtain ⟨_, rfl, υ, hskip, _, htraits, rfl⟩ := h₆.does rfl
  have gframe : τ₂.draft.Grows τ₃.draft := Move.Does.grows hframe
  have glabel : τ₁.draft.Grows τ₂.draft := Move.Does.grows hlabel
  have gtraits : υ.draft.Grows d := (Move.Does.grows htraits).trans hd
  have hstop := Move.acts_mark_at hskip gtraits
  have ejump : τ₁.draft.position = σ₁.draft.position + 1 := Move.Does.position hjump
  have elabel : τ₂.draft.position = τ₁.draft.position := Move.Does.position hlabel
  obtain ⟨i, hi, hri⟩ := Move.acts_emit_at hjump (glabel.trans (gframe.trans gd)) hc
  obtain ⟨hop, offset, ho, hoperand⟩ := Draft.resolveInstruction_eq_ok hri
  obtain ⟨j, hj, hrj⟩ := Move.acts_emit_at hframe gd hc
  have hentry := Move.acts_mark_at hlabel (gframe.trans gd)
  refine ⟨by omega, ?_, e₆, ?_, ?_, ?_⟩
  · have := hclose.width
    omega
  · obtain rfl : σ₅.draft.position = offset := Option.some.inj (hstop.symm.trans ho)
    rw [← e₁, hi, e₆]
    obtain ⟨iop, ioperand⟩ := i
    simp_all [Instruction.jump]
  · obtain rfl : Instruction.pushFrame params locals = j := Except.ok.inj hrj
    rw [← e₁, ← ejump, ← elabel, hj]
  · rw [hentry, ejump, e₁]

end Layout

/-- Before its code, a declaration opens the scope of the subroutine and no other. -/
theorem SubRun.entered {K : Piece → Bool → Session → Session → Prop} {name : String}
    {type : ValueType} {sub sub' : Subroutine} {skip : Label} {σ σ₁ : Session}
    {A B : Session → Prop}
    (h₁ : Along K [.mention name sub, .setSub name sub', .sees A, .sees B, .newLabel skip,
      .enter (.subroutine type)] σ σ₁) : σ₁.scopes = σ.scopes.enter (.subroutine type) := by
  obtain ⟨τ, h, _, rfl, rfl⟩ := (@along_append _ [_, _, _, _, _] [_] _ _).mp h₁
  show τ.scopes.enter _ = _
  rw [h.scopes rfl rfl]

open Scopes in
/-- The scopes of a subroutine whose parameters have been bound. -/
theorem SubRun.kept {K : Piece → Bool → Session → Session → Prop} {ps : List SubParam}
    {skip entry : Label} {slot : Slot} {uses : Bool} {params locals : UInt16} {σ₁ σ₂ σ₃ : Session}
    (h₂ : Along K [.emit (.jump skip), .mark entry, .emit (.pushFrame params locals)] σ₁ σ₂)
    (h₃ : Along K (Move.argListSlot uses slot ++ [Move.params ps]) σ₂ σ₃) :
    Kept σ₁.scopes.stack σ₃.scopes.stack := by
  have k₂ := (h₂.does rfl).kept_opened False.elim rfl
  have hpieces : Move.pieces (Move.argListSlot uses slot ++ [Move.params ps]) = [] := by
    simp [Move.pieces]
  have k₃ : Kept σ₂.scopes.stack (σ₃.scopes.stack.drop 0) :=
    (h₃.does hpieces).kept_opened False.elim (by cases uses <;> rfl)
  exact .trans k₂ k₃

open Scopes in
/-- A subroutine leaves the scopes around it as they were. -/
theorem SubRun.scopes {Q : List Move → Prop} {head : SubHead} {body : List Stmt} {σ σ' : Session}
    (h : SubRun (Runs Q) head body σ σ') : σ'.scopes = σ.scopes := by
  cases h with
  | @intro ps sub skip slot ends close σ₁ σ₂ σ₃ σ₄ σ₅ _ _ hclose h₁ h₂ h₃ hbody h₅ h₆ =>
  have hkept : Kept σ₁.scopes.stack σ₅.scopes.stack := by
    have k₅ := h₅.kept_opened Runs.kept hclose.opened
    exact .trans (SubRun.kept h₂ h₃) (.trans hbody.kept k₅)
  have hleave : σ'.scopes = σ₅.scopes.leave := by
    obtain ⟨_, rfl, h⟩ := h₆
    rw [Along.scopes h rfl rfl]
  rw [SubRun.entered h₁] at hkept
  rw [hleave, Scopes.leave]
  generalize hstack : σ₅.scopes.stack = stack at hkept
  cases hkept with
  | scope hsub => cases hsub
  | sub _ _ _ => rfl

/-! ### Bodies end with the piece they are in -/

/-- The bodies whose frames are opened between `a` and `b` end there, and none is opened at `a`. -/
structure Chunk.Closed (c : Chunk) (a b : Nat) : Prop where
  ended : ∀ {t}, c.opens t = true → a ≤ t → t < b → c.bodyEnd t ≤ b
  first : a < b → c.opens a = false

namespace Chunk.Closed

theorem refl {c : Chunk} {a : Nat} : c.Closed a a :=
  ⟨fun _ h₁ h₂ => absurd (Nat.lt_of_le_of_lt h₁ h₂) (Nat.lt_irrefl a),
    fun h => absurd h (Nat.lt_irrefl a)⟩

theorem trans {c : Chunk} {a b e : Nat} (h₁ : c.Closed a b) (h₂ : c.Closed b e) (hab : a ≤ b)
    (hbe : b ≤ e) : c.Closed a e := by
  refine ⟨fun {t} ho hat hte => ?_, fun hae => ?_⟩
  · rcases Nat.lt_or_ge t b with htb | hbt
    · exact Nat.le_trans (h₁.ended ho hat htb) hbe
    · exact h₂.ended ho hbt hte
  · rcases Nat.eq_or_lt_of_le hab with rfl | hlt
    · exact h₂.first hae
    · exact h₁.first hlt

/-- A single instruction that opens no frame. -/
theorem single {c : Chunk} {a : Nat} (h : c.opens a = false) : c.Closed a (a + 1) := by
  refine ⟨fun {t} ho hat hta => ?_, fun _ => h⟩
  obtain rfl : t = a := by omega
  rw [h] at ho
  cases ho

/-- Bodies that begin in closed code have ended behind it, if none begins just there. -/
theorem ended_le {c : Chunk} {t a b : Nat} (h : c.Closed a b) (hb : c.opens b = false)
    (ho : c.opens t = true) (hat : a ≤ t) (htb : t ≤ b) : c.bodyEnd t ≤ b := by
  rcases Nat.eq_or_lt_of_le htb with rfl | hlt
  · rw [hb] at ho
    cases ho
  · exact h.ended ho hat hlt

end Chunk.Closed

/-- The move emits an instruction that opens a frame. -/
def Move.opensFrame : Move → Bool
  | .emit i => i.opcode = .pushFrame
  | _ => false

/-- A move that opens no frame leaves no body open. -/
theorem Move.Does.closed {m : Move} {σ σ' : Session} {d : Draft} {c : Chunk} (h : m.Does σ σ')
    (hm : m.opensFrame = false) (hd : σ'.draft.Grows d) (hc : d.finish = .ok c) :
    c.Closed σ.draft.position σ'.draft.position := by
  rw [h.position]
  cases m with
  | emit i =>
      refine .single ?_
      obtain ⟨j, hj, hr⟩ := acts_emit_at h hd hc
      have hop : j.opcode ≠ .pushFrame := by
        rw [(Draft.resolveInstruction_eq_ok hr).1]
        simpa [opensFrame] using hm
      simp [Chunk.opens, hj, hop]
  | constant v =>
      refine .single ?_
      obtain ⟨index, hi, -⟩ := acts_constant_at h hd hc
      simp [Chunk.opens, hi, Instruction.loadConst]
  | _ => exact .refl

/-- A row of moves that open no frame leaves no body open, if its pieces do not. -/
theorem Along.closed {K : Piece → Bool → Session → Session → Prop} {ms : List Move}
    {σ σ' : Session} {d : Draft} {c : Chunk}
    (hK : ∀ {p b σ σ'}, K p b σ σ' → σ.draft.Grows σ'.draft)
    (hclosed : ∀ {p b σ σ'}, K p b σ σ' → σ'.draft.Grows d →
      c.Closed σ.draft.position σ'.draft.position)
    (hms : ms.all (!·.opensFrame) = true) (h : Along K ms σ σ') (hd : σ'.draft.Grows d)
    (hc : d.finish = .ok c) : c.Closed σ.draft.position σ'.draft.position := by
  induction ms generalizing σ with
  | nil =>
      obtain rfl : σ = σ' := h
      exact .refl
  | cons m ms ih =>
      obtain ⟨σ₁, hm, h⟩ := h
      simp only [List.all_cons, Bool.and_eq_true, Bool.not_eq_true'] at hms
      have hgrow : σ₁.draft.Grows σ'.draft :=
        h.rel (R := fun σ σ' => σ.draft.Grows σ'.draft) .refl .trans Move.Does.grows hK
      refine Chunk.Closed.trans ?_ (ih hms.2 h) ?_ hgrow.position_le
      · rcases hm.does_or_piece with hm | ⟨p, b, rfl, hp⟩
        · exact hm.closed hms.1 (hgrow.trans hd) hc
        · exact hclosed hp (hgrow.trans hd)
      · rcases hm.does_or_piece with hm | ⟨p, b, rfl, hp⟩
        · exact hm.grows.position_le
        · exact (hK hp).position_le

theorem Enforces.frameless {e : Expr} {type : ValueType} {role : Role} {cs : List Move} {ok : Bool}
    (h : Enforces e type role cs ok) : cs.all (!·.opensFrame) = true := by
  cases h <;> rfl

theorem ReturnsUndef.frameless {s : Span} {ms : List Move} (h : ReturnsUndef s ms) :
    ms.all (!·.opensFrame) = true := by
  obtain ⟨hc⟩ := h
  simp only [List.all_append, List.all_cons, hc.frameless]
  rfl

theorem Closes.frameless {s : Span} {ends : Bool} {ms : List Move} (h : Closes s ends ms) :
    ms.all (!·.opensFrame) = true := by
  cases h with
  | returned => rfl
  | fallen h => exact h.frameless

/-- Only a subroutine opens a frame. -/
theorem Unfolds.frameless {p : Piece} {ms : List Move} {b : Bool} (h : Unfolds p ms b)
    (hp : ∀ head body, p ≠ .stmt (.sub head body)) : ms.all (!·.opensFrame) = true := by
  cases h with
  | sub | subParameter | subRedeclared => exact absurd rfl (hp _ _)
  | assignVar hc | assignVarMismatch hc | assignDeclare hc | assignDeclareMismatch hc | ret hc
  | bodyExpr hc =>
      simp only [List.all_append, List.all_cons, hc.frameless]
      rfl
  | @argsHeld _ _ p _ _ _ hc =>
      simp only [List.all_append, hc.frameless]
      cases p.copy <;> rfl
  | retUndef h => exact h.frameless
  | @next _ control => cases control <;> rfl
  | @checkpoint _ on => cases on <;> rfl
  | @call _ _ _ _ _ sub => cases h : sub.usesArgList <;> rfl
  | @cond _ _ _ rest => cases rest <;> rfl
  | @loop init condition step => cases init <;> cases condition <;> cases step <;> rfl
  | @package kind => cases kind <;> rfl
  | @bool v => cases v <;> rfl
  | @binary o => cases o <;> rfl
  | @unary o => cases o <;> rfl
  | _ => rfl

/-- **The bodies opened while a piece is lowered end before the piece does.** -/
theorem Runs.closed {p : Piece} {b : Bool} {σ σ' : Session} {d : Draft} {c : Chunk}
    (h : Runs Quiet p b σ σ') (hd : σ'.draft.Grows d) (hc : d.finish = .ok c) :
    c.Closed σ.draft.position σ'.draft.position := by
  refine h.ind (P := fun _ _ σ σ' => σ'.draft.Grows d →
    c.Closed σ.draft.position σ'.draft.position) ?_ hd
  intro p b ms σ σ' hu hq ha hd
  rcases p.other_or_sub with hp | ⟨head, body, rfl⟩
  · exact ha.closed (fun h => h.1.grows) (fun h => h.2) (hu.frameless hp) hd hc
  · obtain ⟨-, -, hclose, h₁, h₂, h₃, ⟨hrun, hbody⟩, h₅, h₆⟩ := hu.subRun hq ha
    obtain ⟨e₃, hlt, e₆, hjump, hframe, -⟩ := SubRun.layout hclose h₁ h₂ h₃ hrun.grows h₅ h₆ hd hc
    have g₆ := (h₆.grows_flat rfl).trans hd
    have hinner := Chunk.Closed.trans (hbody ((h₅.grows_flat hclose.pieces).trans g₆))
      ((h₅.does hclose.pieces).closed False.elim (fun h => h.elim) hclose.frameless g₆ hc)
      hrun.grows.position_le (Nat.le_of_lt hlt)
    refine ⟨fun {t} ho hle hlt => ?_, fun _ => by simp [Chunk.opens, hjump]⟩
    rcases Nat.lt_trichotomy t (σ.draft.position + 1) with ht | rfl | ht
    · obtain rfl : t = σ.draft.position := by omega
      simp [Chunk.opens, hjump] at ho
    · simp [Chunk.bodyEnd, hjump]
    · rw [e₆]
      exact hinner.ended ho (by omega) (by omega)

namespace Chunk.InBody

/-- Past closed code from a place of a body is another place of it, unless the body ends before or another
begins there. -/
theorem past {c : Chunk} {t a b : Nat} (ha : c.InBody t a) (h : c.Closed a b)
    (hb : c.opens b = false) (hab : a ≤ b) (hstop : b < c.bodyEnd t) : c.InBody t b := by
  obtain ⟨ho, hta, -, hin⟩ := ha
  refine ⟨ho, Nat.le_trans hta hab, hstop, fun t' ho' htt hle => ?_⟩
  rcases Nat.lt_or_ge a t' with hat | hta
  · exact h.ended_le hb ho' (Nat.le_of_lt hat) hle
  · exact Nat.le_trans (hin t' ho' htt hta) hab

/-- Between two places of a body lie places of it wherever the code between them is closed. -/
theorem between {c : Chunk} {t a b e : Nat} (ha : c.InBody t a) (he : c.InBody t e)
    (h₁ : c.Closed a b) (h₂ : c.Closed b e) (hab : a ≤ b) (hbe : b ≤ e) : c.InBody t b := by
  rcases Nat.eq_or_lt_of_le hbe with rfl | hlt
  · exact he
  · obtain ⟨-, -, hstop, -⟩ := he
    exact ha.past h₁ (h₂.first hlt) hab (Nat.lt_trans hlt hstop)

/-- From a place of a body on, the places where the code is closed are of the body until it ends. -/
theorem forward {c : Chunk} {t a b e : Nat} (ha : c.InBody t a) (hstop : c.bodyEnd t = e)
    (h₁ : c.Closed a b) (h₂ : c.Closed b e) (hab : a ≤ b) (hbe : b < e) : c.InBody t b :=
  ha.past h₁ (h₂.first hbe) hab (hstop ▸ hbe)

/-- A place inside a body. -/
theorem inside {c : Chunk} {t b e : Nat} (ho : c.opens t = true) (hstop : c.bodyEnd t = e)
    (h₁ : c.Closed (t + 1) b) (h₂ : c.Closed b e) (htb : t < b) (hbe : b < e) : c.InBody t b :=
  ⟨ho, Nat.le_of_lt htb, hstop ▸ hbe, fun _ ho' htt hle => h₁.ended_le (h₂.first hbe) ho' htt hle⟩

end Chunk.InBody

end StackScript
