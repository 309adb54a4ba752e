import StackScript.Proofs.Stack.Flow

/-!
# Places of the code and the operand stack

From the templates to the code of whole pieces.  While a template is followed, the height of the
code so far is that where the piece begins and what the moves have added (`Flowing`), so every label
of the template is marked at its landing, and each of its instructions is sound.

Where a piece stands is known from the pieces around it (`Stands`): in which body, and how far above
the labels of the loop around it.  In an expression the operands that come before the piece are
still on the stack, and `Waits` counts them.

* `Runs.gain`: the code of a piece leaves what the piece leaves.
* `Waits.stands`: what is known of where a piece stands.
* `Waits.placed`, `Program.placed`: every place of the code is sound, but for the jumps of `last` and
  `next`, which leave behind as many values as operands are waiting where they stand.
* `Program.Lowered.gain`: a piece leaves the stack deeper by what it leaves.
-/

namespace StackScript

open Move Scopes

/-! ### Along a template -/

/-- The session in the middle of a template that began at `σ`: how high the stack is and which
scopes are open. -/
structure Flowing (c : Chunk) (σ : Session) (S : Nat × List ScopeKind) (τ : Session) : Prop where
  height : c.height τ.draft.position = c.height σ.draft.position + S.1
  kinds : τ.scopes.stack.map (·.kind) = S.2 ++ σ.scopes.stack.map (·.kind)

theorem Flowing.refl {c : Chunk} {σ : Session} : Flowing c σ (0, []) σ := ⟨by simp, rfl⟩

section Template

variable {c : Chunk} {d : Draft} {inExpr : Bool} {landing : Nat} {ls : List Label}
  {S : Nat × List ScopeKind}

/-- A move changes the height of the code as the table says. -/
theorem Move.Does.height {m : Move} {σ σ' : Session} (h : m.Does σ σ')
    (hf : Fits inExpr landing ls S m) (hd : σ'.draft.Grows d) (hc : d.finish = .ok c) :
    c.height σ'.draft.position + S.1 = c.height σ.draft.position + (Move.after S m).1 := by
  rw [h.position]
  cases m with
  | emit i =>
      obtain ⟨j, hj, hr⟩ := acts_emit_at h hd hc
      obtain ⟨htakes, hleaves⟩ := Draft.resolveInstruction_stack hr
      have hle : i.takes ≤ S.1 := hf.1
      have hafter : (Move.after S (.emit i)).1 = S.1 - i.takes + i.leaves := rfl
      rw [show (Move.emit i).width = 1 from rfl, Chunk.height_succ hj, hafter, Instruction.net,
        htakes, hleaves]
      omega
  | constant v =>
      obtain ⟨index, hi, -⟩ := acts_constant_at h hd hc
      have hafter : (Move.after S (.constant v)).1 = S.1 + 1 := rfl
      rw [show (Move.constant v).width = 1 from rfl, Chunk.height_succ hi, hafter, Instruction.net]
      simp [Instruction.takes, Instruction.leaves, Instruction.loadConst]
      omega
  | piece p b => exact h.elim
  | _ => rfl

/-- A move opens and leaves the scopes that the table says. -/
theorem Move.Does.kinds {m : Move} {σ σ' : Session} {ks : List ScopeKind} (h : m.Does σ σ')
    (hf : Fits inExpr landing ls S m) (hk : σ.scopes.stack.map (·.kind) = S.2 ++ ks) :
    σ'.scopes.stack.map (·.kind) = (Move.after S m).2 ++ ks := by
  cases m with
  | enter kind =>
      obtain rfl := h
      simp [Scopes.enter, Move.after, hk]
  | leave =>
      obtain rfl := h
      have hne : S.2 ≠ [] := hf
      show σ.scopes.stack.tail.map (·.kind) = S.2.tail ++ ks
      rw [List.map_tail, hk, List.tail_append_of_ne_nil hne]
  | piece p b => exact h.elim
  | _ =>
      rw [(h.kept (by simp) (by simp)).kinds, hk]
      rfl

/-- A move carries on the height and the scopes. -/
theorem Move.Does.flowing {m : Move} {σ τ τ' : Session} (h : m.Does τ τ')
    (hf : Fits inExpr landing ls S m) (hd : τ'.draft.Grows d) (hc : d.finish = .ok c)
    (hτ : Flowing c σ S τ) : Flowing c σ (Move.after S m) τ' := by
  refine ⟨?_, h.kinds hf hτ.kinds⟩
  have h₁ := h.height hf hd hc
  have h₂ := hτ.height
  omega

/-- **Along a template the height is that of the moves made so far**, if its pieces leave what they
should. -/
theorem Along.flowing {K : Piece → Bool → Session → Session → Prop} {ms : List Move}
    {σ τ σ' : Session} (hrun : ∀ {q b τ τ'}, K q b τ τ' → Runs Quiet q b τ τ')
    (hgain : ∀ {q b τ τ'}, K q b τ τ' → τ'.draft.Grows d →
      c.height τ'.draft.position = c.height τ.draft.position + q.gain)
    (ha : Along K ms τ σ') (hf : Flow inExpr landing ls S ms) (hd : σ'.draft.Grows d)
    (hc : d.finish = .ok c) (hτ : Flowing c σ S τ) : Flowing c σ (ms.foldl Move.after S) σ' := by
  induction ms generalizing τ S with
  | nil =>
      obtain rfl : τ = σ' := ha
      exact hτ
  | cons m ms ih =>
      obtain ⟨τ₁, hm, ha⟩ := ha
      obtain ⟨hfit, hf⟩ := hf
      have hd₁ : τ₁.draft.Grows d := (ha.grows_of fun h => (hrun h).grows).trans hd
      refine ih ha hf ?_
      rcases hm.does_or_piece with hm | ⟨q, b, rfl, hq⟩
      · exact hm.flowing hfit hd₁ hc hτ
      · refine ⟨?_, ?_⟩
        · have hq := hgain hq hd₁
          have hafter : (Move.after S (.piece q b)).1 = S.1 + q.gain := rfl
          have := hτ.height
          omega
        · rw [(hrun hq).kept.kinds, hτ.kinds]
          rfl

end Template

/-! ### What a piece leaves -/

/-- The heights at the ends of the parts of a subroutine are all the same. -/
theorem SubRun.heights {c : Chunk} {d : Draft} {K : Piece → Bool → Session → Session → Prop}
    {s : Span} {ends : Bool} {params locals : UInt16} {close : List Move} {target : Nat}
    {σ σ₃ σ₄ σ₅ : Session} (hclose : Closes s ends close) (h₅ : Along K close σ₄ σ₅)
    (hd : σ₅.draft.Grows d) (hc : d.finish = .ok c) (e₃ : σ₃.draft.position = σ.draft.position + 2)
    (hjump : c.instructions[σ.draft.position]? = some ⟨.jump, some (.offset target)⟩)
    (hopen : c.instructions[σ.draft.position + 1]? = some (.pushFrame params locals))
    (hgain : c.height σ₄.draft.position = c.height σ₃.draft.position) :
    c.height (σ.draft.position + 1) = c.height σ.draft.position ∧
      c.height σ₃.draft.position = c.height σ.draft.position ∧
      c.height σ₅.draft.position = c.height σ.draft.position := by
  have hheight₁ : c.height (σ.draft.position + 1) = c.height σ.draft.position := by
    rw [Chunk.height_succ hjump]
    exact Int.add_zero _
  have hheight₃ : c.height σ₃.draft.position = c.height (σ.draft.position + 1) := by
    rw [e₃, Chunk.height_succ hopen]
    exact Int.add_zero _
  have hheight₅ : c.height σ₅.draft.position = c.height σ₄.draft.position := by
    have hflow : Flow true 0 [] (0, []) close := hclose.flow
    have := ((h₅.does hclose.pieces).flowing False.elim False.elim hflow hd hc .refl).height
    rw [hclose.after] at this
    rw [this]
    exact Int.add_zero _
  exact ⟨hheight₁, hheight₃.trans hheight₁, by rw [hheight₅, hgain, hheight₃, hheight₁]⟩

/-- **The code of a piece leaves what the piece leaves.** -/
theorem Runs.gain {c : Chunk} {d : Draft} {p : Piece} {b : Bool} {σ σ' : Session}
    (h : Runs Quiet p b σ σ') (hd : σ'.draft.Grows d) (hc : d.finish = .ok c) :
    c.height σ'.draft.position = c.height σ.draft.position + p.gain := by
  refine h.ind (P := fun p _ σ σ' => σ'.draft.Grows d →
    c.height σ'.draft.position = c.height σ.draft.position + p.gain) ?_ hd
  intro p b ms σ σ' hu hq ha hd
  rcases p.other_or_sub with hp | ⟨head, body, rfl⟩
  · have hgain := (ha.flowing And.left And.right (hu.flow hq ha hp) hd hc .refl).height
    rwa [hu.after hq ha hp] at hgain
  · obtain ⟨-, -, hclose, h₁, h₂, h₃, ⟨hrun, hgain⟩, h₅, h₆⟩ := hu.subRun hq ha
    obtain ⟨e₃, -, e₆, hjump, hopen, -⟩ := SubRun.layout hclose h₁ h₂ h₃ hrun.grows h₅ h₆ hd hc
    have g₅ := (h₆.grows_flat rfl).trans hd
    have hgain := hgain ((h₅.grows_flat hclose.pieces).trans g₅)
    obtain ⟨-, -, hheight⟩ := SubRun.heights hclose h₅ g₅ hc e₃ hjump hopen
      (by rw [hgain]; exact Int.add_zero _)
    rw [e₆, hheight]
    exact (Int.add_zero _).symm

/-! ### Operands that wait -/

/-- Lowering `p` from `σ` to `σ'` lowers the piece from one session to the other on the way, and
while it does, this many operands of the expressions around the piece are on the stack: those that
are lowered before it. -/
inductive Waits (p : Piece) (b : Bool) (σ σ' : Session) :
    Nat → Piece → Bool → Session → Session → Prop where
  | self : Waits p b σ σ' 0 p b σ σ'
  | part {k : Nat} {q r : Piece} {e f : Bool} {ms ns : List Move} {τ τ' υ υ' : Session} :
      Waits p b σ σ' k q e τ τ' → Unfolds q (ms ++ .piece r f :: ns) e → Along Lowers ms τ υ →
      Lowers r f υ υ' → Along Lowers ns υ' τ' →
      Waits p b σ σ' (if q.inExpr then k + operands ms else 0) r f υ υ'

section Waits

variable {p q : Piece} {b e : Bool} {k : Nat} {σ σ' τ τ' : Session}

/-- A piece for which operands wait is visited. -/
theorem Waits.visits (h : Waits p b σ σ' k q e τ τ') : Visits p b σ σ' q e τ τ' := by
  induction h with
  | self => exact .self
  | part _ hu h₁ hq h₂ ih => exact .part ih ⟨_, _, hu, h₁, hq, h₂⟩

/-- For every piece that is visited some number of operands waits. -/
theorem Visits.waits (h : Visits p b σ σ' q e τ τ') : ∃ k, Waits p b σ σ' k q e τ τ' := by
  induction h with
  | self => exact ⟨0, .self⟩
  | part _ hpart ih =>
      obtain ⟨k, ih⟩ := ih
      obtain ⟨ms, ns, hu, h₁, hq, h₂⟩ := hpart
      exact ⟨_, .part ih hu h₁ hq h₂⟩

end Waits

/-! ### Labels and loops -/

/-- The label is marked inside the body opened at `t`, at a place that has this height. -/
def Draft.MarkedAt (d : Draft) (c : Chunk) (t : Nat) (h : Int) (l : Label) : Prop :=
  ∃ m, d.offset? l = some m ∧ c.Interior t m ∧ c.height m = h

/-- If there is a loop around, its labels are marked where the stack is `k` values lower than
here. -/
def Session.AtLoop (σ : Session) (c : Chunk) (d : Draft) (t k : Nat) : Prop :=
  ∀ control, σ.scopes.innermostLoop? = some control → ∀ l ∈ [control.done, control.next],
    d.MarkedAt c t (c.height σ.draft.position - k) l

/-- The loop around a place is the innermost one that the template has opened, or that around the
template. -/
theorem Scopes.innermostLoop?_of_kinds {s : Scopes} {ks : List ScopeKind} {control : LoopControl}
    {r : List Scope} (hk : r.map (·.kind) = ks ++ s.stack.map (·.kind))
    (h : innermostLoop?.go r = some control) :
    .loop control ∈ ks ∨ (hasLoop ks = false ∧ s.innermostLoop? = some control) := by
  induction ks generalizing r with
  | nil =>
      refine .inr ⟨rfl, ?_⟩
      have hsame : Scopes.innermostLoop? ⟨r⟩ = s.innermostLoop? := innermostLoop?_congr hk
      rw [← hsame]
      exact h
  | cons k ks ih =>
      cases r with
      | nil => simp at hk
      | cons a r =>
          simp only [List.map_cons, List.cons_append, List.cons.injEq] at hk
          obtain ⟨rfl, hk⟩ := hk
          unfold innermostLoop?.go at h
          cases ha : a.kind with
          | subroutine type => simp [ha] at h
          | loop control' =>
              simp only [ha, Option.some.injEq] at h
              exact .inl (by simp [h])
          | block =>
              simp only [ha] at h
              rcases ih hk h with hmem | ⟨hno, hout⟩
              · exact .inl (List.mem_cons_of_mem _ hmem)
              · exact .inr ⟨by simpa [hasLoop, ScopeKind.control?] using hno, hout⟩

/-- An open loop is among the scopes. -/
theorem Move.hasLoop_of_mem {ks : List ScopeKind} {control : LoopControl}
    (h : .loop control ∈ ks) : hasLoop ks = true :=
  List.any_eq_true.mpr ⟨_, h, rfl⟩

/-- A scope that is open behind moves was open before or has been opened by one of them. -/
theorem Move.entered_of_after {ms : List Move} {S : Nat × List ScopeKind} {kind : ScopeKind}
    (h : kind ∈ (ms.foldl Move.after S).2) : kind ∈ S.2 ∨ .enter kind ∈ ms := by
  induction ms generalizing S with
  | nil => exact .inl h
  | cons m ms ih =>
      rcases ih h with h | h
      · cases m with
        | enter kind' =>
            rcases List.mem_cons.mp h with rfl | h
            · exact .inr (by simp)
            · exact .inl h
        | leave => exact .inl (List.mem_of_mem_tail h)
        | _ => exact .inl h
      · exact .inr (List.mem_cons_of_mem _ h)

section Entered

variable {inExpr : Bool} {landing : Nat} {ls : List Label} {ms : List Move}
  {S : Nat × List ScopeKind}

/-- A move of a template that is as it should be is as it should be at some height. -/
theorem Move.Flow.fits {m : Move} (hf : Flow inExpr landing ls S ms) (hm : m ∈ ms) :
    ∃ S', Fits inExpr landing ls S' m := by
  induction ms generalizing S with
  | nil => cases hm
  | cons m' ms ih =>
      rcases List.mem_cons.mp hm with rfl | hm
      · exact ⟨S, hf.1⟩
      · exact ih hf.2 hm

/-- Every loop that a template has opened has labels that the template marks. -/
theorem Move.Flow.loops (hf : Flow inExpr landing ls S ms)
    (hS : ∀ {control}, .loop control ∈ S.2 → ∀ l ∈ [control.done, control.next], l ∈ ls)
    {control : LoopControl} (h : .loop control ∈ (ms.foldl Move.after S).2) :
    ∀ l ∈ [control.done, control.next], l ∈ ls := by
  rcases entered_of_after h with h | h
  · exact hS h
  · obtain ⟨_, hfit⟩ := hf.fits h
    have hfit : control.done ∈ ls ∧ control.next ∈ ls := hfit
    simpa using hfit

/-- No template opens the scope of a subroutine, but for that of a subroutine. -/
theorem Move.Flow.subless {kind : ScopeKind} (hf : Flow inExpr landing ls (0, []) ms)
    (h : kind ∈ (ms.foldl Move.after (0, [])).2) : kind.isSubroutine = false := by
  rcases entered_of_after h with h | h
  · cases h
  · obtain ⟨_, hfit⟩ := hf.fits h
    cases kind with
    | subroutine type => exact hfit.elim
    | _ => rfl

end Entered

/-- Where a routine begins there is no loop around. -/
theorem Session.AtLoop.of_entered {c : Chunk} {d : Draft} {t k : Nat} {s : Scopes}
    {type : ValueType} {σ : Session} (h : Kept (s.enter (.subroutine type)).stack σ.scopes.stack) :
    σ.AtLoop c d t k := by
  intro control hcontrol
  rw [innermostLoop?_congr h.kinds] at hcontrol
  cases hcontrol

/-! ### Where a piece stands -/

/-- What is known of where a piece stands: it begins and ends inside the body opened at `t`, and `k`
values above the labels of the loop around it. -/
structure Stands (c : Chunk) (d : Draft) (k : Nat) (p : Piece) (t : Nat) (σ σ' : Session) :
    Prop where
  start : c.Interior t σ.draft.position
  stop : c.Interior t σ'.draft.position
  above : c.height t ≤ c.height σ.draft.position
  idle : p.inExpr = false → k = 0
  atLoop : σ.AtLoop c d t k
  incoming : ∀ l ∈ p.incoming, d.MarkedAt c t (c.height σ.draft.position) l

/-- A place between two moves of a template is inside the body that the piece is in. -/
theorem Along.interior {c : Chunk} {d : Draft} {ms ns : List Move} {t : Nat} {σ τ σ' : Session}
    (h₁ : Along (Runs Quiet) ms σ τ) (h₂ : Along (Runs Quiet) ns τ σ')
    (hframe : (ms ++ ns).all (!·.opensFrame) = true) (hd : σ'.draft.Grows d)
    (hc : d.finish = .ok c) (hfrom : c.Interior t σ.draft.position)
    (hto : c.Interior t σ'.draft.position) : c.Interior t τ.draft.position := by
  rw [List.all_append, Bool.and_eq_true] at hframe
  have hle₁ := h₁.grows.position_le
  have hle₂ := h₂.grows.position_le
  have hbehind := hfrom.behind
  refine ⟨hfrom.inBody.between hto.inBody ?_ ?_ hle₁ hle₂, by omega, fun ht => ?_⟩
  · exact h₁.closed Runs.grows (fun h hd => h.closed hd hc) hframe.1 (h₂.grows.trans hd) hc
  · exact h₂.closed Runs.grows (fun h hd => h.closed hd hc) hframe.2 hd hc
  · have := hto.before ht
    omega

section Template

variable {c : Chunk} {d : Draft} {k t : Nat} {p : Piece} {b : Bool} {ms ms₁ ms₂ : List Move}
  {m : Move} {σ τ τ' σ' : Session}

/-- The session before a move of a template. -/
theorem Unfolds.flowing (hu : Unfolds p (ms₁ ++ m :: ms₂) b) (hq : Quiet (ms₁ ++ m :: ms₂))
    (h₁ : Along (Runs Quiet) ms₁ σ τ) (hm : m.Acts (Runs Quiet) τ τ')
    (h₂ : Along (Runs Quiet) ms₂ τ' σ') (hp : ∀ head body, p ≠ .stmt (.sub head body))
    (hd : σ'.draft.Grows d) (hc : d.finish = .ok c) :
    Flowing c σ (ms₁.foldl Move.after (0, [])) τ := by
  have hrest : Along (Runs Quiet) (m :: ms₂) τ σ' := ⟨τ', hm, h₂⟩
  obtain ⟨hf, -⟩ := flow_append.mp (hu.flow hq (along_append.mpr ⟨τ, h₁, hrest⟩) hp)
  exact h₁.flowing id (fun h hd => h.gain hd hc) hf (hrest.grows.trans hd) hc .refl

/-- The labels that a template marks, and those that are marked for it, are marked at its
landing. -/
theorem Stands.marked (hs : Stands c d k p t σ σ') (hu : Unfolds p ms b) (hq : Quiet ms)
    (ha : Along (Runs Quiet) ms σ σ') (hp : ∀ head body, p ≠ .stmt (.sub head body))
    (hd : σ'.draft.Grows d) (hc : d.finish = .ok c) (hfew : d.labels.size ≤ UInt32.size)
    {l : Label} (hl : l ∈ ms.flatMap Move.targets ++ p.incoming) :
    d.MarkedAt c t (c.height σ.draft.position + p.landing) l := by
  rcases List.mem_append.mp hl with hl | hl
  · obtain ⟨m, hmem, hlm⟩ := List.mem_flatMap.mp hl
    obtain ⟨ms₁, ms₂, rfl⟩ := List.append_of_mem hmem
    obtain ⟨τ, h₁, τ', hm, h₂⟩ := along_append.mp ha
    have hrest : Along (Runs Quiet) (m :: ms₂) τ σ' := ⟨τ', hm, h₂⟩
    have hin := h₁.interior hrest (hu.frameless hp) hd hc hs.start hs.stop
    have g : τ'.draft.Grows d := h₂.grows.trans hd
    have hτ := hu.flowing hq h₁ hm h₂ hp hd hc
    obtain ⟨-, hfit, -⟩ := flow_append.mp (hu.flow hq ha hp)
    generalize ms₁.foldl Move.after (0, []) = S at hfit hτ
    obtain ⟨h, ks⟩ := S
    cases m with
    | mark l' =>
        obtain rfl : l = l' := by simpa [Move.targets] using hlm
        obtain rfl : h = p.landing := hfit
        exact ⟨_, acts_mark_at hm g, hin, hτ.height⟩
    | newMarkedLabel l' =>
        obtain rfl : l = l' := by simpa [Move.targets] using hlm
        obtain rfl : h = p.landing := hfit
        exact ⟨_, acts_newMarkedLabel_at hm g hfew, hin, hτ.height⟩
    | _ => simp [Move.targets] at hlm
  · -- Only the rest of a conditional has a label from outside, and it lands where it begins.
    have hlanding : p.landing = 0 := by
      cases p with
      | branches => rfl
      | _ => simp [Piece.incoming] at hl
    simpa [hlanding] using hs.incoming l hl

/-- The labels that `last` and `next` look up are those of the loop around them. -/
theorem Stands.sought (hs : Stands c d k p t σ σ') (hu : Unfolds p ms b) (hq : Quiet ms)
    (ha : Along (Runs Quiet) ms σ σ') (hp : ∀ head body, p ≠ .stmt (.sub head body))
    (hd : σ'.draft.Grows d) (hc : d.finish = .ok c) {l : Label}
    (hl : l ∈ ms.flatMap Move.sought) : d.MarkedAt c t (c.height σ.draft.position - k) l := by
  obtain ⟨m, hmem, hlm⟩ := List.mem_flatMap.mp hl
  obtain ⟨ms₁, ms₂, rfl⟩ := List.append_of_mem hmem
  obtain ⟨τ, h₁, τ', hm, h₂⟩ := along_append.mp ha
  have hτ := hu.flowing hq h₁ hm h₂ hp hd hc
  obtain ⟨-, hfit, -⟩ := flow_append.mp (hu.flow hq ha hp)
  generalize ms₁.foldl Move.after (0, []) = S at hfit hτ
  obtain ⟨h, ks⟩ := S
  cases m with
  | innermost found =>
      cases found with
      | none => simp [Move.sought] at hlm
      | some control =>
          obtain rfl : ks = [] := hfit
          obtain ⟨hfound, -⟩ := hm
          refine hs.atLoop control ?_ l hlm
          rw [← hfound]
          exact (innermostLoop?_congr hτ.kinds).symm
  | _ => simp [Move.sought] at hlm

/-- **Where the parts of a piece stand.** -/
theorem Stands.part {q : Piece} {e : Bool} (hs : Stands c d k p t σ σ')
    (hu : Unfolds p (ms₁ ++ .piece q e :: ms₂) b) (hq : Quiet (ms₁ ++ .piece q e :: ms₂))
    (h₁ : Along (Runs Quiet) ms₁ σ τ) (hrun : Runs Quiet q e τ τ')
    (h₂ : Along (Runs Quiet) ms₂ τ' σ') (hp : ∀ head body, p ≠ .stmt (.sub head body))
    (hd : σ'.draft.Grows d) (hc : d.finish = .ok c) (hfew : d.labels.size ≤ UInt32.size) :
    Stands c d (if p.inExpr then k + operands ms₁ else 0) q t τ τ' := by
  have hrest : Along (Runs Quiet) (.piece q e :: ms₂) τ σ' := ⟨τ', hrun, h₂⟩
  have ha : Along (Runs Quiet) (ms₁ ++ .piece q e :: ms₂) σ σ' := along_append.mpr ⟨τ, h₁, hrest⟩
  have hfirst : Along (Runs Quiet) (ms₁ ++ [Move.piece q e]) σ τ' :=
    along_append.mpr ⟨τ, h₁, τ', hrun, rfl⟩
  have hframe := hu.frameless hp
  have hτ := hu.flowing (m := .piece q e) hq h₁ hrun h₂ hp hd hc
  obtain ⟨hf₁, ⟨hlands, hincoming⟩, -⟩ := flow_append.mp (hu.flow hq ha hp)
  -- The template lowers a piece, so it does not look for a loop.
  have hmarked {l : Label} (hl : l ∈ (ms₁ ++ .piece q e :: ms₂).flatMap Move.targets ++
      p.incoming ++ (ms₁ ++ .piece q e :: ms₂).flatMap Move.sought) :
      d.MarkedAt c t (c.height σ.draft.position + p.landing) l := by
    rcases List.mem_append.mp hl with hl | hl
    · exact hs.marked hu hq ha hp hd hc hfew hl
    · obtain ⟨name, control, s, -, -, heq⟩ := hu.sought hl
      have hpieces := @pieces_exit name control
      rw [← heq] at hpieces
      simp [pieces_append, pieces] at hpieces
  have hloops := @Flow.loops _ _ _ _ _ hf₁ (by simp)
  have hoperands := hu.operands
  generalize ms₁.foldl Move.after (0, []) = S at hlands hincoming hτ hloops hoperands
  obtain ⟨h, ks⟩ := S
  refine ⟨h₁.interior hrest hframe hd hc hs.start hs.stop,
    hfirst.interior h₂ (by simpa using hframe) hd hc hs.start hs.stop, ?_, fun hin => ?_,
    fun control hcontrol l hl => ?_, fun l hl => ?_⟩
  · have := hτ.height
    have := hs.above
    omega
  · cases hp : p.inExpr with
    | false => rfl
    | true =>
        rw [(hoperands hp).2] at hin
        cases hin
  · cases hp : p.inExpr with
    | true =>
        obtain ⟨rfl, rfl⟩ := Prod.mk.inj (hoperands hp).1
        have hout : σ.scopes.innermostLoop? = some control := by
          rw [← hcontrol]
          exact (innermostLoop?_congr hτ.kinds).symm
        have hheight : c.height τ.draft.position - (k + operands ms₁ : Nat) =
            c.height σ.draft.position - k := by
          have := hτ.height
          omega
        simp only [if_true, hheight]
        exact hs.atLoop control hout l hl
    | false =>
        simp only [Bool.false_eq_true, if_false, Int.ofNat_zero, Int.sub_zero]
        rcases Scopes.innermostLoop?_of_kinds hτ.kinds hcontrol with hmem | ⟨hno, hout⟩
        · rw [Move.Lands, if_pos (hasLoop_of_mem hmem)] at hlands
          rw [hτ.height, hlands]
          exact hmarked (hloops hmem l hl)
        · rw [Move.Lands, if_neg (by simp [hno])] at hlands
          have hheight : c.height τ.draft.position = c.height σ.draft.position := by
            rw [hτ.height, hlands hp]
            exact Int.add_zero _
          have := hs.atLoop control hout l hl
          rw [hs.idle hp] at this
          simpa [hheight] using this
  · obtain ⟨hmem, rfl⟩ := hincoming l hl
    rw [hτ.height]
    exact hmarked hmem

end Template

/-! ### Instructions of a template -/

section Template

variable {c : Chunk} {d : Draft} {k t : Nat} {p : Piece} {b : Bool} {ms₁ ms₂ : List Move}
  {m : Move} {σ τ τ' σ' : Session}

/-- An instruction that a template emits itself.  If it jumps to labels that are marked `k` values
lower, it does nothing else. -/
theorem Move.Does.sound {inExpr : Bool} {landing h : Nat} {ls : List Label} {ks : List ScopeKind}
    (hm : m.Does τ τ') (hfit : Fits inExpr landing ls (h, ks) m) (hd : τ'.draft.Grows d)
    (hc : d.finish = .ok c) (hlt : τ.draft.position < τ'.draft.position)
    (hτ : Flowing c σ (h, ks) τ) (hle : c.height t ≤ c.height σ.draft.position)
    (hin : m ≠ .op .ret → c.InBody t τ'.draft.position)
    (honly : m.jumps = true → k = 0 ∨ ∃ l, m = .emit (.jump l))
    (hls : m.jumps = true → ∀ l ∈ ls,
      d.MarkedAt c t (c.height σ.draft.position + landing - k) l) :
    c.Sound (if m.jumps then k else 0) t τ.draft.position := by
  have hpos := hm.position
  have hheight := hτ.height
  cases m with
  | emit i =>
      obtain ⟨j, hj, hr⟩ := acts_emit_at hm hd hc
      obtain ⟨htakes, hleaves⟩ := Draft.resolveInstruction_stack hr
      obtain ⟨hop, ho⟩ := Draft.resolveInstruction_eq_ok hr
      obtain ⟨hfound, hhalt, hbranch⟩ := hfit
      have hjumps : (Move.emit i).jumps = i.branches := rfl
      have hsame : j.branches = i.branches := by
        rw [Instruction.branches, Instruction.branches, hop]
      -- A branch lands where its label is marked, which is one that the template may jump to.
      have htarget {m : Nat} (hb : j.branches = true) (hm : j.operand = some (.offset m)) :
          c.Interior t m ∧ c.height m + k = c.height τ.draft.position + j.net := by
        rw [hsame] at hb
        obtain ⟨hland, l, hl, hlabel⟩ := hbranch hb
        obtain ⟨m', hoff, hinm, hm'⟩ := hls hb l hl
        rw [Instruction.operand_of_label hlabel] at ho
        obtain ⟨offset, hoff', htarget⟩ := ho
        obtain rfl : m' = offset := Option.some.inj (hoff.symm.trans hoff')
        obtain rfl : m = m' := by
          rw [htarget] at hm
          simpa using hm.symm
        refine ⟨hinm, ?_⟩
        rw [hm', hheight, Instruction.net, htakes, hleaves]
        omega
      refine ⟨⟨j, hj, by omega, fun h => absurd (hop ▸ h) hhalt⟩, fun {i' m'} hi' hflows => ?_,
        fun {i' m'} hi' hb ho' => ?_⟩
      · obtain rfl : j = i' := Option.some.inj (hj.symm.trans hi')
        rcases hflows.cases with ⟨rfl, hnot⟩ | ⟨hb, hoffset⟩
        · refine ⟨hpos ▸ hin fun hret => ?_, ?_⟩
          · obtain rfl : i = .bare .ret := Move.emit.inj hret
            simp [Instruction.Flows, hop, Instruction.bare] at hflows
          -- A jump that leaves values behind is unconditional, so that control does not go on behind it.
          · have hzero : (if (Move.emit i).jumps = true then k else 0) = 0 := by
              split
              · rename_i hb
                rcases honly hb with hk | ⟨l, hl⟩
                · exact hk
                · obtain rfl := Move.emit.inj hl
                  exact absurd hop hnot
              · rfl
            rw [Chunk.height_succ hj, hzero]
            exact Int.add_zero _
        · obtain ⟨hinm, hm⟩ := htarget hb hoffset
          rw [hjumps, ← hsame, if_pos hb]
          exact ⟨hinm.inBody, hm⟩
      · obtain rfl : j = i' := Option.some.inj (hj.symm.trans hi')
        exact (htarget hb ho').1
  | constant v =>
      obtain ⟨index, hi, -⟩ := acts_constant_at hm hd hc
      refine ⟨⟨_, hi, ?_, by simp [Instruction.loadConst]⟩, fun {i' m'} hi' hflows => ?_,
        fun {i' m'} hi' hb _ => ?_⟩
      · simp [Instruction.takes, Instruction.loadConst]
        omega
      · obtain rfl := Option.some.inj (hi.symm.trans hi')
        obtain rfl : m' = τ.draft.position + 1 := hflows
        refine ⟨hpos ▸ hin (by simp [Move.op]), ?_⟩
        rw [Chunk.height_succ hi]
        exact Int.add_zero _
      · obtain rfl := Option.some.inj (hi.symm.trans hi')
        simp [Instruction.branches, Instruction.loadConst] at hb
  | piece p b => exact hm.elim
  | _ =>
      have hpos : τ'.draft.position = τ.draft.position := hpos
      omega

/-- **An instruction of a piece's own template is sound**, unless it is the jump of `last` or `next`:
then it leaves behind the `k` values that are waiting. -/
theorem Stands.sound (hs : Stands c d k p t σ σ') (hu : Unfolds p (ms₁ ++ m :: ms₂) b)
    (hq : Quiet (ms₁ ++ m :: ms₂)) (h₁ : Along (Runs Quiet) ms₁ σ τ) (hm : m.Does τ τ')
    (h₂ : Along (Runs Quiet) ms₂ τ' σ') (hp : ∀ head body, p ≠ .stmt (.sub head body))
    (hd : σ'.draft.Grows d) (hc : d.finish = .ok c) (hfew : d.labels.size ≤ UInt32.size)
    (hlt : τ.draft.position < τ'.draft.position) :
    c.Sound 0 t τ.draft.position ∨ ∃ name s, (name = "last" ∨ name = "next") ∧
      p = .expr (.call name [] s) ∧ τ.draft.position + 2 = σ'.draft.position ∧
      c.Sound k t τ.draft.position := by
  have hacts : m.Acts (Runs Quiet) τ τ' := hm.mono fun _ h => h.elim
  have ha : Along (Runs Quiet) (ms₁ ++ m :: ms₂) σ σ' := along_append.mpr ⟨τ, h₁, τ', hacts, h₂⟩
  have hτ := hu.flowing hq h₁ hacts h₂ hp hd hc
  obtain ⟨-, hfit, -⟩ := flow_append.mp (hu.flow hq ha hp)
  have hin : c.Interior t τ'.draft.position := by
    have hfirst : Along (Runs Quiet) (ms₁ ++ [m]) σ τ' :=
      along_append.mpr ⟨τ, h₁, τ', hacts, rfl⟩
    exact hfirst.interior h₂ (by simpa using hu.frameless hp) hd hc hs.start hs.stop
  have gτ' : τ'.draft.Grows d := h₂.grows.trans hd
  have hmarked {l : Label} := @Stands.marked _ _ _ _ _ _ _ _ _ hs hu hq ha hp hd hc hfew l
  have hsought {l : Label} := @Stands.sought _ _ _ _ _ _ _ _ _ hs hu hq ha hp hd hc l
  -- Only `last` and `next` jump to labels of the loop around them, and they jump to no other.
  by_cases hexit : ∃ l, l ∈ (ms₁ ++ m :: ms₂).flatMap Move.sought
  · obtain ⟨l, hl⟩ := hexit
    obtain ⟨name, control, s, hn, rfl, heq⟩ := hu.sought hl
    have htargets : (ms₁ ++ m :: ms₂).flatMap Move.targets = [] := heq ▸ targets_exit
    have hsound := hm.sound (k := k) hfit gτ' hc hlt hτ hs.above (fun _ => hin.inBody)
      (fun hj => .inr ⟨_, (exit_split heq.symm hj).1⟩) (fun _ l hl => by
        rw [htargets] at hl
        simpa [Piece.landing] using hsought (by simpa [Piece.incoming] using hl))
    cases hj : m.jumps with
    | false => exact .inl (by simpa [hj] using hsound)
    | true =>
        refine .inr ⟨name, s, hn, rfl, ?_, by simpa [hj] using hsound⟩
        obtain ⟨rfl, rfl⟩ := exit_split heq.symm hj
        have h₁ : τ'.draft.position = τ.draft.position + 1 := hm.position
        have h₂ : σ'.draft.position = τ'.draft.position + 1 := h₂.position rfl
        omega
  · refine .inl ?_
    have hsound := hm.sound (k := 0) hfit gτ' hc hlt hτ hs.above (fun _ => hin.inBody)
      (fun _ => .inl rfl) (fun _ l hl => by
        rcases List.mem_append.mp hl with hl | hl
        · simpa using hmarked hl
        · exact absurd ⟨l, hl⟩ hexit)
    simpa using hsound

end Template

/-! ### Subroutines -/

/-- The place of a frame is of the body it opens. -/
theorem Chunk.InBody.self {c : Chunk} {t : Nat} (ho : c.opens t = true) (h : t < c.bodyEnd t) :
    c.InBody t t :=
  ⟨ho, Nat.le_refl t, h, fun _ _ h₁ h₂ => absurd h₁ (Nat.not_lt.mpr h₂)⟩

/-- The statements of a subroutine begin and end inside its body. -/
theorem SubRun.interior {c : Chunk} {d : Draft} {K : Piece → Bool → Session → Session → Prop}
    {q : Piece} {b : Bool} {s : Span} {ends : Bool} {params locals : UInt16} {close : List Move}
    {σ σ' σ₃ σ₄ σ₅ : Session} (hrun : Runs Quiet q b σ₃ σ₄) (hclose : Closes s ends close)
    (h₅ : Along K close σ₄ σ₅) (hd : σ₅.draft.Grows d) (hc : d.finish = .ok c)
    (e₃ : σ₃.draft.position = σ.draft.position + 2)
    (e₆ : σ'.draft.position = σ₅.draft.position)
    (hjump : c.instructions[σ.draft.position]? =
      some ⟨.jump, some (.offset σ'.draft.position)⟩)
    (hopen : c.instructions[σ.draft.position + 1]? = some (.pushFrame params locals)) :
    c.opens (σ.draft.position + 1) = true ∧
      c.bodyEnd (σ.draft.position + 1) = σ₅.draft.position ∧
      c.Interior (σ.draft.position + 1) σ₃.draft.position ∧
      c.Interior (σ.draft.position + 1) σ₄.draft.position := by
  have ho : c.opens (σ.draft.position + 1) = true := by
    simp [Chunk.opens, hopen, Instruction.pushFrame]
  have hstop : c.bodyEnd (σ.draft.position + 1) = σ₅.draft.position := by
    simp [Chunk.bodyEnd, hjump, e₆]
  have hle := hrun.grows.position_le
  have hwidth := h₅.position hclose.pieces
  have htwo := hclose.width
  have h₃ := hrun.closed ((h₅.grows_flat hclose.pieces).trans hd) hc
  have h₄ : c.Closed σ₄.draft.position σ₅.draft.position :=
    (h₅.does hclose.pieces).closed False.elim (fun h => h.elim) hclose.frameless hd hc
  rw [e₃] at h₃
  refine ⟨ho, hstop, ⟨?_, by omega, fun _ => by omega⟩,
    ⟨.inside ho hstop h₃ h₄ (by omega) (by omega), by omega, fun _ => by omega⟩⟩
  rw [e₃]
  exact .inside ho hstop .refl (h₃.trans h₄ (by omega) (by omega)) (by omega) (by omega)

/-- Where the body of a subroutine stands. -/
theorem SubRun.stands {c : Chunk} {d : Draft} {head : SubHead} {body : List Stmt}
    {σ σ' τ τ' : Session}
    (h : SubRun (fun q e υ υ' => Runs Quiet q e υ υ' ∧ υ = τ ∧ υ' = τ') head body σ σ')
    (hd : σ'.draft.Grows d) (hc : d.finish = .ok c) :
    Stands c d 0 (.body head.returnType body) (σ.draft.position + 1) τ τ' := by
  cases h with
  | @intro ps sub skip slot ends close σ₁ σ₂ _ _ σ₅ _ _ hclose h₁ h₂ h₃ hbody h₅ h₆ =>
  obtain ⟨hrun, rfl, rfl⟩ := hbody
  obtain ⟨e₃, -, e₆, hjump, hopen, -⟩ := SubRun.layout hclose h₁ h₂ h₃ hrun.grows h₅ h₆ hd hc
  have g₅ := (h₆.grows_flat rfl).trans hd
  have hgain := hrun.gain ((h₅.grows_flat hclose.pieces).trans g₅) hc
  obtain ⟨hheight₁, hheight₃, -⟩ := SubRun.heights hclose h₅ g₅ hc e₃ hjump hopen
    (by rw [hgain]; exact Int.add_zero _)
  obtain ⟨-, -, hin, hin'⟩ := SubRun.interior hrun hclose h₅ g₅ hc e₃ e₆ hjump hopen
  have hkept := SubRun.kept h₂ h₃
  rw [SubRun.entered h₁] at hkept
  exact ⟨hin, hin', Int.le_of_eq (by rw [hheight₁, hheight₃]), fun _ => rfl, .of_entered hkept,
    by simp [Piece.incoming]⟩

theorem Closes.ends_in_ret {s : Span} {ends : Bool} {close : List Move} (h : Closes s ends close) :
    ∃ ms, close = ms ++ [Move.op .ret] := by
  cases h with
  | returned => exact ⟨[_], rfl⟩
  | fallen h =>
      obtain ⟨hc⟩ := h
      exact ⟨_ :: _ :: _, rfl⟩

theorem Closes.jumpless {s : Span} {ends : Bool} {close : List Move} (h : Closes s ends close) :
    close.all (!·.jumps) = true := by
  have henforces {e : Expr} {type : ValueType} {role : Role} {cs : List Move} {ok : Bool}
      (hc : Enforces e type role cs ok) : cs.all (!·.jumps) = true := by
    cases hc <;> rfl
  cases h with
  | returned => rfl
  | fallen h =>
      obtain ⟨hc⟩ := h
      have := henforces hc
      simp_all [Move.jumps, Move.op, Instruction.branches, Instruction.bare]

/-- The code behind a body, which ends in a return, keeps the stack in order. -/
theorem Closes.sound {c : Chunk} {d : Draft} {K : Piece → Bool → Session → Session → Prop}
    {s : Span} {ends : Bool} {close : List Move} {t : Nat} {σ σ' : Session}
    (hclose : Closes s ends close) (h : Along K close σ σ') (hd : σ'.draft.Grows d)
    (hc : d.finish = .ok c) (hin : c.InBody t σ.draft.position)
    (hstop : c.bodyEnd t = σ'.draft.position) (hle : c.height t ≤ c.height σ.draft.position)
    {n t' : Nat} (hn : σ.draft.position ≤ n) (hn' : n < σ'.draft.position) (hb : c.InBody t' n) :
    c.Sound 0 t' n := by
  have hflow : Flow false 0 [] (0, []) close := hclose.flow
  have hframe := hclose.frameless
  obtain ⟨ms₁, m, ms₂, τ, τ', heq, h₁, hm, h₂, hτn, hnτ⟩ :=
    (h.does hclose.pieces).exists_move hn hn'
  have hm : m.Does τ τ' := hm
  obtain rfl := hm.width_le hτn hnτ
  have hpos := hm.position
  have g₁ := h₁.grows_of False.elim
  have g₂ := h₂.grows_of False.elim
  have gτ' : τ'.draft.Grows d := g₂.trans hd
  rw [heq] at hflow hframe
  simp only [List.all_append, List.all_cons, Bool.and_eq_true, Bool.not_eq_true'] at hframe
  -- The code up to a place, and from there to the end of the body, is closed.
  have hc₁ := h₁.closed False.elim (fun h => h.elim) hframe.1 (hm.grows.trans gτ') hc
  have hc₂ := hm.closed hframe.2.1 gτ' hc
  have hc₃ := h₂.closed False.elim (fun h => h.elim) hframe.2.2 hd hc
  have hle₁ := g₁.position_le
  have hle₂ := g₂.position_le
  have hinτ := hin.forward hstop hc₁ (hc₂.trans hc₃ (Nat.le_of_lt hnτ) hle₂) hle₁ hn'
  obtain rfl := hb.unique hinτ
  obtain ⟨hf₁, hfit, -⟩ := flow_append.mp hflow
  have hτ := h₁.flowing False.elim False.elim hf₁ (hm.grows.trans gτ') hc .refl
  have hjump : m.jumps = false := by
    have := hclose.jumpless
    simp only [heq, List.all_append, List.all_cons, Bool.and_eq_true, Bool.not_eq_true'] at this
    exact this.2.1
  have hsound := hm.sound (k := 0) hfit gτ' hc hnτ hτ hle (fun hret => ?_) (by simp [hjump])
    (by simp [hjump])
  · simpa using hsound
  · -- Something comes behind the move, for the last one is the return.
    obtain ⟨ms, hms⟩ := hclose.ends_in_ret
    have hlast : τ'.draft.position < σ'.draft.position := by
      rcases List.eq_nil_or_concat ms₂ with rfl | ⟨ms₃, m', rfl⟩
      · rw [hms] at heq
        obtain ⟨-, h⟩ := List.append_inj' heq rfl
        exact absurd (List.cons.inj h).1.symm hret
      · have hm' : m' = .op .ret := by
          have heq : ms ++ [Move.op .ret] = (ms₁ ++ m :: ms₃) ++ [m'] := by simpa [hms] using heq
          obtain ⟨-, h⟩ := List.append_inj' heq rfl
          exact (List.cons.inj h).1.symm
        rw [List.concat_eq_append] at h₂
        obtain ⟨υ, hfirst, υ', hret, rfl⟩ := along_append.mp h₂
        have hfirst := (hfirst.grows_of False.elim).position_le
        have hret : m'.Does υ υ' := hret
        have := hret.position
        rw [hm', show (Move.op .ret).width = 1 from rfl] at this
        omega
    exact hinτ.forward hstop hc₂ hc₃ (Nat.le_of_lt hnτ) hlast

/-- **The instructions of a subroutine that are not of its statements are sound**: the jump over its
code, its frame, and the code behind its body. -/
theorem SubRun.sound {c : Chunk} {d : Draft} {head : SubHead} {body : List Stmt} {k t : Nat}
    {σ σ' τ τ' : Session}
    (h : SubRun (fun q e υ υ' => Runs Quiet q e υ υ' ∧ υ = τ ∧ υ' = τ') head body σ σ')
    (hs : Stands c d k (.stmt (.sub head body)) t σ σ') (hd : σ'.draft.Grows d)
    (hc : d.finish = .ok c) {n t' : Nat} (hn : σ.draft.position ≤ n) (hn' : n < σ'.draft.position)
    (hout : n < τ.draft.position ∨ τ'.draft.position ≤ n) (hb : c.InBody t' n) :
    c.Sound 0 t' n := by
  have hbody := h.stands hd hc
  cases h with
  | @intro ps sub skip slot ends close σ₁ σ₂ _ _ σ₅ _ _ hclose h₁ h₂ h₃ hrun h₅ h₆ =>
  obtain ⟨hrun, rfl, rfl⟩ := hrun
  rename_i τ τ' _ _
  obtain ⟨e₃, -, e₆, hjump, hopen, -⟩ := SubRun.layout hclose h₁ h₂ h₃ hrun.grows h₅ h₆ hd hc
  have g₅ := (h₆.grows_flat rfl).trans hd
  have hgain : c.height τ'.draft.position = c.height τ.draft.position := by
    rw [hrun.gain ((h₅.grows_flat hclose.pieces).trans g₅) hc]
    exact Int.add_zero _
  obtain ⟨hheight₁, hheight₃, hheight₅⟩ := SubRun.heights hclose h₅ g₅ hc e₃ hjump hopen hgain
  obtain ⟨ho, hstop, -, -⟩ := SubRun.interior hrun hclose h₅ g₅ hc e₃ e₆ hjump hopen
  have hle := hrun.grows.position_le
  -- The jump belongs to the body around the subroutine, the frame and the end to its own.
  rcases hout with hlt | hge
  · rcases Nat.eq_or_lt_of_le hn with rfl | hn
    · obtain rfl := hb.unique hs.start.inBody
      refine ⟨⟨_, hjump, ?_, by simp⟩, fun {i m} hi hflows => ?_, fun {i m} hi _ ho => ?_⟩
      · simpa [Instruction.takes] using hs.above
      · obtain rfl := Option.some.inj (hjump.symm.trans hi)
        obtain rfl : σ'.draft.position = m := by simpa [Instruction.Flows] using hflows
        refine ⟨hs.stop.inBody, ?_⟩
        rw [e₆, hheight₅]
        rfl
      · obtain rfl := Option.some.inj (hjump.symm.trans hi)
        obtain rfl : σ'.draft.position = m := by simpa using ho
        exact hs.stop
    · obtain rfl : n = σ.draft.position + 1 := by omega
      obtain rfl := hb.unique (.self ho (by have := hbody.start.before (by omega); omega))
      refine ⟨⟨_, hopen, ?_, by simp [Instruction.pushFrame]⟩, fun {i m} hi hflows => ?_,
        fun {i m} hi hb _ => ?_⟩
      · simp [Instruction.takes, Instruction.pushFrame]
      · obtain rfl := Option.some.inj (hopen.symm.trans hi)
        obtain rfl : m = σ.draft.position + 1 + 1 := hflows
        have hin := hbody.start.inBody
        rw [e₃] at hin
        refine ⟨hin, ?_⟩
        rw [Chunk.height_succ hopen]
        exact Int.add_zero _
      · obtain rfl := Option.some.inj (hopen.symm.trans hi)
        simp [Instruction.branches, Instruction.pushFrame] at hb
  · exact hclose.sound h₅ g₅ hc hbody.stop.inBody hstop (by omega) hge (by omega) hb

/-! ### Pieces that are visited -/

section Visited

variable {c : Chunk} {d : Draft} {p q : Piece} {b e : Bool} {k t : Nat} {σ σ' τ τ' : Session}

/-- **Where the pieces stand that are lowered on the way.** -/
theorem Waits.stands (h : Waits p b σ σ' k q e τ τ') (hl : Lowers p b σ σ')
    (hs : Stands c d 0 p t σ σ') (hcount : σ'.report.count = 0) (hd : σ'.draft.Grows d)
    (hc : d.finish = .ok c) (hfew : d.labels.size ≤ UInt32.size) :
    ∃ t, Stands c d k q t τ τ' := by
  induction h with
  | self => exact ⟨t, hs⟩
  | @part k q r e f ms ns τ τ' υ υ' hw hu h₁ hr h₂ ih =>
      obtain ⟨t, hs⟩ := ih
      obtain ⟨-, -, hbehind⟩ := hw.visits.within hl
      have hcount' : τ'.report.count = 0 := hbehind.count_eq_zero hcount
      -- A subroutine's body stands in a frame of its own; any other part stands in that of the piece.
      rcases q.other_or_sub with hq | ⟨head, body, rfl⟩
      · obtain ⟨hquiet, r₁, hrun, r₂⟩ := hr.quiet_around h₁ h₂ hcount'
        exact ⟨t, hs.part hu hquiet r₁ hrun r₂ hq (hbehind.grows.trans hd) hc hfew⟩
      · obtain ⟨rfl, hsub⟩ := Part.subRun ⟨ms, ns, hu, h₁, hr, h₂⟩ hcount'
        exact ⟨_, hsub.stands (hbehind.grows.trans hd) hc⟩

/-- The place is sound, or it is the jump of a `last` or `next` in `W`.  Then it leaves behind the
operands that are waiting where this stands. -/
def Chunk.Placed (c : Chunk) (W : Nat → Piece → Bool → Session → Session → Prop) (t n : Nat) :
    Prop :=
  c.Sound 0 t n ∨ ∃ k name s e τ τ', (name = "last" ∨ name = "next") ∧
    W k (.expr (.call name [] s)) e τ τ' ∧ n + 2 = τ'.draft.position ∧ c.Sound k t n

/-- **Every place of the code is sound, but for the jumps of `last` and `next`.** -/
theorem Waits.placed {r : Piece} {a : Bool} {ρ ρ' : Session}
    (hw : Waits r a ρ ρ' k p b σ σ') (hl : Lowers p b σ σ') (hs : Stands c d k p t σ σ')
    (hcount : σ'.report.count = 0) (hd : σ'.draft.Grows d) (hc : d.finish = .ok c)
    (hfew : d.labels.size ≤ UInt32.size) {n t' : Nat} (hn : σ.draft.position ≤ n)
    (hn' : n < σ'.draft.position) (hb : c.InBody t' n) : c.Placed (Waits r a ρ ρ') t' n := by
  refine hl.ind (P := fun p b σ σ' => ∀ {k t}, Waits r a ρ ρ' k p b σ σ' →
    Stands c d k p t σ σ' → σ'.report.count = 0 → σ'.draft.Grows d → σ.draft.position ≤ n →
    n < σ'.draft.position → c.Placed (Waits r a ρ ρ') t' n) ?_ hw hs hcount hd hn hn'
  clear hw hl hs hcount hd hn hn'
  intro p b ms σ σ' hu ha k t hw hs hcount hd hn hn'
  have hquiet := (ha.mono And.left).quiet_of_lowers hcount
  -- Either the piece's own template emits the instruction or a part of it does, and then the induction
  -- applies.  In a subroutine the body is the only part.
  rcases p.other_or_sub with hp | ⟨head, body, rfl⟩
  · obtain ⟨ms₁, m, ms₂, τ, τ', rfl, h₁, hm, h₂, hτn, hnτ⟩ := ha.exists_move hn hn'
    have l₁ := h₁.mono And.left
    have l₂ := h₂.mono And.left
    have hcount₂ : τ'.report.count = 0 := l₂.before.count_eq_zero hcount
    rcases hm.does_or_piece with hdoes | ⟨q, e, rfl, hq, hP⟩
    · obtain rfl := hdoes.width_le hτn hnτ
      have hcount₁ : τ.report.count = 0 := hdoes.before.count_eq_zero hcount₂
      have r₁ := l₁.runs_quiet hcount₁
      have r₂ := l₂.runs_quiet hcount
      have hin : c.InBody t τ.draft.position := by
        have hrest : Along (Runs Quiet) (m :: ms₂) τ σ' :=
          ⟨τ', hdoes.mono fun _ h => h.elim, r₂⟩
        exact (r₁.interior hrest (hu.frameless hp) hd hc hs.start hs.stop).inBody
      obtain rfl := hb.unique hin
      rcases hs.sound hu hquiet r₁ hdoes r₂ hp hd hc hfew hnτ with h | ⟨name, s, hn, rfl, hpos, h⟩
      · exact .inl h
      · exact .inr ⟨k, name, s, b, σ, σ', hn, hw, hpos, h⟩
    · obtain ⟨-, r₁, hrun, r₂⟩ := hq.quiet_around l₁ l₂ hcount
      exact hP (.part hw hu l₁ hq l₂) (hs.part hu hquiet r₁ hrun r₂ hp hd hc hfew) hcount₂
        (l₂.before.grows.trans hd) hτn hnτ
  · obtain ⟨ms₁, e, ms₂, τ, τ', rfl, h₁, ⟨hq, hP⟩, h₂⟩ := ha.exists_piece
      (q := .body head.returnType body) (by simp [hu.sub_pieces hquiet])
    have l₁ := h₁.mono And.left
    have l₂ := h₂.mono And.left
    have hcount₂ : τ'.report.count = 0 := l₂.before.count_eq_zero hcount
    obtain ⟨-, hsub⟩ := Part.subRun ⟨ms₁, ms₂, hu, l₁, hq, l₂⟩ hcount
    by_cases hbody : τ.draft.position ≤ n ∧ n < τ'.draft.position
    · exact hP (.part hw hu l₁ hq l₂) (hsub.stands hd hc) hcount₂ (l₂.before.grows.trans hd) hbody.1
        hbody.2
    · exact .inl (hsub.sound hs hd hc hn hn' (by omega) hb)

end Visited

/-! ### Programs -/

namespace Program

variable {p : Program} {name : String} {options : CompileOptions} {u : CompiledUnit}

/-- How many labels are created when the program is compiled. -/
def labelCount (p : Program) (name : String) (options : CompileOptions) : Nat :=
  ((Lower.lowerProgram p).run (Session.start name options)).2.draft.labels.size

/-- All labels of a compiled program are created while it is lowered. -/
theorem labels_of_compile {σ : Session} (h : compile name options p = .ok u)
    (hl : Lowers (.stmts p.body) true (p.entry name options) σ) :
    σ.halted.draft.labels.size = p.labelCount name options := by
  obtain ⟨hn, -⟩ := compile_eq_ok.mp h
  have := lowerProgram_eq_ok.mpr ⟨hn, σ, (Lowers.stmts_iff.mp hl).1, rfl⟩
  rw [labelCount, Step.run, this]

/-- The body of a routine is not empty, and it is in the code. -/
theorem bodyEnd_of_opens {t : Nat} (h : compile name options p = .ok u)
    (ho : u.chunk.opens t = true) : t < u.chunk.bodyEnd t ∧ u.chunk.bodyEnd t ≤ u.chunk.size := by
  obtain ⟨r, σ, hb⟩ := exists_body_of_opens h ho
  cases hb with
  | top => exact ⟨Chunk.lt_size_of_opens ho, Nat.le_refl _⟩
  | @sub head body b c τ τ' υ υ' hsub hpart =>
      obtain ⟨σ₀, hl, hcount, hfin⟩ := lowers_of_compile h
      obtain ⟨-, -, hbehind⟩ := hsub.within hl
      have hcount' := hbehind.count
      have hgrow : τ'.draft.Grows σ₀.halted.draft := hbehind.grows.trans .emit
      obtain ⟨-, hrun⟩ := hpart.subRun (by omega)
      cases hrun with
      | intro _ _ hclose h₁ h₂ h₃ hbody h₅ h₆ =>
      obtain ⟨hrun, rfl, rfl⟩ := hbody
      obtain ⟨e₃, hlt, e₆, hjump, -⟩ :=
        SubRun.layout hclose h₁ h₂ h₃ hrun.grows h₅ h₆ hgrow hfin
      have hle := hrun.grows.position_le
      have hstop : u.chunk.bodyEnd (τ.draft.position + 1) = τ'.draft.position := by
        simp [Chunk.bodyEnd, hjump]
      rw [hstop, (Draft.finish_eq_ok hfin).2.1]
      exact ⟨by omega, hgrow.position_le⟩

/-- The frame of a routine is of its own body. -/
theorem inBody_of_opens {t : Nat} (h : compile name options p = .ok u)
    (ho : u.chunk.opens t = true) : u.chunk.InBody t t :=
  .self ho (bodyEnd_of_opens h ho).1

/-- The statements of the program begin and end in the body of the top level. -/
theorem inBody_entry {σ : Session} (h : compile name options p = .ok u)
    (hl : Lowers (.stmts p.body) true (p.entry name options) σ) :
    u.chunk.InBody 0 (p.entry name options).draft.position ∧
      u.chunk.InBody 0 σ.draft.position := by
  obtain ⟨σ', hl', hcount, hfin⟩ := lowers_of_compile h
  obtain rfl : σ = σ' := (Prod.mk.inj (Eq.trans hl.symm hl')).2
  have hhalt : (Move.op .halt).Does σ { σ with draft := σ.draft.emit (.bare .halt) } := rfl
  have hpos : σ.halted.draft.position = σ.draft.position + 1 := hhalt.position
  have hstop : u.chunk.bodyEnd 0 = σ.draft.position + 1 := by
    rw [← hpos, ← (Draft.finish_eq_ok hfin).2.1]
    rfl
  have hentry : (p.entry name options).draft.position = 1 := entry_position
  have hle := hl.before.grows.position_le
  have h₁ := (hl.quiet hcount).closed hhalt.grows hfin
  have h₂ : u.chunk.Closed σ.draft.position σ.halted.draft.position :=
    hhalt.closed rfl .refl hfin
  rw [hpos] at h₂
  rw [hentry] at h₁ hle ⊢
  exact ⟨.inside (entry_opens h) hstop .refl (h₁.trans h₂ hle (by omega)) (by omega) (by omega),
    .inside (entry_opens h) hstop h₁ h₂ (by omega) (by omega)⟩

/-- Compiling the program lowers the piece from `τ` to `τ'` while `k` operands of the expressions around
it are waiting. -/
def Reaches (p : Program) (name : String) (options : CompileOptions) (k : Nat) (q : Piece)
    (e : Bool) (τ τ' : Session) : Prop :=
  ∃ σ, Lowers (.stmts p.body) true (p.entry name options) σ ∧
    Waits (.stmts p.body) true (p.entry name options) σ k q e τ τ'

/-- A piece for which operands wait is a piece of the program. -/
theorem Reaches.lowered {k : Nat} {q : Piece} {e : Bool} {τ τ' : Session}
    (h : p.Reaches name options k q e τ τ') : p.Lowered name options q e τ τ' := by
  obtain ⟨σ, hl, hw⟩ := h
  exact ⟨σ, hl, hw.visits⟩

theorem Lowered.reaches {q : Piece} {e : Bool} {τ τ' : Session}
    (h : p.Lowered name options q e τ τ') : ∃ k, p.Reaches name options k q e τ τ' := by
  obtain ⟨σ, hl, hv⟩ := h
  obtain ⟨k, hw⟩ := hv.waits
  exact ⟨k, σ, hl, hw⟩

/-- Where the statements of the program stand. -/
theorem entry_stands {σ : Session} (h : compile name options p = .ok u)
    (hl : Lowers (.stmts p.body) true (p.entry name options) σ) :
    Stands u.chunk σ.halted.draft 0 (.stmts p.body) 0 (p.entry name options) σ := by
  obtain ⟨hfrom, hto⟩ := inBody_entry h hl
  have hentry : (p.entry name options).draft.position = 1 := entry_position
  have hle := hl.before.grows.position_le
  have hheight : u.chunk.height 1 = u.chunk.height 0 := by
    rw [Chunk.height_succ (entry_frame h)]
    exact Int.add_zero _
  refine ⟨⟨hfrom, by omega, fun h => absurd rfl h⟩, ⟨hto, by omega, fun h => absurd rfl h⟩, ?_,
    fun _ => rfl, .of_entered .refl, by simp [Piece.incoming]⟩
  exact Int.le_of_eq (by rw [hentry, hheight])

/-- **Where a piece of a program that compiles stands.** -/
theorem Reaches.stands {k : Nat} {q : Piece} {e : Bool} {σ τ τ' : Session}
    (hr : p.Reaches name options k q e τ τ') (h : compile name options p = .ok u)
    (hlabels : p.labelCount name options < UInt32.size)
    (hl : Lowers (.stmts p.body) true (p.entry name options) σ) :
    ∃ t, Stands u.chunk σ.halted.draft k q t τ τ' := by
  obtain ⟨σ', hl', hcount, hfin⟩ := lowers_of_compile h
  obtain rfl : σ = σ' := (Prod.mk.inj (Eq.trans hl.symm hl')).2
  obtain ⟨σ', hl', hw⟩ := hr
  obtain rfl : σ = σ' := (Prod.mk.inj (Eq.trans hl.symm hl')).2
  refine hw.stands hl (entry_stands h hl) hcount .emit hfin ?_
  rw [labels_of_compile h hl]
  exact Nat.le_of_lt hlabels

/-- **Every place of the code is sound, but for the jumps of `last` and `next`.** -/
theorem placed {t n : Nat} (h : compile name options p = .ok u)
    (hlabels : p.labelCount name options < UInt32.size) (hb : u.chunk.InBody t n) :
    u.chunk.Placed (p.Reaches name options) t n := by
  obtain ⟨σ, hl, hcount, hfin⟩ := lowers_of_compile h
  have hstands := entry_stands h hl
  have hopen := entry_frame h
  have hentry : (p.entry name options).draft.position = 1 := entry_position
  have hhalt : (Move.op .halt).Does σ { σ with draft := σ.draft.emit (.bare .halt) } := rfl
  have hn : n < σ.draft.position + 1 := by
    have hsize := (Draft.finish_eq_ok hfin).2.1
    have hpos : σ.halted.draft.position = σ.draft.position + 1 := hhalt.position
    have := (bodyEnd_of_opens h hb.1).2
    have := hb.2.2.1
    omega
  -- The frame of the main body stands at zero and the halt comes last; all between is of the statements.
  rcases Nat.eq_zero_or_pos n with rfl | hpos
  · obtain rfl := hb.unique (inBody_of_opens h (entry_opens h))
    refine .inl ⟨⟨_, hopen, ?_, by simp [Instruction.pushFrame]⟩, fun {i m} hi hflows => ?_,
      fun {i m} hi hb _ => ?_⟩
    · simp [Instruction.takes, Instruction.pushFrame]
    · obtain rfl := Option.some.inj (hopen.symm.trans hi)
      obtain rfl : m = 0 + 1 := hflows
      have hfrom := hstands.start.inBody
      rw [hentry] at hfrom
      refine ⟨hfrom, ?_⟩
      rw [Chunk.height_succ hopen]
      exact Int.add_zero _
    · obtain rfl := Option.some.inj (hopen.symm.trans hi)
      simp [Instruction.branches, Instruction.pushFrame] at hb
  rcases Nat.lt_or_ge n σ.draft.position with hlt | hge
  · have hfew : σ.halted.draft.labels.size ≤ UInt32.size := by
      rw [labels_of_compile h hl]
      exact Nat.le_of_lt hlabels
    have hplaced := Waits.self.placed hl hstands hcount .emit hfin hfew (by omega) hlt hb
    rcases hplaced with h | ⟨k, name, s, e, τ, τ', hn, hw, hpos, hsound⟩
    · exact .inl h
    · exact .inr ⟨k, name, s, e, τ, τ', hn, ⟨σ, hl, hw⟩, hpos, hsound⟩
  · obtain rfl : n = σ.draft.position := by omega
    obtain rfl := hb.unique hstands.stop.inBody
    obtain ⟨j, hj, hr⟩ := acts_emit_at hhalt .refl hfin
    obtain rfl : Instruction.bare .halt = j := Except.ok.inj hr
    have hgain : u.chunk.height σ.draft.position = u.chunk.height 0 := by
      rw [(hl.quiet hcount).gain .emit hfin, hentry, Chunk.height_succ hopen]
      rfl
    refine .inl ⟨⟨_, hj, ?_, fun _ => hgain⟩, fun {i m} hi hflows => ?_, fun {i m} hi hb _ => ?_⟩
    · rw [hgain]
      exact Int.le_of_eq (Int.add_zero _)
    · obtain rfl := Option.some.inj (hj.symm.trans hi)
      cases hflows
    · obtain rfl := Option.some.inj (hj.symm.trans hi)
      simp [Instruction.branches, Instruction.bare] at hb

/-- The height of a place is the depth above its frame. -/
theorem depth_eq {t n : Nat} (h : compile name options p = .ok u)
    (hlabels : p.labelCount name options < UInt32.size) (hb : u.chunk.InBody t n) :
    u.chunk.height n = u.chunk.height t + u.chunk.depth n := by
  rcases placed h hlabels hb with hs | ⟨k, _, _, _, _, _, -, -, -, hs⟩
  · exact hs.depth_eq hb
  · exact hs.depth_eq hb

/-- A piece leaves the stack deeper by what it leaves. -/
theorem Lowered.gain {q : Piece} {b : Bool} {τ τ' : Session}
    (hq : p.Lowered name options q b τ τ') (h : compile name options p = .ok u)
    (hlabels : p.labelCount name options < UInt32.size) :
    u.chunk.depth τ'.draft.position = u.chunk.depth τ.draft.position + q.gain := by
  obtain ⟨σ, hl, hcount, hfin⟩ := lowers_of_compile h
  obtain ⟨k, hr⟩ := hq.reaches
  obtain ⟨t, hs⟩ := hr.stands h hlabels hl
  obtain ⟨hlow, -, hbehind⟩ := hq.within hl
  have hcount' := hbehind.count
  have hgain := (hlow.quiet (by omega)).gain (hbehind.grows.trans .emit) hfin
  have h₁ := depth_eq h hlabels hs.start.inBody
  have h₂ := depth_eq h hlabels hs.stop.inBody
  omega

end Program

end StackScript
