import StackScript.Proofs.Stack.Discipline

/-!
# Leaving loops from within expressions

`last` and `next` are calls, and a call may stand anywhere in an expression.  Where it stands as an
operand, the operands before it have been put on the stack, and the jump leaves them there: it
arrives at the label of the loop with more values than the loop expects.

* `Visits.loop_around`: the loop that a `last` or `next` finds is a statement around it.
* `Program.Reaches.exit`: how far above the target of its jump a `last` or `next` stands.
* `compile_loop_exits`: a jump out of a loop arrives with the depth of its target and one value more
  for each operand that is waiting.
-/

namespace StackScript

open Move

/-! ### Loops around a piece -/

/-- The statement is a loop. -/
def Stmt.isLoop : Stmt → Bool
  | .whileLoop _ _ | .loop _ _ _ _ | .forEach _ _ _ => true
  | _ => false

theorem Enforces.enters {e : Expr} {type : ValueType} {role : Role} {cs : List Move} {ok : Bool}
    {kind : ScopeKind} (hc : Enforces e type role cs ok) : .enter kind ∉ cs := by
  cases hc <;> simp

theorem ReturnsUndef.enters {s : Span} {ms : List Move} {kind : ScopeKind}
    (hr : ReturnsUndef s ms) : .enter kind ∉ ms := by
  obtain ⟨hc⟩ := hr
  simp [op, hc.enters]

theorem Closes.enters {s : Span} {ends : Bool} {ms : List Move} {kind : ScopeKind}
    (hc : Closes s ends ms) : .enter kind ∉ ms := by
  cases hc with
  | returned => simp [op]
  | fallen hr => exact hr.enters

/-- Only loops open scopes of loops.  A loop marks the label behind it last, and then takes away what
it has kept on the stack. -/
theorem Unfolds.enters_loop {p : Piece} {ms : List Move} {b : Bool} {control : LoopControl}
    (hu : Unfolds p ms b) (hm : .enter (.loop control) ∈ ms) :
    ∃ s, p = .stmt s ∧ s.isLoop = true ∧ control.next ∈ ms.flatMap targets ∧
      ∃ ms₁ ms₂, ms = ms₁ ++ .mark control.done :: ms₂ ∧ pieces ms₂ = [] ∧
        (ms₂.map width).sum = p.landing := by
  cases hu with
  | @whileLoop _ _ done top =>
      obtain rfl : control = .whileLoop done top := by simpa using hm
      exact ⟨_, rfl, rfl, by simp [targets, LoopControl.next], [_, _, _, _, _, _, _], [_], rfl, rfl,
        rfl⟩
  | @loop init condition step _ done next =>
      obtain rfl : control = .countedLoop done next := by
        cases init <;> cases condition <;> cases step <;>
          simpa [effect, guarded, Move.block, op] using hm
      exact ⟨_, rfl, rfl, by simp [targets, LoopControl.next], _, [.leave],
        (List.append_assoc _ [_] _).symm, rfl, rfl⟩
  | @forEach _ _ _ index item done top =>
      obtain rfl : control = .forEach done top index item := by
        simpa [increment, op] using hm
      exact ⟨_, rfl, rfl, by simp [targets, LoopControl.next], _, [op .pop, op .pop, .leave],
        (List.append_assoc _ [_] _).symm, rfl, rfl⟩
  | assignVar hc | assignVarMismatch hc | assignDeclare hc | assignDeclareMismatch hc | ret hc
  | bodyExpr hc => simp [op, hc.enters] at hm
  | @argsHeld _ _ p _ _ _ hc => cases h : p.copy <;> simp [Move.when, h, hc.enters] at hm
  | retUndef hr => exact absurd hm hr.enters
  | @sub _ body _ _ _ _ _ _ _ _ hc =>
      cases h : mentionsArgList body <;> simp [argListSlot, h, hc.enters] at hm
  | @checkpoint _ on => cases on <;> simp [Move.when, op] at hm
  | @call _ _ _ _ _ sub => cases h : sub.usesArgList <;> simp [Move.when, h] at hm
  | @cond _ _ _ rest => cases rest <;> simp [Move.block, otherwise] at hm
  | @package kind => cases kind <;> simp [declareModule, Move.block] at hm
  | @next _ control => cases control <;> simp [advance, increment, op] at hm
  | _ => simp [op, Move.block] at hm

/-- `last` and `next` leave the stack as it is before they jump. -/
theorem Move.after_exit {name : String} {control : LoopControl} :
    (Move.innermost (some control) :: if name = "last" then [] else advance control).foldl
      Move.after (0, []) = (0, []) := by
  split <;> cases control <;> rfl

theorem LoopControl.target_mem (control : LoopControl) (name : String) :
    control.target name ∈ [control.done, control.next] := by
  unfold target
  split <;> simp

section Around

variable {c : Chunk} {d : Draft} {p q : Piece} {b e : Bool} {σ σ' τ τ' : Session}

/-- **The loop around a place is the scope of a loop statement around it**, if it is not around the
whole piece. -/
theorem Visits.loop_around (h : Visits p b σ σ' q e τ τ') (hl : Lowers p b σ σ')
    (hσ : σ.scopes.innermostLoop? = none) (hcount : σ'.report.count = 0) (hd : σ'.draft.Grows d)
    (hc : d.finish = .ok c) {control : LoopControl}
    (hτ : τ.scopes.innermostLoop? = some control) :
    ∃ s f ms υ υ', Visits p b σ σ' (.stmt s) f υ υ' ∧ Unfolds (.stmt s) ms f ∧
      Along Lowers ms υ υ' ∧ .enter (.loop control) ∈ ms ∧
      υ.draft.position ≤ τ.draft.position ∧ τ'.draft.position ≤ υ'.draft.position := by
  induction h with
  | self =>
      rw [hσ] at hτ
      cases hτ
  | @part q r e f τ τ' ρ ρ' hv hpart ih =>
      obtain ⟨-, -, hbehind⟩ := hv.within hl
      have hcount' : τ'.report.count = 0 := hbehind.count_eq_zero hcount
      obtain ⟨ms, ns, hu, h₁, hr, h₂⟩ := id hpart
      have hle₁ := h₁.before.grows.position_le
      have hle₂ := h₂.before.grows.position_le
      rcases q.other_or_sub with hq | ⟨head, body, rfl⟩
      · have hall : Along Lowers (ms ++ .piece r f :: ns) τ τ' :=
          along_append.mpr ⟨ρ, h₁, ρ', hr, h₂⟩
        obtain ⟨hquiet, r₁, hrun, r₂⟩ := hr.quiet_around h₁ h₂ hcount'
        have hρ := hu.flowing (m := .piece r f) hquiet r₁ hrun r₂ hq (hbehind.grows.trans hd) hc
        rcases Scopes.innermostLoop?_of_kinds hρ.kinds hτ with hmem | ⟨-, hout⟩
        · have henter : .enter (.loop control) ∈ ms := by simpa using entered_of_after hmem
          have hmem : .enter (.loop control) ∈ ms ++ .piece r f :: ns :=
            List.mem_append_left _ henter
          obtain ⟨s, rfl, -⟩ := hu.enters_loop hmem
          exact ⟨s, e, _, τ, τ', hv, hu, hall, hmem, hle₁, hle₂⟩
        · obtain ⟨s, g, ms', υ, υ', hs, hus, has, hmem, hυ, hυ'⟩ := ih hout
          exact ⟨s, g, ms', υ, υ', hs, hus, has, hmem, by omega, by omega⟩
      · -- No loop around a subroutine is seen from within.
        obtain ⟨-, hsub⟩ := hpart.subRun hcount'
        have hstands := hsub.stands (hbehind.grows.trans hd) hc
        cases hsub with
        | intro _ _ _ h₁ h₂ h₃ hbody =>
        obtain ⟨-, rfl, rfl⟩ := hbody
        have hkept := SubRun.kept h₂ h₃
        rw [SubRun.entered h₁] at hkept
        rw [Scopes.innermostLoop?_congr hkept.kinds] at hτ
        cases hτ

end Around

namespace Program

variable {p : Program} {name : String} {options : CompileOptions} {u : CompiledUnit}

/-- The jump of a `last` or `next` is at `n`. -/
def ExitAt (p : Program) (name : String) (options : CompileOptions) (n : Nat) : Prop :=
  ∃ exit s e τ τ', (exit = "last" ∨ exit = "next") ∧
    p.Lowered name options (.expr (.call exit [] s)) e τ τ' ∧ n + 2 = τ'.draft.position

/-- **What a `last` or `next` does**: it jumps to a label of a loop statement around it.  The stack
there is as high as where the loop begins, and two values higher in a `for`; where the jump is, it
is higher by the operands that are waiting. -/
theorem Reaches.exit {k : Nat} {exit : String} {s : Span} {e : Bool} {τ τ' : Session}
    (hr : p.Reaches name options k (.expr (.call exit [] s)) e τ τ')
    (hx : exit = "last" ∨ exit = "next") (h : compile name options p = .ok u)
    (hlabels : p.labelCount name options < UInt32.size) :
    ∃ n m t loop f υ υ', n + 2 = τ'.draft.position ∧
      u.chunk.instructions[n]? = some ⟨.jump, some (.offset m)⟩ ∧
      p.Lowered name options (.stmt loop) f υ υ' ∧ loop.isLoop = true ∧
      υ.draft.position ≤ τ.draft.position ∧ τ'.draft.position ≤ υ'.draft.position ∧
      (exit = "last" → m + (Piece.stmt loop).landing = υ'.draft.position) ∧
      u.chunk.InBody t n ∧ u.chunk.InBody t m ∧ u.chunk.InBody t υ.draft.position ∧
      u.chunk.height m = u.chunk.height υ.draft.position + (Piece.stmt loop).landing ∧
      u.chunk.height n = u.chunk.height m + k := by
  obtain ⟨σ, hl, hcount, hfin⟩ := lowers_of_compile h
  have hfew : σ.halted.draft.labels.size ≤ UInt32.size := by
    rw [labels_of_compile h hl]
    exact Nat.le_of_lt hlabels
  obtain ⟨t, hs⟩ := hr.stands h hlabels hl
  obtain ⟨hlow, -, hbehind⟩ := hr.lowered.within hl
  have hcount' : τ'.report.count = 0 := hbehind.count_eq_zero hcount
  have hd : τ'.draft.Grows σ.halted.draft := hbehind.grows.trans .emit
  obtain ⟨ms, hu, ha⟩ := hlow.unfolds
  have hq := ha.quiet_of_lowers hcount'
  obtain ⟨control, rfl⟩ := hu.exit hx hq
  have ha := ha.runs_quiet hcount'
  obtain ⟨m, hoff, hin, hm⟩ := hs.sought hu hq ha (by simp) hd hfin (l := control.target exit)
    (List.mem_flatMap.mpr ⟨.innermost (some control), by simp [Move.exit], control.target_mem exit⟩)
  -- The jump, and how high the stack is there.
  obtain ⟨ρ, h₁, ρ', hjump, h₂⟩ := along_append.mp ha
  have hρ := hu.flowing hq h₁ hjump h₂ (by simp) hd hfin
  rw [after_exit] at hρ
  have hrest : Along (Runs Quiet) (.emit _ :: _) ρ τ' := ⟨ρ', hjump, h₂⟩
  have hinρ := h₁.interior hrest (hu.frameless (by simp)) hd hfin hs.start hs.stop
  have e₁ : ρ'.draft.position = ρ.draft.position + 1 := Move.Does.position (m := .emit _) hjump
  have e₂ : τ'.draft.position = ρ'.draft.position + 1 := h₂.position rfl
  obtain ⟨j, hj, hres⟩ := acts_emit_at hjump (h₂.grows.trans hd) hfin
  obtain ⟨hop, offset, hoff', hoperand⟩ := Draft.resolveInstruction_eq_ok hres
  obtain rfl : m = offset := Option.some.inj (hoff.symm.trans hoff')
  -- The loop whose label it is.
  obtain ⟨_, ⟨hfound, -⟩, -⟩ := h₁
  obtain ⟨σ', hl', hw⟩ := hr
  obtain rfl : σ = σ' := (Prod.mk.inj (Eq.trans hl.symm hl')).2
  obtain ⟨loop, f, ns, υ, υ', hv, hul, hal, hmem, hυ, hυ'⟩ :=
    hw.visits.loop_around hl rfl hcount (d := σ.halted.draft) .emit hfin hfound
  obtain ⟨loop', heq, hloop, hnext, ns₁, ns₂, rfl, hpieces, hwidth⟩ := hul.enters_loop hmem
  obtain rfl : loop = loop' := Piece.stmt.inj heq
  have hsub (head : SubHead) (body : List Stmt) : Piece.stmt loop ≠ .stmt (.sub head body) := by
    rintro ⟨⟩
    cases hloop
  have hlowered : p.Lowered name options (.stmt loop) f υ υ' := ⟨σ, hl, hv⟩
  obtain ⟨k', hrl⟩ := hlowered.reaches
  obtain ⟨t', hsl⟩ := hrl.stands h hlabels hl
  obtain ⟨-, -, hbehindl⟩ := hv.within hl
  have hcountl : υ'.report.count = 0 := hbehindl.count_eq_zero hcount
  have hdl : υ'.draft.Grows σ.halted.draft := hbehindl.grows.trans .emit
  have hql := hal.quiet_of_lowers hcountl
  have hal := hal.runs_quiet hcountl
  have htarget : control.target exit ∈ (ns₁ ++ .mark control.done :: ns₂).flatMap targets := by
    rcases List.mem_cons.mp (control.target_mem exit) with heq | heq
    · simp [heq, targets]
    · obtain heq : control.target exit = control.next := by simpa using heq
      rwa [heq]
  obtain ⟨m', hoffl, hinl, hml⟩ := hsl.marked hul hql hal hsub hdl hfin hfew
    (List.mem_append_left _ htarget)
  obtain rfl : m = m' := Option.some.inj (hoff.symm.trans hoffl)
  obtain rfl := hin.inBody.unique hinl.inBody
  refine ⟨ρ.draft.position, m, t, loop, f, υ, υ', by omega, ?_, hlowered, hloop, hυ, hυ', ?_,
    hinρ.inBody, hin.inBody, hsl.start.inBody, hml, ?_⟩
  · obtain ⟨jop, joperand⟩ := j
    obtain rfl : jop = .jump := hop
    obtain rfl : joperand = some (.offset m) := hoperand
    exact hj
  · rintro rfl
    obtain ⟨ρ₁, -, ρ₂, hmark, hrest⟩ := along_append.mp hal
    have hdone : σ.halted.draft.offset? control.done = some ρ₁.draft.position :=
      acts_mark_at hmark (hrest.grows.trans hdl)
    obtain rfl : m = ρ₁.draft.position := Option.some.inj (hoff.symm.trans hdone)
    have e₃ : ρ₂.draft.position = ρ₁.draft.position := Move.Does.position (m := .mark _) hmark
    rw [hrest.position hpieces, hwidth, e₃]
  · have := hρ.height
    omega

end Program

/-! ### Loop exits of a compiled program -/

/-- **Loop exits and the operand stack.**  In the unit of a program each place has a depth, with which
every path arrives that takes no jump of a `last` or `next`.  Such a jump goes to a label of a loop
statement around it, which for `last` is the end of the loop.  The depth of the label is that where
the loop begins, and two more in a `for`, for the iterable and its count.  The depth of the jump is
that of the label and one more for each operand that waits, in the expressions around the call, for
the others to be evaluated. -/
theorem compile_loop_exits {p : Program} {name : String} {options : CompileOptions}
    {u : CompiledUnit} (h : compile name options p = .ok u)
    (hlabels : p.labelCount name options < UInt32.size) :
    ∃ depth : Nat → Nat,
      (∀ t n k, t = 0 ∨ u.chunk.opens t = true →
        u.chunk.PathAvoiding (p.ExitAt name options) t n k → k = depth n) ∧
      ∀ exit s k e τ τ', exit = "last" ∨ exit = "next" →
        p.Reaches name options k (.expr (.call exit [] s)) e τ τ' →
        ∃ n m loop f υ υ', n + 2 = τ'.draft.position ∧
          u.chunk.instructions[n]? = some ⟨.jump, some (.offset m)⟩ ∧
          p.Lowered name options (.stmt loop) f υ υ' ∧ loop.isLoop = true ∧
          υ.draft.position ≤ τ.draft.position ∧ τ'.draft.position ≤ υ'.draft.position ∧
          (exit = "last" → m + (Piece.stmt loop).landing = υ'.draft.position) ∧
          depth m = depth υ.draft.position + (Piece.stmt loop).landing ∧
          depth n = depth m + k := by
  refine ⟨u.chunk.depth, fun t n k ht hpath => ?_, fun exit s k e τ τ' hx hr => ?_⟩
  · have ho : u.chunk.opens t = true := by
      rcases ht with rfl | ho
      · exact Program.entry_opens h
      · exact ho
    refine (hpath.sound (Program.inBody_of_opens h ho) (fun hb => ?_) fun hb hn => ?_).2
    · rcases Program.placed h hlabels hb with hs | ⟨k, _, _, _, _, _, -, -, -, hs⟩
      · exact ⟨0, hs⟩
      · exact ⟨k, hs⟩
    · rcases Program.placed h hlabels hb with hs | ⟨k, exit, s, e, τ, τ', hx, hr, hpos, -⟩
      · exact hs
      · exact absurd ⟨exit, s, e, τ, τ', hx, hr.lowered, hpos⟩ hn
  · obtain ⟨n, m, t, loop, f, υ, υ', hpos, hi, hl, hloop, hυ, hυ', hlast, hn, hm, hb, hlanding,
      hheight⟩ := hr.exit hx h hlabels
    have dn := Program.depth_eq h hlabels hn
    have dm := Program.depth_eq h hlabels hm
    have dυ := Program.depth_eq h hlabels hb
    exact ⟨n, m, loop, f, υ, υ', hpos, hi, hl, hloop, hυ, hυ', hlast, by omega, by omega⟩

/-- A `for` over two items whose body adds something to the value of `last`. -/
def adding : Program where
  body := [
    .forEach "$x" (.list [.integer 1 {}, .integer 2 {}] {}) [
      .expr (.binary .add (.integer 1 {}) (.call "last" [] {}) {})]]

theorem compile_loop_exits_adding :
    ∃ u, ∃ depth : Nat → Nat, compile "main" {} adding = .ok u ∧
      adding.labelCount "main" {} < UInt32.size ∧
      (∀ n k, u.chunk.PathAvoiding (adding.ExitAt "main" {}) 0 n k → k = depth n) ∧
      ∀ k s e τ τ', adding.Reaches "main" {} k (.expr (.call "last" [] s)) e τ τ' →
        ∃ n m, n + 2 = τ'.draft.position ∧
          u.chunk.instructions[n]? = some ⟨.jump, some (.offset m)⟩ ∧ depth n = depth m + k := by
  have hok : (compile "main" {} adding).isOk = true := by decide +kernel
  have hlabels : adding.labelCount "main" {} < UInt32.size := by decide +kernel
  cases h : compile "main" {} adding with
  | error e => simp [h, Except.isOk, Except.toBool] at hok
  | ok u =>
      obtain ⟨depth, hpath, hexit⟩ := compile_loop_exits h hlabels
      refine ⟨u, depth, rfl, hlabels, fun n k hk => hpath 0 n k (.inl rfl) hk,
        fun k s e τ τ' hr => ?_⟩
      obtain ⟨n, m, _, _, _, _, hpos, hi, -, -, -, -, -, -, hdepth⟩ :=
        hexit "last" s k e τ τ' (.inl rfl) hr
      exact ⟨n, m, hpos, hi, hdepth⟩

/-- The jump of this `last` is taken three values deep, with the operand `1` above the array and its
count, while the end of the loop expects the two only.  The program ends with a value too many. -/
theorem last_leaves_operand :
    ∃ u, compile "main" {} adding = .ok u ∧ adding.ExitAt "main" {} 16 ∧
      u.chunk.instructions[16]? = some ⟨.jump, some (.offset 25)⟩ ∧
      u.chunk.Path 0 16 3 ∧ u.chunk.Path 0 25 2 ∧ u.chunk.Path 0 27 1 := by
  have hrun : ((compile "main" {} adding).toOption.any fun u => decide (
      (u.chunk.instructions[16]? = some ⟨.jump, some (.offset 25)⟩ ∧ 16 < u.chunk.size ∧
        u.chunk.height 25 ≠ u.chunk.height 16 ∧ ∀ t < 17, u.chunk.opens t = true → t = 0) ∧
      u.chunk.walk 0 0 (List.range' 1 16) = some 3 ∧
      u.chunk.walk 0 0 (List.range' 1 10 ++ [25]) = some 2 ∧
      u.chunk.walk 0 0 (List.range' 1 16 ++ [25, 26, 27]) = some 1)) = true := by
    decide +kernel
  have hlabels : adding.labelCount "main" {} < UInt32.size := by decide +kernel
  cases h : compile "main" {} adding with
  | error e =>
      rw [h] at hrun
      cases hrun
  | ok u =>
      simp only [h, Except.toOption, Option.any_some, decide_eq_true_eq] at hrun
      obtain ⟨⟨hjump, hsize, hheight, hframes⟩, hto, hend, hout⟩ := hrun
      refine ⟨u, rfl, ?_, hjump, .walk .start hto, .walk .start hend, .walk .start hout⟩
      -- The jump is not sound, and only those of `last` and `next` are not.
      obtain ⟨t, hb⟩ := Chunk.exists_inBody (Program.entry_opens h) hsize
      obtain rfl := hframes t (by have := hb.2.1; omega) hb.1
      rcases Program.placed h hlabels hb with hs | ⟨k, exit, s, e, τ, τ', hx, hr, hpos, -⟩
      · have := (hs.flows hjump rfl).2
        exact absurd (by simpa [Instruction.net, Instruction.takes, Instruction.leaves] using this)
          hheight
      · exact ⟨exit, s, e, τ, τ', hx, hr.lowered, hpos⟩

end StackScript
