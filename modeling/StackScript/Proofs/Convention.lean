import StackScript.Proofs.Units

/-!
# The calling convention

A caller and the subroutine it calls are lowered at different times, and all that they have in common
is what the package of the subroutine holds of it.  They agree nevertheless on how many values are
passed, in which order and in which slots the values end up.

* `Program.ArgumentCode`: the code of the arguments of a call, the last argument first.
* `Visits.ready`: an argument list is made directly before the call it is for, and nowhere else.
* `Program.Lowered.received`: the slots in which a subroutine finds its arguments.
* `compile_calling_convention`: what the two sides of a call agree on.
-/

namespace StackScript

/-! ### Code that stands in a row -/

namespace Chunk

/-- The instructions stand in the code one after the other, from `n` on. -/
def Holds (c : Chunk) (n : Nat) (is : List Instruction) : Prop :=
  ∀ k i, is[k]? = some i → c.instructions[n + k]? = some i

theorem Holds.nil {c : Chunk} {n : Nat} : c.Holds n [] := fun _ _ h => by simp at h

/-- A row of instructions is in the code if the first one is and the others are behind it. -/
theorem Holds.cons {c : Chunk} {n : Nat} {i : Instruction} {is : List Instruction}
    (hi : c.instructions[n]? = some i) (h : c.Holds (n + 1) is) : c.Holds n (i :: is) := by
  intro k j hj
  cases k with
  | zero =>
      obtain rfl : i = j := Option.some.inj hj
      exact hi
  | succ k =>
      rw [← Nat.succ_add_eq_add_succ]
      exact h k j hj

end Chunk

/-- The instructions that moves emit themselves, but for constants. -/
def Move.emitted : List Move → List Instruction
  | [] => []
  | .emit i :: ms => i :: emitted ms
  | _ :: ms => emitted ms

/-- Instructions that refer to nothing stand in the code as they were emitted. -/
theorem Along.holds {K : Piece → Bool → Session → Session → Prop} {ms : List Move} {σ σ' : Session}
    {d : Draft} {c : Chunk} (h : Along K ms σ σ') (hms : Move.pieces ms = [])
    (hconst : ∀ v, .constant v ∉ ms) (hs : ∀ i ∈ Move.emitted ms, i.settled = true)
    (hd : σ'.draft.Grows d) (hc : d.finish = .ok c) :
    c.Holds σ.draft.position (Move.emitted ms) ∧
      σ'.draft.position = σ.draft.position + (Move.emitted ms).length := by
  induction ms generalizing σ with
  | nil =>
      obtain rfl : σ = σ' := h
      exact ⟨.nil, rfl⟩
  | cons m ms ih =>
      obtain ⟨σ₁, hm, h⟩ := h
      have hconst' : ∀ v, .constant v ∉ ms := fun v hv => hconst v (List.mem_cons_of_mem _ hv)
      obtain hm | ⟨p, b, rfl, -⟩ := hm.does_or_piece
      case inr => cases hms
      cases m with
      | piece p b => exact hm.elim
      | constant v => exact absurd List.mem_cons_self (hconst v)
      | emit i =>
          have hs' : ∀ j ∈ Move.emitted ms, j.settled = true :=
            fun j hj => hs j (List.mem_cons_of_mem i hj)
          obtain ⟨hrest, hpos⟩ := ih h hms hconst' hs'
          have hstep : σ₁.draft.position = σ.draft.position + 1 := hm.position
          obtain ⟨j, hj, hr⟩ := Move.acts_emit_at hm ((h.grows_flat hms).trans hd) hc
          have hsettled : i.settled = true := hs i List.mem_cons_self
          obtain ⟨_, hb, ho⟩ | ⟨rfl, -⟩ :=
            Draft.resolves_of_seeks (by simp [Instruction.seeks, hsettled]) hr
          · -- It is no branch, so it is not one that was resolved.
            have hop : j.opcode = i.opcode := (Draft.resolveInstruction_eq_ok hr).1
            simp [Instruction.settled, Instruction.branches, ← hop] at hsettled hb
            simp [hsettled] at hb
          · rw [hstep] at hrest hpos
            refine ⟨.cons hj hrest, ?_⟩
            rw [hpos, Move.emitted, List.length_cons]
            omega
      | _ =>
          have hstep : σ₁.draft.position = σ.draft.position := hm.position
          rw [← hstep]
          exact ih h hms hconst' hs

/-! ### Arguments -/

namespace Session

/-- The value of `e` has to be converted before it is passed to the parameter. -/
def converts (σ : Session) (e : Expr) (q : SubParam) : Bool :=
  !q.type.isUnknown && (σ.typeOf e).fit q.type = .castable

/-- The instructions behind the code of an argument: a copy, if the parameter is one, and a conversion,
if the static type of the argument needs one.  There are none behind an argument that no parameter
is declared for. -/
def handover (σ : Session) (e : Expr) : Option SubParam → List Instruction
  | none => []
  | some q =>
    (if q.copy then [.bare .copy] else []) ++ if σ.converts e q then [.toCompatible q.type] else []

end Session

/-- What is emitted behind an argument that fits. -/
theorem Enforces.handover {K : Piece → Bool → Session → Session → Prop} {e : Expr} {q : SubParam}
    {cs : List Move} {σ σ' : Session} (h : Enforces e q.type .argument cs true)
    (ha : Along K (Move.when q.copy (.bare .copy) ++ cs) σ σ') :
    Move.emitted (Move.when q.copy (.bare .copy) ++ cs) = σ.handover e (some q) := by
  obtain ⟨τ, hcopy, hcs⟩ := along_append.mp ha
  have htype : τ.typeOf e = σ.typeOf e := by
    cases hq : q.copy with
    | false =>
        rw [hq] at hcopy
        obtain rfl : σ = τ := hcopy
        rfl
    | true =>
        rw [hq] at hcopy
        obtain ⟨_, hemit, rfl⟩ := hcopy
        obtain rfl := Move.acts_emit.mp hemit
        exact @Session.typeOf_congr σ { σ with draft := σ.draft.emit (.bare .copy) } rfl rfl rfl e
  cases h with
  | free hu => cases hq : q.copy <;> simp [Move.when, Move.emitted, Session.handover,
      Session.converts, hu, hq]
  | identical hu hf =>
      obtain ⟨_, ⟨rfl, rfl⟩, -⟩ := hcs
      rw [htype] at hf
      cases hq : q.copy <;> simp [Move.when, Move.emitted, Session.handover, Session.converts, hu,
        hq, hf]
  | castable hu hf =>
      obtain ⟨_, ⟨rfl, rfl⟩, -⟩ := hcs
      rw [htype] at hf
      cases hq : q.copy <;> simp [Move.when, Move.emitted, Session.handover, Session.converts, hu,
        hq, hf]

namespace Program

variable {p : Program} {name : String} {options : CompileOptions} {u : CompiledUnit}

/-- From `a` to `b` the code is that of the arguments, the last argument first.  Behind the code of
each stands what its parameter asks for, and nothing else. -/
def ArgumentCode (p : Program) (name : String) (options : CompileOptions) (c : Chunk) :
    List Expr → List SubParam → Nat → Nat → Prop
  | [], _, a, b => a = b
  | e :: es, ps, a, b => ∃ τ τ', ArgumentCode p name options c es ps.tail a τ.draft.position ∧
      p.Lowered name options (.expr e) true τ τ' ∧
      c.Holds τ'.draft.position (τ'.handover e ps.head?) ∧
      b = τ'.draft.position + (τ'.handover e ps.head?).length

/-- A part of a piece of the program is a piece of the program. -/
theorem Lowered.part {q r : Piece} {b e : Bool} {τ τ' υ υ' : Session}
    (h : p.Lowered name options q b τ τ') (hp : Part q b τ τ' r e υ υ') :
    p.Lowered name options r e υ υ' :=
  h.trans (.part .self hp)

/-- **Arguments are lowered from the last to the first.** -/
theorem Lowered.argumentCode {es : List Expr} {ps : List SubParam} {τ τ' : Session}
    (hargs : p.Lowered name options (.args es ps) true τ τ') (h : compile name options p = .ok u) :
    p.ArgumentCode name options u.chunk es ps τ.draft.position τ'.draft.position := by
  obtain ⟨σ, hl, -, hfin⟩ := lowers_of_compile h
  induction es generalizing ps τ τ' with
  | nil =>
      obtain ⟨ms, hu, ha⟩ := (hargs.within hl).1.unfolds
      cases hu with
      | argsNil =>
      obtain rfl : τ = τ' := ha
      rfl
  -- The template lowers the rest of the list first, so that the induction gives the code in front.
  | cons e es ih =>
      obtain ⟨hlow, -, hbehind⟩ := hargs.within hl
      obtain ⟨ms, hu, ha⟩ := hlow.unfolds
      cases hu with
      | argsFree =>
          obtain ⟨υ, hes, υ', he, rfl⟩ := ha
          have hrest := ih (hargs.part ⟨[], [_], .argsFree, rfl, hes, υ', he, rfl⟩)
          exact ⟨υ, υ', hrest, hargs.part ⟨[_], [], .argsFree, ⟨υ, hes, rfl⟩, he, rfl⟩, .nil, rfl⟩
      | @argsHeld _ _ q ps cs _ hc =>
          have hu := @Unfolds.argsHeld e es q ps cs true hc
          obtain ⟨υ, hes, υ', he, hafter⟩ : Along Lowers (.piece (.args es ps) true ::
            .piece (.expr e) true :: (Move.when q.copy (.bare .copy) ++ cs)) τ τ' := by
            simpa using ha
          have hrest := ih (hargs.part ⟨[], _, hu, rfl, hes, υ', he, hafter⟩)
          have hthis := hargs.part ⟨[_], Move.when q.copy (.bare .copy) ++ cs, hu, ⟨υ, hes, rfl⟩,
            he, hafter⟩
          have hemitted := hc.handover hafter
          obtain ⟨hholds, hpos⟩ := hafter.holds (by simp [hc.pieces])
            (by cases hc <;> cases q.copy <;> simp [Move.when])
            (by
              rw [hemitted]
              intro i hi
              simp only [Session.handover, List.mem_append] at hi
              rcases hi with hi | hi <;> split at hi <;> simp at hi <;> subst hi <;> rfl)
            (hbehind.grows.trans .emit) hfin
          rw [hemitted] at hholds hpos
          exact ⟨υ, υ', hrest, hthis, hholds, hpos⟩

end Program

/-! ### Argument lists -/

/-- The move makes an argument list. -/
def Move.gathers : Move → Bool
  | .emit i => i.opcode = .makeArgArray
  | _ => false

/-- The last instruction emitted is not the making of an argument list. -/
def Session.Ready (σ : Session) : Prop :=
  ∀ n i, σ.draft.position = n + 1 → σ.draft.chunk.instructions[n]? = some i →
    i.opcode ≠ .makeArgArray

/-- A move that makes no argument list leaves the session ready. -/
theorem Move.Does.ready {m : Move} {σ σ' : Session} (h : m.Does σ σ') (hm : m.gathers = false)
    (hσ : σ.Ready) : σ'.Ready := by
  intro n i hn hi
  rcases Nat.lt_or_ge n σ.draft.position with hlt | hge
  · rw [h.grows.instruction_eq hlt] at hi
    have := h.grows.position_le
    exact hσ n i (by omega) hi
  · obtain rfl := h.width_le hge (hn ▸ Nat.lt_succ_self n)
    rcases h.emitted hi with rfl | ⟨-, index, rfl⟩
    · simpa [Move.gathers] using hm
    · simp [Instruction.loadConst]

/-- A row of such moves leaves the session ready, if its pieces do. -/
theorem Along.ready {K : Piece → Bool → Session → Session → Prop} {ms : List Move} {σ σ' : Session}
    (hK : ∀ {p b σ σ'}, K p b σ σ' → σ.Ready → σ'.Ready) (hms : ms.all (!·.gathers) = true)
    (h : Along K ms σ σ') (hσ : σ.Ready) : σ'.Ready :=
  h.keeps (fun hm hd => hd.ready (by simpa using List.all_eq_true.mp hms _ hm)) (fun _ => hK) hσ

theorem Enforces.gathers {e : Expr} {type : ValueType} {role : Role} {cs : List Move} {ok : Bool}
    (h : Enforces e type role cs ok) : cs.all (!·.gathers) = true := by
  cases h <;> rfl

theorem ReturnsUndef.gathers {s : Span} {ms : List Move} (h : ReturnsUndef s ms) :
    ms.all (!·.gathers) = true := by
  obtain ⟨hc⟩ := h
  simp only [List.all_cons, List.all_append, hc.gathers]
  rfl

theorem Closes.gathers {s : Span} {ends : Bool} {ms : List Move} (h : Closes s ends ms) :
    ms.all (!·.gathers) = true := by
  cases h with
  | returned => rfl
  | fallen h => exact h.gathers

/-- A template makes an argument list only at its end, for the call that it ends with. -/
theorem Unfolds.gathers {p : Piece} {ms : List Move} {b : Bool} (h : Unfolds p ms b) :
    ∃ front rest, ms = front ++ rest ∧ front.all (!·.gathers) = true ∧
      (rest = [] ∨ ∃ n x s l argc, rest =
        [.emit (.makeArgArray n), .use x s true, .emit (.call l argc)]) := by
  have hnone (hall : ms.all (!·.gathers) = true) : ∃ front rest, ms = front ++ rest ∧
      front.all (!·.gathers) = true ∧ (rest = [] ∨ ∃ n x s l argc, rest =
        [.emit (.makeArgArray n), .use x s true, .emit (.call l argc)]) :=
    ⟨ms, [], (List.append_nil ms).symm, hall, .inl rfl⟩
  cases h with
  | @call name absolute args s owner sub _ _ _ =>
      cases hu : sub.usesArgList with
      | false =>
          rw [hu] at hnone
          exact hnone rfl
      | true => exact ⟨[_, _, _], [_, _, _], rfl, rfl, .inr ⟨_, _, _, _, _, rfl⟩⟩
  | sub _ _ hclose =>
      refine hnone ?_
      simp only [List.all_append, hclose.gathers, Move.argListSlot]
      split <;> rfl
  | assignVar hc | assignVarMismatch hc | assignDeclare hc | assignDeclareMismatch hc | ret hc
  | bodyExpr hc =>
      refine hnone ?_
      simp only [List.all_cons, List.all_append, hc.gathers]
      rfl
  | @argsHeld _ _ q _ _ _ hc =>
      refine hnone ?_
      simp only [List.all_append, hc.gathers]
      cases q.copy <;> rfl
  | retUndef h => exact hnone h.gathers
  | @next _ control => cases control <;> exact hnone rfl
  | @checkpoint _ on => cases on <;> exact hnone rfl
  | @cond _ _ _ rest => cases rest <;> exact hnone rfl
  | @loop init condition step => cases init <;> cases condition <;> cases step <;> exact hnone rfl
  | @package kind => cases kind <;> exact hnone rfl
  | @bool v => cases v <;> exact hnone rfl
  | @binary o => cases o <;> exact hnone rfl
  | @unary o => cases o <;> exact hnone rfl
  | _ => exact hnone rfl

/-- Lowering a piece leaves the session ready. -/
theorem Lowers.ready {p : Piece} {b : Bool} {σ σ' : Session} (h : Lowers p b σ σ') (hσ : σ.Ready) :
    σ'.Ready := by
  refine Lowers.ind (P := fun _ _ σ σ' => σ.Ready → σ'.Ready) ?_ h hσ
  intro p b ms σ σ' hu ha hσ
  obtain ⟨front, rest, rfl, hfront, hrest⟩ := hu.gathers
  obtain ⟨τ, h₁, h₂⟩ := along_append.mp ha
  have hτ := h₁.ready And.right hfront hσ
  rcases hrest with rfl | ⟨n, x, s, l, argc, rfl⟩
  · obtain rfl : τ = σ' := h₂
    exact hτ
  · -- The call is emitted last.
    obtain ⟨_, -, τ₂, -, _, hemit, rfl⟩ := h₂
    obtain rfl := Move.acts_emit.mp hemit
    intro n i hn hi
    obtain rfl : n = τ₂.draft.position := by
      simpa [Draft.emit, Chunk.emit, Draft.position, Chunk.size, eq_comm] using hn
    obtain rfl : Instruction.call l argc = i := by
      simpa [Draft.emit, Chunk.emit, Draft.position, Chunk.size] using hi
    simp [Instruction.call]

/-- **No piece is lowered directly behind the making of an argument list.** -/
theorem Visits.ready {p q : Piece} {b e : Bool} {σ σ' τ τ' : Session}
    (h : Visits p b σ σ' q e τ τ') (hσ : σ.Ready) : τ.Ready := by
  induction h with
  | self => exact hσ
  | @part q r c d τ τ' υ υ' _ hpart ih =>
      obtain ⟨ms, ns, hu, h₁, -, -⟩ := hpart
      refine h₁.ready Lowers.ready ?_ ih
      obtain ⟨front, rest, heq, hfront, hrest⟩ := hu.gathers
      rcases List.append_eq_append_iff.mp heq with ⟨l, rfl, -⟩ | ⟨l, rfl, hl⟩
      · rw [List.all_append, Bool.and_eq_true] at hfront
        exact hfront.1
      · rcases hrest with rfl | ⟨n, x, s, l', argc, rfl⟩
        · simp at hl
        · have hmem : Move.piece r d ∈ l ++ Move.piece r d :: ns := by simp
          rw [← hl] at hmem
          simp at hmem

/-- Nor is it in the finished code. -/
theorem Session.Ready.finished {σ : Session} {d : Draft} {c : Chunk} {k : Nat} {i : Instruction}
    (h : σ.Ready) (hd : σ.draft.Grows d) (hc : d.finish = .ok c) (hk : σ.draft.position = k + 1)
    (hi : c.instructions[k]? = some i) : i.opcode ≠ .makeArgArray := by
  have hlt : k < σ.draft.position := hk ▸ Nat.lt_succ_self k
  obtain ⟨j, hj⟩ : ∃ j, σ.draft.chunk.instructions[k]? = some j :=
    ⟨_, Array.getElem?_eq_getElem hlt⟩
  obtain ⟨j', hj', hr⟩ := (Draft.finish_eq_ok hc).2.2 (hd.instruction hj)
  obtain rfl := Option.some.inj (hj'.symm.trans hi)
  rw [(Draft.resolveInstruction_eq_ok hr).1]
  exact h k j hk hj

namespace Program

variable {p : Program} {name : String} {options : CompileOptions} {u : CompiledUnit}

theorem entry_ready : (p.entry name options).Ready := by
  intro n i hn hi
  have hcode : ((Session.start name options).declareStmts PackageTree.root p.body).draft.chunk = {} :=
    Session.declareStmts_knows.code
  obtain rfl : n = 0 := by
    rw [entry_position] at hn
    exact (Nat.succ.inj hn).symm
  obtain rfl : Instruction.pushFrame 0 (slotsNeeded p.body).toUInt16 = i := by
    simpa [entry, Draft.emit, Chunk.emit, hcode] using hi
  simp [Instruction.pushFrame]

end Program

/-! ### Slots of arguments -/

namespace Scopes

/-- An argument gets the next slot, and its name stands for it. -/
theorem bindArgument_resolve {s s' : Scopes} {name : String} {type : ValueType} {slot : Slot}
    (h : bindArgument name type s = (.ok slot, s')) :
    slot.toNat = s.taken ∧ s'.taken = s.taken + 1 ∧
      ∀ x, s'.resolve? x = if name = x then some ⟨slot, type⟩ else s.resolve? x := by
  obtain ⟨a, r, hs, ha, hslot, hs'⟩ := bindArgument_ok h
  have hresolve {a : Scope} {r : List Scope} {x : String} (ha : a.isSubroutine = true) :
      resolve?.go x (a :: r) = a.binding? x := by
    unfold resolve?.go
    cases a.binding? x <;> simp [ha]
  have ha' : ({ a with nextSlot := a.nextSlot + 1 }.bindArgument name ⟨slot, type⟩).isSubroutine
      = true := ha
  refine ⟨?_, ?_, fun x => ?_⟩
  · rw [hslot, taken, hs, taken.go, if_pos ha]
  · rw [taken, taken, hs, hs', taken.go, taken.go, if_pos ha, if_pos ha']
    rfl
  · rw [resolve?, resolve?, hs, hs', hresolve ha, hresolve ha', binding?_bindArgument]
    rfl

end Scopes

/-- The parameters are bound one after the other, the first to the slot `k`, and so on. -/
def Allocates : Nat → List SubParam → Session → Session → Prop
  | _, [], σ, σ' => σ = σ'
  | k, q :: ps, σ, σ' => ∃ slot τ, Lower.bindArgument q.name q.type σ = (.ok slot, τ) ∧
      slot.toNat = k ∧ Allocates (k + 1) ps τ σ'

/-- Parameters get the slots that follow one another. -/
theorem allocates_of_bindParams {ps : List SubParam} {σ σ' : Session}
    (h : Lower.bindParams ps σ = (.ok (), σ')) : Allocates σ.scopes.taken ps σ σ' := by
  induction ps generalizing σ with
  | nil =>
      obtain ⟨-, rfl⟩ := Step.pure_eq_ok.mp h
      rfl
  | cons q ps ih =>
      obtain ⟨slot, τ, h₁, h₂⟩ := Step.bind_eq_ok.mp h
      obtain ⟨s, hs, rfl⟩ := Move.onScopes_eq_ok.mp h₁
      obtain ⟨hslot, htaken, -⟩ := Scopes.bindArgument_resolve hs
      have hrest := ih h₂
      rw [show Session.scopes _ = s from rfl, htaken] at hrest
      exact ⟨slot, _, h₁, hslot, hrest⟩

namespace Allocates

variable {k : Nat} {ps : List SubParam} {σ σ' : Session}

/-- A name that no parameter has stands for what it did. -/
theorem resolve_of_not_mem (h : Allocates k ps σ σ') {x : String} (hx : ∀ q ∈ ps, q.name ≠ x) :
    σ'.scopes.resolve? x = σ.scopes.resolve? x := by
  induction ps generalizing σ k with
  | nil =>
      obtain rfl : σ = σ' := h
      rfl
  | cons q ps ih =>
      obtain ⟨slot, _, h₁, -, h₂⟩ := h
      obtain ⟨s, hs, rfl⟩ := Move.onScopes_eq_ok.mp h₁
      rw [ih h₂ fun q hq => hx q (List.mem_cons_of_mem _ hq)]
      rw [(Scopes.bindArgument_resolve hs).2.2, if_neg (hx q List.mem_cons_self)]

/-- The name of a parameter stands for its slot, unless a later parameter has the name as well. -/
theorem resolve (h : Allocates k ps σ σ') {i : Nat} {q : SubParam} (hq : ps[i]? = some q)
    (hlast : ∀ j r, i < j → ps[j]? = some r → r.name ≠ q.name) :
    ∃ slot, σ'.scopes.resolve? q.name = some ⟨slot, q.type⟩ ∧ slot.toNat = i + k := by
  induction ps generalizing σ k i with
  | nil => simp at hq
  | cons q' ps ih =>
      obtain ⟨slot, _, h₁, hslot, h₂⟩ := h
      obtain ⟨s, hs, rfl⟩ := Move.onScopes_eq_ok.mp h₁
      cases i with
      | zero =>
          obtain rfl : q' = q := Option.some.inj hq
          refine ⟨slot, ?_, by omega⟩
          rw [h₂.resolve_of_not_mem, (Scopes.bindArgument_resolve hs).2.2, if_pos rfl]
          intro r hr
          obtain ⟨j, hj⟩ := List.getElem?_of_mem hr
          exact hlast (j + 1) r (Nat.succ_pos j) hj
      | succ i =>
          obtain ⟨slot', hresolve, hslot'⟩ := ih h₂ hq fun j r hij hj =>
            hlast (j + 1) r (Nat.succ_lt_succ hij) hj
          exact ⟨slot', hresolve, by omega⟩

end Allocates

namespace Program

variable {p : Program} {name : String} {options : CompileOptions} {u : CompiledUnit}

/-- The side of the subroutine whose frame is at `t`: the frame has room for the parameters, and for
the argument list if the body mentions it; behind it the argument list gets the first slot and the
parameters those that follow, and the body is lowered with these slots. -/
structure Receives (p : Program) (name : String) (options : CompileOptions) (c : Chunk)
    (head : SubHead) (body : List Stmt) (ps : List SubParam) (t : Nat) : Prop where
  frame : ∃ params locals, c.instructions[t]? = some (.pushFrame params locals) ∧
    params.toNat = ps.length + (mentionsArgList body).toNat
  slots : ∃ ρ ρ₁ ρ₂ ρ' ends, ρ.draft.position = t + 1 ∧
    (if mentionsArgList body then
      Lower.bindArgument argList (.array .unknown) ρ = (.ok 0, ρ₁) else ρ = ρ₁) ∧
    Allocates (mentionsArgList body).toNat ps ρ₁ ρ₂ ∧
    p.Lowered name options (.body head.returnType body) ends ρ₂ ρ' ∧
    (∀ i q, ps[i]? = some q → (∀ j r, i < j → ps[j]? = some r → r.name ≠ q.name) →
      ∃ slot, ρ₂.scopes.resolve? q.name = some ⟨slot, q.type⟩ ∧
        slot.toNat = i + (mentionsArgList body).toNat) ∧
    (mentionsArgList body = true → (∀ q ∈ ps, q.name ≠ argList) →
      ρ₂.scopes.resolve? argList = some ⟨0, .array .unknown⟩)

/-- The side of the caller, whose code begins at `start` and whose call stands at `position`: it passes
as many arguments as there are parameters or more, and the argument list in front of them if the
subroutine mentions it, and calls the frame at `t`. -/
structure Passes (p : Program) (name : String) (options : CompileOptions) (c : Chunk)
    (args : List Expr) (ps : List SubParam) (uses : Bool) (start position t : Nat) : Prop where
  enough : ps.length ≤ args.length
  call : ∃ argc, c.instructions[position]? = some ⟨.call, some (.call (.address t) argc)⟩ ∧
    argc.toNat = args.length + uses.toNat
  list : ∃ k, position = k + 1 ∧
    ∀ n, c.instructions[k]? = some (.makeArgArray n) ↔ uses = true ∧ n.toNat = args.length
  code : ∃ stop, stop + uses.toNat = position ∧
    p.ArgumentCode name options c args ps start stop

/-- A subroutine receives its arguments where its frame is opened. -/
theorem Lowered.received {head : SubHead} {body : List Stmt} {ps : List SubParam} {b : Bool}
    {τ τ' : Session} (hsub : p.Lowered name options (.stmt (.sub head body)) b τ τ')
    (hps : head.params.mapM Param.resolve = .ok ps) (h : compile name options p = .ok u) :
    p.Receives name options u.chunk head body ps (τ.draft.position + 1) := by
  obtain ⟨σ, hl, hcount, hfin⟩ := lowers_of_compile h
  obtain ⟨hlow, -, hbehind⟩ := hsub.within hl
  have hcount' : τ'.report.count = 0 := hbehind.count_eq_zero hcount
  obtain ⟨ms, hu, ha⟩ := hlow.unfolds
  obtain ⟨ms, ends, ns, ρ₂, ρ', rfl, ha₁, hbody, ha₂⟩ :=
    ha.exists_piece (q := .body head.returnType body)
      (by rw [hu.sub_pieces (ha.quiet_of_lowers hcount')]; simp)
  have hpart : Part _ _ _ _ _ _ ρ₂ ρ' := ⟨ms, ns, hu, ha₁, hbody, ha₂⟩
  cases (hpart.subRun hcount').2 with
  | @intro ps' sub skip slot ends' close σ₁ σ₂ ρ ρ'' σ₅ hps' _ hclose h₁ h₂ h₃ hbody' h₅ h₆ =>
  obtain ⟨hrun, hρ, hρ'⟩ := hbody'
  obtain rfl : ρ = ρ₂ := hρ
  obtain rfl : ρ'' = ρ' := hρ'
  obtain rfl : ps' = ps := Except.ok.inj (hps'.symm.trans hps)
  obtain ⟨hpos₃, -, -, -, hframe, -⟩ :=
    SubRun.layout hclose h₁ h₂ h₃ hrun.grows h₅ h₆ (hbehind.grows.trans .emit) hfin
  -- Nothing has been bound in the frame, and the argument list is bound first.
  have htaken : σ₂.scopes.taken = 0 := by
    rw [h₂.scopes rfl rfl, SubRun.entered h₁]
    rfl
  have hpos : σ₂.draft.position = τ.draft.position + 1 + 1 := by
    have e₁ : σ₁.draft.position = τ.draft.position := h₁.position rfl
    have e₂ : σ₂.draft.position = σ₁.draft.position + 2 := h₂.position rfl
    omega
  have hroom : ps'.length + (mentionsArgList body).toNat < UInt16.size := by
    obtain ⟨_, -, _, -, _, ⟨hroom, -⟩, -⟩ := h₁
    exact hroom
  obtain ⟨ρ₁, hlist, ρ₃, hparams, hρ₃⟩ := along_append.mp h₃
  obtain rfl : ρ₃ = ρ := hρ₃
  refine ⟨⟨_, _, hframe, Nat.mod_eq_of_lt hroom⟩, σ₂, ρ₁, ρ₃, ρ'', ends, hpos, ?_⟩
  have hparams := allocates_of_bindParams hparams
  cases hm : mentionsArgList body with
  | false =>
      rw [hm] at hlist
      obtain rfl : σ₂ = ρ₁ := hlist
      rw [htaken] at hparams
      exact ⟨rfl, hparams, hsub.part hpart, fun i q hq hlast => hparams.resolve hq hlast, nofun⟩
  | true =>
      rw [hm] at hlist
      obtain ⟨_, hbind, rfl⟩ := hlist
      obtain ⟨s, hs, rfl⟩ := Move.onScopes_eq_ok.mp hbind
      obtain ⟨hslot, htaken', hresolve⟩ := Scopes.bindArgument_resolve hs
      obtain rfl : slot = 0 := UInt16.toNat_inj.mp (hslot.trans htaken)
      rw [show Session.scopes _ = s from rfl, htaken', htaken] at hparams
      refine ⟨hbind, hparams, hsub.part hpart, fun i q hq hlast => hparams.resolve hq hlast,
        fun _ hnames => ?_⟩
      rw [hparams.resolve_of_not_mem hnames]
      exact (hresolve argList).trans (if_pos rfl)

/-- A call passes its arguments where the subroutine receives them. -/
theorem Lowered.passed {x : String} {args : List Expr} {s : Span} {owner : PackageId}
    {sub : Subroutine} {t : Nat} {τ τ₁ τ₂ τ' : Session}
    (hcall : p.Lowered name options (.expr (.call x args s)) true τ τ')
    (hrun : CallRun Lowers x args s owner sub τ τ₁ τ₂ τ')
    (hi : u.chunk.instructions[τ₂.draft.position]? = some ⟨.call, some (.call (.address t)
      (args.length + sub.usesArgList.toNat).toUInt8)⟩) (h : compile name options p = .ok u) :
    p.Passes name options u.chunk args sub.params sub.usesArgList τ.draft.position
      τ₂.draft.position t := by
  obtain ⟨σ, hl, -, hfin⟩ := lowers_of_compile h
  have hcode := (hcall.part hrun.part).argumentCode h
  obtain ⟨-, hbefore, hbehind⟩ := hcall.within hl
  have hargs : τ.draft.Grows τ₁.draft := hrun.arguments.before.grows
  have hfirst : 0 < τ₁.draft.position := by
    have h₁ := hbefore.grows.position_le
    have h₂ := hargs.position_le
    rw [entry_position] at h₁
    omega
  have hgrow : τ₂.draft.Grows σ.halted.draft :=
    (hrun.call.before.grows.trans hbehind.grows).trans .emit
  refine ⟨hrun.enough, ⟨_, hi, Nat.mod_eq_of_lt hrun.few⟩, ?_, ?_⟩
  · cases hm : sub.usesArgList with
    | false =>
        have hlist := hrun.list
        rw [hm] at hlist
        obtain rfl : τ₁ = τ₂ := hlist
        obtain ⟨k, hk⟩ := Nat.exists_eq_add_of_lt hfirst
        rw [Nat.zero_add] at hk
        refine ⟨k, hk, fun n => ⟨fun hn => ?_, nofun⟩⟩
        -- Whatever was emitted last, it was not the making of an argument list.
        obtain ⟨σ', -, hv⟩ := hcall.part hrun.part
        have hready : τ₁.Ready := hrun.arguments.ready (hv.ready entry_ready)
        exact absurd rfl (hready.finished hgrow hfin hk hn)
    | true =>
        have hlist := hrun.list
        rw [hm] at hlist
        obtain ⟨_, hmake, rfl⟩ := hlist
        refine ⟨τ₁.draft.position, Move.Does.position (m := .emit _) hmake, fun n => ?_⟩
        obtain ⟨j, hj, hr⟩ := Move.acts_emit_at hmake hgrow hfin
        obtain rfl : Instruction.makeArgArray args.length.toUInt16 = j := Except.ok.inj hr
        have hlength : args.length.toUInt16.toNat = args.length :=
          Nat.mod_eq_of_lt (Nat.lt_trans (Nat.lt_of_le_of_lt (Nat.le_add_right _ _) hrun.few)
            (by decide))
        constructor
        · intro hn
          cases hj.symm.trans hn
          exact ⟨rfl, hlength⟩
        · rintro ⟨-, hn⟩
          obtain rfl := UInt16.toNat_inj.mp (hn.trans hlength.symm)
          exact hj
  · refine ⟨τ₁.draft.position, ?_, hcode⟩
    have hlist := hrun.list.position (by cases sub.usesArgList <;> rfl)
    cases hm : sub.usesArgList <;> simpa [Move.when, hm, Move.width, eq_comm] using hlist

end Program

/-- **The calling convention.**  A call that is recorded as resolved is a call of a subroutine of the
program, the one that its name means where it is lowered, and caller and subroutine agree: on how many
values are passed, in which order and with which conversions, and on the slots they are found in. -/
theorem compile_calling_convention {p : Program} {name : String} {options : CompileOptions}
    {u : CompiledUnit} {c : CallSite} (h : compile name options p = .ok u) (hc : c ∈ u.uses)
    (hr : c.resolved = true) :
    ∃ x args owner sub τ τ' head body ps f υ υ',
      p.Lowered name options (.expr (.call x args c.span)) true τ τ' ∧
      Means x (some (owner, sub)) τ ∧ c.name = τ.packages.qualify owner (Path.base x) ∧
      p.Lowered name options (.stmt (.sub head body)) f υ υ' ∧
      υ.package = owner ∧ head.name = Path.base x ∧ head.params.mapM Param.resolve = .ok ps ∧
      p.Passes name options u.chunk args ps (mentionsArgList body) τ.draft.position c.position
        (υ.draft.position + 1) ∧
      p.Receives name options u.chunk head body ps (υ.draft.position + 1) := by
  obtain ⟨σ, hl, -, huses, -⟩ := Program.tables_of_compile h
  obtain ⟨q, e, τ, τ', ρ, ρ', hv, hmakes, hpos⟩ :=
    Lowers.visits_of_use hl (by simp [Program.entry_uses]) (huses ▸ hc)
  rw [hr] at hmakes
  obtain ⟨x, args, s, owner, sub, τ₁, τ₂, rfl, hrun, huse, hpos'⟩ := hmakes.call rfl
  obtain ⟨hname, hspan⟩ : c.name = τ.packages.qualify owner (Path.base x) ∧ c.span = s := by
    simpa using huse
  subst hspan
  obtain ⟨ms, hu, -⟩ := (hv.within hl).1.unfolds
  obtain rfl := hu.expr_result
  have hcall : p.Lowered name options (.expr (.call x args c.span)) true τ τ' := ⟨σ, hl, hv⟩
  obtain ⟨head, body, f, υ, υ', hsub, hid, hx, hdesc, hi⟩ := Program.call_target h hcall hrun
  have hpasses := hcall.passed hrun hi h
  rw [← hpos', ← hpos, hdesc.usesArgList] at hpasses
  exact ⟨x, args, owner, sub, τ, τ', head, body, sub.params, f, υ, υ', hcall, hrun.means, hname, hsub,
    hid, hx, hdesc.params, hpasses, hsub.received hdesc.params h⟩

/-- A subroutine that is called before its declaration, from another package and from itself.  It takes
a copy and a number, and counts its arguments. -/
def tallying : Program where
  body := [
    .expr (.call "tally" [.str "a" {}, .integer 2 {}, .bool true {}] {}),
    .sub
      { name := "tally", params := [⟨.var "$first" {}, true⟩, ⟨.typed .num (.var "$n" {}) {}, false⟩] } [
      .expr (.call "tally" [.var "$first" {}, .call "elems" [.var "@_" {}] {}] {})],
    .package .package "Other" [.expr (.call "tally" [.undefined {}, .float ⟨0⟩ {}] {})]]

/-- The three calls of `tallying` are resolved, and each passes what its subroutine receives. -/
theorem compile_calling_convention_tallying :
    ∃ u, compile "main" {} tallying = .ok u ∧ u.uses.size = 3 ∧ ∀ c ∈ u.uses, c.resolved = true ∧
      ∃ args head body ps start t,
        tallying.Passes "main" {} u.chunk args ps (mentionsArgList body) start c.position t ∧
        tallying.Receives "main" {} u.chunk head body ps t := by
  have hrun : (compile "main" {} tallying).toOption.map (fun u => (u.uses.size, u.uses.all (·.resolved)))
      = some (3, true) := by decide +kernel
  cases h : compile "main" {} tallying with
  | error e => simp [h, Except.toOption] at hrun
  | ok u =>
      rw [h] at hrun
      obtain ⟨hsize, hall⟩ := Prod.mk.inj (Option.some.inj hrun)
      refine ⟨u, rfl, hsize, fun c hc => ?_⟩
      have hr : c.resolved = true := Array.all_eq_true_iff_forall_mem.mp hall c hc
      obtain ⟨_, args, _, _, τ, _, head, body, ps, _, υ, _, -, -, -, -, -, -, -, hpasses, hreceives⟩ :=
        compile_calling_convention h hc hr
      exact ⟨hr, args, head, body, ps, _, _, hpasses, hreceives⟩

end StackScript
