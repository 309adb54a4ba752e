import StackScript.Proofs.Declarations
import StackScript.Proofs.Stack.Places

/-!
# Where calls come from and where they go

Of the instructions that lowering emits, a few refer to other places: jumps to labels, frames, calls
and constants.  All others mean the same wherever they stand (`Instruction.settled`).

* `Unfolds.callee`: calls are emitted, and recorded, by two lines of the table only.
* `Program.emitter_of_instruction`: every instruction of a unit comes from a move of a piece of the program.
* `Program.call_target`: a call in a unit goes to the frame of the subroutine that its name means
  there.
-/

namespace StackScript

/-! ### Instructions that refer to other places -/

namespace Instruction

/-- The instruction refers to no other place and to no constant, and it is neither the beginning of a
body nor the end of the program. -/
def settled (i : Instruction) : Bool :=
  !i.branches && i.opcode ∉ [.call, .pushFrame, .halt, .loadConst] &&
    match i.operand with
    | some (.label _) | some (.offset _) | some (.call _ _) | some (.constant _) => false
    | _ => true

/-- The instruction is settled, or it goes to a label. -/
def seeks (i : Instruction) : Bool := i.settled || i.branches && i.label?.isSome

end Instruction

namespace Move

/-- The move is about a call, and whether its subroutine is in the unit. -/
def callee? : Move → Option Bool
  | .use _ _ resolved => some resolved
  | .emit ⟨_, some (.call (.label _) _)⟩ => some true
  | .emit ⟨_, some (.call .unresolved _)⟩ => some false
  | _ => none

/-- The move emits nothing but settled instructions and jumps to labels, and records no call. -/
def common : Move → Bool
  | .emit i => i.seeks
  | .use _ _ _ => false
  | _ => true

end Move

theorem Enforces.common {e : Expr} {type : ValueType} {role : Role} {cs : List Move} {ok : Bool}
    (h : Enforces e type role cs ok) : cs.all Move.common = true := by
  cases h <;> rfl

theorem ReturnsUndef.common {s : Span} {ms : List Move} (h : ReturnsUndef s ms) :
    ms.all Move.common = true := by
  obtain ⟨hc⟩ := h
  have hc := hc.common
  simp only [List.all_cons, List.all_append, hc]
  rfl

theorem Closes.common {s : Span} {ends : Bool} {ms : List Move} (h : Closes s ends ms) :
    ms.all Move.common = true := by
  cases h with
  | returned => rfl
  | fallen h => exact h.common

/-- The two lines of the table that record a call and emit it: the moves before that, the name recorded,
the call, and whether its subroutine is in the unit. -/
inductive Calling (name : String) (args : List Expr) :
    List Move → String → Instruction → Bool → Prop where
  | call {absolute : String} {owner : PackageId} {sub : Subroutine} : Ordinary name →
      sub.params.length ≤ args.length → args.length + sub.usesArgList.toNat < UInt8.size →
      Calling name args
        ([Move.sees (Means name (some (owner, sub))),
            .sees fun σ => σ.packages.qualify owner (Path.base name) = absolute,
            .piece (.args args sub.params) true] ++
          Move.when sub.usesArgList (.makeArgArray args.length.toUInt16))
        absolute (.call sub.label (args.length + sub.usesArgList.toNat).toUInt8) true
  | external : args.length < UInt8.size →
      Calling name args [.sees (Means name none), .piece (.backward args) true]
        name (.placeholderCall args.length.toUInt8) false

theorem Calling.common {name x : String} {args : List Expr} {front : List Move} {i : Instruction}
    {r : Bool} (h : Calling name args front x i r) : front.all Move.common = true := by
  cases h with
  | @call _ _ sub => cases sub.usesArgList <;> rfl
  | external => rfl

theorem Calling.callee? {name x : String} {args : List Expr} {front : List Move} {i : Instruction}
    {r : Bool} (h : Calling name args front x i r) : (Move.emit i).callee? = some r := by
  cases h <;> rfl

/-- A template is one of a call, or one of a subroutine, or it has common moves only. -/
theorem Unfolds.calling_or_common {p : Piece} {ms : List Move} {b : Bool} (h : Unfolds p ms b) :
    (∃ name args s front x i r, p = .expr (.call name args s) ∧
        ms = front ++ [Move.use x s r, .emit i] ∧ Calling name args front x i r) ∨
      (∃ head body, p = .stmt (.sub head body)) ∨ ms.all Move.common = true := by
  cases h with
  | call ho h₁ h₂ => exact .inl ⟨_, _, _, _, _, _, true, rfl, rfl, .call ho h₁ h₂⟩
  | external _ h => exact .inl ⟨_, _, _, _, _, _, false, rfl, rfl, .external h⟩
  | sub | subParameter | subRedeclared => exact .inr (.inl ⟨_, _, rfl⟩)
  | assignVar hc | assignVarMismatch hc | assignDeclare hc | assignDeclareMismatch hc | ret hc
  | bodyExpr hc =>
      refine .inr (.inr ?_)
      simp only [List.all_cons, List.all_append, hc.common]
      rfl
  | @argsHeld _ _ p _ _ _ hc =>
      refine .inr (.inr ?_)
      simp only [List.all_append, hc.common]
      cases p.copy <;> rfl
  | retUndef h => exact .inr (.inr h.common)
  | @next _ control => cases control <;> exact .inr (.inr rfl)
  | @checkpoint _ on => cases on <;> exact .inr (.inr rfl)
  | @cond _ _ _ rest => cases rest <;> exact .inr (.inr rfl)
  | @loop init condition step =>
      cases init <;> cases condition <;> cases step <;> exact .inr (.inr rfl)
  | @package kind => cases kind <;> exact .inr (.inr rfl)
  | @bool v => cases v <;> exact .inr (.inr rfl)
  | @binary o => cases o <;> exact .inr (.inr rfl)
  | @unary o => cases o <;> exact .inr (.inr rfl)
  | _ => exact .inr (.inr rfl)

/-- The moves of a subroutine are common but for its frame. -/
theorem Unfolds.sub_common {head : SubHead} {body : List Stmt} {ms : List Move} {b : Bool} {m : Move}
    (h : Unfolds (.stmt (.sub head body)) ms b) (hm : m ∈ ms) :
    m.common = true ∨ ∃ params locals, m = .emit (.pushFrame params locals) := by
  cases h with
  | subParameter | subRedeclared => exact .inl (List.all_eq_true.mp rfl m hm)
  | sub _ _ hclose =>
      have hclose := List.all_eq_true.mp hclose.common m
      simp only [List.mem_append, List.mem_cons, List.not_mem_nil, or_false] at hm
      rcases hm with (((hm | hm) | hm) | hm) | hm
      · rcases hm with rfl | rfl | rfl | rfl | rfl | rfl | rfl | rfl | rfl <;>
          first | exact .inl rfl | exact .inr ⟨_, _, rfl⟩
      · unfold Move.argListSlot at hm
        split at hm
        · obtain rfl := List.mem_singleton.mp hm
          exact .inl rfl
        · cases hm
      · rcases hm with rfl | rfl <;> exact .inl rfl
      · exact .inl (hclose hm)
      · rcases hm with rfl | rfl | rfl <;> exact .inl rfl

theorem Move.callee?_of_common {m : Move} (h : m.common = true) : m.callee? = none := by
  cases m with
  | emit i =>
      obtain ⟨op, operand⟩ := i
      unfold common Instruction.seeks Instruction.settled Instruction.label? at h
      unfold callee?
      split <;> simp_all
  | use => cases h
  | _ => rfl

/-- **Calls are emitted and recorded by two lines of the table only**, at their end. -/
theorem Unfolds.callee {p : Piece} {ms : List Move} {b r : Bool} {m : Move} (h : Unfolds p ms b)
    (hm : m ∈ ms) (hr : m.callee? = some r) :
    ∃ name args s front x i, p = .expr (.call name args s) ∧
      ms = front ++ [Move.use x s r, .emit i] ∧ Calling name args front x i r ∧
      (m = .use x s r ∨ m = .emit i) := by
  have hcommon (hcommon : m.common = true) : False := by
    rw [Move.callee?_of_common hcommon] at hr
    cases hr
  rcases h.calling_or_common with
    ⟨name, args, s, front, x, i, r', rfl, rfl, hc⟩ | ⟨head, body, rfl⟩ | hall
  · rcases List.mem_append.mp hm with hm | hm
    · exact (hcommon (List.all_eq_true.mp hc.common m hm)).elim
    · have hm : m = .use x s r' ∨ m = .emit i := by simpa using hm
      obtain rfl : r' = r := by
        rcases hm with rfl | rfl
        · exact Option.some.inj hr
        · exact Option.some.inj (hc.callee?.symm.trans hr)
      exact ⟨name, args, s, front, x, i, rfl, rfl, hc, hm⟩
  · rcases h.sub_common hm with hm | ⟨params, locals, rfl⟩
    · exact (hcommon hm).elim
    · cases hr
  · exact (hcommon (List.all_eq_true.mp hall m hm)).elim

/-- What a piece emits itself. -/
theorem Unfolds.emits {p : Piece} {ms : List Move} {b : Bool} {i : Instruction} (h : Unfolds p ms b)
    (hm : .emit i ∈ ms) :
    i.seeks = true ∨
      (∃ head body params locals, p = .stmt (.sub head body) ∧ i = .pushFrame params locals) ∨
      (∃ l argc, i = .call l argc) ∨ ∃ argc, i = .placeholderCall argc := by
  rcases h.calling_or_common with
    ⟨name, args, s, front, x, i', r, rfl, rfl, hc⟩ | ⟨head, body, rfl⟩ | hcommon
  · rcases List.mem_append.mp hm with hm | hm
    · exact .inl (List.all_eq_true.mp hc.common _ hm)
    · obtain rfl : i = i' := by simpa using hm
      cases hc with
      | call => exact .inr (.inr (.inl ⟨_, _, rfl⟩))
      | external => exact .inr (.inr (.inr ⟨_, rfl⟩))
  · rcases h.sub_common hm with hcommon | ⟨params, locals, heq⟩
    · exact .inl hcommon
    · exact .inr (.inl ⟨head, body, params, locals, rfl, Move.emit.inj heq⟩)
  · exact .inl (List.all_eq_true.mp hcommon _ hm)

/-- A piece neither ends the program nor loads a constant by an instruction that it emits itself. -/
theorem Unfolds.emits_opcode {p : Piece} {ms : List Move} {b : Bool} {i : Instruction} (h : Unfolds p ms b)
    (hm : .emit i ∈ ms) : i.opcode ≠ .halt ∧ i.opcode ≠ .loadConst := by
  rcases h.emits hm with hseeks | ⟨_, _, _, _, -, rfl⟩ | ⟨_, _, rfl⟩ | ⟨_, rfl⟩
  · constructor <;> intro hop <;>
      simp [Instruction.seeks, Instruction.settled, Instruction.branches, hop] at hseeks
  · simp [Instruction.pushFrame]
  · simp [Instruction.call]
  · simp [Instruction.placeholderCall]

/-- A jump to a label becomes one to an offset, and a settled instruction stays as it is. -/
theorem Draft.resolves_of_seeks {d : Draft} {i j : Instruction} (h : i.seeks = true)
    (hr : d.resolveInstruction i = .ok j) :
    (∃ m, j.branches = true ∧ j.operand = some (.offset m)) ∨ j = i ∧ i.settled = true := by
  obtain ⟨hop, ho⟩ := Draft.resolveInstruction_eq_ok hr
  obtain ⟨iop, ioperand⟩ := i
  obtain ⟨jop, joperand⟩ := j
  obtain rfl : jop = iop := hop
  cases hs : Instruction.settled ⟨jop, ioperand⟩ with
  | true =>
      refine .inr ⟨?_, rfl⟩
      unfold Draft.Resolves at ho
      split at ho
      · simp_all [Instruction.settled]
      · simp_all [Instruction.settled]
      · obtain rfl : joperand = ioperand := ho
        rfl
  | false =>
      simp only [Instruction.seeks, hs, Bool.false_or, Bool.and_eq_true] at h
      obtain ⟨hb, hl⟩ := h
      obtain ⟨l, hl⟩ := Option.isSome_iff_exists.mp hl
      have hoperand : ioperand = some (.label l) := Instruction.operand_of_label hl
      rw [hoperand] at ho
      obtain ⟨m, -, hm⟩ := ho
      exact .inl ⟨m, hb, hm⟩

/-! ### Lowering a call -/

/-- A move about a call is made only where a call is lowered, and at its end. -/
theorem Makes.calling {p : Piece} {b r : Bool} {m : Move} {σ σ' τ τ' : Session}
    (h : Makes p b σ σ' m τ τ') (hm : m.callee? = some r) :
    ∃ name args s front x i σ₁, p = .expr (.call name args s) ∧ Calling name args front x i r ∧
      Along Lowers front σ σ₁ ∧ Along Lowers [.use x s r, .emit i] σ₁ σ' ∧
      (m = .use x s r ∨ m = .emit i) ∧ τ.draft.position = σ₁.draft.position := by
  obtain ⟨ms, ns, hu, h₁, hdoes, h₂⟩ := h
  have hdoes' : m.Acts Lowers τ τ' := hdoes.mono fun _ h => h.elim
  obtain ⟨name, args, s, front, x, i, rfl, hall, hc, hm'⟩ := hu.callee (m := m) (by simp) hm
  have hfront : front.all (!·.callee?.isSome) = true := by
    refine List.all_eq_true.mpr fun m hm => ?_
    rw [Move.callee?_of_common (List.all_eq_true.mp hc.common m hm)]
    rfl
  rcases hm' with rfl | rfl
  · obtain ⟨rfl, -, rfl⟩ := split_unique (P := fun m => m matches .use _ _ _) hall rfl
      (List.all_eq_true.mpr fun m hm => by
        have := List.all_eq_true.mp hc.common m hm
        cases m <;> simp_all [Move.common]) rfl
    exact ⟨name, args, s, ms, x, i, τ, rfl, hc, h₁, ⟨τ', hdoes', h₂⟩, .inl rfl, rfl⟩
  · obtain ⟨rfl, -, rfl⟩ := split_unique (C := front ++ [Move.use x s r])
      (P := fun m => m.callee?.isSome && !m matches .use _ _ _)
      (hall.trans (List.append_assoc _ [_] [_]).symm) (by simp [hm]) (by
        refine List.all_eq_true.mpr fun m hm => ?_
        rcases List.mem_append.mp hm with hm | hm
        · have := List.all_eq_true.mp hfront m hm
          simp_all
        · obtain rfl := List.mem_singleton.mp hm
          rfl) rfl
    obtain ⟨σ₁, hbefore, υ, huse, rfl⟩ := along_append.mp h₁
    exact ⟨name, args, s, front, x, i, σ₁, rfl, hc, hbefore, ⟨υ, huse, τ', hdoes', h₂⟩, .inr rfl,
      Move.Does.position (m := .use _ _ _) huse⟩

/-- The parts of lowering a call of a subroutine of the unit: the subroutine is found, its arguments are
lowered, the argument list is made if there is one, and the call is recorded and emitted. -/
structure CallRun (K : Piece → Bool → Session → Session → Prop) (name : String) (args : List Expr)
    (s : Span) (owner : PackageId) (sub : Subroutine) (σ σ₁ σ₂ σ' : Session) : Prop where
  ordinary : Ordinary name
  means : Means name (some (owner, sub)) σ
  enough : sub.params.length ≤ args.length
  few : args.length + sub.usesArgList.toNat < UInt8.size
  arguments : K (.args args sub.params) true σ σ₁
  list : Along K (Move.when sub.usesArgList (.makeArgArray args.length.toUInt16)) σ₁ σ₂
  call : Along K [.use (σ.packages.qualify owner (Path.base name)) s true,
    .emit (.call sub.label (args.length + sub.usesArgList.toNat).toUInt8)] σ₂ σ'

theorem Makes.call {p : Piece} {b : Bool} {m : Move} {σ σ' τ τ' : Session}
    (h : Makes p b σ σ' m τ τ') (hm : m.callee? = some true) :
    ∃ name args s owner sub σ₁ σ₂, p = .expr (.call name args s) ∧
      CallRun Lowers name args s owner sub σ σ₁ σ₂ σ' ∧
      (m = .use (σ.packages.qualify owner (Path.base name)) s true ∨
        m = .emit (.call sub.label (args.length + sub.usesArgList.toNat).toUInt8)) ∧
      τ.draft.position = σ₂.draft.position := by
  obtain ⟨name, args, s, front, x, i, σ₂, rfl, hc, h₁, h₂, hm, hpos⟩ := h.calling hm
  cases hc with
  | @call absolute owner sub hordinary henough hfew =>
  obtain ⟨σ₁, ⟨_, ⟨hmeans, rfl⟩, _, ⟨rfl, rfl⟩, _, hargs, rfl⟩, hlist⟩ := along_append.mp h₁
  exact ⟨name, args, s, owner, sub, _, σ₂, rfl,
    ⟨hordinary, hmeans, henough, hfew, hargs, hlist, h₂⟩, hm, hpos⟩

/-- Nothing is to be told of an expression that is lowered. -/
theorem Unfolds.expr_result {e : Expr} {ms : List Move} {b : Bool} (h : Unfolds (.expr e) ms b) :
    b = true := by
  cases h <;> rfl

/-- The arguments are part of the call. -/
theorem CallRun.part {name : String} {args : List Expr} {s : Span} {owner : PackageId}
    {sub : Subroutine} {σ σ₁ σ₂ σ' : Session} (h : CallRun Lowers name args s owner sub σ σ₁ σ₂ σ') :
    Part (.expr (.call name args s)) true σ σ' (.args args sub.params) true σ σ₁ :=
  ⟨[_, _], _, .call h.ordinary h.enough h.few, ⟨_, ⟨h.means, rfl⟩, _, ⟨rfl, rfl⟩, rfl⟩, h.arguments,
    along_append.mpr ⟨σ₂, h.list, h.call⟩⟩

/-- Behind a call its instruction stands, and goes where the label of the subroutine stands. -/
theorem CallRun.instruction {K : Piece → Bool → Session → Session → Prop} {name : String}
    {args : List Expr} {s : Span} {owner : PackageId} {sub : Subroutine} {σ σ₁ σ₂ σ' : Session}
    {d : Draft} {c : Chunk} {t : Nat} (h : CallRun K name args s owner sub σ σ₁ σ₂ σ')
    (hd : σ'.draft.Grows d) (hc : d.finish = .ok c) (ht : d.offset? sub.label = some t) :
    c.instructions[σ₂.draft.position]? = some ⟨.call, some (.call (.address t)
      (args.length + sub.usesArgList.toNat).toUInt8)⟩ := by
  obtain ⟨υ, huse, _, hemit, rfl⟩ := h.call
  have hpos : υ.draft.position = σ₂.draft.position := Move.Does.position (m := .use _ _ _) huse
  obtain ⟨⟨op, operand⟩, hj, hr⟩ := Move.acts_emit_at hemit hd hc
  obtain ⟨rfl, offset, ho, rfl⟩ := Draft.resolveInstruction_eq_ok hr
  obtain rfl : t = offset := Option.some.inj (ht.symm.trans ho)
  rw [← hpos, hj]
  rfl

/-- The path that a name gives before the last `::`. -/
def Path.outer (name : String) : List String :=
  match Path.splitLast? name with
  | some (path, _) => Path.components path
  | none => []

namespace PackageTree

/-- A subroutine is found where the path of the name leads, if it is declared there. -/
theorem findSub?_eq {t : PackageTree} {id : PackageId} {name : String} :
    t.findSub? id name = (t.descend? id (Path.outer name)).bind fun owner =>
      ((t.sub? owner (Path.base name)).filter (·.declared)).map (owner, ·) := by
  unfold findSub? Path.outer Path.base
  cases Path.splitLast? name with
  | none =>
      simp only [descend?, Option.bind_some]
      cases t.sub? id name with
      | none => rfl
      | some s => cases h : s.declared <;> simp [Option.filter_some, h]
  | some split =>
      cases hpath : t.descend? id (Path.components split.1) with
      | none => simp [hpath]
      | some owner =>
          simp only [hpath, Option.bind_some]
          cases t.sub? owner split.2 with
          | none => rfl
          | some s => cases h : s.declared <;> simp [Option.filter_some, h]

/-- A subroutine that a name means is held by the package found with it, and it is declared. -/
theorem sub?_of_findSub? {t : PackageTree} {id owner : PackageId} {name : String} {sub : Subroutine}
    (h : t.findSub? id name = some (owner, sub)) :
    t.sub? owner (Path.base name) = some sub ∧ sub.declared = true := by
  rw [findSub?_eq] at h
  obtain ⟨_, -, h⟩ := Option.bind_eq_some_iff.mp h
  obtain ⟨_, hs, heq⟩ := Option.map_eq_some_iff.mp h
  obtain ⟨rfl, rfl⟩ := Prod.mk.inj heq
  exact Option.filter_eq_some_iff.mp hs

theorem sub?_of_resolveSub? {t : PackageTree} {id owner : PackageId} {name : String}
    {sub : Subroutine} (h : t.resolveSub? id name = some (owner, sub)) :
    t.sub? owner (Path.base name) = some sub ∧ sub.declared = true := by
  obtain ⟨i, -, hi⟩ := List.exists_of_findSome?_eq_some h
  exact sub?_of_findSub? hi

end PackageTree

/-! ### Instructions of a program -/

namespace Program

variable {p : Program} {name : String} {options : CompileOptions} {u : CompiledUnit}

/-- **Where the instructions of a unit come from**: the frame of the top level, its end, a constant, or
an instruction of one of the pieces of the program with its labels resolved. -/
theorem emitter_of_instruction {σ : Session} {n : Nat} {i : Instruction}
    (h : compile name options p = .ok u)
    (hl : Lowers (.stmts p.body) true (p.entry name options) σ)
    (hi : u.chunk.instructions[n]? = some i) :
    (n = 0 ∧ ∃ locals, i = .pushFrame 0 locals) ∨ (n = σ.draft.position ∧ i = .bare .halt) ∨
      (∃ index, i = .loadConst index ∧ index.toNat < u.chunk.constants.size) ∨
      ∃ q e τ τ' j υ υ', p.Lowered name options q e τ τ' ∧ Makes q e τ τ' (.emit j) υ υ' ∧
        n = υ.draft.position ∧ σ.halted.draft.resolveInstruction j = .ok i := by
  obtain ⟨σ', hl', -, hfin⟩ := lowers_of_compile h
  obtain rfl : σ = σ' := (Prod.mk.inj (Eq.trans hl.symm hl')).2
  have hentry : (p.entry name options).draft.position = 1 := entry_position
  have hhalt : (Move.op .halt).Does σ { σ with draft := σ.draft.emit (.bare .halt) } := rfl
  have hn : n < σ.halted.draft.position := by
    rw [← (Draft.finish_eq_ok hfin).2.1]
    exact (Array.getElem?_eq_some_iff.mp hi).1
  -- The first instruction and the last are not of the statements.
  rcases Nat.eq_zero_or_pos n with rfl | hpos
  · rw [entry_frame h] at hi
    exact .inl ⟨rfl, _, (Option.some.inj hi).symm⟩
  rcases Nat.lt_or_ge n σ.draft.position with hlt | hge
  · obtain ⟨q, e, τ, τ', m, υ, υ', hv, hmakes, rfl, hυ'⟩ :=
      hl.exists_emitter (hentry ▸ hpos) hlt
    have hgrow : υ'.draft.Grows σ.halted.draft :=
      hmakes.before.2.grows.trans ((hv.within hl).2.2.grows.trans .emit)
    obtain ⟨-, -, -, -, hdoes, -⟩ := id hmakes
    cases m with
    | emit j =>
        obtain ⟨j', hj', hr⟩ := Move.acts_emit_at hdoes hgrow hfin
        obtain rfl := Option.some.inj (hj'.symm.trans hi)
        exact .inr (.inr (.inr ⟨q, e, τ, τ', j, υ, υ', ⟨σ, hl, hv⟩, hmakes, rfl, hr⟩))
    | constant v =>
        obtain ⟨index, hj, hindex⟩ := Move.acts_constant_at hdoes hgrow hfin
        exact .inr (.inr (.inl ⟨index, Option.some.inj (hi.symm.trans hj), hindex⟩))
    | _ =>
        have hpos := hdoes.position
        simp only [Move.width] at hpos
        omega
  · obtain rfl := hhalt.width_le hge hn
    obtain ⟨j, hj, hr⟩ := Move.acts_emit_at hhalt .refl hfin
    obtain rfl : Instruction.bare .halt = j := Except.ok.inj hr
    exact .inr (.inl ⟨rfl, Option.some.inj (hi.symm.trans hj)⟩)

/-- **A call goes to the frame of the subroutine that its name means.** -/
theorem call_target {x : String} {args : List Expr} {s : Span} {owner : PackageId}
    {sub : Subroutine} {e : Bool} {τ τ₁ τ₂ τ' : Session} (h : compile name options p = .ok u)
    (hl : p.Lowered name options (.expr (.call x args s)) e τ τ')
    (hc : CallRun Lowers x args s owner sub τ τ₁ τ₂ τ') :
    ∃ head body f υ υ', p.Lowered name options (.stmt (.sub head body)) f υ υ' ∧
      υ.package = owner ∧ head.name = Path.base x ∧ sub.Describes head body ∧
      u.chunk.instructions[τ₂.draft.position]? = some ⟨.call, some (.call
        (.address (υ.draft.position + 1)) (args.length + sub.usesArgList.toNat).toUInt8)⟩ := by
  obtain ⟨σ, hlow, hcount, hfin⟩ := lowers_of_compile h
  obtain ⟨hsub, hdeclared⟩ := PackageTree.sub?_of_resolveSub? hc.means
  obtain ⟨head, body, f, υ, υ', hsub, hid, hx, hdesc, hentry⟩ :=
    exists_emitted hlow hcount hl hsub hdeclared
  obtain ⟨-, -, hbehind⟩ := hl.within hlow
  exact ⟨head, body, f, υ, υ', hsub, hid, hx, hdesc,
    hc.instruction (hbehind.grows.trans .emit) hfin (hentry .emit)⟩

end Program

end StackScript
