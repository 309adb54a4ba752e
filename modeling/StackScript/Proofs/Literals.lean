import StackScript.Proofs.Calls
import StackScript.Proofs.Meaning.Declared

/-!
# Literals and the pool

A float or a string in the source is held in the pool of its unit and loaded from there.  An entry of the
pool is shared by the literals that are equal, and it is the first of them that it holds.  Equality is that
of numbers: the two zeros are equal though their bits differ, and a NaN has an entry of its own each time.
So every literal is loaded as it was written, but for zeros: they are all loaded as the first one.

* `Program.literals`: the literals of a program in the order of its code.
* `Chunk.loaded`: the constants that code loads.
* `Chunk.Loads`: the code loads these literals; what adding one does is `Chunk.Loads.literal`.
* `Runs.loads`: lowering a piece loads its literals.
* `compile_loads_literals`: what the code of a program loads.
* `signed_loads_alike`: a zero whose sign is lost.
-/

namespace StackScript

/-! ### Literals in the source -/

namespace Expr

mutual

/-- The literals of an expression that the pool holds, in the order in which they are computed. -/
def literals : Expr → List Constant
  | .float value _ => [.num value]
  | .str value _ => [.str value]
  | .list items _ => eachLiterals items
  | .binary _ left right _ => left.literals ++ right.literals
  | .unary _ operand _ => operand.literals
  | .assign _ value _ => value.literals
  | .index target position _ => target.literals ++ position.literals
  | .call _ args _ => backwardLiterals args
  | _ => []

/-- The literals of a list of expressions, the first expression's first. -/
def eachLiterals : List Expr → List Constant
  | [] => []
  | e :: rest => e.literals ++ eachLiterals rest

/-- Arguments are computed from the last to the first. -/
def backwardLiterals : List Expr → List Constant
  | [] => []
  | e :: rest => backwardLiterals rest ++ e.literals

end

end Expr

namespace Stmt

mutual

/-- The literals of a statement, in the order in which they stand in its code. -/
def literals : Stmt → List Constant
  | .expr e => e.literals
  | .block body | .sub _ body | .package _ _ body => allLiterals body
  | .ret value _ => value.elim [] Expr.literals
  | .cond condition body elsifs otherwise =>
    condition.literals ++ allLiterals body ++ branchesLiterals elsifs ++
      match otherwise with
      | none => []
      | some body => allLiterals body
  | .whileLoop condition body => condition.literals ++ allLiterals body
  | .forEach _ iterable body => iterable.literals ++ allLiterals body
  | .loop init condition step body =>
    init.elim [] Expr.literals ++ condition.elim [] Expr.literals ++ allLiterals body ++
      step.elim [] Expr.literals
  | .use _ => []

/-- The literals of a list of statements. -/
def allLiterals : List Stmt → List Constant
  | [] => []
  | s :: rest => s.literals ++ allLiterals rest

/-- The literals of the branches, each condition's before its body's. -/
def branchesLiterals : List (Expr × List Stmt) → List Constant
  | [] => []
  | (condition, body) :: rest => condition.literals ++ allLiterals body ++ branchesLiterals rest

end

end Stmt

/-- The literals of a program. -/
def Program.literals (p : Program) : List Constant := Stmt.allLiterals p.body

/-- The literals of a piece, in the order in which it is lowered. -/
def Piece.literals : Piece → List Constant
  | .expr e => e.literals
  | .each es => Expr.eachLiterals es
  | .backward es | .args es _ => Expr.backwardLiterals es
  | .stmt s => s.literals
  | .stmts ss | .body _ ss => Stmt.allLiterals ss
  | .branches _ elsifs => Stmt.branchesLiterals elsifs

/-- The literals that a move brings into the code. -/
def Move.literals : Move → List Constant
  | .constant v => [v]
  | .piece p _ => p.literals
  | _ => []

theorem Enforces.literals {e : Expr} {type : ValueType} {role : Role} {cs : List Move} {ok : Bool}
    (h : Enforces e type role cs ok) : cs.flatMap Move.literals = [] := by
  cases h <;> rfl

theorem ReturnsUndef.literals {s : Span} {ms : List Move} (h : ReturnsUndef s ms) :
    ms.flatMap Move.literals = [] := by
  obtain ⟨hc⟩ := h
  simp [Move.literals, Move.op, hc.literals]

theorem Closes.literals {s : Span} {ends : Bool} {ms : List Move} (h : Closes s ends ms) :
    ms.flatMap Move.literals = [] := by
  cases h with
  | returned => rfl
  | fallen h => exact h.literals

/-- **The literals of a piece** are those of its template, if nothing wrong is found. -/
theorem Unfolds.literals {p : Piece} {ms : List Move} {b : Bool} (h : Unfolds p ms b)
    (hq : Quiet ms) : ms.flatMap Move.literals = p.literals := by
  cases h with
  | assignVar hc | assignVarMismatch hc | assignDeclare hc | assignDeclareMismatch hc
  | ret hc | bodyExpr hc =>
      simp [Move.literals, Move.op, hc.literals, Piece.literals, Expr.literals, Stmt.literals,
        Stmt.allLiterals]
  | @argsHeld _ _ p _ _ _ hc =>
      cases p.copy <;> simp [Move.literals, Move.when, hc.literals, Piece.literals,
        Expr.backwardLiterals]
  | @sub head body _ _ _ _ _ _ _ _ hc =>
      cases mentionsArgList body <;> simp [Move.literals, Move.argListSlot, hc.literals,
        Piece.literals, Stmt.literals]
  | retUndef h => simp [h.literals, Piece.literals, Stmt.literals]
  | @next _ control => cases control <;> rfl
  | @checkpoint _ on => cases on <;> rfl
  | @call _ _ _ _ _ sub =>
      cases sub.usesArgList <;> simp [Move.literals, Move.when, Piece.literals, Expr.literals]
  | @cond _ _ _ rest =>
      cases rest <;>
        simp [Move.literals, Move.block, Move.otherwise, Piece.literals, Stmt.literals]
  | @loop init condition step =>
      cases init <;> cases condition <;> cases step <;>
        simp [Move.literals, Move.block, Move.effect, Move.guarded, Move.op, Piece.literals,
          Stmt.literals]
  | @package kind =>
      cases kind <;>
        simp [Move.literals, Move.block, Move.declareModule, Piece.literals, Stmt.literals]
  | loopControlArguments | checkpointArgument | builtinTooMany | externalTooMany | callTooFew | callTooMany
  | callRefused | argsRefused | subParameter | subRedeclared | noLoop => simp [Quiet, Move.quiet] at hq
  | _ =>
      simp [Move.literals, Move.op, Move.block, Move.increment, Piece.literals, Expr.literals,
        Expr.eachLiterals, Expr.backwardLiterals, Stmt.literals, Stmt.allLiterals,
        Stmt.branchesLiterals]

/-! ### Equality of constants -/

namespace Constant

/-- The number is one of the two zeros. -/
def isZero : Constant → Bool
  | .num x => x.isZero
  | .str _ => false

/-- The constant that stands for `v` in a unit with the literals `vs`: a zero is held as the first zero,
any other literal as it is. -/
def heldAmong (vs : List Constant) (v : Constant) : Constant :=
  if v.isZero then (vs.find? isZero).getD v else v

variable {u v w : Constant}

/-- What equals a zero is a zero. -/
theorem equals_of_isZero (h : v.isZero = true) : w.equals v = w.isZero := by
  cases v with
  | str s => cases h
  | num x =>
      have hx : x.isZero = true := h
      have hfield : x.exponentField = 0 := by
        simp only [Double.isZero, Bool.and_eq_true, beq_iff_eq] at hx
        exact hx.1
      cases w with
      | str s => rfl
      | num y =>
          simp only [equals, Double.equals, isZero, hx, Bool.and_true]
          cases hy : y.isZero with
          | true =>
              have hfield' : y.exponentField = 0 := by
                simp only [Double.isZero, Bool.and_eq_true, beq_iff_eq] at hy
                exact hy.1
              simp [Double.isNaN, hfield, hfield']
          | false =>
              have hne : y.bits ≠ x.bits := by
                intro heq
                rw [show y = x from congrArg Double.mk heq, hx] at hy
                cases hy
              simp [hne]

/-- What equals anything else is the same. -/
theorem eq_of_equals (hv : v.isZero = false) (h : w.equals v = true) : w = v := by
  cases v with
  | str s =>
      cases w with
      | str t =>
          obtain rfl : t = s := by simpa [equals] using h
          rfl
      | num y => cases h
  | num x =>
      cases w with
      | str t => cases h
      | num y =>
          have hx : x.isZero = false := hv
          simp only [equals, Double.equals, hx, Bool.and_false, Bool.or_false, Bool.and_eq_true,
            beq_iff_eq] at h
          rw [show y = x from congrArg Double.mk h.2]

/-- Equality of constants carries over from one to the next. -/
theorem equals_trans (h₁ : u.equals v = true) (h₂ : v.equals w = true) : u.equals w = true := by
  cases hw : w.isZero with
  | true =>
      rw [equals_of_isZero hw] at h₂ ⊢
      rwa [equals_of_isZero h₂] at h₁
  | false => rwa [eq_of_equals hw h₂] at h₁

/-- The first literal that equals `v` is the one that stands for it, if there is one. -/
theorem heldAmong_of_find {vs : List Constant} (h : vs.find? (·.equals v) = some w) :
    v.heldAmong vs = w := by
  unfold heldAmong
  cases hv : v.isZero with
  | true =>
      have hsame : vs.find? isZero = some w := by
        rw [← h]
        exact congrArg (vs.find? ·) (funext fun x => (equals_of_isZero hv).symm)
      rw [hsame]
      rfl
  | false =>
      have hw : w.equals v = true := by simpa using List.find?_some h
      exact (eq_of_equals hv hw).symm

/-- Where no literal before it equals `v`, it stands for itself. -/
theorem heldAmong_append_self {vs : List Constant} (h : vs.find? (·.equals v) = none) :
    v.heldAmong (vs ++ [v]) = v := by
  unfold heldAmong
  cases hv : v.isZero with
  | true =>
      have hnone : vs.find? isZero = none := by
        rw [← h]
        exact congrArg (vs.find? ·) (funext fun x => (equals_of_isZero hv).symm)
      simp [hnone, hv]
  | false => rfl

/-- What stands for a literal does not depend on the literals behind it. -/
theorem heldAmong_append {vs ws : List Constant} (h : v ∈ vs) : v.heldAmong (vs ++ ws) = v.heldAmong vs := by
  unfold heldAmong
  cases hv : v.isZero with
  | true =>
      have hsome : (vs.find? isZero).isSome = true := List.find?_isSome.mpr ⟨v, h, hv⟩
      rw [List.find?_append, Option.or_of_isSome hsome]
  | false => rfl

/-- For each zero among the literals the same zero stands. -/
theorem exists_heldAmong {vs : List Constant} (h : v ∈ vs) (hv : v.isZero = true) :
    ∃ w ∈ vs, w.isZero = true ∧ vs.find? isZero = some w ∧ v.heldAmong vs = w := by
  obtain ⟨w, hw⟩ := Option.isSome_iff_exists.mp (List.find?_isSome.mpr ⟨v, h, hv⟩)
  refine ⟨w, List.mem_of_find?_eq_some hw, List.find?_some hw, hw, ?_⟩
  rw [heldAmong, hv, hw]
  rfl

/-- The literals stand for themselves exactly if all zeros among them are the same. -/
theorem heldAmong_eq_iff {vs : List Constant} : (∀ v ∈ vs, v.heldAmong vs = v) ↔
    ∀ x ∈ vs, ∀ y ∈ vs, x.isZero = true → y.isZero = true → x = y := by
  constructor
  · intro h x hx y hy hzero hzero'
    obtain ⟨w, -, -, hw, hxw⟩ := exists_heldAmong hx hzero
    obtain ⟨w', -, -, hw', hyw⟩ := exists_heldAmong hy hzero'
    obtain rfl : w = w' := Option.some.inj (hw.symm.trans hw')
    rw [← h x hx, ← h y hy, hxw, hyw]
  · intro h v hv
    cases hzero : v.isZero with
    | true =>
        obtain ⟨w, hmem, hw, -, hvw⟩ := exists_heldAmong hv hzero
        rw [hvw]
        exact h w hmem v hv hw hzero
    | false => rw [heldAmong, hzero, if_neg Bool.false_ne_true]

end Constant

/-! ### What code loads -/

/-- The pool entry that the instruction loads. -/
def Instruction.poolIndex? : Instruction → Option UInt16
  | ⟨.loadConst, some (.constant index)⟩ => some index
  | _ => none

namespace Chunk

variable {c c' : Chunk} {vs : List Constant} {v : Constant} {index : UInt16}

/-- The constants that the code loads, from its first instruction to its last. -/
def loaded (c : Chunk) : List (Option Constant) :=
  (c.instructions.toList.filterMap Instruction.poolIndex?).map fun index => c.constants[index.toNat]?

/-- An instruction that loads a constant loads what the pool has there. -/
theorem loaded_emit {i : Instruction} : (c.emit i).loaded =
    c.loaded ++ (i.poolIndex?.map fun index => c.constants[index.toNat]?).toList := by
  cases hi : i.poolIndex? with
  | none => simp [loaded, emit, hi]
  | some index => simp [loaded, emit, hi]

/-- The code loads the literals `vs` one after the other, each as the constant that stands for it, and the
pool has room for what operands can tell apart. -/
structure Loads (c : Chunk) (vs : List Constant) : Prop where
  room : c.constants.size ≤ UInt16.size
  pool : ∀ v, c.constants.toList.find? (·.equals v) = vs.find? (·.equals v)
  loaded : c.loaded = vs.map fun v => some (v.heldAmong vs)

namespace Loads

theorem emit {i : Instruction} (h : c.Loads vs) (hi : i.poolIndex? = none) : (c.emit i).Loads vs := by
  refine ⟨h.room, h.pool, ?_⟩
  rw [loaded_emit, hi, h.loaded]
  simp

/-- New entries of the pool change nothing about what the code loads. -/
theorem loaded_grow (h : c.Loads vs) (hcode : c'.instructions = c.instructions)
    (hpool : c.constants.toList <+: c'.constants.toList) : c'.loaded = c.loaded := by
  unfold Chunk.loaded
  rw [hcode]
  refine List.map_congr_left fun index hindex => ?_
  have hmem : c.constants[index.toNat]? ∈ c.loaded := List.mem_map.mpr ⟨index, hindex, rfl⟩
  rw [h.loaded] at hmem
  obtain ⟨v, -, hv⟩ := List.mem_map.mp hmem
  obtain ⟨rest, hrest⟩ := hpool
  rw [← Array.getElem?_toList] at hv
  rw [← Array.getElem?_toList, ← Array.getElem?_toList, ← hrest,
    List.getElem?_append_left (List.getElem?_eq_some_iff.mp hv.symm).1]

/-- The entry that a literal is given. -/
theorem entry (h : c.Loads vs) (ha : addConstant v c = (.ok index, c')) :
    c'.constants[index.toNat]? = some (v.heldAmong (vs ++ [v])) := by
  unfold addConstant at ha
  cases hf : c.constants.findIdx? (·.equals v) with
  | some n =>
      simp only [hf, Prod.mk.injEq, Except.ok.injEq] at ha
      obtain ⟨rfl, rfl⟩ := ha
      obtain ⟨hn, hw, hfirst⟩ := Array.findIdx?_eq_some_iff_getElem.mp hf
      have hfind : c.constants.toList.find? (·.equals v) = some c.constants[n] := by
        refine List.find?_eq_some_iff_getElem.mpr ⟨hw, n, by simpa using hn, by simp, fun j hj => ?_⟩
        simpa using hfirst j hj
      rw [h.pool] at hfind
      -- The index fits, as the pool has never been larger than indices allow.
      have hindex : n.toUInt16.toNat = n := by
        have := h.room
        simp only [Nat.toUInt16_eq, UInt16.toNat_ofNat']
        exact Nat.mod_eq_of_lt (Nat.lt_of_lt_of_le hn this)
      rw [hindex, Array.getElem?_eq_getElem hn]
      refine congrArg some (Constant.heldAmong_of_find ?_).symm
      rw [List.find?_append, hfind, Option.some_or]
  | none =>
      simp only [hf] at ha
      split at ha
      · rename_i hroom
        simp only [Prod.mk.injEq, Except.ok.injEq] at ha
        obtain ⟨rfl, rfl⟩ := ha
        have hnone : vs.find? (·.equals v) = none := by
          rw [← h.pool]
          simpa using hf
        have hindex : c.constants.size.toUInt16.toNat = c.constants.size := by
          simp only [Nat.toUInt16_eq, UInt16.toNat_ofNat']
          exact Nat.mod_eq_of_lt hroom
        rw [hindex, Constant.heldAmong_append_self hnone]
        simp
      · cases ha

/-- The pool has the first of the literals that are equal. -/
theorem pool_append (h : c.Loads vs) (ha : addConstant v c = (.ok index, c')) (w : Constant) :
    c'.constants.toList.find? (·.equals w) = (vs ++ [v]).find? (·.equals w) := by
  unfold addConstant at ha
  cases hf : c.constants.findIdx? (·.equals v) with
  | some n =>
      simp only [hf, Prod.mk.injEq] at ha
      obtain ⟨-, rfl⟩ := ha
      obtain ⟨hn, hw, -⟩ := Array.findIdx?_eq_some_iff_getElem.mp hf
      rw [h.pool, List.find?_append]
      cases hfind : vs.find? (·.equals w) with
      | some x => rfl
      | none =>
          -- The entry that equals `v` would equal `w` as well.
          have hv : v.equals w = false := by
            cases hvw : v.equals w with
            | false => rfl
            | true =>
                rw [← h.pool, List.find?_eq_none] at hfind
                exact absurd (Constant.equals_trans hw hvw) (hfind _ (by simp))
          simp [hv]
  | none =>
      simp only [hf] at ha
      split at ha
      · simp only [Prod.mk.injEq] at ha
        obtain ⟨-, rfl⟩ := ha
        simp only [Array.toList_push, List.find?_append, h.pool]
      · cases ha

/-- **A literal is pooled and loaded.** -/
theorem literal (h : c.Loads vs) (ha : addConstant v c = (.ok index, c'))
    (hroom : c'.constants.size ≤ UInt16.size) : (c'.emit (.loadConst index)).Loads (vs ++ [v]) := by
  obtain ⟨hcode, hgrow, -⟩ := addConstant_ok ha
  have hpool := h.pool_append ha
  refine ⟨hroom, hpool, ?_⟩
  have hold : vs.map (fun x => some (x.heldAmong (vs ++ [v]))) = vs.map fun x => some (x.heldAmong vs) :=
    List.map_congr_left fun x hx => congrArg some (Constant.heldAmong_append hx)
  have hentry : (Instruction.loadConst index).poolIndex? = some index := rfl
  rw [loaded_emit, hentry, h.loaded_grow hcode hgrow, h.loaded, List.map_append, hold]
  simp [h.entry ha]

end Loads

end Chunk

/-! ### Runs -/

/-- Only a literal is loaded from the pool. -/
theorem Instruction.poolIndex?_of_seeks {i : Instruction} (h : i.seeks = true) : i.poolIndex? = none := by
  unfold poolIndex?
  split
  · simp [seeks, settled, branches] at h
  · rfl

/-- Templates load constants by the moves that pool them only. -/
theorem Unfolds.poolIndex? {p : Piece} {ms : List Move} {b : Bool} {i : Instruction} (h : Unfolds p ms b)
    (hi : .emit i ∈ ms) : i.poolIndex? = none := by
  rcases h.calling_or_common with ⟨_, _, _, front, _, j, _, -, rfl, hc⟩ | ⟨head, body, rfl⟩ | hall
  · rcases List.mem_append.mp hi with hi | hi
    · exact Instruction.poolIndex?_of_seeks (List.all_eq_true.mp hc.common _ hi)
    · obtain rfl : i = j := by simpa using hi
      cases hc <;> rfl
  · rcases h.sub_common hi with hcommon | ⟨params, locals, heq⟩
    · exact Instruction.poolIndex?_of_seeks hcommon
    · obtain rfl := Move.emit.inj heq
      rfl
  · exact Instruction.poolIndex?_of_seeks (List.all_eq_true.mp hall _ hi)

/-- A move loads the literals that it computes. -/
theorem Move.Does.loads {m : Move} {σ σ' : Session} {vs : List Constant} (h : m.Does σ σ')
    (hm : ∀ i, m = .emit i → i.poolIndex? = none) (hσ : σ.draft.chunk.Loads vs) :
    σ'.draft.chunk.Loads (vs ++ m.literals) := by
  cases m with
  | emit i =>
      obtain rfl := acts_emit.mp h
      rw [show (Move.emit i).literals = [] from rfl, List.append_nil]
      exact hσ.emit (hm i rfl)
  | constant v =>
      have hroom := h.pool hσ.room
      obtain ⟨d, hd, rfl⟩ := acts_constant.mp h
      obtain ⟨index, c, hc, rfl⟩ := Draft.emitConstant_eq_ok.mp hd
      exact hσ.literal hc hroom
  | piece p b => exact h.elim
  | _ =>
      rw [h.chunk_eq rfl]
      simpa [Move.literals] using hσ

/-- A row of moves loads the literals of its moves, in order, if its pieces do. -/
theorem Along.loads {K : Piece → Bool → Session → Session → Prop} {ms : List Move} {σ σ' : Session}
    {vs : List Constant}
    (hK : ∀ {p b τ τ' vs}, K p b τ τ' → τ.draft.chunk.Loads vs → τ'.draft.chunk.Loads (vs ++ p.literals))
    (h : Along K ms σ σ') (hms : ∀ i, .emit i ∈ ms → i.poolIndex? = none) (hσ : σ.draft.chunk.Loads vs) :
    σ'.draft.chunk.Loads (vs ++ ms.flatMap Move.literals) := by
  induction ms generalizing σ vs with
  | nil =>
      obtain rfl : σ = σ' := h
      simpa using hσ
  | cons m ms ih =>
      obtain ⟨σ₁, hm, h⟩ := h
      have hσ₁ : σ₁.draft.chunk.Loads (vs ++ m.literals) := by
        rcases hm.does_or_piece with hd | ⟨p, b, rfl, hp⟩
        · refine hd.loads (fun i hi => hms i ?_) hσ
          simp [hi]
        · exact hK hp hσ
      have hrest := ih h (fun i hi => hms i (List.mem_cons_of_mem _ hi)) hσ₁
      simpa using hrest

/-- **A run that finds nothing wrong loads the literals of its piece.** -/
theorem Runs.loads {p : Piece} {b : Bool} {σ σ' : Session} {vs : List Constant}
    (h : Runs Quiet p b σ σ') (hσ : σ.draft.chunk.Loads vs) :
    σ'.draft.chunk.Loads (vs ++ p.literals) := by
  refine h.ind (P := fun p _ σ σ' => ∀ vs, σ.draft.chunk.Loads vs → σ'.draft.chunk.Loads (vs ++ p.literals))
    ?_ vs hσ
  intro p b ms σ σ' hu hq ha vs hσ
  have hloads := ha.loads (fun h hσ => h.2 _ hσ) (fun i => hu.poolIndex?) hσ
  rwa [hu.literals hq] at hloads

/-- When a piece is visited, the literals before it have been loaded. -/
theorem Visits.loads {p q : Piece} {b c : Bool} {σ σ' τ τ' : Session} {vs : List Constant}
    (h : Visits p b σ σ' q c τ τ') (hp : Lowers p b σ σ') (hc : σ'.report.count = 0)
    (hσ : σ.draft.chunk.Loads vs) :
    ∃ before behind, p.literals = before ++ q.literals ++ behind ∧
      τ.draft.chunk.Loads (vs ++ before) := by
  induction h with
  | self => exact ⟨[], [], by simp, by simpa using hσ⟩
  | @part q r c d τ τ' υ υ' hvisits hpart ih =>
      obtain ⟨before, behind, hliterals, hloads⟩ := ih
      obtain ⟨-, -, hbehind⟩ := hvisits.within hp
      have hcount : τ'.report.count = 0 := hbehind.count_eq_zero hc
      obtain ⟨ms, ns, hu, h₁, hr, h₂⟩ := hpart
      obtain ⟨hquiet, hfront, -, -⟩ := hr.quiet_around h₁ h₂ hcount
      have hparts := hu.literals hquiet
      simp only [List.flatMap_append, List.flatMap_cons, Move.literals] at hparts
      refine ⟨before ++ ms.flatMap Move.literals, ns.flatMap Move.literals ++ behind, ?_, ?_⟩
      · rw [hliterals, ← hparts]
        simp
      · rw [← List.append_assoc]
        exact hfront.loads Runs.loads (fun i hi => hu.poolIndex? (List.mem_append_left _ hi)) hloads

/-! ### Programs -/

/-- Resolving labels leaves the constants that are loaded as they are. -/
theorem Draft.poolIndex?_resolved {d : Draft} {i j : Instruction} (h : d.resolveInstruction i = .ok j) :
    j.poolIndex? = i.poolIndex? := by
  obtain ⟨hop, hoperand⟩ := Draft.resolveInstruction_eq_ok h
  obtain ⟨op, operand⟩ := i
  obtain ⟨op', operand'⟩ := j
  obtain rfl : op' = op := hop
  unfold Draft.Resolves at hoperand
  split at hoperand
  · obtain ⟨offset, -, hoffset⟩ := hoperand
    simp_all [Instruction.poolIndex?]
  · obtain ⟨offset, -, hoffset⟩ := hoperand
    simp_all [Instruction.poolIndex?]
  · simp_all

/-- Resolving labels changes nothing about what code loads. -/
theorem Draft.loaded_finish {d : Draft} {c : Chunk} (h : d.finish = .ok c) : c.loaded = d.chunk.loaded := by
  obtain ⟨is, hl, rfl⟩ := mapM_of_finish h
  have hentries : is.map Instruction.poolIndex? = d.chunk.instructions.toList.map Instruction.poolIndex? :=
    mapM_map hl fun i _ j hj => Draft.poolIndex?_resolved hj
  have hfilter (l : List Instruction) : l.filterMap Instruction.poolIndex? =
      (l.map Instruction.poolIndex?).filterMap id := by
    rw [List.filterMap_map, Function.id_comp]
  simp only [Chunk.loaded]
  rw [hfilter, hfilter, hentries]

/-- The literal that an expression is. -/
def Expr.literal? : Expr → Option Constant
  | .float value _ => some (.num value)
  | .str value _ => some (.str value)
  | _ => none

/-- A literal is lowered to one load. -/
theorem Lowers.literal {e : Expr} {v : Constant} {b : Bool} {σ σ' : Session} (he : e.literal? = some v)
    (h : Lowers (.expr e) b σ σ') : e.literals = [v] ∧ (Move.constant v).Does σ σ' := by
  obtain ⟨ms, hu, ha⟩ := h.unfolds
  cases hu with
  | float | str =>
      obtain rfl := Option.some.inj he
      obtain ⟨σ₁, hm, rfl⟩ := ha
      exact ⟨by rw [Expr.literals], hm⟩
  | _ => cases he

namespace Program

variable {p : Program} {name : String} {options : CompileOptions} {u : CompiledUnit}

/-- Before the first statement nothing has been loaded. -/
theorem entry_loads : (p.entry name options).draft.chunk.Loads [] := by
  have hcode : ((Session.start name options).declareStmts PackageTree.root p.body).draft.chunk = {} :=
    Session.declareStmts_knows.code
  have hempty : ({} : Chunk).Loads [] := ⟨by decide, fun v => rfl, rfl⟩
  show Chunk.Loads (Chunk.emit _ _) []
  rw [hcode]
  exact hempty.emit rfl

/-- **The constants that the code loads are the literals of the program**, each as the first that equals
it. -/
theorem loaded_eq (h : compile name options p = .ok u) :
    u.chunk.loaded = p.literals.map fun v => some (v.heldAmong p.literals) := by
  obtain ⟨σ, hl, hcount, hfin⟩ := lowers_of_compile h
  have hloads : σ.draft.chunk.Loads ([] ++ p.literals) := (hl.quiet hcount).loads entry_loads
  have hhalted : σ.halted.draft.chunk.Loads p.literals := hloads.emit rfl
  rw [Draft.loaded_finish hfin, hhalted.loaded]

/-- **The load of a literal** is of the constant that stands for it. -/
theorem Lowered.literal {e : Expr} {v : Constant} {b : Bool} {τ τ' : Session}
    (h : compile name options p = .ok u) (he : e.literal? = some v)
    (hl : p.Lowered name options (.expr e) b τ τ') :
    ∃ index, u.chunk.instructions[τ.draft.position]? = some (.loadConst index) ∧
      u.chunk.constants[index.toNat]? = some (v.heldAmong p.literals) := by
  obtain ⟨σ, hlower, hcount, hfin⟩ := lowers_of_compile h
  obtain ⟨σ', hlower', hvisits⟩ := hl
  obtain rfl : σ = σ' := (Prod.mk.inj (Eq.trans hlower.symm hlower')).2
  obtain ⟨hlow, -, hbehind⟩ := hvisits.within hlower
  obtain ⟨before, behind, hliterals, hloads⟩ := hvisits.loads hlower hcount entry_loads
  obtain ⟨hsingle, hdoes⟩ := hlow.literal he
  have hgrows : τ'.draft.Grows σ.halted.draft := hbehind.grows.trans .emit
  obtain ⟨d, hd, rfl⟩ := Move.acts_constant.mp hdoes
  obtain ⟨index, c, hc, rfl⟩ := Draft.emitConstant_eq_ok.mp hd
  obtain ⟨hpool, -, hcode⟩ := Draft.finish_eq_ok hfin
  obtain ⟨j, hj, hr⟩ := hcode (hgrows.instruction (n := τ.draft.position) (i := .loadConst index) (by
    simp [Chunk.emit, Draft.position, Chunk.size, (Chunk.addConstant_ok hc).1]))
  obtain rfl : Instruction.loadConst index = j := Except.ok.inj hr
  refine ⟨index, hj, ?_⟩
  have hall : p.literals = [] ++ before ++ [v] ++ behind := by
    rw [← hsingle]
    exact hliterals
  have hstands : v.heldAmong p.literals = v.heldAmong ([] ++ before ++ [v]) := by
    rw [hall]
    exact Constant.heldAmong_append (by simp)
  have hentry := hloads.entry hc
  rw [hpool, hgrows.constant hentry, hstands]

end Program

/-- **Literals survive the pool, but for the signs of zeros.**  In a program that compiles, the instruction
emitted for a literal loads the constant that stands for it: the literal itself, or, for a zero, the first
zero of the program.  These are all the constants that the code loads, in the order of the literals.  So each
load is of the very literal that it was emitted for exactly if the program has not both zeros. -/
theorem compile_loads_literals {p : Program} {name : String} {options : CompileOptions} {u : CompiledUnit}
    (h : compile name options p = .ok u) :
    (∀ e v b τ τ', e.literal? = some v → p.Lowered name options (.expr e) b τ τ' →
      ∃ index, u.chunk.instructions[τ.draft.position]? = some (.loadConst index) ∧
        u.chunk.constants[index.toNat]? = some (v.heldAmong p.literals)) ∧
      u.chunk.loaded = p.literals.map (fun v => some (v.heldAmong p.literals)) ∧
      (u.chunk.loaded = p.literals.map some ↔
        ∀ x ∈ p.literals, ∀ y ∈ p.literals, x.isZero = true → y.isZero = true → x = y) := by
  refine ⟨fun e v b τ τ' he hl => hl.literal h he, Program.loaded_eq h, ?_⟩
  rw [Program.loaded_eq h, ← Constant.heldAmong_eq_iff]
  simp

/-- A program with literals of both kinds, some of them more than once: a negative zero and a number that
is none among them. -/
def recurring : Program where
  body := [
    .expr (.call "say" [.str "one" {}, .float ⟨0x3ff8000000000000⟩ {}, .float (.nan false) {}] {}),
    .sub { name := "f", params := [] } [.ret (some (.list [.float (.zero true) {}, .str "one" {}] {})) {}],
    .expr (.binary .add (.float (.nan false) {}) (.float (.zero true) {}) {})]

/-- Each literal of `recurring` is loaded as it is, the negative zero and the number that is none
included. -/
theorem compile_loads_literals_recurring :
    ∃ u, compile "main" {} recurring = .ok u ∧
      recurring.literals = [.num (.nan false), .num ⟨0x3ff8000000000000⟩, .str "one", .num (.zero true),
        .str "one", .num (.nan false), .num (.zero true)] ∧
      u.chunk.loaded = recurring.literals.map some := by
  have hok : (compile "main" {} recurring).toOption.isSome = true := by decide +kernel
  cases h : compile "main" {} recurring with
  | error e => simp [h, Except.toOption] at hok
  | ok u =>
      obtain ⟨-, -, hexact⟩ := compile_loads_literals h
      exact ⟨u, rfl, by decide +kernel, hexact.mpr (by decide +kernel)⟩

/-- A zero, and the other one. -/
def signed : Program where
  body := [.expr (.float (.zero false) {}), .expr (.float (.zero true) {})]

/-- **The other zero is lost**: the first is loaded in its place. -/
theorem signed_loads_alike :
    ∃ u, compile "main" {} signed = .ok u ∧ signed.literals = [.num (.zero false), .num (.zero true)] ∧
      u.chunk.loaded = [some (.num (.zero false)), some (.num (.zero false))] ∧
      u.chunk.loaded ≠ signed.literals.map some := by
  have hrun : (compile "main" {} signed).toOption.any (fun u =>
      u.chunk.loaded == [some (.num (.zero false)), some (.num (.zero false))]) = true := by
    decide +kernel
  cases h : compile "main" {} signed with
  | error e => simp [h, Except.toOption] at hrun
  | ok u =>
      have hloaded : u.chunk.loaded = [some (.num (.zero false)), some (.num (.zero false))] := by
        simpa [h, Except.toOption] using hrun
      exact ⟨u, rfl, by decide +kernel, hloaded, by rw [hloaded]; decide +kernel⟩

end StackScript
