import StackScript.Proofs.Meaning.Layout

/-!
# The code of expressions computes their values

* `Leads.load`, `Leads.assign`, `Leads.declare`: what the code of variables does.
* `Computes`: what is to be said of an expression, with a lemma for each kind of them.
* `Laid.eval`: the code of a simple expression puts its value on the stack.
-/

namespace StackScript

open Scopes

/-! ### Finished instructions -/

namespace Draft

variable {d : Draft} {c : Chunk} {n : Nat}

/-- An instruction that names no label stands in the finished code as it is. -/
theorem finished_plain {i : Instruction} (hc : d.finish = .ok c)
    (h : d.chunk.instructions[n]? = some i) (hi : d.resolveInstruction i = .ok i) :
    c.instructions[n]? = some i := by
  obtain ⟨j, hj, hr⟩ := (finish_eq_ok hc).2.2 h
  obtain rfl : i = j := Except.ok.inj (hi.symm.trans hr)
  exact hj

/-- One that goes to a label stands there with the offset of the label. -/
theorem finished_jump {op : Opcode} {l : Label} {m : Nat} (hc : d.finish = .ok c)
    (h : d.chunk.instructions[n]? = some ⟨op, some (.label l)⟩) (hl : d.offset? l = some m) :
    c.instructions[n]? = some ⟨op, some (.offset m)⟩ := by
  obtain ⟨⟨op', operand⟩, hj, hr⟩ := (finish_eq_ok hc).2.2 h
  obtain ⟨rfl, offset, ho, rfl⟩ := resolveInstruction_eq_ok hr
  obtain rfl : m = offset := Option.some.inj (hl.symm.trans ho)
  exact hj

end Draft

/-- Texts are equal in the pool only if they are the same. -/
theorem Constant.eq_str {w : Constant} {x : String}
    (h : w.equals (.str x) = true ∨ w = .str x) : w = .str x := by
  rcases h with h | rfl
  · cases w with
    | num y => simp [Constant.equals] at h
    | str y => simpa [Constant.equals] using h
  · rfl

/-! ### Single instructions -/

namespace Machine.Goes

variable {V : Type} {I : Interpretation V} {c : Chunk} {n : Nat} {slot : Slot} {s locals : List V}
  {callers : List (Caller V)} {v : V}

/-- A slot is read. -/
theorem load (hi : c.instructions[n]? = some (.load slot)) (hv : locals[slot.toNat]? = some v) :
    Goes I c ⟨n, s, locals, callers⟩ ⟨n + 1, v :: s, locals, callers⟩ :=
  .one hi (by simp [Instruction.load, execute, hv, push, next])

/-- The value on top is stored in a slot. -/
theorem store (hi : c.instructions[n]? = some (.store slot)) (hlt : slot.toNat < locals.length) :
    Goes I c ⟨n, v :: s, locals, callers⟩ ⟨n + 1, s, locals.set slot.toNat v, callers⟩ :=
  .one hi (by simp [Instruction.store, execute, Machine.store, hlt, next])

end Machine.Goes

namespace Leads

variable {V : Type} {I : Interpretation V} {c : Chunk} {a b : Spot} {env env' : Env V}
  {s s' : List V} {x : String} {v : V}

/-- An instruction that leaves the variables alone. -/
theorem instr {i : Instruction} {n : Nat} (hi : c.instructions[a.pc]? = some i)
    (hx : ∀ locals callers, Machine.execute I c ⟨a.pc, s, locals, callers⟩ i.opcode i.operand =
      some ⟨n, s', locals, callers⟩) : Leads I c a ⟨a.scopes, n⟩ env s env s' :=
  of_goes fun locals callers => .one hi (hx locals callers)

/-- The slot of a variable in scope holds its value. -/
theorem load {bnd : Binding} (hi : c.instructions[a.pc]? = some (.load bnd.slot))
    (hfound : a.scopes.resolve? x = some bnd) (hv : env.lookup? x = some v) :
    Leads I c a ⟨a.scopes, a.pc + 1⟩ env s env (v :: s) := by
  refine ⟨Nat.le_refl _, .refl, fun _ hagree _ => ⟨_, .load hi ?_, hagree, .refl⟩⟩
  exact hagree.lookup hv (resolve?_eq ▸ hfound)

/-- The value on top is stored to a slot and stays there. -/
theorem dup_store {slot : Slot} {n : Nat} {locals : List V} {callers : List (Caller V)}
    (hdup : c.instructions[n]? = some (.bare .dup))
    (hstore : c.instructions[n + 1]? = some (.store slot)) (hlt : slot.toNat < locals.length) :
    Machine.Goes I c ⟨n, v :: s, locals, callers⟩
      ⟨n + 2, v :: s, locals.set slot.toNat v, callers⟩ := by
  have hdup : Machine.Goes I c ⟨n, v :: s, locals, callers⟩ ⟨n + 1, v :: v :: s, locals, callers⟩ :=
    .one hdup rfl
  exact hdup.trans (.store hstore hlt)

/-- A value stays on the stack and goes to the slot of a variable in scope, so names and slots agree
again. -/
theorem assign {bnd : Binding} (hdup : c.instructions[a.pc]? = some (.bare .dup))
    (hstore : c.instructions[a.pc + 1]? = some (.store bnd.slot)) (hapart : Apart a.scopes.stack)
    (hfound : a.scopes.resolve? x = some bnd) (hv : env.assign? x v = some env') :
    Leads I c a ⟨a.scopes, a.pc + 2⟩ env (v :: s) env' (v :: s) := by
  have hbound := bound_of_resolve hfound
  refine ⟨Nat.le_refl _, .refl, fun callers hagree hroom => ?_⟩
  have hlt := Nat.lt_of_lt_of_le (hapart.bound_lt hbound) hroom
  exact ⟨_, dup_store hdup hstore hlt,
    (hagree.assign hapart.distinct hv (resolve?_eq ▸ hfound) hlt).2, .set (.inl hbound)⟩

/-- A value stays on the stack and goes to the slot of the variable that is declared. -/
theorem declare {t : Scopes} {type : ValueType} {slot : Slot}
    (hdup : c.instructions[a.pc]? = some (.bare .dup))
    (hstore : c.instructions[a.pc + 1]? = some (.store slot)) (hapart : Apart a.scopes.stack)
    (hd : Scopes.declare x type a.scopes = (.ok slot, t)) (htype : type.isUnknown = true) :
    Leads I c a ⟨t, a.pc + 2⟩ env (v :: s) (env.declare x v) (v :: s) := by
  obtain ⟨hapart', hfresh⟩ := hapart.declare hd
  have hkept : Kept a.scopes.stack t.stack := kept_declare hd
  obtain ⟨bnd, rfl, htop, hold⟩ := declare_top hd
  have hx : top? t.stack x = some bnd := by rw [htop, if_pos rfl]
  rcases hkept.names with ⟨-, hnil⟩ | ⟨gs, hs, hs'⟩
  · rw [hnil] at hx
    cases hx
  have hbound : Bound t.stack bnd.slot.toNat := ⟨_, hs' ▸ List.mem_cons_self, x, bnd, hx, rfl⟩
  refine ⟨hkept.taken, hfresh, fun {locals} callers hagree hroom => ?_⟩
  have hlt := Nat.lt_of_lt_of_le (hapart'.bound_lt hbound) hroom
  refine ⟨_, dup_store hdup hstore hlt, ?_, .set (hfresh _ hbound)⟩
  have hdistinct := hapart'.distinct
  rw [hs] at hagree
  rw [hs'] at hdistinct ⊢
  cases env with
  | nil => cases hagree
  | cons e env =>
      refine hagree.set_top hdistinct hlt (fun y hy => by rw [htop, if_neg hy]) hx ?_
      have hvar := hagree.1 x
      rcases hold with hold | ⟨hnone, rfl⟩
      · rw [hold] at hvar
        cases he : e x with
        | none => simp [Holds, he] at hvar
        | some var =>
            rw [he] at hvar
            exact hvar.1
      · rw [hnone] at hvar
        cases he : e x with
        | none => simp [htype]
        | some var => simp [Holds, he] at hvar

end Leads

/-! ### Expressions -/

section Values

variable {V : Type} {I : Interpretation V} {c : Chunk} {d : Draft} {a b : Spot} {env env' : Env V}
  {s : List V}

-- Each of the lemmas below opens evaluation or a step of the machine at one constructor.
attribute [local simp] Expr.eval Expr.evalEach Expr.evalBackward Machine.execute

/-- There are as many values as expressions. -/
theorem Expr.evalBackward_length {es : List Expr} {vs : List V}
    (h : Expr.evalBackward I es env = some (vs, env')) : vs.length = es.length := by
  induction es generalizing env' vs with
  | nil =>
      cases h
      rfl
  | cons e es ih =>
      simp only [Expr.evalBackward, Option.bind_eq_bind, Option.bind_eq_some_iff] at h
      obtain ⟨⟨ws, env₁⟩, hws, ⟨w, env₂⟩, -, h⟩ := h
      cases h
      simp [ih hws]

theorem Expr.evalEach_length {es : List Expr} {vs : List V}
    (h : Expr.evalEach I es env = some (vs, env')) : vs.length = es.length := by
  induction es generalizing env vs with
  | nil =>
      cases h
      rfl
  | cons e es ih =>
      simp only [Expr.evalEach, Option.bind_eq_bind, Option.bind_eq_some_iff] at h
      obtain ⟨⟨w, env₁⟩, -, ⟨ws, env₂⟩, hws, h⟩ := h
      cases h
      simp [ih hws]

/-- Of the calls, those of builtins and checkpoints are simple. -/
theorem Unfolds.simple_call {name : String} {args : List Expr} {span : Span} {ms : List Move} {r : Bool}
    (h : Unfolds (.expr (.call name args span)) ms r) (hq : Quiet ms)
    (hs : (Expr.call name args span).simple = true) :
    (∃ id s' on, name = "checkpoint" ∧ args = [.integer id s'] ∧
      ms = .sees (fun σ => σ.options.checkpoints = on) :: (Move.when on (.checkpoint id) ++
        [Move.op .loadUndefined])) ∨
    ∃ b, Builtin.ofName? name = some b ∧ args.length < UInt8.size ∧
      ms = [.piece (.backward args) true, .emit (.callBuiltin b args.length.toUInt8)] := by
  obtain ⟨hname, -⟩ : (name = "checkpoint" ∨ ∃ b, Builtin.ofName? name = some b) ∧
      Expr.allSimple args = true := by
    simpa [Expr.simple, Option.isSome_iff_exists] using hs
  have hord : ¬ Ordinary name := fun h => by
    rcases hname with rfl | ⟨b, hb⟩
    · exact h.2.2.1 rfl
    · rw [h.2.2.2] at hb
      cases hb
  cases h with
  | loopControlArguments | noLoop | checkpointArgument | builtinTooMany | callTooFew | callTooMany
  | externalTooMany => simp [Quiet, Move.quiet] at hq
  | last | next =>
      rcases hname with hname | ⟨b, hb⟩
      · simp at hname
      · cases hb
  | external h | call h | callRefused h => exact absurd h hord
  | checkpoint => exact .inl ⟨_, _, _, rfl, rfl, rfl⟩
  | builtin hb hlen => exact .inr ⟨_, hb, hlen, rfl⟩

/-- An assignment.  A variable that has a type is not assigned to, so the value is not held to any. -/
theorem Enforces.assign {cs : List Move} {e : Expr} {role : Role} {bnd : Binding} {x : String} {v : V}
    (h : Enforces e bnd.type role cs true) (hc : d.finish = .ok c)
    (hl : Lies d (cs ++ [Move.op .dup, .emit (.store bnd.slot)]) a b) (hapart : Apart a.scopes.stack)
    (hfound : a.scopes.resolve? x = some bnd) (hv : env.assign? x v = some env') :
    Leads I c a b env (v :: s) env' (v :: s) := by
  have htyped (hscopes : b.scopes = a.scopes) (ht : bnd.type.isUnknown = false) :
      Leads I c a b env (v :: s) env' (v :: s) := by
    refine ⟨Nat.le_of_eq (by rw [hscopes]), by rw [hscopes]; exact .refl, fun _ hagree hroom => ?_⟩
    have hlt := Nat.lt_of_lt_of_le (hapart.bound_lt (bound_of_resolve hfound)) (hscopes ▸ hroom)
    have hunknown := (hagree.assign hapart.distinct hv (resolve?_eq ▸ hfound) hlt).1
    rw [ht] at hunknown
    cases hunknown
  cases h with
  | free =>
      obtain ⟨_, ⟨hdup, rfl⟩, _, ⟨hstore, rfl⟩, rfl⟩ := hl
      exact .assign (Draft.finished_plain hc hdup rfl) (Draft.finished_plain hc hstore rfl) hapart
        hfound hv
  | identical ht =>
      obtain ⟨_, ⟨-, rfl⟩, _, ⟨-, rfl⟩, _, ⟨-, rfl⟩, rfl⟩ := hl
      exact htyped rfl ht
  | castable ht =>
      obtain ⟨_, ⟨-, rfl⟩, _, ⟨-, rfl⟩, _, ⟨-, rfl⟩, _, ⟨-, rfl⟩, rfl⟩ := hl
      exact htyped rfl ht

/-- Wherever the code of the expression lies, it puts the value of the expression on the stack. -/
def Computes (I : Interpretation V) (c : Chunk) (d : Draft) (e : Expr) : Prop :=
  ∀ ⦃a b : Spot⦄ ⦃env env' : Env V⦄ ⦃s : List V⦄ ⦃v : V⦄, Laid d (.expr e) a b → e.simple = true →
    e.eval I env = some (v, env') → Leads I c a b env s env' (v :: s)

/-- The same of expressions from the first to the last: the last value is on top. -/
def ComputesEach (I : Interpretation V) (c : Chunk) (d : Draft) (es : List Expr) : Prop :=
  ∀ ⦃a b : Spot⦄ ⦃env env' : Env V⦄ ⦃s vs : List V⦄, Laid d (.each es) a b →
    Expr.allSimple es = true → Expr.evalEach I es env = some (vs, env') →
    Leads I c a b env s env' (vs.reverse ++ s)

/-- The same of expressions from the last to the first: the first value is on top. -/
def ComputesBackward (I : Interpretation V) (c : Chunk) (d : Draft) (es : List Expr) : Prop :=
  ∀ ⦃a b : Spot⦄ ⦃env env' : Env V⦄ ⦃s vs : List V⦄, Laid d (.backward es) a b →
    Expr.allSimple es = true → Expr.evalBackward I es env = some (vs, env') →
    Leads I c a b env s env' (vs ++ s)

namespace Computes

variable (hc : d.finish = .ok c) (hfew : d.labels.size ≤ UInt32.size)

include hc hfew

/-- An integer is pushed as it stands in the code. -/
theorem integer {n : Int64} {span : Span} : Computes I c d (.integer n span) := by
  intro a b env env' s v h _ hv
  obtain ⟨ms, r, hu, -, hl⟩ := h.unfolds hfew
  cases hu with
  | integer =>
      obtain ⟨_, ⟨hi, rfl⟩, rfl⟩ := hl
      cases hv
      exact .instr (Draft.finished_plain hc hi rfl) fun _ _ => rfl

/-- A text is loaded from the pool, where it is the same text. -/
theorem str {x : String} {span : Span} : Computes I c d (.str x span) := by
  intro a b env env' s v h _ hv
  obtain ⟨ms, r, hu, -, hl⟩ := h.unfolds hfew
  cases hu with
  | str =>
      obtain ⟨_, ⟨⟨index, w, hi, hw, heq⟩, rfl⟩, rfl⟩ := hl
      obtain rfl := Constant.eq_str heq
      cases hv
      refine .instr (Draft.finished_plain hc hi rfl) fun _ _ => ?_
      rw [← (Draft.finish_eq_ok hc).1] at hw
      simp [Instruction.loadConst, Machine.execute, hw, Machine.push, Machine.next,
        Interpretation.constant]

theorem bool {x : Bool} {span : Span} : Computes I c d (.bool x span) := by
  intro a b env env' s v h _ hv
  obtain ⟨ms, r, hu, -, hl⟩ := h.unfolds hfew
  cases hu with
  | bool =>
      obtain ⟨_, ⟨hi, rfl⟩, rfl⟩ := hl
      cases hv
      cases x with
      | true => exact .instr (Draft.finished_plain hc hi rfl) fun _ _ => rfl
      | false => exact .instr (Draft.finished_plain hc hi rfl) fun _ _ => rfl

theorem undefined {span : Span} : Computes I c d (.undefined span) := by
  intro a b env env' s v h _ hv
  obtain ⟨ms, r, hu, -, hl⟩ := h.unfolds hfew
  cases hu with
  | undefined =>
      obtain ⟨_, ⟨hi, rfl⟩, rfl⟩ := hl
      cases hv
      exact .instr (Draft.finished_plain hc hi rfl) fun _ _ => rfl

/-- A variable that has a value is in scope, with a slot that holds it. -/
theorem var {x : String} {span : Span} : Computes I c d (.var x span) := by
  intro a b env env' s v h _ hv
  obtain ⟨ms, r, hu, hq, hl⟩ := h.unfolds hfew
  cases hu with
  | varUndeclared => simp [Quiet, Move.quiet] at hq
  | var =>
      obtain ⟨_, ⟨hfound, rfl⟩, _, ⟨hi, rfl⟩, rfl⟩ := hl
      simp only [Expr.eval, Option.bind_eq_bind, Option.bind_eq_some_iff] at hv
      obtain ⟨w, hw, hv⟩ := hv
      cases hv
      exact .load (Draft.finished_plain hc hi rfl) hfound hw

/-- A variable that is declared holds the undefined value. -/
theorem declare {x : String} {type : ValueType} {span : Span} :
    Computes I c d (.declare x type span) := by
  intro a b env env' s v h hs hv
  obtain ⟨ms, r, hu, -, hl⟩ := h.unfolds hfew
  cases hu with
  | declare =>
      obtain ⟨⟨t, pc⟩, ⟨hdecl, hpc⟩, _, ⟨hi, rfl⟩, _, ⟨hdup, rfl⟩, _, ⟨hstore, rfl⟩, rfl⟩ := hl
      obtain rfl : pc = a.pc := hpc
      cases hv
      have hundef : Leads I c a ⟨a.scopes, a.pc + 1⟩ env s env (I.undefined :: s) :=
        .instr (Draft.finished_plain hc hi rfl) fun _ _ => rfl
      have hstored : Leads I c ⟨a.scopes, a.pc + 1⟩ ⟨t, a.pc + 3⟩ env (I.undefined :: s) _ _ :=
        .declare (Draft.finished_plain hc hdup rfl) (Draft.finished_plain hc hstore rfl) h.apart
          hdecl hs
      exact hundef.trans hstored

/-- The items are boxed from the stack, where the last one is on top. -/
theorem list {items : List Expr} {span : Span} (hitems : ComputesEach I c d items) :
    Computes I c d (.list items span) := by
  intro a b env env' s v h hs hv
  obtain ⟨ms, r, hu, -, hl⟩ := h.unfolds hfew
  cases hu with
  | list =>
      obtain ⟨a₁, hlaid, _, ⟨⟨-, hlen⟩, rfl⟩, _, ⟨hi, rfl⟩, rfl⟩ := hl
      simp only [Expr.eval, Option.bind_eq_bind, Option.bind_eq_some_iff] at hv
      obtain ⟨⟨vs, env₁⟩, hvs, hv⟩ := hv
      cases hv
      refine (hitems hlaid hs hvs).trans (.instr (Draft.finished_plain hc hi rfl) fun _ _ => ?_)
      have hcount : items.length.toUInt16.toNat = vs.reverse.length := by
        rw [List.length_reverse, Expr.evalEach_length hvs]
        exact Nat.mod_eq_of_lt hlen
      simp [Instruction.boxArray, Machine.execute, Machine.taking, hcount, Machine.next]

/-- The second operand is on top when the operation takes both. -/
theorem binary {op : BinaryOp} {left right : Expr} {span : Span} (hleft : Computes I c d left)
    (hright : Computes I c d right) : Computes I c d (.binary op left right span) := by
  intro a b env env' s v h hs hv
  obtain ⟨ms, r, hu, -, hl⟩ := h.unfolds hfew
  cases hu with
  | binary =>
      obtain ⟨a₁, hlaid, a₂, hlaid', _, ⟨hi, rfl⟩, rfl⟩ := hl
      simp only [Expr.simple, Bool.and_eq_true] at hs
      simp only [Expr.eval, Option.bind_eq_bind, Option.bind_eq_some_iff] at hv
      obtain ⟨⟨x, env₁⟩, hx, ⟨y, env₂⟩, hy, w, hw, hv⟩ := hv
      cases hv
      refine (hleft hlaid hs.1 hx).trans ((hright hlaid' hs.2 hy).trans
        (.instr (Draft.finished_plain hc hi rfl) fun _ _ => ?_))
      cases op <;> simp [Instruction.bare, BinaryOp.opcode, Machine.execute, Opcode.binary?,
        Machine.binary, hw, Machine.next]

theorem unary {op : UnaryOp} {operand : Expr} {span : Span} (hoperand : Computes I c d operand) :
    Computes I c d (.unary op operand span) := by
  intro a b env env' s v h hs hv
  obtain ⟨ms, r, hu, -, hl⟩ := h.unfolds hfew
  cases hu with
  | unary =>
      obtain ⟨a₁, hlaid, _, ⟨hi, rfl⟩, rfl⟩ := hl
      simp only [Expr.eval, Option.bind_eq_bind, Option.bind_eq_some_iff] at hv
      obtain ⟨⟨x, env₁⟩, hx, w, hw, hv⟩ := hv
      cases hv
      refine (hoperand hlaid hs hx).trans (.instr (Draft.finished_plain hc hi rfl) fun _ _ => ?_)
      cases op <;> simp [Instruction.bare, UnaryOp.opcode, Machine.execute, Machine.unary, hw,
        Machine.next]

/-- The position is on top when the list is looked into. -/
theorem index {target position : Expr} {span : Span} (htarget : Computes I c d target)
    (hposition : Computes I c d position) : Computes I c d (.index target position span) := by
  intro a b env env' s v h hs hv
  obtain ⟨ms, r, hu, -, hl⟩ := h.unfolds hfew
  cases hu with
  | index =>
      obtain ⟨a₁, hlaid, a₂, hlaid', _, ⟨hi, rfl⟩, rfl⟩ := hl
      simp only [Expr.simple, Bool.and_eq_true] at hs
      simp only [Expr.eval, Option.bind_eq_bind, Option.bind_eq_some_iff] at hv
      obtain ⟨⟨x, env₁⟩, hx, ⟨y, env₂⟩, hy, w, hw, hv⟩ := hv
      cases hv
      refine (htarget hlaid hs.1 hx).trans ((hposition hlaid' hs.2 hy).trans
        (.instr (Draft.finished_plain hc hi rfl) fun _ _ => ?_))
      simp [Instruction.bare, Machine.execute, Machine.binary, hw, Machine.next]

/-- The value is computed first; it goes to a variable in scope, or to one that is declared then. -/
theorem assign {target value : Expr} {span : Span} (hvalue : Computes I c d value) :
    Computes I c d (.assign target value span) := by
  intro a b env env' s v h hs hv
  obtain ⟨ms, r, hu, hq, hl⟩ := h.unfolds hfew
  simp only [Expr.simple, Bool.and_eq_true] at hs
  cases hu with
  | assignVarUndeclared | assignOther => simp [Quiet, Move.quiet] at hq
  | assignVarMismatch henf | assignDeclareMismatch henf =>
      cases henf.quiet fun m hm => hq m (List.mem_append_right _ hm)
  | assignVar henf =>
      simp only [Expr.eval, Option.bind_eq_bind, Option.bind_eq_some_iff] at hv
      obtain ⟨⟨w, env₁⟩, hw, env₂, hassign, hv⟩ := hv
      cases hv
      obtain ⟨a₁, hlaid, _, ⟨hfound, rfl⟩, hl⟩ := hl
      exact (hvalue hlaid hs.2 hw).trans (henf.assign hc hl hlaid.apart_behind hfound hassign)
  | assignDeclare henf =>
      simp only [Expr.eval, Option.bind_eq_bind, Option.bind_eq_some_iff] at hv
      obtain ⟨⟨w, env₁⟩, hw, hv⟩ := hv
      cases hv
      cases henf with
      | identical ht | castable ht =>
          have hunknown : ValueType.isUnknown _ = true := hs.1
          rw [hunknown] at ht
          cases ht
      | free =>
          obtain ⟨a₁, hlaid, ⟨t, pc⟩, ⟨hdecl, hpc⟩, _, ⟨hdup, rfl⟩, _, ⟨hstore, rfl⟩, rfl⟩ := hl
          obtain rfl : pc = a₁.pc := hpc
          exact (hvalue hlaid hs.2 hw).trans (.declare (Draft.finished_plain hc hdup rfl)
            (Draft.finished_plain hc hstore rfl) hlaid.apart_behind hdecl hs.1)

/-- A checkpoint has no effect on values; a builtin finds its first argument on top. -/
theorem call {name : String} {args : List Expr} {span : Span} (hargs : ComputesBackward I c d args) :
    Computes I c d (.call name args span) := by
  intro a b env env' s v h hs hv
  obtain ⟨ms, r, hu, hq, hl⟩ := h.unfolds hfew
  obtain ⟨id, s', on, rfl, rfl, rfl⟩ | ⟨b, hb, hlen, rfl⟩ := hu.simple_call hq hs
  · obtain ⟨_, ⟨-, rfl⟩, hl⟩ := hl
    cases hv
    cases on with
    | false =>
        obtain ⟨_, ⟨hi, rfl⟩, rfl⟩ := hl
        exact .instr (Draft.finished_plain hc hi rfl) fun _ _ => rfl
    | true =>
        obtain ⟨_, ⟨hpoint, rfl⟩, _, ⟨hi, rfl⟩, rfl⟩ := hl
        exact .trans (.instr (Draft.finished_plain hc hpoint rfl) fun _ _ => rfl)
          (.instr (Draft.finished_plain hc hi rfl) fun _ _ => rfl)
  · obtain ⟨a₁, hlaid, _, ⟨hi, rfl⟩, rfl⟩ := hl
    simp only [Expr.simple, Bool.and_eq_true] at hs
    have hother : name ≠ "checkpoint" := by
      rintro rfl
      cases hb
    simp only [Expr.eval, beq_iff_eq, hother, if_false, hb, Option.bind_eq_bind,
      Option.bind_some, Option.bind_eq_some_iff] at hv
    obtain ⟨⟨vs, env₁⟩, hvs, w, hw, hv⟩ := hv
    cases hv
    refine (hargs hlaid hs.2 hvs).trans (.instr (Draft.finished_plain hc hi rfl) fun _ _ => ?_)
    have hcount : args.length.toUInt8.toNat = vs.length := by
      rw [Expr.evalBackward_length hvs]
      exact Nat.mod_eq_of_lt hlen
    simp [Instruction.callBuiltin, Machine.execute, Machine.taking, hcount, hw, Machine.next]

end Computes

section Lists

variable (hfew : d.labels.size ≤ UInt32.size)

include hfew

theorem ComputesEach.nil : ComputesEach I c d [] := by
  intro a b env env' s vs h _ hv
  obtain ⟨ms, r, hu, -, hl⟩ := h.unfolds hfew
  cases hu
  obtain rfl := hl
  cases hv
  exact .refl

/-- Expressions from the first one on, the stack growing with each. -/
theorem ComputesEach.cons {e : Expr} {es : List Expr} (he : Computes I c d e)
    (hes : ComputesEach I c d es) : ComputesEach I c d (e :: es) := by
  intro a b env env' s vs h hs hv
  obtain ⟨ms, r, hu, -, hl⟩ := h.unfolds hfew
  cases hu with
  | eachCons =>
      obtain ⟨a₁, hlaid, _, hlaid', rfl⟩ := hl
      simp only [Expr.allSimple, Bool.and_eq_true] at hs
      simp only [Expr.evalEach, Option.bind_eq_bind, Option.bind_eq_some_iff] at hv
      obtain ⟨⟨w, env₁⟩, hw, ⟨ws, env₂⟩, hws, hv⟩ := hv
      cases hv
      have hrest : Leads I c a₁ _ env₁ (w :: s) _ (ws.reverse ++ w :: s) := hes hlaid' hs.2 hws
      simpa using (he hlaid hs.1 hw).trans hrest

theorem ComputesBackward.nil : ComputesBackward I c d [] := by
  intro a b env env' s vs h _ hv
  obtain ⟨ms, r, hu, -, hl⟩ := h.unfolds hfew
  cases hu
  obtain rfl := hl
  cases hv
  exact .refl

/-- Expressions from the last one on, the stack growing with each. -/
theorem ComputesBackward.cons {e : Expr} {es : List Expr} (he : Computes I c d e)
    (hes : ComputesBackward I c d es) : ComputesBackward I c d (e :: es) := by
  intro a b env env' s vs h hs hv
  obtain ⟨ms, r, hu, -, hl⟩ := h.unfolds hfew
  cases hu with
  | backwardCons =>
      obtain ⟨a₁, hlaid, _, hlaid', rfl⟩ := hl
      simp only [Expr.allSimple, Bool.and_eq_true] at hs
      simp only [Expr.evalBackward, Option.bind_eq_bind, Option.bind_eq_some_iff] at hv
      obtain ⟨⟨ws, env₁⟩, hws, ⟨w, env₂⟩, hw, hv⟩ := hv
      cases hv
      exact (hes hlaid hs.2 hws).trans (he hlaid' hs.1 hw)

end Lists

mutual

/-- **The code of a simple expression puts its value on the stack.** -/
theorem computes (hc : d.finish = .ok c) (hfew : d.labels.size ≤ UInt32.size) :
    ∀ e, Computes I c d e
  | .integer _ _ => .integer hc hfew
  | .str _ _ => .str hc hfew
  | .bool _ _ => .bool hc hfew
  | .undefined _ => .undefined hc hfew
  | .var _ _ => .var hc hfew
  | .declare _ _ _ => .declare hc hfew
  | .list items _ => .list hc hfew (computesEach hc hfew items)
  | .binary _ left right _ => .binary hc hfew (computes hc hfew left) (computes hc hfew right)
  | .unary _ operand _ => .unary hc hfew (computes hc hfew operand)
  | .index target position _ => .index hc hfew (computes hc hfew target) (computes hc hfew position)
  | .assign _ value _ => .assign hc hfew (computes hc hfew value)
  | .call _ args _ => .call hc hfew (computesBackward hc hfew args)
  | .float _ _ | .typed _ _ _ => by
      intro a b env env' s v _ _ hv
      simp [Expr.eval] at hv

theorem computesEach (hc : d.finish = .ok c) (hfew : d.labels.size ≤ UInt32.size) :
    ∀ es, ComputesEach I c d es
  | [] => .nil hfew
  | e :: es => .cons hfew (computes hc hfew e) (computesEach hc hfew es)

theorem computesBackward (hc : d.finish = .ok c) (hfew : d.labels.size ≤ UInt32.size) :
    ∀ es, ComputesBackward I c d es
  | [] => .nil hfew
  | e :: es => .cons hfew (computes hc hfew e) (computesBackward hc hfew es)

end

/-- **The code of a simple expression puts its value on the stack.** -/
theorem Laid.eval {e : Expr} {v : V} (h : Laid d (.expr e) a b) (hc : d.finish = .ok c)
    (hfew : d.labels.size ≤ UInt32.size) (hs : e.simple = true)
    (hv : e.eval I env = some (v, env')) : Leads I c a b env s env' (v :: s) :=
  computes hc hfew e h hs hv

end Values

end StackScript
