import StackScript.Proofs.Meaning.Expressions
import StackScript.Proofs.Meaning.SlotExpr

/-!
# The code of expressions over slots

Wherever an expression is lowered without diagnostics, its variables can be looked up there, and its code
computes what the expression over slots means.  Nothing is asked of the open scopes: two names may share a
slot, and then an assignment to one changes the other, in the code as in the expression over slots.

* `Codes`: the code between two places computes an expression over slots.
* `Expr.Coded`: what is to be said of an expression, with a lemma for each kind of them.
* `lowered_expression_computes`: the code of an expression computes its value, and changes no other slots
  than those the expression writes to.
-/

namespace StackScript

open SlotExpr

/-! ### Code between two places -/

section Places

variable {V : Type} {I : Interpretation V} {c : Chunk} {n m : Nat} {q r : SlotExpr} {qs : List SlotExpr}

/-- The code from `n` to `m` puts the value of the expression on the stack. -/
def Codes (I : Interpretation V) (c : Chunk) (q : SlotExpr) (n m : Nat) : Prop :=
  Untyped q.accesses → ∀ ⦃s locals v locals' callers⦄, q.eval I locals = some (v, locals') →
    Machine.Goes I c ⟨n, s, locals, callers⟩ ⟨m, v :: s, locals', callers⟩

/-- The same of expressions from the first to the last: the last value is on top. -/
def CodesEach (I : Interpretation V) (c : Chunk) (qs : List SlotExpr) (n m : Nat) : Prop :=
  Untyped (allAccesses qs) → ∀ ⦃s locals vs locals' callers⦄,
    evalEach I qs locals = some (vs, locals') →
    Machine.Goes I c ⟨n, s, locals, callers⟩ ⟨m, vs.reverse ++ s, locals', callers⟩

/-- The same of expressions from the last to the first: the first value is on top. -/
def CodesBackward (I : Interpretation V) (c : Chunk) (qs : List SlotExpr) (n m : Nat) : Prop :=
  Untyped (allAccesses qs) → ∀ ⦃s locals vs locals' callers⦄,
    evalBackward I qs locals = some (vs, locals') →
    Machine.Goes I c ⟨n, s, locals, callers⟩ ⟨m, vs ++ s, locals', callers⟩

namespace Codes

/-- One instruction pushes an integer. -/
theorem int {k : Int64} (hi : c.instructions[n]? = some (.pushInt k)) :
    Codes I c (.int k) n (n + 1) := by
  intro _ s locals v locals' callers hv
  cases hv
  exact .one hi rfl

/-- A text is loaded from the pool. -/
theorem str {x : String} {index : UInt16} (hi : c.instructions[n]? = some (.loadConst index))
    (hx : c.constants[index.toNat]? = some (.str x)) : Codes I c (.str x) n (n + 1) := by
  intro _ s locals v locals' callers hv
  cases hv
  exact .one hi (by simp [Instruction.loadConst, Machine.execute, hx, Machine.push, Machine.next,
    Interpretation.constant])

theorem bool {x : Bool} (hi : c.instructions[n]? = some (.pushBool x)) :
    Codes I c (.bool x) n (n + 1) := by
  intro _ s locals v locals' callers hv
  cases hv
  cases x with
  | true => exact .one hi rfl
  | false => exact .one hi rfl

theorem undefined (hi : c.instructions[n]? = some (.bare .loadUndefined)) :
    Codes I c .undefined n (n + 1) := by
  intro _ s locals v locals' callers hv
  cases hv
  exact .one hi rfl

theorem load {slot : Slot} (hi : c.instructions[n]? = some (.load slot)) :
    Codes I c (.load slot) n (n + 1) := by
  intro _ s locals v locals' callers hv
  simp only [eval, Option.bind_eq_bind, Option.bind_eq_some_iff] at hv
  obtain ⟨w, hw, hv⟩ := hv
  cases hv
  exact .load hi hw

/-- The value of a typed variable may be converted before it is stored; nothing is said of that here. -/
theorem store {slot : Slot} {type : ValueType} {k : Nat} (hq : Codes I c q n m)
    (hi : type.isUnknown = true → c.instructions[m]? = some (.bare .dup) ∧
      c.instructions[m + 1]? = some (.store slot) ∧ k = m + 2) :
    Codes I c (.store slot type q) n k := by
  intro hu s locals v locals' callers hv
  obtain ⟨huq, hut⟩ := untyped_append.mp hu
  obtain ⟨hdup, hstore, rfl⟩ := hi (hut _ List.mem_cons_self)
  simp only [eval, Option.bind_eq_bind, Option.bind_eq_some_iff] at hv
  obtain ⟨⟨w, l⟩, hw, hv⟩ := hv
  split at hv
  · rename_i hlt
    cases hv
    exact (hq huq hw).trans (Leads.dup_store hdup hstore hlt)
  · cases hv

/-- The items are computed in order, and boxed together. -/
theorem list (hqs : CodesEach I c qs n m) (hlen : qs.length < UInt16.size)
    (hi : c.instructions[m]? = some (.boxArray qs.length.toUInt16)) :
    Codes I c (.list qs) n (m + 1) := by
  intro hu s locals v locals' callers hv
  simp only [eval, Option.bind_eq_bind, Option.bind_eq_some_iff] at hv
  obtain ⟨⟨vs, l⟩, hvs, hv⟩ := hv
  cases hv
  refine (hqs hu hvs).trans (.one hi ?_)
  have hcount : qs.length.toUInt16.toNat = vs.reverse.length := by
    rw [List.length_reverse, evalEach_length hvs]
    exact Nat.mod_eq_of_lt hlen
  simp [Instruction.boxArray, Machine.execute, Machine.taking, hcount, Machine.next]

/-- The right operand is computed behind the left one, and the operation takes both. -/
theorem binary {op : BinaryOp} {k : Nat} (hq : Codes I c q n m) (hr : Codes I c r m k)
    (hi : c.instructions[k]? = some (.bare op.opcode)) : Codes I c (.binary op q r) n (k + 1) := by
  intro hu s locals v locals' callers hv
  obtain ⟨huq, hur⟩ := untyped_append.mp hu
  simp only [eval, Option.bind_eq_bind, Option.bind_eq_some_iff] at hv
  obtain ⟨⟨a, l₁⟩, ha, ⟨b, l₂⟩, hb, w, hw, hv⟩ := hv
  cases hv
  refine (hq huq ha).trans ((hr hur hb).trans (.one hi ?_))
  cases op <;> simp [Instruction.bare, BinaryOp.opcode, Machine.execute, Opcode.binary?,
    Machine.binary, hw, Machine.next]

theorem unary {op : UnaryOp} (hq : Codes I c q n m)
    (hi : c.instructions[m]? = some (.bare op.opcode)) : Codes I c (.unary op q) n (m + 1) := by
  intro hu s locals v locals' callers hv
  simp only [eval, Option.bind_eq_bind, Option.bind_eq_some_iff] at hv
  obtain ⟨⟨a, l₁⟩, ha, w, hw, hv⟩ := hv
  cases hv
  refine (hq hu ha).trans (.one hi ?_)
  cases op <;> simp [Instruction.bare, UnaryOp.opcode, Machine.execute, Machine.unary, hw, Machine.next]

/-- The position is computed behind the list that it is a position in. -/
theorem index {k : Nat} (hq : Codes I c q n m) (hr : Codes I c r m k)
    (hi : c.instructions[k]? = some (.bare .arrayGet)) : Codes I c (.index q r) n (k + 1) := by
  intro hu s locals v locals' callers hv
  obtain ⟨huq, hur⟩ := untyped_append.mp hu
  simp only [eval, Option.bind_eq_bind, Option.bind_eq_some_iff] at hv
  obtain ⟨⟨a, l₁⟩, ha, ⟨b, l₂⟩, hb, w, hw, hv⟩ := hv
  cases hv
  refine (hq huq ha).trans ((hr hur hb).trans (.one hi ?_))
  simp [Instruction.bare, Machine.execute, Machine.binary, hw, Machine.next]

/-- The arguments are computed from the last one on, so that the first one is on top. -/
theorem builtin {b : Builtin} (hqs : CodesBackward I c qs n m) (hlen : qs.length < UInt8.size)
    (hi : c.instructions[m]? = some (.callBuiltin b qs.length.toUInt8)) :
    Codes I c (.builtin b qs) n (m + 1) := by
  intro hu s locals v locals' callers hv
  simp only [eval, Option.bind_eq_bind, Option.bind_eq_some_iff] at hv
  obtain ⟨⟨vs, l⟩, hvs, w, hw, hv⟩ := hv
  cases hv
  refine (hqs hu hvs).trans (.one hi ?_)
  have hcount : qs.length.toUInt8.toNat = vs.length := by
    rw [evalBackward_length hvs]
    exact Nat.mod_eq_of_lt hlen
  simp [Instruction.callBuiltin, Machine.execute, Machine.taking, hcount, hw, Machine.next]

/-- Instructions before the code that do nothing. -/
theorem after {k : Nat} (hq : Codes I c q m k)
    (hn : ∀ {s locals callers}, Machine.Goes I c ⟨n, s, locals, callers⟩ ⟨m, s, locals, callers⟩) :
    Codes I c q n k :=
  fun hu _ _ _ _ _ hv => hn.trans (hq hu hv)

end Codes

theorem CodesEach.nil : CodesEach I c [] n n := by
  intro _ s locals vs locals' callers hv
  cases hv
  exact .refl

/-- The values of the later expressions come to lie on top. -/
theorem CodesEach.cons {k : Nat} (hq : Codes I c q n m) (hqs : CodesEach I c qs m k) :
    CodesEach I c (q :: qs) n k := by
  intro hu s locals vs locals' callers hv
  obtain ⟨huq, huqs⟩ := untyped_append.mp hu
  simp only [evalEach, Option.bind_eq_bind, Option.bind_eq_some_iff] at hv
  obtain ⟨⟨w, l₁⟩, hw, ⟨ws, l₂⟩, hws, hv⟩ := hv
  cases hv
  have hrest : Machine.Goes I c ⟨m, w :: s, l₁, callers⟩ ⟨k, ws.reverse ++ w :: s, l₂, callers⟩ :=
    hqs huqs hws
  simpa using (hq huq hw).trans hrest

theorem CodesBackward.nil : CodesBackward I c [] n n := by
  intro _ s locals vs locals' callers hv
  cases hv
  exact .refl

/-- The values of the later expressions come to lie below. -/
theorem CodesBackward.cons {k : Nat} (hqs : CodesBackward I c qs n m) (hq : Codes I c q m k) :
    CodesBackward I c (q :: qs) n k := by
  intro hu s locals vs locals' callers hv
  obtain ⟨huq, huqs⟩ := untyped_append.mp hu
  simp only [evalBackward, Option.bind_eq_bind, Option.bind_eq_some_iff] at hv
  obtain ⟨⟨ws, l₁⟩, hws, ⟨w, l₂⟩, hw, hv⟩ := hv
  cases hv
  exact (hqs huqs hws).trans (hq huq hw)

end Places

/-! ### What single moves emit -/

section Emission

variable {K : Piece → Bool → Session → Session → Prop} {σ σ' : Session} {d : Draft} {c : Chunk}

/-- An instruction that names no label stands in the code where it was emitted. -/
theorem Move.emits_plain {i : Instruction} (h : (Move.emit i).Acts K σ σ') (hd : σ'.draft.Grows d)
    (hc : d.finish = .ok c) (hi : d.resolveInstruction i = .ok i) :
    c.instructions[σ.draft.position]? = some i ∧ σ'.draft.position = σ.draft.position + 1 ∧
      σ'.scopes = σ.scopes ∧ σ.draft.Grows d := by
  obtain ⟨j, hj, hr⟩ := acts_emit_at h hd hc
  obtain rfl : i = j := Except.ok.inj (hi.symm.trans hr)
  obtain rfl := acts_emit.mp h
  exact ⟨hj, by simp [Draft.position, Draft.emit, Chunk.emit, Chunk.size], rfl, .trans .emit hd⟩

/-- A text gets an instruction that loads it, and a place in the pool, as long as the pool has room for
it. -/
theorem Move.loads_str {x : String} (h : (Move.constant (.str x)).Acts K σ σ')
    (hpool : σ'.draft.chunk.constants.size ≤ UInt16.size) (hd : σ'.draft.Grows d)
    (hc : d.finish = .ok c) :
    (∃ index, c.instructions[σ.draft.position]? = some (.loadConst index) ∧
      c.constants[index.toNat]? = some (.str x)) ∧
      σ'.draft.position = σ.draft.position + 1 ∧ σ'.scopes = σ.scopes := by
  obtain ⟨index, w, hi, hw, heq⟩ := acts_constant_pooled h hpool hd
  obtain rfl := Constant.eq_str heq
  rw [← (Draft.finish_eq_ok hc).1] at hw
  have hdoes : (Move.constant (.str x)).Does σ σ' := h
  exact ⟨⟨index, Draft.finished_plain hc hi rfl, hw⟩, hdoes.position, hdoes.spares.scopes rfl⟩

/-- A value is stored to a variable and stays on the stack.  If the variable has no type, nothing comes
before that. -/
theorem Enforces.stores {cs : List Move} {e : Expr} {type : ValueType} {role : Role} {slot : Slot}
    (h : Enforces e type role cs true) (ha : Along K (cs ++ [Move.op .dup, .emit (.store slot)]) σ σ')
    (hd : σ'.draft.Grows d) (hc : d.finish = .ok c) :
    σ'.scopes = σ.scopes ∧ (type.isUnknown = true →
      c.instructions[σ.draft.position]? = some (.bare .dup) ∧
      c.instructions[σ.draft.position + 1]? = some (.store slot) ∧
      σ'.draft.position = σ.draft.position + 2) := by
  obtain ⟨τ, hcs, τ₁, hdup, _, hstore, rfl⟩ := along_append.mp ha
  obtain ⟨hi', hpos', hs', hd₁⟩ := Move.emits_plain hstore hd hc rfl
  obtain ⟨hi, hpos, hs, -⟩ := Move.emits_plain hdup hd₁ hc rfl
  cases h with
  | free =>
      obtain rfl : σ = τ := hcs
      rw [hpos] at hi' hpos'
      exact ⟨hs'.trans hs, fun _ => ⟨hi, hi', hpos'⟩⟩
  | identical ht =>
      obtain ⟨_, ⟨-, rfl⟩, rfl⟩ := hcs
      exact ⟨hs'.trans hs, fun hu => by rw [hu] at ht; cases ht⟩
  | castable ht =>
      obtain ⟨_, ⟨-, rfl⟩, _, hcast, rfl⟩ := hcs
      obtain rfl := Move.acts_emit.mp hcast
      exact ⟨hs'.trans hs, fun hu => by rw [hu] at ht; cases ht⟩

end Emission

/-! ### Expressions -/

section Expressions

variable {V : Type} {I : Interpretation V} {c : Chunk} {d : Draft}

/-- Wherever the expression is lowered, its variables can be looked up, and the code computes what that
makes of it. -/
def Expr.Coded (I : Interpretation V) (c : Chunk) (d : Draft) (e : Expr) : Prop :=
  ∀ ⦃σ σ' : Session⦄, Runs Quiet (.expr e) true σ σ' → e.simple = true →
    σ.draft.chunk.constants.size ≤ UInt16.size → σ'.draft.Grows d →
    ∃ q, e.inSlots? σ.scopes = some (q, σ'.scopes) ∧ Codes I c q σ.draft.position σ'.draft.position

/-- The same of expressions from the first to the last. -/
def Expr.EachCoded (I : Interpretation V) (c : Chunk) (d : Draft) (es : List Expr) : Prop :=
  ∀ ⦃σ σ' : Session⦄, Runs Quiet (.each es) true σ σ' → Expr.allSimple es = true →
    σ.draft.chunk.constants.size ≤ UInt16.size → σ'.draft.Grows d →
    ∃ qs, Expr.eachInSlots? es σ.scopes = some (qs, σ'.scopes) ∧ qs.length = es.length ∧
      CodesEach I c qs σ.draft.position σ'.draft.position

/-- The same of expressions from the last to the first. -/
def Expr.BackwardCoded (I : Interpretation V) (c : Chunk) (d : Draft) (es : List Expr) : Prop :=
  ∀ ⦃σ σ' : Session⦄, Runs Quiet (.backward es) true σ σ' → Expr.allSimple es = true →
    σ.draft.chunk.constants.size ≤ UInt16.size → σ'.draft.Grows d →
    ∃ qs, Expr.backwardInSlots? es σ.scopes = some (qs, σ'.scopes) ∧ qs.length = es.length ∧
      CodesBackward I c qs σ.draft.position σ'.draft.position

namespace Expr.Coded

variable (hc : d.finish = .ok c)

include hc

/-- An integer is one instruction. -/
theorem integer {n : Int64} {span : Span} : Coded I c d (.integer n span) := by
  intro σ σ' h _ _ hd
  obtain ⟨ms, hu, -, ha⟩ := h.unfolds
  cases hu with
  | integer =>
      obtain ⟨_, hemit, rfl⟩ := ha
      obtain ⟨hi, hpos, hs, -⟩ := Move.emits_plain hemit hd hc rfl
      exact ⟨.int n, by rw [inSlots?, hs], hpos ▸ .int hi⟩

/-- A text is one instruction and a constant. -/
theorem str {x : String} {span : Span} : Coded I c d (.str x span) := by
  intro σ σ' h _ hpool hd
  have hpool' := h.pool hpool
  obtain ⟨ms, hu, -, ha⟩ := h.unfolds
  cases hu with
  | str =>
      obtain ⟨_, hload, rfl⟩ := ha
      obtain ⟨⟨index, hi, hx⟩, hpos, hs⟩ := Move.loads_str hload hpool' hd hc
      exact ⟨.str x, by rw [inSlots?, hs], hpos ▸ .str hi hx⟩

theorem bool {x : Bool} {span : Span} : Coded I c d (.bool x span) := by
  intro σ σ' h _ _ hd
  obtain ⟨ms, hu, -, ha⟩ := h.unfolds
  cases hu with
  | bool =>
      obtain ⟨_, hemit, rfl⟩ := ha
      obtain ⟨hi, hpos, hs, -⟩ := Move.emits_plain hemit hd hc (by cases x <;> rfl)
      exact ⟨.bool x, by rw [inSlots?, hs], hpos ▸ .bool hi⟩

theorem undefined {span : Span} : Coded I c d (.undefined span) := by
  intro σ σ' h _ _ hd
  obtain ⟨ms, hu, -, ha⟩ := h.unfolds
  cases hu with
  | undefined =>
      obtain ⟨_, hemit, rfl⟩ := ha
      obtain ⟨hi, hpos, hs, -⟩ := Move.emits_plain hemit hd hc rfl
      exact ⟨.undefined, by rw [inSlots?, hs], hpos ▸ .undefined hi⟩

/-- A variable that is lowered without diagnostics can be looked up, and its slot is read. -/
theorem var {x : String} {span : Span} : Coded I c d (.var x span) := by
  intro σ σ' h _ _ hd
  obtain ⟨ms, hu, hq, ha⟩ := h.unfolds
  cases hu with
  | varUndeclared => simp [Quiet, Move.quiet] at hq
  | @var _ _ b =>
      obtain ⟨_, ⟨hfound, rfl⟩, _, hemit, rfl⟩ := ha
      obtain ⟨hi, hpos, hs, -⟩ := Move.emits_plain hemit hd hc rfl
      exact ⟨.load b.slot, by simp [inSlots?, hfound, hs], hpos ▸ .load hi⟩

/-- The code of a declaration is that of an assignment of undef. -/
theorem declare {x : String} {type : ValueType} {span : Span} : Coded I c d (.declare x type span) := by
  intro σ σ' h hsimple _ hd
  obtain ⟨ms, hu, -, ha⟩ := h.unfolds
  cases hu with
  | @declare _ _ _ slot =>
      obtain ⟨τ, hdecl, τ₁, hundef, hstore⟩ := ha
      obtain ⟨t, ht, rfl⟩ := Move.acts_declare.mp hdecl
      have hfree : Enforces (.undefined span) type .assignment [] true := .free hsimple
      obtain ⟨hs, hcode⟩ := hfree.stores hstore hd hc
      obtain ⟨hi, hpos, hs₁, -⟩ := Move.emits_plain hundef (hstore.grows.trans hd) hc rfl
      refine ⟨.store slot type .undefined, by simp [inSlots?, ht, hs, hs₁], .store (.undefined hi) ?_⟩
      rwa [hpos] at hcode

/-- The items of a list are lowered in order. -/
theorem list {items : List Expr} {span : Span} (hitems : EachCoded I c d items) :
    Coded I c d (.list items span) := by
  intro σ σ' h hsimple hpool hd
  obtain ⟨ms, hu, -, ha⟩ := h.unfolds
  cases hu with
  | list =>
      obtain ⟨τ, heach, _, ⟨hlen, rfl⟩, _, hemit, rfl⟩ := ha
      obtain ⟨hi, hpos, hs, hd₁⟩ := Move.emits_plain hemit hd hc rfl
      obtain ⟨qs, hqs, hcount, hcode⟩ := hitems heach hsimple hpool hd₁
      rw [← hcount] at hlen hi
      exact ⟨.list qs, by simp [inSlots?, hqs, hs], hpos ▸ .list hcode hlen hi⟩

/-- The operands of an operation are lowered in order, the scopes of the first given on to the second. -/
theorem binary {op : BinaryOp} {left right : Expr} {span : Span} (hleft : Coded I c d left)
    (hright : Coded I c d right) : Coded I c d (.binary op left right span) := by
  intro σ σ' h hsimple hpool hd
  obtain ⟨ms, hu, -, ha⟩ := h.unfolds
  simp only [simple, Bool.and_eq_true] at hsimple
  cases hu with
  | binary =>
      obtain ⟨τ₁, hrun₁, τ₂, hrun₂, _, hemit, rfl⟩ := ha
      obtain ⟨hi, hpos, hs, hd₂⟩ := Move.emits_plain hemit hd hc (by cases op <;> rfl)
      obtain ⟨q, hq, hcode⟩ := hleft hrun₁ hsimple.1 hpool (Runs.grows hrun₂ |>.trans hd₂)
      obtain ⟨r, hr, hcode'⟩ := hright hrun₂ hsimple.2 (Runs.pool hrun₁ hpool) hd₂
      exact ⟨.binary op q r, by simp [inSlots?, hq, hr, hs], hpos ▸ .binary hcode hcode' hi⟩

theorem unary {op : UnaryOp} {operand : Expr} {span : Span} (hoperand : Coded I c d operand) :
    Coded I c d (.unary op operand span) := by
  intro σ σ' h hsimple hpool hd
  obtain ⟨ms, hu, -, ha⟩ := h.unfolds
  cases hu with
  | unary =>
      obtain ⟨τ, hrun, _, hemit, rfl⟩ := ha
      obtain ⟨hi, hpos, hs, hd₁⟩ := Move.emits_plain hemit hd hc (by cases op <;> rfl)
      obtain ⟨q, hq, hcode⟩ := hoperand hrun hsimple hpool hd₁
      exact ⟨.unary op q, by simp [inSlots?, hq, hs], hpos ▸ .unary hcode hi⟩

theorem index {target position : Expr} {span : Span} (htarget : Coded I c d target)
    (hposition : Coded I c d position) : Coded I c d (.index target position span) := by
  intro σ σ' h hsimple hpool hd
  obtain ⟨ms, hu, -, ha⟩ := h.unfolds
  simp only [simple, Bool.and_eq_true] at hsimple
  cases hu with
  | index =>
      obtain ⟨τ₁, hrun₁, τ₂, hrun₂, _, hemit, rfl⟩ := ha
      obtain ⟨hi, hpos, hs, hd₂⟩ := Move.emits_plain hemit hd hc rfl
      obtain ⟨q, hq, hcode⟩ := htarget hrun₁ hsimple.1 hpool (Runs.grows hrun₂ |>.trans hd₂)
      obtain ⟨r, hr, hcode'⟩ := hposition hrun₂ hsimple.2 (Runs.pool hrun₁ hpool) hd₂
      exact ⟨.index q r, by simp [inSlots?, hq, hr, hs], hpos ▸ .index hcode hcode' hi⟩

/-- An assignment is to a variable in scope or to one that it declares, whose slot is written to. -/
theorem assign {target value : Expr} {span : Span} (hvalue : Coded I c d value) :
    Coded I c d (.assign target value span) := by
  intro σ σ' h hsimple hpool hd
  obtain ⟨ms, hu, hq, ha⟩ := h.unfolds
  simp only [simple, Bool.and_eq_true] at hsimple
  cases hu with
  | assignVarUndeclared | assignOther => simp [Quiet, Move.quiet] at hq
  | assignVarMismatch henf | assignDeclareMismatch henf =>
      cases henf.quiet fun m hm => hq m (List.mem_append_right _ hm)
  | @assignVar _ _ _ _ b _ henf =>
      obtain ⟨τ, hrun, _, ⟨hfound, rfl⟩, hstore⟩ := ha
      obtain ⟨hs, hcode⟩ := henf.stores hstore hd hc
      obtain ⟨q, hq, hcode'⟩ := hvalue hrun hsimple.2 hpool (hstore.grows.trans hd)
      exact ⟨.store b.slot b.type q, by simp [inSlots?, hq, hfound, hs], .store hcode' hcode⟩
  | @assignDeclare _ type _ _ _ slot _ henf =>
      obtain ⟨τ, hrun, τ₁, hdecl, hstore⟩ := ha
      obtain ⟨t, ht, rfl⟩ := Move.acts_declare.mp hdecl
      obtain ⟨hs, hcode⟩ := henf.stores hstore hd hc
      obtain ⟨q, hq, hcode'⟩ := hvalue hrun hsimple.2 hpool (hstore.grows.trans hd)
      exact ⟨.store slot type q, by simp [inSlots?, hq, ht, hs], .store hcode' hcode⟩

/-- A simple call without diagnostics is a checkpoint or a builtin. -/
theorem call {name : String} {args : List Expr} {span : Span} (hargs : BackwardCoded I c d args) :
    Coded I c d (.call name args span) := by
  intro σ σ' h hsimple hpool hd
  obtain ⟨ms, hu, hq, ha⟩ := h.unfolds
  obtain ⟨id, s', on, rfl, rfl, rfl⟩ | ⟨b, hb, hlen, rfl⟩ := hu.simple_call hq hsimple
  · obtain ⟨_, ⟨-, rfl⟩, ha⟩ := ha
    refine ⟨.undefined, ?_⟩
    cases on with
    | false =>
        obtain ⟨_, hemit, rfl⟩ := ha
        obtain ⟨hi, hpos, hs, -⟩ := Move.emits_plain hemit hd hc rfl
        exact ⟨by rw [hs]; rfl, hpos ▸ .undefined hi⟩
    | true =>
        obtain ⟨τ, hpoint, _, hemit, rfl⟩ := ha
        obtain ⟨hi, hpos, hs, hd₁⟩ := Move.emits_plain hemit hd hc rfl
        obtain ⟨hi₁, hpos₁, hs₁, -⟩ := Move.emits_plain hpoint hd₁ hc rfl
        rw [hpos₁] at hi hpos
        exact ⟨by rw [hs, hs₁]; rfl, hpos ▸ (Codes.undefined hi).after (.one hi₁ rfl)⟩
  · obtain ⟨τ, hback, _, hemit, rfl⟩ := ha
    simp only [simple, Bool.and_eq_true] at hsimple
    have hother : name ≠ "checkpoint" := by
      rintro rfl
      cases hb
    obtain ⟨hi, hpos, hs, hd₁⟩ := Move.emits_plain hemit hd hc rfl
    obtain ⟨qs, hqs, hcount, hcode⟩ := hargs hback hsimple.2 hpool hd₁
    rw [← hcount] at hlen hi
    exact ⟨.builtin b qs, by simp [inSlots?, hother, hb, hqs, hs], hpos ▸ .builtin hcode hlen hi⟩

end Expr.Coded

namespace Expr

theorem EachCoded.nil : EachCoded I c d [] := by
  intro σ σ' h _ _ _
  obtain ⟨ms, hu, -, ha⟩ := h.unfolds
  cases hu
  obtain rfl : σ = σ' := ha
  exact ⟨[], rfl, rfl, .nil⟩

/-- The expressions of a list, from the first one on. -/
theorem EachCoded.cons {e : Expr} {es : List Expr} (he : Coded I c d e) (hes : EachCoded I c d es) :
    EachCoded I c d (e :: es) := by
  intro σ σ' h hsimple hpool hd
  obtain ⟨ms, hu, -, ha⟩ := h.unfolds
  simp only [allSimple, Bool.and_eq_true] at hsimple
  cases hu with
  | eachCons =>
      obtain ⟨τ, hrun, _, hrest, rfl⟩ := ha
      obtain ⟨q, hq, hcode⟩ := he hrun hsimple.1 hpool (Runs.grows hrest |>.trans hd)
      obtain ⟨qs, hqs, hcount, hcode'⟩ := hes hrest hsimple.2 (Runs.pool hrun hpool) hd
      exact ⟨q :: qs, by simp [eachInSlots?, hq, hqs], by simp [hcount], .cons hcode hcode'⟩

theorem BackwardCoded.nil : BackwardCoded I c d [] := by
  intro σ σ' h _ _ _
  obtain ⟨ms, hu, -, ha⟩ := h.unfolds
  cases hu
  obtain rfl : σ = σ' := ha
  exact ⟨[], rfl, rfl, .nil⟩

/-- The expressions of a list, from the last one on. -/
theorem BackwardCoded.cons {e : Expr} {es : List Expr} (he : Coded I c d e)
    (hes : BackwardCoded I c d es) : BackwardCoded I c d (e :: es) := by
  intro σ σ' h hsimple hpool hd
  obtain ⟨ms, hu, -, ha⟩ := h.unfolds
  simp only [allSimple, Bool.and_eq_true] at hsimple
  cases hu with
  | backwardCons =>
      obtain ⟨τ, hrest, _, hrun, rfl⟩ := ha
      obtain ⟨qs, hqs, hcount, hcode'⟩ := hes hrest hsimple.2 hpool (Runs.grows hrun |>.trans hd)
      obtain ⟨q, hq, hcode⟩ := he hrun hsimple.1 (Runs.pool hrest hpool) hd
      exact ⟨q :: qs, by simp [backwardInSlots?, hq, hqs], by simp [hcount], .cons hcode' hcode⟩

mutual

/-- **The code of an expression computes what it means over slots.** -/
theorem coded (hc : d.finish = .ok c) : ∀ e, Coded I c d e
  | .integer _ _ => .integer hc
  | .str _ _ => .str hc
  | .bool _ _ => .bool hc
  | .undefined _ => .undefined hc
  | .var _ _ => .var hc
  | .declare _ _ _ => .declare hc
  | .list items _ => .list hc (eachCoded hc items)
  | .binary _ left right _ => .binary hc (coded hc left) (coded hc right)
  | .unary _ operand _ => .unary hc (coded hc operand)
  | .index target position _ => .index hc (coded hc target) (coded hc position)
  | .assign _ value _ => .assign hc (coded hc value)
  | .call _ args _ => .call hc (backwardCoded hc args)
  | .float _ _ | .typed _ _ _ => by
      intro σ σ' _ hsimple
      cases hsimple

theorem eachCoded (hc : d.finish = .ok c) : ∀ es, EachCoded I c d es
  | [] => .nil
  | e :: es => .cons (coded hc e) (eachCoded hc es)

theorem backwardCoded (hc : d.finish = .ok c) : ∀ es, BackwardCoded I c d es
  | [] => .nil
  | e :: es => .cons (coded hc e) (backwardCoded hc es)

end

end Expr

end Expressions

/-! ### The value of an expression -/

/-- **The code of an expression computes its value.**  Let an expression have been lowered without
diagnostics, whatever scopes were open, and let `c` be the code in the end.  Then its variables can be
looked up where they stand, with `q` as the expression over slots that comes of it.  If `q` writes to no
variable that has a type, the machine gets from the beginning of the code to its end for any operand stack
and any local variables from which `q` has a value.  It puts that value on the stack, and what `q` does not
write to is as it was.  Where the primitives always have a result, so has `q`.

The pool has no more constants than there are indices; no step of lowering adds one beyond that. -/
theorem lowered_expression_computes {V : Type} {I : Interpretation V} {e : Expr} {σ σ' : Session}
    {d : Draft} {c : Chunk} (hl : Lower.lowerExpr e σ = (.ok (), σ'))
    (hquiet : σ'.report.count = σ.report.count) (hs : e.simple = true)
    (hpool : σ.draft.chunk.constants.size ≤ UInt16.size) (hd : σ'.draft.Grows d)
    (hc : d.finish = .ok c) :
    ∃ q, e.inSlots? σ.scopes = some (q, σ'.scopes) ∧ (Untyped q.accesses → ∀ locals,
      (I.Total → Within q.accesses locals.length →
        ∃ v locals', q.eval I locals = some (v, locals')) ∧
      ∀ v locals', q.eval I locals = some (v, locals') →
        (∀ stack callers, Machine.Goes I c ⟨σ.draft.position, stack, locals, callers⟩
          ⟨σ'.draft.position, v :: stack, locals', callers⟩) ∧
        locals'.length = locals.length ∧ ∀ n, Spares q.accesses n → locals'[n]? = locals[n]?) := by
  have hlowers : Lowers (.expr e) true σ σ' := Lowers.expr_iff.mpr ⟨hl, rfl⟩
  obtain ⟨q, hq, hcode⟩ := Expr.coded (I := I) hc e (hlowers.runs.quiet hquiet) hs hpool hd
  refine ⟨q, hq, fun hu locals => ⟨fun hI hw => eval_total hI hw, fun v locals' hv => ?_⟩⟩
  exact ⟨fun stack callers => hcode hu hv, eval_spares hv⟩

/-- Numbers that record what they were made of: the values that are put together are its digits. -/
def digits : Interpretation Int where
  int := id
  num := fun _ => 0
  str := fun _ => 0
  bool := fun _ => 0
  undefined := 0
  binary := fun _ a b => some (10 * a + b)
  unary := fun _ a => some (-a)
  truthy := fun a => a ≠ 0
  box := fun vs => vs.foldl (fun a b => 10 * a + b) 0
  length? := fun _ => none
  index := fun a i => some (10 * a + i)
  builtin := fun _ vs => some (vs.foldl (fun a b => 10 * a + b) 0)
  copy := id
  convert := fun _ a => some a

/-- The numbers have a value for every operation. -/
theorem digits_total : digits.Total where
  binary _ _ _ := ⟨_, rfl⟩
  unary _ _ := ⟨_, rfl⟩
  index _ _ := ⟨_, rfl⟩
  builtin _ _ := ⟨_, rfl⟩

/-- A session in which two names stand for one slot. -/
def sharing : Session :=
  { Session.start "main" {} with
    scopes := ⟨[({ kind := .subroutine .unknown, nextSlot := 1 } : Scope)
      |>.bind "$x" ⟨0, .unknown⟩ |>.bind "$z" ⟨0, .unknown⟩]⟩ }

/-- Pushes a number that is assigned to `$z` on a list with `$x` and a new variable. -/
def pushing : Expr :=
  .call "push" [.list [.var "$x" {}, .declare "$y" .unknown {}] {},
    .assign (.var "$z" {}) (.integer 5 {}) {}] {}

/-- The last argument is computed first, so five is what `$x` has in the list. -/
theorem lowered_expression_computes_sharing :
    ∃ σ c, Lower.lowerExpr pushing sharing = (.ok (), σ) ∧ σ.draft.finish = .ok c ∧
      Machine.Goes digits c ⟨0, [], [7, 8, 9], []⟩ ⟨9, [505], [5, 0, 9], []⟩ := by
  have hlowered : (fun r : Except Fault Unit × Session => r.1.isOk = true ∧ r.2.report.count = 0 ∧
      r.2.draft.position = 9 ∧ r.2.draft.finish.isOk = true)
      (Lower.lowerExpr pushing sharing) := by decide +kernel
  have hvalue : (pushing.inSlots? sharing.scopes).all (fun r => decide (Untyped r.1.accesses ∧
      Within r.1.accesses 3 ∧ r.1.eval digits [7, 8, 9] = some (505, [5, 0, 9]))) = true := by
    decide +kernel
  rcases hl : Lower.lowerExpr pushing sharing with ⟨⟨⟩ | ⟨⟨⟩⟩, σ⟩
  · rw [hl] at hlowered
    cases hlowered.1
  · rw [hl] at hlowered
    obtain ⟨-, hcount, hpos, hok⟩ := hlowered
    cases hc : σ.draft.finish with
    | error e =>
        rw [hc] at hok
        cases hok
    | ok c =>
        obtain ⟨q, hq, hcomputes⟩ := lowered_expression_computes (I := digits) hl hcount (by decide)
          (by decide) .refl hc
        rw [hq] at hvalue
        obtain ⟨hu, hw, hv⟩ := of_decide_eq_true hvalue
        obtain ⟨htotal, hgoes⟩ := hcomputes hu [7, 8, 9]
        obtain ⟨v, locals, hv'⟩ := htotal digits_total hw
        obtain ⟨rfl, rfl⟩ : v = 505 ∧ locals = [5, 0, 9] := by simpa [hv] using hv'.symm
        exact ⟨σ, c, rfl, hc, hpos ▸ (hgoes _ _ hv).1 [] []⟩

end StackScript
