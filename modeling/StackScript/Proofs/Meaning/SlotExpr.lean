import StackScript.Proofs.Meaning.Evaluation

/-!
# Expressions over slots

What an expression means in the frame of a subroutine.  A variable is the slot that its name stands for
at the place where it stands, and the value of an expression is computed from what the slots hold: operands
from left to right, the arguments of a builtin from right to left.  A declaration stores undef, an
assignment stores its value before it is the value of the assignment.

Here two names may stand for one slot, and a slot may belong to no name.

* `Expr.inSlots?`: the expression with its variables looked up in the open scopes.
* `SlotExpr.eval`: the value of an expression over slots, and what the slots hold then.
* `SlotExpr.eval_total`: it has one if the primitives always have a result.
* `SlotExpr.eval_spares`: a slot that is not written to holds what it did.
-/

namespace StackScript

/-- An expression whose variables are slots. -/
inductive SlotExpr where
  | int (value : Int64)
  | str (value : String)
  | bool (value : Bool)
  | undefined
  | load (slot : Slot)
  /-- Stores a value to a variable of the given type, and yields it. -/
  | store (slot : Slot) (type : ValueType) (value : SlotExpr)
  | list (items : List SlotExpr)
  | binary (op : BinaryOp) (left right : SlotExpr)
  | unary (op : UnaryOp) (operand : SlotExpr)
  | index (target position : SlotExpr)
  | builtin (builtin : Builtin) (args : List SlotExpr)

/-! ### Variables and slots -/

namespace Expr

mutual

/-- The expression with each variable looked up where it stands, and the scopes behind it.  The target of an
assignment is declared or looked up behind the value. -/
@[simp] def inSlots? : Expr → Scopes → Option (SlotExpr × Scopes)
  | .integer n _, s => some (.int n, s)
  | .str x _, s => some (.str x, s)
  | .bool b _, s => some (.bool b, s)
  | .undefined _, s => some (.undefined, s)
  | .var x _, s => do
    let b ← s.resolve? x
    return (.load b.slot, s)
  | .declare x type _, s =>
    match Scopes.declare x type s with
    | (.ok slot, s) => some (.store slot type .undefined, s)
    | (.error _, _) => none
  | .list items _, s => do
    let (items, s) ← eachInSlots? items s
    return (.list items, s)
  | .binary op left right _, s => do
    let (left, s) ← left.inSlots? s
    let (right, s) ← right.inSlots? s
    return (.binary op left right, s)
  | .unary op operand _, s => do
    let (operand, s) ← operand.inSlots? s
    return (.unary op operand, s)
  | .assign (.var x _) value _, s => do
    let (value, s) ← value.inSlots? s
    let b ← s.resolve? x
    return (.store b.slot b.type value, s)
  | .assign (.declare x type _) value _, s => do
    let (value, s) ← value.inSlots? s
    match Scopes.declare x type s with
    | (.ok slot, s) => return (.store slot type value, s)
    | (.error _, _) => none
  | .index target position _, s => do
    let (target, s) ← target.inSlots? s
    let (position, s) ← position.inSlots? s
    return (.index target position, s)
  | .call name args _, s =>
    if name == "checkpoint" then some (.undefined, s)
    else do
      let b ← Builtin.ofName? name
      let (args, s) ← backwardInSlots? args s
      return (.builtin b args, s)
  | .float _ _, _ | .typed _ _ _, _ | .assign _ _ _, _ => none

/-- Expressions from the first to the last. -/
@[simp] def eachInSlots? : List Expr → Scopes → Option (List SlotExpr × Scopes)
  | [], s => some ([], s)
  | e :: rest, s => do
    let (e, s) ← e.inSlots? s
    let (rest, s) ← eachInSlots? rest s
    return (e :: rest, s)

/-- Expressions from the last to the first. -/
@[simp] def backwardInSlots? : List Expr → Scopes → Option (List SlotExpr × Scopes)
  | [], s => some ([], s)
  | e :: rest, s => do
    let (rest, s) ← backwardInSlots? rest s
    let (e, s) ← e.inSlots? s
    return (e :: rest, s)

end

end Expr

/-- What an expression does with a slot. -/
inductive Access where
  | read (slot : Slot)
  /-- The slot is written to as a variable of the type. -/
  | write (slot : Slot) (type : ValueType)

namespace Access

/-- The slot that is read or written to. -/
def slot : Access → Slot
  | .read slot | .write slot _ => slot

/-- A variable that is written to was declared without a type. -/
def untyped : Access → Bool
  | .read _ => true
  | .write _ type => type.isUnknown

/-- The slot with this number is written to. -/
def writesTo (n : Nat) : Access → Bool
  | .read _ => false
  | .write slot _ => slot.toNat == n

end Access

namespace SlotExpr

mutual

/-- What the expression does with slots. -/
def accesses : SlotExpr → List Access
  | .int _ | .str _ | .bool _ | .undefined => []
  | .load slot => [.read slot]
  | .store slot type value => value.accesses ++ [.write slot type]
  | .list items => allAccesses items
  | .binary _ left right => left.accesses ++ right.accesses
  | .unary _ operand => operand.accesses
  | .index target position => target.accesses ++ position.accesses
  | .builtin _ args => allAccesses args

/-- What the expressions do with slots, in order. -/
def allAccesses : List SlotExpr → List Access
  | [] => []
  | e :: rest => e.accesses ++ allAccesses rest

end

/-- The variables that are written to were declared without a type. -/
def Untyped (accesses : List Access) : Prop := ∀ a ∈ accesses, a.untyped = true

/-- The slots are among the first `n`. -/
def Within (accesses : List Access) (n : Nat) : Prop := ∀ a ∈ accesses, a.slot.toNat < n

/-- The slot is not written to. -/
def Spares (accesses : List Access) (n : Nat) : Prop := ∀ a ∈ accesses, a.writesTo n = false

instance {accesses : List Access} : Decidable (Untyped accesses) :=
  inferInstanceAs (Decidable (∀ a ∈ accesses, a.untyped = true))

instance {accesses : List Access} {n : Nat} : Decidable (Within accesses n) :=
  inferInstanceAs (Decidable (∀ a ∈ accesses, a.slot.toNat < n))

instance {accesses : List Access} {n : Nat} : Decidable (Spares accesses n) :=
  inferInstanceAs (Decidable (∀ a ∈ accesses, a.writesTo n = false))

section

variable {as bs : List Access} {n : Nat}

theorem untyped_append : Untyped (as ++ bs) ↔ Untyped as ∧ Untyped bs := List.forall_mem_append

theorem within_append : Within (as ++ bs) n ↔ Within as n ∧ Within bs n := List.forall_mem_append

theorem spares_append : Spares (as ++ bs) n ↔ Spares as n ∧ Spares bs n := List.forall_mem_append

end

/-! ### Evaluation -/

variable {V : Type}

mutual

/-- The value of the expression, and what the local variables hold behind it. -/
@[simp] def eval (I : Interpretation V) : SlotExpr → List V → Option (V × List V)
  | .int n, locals => some (I.int n.toInt, locals)
  | .str x, locals => some (I.str x, locals)
  | .bool b, locals => some (I.bool b, locals)
  | .undefined, locals => some (I.undefined, locals)
  | .load slot, locals => do
    let v ← locals[slot.toNat]?
    return (v, locals)
  | .store slot _ value, locals => do
    let (v, locals) ← value.eval I locals
    if slot.toNat < locals.length then some (v, locals.set slot.toNat v) else none
  | .list items, locals => do
    let (vs, locals) ← evalEach I items locals
    return (I.box vs, locals)
  | .binary op left right, locals => do
    let (a, locals) ← left.eval I locals
    let (b, locals) ← right.eval I locals
    return (← I.binary op a b, locals)
  | .unary op operand, locals => do
    let (a, locals) ← operand.eval I locals
    return (← I.unary op a, locals)
  | .index target position, locals => do
    let (a, locals) ← target.eval I locals
    let (i, locals) ← position.eval I locals
    return (← I.index a i, locals)
  | .builtin b args, locals => do
    let (vs, locals) ← evalBackward I args locals
    return (← I.builtin b vs, locals)

/-- The values of expressions, computed from the first to the last. -/
@[simp] def evalEach (I : Interpretation V) : List SlotExpr → List V → Option (List V × List V)
  | [], locals => some ([], locals)
  | e :: rest, locals => do
    let (v, locals) ← e.eval I locals
    let (vs, locals) ← evalEach I rest locals
    return (v :: vs, locals)

/-- The values of expressions, computed from the last to the first. -/
@[simp] def evalBackward (I : Interpretation V) : List SlotExpr → List V → Option (List V × List V)
  | [], locals => some ([], locals)
  | e :: rest, locals => do
    let (vs, locals) ← evalBackward I rest locals
    let (v, locals) ← e.eval I locals
    return (v :: vs, locals)

end

end SlotExpr

/-- The primitives always have a result. -/
structure Interpretation.Total {V : Type} (I : Interpretation V) : Prop where
  binary : ∀ op a b, ∃ v, I.binary op a b = some v
  unary : ∀ op a, ∃ v, I.unary op a = some v
  index : ∀ a i, ∃ v, I.index a i = some v
  builtin : ∀ b vs, ∃ v, I.builtin b vs = some v

namespace SlotExpr

variable {V : Type} {I : Interpretation V}

/-- There are as many local variables as before, and a slot that is not written to holds what it did. -/
def Kept (accesses : List Access) (locals locals' : List V) : Prop :=
  locals'.length = locals.length ∧ ∀ n, Spares accesses n → locals'[n]? = locals[n]?

theorem Kept.refl {as : List Access} {locals : List V} : Kept as locals locals := ⟨rfl, fun _ _ => rfl⟩

/-- What two steps change, one after the other. -/
theorem Kept.trans {as bs : List Access} {l₁ l₂ l₃ : List V} (h₁ : Kept as l₁ l₂) (h₂ : Kept bs l₂ l₃) :
    Kept (as ++ bs) l₁ l₃ := by
  refine ⟨h₂.1.trans h₁.1, fun n hn => ?_⟩
  obtain ⟨has, hbs⟩ := spares_append.mp hn
  rw [h₂.2 n hbs, h₁.2 n has]

/-- What two steps change, the later one named first. -/
theorem Kept.swap {as bs : List Access} {l₁ l₂ l₃ : List V} (h₁ : Kept bs l₁ l₂) (h₂ : Kept as l₂ l₃) :
    Kept (as ++ bs) l₁ l₃ := by
  refine ⟨h₂.1.trans h₁.1, fun n hn => ?_⟩
  obtain ⟨has, hbs⟩ := spares_append.mp hn
  rw [h₂.2 n has, h₁.2 n hbs]

/-- A store changes one slot. -/
theorem Kept.set {slot : Slot} {type : ValueType} {v : V} {locals : List V} :
    Kept [.write slot type] locals (locals.set slot.toNat v) := by
  refine ⟨List.length_set, fun n hn => ?_⟩
  have hne : (slot.toNat == n) = false := hn _ List.mem_cons_self
  exact List.getElem?_set_ne (beq_eq_false_iff_ne.mp hne)

mutual

/-- **A slot that is not written to holds what it did.** -/
theorem eval_spares : ∀ {e : SlotExpr} {locals locals' : List V} {v : V},
    e.eval I locals = some (v, locals') → Kept e.accesses locals locals'
  | .int _, _, _, _, h | .str _, _, _, _, h | .bool _, _, _, _, h | .undefined, _, _, _, h => by
      cases h
      exact .refl
  | .load slot, _, _, _, h => by
      simp only [eval, Option.bind_eq_bind, Option.bind_eq_some_iff] at h
      obtain ⟨w, -, h⟩ := h
      cases h
      exact .refl
  | .store slot type value, _, _, _, h => by
      simp only [eval, Option.bind_eq_bind, Option.bind_eq_some_iff] at h
      obtain ⟨⟨w, l⟩, hw, h⟩ := h
      split at h
      · cases h
        exact (eval_spares hw).trans .set
      · cases h
  | .list items, _, _, _, h => by
      simp only [eval, Option.bind_eq_bind, Option.bind_eq_some_iff] at h
      obtain ⟨⟨ws, l⟩, hws, h⟩ := h
      cases h
      exact evalEach_spares hws
  | .binary op left right, _, _, _, h => by
      simp only [eval, Option.bind_eq_bind, Option.bind_eq_some_iff] at h
      obtain ⟨⟨a, l₁⟩, ha, ⟨b, l₂⟩, hb, w, -, h⟩ := h
      cases h
      exact (eval_spares ha).trans (eval_spares hb)
  | .unary op operand, _, _, _, h => by
      simp only [eval, Option.bind_eq_bind, Option.bind_eq_some_iff] at h
      obtain ⟨⟨a, l₁⟩, ha, w, -, h⟩ := h
      cases h
      have hkept : Kept operand.accesses _ l₁ := eval_spares ha
      exact hkept
  | .index target position, _, _, _, h => by
      simp only [eval, Option.bind_eq_bind, Option.bind_eq_some_iff] at h
      obtain ⟨⟨a, l₁⟩, ha, ⟨i, l₂⟩, hi, w, -, h⟩ := h
      cases h
      exact (eval_spares ha).trans (eval_spares hi)
  | .builtin b args, _, _, _, h => by
      simp only [eval, Option.bind_eq_bind, Option.bind_eq_some_iff] at h
      obtain ⟨⟨ws, l⟩, hws, w, -, h⟩ := h
      cases h
      exact evalBackward_spares hws

/-- Expressions in order change the slots that they write to only. -/
theorem evalEach_spares : ∀ {es : List SlotExpr} {locals locals' vs : List V},
    evalEach I es locals = some (vs, locals') → Kept (allAccesses es) locals locals'
  | [], _, _, _, h => by
      cases h
      exact .refl
  | e :: es, _, _, _, h => by
      simp only [evalEach, Option.bind_eq_bind, Option.bind_eq_some_iff] at h
      obtain ⟨⟨w, l⟩, hw, ⟨ws, l'⟩, hws, h⟩ := h
      cases h
      exact (eval_spares hw).trans (evalEach_spares hws)

theorem evalBackward_spares : ∀ {es : List SlotExpr} {locals locals' vs : List V},
    evalBackward I es locals = some (vs, locals') → Kept (allAccesses es) locals locals'
  | [], _, _, _, h => by
      cases h
      exact .refl
  | e :: es, _, _, _, h => by
      simp only [evalBackward, Option.bind_eq_bind, Option.bind_eq_some_iff] at h
      obtain ⟨⟨ws, l⟩, hws, ⟨w, l'⟩, hw, h⟩ := h
      cases h
      exact (evalBackward_spares hws).swap (eval_spares hw)

end

mutual

/-- **An expression has a value** if the primitives always have a result and its slots are those of local
variables. -/
theorem eval_total (hI : I.Total) : ∀ {e : SlotExpr} {locals : List V}, Within e.accesses locals.length →
    ∃ v locals', e.eval I locals = some (v, locals')
  | .int _, _, _ | .str _, _, _ | .bool _, _, _ | .undefined, _, _ => ⟨_, _, rfl⟩
  | .load slot, locals, h => by
      have hlt : slot.toNat < locals.length := h _ List.mem_cons_self
      exact ⟨locals[slot.toNat], locals, by simp [eval, List.getElem?_eq_getElem hlt]⟩
  | .store slot type value, locals, h => by
      obtain ⟨hvalue, hslot⟩ := within_append.mp h
      obtain ⟨v, l, hv⟩ := eval_total hI hvalue
      have hlt : slot.toNat < l.length := by
        rw [(eval_spares hv).1]
        exact hslot _ List.mem_cons_self
      exact ⟨v, l.set slot.toNat v, by simp [eval, hv, hlt]⟩
  | .list items, locals, h => by
      have hitems : Within (allAccesses items) locals.length := h
      obtain ⟨vs, l, hvs⟩ := evalEach_total hI hitems
      exact ⟨I.box vs, l, by simp [eval, hvs]⟩
  | .binary op left right, locals, h => by
      obtain ⟨hleft, hright⟩ := within_append.mp h
      obtain ⟨a, l₁, ha⟩ := eval_total hI hleft
      rw [← (eval_spares ha).1] at hright
      obtain ⟨b, l₂, hb⟩ := eval_total hI hright
      obtain ⟨v, hv⟩ := hI.binary op a b
      exact ⟨v, l₂, by simp [eval, ha, hb, hv]⟩
  | .unary op operand, locals, h => by
      have hoperand : Within operand.accesses locals.length := h
      obtain ⟨a, l₁, ha⟩ := eval_total hI hoperand
      obtain ⟨v, hv⟩ := hI.unary op a
      exact ⟨v, l₁, by simp [eval, ha, hv]⟩
  | .index target position, locals, h => by
      obtain ⟨htarget, hposition⟩ := within_append.mp h
      obtain ⟨a, l₁, ha⟩ := eval_total hI htarget
      rw [← (eval_spares ha).1] at hposition
      obtain ⟨i, l₂, hi⟩ := eval_total hI hposition
      obtain ⟨v, hv⟩ := hI.index a i
      exact ⟨v, l₂, by simp [eval, ha, hi, hv]⟩
  | .builtin b args, locals, h => by
      have hargs : Within (allAccesses args) locals.length := h
      obtain ⟨vs, l, hvs⟩ := evalBackward_total hI hargs
      obtain ⟨v, hv⟩ := hI.builtin b vs
      exact ⟨v, l, by simp [eval, hvs, hv]⟩

/-- Expressions in order have values if their slots are there. -/
theorem evalEach_total (hI : I.Total) : ∀ {es : List SlotExpr} {locals : List V},
    Within (allAccesses es) locals.length → ∃ vs locals', evalEach I es locals = some (vs, locals')
  | [], locals, _ => ⟨[], locals, rfl⟩
  | e :: es, locals, h => by
      obtain ⟨he, hes⟩ := within_append.mp h
      obtain ⟨v, l₁, hv⟩ := eval_total hI he
      rw [← (eval_spares hv).1] at hes
      obtain ⟨vs, l₂, hvs⟩ := evalEach_total hI hes
      exact ⟨v :: vs, l₂, by simp [evalEach, hv, hvs]⟩

theorem evalBackward_total (hI : I.Total) : ∀ {es : List SlotExpr} {locals : List V},
    Within (allAccesses es) locals.length → ∃ vs locals', evalBackward I es locals = some (vs, locals')
  | [], locals, _ => ⟨[], locals, rfl⟩
  | e :: es, locals, h => by
      obtain ⟨he, hes⟩ := within_append.mp h
      obtain ⟨vs, l₁, hvs⟩ := evalBackward_total hI hes
      rw [← (evalBackward_spares hvs).1] at he
      obtain ⟨v, l₂, hv⟩ := eval_total hI he
      exact ⟨v :: vs, l₂, by simp [evalBackward, hv, hvs]⟩

end

/-- There are as many values as expressions. -/
theorem evalEach_length {es : List SlotExpr} {locals locals' vs : List V}
    (h : evalEach I es locals = some (vs, locals')) : vs.length = es.length := by
  induction es generalizing locals vs with
  | nil =>
      cases h
      rfl
  | cons e es ih =>
      simp only [evalEach, Option.bind_eq_bind, Option.bind_eq_some_iff] at h
      obtain ⟨⟨w, l⟩, -, ⟨ws, l'⟩, hws, h⟩ := h
      cases h
      simp [ih hws]

theorem evalBackward_length {es : List SlotExpr} {locals locals' vs : List V}
    (h : evalBackward I es locals = some (vs, locals')) : vs.length = es.length := by
  induction es generalizing locals' vs with
  | nil =>
      cases h
      rfl
  | cons e es ih =>
      simp only [evalBackward, Option.bind_eq_bind, Option.bind_eq_some_iff] at h
      obtain ⟨⟨ws, l⟩, hws, ⟨w, l'⟩, -, h⟩ := h
      cases h
      simp [ih hws]

end SlotExpr

end StackScript
