import StackScript.Proofs.Restoration

/-!
# Declarations with a type and a value

`my T $n = value` computes the value, declares the variable, and then holds the value to the type.  The
value reads the variables that are in scope before the declaration.  Its static type is deduced behind the
declaration, where `$n` is the new variable: where the type of the value depends on that of `$n`, it is not
the type of what was read.  So `my T $n = $n` is never checked if it shadows another `$n`.

* `Expr.typedBy`: the static type of the expression depends on that of the variable.
* `Session.stored`: the outcome of the check.
* `typed_declaration_checks`: which type is checked, and where it is that of what was read.
* `shadowing_unchecked`: a value that is stored without the conversion it needs.
-/

namespace StackScript

open Scopes Lower

/-! ### What static types depend on -/

/-- The type of the result is made from those of the operands. -/
def BinaryOp.isArithmetic : BinaryOp → Bool
  | .add | .subtract | .multiply | .modulo => true
  | _ => false

/-- The static type of the expression depends on that of the variable. -/
def Expr.typedBy (x : String) : Expr → Bool
  | .var y _ => x == y
  | .binary op left right _ => op.isArithmetic && (left.typedBy x || right.typedBy x)
  | .unary .minus operand _ => operand.typedBy x
  | .assign target value _ => target.typedBy x || value.typedBy x
  | .index target _ _ => target.typedBy x
  | _ => false

namespace Session

/-- **The static type of an expression** is made from those of the variables that it depends on and from
what calls yield. -/
theorem typeOf_of_variables {σ τ : Session} (hp : τ.packages = σ.packages) (hk : τ.package = σ.package) :
    ∀ {e : Expr}, (∀ x, e.typedBy x = true → τ.variableType x = σ.variableType x) →
      τ.typeOf e = σ.typeOf e
  | .integer _ _, _ | .float _ _, _ | .str _ _, _ | .bool _ _, _ | .undefined _, _ | .declare _ _ _, _
  | .typed _ _ _, _ | .list _ _, _ | .unary .not _ _, _ => rfl
  | .var x _, h => h x (by simp [Expr.typedBy])
  | .call _ _ _, _ => by simp only [typeOf, callType, hp, hk]
  | .binary op left right _, h => by
      cases harith : op.isArithmetic with
      | false =>
          -- A comparison, a concatenation or a quotient has one type whatever it is made from.
          cases op <;> cases harith <;> rfl
      | true =>
          have hleft : τ.typeOf left = σ.typeOf left :=
            typeOf_of_variables hp hk fun x hx => h x (by simp [Expr.typedBy, harith, hx])
          have hright : τ.typeOf right = σ.typeOf right :=
            typeOf_of_variables hp hk fun x hx => h x (by simp [Expr.typedBy, harith, hx])
          simp only [typeOf, hleft, hright]
  | .unary .minus operand _, h => by
      have hoperand : τ.typeOf operand = σ.typeOf operand := typeOf_of_variables hp hk h
      simp only [typeOf, hoperand]
  | .assign target value _, h => by
      have htarget : τ.typeOf target = σ.typeOf target :=
        typeOf_of_variables hp hk fun x hx => h x (by simp [Expr.typedBy, hx])
      have hvalue : τ.typeOf value = σ.typeOf value :=
        typeOf_of_variables hp hk fun x hx => h x (by simp [Expr.typedBy, hx])
      simp only [typeOf, htarget, hvalue]
  | .index target _ _, h => by
      have htarget : τ.typeOf target = σ.typeOf target := typeOf_of_variables hp hk h
      simp only [typeOf, htarget]

/-- The innermost scope binds the name. -/
def bindsHere (σ : Session) (name : String) : Bool :=
  match σ.scopes.stack with
  | [] => false
  | a :: _ => (a.binding? name).isSome

/-- **A declaration gives the variable its type**, if the innermost scope does not bind the name yet, and
changes no other type. -/
theorem variableType_declare {σ τ : Session} {name : String} {type : ValueType} {slot : Slot}
    (htype : type.isUnknown = false) (h : Lower.declare name type σ = (.ok slot, τ)) (x : String) :
    τ.variableType x = if x = name ∧ σ.bindsHere name = false then type else σ.variableType x := by
  obtain ⟨s, hs, rfl⟩ := Move.onScopes_eq_ok.mp h
  obtain ⟨a, r, b, hstack, -, hresolve, ⟨hb, rfl⟩ | ⟨hb, rfl⟩⟩ := declare_resolve? hs
  · rw [if_neg (by simp [bindsHere, hstack, hb])]
  · by_cases hx : x = name
    · rw [if_pos ⟨hx, by simp [bindsHere, hstack, hb]⟩, variableType, hresolve, if_pos hx.symm]
      simp [htype]
    · rw [if_neg fun hand => hx hand.1, variableType, variableType, hresolve, if_neg (Ne.symm hx)]

/-! ### The check -/

/-- The session behind the check of a value of type `actual` that stands at `span`, and behind its store to
a variable of type `expected`. -/
def stored (σ : Session) (slot : Slot) (actual expected : ValueType) (span : Span) : Session :=
  match actual.fit expected with
  | .identical => { σ with draft := (σ.draft.emit (.bare .dup)).emit (.store slot) }
  | .castable => { σ with
      draft := ((σ.draft.emit (.toCompatible expected)).emit (.bare .dup)).emit (.store slot) }
  | .incompatible => { σ with
      report := σ.report.add (.ofProblem (.mismatch .assignment actual expected) span) }

end Session

/-- What follows the declaration. -/
theorem checked_store {σ σ' : Session} {value : Expr} {type : ValueType} {slot : Slot}
    (htype : type.isUnknown = false)
    (h : (do
      if ← enforce value type .assignment then
        emitOp .dup
        emit (.store slot) : Lower Unit) σ = (.ok (), σ')) :
    σ' = σ.stored slot (σ.typeOf value) type value.span := by
  obtain ⟨fits, τ, henf, h⟩ := Step.bind_eq_ok.mp h
  obtain ⟨cs, hcs, ha⟩ := (enforce_eq_ok (K := Lowers)).mp henf
  cases hcs with
  | free hu =>
      rw [hu] at htype
      cases htype
  | identical hu hf =>
      obtain ⟨_, ⟨rfl, rfl⟩, rfl⟩ := ha
      rw [Session.stored, hf]
      exact (Prod.mk.inj h).2.symm
  | castable hu hf =>
      obtain ⟨_, ⟨rfl, rfl⟩, _, hcast, rfl⟩ := ha
      obtain rfl := Move.acts_emit.mp hcast
      rw [Session.stored, hf]
      exact (Prod.mk.inj h).2.symm
  | incompatible hu hf =>
      obtain ⟨_, ⟨rfl, rfl⟩, _, hreport, rfl⟩ := ha
      obtain rfl := Move.acts_report.mp hreport
      rw [Session.stored, hf]
      exact (Prod.mk.inj h).2.symm

/-- **The check of a declaration with a type and a value.**  Let `σ₁` be the session behind the value, in
whose scopes it was computed, and `σ₂` that behind the declaration of the variable.

* The check is of the type that the value has in `σ₂`.
* There the variable is of the type declared, unless the innermost scope has bound it before; all else is of
  the type it has in `σ₁`.
* So the check is of the type that the value has in `σ₁` if that does not depend on the variable, or if the
  innermost scope has bound the variable before.
* Otherwise, if the value is the variable of that name around the declaration, the check is of the type
  declared with itself, whatever the type of that variable. -/
theorem typed_declaration_checks {σ σ' : Session} {name : String} {type : ValueType} {value : Expr}
    {s s' : Span} (htype : type.isUnknown = false)
    (h : lowerExpr (.assign (.declare name type s) value s') σ = (.ok (), σ')) :
    ∃ σ₁ σ₂ slot, lowerExpr value σ = (.ok (), σ₁) ∧ Lower.declare name type σ₁ = (.ok slot, σ₂) ∧
      σ' = σ₂.stored slot (σ₂.typeOf value) type value.span ∧
      (∀ x, σ₂.variableType x =
        if x = name ∧ σ₁.bindsHere name = false then type else σ₁.variableType x) ∧
      (value.typedBy name = false ∨ σ₁.bindsHere name = true →
        σ' = σ₂.stored slot (σ₁.typeOf value) type value.span) ∧
      ((∃ span, value = .var name span) → σ₁.bindsHere name = false →
        σ' = σ₂.stored slot type type value.span) := by
  rw [lowerExpr] at h
  obtain ⟨_, σ₁, hvalue, h⟩ := Step.bind_eq_ok.mp h
  rw [storeInto] at h
  obtain ⟨found, σ₂, htarget, h⟩ := Step.bind_eq_ok.mp h
  rw [assignmentTarget?] at htarget
  obtain ⟨slot, τ, hdeclare, hfound⟩ := Step.bind_eq_ok.mp htarget
  obtain ⟨rfl, rfl⟩ := Step.pure_eq_ok.mp hfound
  have hstored : σ' = τ.stored slot (τ.typeOf value) type value.span := checked_store htype h
  have hvariables := Session.variableType_declare htype hdeclare
  refine ⟨σ₁, τ, slot, hvalue, hdeclare, hstored, hvariables, fun hapart => ?_, fun hself hnew => ?_⟩
  · have hpackages : τ.packages = σ₁.packages ∧ τ.package = σ₁.package := by
      obtain ⟨scopes, -, rfl⟩ := Move.onScopes_eq_ok.mp hdeclare
      exact ⟨rfl, rfl⟩
    rw [hstored]
    congr 1
    refine Session.typeOf_of_variables hpackages.1 hpackages.2 fun x hx => ?_
    rw [hvariables x, if_neg]
    rintro ⟨rfl, hnew⟩
    rcases hapart with hfree | hold
    · rw [hfree] at hx
      cases hx
    · rw [hold] at hnew
      cases hnew
  · obtain ⟨span, rfl⟩ := hself
    rw [hstored, Session.typeOf, hvariables name, if_pos ⟨rfl, hnew⟩]

/-! ### A value that is not checked -/

/-- A session in a block, around which `$x` is a string. -/
def stringAround : Session :=
  { Session.start "main" {} with
    scopes := ⟨[{ kind := .block },
      Scope.bind { kind := .subroutine .unknown, nextSlot := 1 } "$x" ⟨0, .str⟩]⟩ }

/-- A variable of another name is converted. -/
theorem typed_declaration_checks_copying :
    ∃ (σ₂ : Session) (slot : Slot), (stringAround.typeOf (.var "$x" {})).fit .int = .castable ∧
      lowerExpr (.assign (.declare "$y" .int {}) (.var "$x" {}) {}) stringAround =
        (.ok (), σ₂.stored slot .str .int {}) := by
  cases h : lowerExpr (.assign (.declare "$y" .int {}) (.var "$x" {}) {}) stringAround with
  | mk result σ' =>
      have hok : (lowerExpr (.assign (.declare "$y" .int {}) (.var "$x" {}) {}) stringAround).1.isOk :=
        by decide +kernel
      rw [h] at hok
      cases result with
      | error f => cases hok
      | ok u =>
          obtain ⟨σ₁, σ₂, slot, hvalue, -, -, -, hchecked, -⟩ := typed_declaration_checks rfl h
          refine ⟨σ₂, slot, by decide +kernel, ?_⟩
          have htype : σ₁.typeOf (.var "$x" {}) = .str := by
            have hsame := congrArg (fun r => r.2.typeOf (.var "$x" {})) hvalue
            exact hsame.symm.trans (by decide +kernel)
          rw [hchecked (.inl rfl), htype]
          rfl

/-- **A value that is not checked.**  In the block, `my Int $x = $x` reads a string, which an integer
variable takes after a conversion only.  It is stored without one. -/
theorem shadowing_unchecked :
    (stringAround.typeOf (.var "$x" {})).fit .int = .castable ∧
      (lowerExpr (.assign (.declare "$x" .int {}) (.var "$x" {}) {}) stringAround).2.draft.chunk.instructions
        = #[.load 0, .bare .dup, .store 1] := by
  decide +kernel

end StackScript
