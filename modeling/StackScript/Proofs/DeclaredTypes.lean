import StackScript.Proofs.TypedDeclarations

/-!
# The types of declared variables

A declaration with a type holds what it stores to that type.  The type is recorded with the variable if the
declaration binds it; a name that the innermost scope has bound before keeps its slot, and the type it was
bound with.  So the variable is of the type declared last only if it was declared with that type at first:
after `my Int $x; my Str $x = "a"` a string is taken for an integer, and nothing converts it where an integer
is asked for.

* `Runs.retained`: lowering a piece leaves alone what the open scopes bind.
* `Session.Later`: the session is later in the same scope.
* `Session.Later.resolve?`: what a name means there.
* `declared_type_iff`: the type of a declared variable at any later place of its scope.
* `redeclared_keeps_type`: a variable that is not of the type it is declared with.
-/

namespace StackScript

open Scopes Lower

/-! ### Moves that retain names -/

theorem Scopes.Retained.drop {s s' : List Scope} (h : Retained s s') (k : Nat) :
    Retained (s.drop k) (s'.drop k) := by
  cases k with
  | zero => exact h
  | succ k => exact .of_below (h.kept.drop_succ k)

/-- A move in the scope that is open leaves alone what it binds. -/
theorem Move.Does.retained_here {m : Move} {σ σ' : Session} (h : m.Does σ σ') (henter : ∀ k, m ≠ .enter k)
    (hleave : m ≠ .leave) (hm : m.rebinds = false) : Retained σ.scopes.stack σ'.scopes.stack := by
  cases m with
  | enter k => exact absurd rfl (henter k)
  | leave => exact absurd rfl hleave
  | bind | argument | params => cases hm
  | declare name type slot =>
      obtain ⟨s, hs, rfl⟩ := acts_declare.mp h
      exact .declare hs
  | alloc slot =>
      obtain ⟨s, hs, rfl⟩ := acts_alloc.mp h
      exact .of_below ((alloc_ok hs).2.1 ▸ .bump)
  | _ =>
      rw [h.spares.scopes rfl]
      exact .of_below .refl

/-- A move that stays within leaves alone what the scopes around bind. -/
theorem Move.Does.retained {m : Move} {σ σ' : Session} {k k' : Nat} {s : List Scope} (h : m.Does σ σ')
    (hk : m.within k = some k') (hs : Retained s (σ.scopes.stack.drop k)) :
    Retained s (σ'.scopes.stack.drop k') := by
  cases m with
  | enter kind =>
      obtain rfl := Option.some.inj hk
      obtain rfl := h
      exact hs
  | leave =>
      obtain rfl := h
      cases k with
      | zero => cases hk
      | succ k =>
          obtain rfl := Option.some.inj hk
          simpa [Scopes.leave] using hs
  | bind | argument | params =>
      cases k with
      | zero => cases hk
      | succ k =>
          -- The scope that it changes is one of the new ones.
          obtain rfl := Option.some.inj hk
          exact hs.trans (.of_below ((h.kept (by simp) (by simp)).drop_succ k))
  | _ =>
      obtain rfl := Option.some.inj hk
      exact hs.trans ((h.retained_here (by simp) (by simp) rfl).drop k)

/-- **A piece leaves alone what the open scopes bind.** -/
theorem Runs.retained {Q : List Move → Prop} {p : Piece} {b : Bool} {σ σ' : Session}
    (h : Runs Q p b σ σ') : Retained σ.scopes.stack σ'.scopes.stack := by
  refine h.ind (P := fun _ _ σ σ' => Retained σ.scopes.stack σ'.scopes.stack) ?_
  clear h
  intro p b ms σ σ' hu _ ha
  refine ha.interpret (R := fun k τ => Retained σ.scopes.stack (τ.scopes.stack.drop k))
    (fun hm _ hk => hm.retained hk) ?_ (hu.within (k := 0)) (.of_below .refl)
  intro q c _ k k' τ τ' hq _ hk hs
  obtain rfl := Option.some.inj hk
  exact hs.trans (hq.2.drop k)

/-! ### Later in the same scope -/

/-- Lowering has come from `σ` to this session without closing the innermost scope of `σ`, in which this many
others have been opened since. -/
inductive Session.Later (σ : Session) : Nat → Session → Prop where
  | here : Later σ 0 σ
  | move {m : Move} {k k' : Nat} {τ τ' : Session} : Later σ k τ → m.within k = some k' → m.Does τ τ' →
      Later σ k' τ'
  | piece {p : Piece} {b : Bool} {k : Nat} {τ τ' : Session} : Later σ k τ → Lowers p b τ τ' →
      Later σ k τ'

namespace Scopes

/-- The innermost scopes are of the same subroutine as those around, and do not bind the name. -/
def Transparent (k : Nat) (name : String) (s : Scopes) : Prop :=
  ∀ a ∈ s.stack.take k, a.isSubroutine = false ∧ a.binding? name = none

theorem Transparent.resolve? {k : Nat} {name : String} {s : Scopes} (h : s.Transparent k name) :
    s.resolve? name = (⟨s.stack.drop k⟩ : Scopes).resolve? name := by
  have hgo : ∀ {inner outer : List Scope},
      (∀ a ∈ inner, a.isSubroutine = false ∧ a.binding? name = none) →
      resolve?.go name (inner ++ outer) = resolve?.go name outer := by
    intro inner outer hinner
    induction inner with
    | nil => rfl
    | cons a inner ih =>
        obtain ⟨hsub, hnone⟩ := hinner a List.mem_cons_self
        rw [List.cons_append, resolve?.go, hnone, if_neg (by simp [hsub])]
        exact ih fun a ha => hinner a (List.mem_cons_of_mem _ ha)
  have hwhole : resolve?.go name (s.stack.take k ++ s.stack.drop k) = resolve?.go name (s.stack.drop k) :=
    hgo h
  rwa [List.take_append_drop] at hwhole

end Scopes

namespace Session

/-- What the innermost scope binds. -/
def here? (σ : Session) (name : String) : Option Binding := σ.scopes.stack.head?.bind (·.binding? name)

theorem resolve?_of_here {σ : Session} {name : String} {b : Binding} (h : σ.here? name = some b) :
    σ.scopes.resolve? name = some b := by
  obtain ⟨a, ha, hb⟩ := Option.bind_eq_some_iff.mp h
  obtain ⟨r, hr⟩ := List.head?_eq_some_iff.mp ha
  rw [Scopes.resolve?, hr, resolve?.go, hb]

namespace Later

theorem retained {σ τ : Session} {k : Nat} (h : σ.Later k τ) :
    Retained σ.scopes.stack (τ.scopes.stack.drop k) := by
  induction h with
  | here => exact .of_below .refl
  | move _ hk hm ih => exact hm.retained hk ih
  | piece _ hp ih => exact ih.trans (hp.runs.retained.drop _)

/-- **A name of the scope means the same later**, where no scope between binds it. -/
theorem resolve? {σ τ : Session} {k : Nat} {name : String} {b : Binding} (h : σ.Later k τ)
    (hk : τ.scopes.Transparent k name) (hb : σ.here? name = some b) : τ.scopes.resolve? name = some b := by
  obtain ⟨a, ha, hb⟩ := Option.bind_eq_some_iff.mp hb
  rw [List.head?_eq_getElem?] at ha
  obtain ⟨a', ha', -, hnames⟩ := h.retained.scope_at ha
  rw [← List.head?_eq_getElem?] at ha'
  obtain ⟨r, hr⟩ := List.head?_eq_some_iff.mp ha'
  rw [hk.resolve?, Scopes.resolve?, hr, resolve?.go, hnames _ _ hb]

end Later

/-- Behind a declaration the innermost scope binds the name. -/
theorem here?_declare {σ τ : Session} {name : String} {type : ValueType} {slot : Slot}
    (h : Lower.declare name type σ = (.ok slot, τ)) : ∃ b, τ.here? name = some b ∧ b.slot = slot := by
  obtain ⟨s, hs, rfl⟩ := Move.onScopes_eq_ok.mp h
  obtain ⟨a, r, hstack, ⟨b, hb, rfl, rfl⟩ | ⟨t, -, -, hbind⟩⟩ := declare_ok hs
  · exact ⟨b, by simp [here?, hstack, hb], rfl⟩
  · obtain ⟨a', r', -, hs'⟩ := bind_ok hbind
    exact ⟨⟨slot, type⟩, by simp [here?, hs', binding?_bind], rfl⟩

end Session

/-! ### Declarations -/

namespace Expr

/-- The variable that the expression declares, and the type it declares it with. -/
def declares? : Expr → Option (String × ValueType)
  | .declare name type _ | .assign (.declare name type _) _ _ => some (name, type)
  | _ => none

/-- The session in which the variable is declared: that behind the value, if there is one. -/
def declaredIn (σ : Session) : Expr → Session
  | .assign _ value _ => (lowerExpr value σ).2
  | _ => σ

end Expr

/-- The session behind the declaration of a variable of this type in this slot: undef has been stored there,
or the value, once it was held to the type. -/
def Session.initialised (σ : Session) (slot : Slot) (type : ValueType) : Expr → Session
  | .assign _ value _ => σ.stored slot (σ.typeOf value) type value.span
  | _ => { σ with draft := ((σ.draft.emit (.bare .loadUndefined)).emit (.bare .dup)).emit (.store slot) }

theorem Session.initialised_scopes {σ : Session} {slot : Slot} {type : ValueType} {e : Expr} :
    (σ.initialised slot type e).scopes = σ.scopes := by
  unfold initialised stored
  split
  · split <;> rfl
  · rfl

/-- A declaration takes a slot and stores to it. -/
theorem lowerExpr_declares {σ σ' : Session} {e : Expr} {name : String} {type : ValueType}
    (he : e.declares? = some (name, type)) (htype : type.isUnknown = false)
    (h : lowerExpr e σ = (.ok (), σ')) :
    ∃ slot τ, Lower.declare name type (e.declaredIn σ) = (.ok slot, τ) ∧ σ' = τ.initialised slot type e := by
  unfold Expr.declares? at he
  split at he
  · cases he
    rw [lowerExpr] at h
    obtain ⟨slot, τ, hdeclare, h⟩ := Step.bind_eq_ok.mp h
    exact ⟨slot, τ, hdeclare, (Prod.mk.inj h).2.symm⟩
  · cases he
    rw [lowerExpr] at h
    obtain ⟨_, σ₁, hvalue, h⟩ := Step.bind_eq_ok.mp h
    rw [storeInto] at h
    obtain ⟨found, σ₂, htarget, h⟩ := Step.bind_eq_ok.mp h
    rw [assignmentTarget?] at htarget
    obtain ⟨slot, τ, hdeclare, hfound⟩ := Step.bind_eq_ok.mp htarget
    obtain ⟨rfl, rfl⟩ := Step.pure_eq_ok.mp hfound
    refine ⟨slot, τ, ?_, checked_store htype h⟩
    rw [Expr.declaredIn, hvalue]
    exact hdeclare
  · cases he

/-- **The type of a declared variable.**  Let the variable be declared with a type in the session `σ₁`.

* What is stored to its slot has been held to that type.
* At any later place of the scope, inner scopes that bind the name apart, the name means the variable in
  this slot.
* There the variable is of the type that it is declared with, if the innermost scope of `σ₁` does not bind
  the name yet.  If it does, the variable is of the type that it has in `σ₁`.
* So it is of the type that it is declared with exactly if it is new or was of that type before. -/
theorem declared_type_iff {σ σ' : Session} {e : Expr} {name : String} {type : ValueType} {s : Span}
    (he : e.declares? = some (name, type)) (htype : type.isUnknown = false)
    (h : lowerExpr e σ = (.ok (), σ')) :
    let σ₁ := e.declaredIn σ
    ∃ b σ₂, Lower.declare name type σ₁ = (.ok b.slot, σ₂) ∧ σ' = σ₂.initialised b.slot type e ∧
      ∀ k τ, σ'.Later k τ → τ.scopes.Transparent k name →
        τ.scopes.resolve? name = some b ∧
        τ.typeOf (.var name s) = (if σ₁.bindsHere name then σ₁.typeOf (.var name s) else type) ∧
        (τ.typeOf (.var name s) = type ↔ σ₁.bindsHere name = false ∨ σ₁.typeOf (.var name s) = type) := by
  intro σ₁
  obtain ⟨slot, σ₂, hdeclare, rfl⟩ := lowerExpr_declares he htype h
  obtain ⟨b, hb, rfl⟩ := Session.here?_declare hdeclare
  refine ⟨b, σ₂, hdeclare, rfl, fun k τ hlater hk => ?_⟩
  have hresolve : τ.scopes.resolve? name = some b :=
    hlater.resolve? hk (by rwa [Session.here?, Session.initialised_scopes])
  have hvalue : τ.typeOf (.var name s) = if σ₁.bindsHere name then σ₁.typeOf (.var name s) else type := by
    have hbehind : σ₂.variableType name =
        if name = name ∧ σ₁.bindsHere name = false then type else σ₁.variableType name :=
      Session.variableType_declare htype hdeclare name
    have hsame : τ.variableType name = σ₂.variableType name := by
      rw [Session.variableType, Session.variableType, hresolve, Session.resolve?_of_here hb]
    rw [Session.typeOf, hsame, hbehind]
    cases σ₁.bindsHere name <;> simp [Session.typeOf]
  refine ⟨hresolve, hvalue, ?_⟩
  rw [hvalue]
  cases σ₁.bindsHere name <;> simp

/-- A declaration in a block around which another `$x` is a string.  The variable is declared once more behind
it, as a string, and is still an integer in a block that follows. -/
theorem declared_type_iff_nested :
    ∃ σ₁ σ₂, lowerExpr (.assign (.declare "$x" .int {}) (.integer 1 {}) {}) stringAround = (.ok (), σ₁) ∧
      lowerExpr (.assign (.declare "$x" .str {}) (.str "a" {}) {}) σ₁ = (.ok (), σ₂) ∧
      ({ σ₂ with scopes := σ₂.scopes.enter .block } : Session).typeOf (.var "$x" {}) = .int := by
  have h₁ := Step.eq_ok_of_isOk (x := lowerExpr (.assign (.declare "$x" .int {}) (.integer 1 {}) {}))
    (s := stringAround) (by decide +kernel)
  have h₂ := Step.eq_ok_of_isOk (x := lowerExpr (.assign (.declare "$x" .str {}) (.str "a" {}) {}))
    (s := (lowerExpr (.assign (.declare "$x" .int {}) (.integer 1 {}) {}) stringAround).2)
    (by decide +kernel)
  obtain ⟨_, _, -, -, htypes⟩ := declared_type_iff (s := {}) rfl rfl h₁
  have hlater := Session.Later.here.piece (Lowers.expr_iff.mpr ⟨h₂, rfl⟩)
  refine ⟨_, _, h₁, h₂, (htypes _ _ (hlater.move (m := .enter .block) rfl rfl) ?_).2.2.mpr ?_⟩
  · intro a ha
    obtain rfl : a = { kind := .block } := by simpa [Scopes.enter] using ha
    exact ⟨rfl, by simp [Scope.binding?]⟩
  · exact .inl (by decide +kernel)

/-- A session in which the innermost scope binds `$x` to an integer. -/
def integerHere : Session :=
  { Session.start "main" {} with
    scopes := ⟨[Scope.bind { kind := .subroutine .unknown, nextSlot := 1 } "$x" ⟨0, .int⟩]⟩ }

/-- **A variable that is not of the type it is declared with.**  Behind `my Str $x = "a"` the variable is
taken for an integer, as it was before, so `my Int $y = $x` stores the string without the conversion that
strings need. -/
theorem redeclared_keeps_type :
    let σ' := (lowerExpr (.assign (.declare "$x" .str {}) (.str "a" {}) {}) integerHere).2
    σ'.report.count = 0 ∧ σ'.typeOf (.var "$x" {}) = .int ∧ ValueType.str.fit .int = .castable ∧
      (lowerExpr (.assign (.declare "$y" .int {}) (.var "$x" {}) {}) σ').2.draft.chunk.instructions =
        #[.loadConst 0, .bare .dup, .store 0, .load 0, .bare .dup, .store 1] := by
  decide +kernel

end StackScript
