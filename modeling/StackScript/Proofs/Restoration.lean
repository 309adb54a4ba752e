import StackScript.Proofs.Compositional
import StackScript.Proofs.Faults.Halting

/-!
# Scopes and packages are restored

Whatever is lowered, in whatever session, and whether it ends in a fault or not: the scopes that were open
are open behind it, with the names they bound, and the current package is the same.  What has scopes of its
own for all its variables changes the meaning of no name.

Three relations between the scopes before and behind a step say what it may do to them, each a little more
than the one before: `Scopes.Below` allows new slots only, `Scopes.Retained` new names in the innermost
scope, and `Scopes.Kept` any change of names there.  Around a scope of its own, what is `Kept` inside is
`Below`.

* `Lower.Restoring R`: however the step ends, the scopes are related by `R` and the package is the same.
* `Entry.lower`: what can be lowered on its own.
* `lower_restores`: it restores the scopes and the package.
-/

namespace StackScript

namespace Scopes

/-! ### New names -/

/-- The scopes are the same but for names that the innermost one did not bind before, and how many slots
the current subroutine has given out. -/
structure Retained (s s' : List Scope) : Prop where
  kept : Kept s s'
  names : ∀ {a a' : Scope}, s.head? = some a → s'.head? = some a' → ∀ {name : String} {b : Binding},
    a.binding? name = some b → a'.binding? name = some b

/-- Each scope has its kind and its names. -/
theorem Below.scope_at {s s' : List Scope} (h : Below s s') {k : Nat} {a : Scope} (ha : s[k]? = some a) :
    ∃ a', s'[k]? = some a' ∧ a'.kind = a.kind ∧ a'.bindings = a.bindings := by
  induction h generalizing k with
  | nil => cases ha
  | scope _ _ ih =>
      cases k with
      | zero => exact ⟨a, ha, rfl, rfl⟩
      | succ k => exact ih ha
  | sub _ _ =>
      cases k with
      | zero =>
          cases ha
          exact ⟨_, rfl, rfl, rfl⟩
      | succ k => exact ⟨a, ha, rfl, rfl⟩

/-- Where names were not bound anew, they mean the same. -/
theorem Below.resolve? {s s' : Scopes} (h : Below s.stack s'.stack) (name : String) :
    s'.resolve? name = s.resolve? name := by
  have hgo : ∀ {r r' : List Scope}, Below r r' → resolve?.go name r' = resolve?.go name r := by
    intro r r' h
    induction h with
    | nil => rfl
    | scope _ _ ih => simp only [resolve?.go, ih]
    | sub _ _ => rfl
  exact hgo h

namespace Retained

/-- A change of the count of slots alone retains all names. -/
theorem of_below {s s' : List Scope} (h : Below s s') : Retained s s' := by
  refine ⟨.of_below h, ?_⟩
  intro a a' ha ha' name b hb
  rw [List.head?_eq_getElem?] at ha ha'
  obtain ⟨a₁, ha₁, -, hbindings⟩ := h.scope_at ha
  obtain rfl := Option.some.inj (ha'.symm.trans ha₁)
  rwa [Scope.binding?, hbindings]

theorem trans {s₁ s₂ s₃ : List Scope} (h₁ : Retained s₁ s₂) (h₂ : Retained s₂ s₃) : Retained s₁ s₃ := by
  refine ⟨h₁.kept.trans h₂.kept, ?_⟩
  intro a a' ha ha' name b hb
  obtain ⟨a₂, ha₂⟩ : ∃ a₂, s₂.head? = some a₂ := by
    have hkinds := congrArg List.length h₁.kept.kinds
    cases s₁ with
    | nil => cases ha
    | cons => cases s₂ <;> simp at hkinds ⊢
  exact h₂.names ha₂ ha' (h₁.names ha ha₂ hb)

/-- A name is bound that was not. -/
theorem bind {a : Scope} {r : List Scope} {name : String} {b : Binding} (h : a.binding? name = none) :
    Retained (a :: r) (a.bind name b :: r) := by
  refine ⟨.bind, ?_⟩
  intro a₁ a₂ ha₁ ha₂ x c hc
  obtain rfl : a = a₁ := by simpa using ha₁
  obtain rfl : a.bind name b = a₂ := by simpa using ha₂
  have hne : name ≠ x := by
    rintro rfl
    rw [h] at hc
    cases hc
  rwa [binding?_bind, if_neg hne]

/-- A declaration leaves alone what the innermost scope binds. -/
theorem declare {name : String} {type : ValueType} {slot : Slot} {s s' : Scopes}
    (h : Scopes.declare name type s = (.ok slot, s')) : Retained s.stack s'.stack := by
  obtain ⟨a, r, hs, ⟨-, -, -, rfl⟩ | ⟨t, hnone, ha, hb⟩⟩ := declare_ok h
  · exact .of_below .refl
  · obtain ⟨a', r', ht, hs'⟩ := bind_ok hb
    have hbump : Below s.stack t.stack := (alloc_ok ha).2.1 ▸ .bump
    -- The slot was taken in between, which binds nothing.
    have hnone' : a'.binding? name = none := by
      obtain ⟨a₁, ha₁, -, hbindings⟩ := hbump.scope_at (k := 0) (a := a) (by rw [hs]; rfl)
      obtain rfl : a' = a₁ := by simpa [ht] using ha₁
      rwa [Scope.binding?, hbindings]
    refine .trans (.of_below hbump) ?_
    rw [ht, hs']
    exact .bind hnone'

/-- Each scope has its kind, and what names it bound. -/
theorem scope_at {s s' : List Scope} (h : Retained s s') {k : Nat} {a : Scope} (ha : s[k]? = some a) :
    ∃ a', s'[k]? = some a' ∧ a'.kind = a.kind ∧
      ∀ name b, a.binding? name = some b → a'.binding? name = some b := by
  have hkinds : s'[k]?.map (·.kind) = s[k]?.map (·.kind) := by
    rw [← List.getElem?_map, h.kept.kinds, List.getElem?_map]
  rw [ha] at hkinds
  obtain ⟨a', ha', hkind⟩ := Option.map_eq_some_iff.mp hkinds
  refine ⟨a', ha', hkind, fun name b hb => ?_⟩
  cases k with
  | zero => exact h.names (by rwa [List.head?_eq_getElem?]) (by rwa [List.head?_eq_getElem?]) hb
  | succ k =>
      obtain ⟨a₁, ha₁, -, hbindings⟩ :=
        (h.kept.drop_succ 0).scope_at (k := k) (a := a) (by simpa [Nat.add_comm] using ha)
      obtain rfl : a' = a₁ := by
        rw [List.getElem?_drop, Nat.zero_add, Nat.add_comm, ha'] at ha₁
        exact Option.some.inj ha₁
      rwa [Scope.binding?, hbindings]

end Retained

/-- **What a declaration does to names.**  The name has the slot and all other names mean what they did.  A
name that the innermost scope bound stays bound as it was; another is bound with the type. -/
theorem declare_resolve? {name : String} {type : ValueType} {slot : Slot} {s s' : Scopes}
    (h : Scopes.declare name type s = (.ok slot, s')) : ∃ a r b, s.stack = a :: r ∧ b.slot = slot ∧
      (∀ x, s'.resolve? x = if name = x then some b else s.resolve? x) ∧
      (a.binding? name = some b ∧ s' = s ∨ a.binding? name = none ∧ b.type = type) := by
  obtain ⟨a, r, hs, ⟨b, hb, rfl, rfl⟩ | ⟨t, hnone, ha, hbind⟩⟩ := declare_ok h
  · refine ⟨a, r, b, hs, rfl, fun x => ?_, .inl ⟨hb, rfl⟩⟩
    split
    · rename_i heq
      rw [← heq, Scopes.resolve?, hs, resolve?.go, hb]
    · rfl
  · obtain ⟨a', r', ht, hs'⟩ := bind_ok hbind
    have hbump : Below s.stack t.stack := (alloc_ok ha).2.1 ▸ .bump
    refine ⟨a, r, ⟨slot, type⟩, hs, rfl, fun x => ?_, .inr ⟨hnone, rfl⟩⟩
    rw [← hbump.resolve? x, Scopes.resolve?, Scopes.resolve?, hs', ht, resolve?.go, binding?_bind]
    by_cases hx : name = x
    · rw [if_pos hx, if_pos hx]
    · rw [if_neg hx, if_neg hx, resolve?.go]
      rfl

/-- A relation between scopes that lets slots be taken, and any number of steps be one. -/
structure Tolerant (R : List Scope → List Scope → Prop) : Prop where
  below : ∀ {s s'}, Below s s' → R s s'
  trans : ∀ {s₁ s₂ s₃}, R s₁ s₂ → R s₂ s₃ → R s₁ s₃

theorem Below.tolerant : Tolerant Below := ⟨id, .trans⟩

theorem Retained.tolerant : Tolerant Retained := ⟨.of_below, .trans⟩

theorem Kept.tolerant : Tolerant Kept := ⟨.of_below, .trans⟩

end Scopes

open Scopes

namespace Lower

/-! ### Steps that restore -/

/-- However the step ends, the scopes are related by `R`, and the current package is the same. -/
def Restoring (R : List Scope → List Scope → Prop) {α : Type} (x : Lower α) : Prop :=
  ∀ σ, (x σ).2.package = σ.package ∧ R σ.scopes.stack (x σ).2.scopes.stack

namespace Restoring

variable {R : List Scope → List Scope → Prop} {α β : Type}

section

variable (hR : Tolerant R)

include hR

/-- A step on the scopes restores them if it changes nothing when it fails. -/
theorem onScopes {x : Step Scopes α} (hclean : Step.Clean x)
    (hx : ∀ {s a s'}, x s = (.ok a, s') → R s.stack s'.stack) : Restoring R (Lower.onScopes x) := by
  refine fun σ => ⟨rfl, ?_⟩
  show R σ.scopes.stack (x σ.scopes).2.stack
  rcases hr : x σ.scopes with ⟨f | a, s⟩
  · obtain rfl := hclean hr
    exact hR.below .refl
  · exact hx hr

/-- What is `Kept` inside a scope is `Below` around it. -/
theorem inScope {kind : ScopeKind} {x : Lower α} (hx : Restoring Kept x) :
    Restoring R (inScope kind x) := by
  intro σ
  obtain ⟨hpackage, hkept⟩ := hx { σ with scopes := σ.scopes.enter kind }
  refine ⟨hpackage, hR.below ?_⟩
  have houter := hkept.drop_succ 0
  simpa [Lower.inScope, Scopes.enter, Scopes.leave] using houter

/-- Steps that restore the scopes, one after the other, do. -/
theorem bind {x : Lower α} {k : α → Lower β} (hx : Restoring R x) (hk : ∀ a, Restoring R (k a)) :
    Restoring R (x >>= k) := by
  intro σ
  show (Step.bind x k σ).2.package = _ ∧ R _ (Step.bind x k σ).2.scopes.stack
  have hσ := hx σ
  unfold Step.bind
  rcases hr : x σ with ⟨f | a, τ⟩
  · rwa [hr] at hσ
  · rw [hr] at hσ
    have hτ := hk a τ
    exact ⟨hτ.1.trans hσ.1, hR.trans hσ.2 hτ.2⟩

/-- A step on something else. -/
theorem aside {x : Lower α}
    (hscopes : ∀ σ, (x σ).2.scopes = σ.scopes := by exact fun _ => rfl)
    (hpackage : ∀ σ, (x σ).2.package = σ.package := by exact fun _ => rfl) : Restoring R x :=
  fun σ => ⟨hpackage σ, hscopes σ ▸ hR.below .refl⟩

/-- Steps that bind nothing restore the scopes but for the slots they take. -/
theorem sequential : Sequential (Restoring R) where
  pure := aside hR
  bind := bind hR
  fail := aside hR
  view _ := aside hR
  report := aside hR
  emit _ := aside hR
  emitConstant := aside hR
  newLabel := aside hR
  newMarkedLabel := aside hR
  mark := aside hR
  recordUse := aside hR
  alloc := onScopes hR Step.Clean.alloc fun h => hR.below ((alloc_ok h).2.1 ▸ .bump)
  inPackage {_ id _} hx σ := ⟨rfl, (hx { σ with package := id }).2⟩
  onPackages := aside hR
  mentionIn := aside hR
  addDependency := aside hR
  addModule := aside hR
  addExport _ := by
    refine bind hR (aside hR) fun found => ?_
    cases found with
    | none => exact aside hR
    | some position => exact bind hR (aside hR) fun _ => aside hR
  checkpoint hx := by
    refine bind hR (aside hR) fun on => ?_
    cases on with
    | false => exact hx
    | true => exact bind hR (aside hR) fun _ => hx

end

/-- Whatever is lowered, the scopes around the innermost one are kept. -/
theorem kept : Compositional (Restoring Kept) where
  toSequential := sequential Kept.tolerant
  declare := onScopes Kept.tolerant Step.Clean.declare kept_declare
  bindArgument := onScopes Kept.tolerant Step.Clean.bindArgument kept_bindArgument
  bindSlot := by
    refine onScopes Kept.tolerant Step.Clean.bind ?_
    intro s _ s' h
    obtain ⟨a, r, hs, hs'⟩ := bind_ok h
    rw [hs, hs']
    exact .bind
  inScope := inScope Kept.tolerant

/-- What keeps the scopes inside of one restores those around it when that one is left. -/
theorem enclosing (hR : Tolerant R) : Enclosing (Restoring R) (Restoring Kept) :=
  ⟨sequential hR, kept, inScope hR⟩

/-- Where no name is bound anew, the names of the innermost scope are retained as well. -/
theorem retained : Declarative (Restoring Retained) where
  toSequential := sequential Retained.tolerant
  declare := onScopes Retained.tolerant Step.Clean.declare .declare

end Restoring

end Lower

/-! ### What can be lowered -/

/-- What can be lowered on its own. -/
inductive Entry where
  | program (p : Program)
  | stmt (s : Stmt)
  /-- Statements in the scope that is open. -/
  | stmts (body : List Stmt)
  /-- Statements in a scope of their own. -/
  | block (body : List Stmt)
  | expr (e : Expr)

namespace Entry

open Lower

/-- The lowering of each. -/
def lower : Entry → Lower Unit
  | .program p => lowerProgram p
  | .stmt s => lowerStmt s
  | .stmts body => lowerStmts body
  | .block body => inScope .block (lowerStmts body)
  | .expr e => lowerExpr e

/-- All its variables are declared in scopes of its own. -/
def enclosed : Entry → Bool
  | .program _ | .block _ => true
  | .stmt s => s.enclosed
  | .stmts _ | .expr _ => false

/-- Whatever is lowered leaves alone what the open scopes bind. -/
theorem retained (e : Entry) : Restoring Retained e.lower := by
  have hscopes : Enclosing (Restoring Retained) (Restoring Kept) := Restoring.enclosing Retained.tolerant
  cases e with
  | program p => exact hscopes.program
  | stmt s => exact hscopes.stmt Restoring.retained s
  | stmts body => exact hscopes.stmts Restoring.retained body
  | block body => exact hscopes.inScope (Restoring.kept.self.stmts Restoring.kept.toDeclarative body)
  | expr e => exact Restoring.retained.expr e

/-- What has scopes of its own binds nothing in those that are open. -/
theorem below {e : Entry} (he : e.enclosed = true) : Restoring Below e.lower := by
  have hscopes : Enclosing (Restoring Below) (Restoring Kept) := Restoring.enclosing Below.tolerant
  cases e with
  | program p => exact hscopes.program
  | stmt s => exact hscopes.enclosed he
  | block body => exact hscopes.inScope (Restoring.kept.self.stmts Restoring.kept.toDeclarative body)
  | stmts | expr => cases he

end Entry

/-- **Scopes and packages are restored.**  Whatever is lowered, in whatever session, and whether it ends in
a fault or not: as many scopes are open behind it as before, each of its kind and with every name it bound
in the same slot and of the same type, and the current package is the same.  What has scopes of its own for
all its variables changes the meaning of no name. -/
theorem lower_restores (e : Entry) (σ : Session) :
    (e.lower σ).2.scopes.depth = σ.scopes.depth ∧ (e.lower σ).2.package = σ.package ∧
      (∀ (k : Nat) (a : Scope), σ.scopes.stack[k]? = some a →
        ∃ a', (e.lower σ).2.scopes.stack[k]? = some a' ∧ a'.kind = a.kind ∧
          ∀ name b, a.binding? name = some b → a'.binding? name = some b) ∧
      (e.enclosed = true → ∀ name, (e.lower σ).2.scopes.resolve? name = σ.scopes.resolve? name) := by
  obtain ⟨hpackage, hretained⟩ := e.retained σ
  refine ⟨?_, hpackage, fun k a ha => hretained.scope_at ha, fun he name => ?_⟩
  · simpa [Scopes.depth] using congrArg List.length hretained.kept.kinds
  · obtain ⟨-, hbelow⟩ := Entry.below he σ
    exact hbelow.resolve? name

/-- A session in a subroutine that has given out all its slots. -/
def crowded : Session :=
  { Session.start "main" {} with
    scopes := ⟨[Scope.bind { kind := .subroutine .int, nextSlot := UInt16.size } "$x" ⟨0, .int⟩]⟩ }

theorem lower_restores_crowded :
    let r := (Entry.stmt (.package .module "P" [.block [.expr (.declare "$x" .str {})]])).lower crowded
    r.1 = .error .tooManyLocals ∧ r.2.scopes.depth = 1 ∧ r.2.package = PackageTree.root ∧
      r.2.scopes.resolve? "$x" = some ⟨0, .int⟩ := by
  obtain ⟨hdepth, hpackage, -, hresolve⟩ :=
    lower_restores (.stmt (.package .module "P" [.block [.expr (.declare "$x" .str {})]])) crowded
  refine ⟨rfl, hdepth, hpackage, (hresolve rfl "$x").trans ?_⟩
  simp [crowded, Scopes.resolve?, Scopes.resolve?.go, binding?_bind]

end StackScript
