import StackScript.Proofs.Scoping

/-!
# Names and slots

Each variable in scope has a slot of its own.  A slot is given out once, so a name that is bound
gets one that no other name in scope has, and the hidden index of a loop has one that no name has.

* `Scopes.names`: what the names in scope stand for.
* `Scopes.Apart`: the slots of the names in scope are all different.
* `Lowers.apart`: lowering keeps them so.
-/

namespace StackScript

namespace Scopes

/-- What the names bound in the scopes of the current subroutine stand for, innermost scope
first. -/
def names : List Scope → List (String → Option Binding)
  | [] => []
  | a :: r => a.binding? :: if a.isSubroutine then [] else names r

/-- A name of the current subroutine has the slot. -/
def Bound (s : List Scope) (n : Nat) : Prop :=
  ∃ g ∈ names s, ∃ x b, g x = some b ∧ b.slot.toNat = n

/-- The slots of the names in scope are different and have been given out, in the current subroutine
and in those around it. -/
def Apart : List Scope → Prop
  | [] => True
  | a :: r =>
    (∀ {x y b b'}, a.binding? x = some b → a.binding? y = some b' →
      b.slot.toNat = b'.slot.toNat → x = y) ∧
    (∀ {x b}, a.binding? x = some b → b.slot.toNat < taken.go (a :: r) ∧
      (a.isSubroutine = false → ¬ Bound r b.slot.toNat)) ∧
    Apart r

/-- A slot is bound in the innermost scope, or around it in the same subroutine. -/
theorem bound_cons {a : Scope} {r : List Scope} {n : Nat} :
    Bound (a :: r) n ↔ (∃ x b, a.binding? x = some b ∧ b.slot.toNat = n) ∨
      a.isSubroutine = false ∧ Bound r n := by
  unfold Bound
  cases h : a.isSubroutine <;> simp [names, h]

/-- A scope that is opened binds no slot, and a subroutine hides those around it. -/
theorem bound_enter {s : Scopes} {kind : ScopeKind} {n : Nat} :
    Bound (s.enter kind).stack n ↔ kind.isSubroutine = false ∧ Bound s.stack n := by
  rw [enter, bound_cons]
  simp [Scope.binding?, Scope.isSubroutine]

/-- The innermost scope `a'` binds one name more than `a`, so at most the slot of that name is new. -/
theorem bound_of_bind {a a' : Scope} {r : List Scope} {x : String} {b : Binding} {n : Nat}
    (hn : Bound (a' :: r) n) (hsub : a'.isSubroutine = a.isSubroutine)
    (hbind : ∀ y, a'.binding? y = if x = y then some b else a.binding? y) :
    Bound (a :: r) n ∨ n = b.slot.toNat := by
  rcases bound_cons.mp hn with ⟨y, c, hy, rfl⟩ | ⟨hs, hn⟩
  · rw [hbind] at hy
    split at hy
    · cases hy
      exact .inr rfl
    · exact .inl (bound_cons.mpr (.inl ⟨y, c, hy, rfl⟩))
  · exact .inl (bound_cons.mpr (.inr ⟨hsub ▸ hs, hn⟩))

/-- A name stands for what it stands for in the innermost scope that binds it. -/
theorem resolve?_eq {s : Scopes} {x : String} :
    s.resolve? x = (names s.stack).findSome? (· x) := by
  have : ∀ {stack : List Scope}, resolve?.go x stack = (names stack).findSome? (· x) := by
    intro stack
    induction stack with
    | nil => rfl
    | cons a r ih =>
        rw [resolve?.go, names, List.findSome?_cons]
        cases a.binding? x with
        | some b => rfl
        | none => cases ha : a.isSubroutine <;> simp [ih]
  exact this

/-- A name that is found has a slot that is bound. -/
theorem bound_of_resolve {s : Scopes} {x : String} {b : Binding} (h : s.resolve? x = some b) :
    Bound s.stack b.slot.toNat := by
  obtain ⟨g, hg, hx⟩ := List.exists_of_findSome?_eq_some (resolve?_eq ▸ h)
  exact ⟨g, hg, x, b, hx, rfl⟩

/-- Behind the opening of a block, its names come first, and there are none. -/
theorem names_enter {s : Scopes} {kind : ScopeKind} (h : kind.isSubroutine = false) :
    names (s.enter kind).stack = (fun _ => none) :: names s.stack := by
  have : ({ kind } : Scope).isSubroutine = false := h
  simp only [enter, names, this]
  rfl

/-- Names do not depend on the count of slots. -/
theorem Below.names {s s' : List Scope} (h : Below s s') : names s' = names s := by
  induction h with
  | nil => rfl
  | scope ha _ ih => simp [Scopes.names, ha, ih]
  | @sub a n r ha _ =>
      have ha' : { a with nextSlot := n }.isSubroutine = true := ha
      simp only [Scopes.names, ha, ha', if_true]
      rfl

theorem Below.bound {s s' : List Scope} {n : Nat} (h : Below s s') : Bound s' n ↔ Bound s n := by
  rw [Bound, Bound, h.names]

namespace Apart

/-- Slots stay apart when more are given out. -/
theorem below {s s' : List Scope} (h : Apart s) (hb : Below s s') : Apart s' := by
  induction hb with
  | nil => trivial
  | @scope a r r' ha hb ih =>
      obtain ⟨hinj, hslot, hr⟩ := h
      refine ⟨hinj, fun {x b} hx => ?_, ih hr⟩
      obtain ⟨hlt, hfree⟩ := hslot hx
      refine ⟨Nat.lt_of_lt_of_le hlt ?_, fun hs hbound => hfree hs (hb.bound.mp hbound)⟩
      exact (Below.scope ha hb).taken
  | @sub a n r ha hn =>
      obtain ⟨hinj, hslot, hr⟩ := h
      refine ⟨hinj, fun {x b} hx => ?_, hr⟩
      obtain ⟨hlt, hfree⟩ := hslot hx
      exact ⟨Nat.lt_of_lt_of_le hlt (Below.sub ha hn).taken, hfree⟩

/-- A slot that is bound has been given out. -/
theorem bound_lt {s : List Scope} {n : Nat} (h : Apart s) (hn : Bound s n) : n < taken.go s := by
  induction s with
  | nil => obtain ⟨g, hg, -⟩ := hn; cases hg
  | cons a r ih =>
      obtain ⟨-, hslot, hr⟩ := h
      rcases bound_cons.mp hn with ⟨x, b, hx, rfl⟩ | ⟨hs, hn⟩
      · exact (hslot hx).1
      · simpa [taken.go, hs] using ih hr hn

/-- A name bound to a slot that has been given out and that no name has. -/
theorem bind {a a' : Scope} {r : List Scope} {x : String} {b : Binding} (h : Apart (a :: r))
    (hsub : a'.isSubroutine = a.isSubroutine)
    (hbind : ∀ y, a'.binding? y = if x = y then some b else a.binding? y)
    (htaken : taken.go (a :: r) ≤ taken.go (a' :: r))
    (hlt : b.slot.toNat < taken.go (a' :: r)) (hfree : ¬ Bound (a :: r) b.slot.toNat) :
    Apart (a' :: r) := by
  obtain ⟨hinj, hslot, hr⟩ := h
  have hother : ∀ {y b'}, a.binding? y = some b' → b.slot.toNat ≠ b'.slot.toNat := fun hy he =>
    hfree (bound_cons.mpr (.inl ⟨_, _, hy, he.symm⟩))
  refine ⟨fun {y z c c'} hy hz he => ?_, fun {y c} hy => ?_, hr⟩
  · rw [hbind] at hy hz
    split at hy
    · split at hz
      · simp_all
      · cases hy
        exact absurd he (hother hz)
    · split at hz
      · cases hz
        exact absurd he.symm (hother hy)
      · exact hinj hy hz he
  · rw [hbind] at hy
    split at hy
    · cases hy
      refine ⟨hlt, fun hs hbound => hfree (bound_cons.mpr (.inr ⟨hsub ▸ hs, hbound⟩))⟩
    · obtain ⟨hlt', hfree'⟩ := hslot hy
      exact ⟨Nat.lt_of_lt_of_le hlt' htaken, fun hs => hfree' (hsub ▸ hs)⟩

/-- A scope that is opened binds no slot twice. -/
theorem enter {s : Scopes} {kind : ScopeKind} (h : Apart s.stack) :
    Apart (s.enter kind).stack := by
  refine ⟨fun hx => ?_, fun hx => ?_, h⟩ <;> simp [Scope.binding?] at hx

/-- The scopes around have slots apart. -/
theorem leave {s : Scopes} (h : Apart s.stack) : Apart s.leave.stack := by
  rw [Scopes.leave]
  cases hs : s.stack with
  | nil => trivial
  | cons a r =>
      rw [hs] at h
      exact h.2.2

end Apart

/-- Names may have come in that have slots given out since. -/
def Fresh (s s' : List Scope) : Prop := ∀ n, Bound s' n → Bound s n ∨ taken.go s ≤ n

theorem Fresh.refl {s : List Scope} : Fresh s s := fun _ => .inl

theorem Fresh.trans {s₁ s₂ s₃ : List Scope} (h₁ : Fresh s₁ s₂) (h₂ : Fresh s₂ s₃)
    (ht : taken.go s₁ ≤ taken.go s₂) : Fresh s₁ s₃ := by
  intro n hn
  rcases h₂ n hn with hn | hle
  · exact h₁ n hn
  · exact .inr (Nat.le_trans ht hle)

theorem Fresh.below {s s' : List Scope} (h : Below s s') : Fresh s s' := fun _ hn =>
  .inl (h.bound.mp hn)

/-- A name that gets a new slot is fresh. -/
theorem Fresh.bind {a a' : Scope} {r : List Scope} {x : String} {b : Binding}
    (hsub : a'.isSubroutine = a.isSubroutine)
    (hbind : ∀ y, a'.binding? y = if x = y then some b else a.binding? y)
    (hnew : taken.go (a :: r) ≤ b.slot.toNat) : Fresh (a :: r) (a' :: r) := by
  intro n hn
  rcases bound_of_bind hn hsub hbind with hn | rfl
  · exact .inl hn
  · exact .inr hnew

/-- A declaration gives a name that is not bound in the innermost scope a slot that no name has. -/
theorem Apart.declare {s s' : Scopes} {name : String} {type : ValueType} {slot : Slot}
    (h : Apart s.stack) (hd : Scopes.declare name type s = (.ok slot, s')) :
    Apart s'.stack ∧ Fresh s.stack s'.stack := by
  obtain ⟨a, r, hs, ⟨b, -, -, rfl⟩ | ⟨t, -, ha, hb⟩⟩ := declare_ok hd
  · exact ⟨h, .refl⟩
  · obtain ⟨hslot, hstack, htaken⟩ := alloc_ok ha
    obtain ⟨a', r', ht, hs'⟩ := bind_ok hb
    have hbelow : Below s.stack (a' :: r') := by
      rw [← ht, hstack]
      exact .bump
    have htaken' : taken.go (a' :: r') = s.taken + 1 := by
      rw [← ht]
      exact htaken
    have hfree : ¬ Bound (a' :: r') slot.toNat := fun hn => by
      have : slot.toNat < s.taken := h.bound_lt (hbelow.bound.mp hn)
      omega
    have hsame : taken.go (a'.bind name ⟨slot, type⟩ :: r') = taken.go (a' :: r') := rfl
    rw [hs']
    refine ⟨(h.below hbelow).bind rfl (fun y => binding?_bind) (Nat.le_of_eq hsame.symm) ?_ hfree,
      ?_⟩
    · show slot.toNat < _
      omega
    · intro n hn
      rcases bound_of_bind (a := a') hn rfl (fun y => binding?_bind) with hn | rfl
      · exact .inl (hbelow.bound.mp hn)
      · exact .inr (Nat.le_of_eq hslot.symm)

/-- A parameter has a slot of its own. -/
theorem Apart.bindArgument {s s' : Scopes} {name : String} {type : ValueType} {slot : Slot}
    (h : Apart s.stack) (hd : Scopes.bindArgument name type s = (.ok slot, s')) :
    Apart s'.stack ∧ Fresh s.stack s'.stack := by
  obtain ⟨a, r, hs, ha, hslot, hs'⟩ := bindArgument_ok hd
  rw [hs] at h ⊢
  rw [hs']
  have htaken : taken.go (a :: r) = slot.toNat := by simp [taken.go, ha, hslot]
  have htaken' : taken.go ({ a with nextSlot := a.nextSlot + 1 }.bindArgument name ⟨slot, type⟩ ::
      r) = slot.toNat + 1 := by
    have ha' : ({ a with nextSlot := a.nextSlot + 1 }.bindArgument name ⟨slot, type⟩).isSubroutine =
      true := ha
    simp only [taken.go, ha', if_true]
    exact congrArg (· + 1) hslot.symm
  refine ⟨h.bind rfl (fun y => binding?_bindArgument) (by omega) ?_ fun hn => ?_,
    .bind rfl (fun y => binding?_bindArgument) (Nat.le_of_eq htaken)⟩
  · show slot.toNat < _
    omega
  · have : slot.toNat < taken.go (a :: r) := h.bound_lt hn
    omega

end Scopes

open Scopes

/-- Parameters have slots of their own. -/
theorem apart_bindParams {ps : List SubParam} {σ σ' : Session}
    (hl : Lower.bindParams ps σ = (.ok (), σ')) (h : Apart σ.scopes.stack) :
    Apart σ'.scopes.stack ∧ Fresh σ.scopes.stack σ'.scopes.stack := by
  induction ps generalizing σ with
  | nil =>
      obtain ⟨_, rfl⟩ := Step.pure_eq_ok.mp hl
      exact ⟨h, .refl⟩
  | cons p ps ih =>
      obtain ⟨slot, τ, h₁, h₂⟩ := Step.bind_eq_ok.mp hl
      obtain ⟨s, hs, rfl⟩ := Move.onScopes_eq_ok.mp h₁
      obtain ⟨hapart, hfresh⟩ := h.bindArgument hs
      obtain ⟨hapart', hfresh'⟩ := ih h₂ hapart
      exact ⟨hapart', hfresh.trans hfresh' (kept_bindArgument hs).taken⟩

/-- What a move does to the scopes it finds, but for opening and closing scopes and binding a slot
that it is given. -/
theorem Move.Does.apart {m : Move} {σ σ' : Session} (h : m.Does σ σ') (henter : ∀ k, m ≠ .enter k)
    (hleave : m ≠ .leave) (hbind : ∀ x s t, m ≠ .bind x s t) (ha : Apart σ.scopes.stack) :
    Apart σ'.scopes.stack ∧ Fresh σ.scopes.stack σ'.scopes.stack := by
  cases m with
  | enter k => exact absurd rfl (henter k)
  | leave => exact absurd rfl hleave
  | bind x s t => exact absurd rfl (hbind x s t)
  | alloc slot =>
      obtain ⟨s, hs, rfl⟩ := acts_alloc.mp h
      have hbelow : Below σ.scopes.stack s.stack := by
        rw [(alloc_ok hs).2.1]
        exact .bump
      exact ⟨ha.below hbelow, .below hbelow⟩
  | declare name type slot =>
      obtain ⟨s, hs, rfl⟩ := acts_declare.mp h
      exact ha.declare hs
  | argument name type slot =>
      obtain ⟨s, hs, rfl⟩ := acts_argument.mp h
      exact ha.bindArgument hs
  | params ps => exact apart_bindParams h ha
  | _ =>
      rw [h.spares.scopes rfl]
      exact ⟨ha, .refl⟩

/-! ### Along a template -/

/-- How many scopes a template has opened so far, and which slots it has that no name has got;
nothing if a move binds another slot. -/
def Move.holds : Nat × List Slot → Move → Option (Nat × List Slot)
  | (k, held), .alloc s => some (k, s :: held)
  | (k + 1, held), .bind _ s _ => if s ∈ held then some (k + 1, held.filter (· ≠ s)) else none
  | (0, _), .bind _ _ _ | (0, _), .leave | (_, _ :: _), .enter (.subroutine _) => none
  | (k, held), .enter _ => some (k + 1, held)
  | (k + 1, _), .leave => some (k, [])
  | S, _ => some S

section Templates

variable {S : Nat × List Slot}

theorem Enforces.holds {e : Expr} {type : ValueType} {role : Role} {cs : List Move} {ok : Bool}
    (h : Enforces e type role cs ok) : cs.foldlM Move.holds S = some S := by
  cases h <;> rfl

theorem ReturnsUndef.holds {s : Span} {ms : List Move} (h : ReturnsUndef s ms) :
    ms.foldlM Move.holds S = some S := by
  obtain ⟨hc⟩ := h
  simp [Move.holds, Move.op, hc.holds]

theorem Closes.holds {s : Span} {ends : Bool} {ms : List Move} (h : Closes s ends ms) :
    ms.foldlM Move.holds S = some S := by
  cases h with
  | returned => rfl
  | fallen h => exact h.holds

/-- A template binds slots that no name has got, and closes the scopes it opens. -/
theorem Unfolds.holds {p : Piece} {ms : List Move} {b : Bool} (h : Unfolds p ms b) :
    ∃ held, ms.foldlM Move.holds (0, []) = some (0, held) := by
  cases h with
  | assignVar hc | assignVarMismatch hc | assignDeclare hc | assignDeclareMismatch hc | ret hc
  | bodyExpr hc =>
      simp only [List.foldlM_append, List.foldlM_cons, hc.holds]
      exact ⟨_, rfl⟩
  | @argsHeld _ _ p _ _ _ hc =>
      simp only [List.foldlM_append, hc.holds]
      cases p.copy <;> exact ⟨_, rfl⟩
  | @sub _ body _ _ _ _ _ _ _ _ hc =>
      simp only [List.foldlM_append, hc.holds]
      cases mentionsArgList body <;> exact ⟨_, rfl⟩
  | retUndef h => exact ⟨[], h.holds⟩
  | @next _ control => cases control <;> exact ⟨_, rfl⟩
  | @checkpoint _ on => cases on <;> exact ⟨_, rfl⟩
  | @call _ _ _ _ _ sub => cases h : sub.usesArgList <;> exact ⟨_, rfl⟩
  | @cond _ _ _ rest => cases rest <;> exact ⟨_, rfl⟩
  | @loop init condition step => cases init <;> cases condition <;> cases step <;> exact ⟨_, rfl⟩
  | @package kind => cases kind <;> exact ⟨_, rfl⟩
  | @forEach name _ _ index item =>
      have hbind : Move.holds (1, [item, index]) (.bind name item .unknown) =
          some (1, [item, index].filter (· ≠ item)) := if_pos List.mem_cons_self
      refine ⟨[], ?_⟩
      change (Move.holds (1, [item, index]) (.bind name item .unknown)).bind _ = _
      rw [hbind]
      rfl
  | _ => exact ⟨_, rfl⟩

/-- What holds of the scopes in the middle of a template that began at `σ`. -/
structure Held (σ : Session) (S : Nat × List Slot) (τ : Session) : Prop where
  kept : Kept σ.scopes.stack (τ.scopes.stack.drop S.1)
  apart : Apart τ.scopes.stack
  fresh : Fresh σ.scopes.stack (τ.scopes.stack.drop S.1)
  free : ∀ s ∈ S.2, s.toNat < τ.scopes.taken ∧ ¬ Bound τ.scopes.stack s.toNat

/-- What opens and closes no scopes and gives names new slots only keeps to this. -/
theorem Held.step {σ τ τ' : Session} (h : Held σ S τ)
    (hk : Kept τ.scopes.stack τ'.scopes.stack) (ha : Apart τ'.scopes.stack)
    (hf : Fresh τ.scopes.stack τ'.scopes.stack) : Held σ S τ' := by
  refine ⟨h.kept.trans (hk.drop _), ha, ?_, fun s hs => ?_⟩
  · obtain ⟨k, held⟩ := S
    cases k with
    | zero => exact h.fresh.trans hf h.kept.taken
    | succ k => exact h.fresh.trans (.below (hk.drop_succ k)) h.kept.taken
  · obtain ⟨hlt, hfree⟩ := h.free s hs
    refine ⟨Nat.lt_of_lt_of_le hlt hk.taken, fun hn => ?_⟩
    rcases hf _ hn with hn | hle
    · exact hfree hn
    · exact absurd hlt (Nat.not_lt.mpr hle)

/-- **A move keeps slots apart**, and those that are held free. -/
theorem Move.Does.held {m : Move} {S' : Nat × List Slot} {σ τ τ' : Session} (h : m.Does τ τ')
    (hm : Move.holds S m = some S') (hh : Held σ S τ) : Held σ S' τ' := by
  obtain ⟨k, held⟩ := S
  -- Most moves open and close no scopes, bind no slot they are given and hold none.
  have hplain (henter : ∀ k, m ≠ .enter k) (hleave : m ≠ .leave)
      (hbind : ∀ x s t, m ≠ .bind x s t) : Held σ (k, held) τ' := by
    obtain ⟨hapart, hfresh⟩ := h.apart henter hleave hbind hh.apart
    exact hh.step (h.kept henter hleave) hapart hfresh
  cases m with
  | enter kind =>
      obtain rfl := h
      cases hkind : kind.isSubroutine with
      | true =>
          obtain ⟨rfl, rfl⟩ : held = [] ∧ S' = (k + 1, []) := by
            cases kind with
            | subroutine type => cases held <;> simp_all [Move.holds]
            | _ => cases hkind
          exact ⟨hh.kept, hh.apart.enter, hh.fresh, by simp⟩
      | false =>
          obtain rfl : S' = (k + 1, held) := by
            cases kind with
            | subroutine type => cases hkind
            | _ => simpa [Move.holds, eq_comm] using hm
          refine ⟨hh.kept, hh.apart.enter, hh.fresh, fun s hs => ?_⟩
          obtain ⟨hlt, hfree⟩ := hh.free s hs
          exact ⟨by rwa [taken_enter hkind], fun hn => hfree (bound_enter.mp hn).2⟩
  | leave =>
      obtain rfl := h
      cases k with
      | zero => cases hm
      | succ k =>
          obtain rfl := Option.some.inj hm
          have hdrop : τ.scopes.leave.stack.drop k = τ.scopes.stack.drop (k + 1) := by
            simp [Scopes.leave]
          exact ⟨by rw [hdrop]; exact hh.kept, hh.apart.leave, by rw [hdrop]; exact hh.fresh,
            by simp⟩
  | bind x s t =>
      cases k with
      | zero => cases hm
      | succ k =>
          obtain ⟨hs, rfl⟩ : s ∈ held ∧ S' = (k + 1, held.filter (· ≠ s)) := by
            simp only [Move.holds] at hm
            split at hm
            · exact ⟨‹_›, (Option.some.inj hm).symm⟩
            · cases hm
          obtain ⟨hlt, hfree⟩ := hh.free s hs
          obtain ⟨scopes, hb, rfl⟩ := acts_bind.mp h
          obtain ⟨a, r, hstack, hstack'⟩ := bind_ok hb
          have hk : Kept τ.scopes.stack scopes.stack := by
            rw [hstack, hstack']
            exact .bind
          have htaken : scopes.taken = τ.scopes.taken := by
            rw [Scopes.taken, Scopes.taken, hstack, hstack']
            rfl
          have hapart : Apart scopes.stack := by
            rw [hstack']
            have := hh.apart
            rw [hstack] at this hfree
            refine this.bind rfl (fun y => binding?_bind) (Nat.le_refl _) ?_ hfree
            show s.toNat < taken.go (a :: r)
            rw [← hstack]
            exact hlt
          refine ⟨hh.kept.trans (hk.drop _), hapart,
            hh.fresh.trans (.below (hk.drop_succ k)) hh.kept.taken, fun s' hs' => ?_⟩
          obtain ⟨hs', hne⟩ := List.mem_filter.mp hs'
          have hne : s' ≠ s := by simpa using hne
          obtain ⟨hlt', hfree'⟩ := hh.free s' hs'
          refine ⟨by rwa [htaken], fun hn => ?_⟩
          rw [hstack] at hfree'
          rw [hstack'] at hn
          rcases bound_of_bind (a := a) hn rfl (fun y => binding?_bind) with hn | he
          · exact hfree' hn
          · exact hne (UInt16.toNat_inj.mp he)
  | alloc s =>
      obtain rfl := Option.some.inj hm
      have hh' := hplain (by simp) (by simp) (by simp)
      refine ⟨hh'.kept, hh'.apart, hh'.fresh, fun s' hs' => ?_⟩
      rcases List.mem_cons.mp hs' with rfl | hs'
      · obtain ⟨scopes, hs, rfl⟩ := acts_alloc.mp h
        obtain ⟨hslot, hstack, htaken⟩ := alloc_ok hs
        refine ⟨by rw [htaken]; omega, fun hn => ?_⟩
        rw [hstack] at hn
        have : s'.toNat < τ.scopes.taken := hh.apart.bound_lt (Below.bump.bound.mp hn)
        omega
      · exact hh'.free s' hs'
  | piece p b => exact h.elim
  | _ =>
      obtain rfl : (k, held) = S' := by cases k <;> simpa [Move.holds] using hm
      exact hplain (by simp) (by simp) (by simp)

/-- A row of moves keeps slots apart, if its pieces do. -/
theorem Along.held {K : Piece → Bool → Session → Session → Prop} {ms : List Move}
    {S' : Nat × List Slot} {σ τ τ' : Session}
    (hK : ∀ {q b τ τ'}, K q b τ τ' → Kept τ.scopes.stack τ'.scopes.stack ∧
      (Apart τ.scopes.stack → Apart τ'.scopes.stack ∧ Fresh τ.scopes.stack τ'.scopes.stack))
    (h : Along K ms τ τ') (hfold : ms.foldlM Move.holds S = some S') (hh : Held σ S τ) :
    Held σ S' τ' := by
  refine h.interpret (R := Held σ) (fun hm _ => hm.held) ?_ hfold hh
  rintro q b - ⟨k, held⟩ S' τ τ' hq - hm hh
  obtain rfl : (k, held) = S' := by cases k <;> simpa [Move.holds] using hm
  obtain ⟨hkept, hq⟩ := hK hq
  obtain ⟨hapart, hfresh⟩ := hq hh.apart
  exact hh.step hkept hapart hfresh

end Templates

/-- **Lowering gives names slots of their own.** -/
theorem Runs.apart {Q : List Move → Prop} {p : Piece} {b : Bool} {σ σ' : Session}
    (h : Runs Q p b σ σ') (ha : Apart σ.scopes.stack) :
    Apart σ'.scopes.stack ∧ Fresh σ.scopes.stack σ'.scopes.stack := by
  refine h.ind (P := fun _ _ σ σ' => Apart σ.scopes.stack →
    Apart σ'.scopes.stack ∧ Fresh σ.scopes.stack σ'.scopes.stack) ?_ ha
  intro p b ms σ σ' hu _ hms ha
  obtain ⟨held, hfold⟩ := hu.holds
  have hh := hms.held (fun h => ⟨h.1.kept, h.2⟩) hfold ⟨.refl, ha, .refl, by simp⟩
  exact ⟨hh.apart, hh.fresh⟩

end StackScript
