import StackScript.Proofs.Meaning.Declared

/-!
# Environments and local variables

How the variables of an environment lie in the slots of a frame, and what code makes of both.

* `Agree`: the local variables hold the values that the environment gives the names in scope.
* `Leads`: code takes the machine from one place to another, and an environment and a stack to others,
  and leaves the slots alone that no name in scope has.
-/

namespace StackScript

open Scopes

variable {V : Type}

/-! ### Agreement -/

/-- A name that is bound in a scope and a variable of the environment. -/
def Holds (locals : List V) : Option Binding → Option (Variable V) → Prop
  | none, none => True
  | some b, some var => var.typed = !b.type.isUnknown ∧
      ∀ v, var.value = some v → locals[b.slot.toNat]? = some v
  | _, _ => False

/-- The local variables hold the values that the environment gives the names in scope. -/
def Agree (locals : List V) : List (String → Option Binding) → Env V → Prop
  | [], [] => True
  | g :: gs, e :: env => (∀ x, Holds locals (g x) (e x)) ∧ Agree locals gs env
  | _, _ => False

/-- The names have different slots. -/
def Distinct : List (String → Option Binding) → Prop
  | [] => True
  | g :: gs =>
    (∀ {x y b b'}, g x = some b → g y = some b' → b.slot.toNat = b'.slot.toNat → x = y) ∧
    (∀ {x b}, g x = some b → ∀ {g' y b'}, g' ∈ gs → g' y = some b' →
      b.slot.toNat ≠ b'.slot.toNat) ∧
    Distinct gs

/-- Where slots are apart, names of different scopes or of one have different slots. -/
theorem Scopes.Apart.distinct {s : List Scope} (h : Apart s) : Distinct (names s) := by
  induction s with
  | nil => trivial
  | cons a r ih =>
      obtain ⟨hinj, hslot, hr⟩ := h
      rw [names]
      cases ha : a.isSubroutine with
      | true => exact ⟨hinj, by simp, trivial⟩
      | false =>
          refine ⟨hinj, fun {x b} hx {g y b'} hg hy he => ?_, ih hr⟩
          exact (hslot hx).2 ha ⟨g, hg, y, b', hy, he.symm⟩

/-- What a piece keeps has the same names around the innermost scope. -/
theorem Scopes.Kept.names {s s' : List Scope} (h : Kept s s') :
    s = [] ∧ s' = [] ∨ ∃ gs, names s = top? s :: gs ∧ names s' = top? s' :: gs := by
  cases h with
  | nil => exact .inl ⟨rfl, rfl⟩
  | @scope a a' r r' ha hk hr =>
      have ha' : a'.isSubroutine = false := by rw [Scope.isSubroutine, hk]; exact ha
      exact .inr ⟨Scopes.names r, by rw [Scopes.names, ha]; rfl, by
        rw [Scopes.names, ha', hr.names]; rfl⟩
  | @sub a a' r ha hk _ =>
      have ha' : a'.isSubroutine = true := by rw [Scope.isSubroutine, hk]; exact ha
      exact .inr ⟨[], by rw [Scopes.names, ha]; rfl, by rw [Scopes.names, ha']; rfl⟩

namespace Holds

/-- A store to another slot leaves what a slot holds. -/
theorem set {locals : List V} {n : Nat} {v : V} {b : Option Binding} {var : Option (Variable V)}
    (h : Holds locals b var) (hb : ∀ b', b = some b' → b'.slot.toNat ≠ n) :
    Holds (locals.set n v) b var := by
  cases b with
  | none => cases var <;> exact h
  | some b =>
      cases var with
      | none => exact h
      | some var =>
          refine ⟨h.1, fun w hw => ?_⟩
          rw [List.getElem?_set_ne (Ne.symm (hb b rfl))]
          exact h.2 w hw

end Holds

namespace Agree

variable {locals : List V} {gs : List (String → Option Binding)} {env env' : Env V} {x : String}
  {v : V} {b : Binding}

/-- A name that has a value finds it in its slot. -/
theorem lookup (h : Agree locals gs env) (hv : env.lookup? x = some v)
    (hb : gs.findSome? (· x) = some b) : locals[b.slot.toNat]? = some v := by
  induction gs generalizing env with
  | nil => simp at hb
  | cons g gs ih =>
      cases env with
      | nil => cases h
      | cons e env =>
          obtain ⟨hx, h⟩ := h
          have hx := hx x
          rw [Env.lookup?] at hv
          rw [List.findSome?_cons] at hb
          cases hg : g x with
          | none =>
              cases he : e x with
              | none => exact ih h (by simpa [he] using hv) (by simpa [hg] using hb)
              | some var => simp [Holds, hg, he] at hx
          | some b' =>
              obtain rfl : b' = b := by simpa [hg] using hb
              cases he : e x with
              | none => simp [Holds, hg, he] at hx
              | some var =>
                  rw [hg, he] at hx
                  exact hx.2 v (by simpa [he] using hv)

/-- A slot that no name has can be stored to. -/
theorem set (h : Agree locals gs env) {n : Nat}
    (hn : ∀ {g y b}, g ∈ gs → g y = some b → b.slot.toNat ≠ n) : Agree (locals.set n v) gs env := by
  induction gs generalizing env with
  | nil => cases env <;> exact h
  | cons g gs ih =>
      cases env with
      | nil => exact h
      | cons e env =>
          exact ⟨fun y => (h.1 y).set fun b hb => hn (List.mem_cons_self ..) hb,
            ih h.2 fun hg => hn (List.mem_cons_of_mem _ hg)⟩

/-- Storing to the slot of a name in the innermost scope gives the name the value. -/
theorem set_top {g g' : String → Option Binding} {e : Env.Scope V} {env : List (Env.Scope V)}
    (h : Agree locals (g :: gs) (e :: env)) (hd : Distinct (g' :: gs))
    (hlt : b.slot.toNat < locals.length) (hg : ∀ y, x ≠ y → g' y = g y) (hx : g' x = some b)
    (ht : (e x).any (·.typed) = !b.type.isUnknown) :
    Agree (locals.set b.slot.toNat v) (g' :: gs) (e.set x v :: env) := by
  obtain ⟨hinj, hother, -⟩ := hd
  refine ⟨fun y => ?_, set h.2 fun hg' hy => Ne.symm (hother hx hg' hy)⟩
  rw [Env.Scope.set]
  by_cases hxy : x = y
  · subst hxy
    rw [if_pos rfl, hx]
    refine ⟨ht, fun w hw => ?_⟩
    obtain rfl : v = w := Option.some.inj hw
    simp [hlt]
  · rw [if_neg hxy, hg y hxy]
    refine (h.1 y).set fun b' hb' he => hxy ?_
    exact hinj hx ((hg y hxy).trans hb') he.symm

/-- An assignment to a name is a store to its slot, and to a variable without a type. -/
theorem assign (h : Agree locals gs env) (hd : Distinct gs) (hv : env.assign? x v = some env')
    (hb : gs.findSome? (· x) = some b) (hlt : b.slot.toNat < locals.length) :
    b.type.isUnknown = true ∧ Agree (locals.set b.slot.toNat v) gs env' := by
  induction gs generalizing env env' with
  | nil => simp at hb
  | cons g gs ih =>
      cases env with
      | nil => cases h
      | cons e env =>
          have hx := h.1 x
          rw [Env.assign?] at hv
          rw [List.findSome?_cons] at hb
          cases hg : g x with
          | none =>
              cases he : e x with
              | some var => simp [Holds, hg, he] at hx
              | none =>
                  simp only [he] at hv
                  obtain ⟨env₁, hv', rfl⟩ := Option.map_eq_some_iff.mp hv
                  have hb : gs.findSome? (· x) = some b := by simpa [hg] using hb
                  obtain ⟨ht, hagree⟩ := ih h.2 hd.2.2 hv' hb
                  obtain ⟨g', hg', hb'⟩ := List.exists_of_findSome?_eq_some hb
                  -- The variable is of a scope further out; names of this scope have other slots.
                  refine ⟨ht, fun y => (h.1 y).set fun b₁ hb₁ => ?_, hagree⟩
                  exact hd.2.1 hb₁ hg' hb'
          | some b' =>
              obtain rfl : b' = b := by simpa [hg] using hb
              cases he : e x with
              | none => simp [Holds, hg, he] at hx
              | some var =>
                  rw [hg, he] at hx
                  simp only [he] at hv
                  split at hv
                  · cases hv
                  · rename_i huntyped
                    have ht : b'.type.isUnknown = true := by simpa [hx.1] using huntyped
                    obtain rfl := Option.some.inj hv
                    exact ⟨ht, set_top h hd hlt (fun _ _ => rfl) hg (by simp [he, hx.1])⟩

theorem enter (h : Agree locals gs env) : Agree locals ((fun _ => none) :: gs) env.enter :=
  ⟨fun _ => trivial, h⟩

theorem leave (h : Agree locals gs env) : Agree locals gs.tail env.leave := by
  cases gs with
  | nil =>
      cases env with
      | nil => exact h
      | cons e env => cases h
  | cons g gs =>
      cases env with
      | nil => cases h
      | cons e env => exact h.2

/-- The names that a piece declares, where control passes over it. -/
theorem announce {s s' : List Scope} {D : String → Bool} (h : Agree locals (names s) env)
    (hk : Kept s s') (hg : Grown D s s') : Agree locals (names s') (env.announce D) := by
  rcases hk.names with ⟨rfl, rfl⟩ | ⟨gs, hs, hs'⟩
  · cases env <;> exact h
  rw [hs] at h
  rw [hs']
  cases env with
  | nil => cases h
  | cons e env =>
      refine ⟨fun x => ?_, h.2⟩
      have hx := h.1 x
      show Holds locals (top? s' x) ((e x).or (if D x then some ⟨false, none⟩ else none))
      -- A name of the scope keeps its slot; a new one is announced exactly if it is bound.
      cases hb : top? s x with
      | some b =>
          rw [hb] at hx
          rw [hg.kept hb]
          cases he : e x with
          | none => simp [Holds, he] at hx
          | some var =>
              rw [he] at hx
              exact hx
      | none =>
          rw [hb] at hx
          cases he : e x with
          | some var => simp [Holds, he] at hx
          | none =>
              cases hb' : top? s' x with
              | some b =>
                  rcases hg.new hb' with h | ⟨hD, ht⟩
                  · simp [hb] at h
                  · simp [hD, Holds, ht]
              | none =>
                  cases hD : D x with
                  | true => simpa [hb'] using hg.bound hD
                  | false => simp [Holds]

/-- The names that were declared before. -/
theorem cut {s s' : List Scope} {D : String → Bool} {locals' : List V}
    (h : Agree locals (names s) env) (h' : Agree locals' (names s') env') (hk : Kept s s')
    (hg : Grown D s s') : Agree locals' (names s) (env'.cut env) := by
  rcases hk.names with ⟨rfl, rfl⟩ | ⟨gs, hs, hs'⟩
  · cases env <;> cases env' <;> exact h'
  rw [hs] at h ⊢
  rw [hs'] at h'
  cases env with
  | nil => cases h
  | cons e env =>
      cases env' with
      | nil => cases h'
      | cons e' env' =>
          refine ⟨fun x => ?_, h'.2⟩
          have hx := h.1 x
          cases hb : top? s x with
          | some b =>
              rw [hb] at hx
              cases he : e x with
              | none => simp [Holds, he] at hx
              | some var =>
                  rw [← hg.kept hb]
                  simpa [he] using h'.1 x
          | none =>
              rw [hb] at hx
              cases he : e x with
              | some var => simp [Holds, he] at hx
              | none => simp [Holds, he]

end Agree

/-! ### From place to place -/

/-- A place in the code, with the scopes that are open there. -/
structure Spot where
  scopes : Scopes
  pc : Nat

/-- Where the session stands. -/
def Session.spot (σ : Session) : Spot := ⟨σ.scopes, σ.draft.position⟩

/-- The slots are as they were that have been given out and that no name in scope has. -/
structure Spared (s : List Scope) (locals locals' : List V) : Prop where
  length : locals'.length = locals.length
  slots : ∀ {n}, n < taken.go s → ¬ Bound s n → locals'[n]? = locals[n]?

namespace Spared

theorem refl {s : List Scope} {locals : List V} : Spared s locals locals := ⟨rfl, fun _ _ => rfl⟩

/-- What one stretch of code spares and the next one does is spared by both. -/
theorem trans {s s' : List Scope} {l₁ l₂ l₃ : List V} (h₁ : Spared s l₁ l₂) (h₂ : Spared s' l₂ l₃)
    (ht : taken.go s ≤ taken.go s') (hf : Fresh s s') : Spared s l₁ l₃ := by
  refine ⟨h₂.length.trans h₁.length, fun {n} hn hb => ?_⟩
  rw [h₂.slots (Nat.lt_of_lt_of_le hn ht) fun hb' => ?_, h₁.slots hn hb]
  rcases hf n hb' with hb' | hle
  · exact hb hb'
  · exact Nat.not_lt.mpr hle hn

/-- Storing to the slot of a name, or to a slot given out later. -/
theorem set {s : List Scope} {locals : List V} {n : Nat} {v : V} (h : Bound s n ∨ taken.go s ≤ n) :
    Spared s locals (locals.set n v) := by
  refine ⟨by simp, fun {m} hm hb => List.getElem?_set_ne fun he => ?_⟩
  rcases h with h | h
  · exact hb (he ▸ h)
  · omega

end Spared

/-- Code takes the machine from one place to another, and an environment and a stack to others. -/
structure Leads (I : Interpretation V) (c : Chunk) (a b : Spot) (env : Env V) (s : List V)
    (env' : Env V) (s' : List V) : Prop where
  taken : a.scopes.taken ≤ b.scopes.taken
  fresh : Fresh a.scopes.stack b.scopes.stack
  goes : ∀ {locals} callers, Agree locals (names a.scopes.stack) env →
    b.scopes.taken ≤ locals.length → ∃ locals',
      Machine.Goes I c ⟨a.pc, s, locals, callers⟩ ⟨b.pc, s', locals', callers⟩ ∧
      Agree locals' (names b.scopes.stack) env' ∧ Spared a.scopes.stack locals locals'

namespace Leads

variable {I : Interpretation V} {c : Chunk} {a b b' : Spot} {env env₁ env' : Env V}
  {s s₁ s' : List V}

theorem refl : Leads I c a a env s env s :=
  ⟨Nat.le_refl _, .refl, fun _ h _ => ⟨_, .refl, h, .refl⟩⟩

theorem trans (h₁ : Leads I c a b env s env₁ s₁) (h₂ : Leads I c b b' env₁ s₁ env' s') :
    Leads I c a b' env s env' s' := by
  refine ⟨Nat.le_trans h₁.taken h₂.taken, h₁.fresh.trans h₂.fresh h₁.taken,
    fun {locals} callers hagree hroom => ?_⟩
  obtain ⟨locals₁, hgo₁, hagree₁, hspared₁⟩ :=
    h₁.goes callers hagree (Nat.le_trans h₂.taken hroom)
  obtain ⟨locals₂, hgo₂, hagree₂, hspared₂⟩ :=
    h₂.goes callers hagree₁ (by rw [hspared₁.length]; exact hroom)
  exact ⟨locals₂, hgo₁.trans hgo₂, hagree₂, hspared₁.trans hspared₂ h₁.taken h₁.fresh⟩

/-- Code that changes the stack only. -/
theorem of_goes {n : Nat} (h : ∀ locals callers,
    Machine.Goes I c ⟨a.pc, s, locals, callers⟩ ⟨n, s', locals, callers⟩) :
    Leads I c a ⟨a.scopes, n⟩ env s env s' :=
  ⟨Nat.le_refl _, .refl, fun callers hagree _ => ⟨_, h _ callers, hagree, .refl⟩⟩

/-- A scope that is opened. -/
theorem enter {kind : ScopeKind} (hk : kind.isSubroutine = false) :
    Leads I c a ⟨a.scopes.enter kind, a.pc⟩ env s env.enter s := by
  refine ⟨Nat.le_of_eq (taken_enter hk).symm, fun n hn => .inl ?_, fun _ hagree _ => ?_⟩
  · have hnames : names (a.scopes.enter kind).stack = _ := names_enter hk
    simpa [Bound, hnames] using hn
  · exact ⟨_, .refl, by rw [names_enter hk]; exact hagree.enter, .refl⟩

end Leads

end StackScript
