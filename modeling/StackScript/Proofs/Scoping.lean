import StackScript.Proofs.Runs

/-!
# What lowering does to the scopes

A piece closes the scopes it opens and no others, binds names in the innermost scope only, and gives
out slots of the current subroutine (`Runs.kept`).  So what is known of the scopes around a piece
before it is lowered is known behind it: the loop that `last` and `next` mean, and the subroutine a
slot belongs to.
-/

namespace StackScript

/-! ### Single steps on the scopes -/

namespace Scopes

/-- How many slots the current subroutine has given out. -/
def taken (s : Scopes) : Nat :=
  go s.stack
where
  go : List Scope → Nat
    | [] => 0
    | scope :: rest => if scope.isSubroutine then scope.nextSlot else go rest

/-- The scopes with one more slot of the current subroutine given out. -/
def bump : List Scope → List Scope
  | [] => []
  | scope :: rest =>
    if scope.isSubroutine then { scope with nextSlot := scope.nextSlot + 1 } :: rest
    else scope :: bump rest

/-- A slot that is given out is the first one that is free, and the count goes up by one. -/
theorem alloc_go_ok {stack stack' : List Scope} {slot : Slot}
    (h : alloc.go stack = (.ok slot, stack')) :
    taken.go stack < UInt16.size ∧ slot = (taken.go stack).toUInt16 ∧ stack' = bump stack ∧
      taken.go (bump stack) = taken.go stack + 1 := by
  induction stack generalizing stack' with
  | nil => simp [alloc.go] at h
  | cons scope rest ih =>
      unfold alloc.go at h
      split at h
      · rename_i hs
        simp only at h
        split at h
        · rename_i hlt
          cases h
          have hs' : { scope with nextSlot := scope.nextSlot + 1 }.isSubroutine = true := hs
          simpa [taken.go, bump, hs, hs'] using hlt
        · cases h
      · rename_i hs
        rcases ha : alloc.go rest with ⟨result, rest'⟩
        simp only [ha] at h
        cases h
        obtain ⟨hlt, rfl, rfl, ht⟩ := ih ha
        simp [taken.go, bump, hs, hlt, ht]

/-- A new slot is numbered by how many there were. -/
theorem alloc_ok {s s' : Scopes} {slot : Slot} (h : alloc s = (.ok slot, s')) :
    slot.toNat = s.taken ∧ s'.stack = bump s.stack ∧ s'.taken = s.taken + 1 := by
  unfold alloc at h
  rcases ha : alloc.go s.stack with ⟨result, stack⟩
  simp only [ha] at h
  cases h
  obtain ⟨hlt, rfl, rfl, ht⟩ := alloc_go_ok ha
  exact ⟨Nat.mod_eq_of_lt hlt, rfl, ht⟩

/-- A name that has just been bound stands for what it was bound to; others are as they were. -/
theorem binding?_bind {a : Scope} {x y : String} {b : Binding} :
    (a.bind x b).binding? y = if x = y then some b else a.binding? y := by
  simp [Scope.binding?, Scope.bind, Std.ExtTreeMap.getElem?_insert]

/-- A parameter's name stands for the parameter; others are as they were. -/
theorem binding?_bindArgument {a : Scope} {x y : String} {b : Binding} :
    (a.bindArgument x b).binding? y = if x = y then some b else a.binding? y := by
  simp [Scope.binding?, Scope.bindArgument, Std.ExtTreeMap.getElem?_insert]

/-- Binding a name changes the innermost scope only. -/
theorem bind_ok {s s' : Scopes} {name : String} {slot : Slot} {type : ValueType}
    (h : bind name slot type s = (.ok (), s')) :
    ∃ scope rest, s.stack = scope :: rest ∧ s'.stack = scope.bind name ⟨slot, type⟩ :: rest := by
  unfold bind at h
  split at h
  · cases h
  · cases h
    exact ⟨_, _, ‹_›, rfl⟩

/-- A name that is bound in the innermost scope keeps its slot; another gets a new one. -/
theorem declare_ok {s s' : Scopes} {name : String} {type : ValueType} {slot : Slot}
    (h : declare name type s = (.ok slot, s')) :
    ∃ scope rest, s.stack = scope :: rest ∧
      ((∃ b, scope.binding? name = some b ∧ slot = b.slot ∧ s' = s) ∨
        ∃ t, scope.binding? name = none ∧ alloc s = (.ok slot, t) ∧
          bind name slot type t = (.ok (), s')) := by
  obtain ⟨found, s₁, hc, h⟩ := Step.bind_eq_ok.mp h
  obtain ⟨htop, rfl⟩ : s.top.map (·.binding? name) = .ok found ∧ s = s₁ := by
    simpa [Step.check] using hc
  unfold top at htop
  split at htop
  · cases htop
  · rename_i scope rest hs
    refine ⟨scope, rest, hs, ?_⟩
    obtain rfl : scope.binding? name = found := by simpa [Except.map] using htop
    cases hb : scope.binding? name with
    | some b =>
        simp only [hb] at h
        obtain ⟨rfl, rfl⟩ := Step.pure_eq_ok.mp h
        exact .inl ⟨b, rfl, rfl, rfl⟩
    | none =>
        simp only [hb, Step.bind_eq_ok] at h
        obtain ⟨slot', t, ha, _, t', hb', h⟩ := h
        obtain ⟨rfl, rfl⟩ := Step.pure_eq_ok.mp h
        exact .inr ⟨t, rfl, ha, hb'⟩

/-- A parameter takes the next slot of the innermost scope, which is a subroutine's. -/
theorem bindArgument_ok {s s' : Scopes} {name : String} {type : ValueType} {slot : Slot}
    (h : bindArgument name type s = (.ok slot, s')) :
    ∃ scope rest, s.stack = scope :: rest ∧ scope.isSubroutine = true ∧
      slot.toNat = scope.nextSlot ∧
      s'.stack = ({ scope with nextSlot := scope.nextSlot + 1 }.bindArgument name ⟨slot, type⟩) ::
        rest := by
  obtain ⟨found, s₁, hc, h⟩ := Step.bind_eq_ok.mp h
  obtain ⟨htop, rfl⟩ : s.top.map (·.isSubroutine) = .ok found ∧ s = s₁ := by
    simpa [Step.check] using hc
  unfold top at htop
  split at htop
  · cases htop
  · rename_i scope rest hs
    refine ⟨scope, rest, hs, ?_⟩
    obtain rfl : scope.isSubroutine = found := by simpa [Except.map] using htop
    cases hb : scope.isSubroutine with
    | false =>
        simp only [hb] at h
        exact absurd h Step.fail_ne_ok
    | true =>
        simp only [hb, if_true, Step.bind_eq_ok] at h
        obtain ⟨slot', t, ha, _, t', hu, h⟩ := h
        obtain ⟨rfl, rfl⟩ := Step.pure_eq_ok.mp h
        obtain ⟨hslot, hstack, -⟩ := alloc_ok ha
        cases hu
        simp [hs, bump, hb] at hstack
        simp [hslot, taken, taken.go, hs, hb, hstack]

/-! ### What a piece keeps -/

/-- The scopes are the same but for how many slots the current subroutine has given out. -/
inductive Below : List Scope → List Scope → Prop where
  | nil : Below [] []
  | scope {a : Scope} {r r' : List Scope} :
      a.isSubroutine = false → Below r r' → Below (a :: r) (a :: r')
  | sub {a : Scope} {n : Nat} {r : List Scope} :
      a.isSubroutine = true → a.nextSlot ≤ n → Below (a :: r) ({ a with nextSlot := n } :: r)

/-- The scopes are the same but for the names bound in the innermost one and how many slots the
current subroutine has given out. -/
inductive Kept : List Scope → List Scope → Prop where
  | nil : Kept [] []
  | scope {a a' : Scope} {r r' : List Scope} : a.isSubroutine = false → a'.kind = a.kind →
      Below r r' → Kept (a :: r) (a' :: r')
  | sub {a a' : Scope} {r : List Scope} : a.isSubroutine = true → a'.kind = a.kind →
      a.nextSlot ≤ a'.nextSlot → Kept (a :: r) (a' :: r)

namespace Below

theorem refl : ∀ {s : List Scope}, Below s s
  | [] => .nil
  | a :: r => by
      cases h : a.isSubroutine with
      | false => exact .scope h refl
      | true => exact .sub h (Nat.le_refl _)

theorem trans {s₁ s₂ s₃ : List Scope} (h₁ : Below s₁ s₂) (h₂ : Below s₂ s₃) : Below s₁ s₃ := by
  induction h₁ generalizing s₃ with
  | nil => exact h₂
  | scope ha _ ih =>
      cases h₂ with
      | scope _ hr => exact .scope ha (ih hr)
      | sub ha' => rw [ha] at ha'; cases ha'
  | sub ha hn =>
      cases h₂ with
      | scope ha' _ => exact absurd (ha.symm.trans ha') (by simp)
      | sub _ hn' => exact .sub ha (Nat.le_trans hn hn')

/-- Counting one slot more changes no scope but for the count. -/
theorem bump : ∀ {s : List Scope}, Below s (bump s)
  | [] => .nil
  | a :: r => by
      cases h : a.isSubroutine with
      | false => simpa [Scopes.bump, h] using .scope h bump
      | true => simpa [Scopes.bump, h] using .sub h (Nat.le_succ _)

theorem drop {s s' : List Scope} (h : Below s s') (k : Nat) : Below (s.drop k) (s'.drop k) := by
  induction h generalizing k with
  | nil => simpa using .nil
  | scope ha hr ih =>
      cases k with
      | zero => exact .scope ha hr
      | succ k => exact ih k
  | sub ha hn =>
      cases k with
      | zero => exact .sub ha hn
      | succ k => exact .refl

end Below

namespace Kept

/-- A change of the count of slots alone is such a change. -/
theorem of_below {s s' : List Scope} (h : Below s s') : Kept s s' := by
  cases h with
  | nil => exact .nil
  | scope ha hr => exact .scope ha rfl hr
  | sub ha hn => exact .sub ha rfl hn

theorem refl {s : List Scope} : Kept s s := .of_below .refl

theorem trans {s₁ s₂ s₃ : List Scope} (h₁ : Kept s₁ s₂) (h₂ : Kept s₂ s₃) : Kept s₁ s₃ := by
  cases h₁ with
  | nil => exact h₂
  | scope ha hk hr =>
      cases h₂ with
      | scope _ hk' hr' => exact .scope ha (hk'.trans hk) (hr.trans hr')
      | sub ha' => simp [Scope.isSubroutine, hk] at ha ha'; simp [ha] at ha'
  | sub ha hk hn =>
      cases h₂ with
      | scope ha' _ _ => simp [Scope.isSubroutine, hk] at ha ha'; simp [ha] at ha'
      | sub _ hk' hn' => exact .sub ha (hk'.trans hk) (Nat.le_trans hn hn')

/-- Behind the innermost scope, nothing is changed but the count of slots. -/
theorem drop_succ {s s' : List Scope} (h : Kept s s') (k : Nat) :
    Below (s.drop (k + 1)) (s'.drop (k + 1)) := by
  cases h with
  | nil => exact .nil
  | scope _ _ hr => exact hr.drop k
  | sub _ _ _ => exact .refl

theorem drop {s s' : List Scope} (h : Kept s s') (k : Nat) : Kept (s.drop k) (s'.drop k) := by
  cases k with
  | zero => exact h
  | succ k => exact .of_below (h.drop_succ k)

/-- Binding a name in the innermost scope keeps the scopes around it. -/
theorem bind {a : Scope} {r : List Scope} {name : String} {b : Binding} :
    Kept (a :: r) (a.bind name b :: r) := by
  cases h : a.isSubroutine with
  | false => exact .scope h rfl .refl
  | true => exact .sub h rfl (Nat.le_refl _)

end Kept

end Scopes

open Scopes

/-! ### Pieces keep the scopes -/

theorem kept_bindArgument {name : String} {type : ValueType} {slot : Slot} {s s' : Scopes}
    (h : bindArgument name type s = (.ok slot, s')) : Kept s.stack s'.stack := by
  obtain ⟨a, r, hs, ha, -, hs'⟩ := bindArgument_ok h
  rw [hs, hs']
  exact .sub ha rfl (Nat.le_succ _)

/-- A declaration changes the innermost scope and the count of slots only. -/
theorem kept_declare {name : String} {type : ValueType} {slot : Slot} {s s' : Scopes}
    (h : declare name type s = (.ok slot, s')) : Kept s.stack s'.stack := by
  obtain ⟨a, r, -, ⟨-, -, -, rfl⟩ | ⟨t, -, ha, hb⟩⟩ := declare_ok h
  · exact .refl
  · obtain ⟨a', r', ht, hs'⟩ := bind_ok hb
    refine .trans (.of_below .bump) ?_
    rw [← (alloc_ok ha).2.1, ht, hs']
    exact .bind

/-- Binding parameters changes the innermost scope and the count of slots only. -/
theorem kept_bindParams {ps : List SubParam} {σ σ' : Session}
    (h : Lower.bindParams ps σ = (.ok (), σ')) : Kept σ.scopes.stack σ'.scopes.stack := by
  induction ps generalizing σ with
  | nil =>
      obtain ⟨_, rfl⟩ := Step.pure_eq_ok.mp h
      exact .refl
  | cons p ps ih =>
      obtain ⟨slot, τ, h₁, h₂⟩ := Step.bind_eq_ok.mp h
      obtain ⟨s, hs, rfl⟩ := Move.onScopes_eq_ok.mp h₁
      exact .trans (kept_bindArgument hs) (ih h₂)

/-- **A move that opens no scope and leaves none keeps the scopes around the innermost one.** -/
theorem Move.Does.kept {m : Move} {σ σ' : Session} (h : m.Does σ σ') (henter : ∀ k, m ≠ .enter k)
    (hleave : m ≠ .leave) : Kept σ.scopes.stack σ'.scopes.stack := by
  cases m with
  | enter k => exact absurd rfl (henter k)
  | leave => exact absurd rfl hleave
  | alloc slot =>
      obtain ⟨s, hs, rfl⟩ := acts_alloc.mp h
      rw [(alloc_ok hs).2.1]
      exact .of_below .bump
  | declare name type slot =>
      obtain ⟨s, hs, rfl⟩ := acts_declare.mp h
      exact kept_declare hs
  | argument name type slot =>
      obtain ⟨s, hs, rfl⟩ := acts_argument.mp h
      exact kept_bindArgument hs
  | params ps => exact kept_bindParams h
  | bind name slot type =>
      obtain ⟨s, hs, rfl⟩ := acts_bind.mp h
      obtain ⟨a, r, hs, hs'⟩ := bind_ok hs
      rw [hs, hs']
      exact .bind
  | _ =>
      rw [h.spares.scopes rfl]
      exact .refl

/-- How many scopes are open after the move that were not open before the template, if it closes none
of those. -/
def Move.opened : Nat → Move → Option Nat
  | k, .enter _ => some (k + 1)
  | 0, .leave => none
  | k + 1, .leave => some k
  | k, _ => some k

namespace Move

/-- The move binds a name in the innermost scope, whether or not it is bound there. -/
def rebinds : Move → Bool
  | .bind _ _ _ | .argument _ _ _ | .params _ => true
  | _ => false

/-- How many scopes are open after the move that were not open before the template, if it neither closes
others nor binds names of theirs anew. -/
def within (k : Nat) (m : Move) : Option Nat :=
  match m.rebinds, k with
  | true, 0 => none
  | _, k => m.opened k

end Move

theorem Enforces.within {e : Expr} {type : ValueType} {role : Role} {cs : List Move} {ok : Bool}
    (h : Enforces e type role cs ok) {k : Nat} : cs.foldlM Move.within k = some k := by
  cases h <;> rfl

theorem ReturnsUndef.within {s : Span} {ms : List Move} (h : ReturnsUndef s ms) {k : Nat} :
    ms.foldlM Move.within k = some k := by
  obtain ⟨hc⟩ := h
  simp only [List.foldlM_cons, List.foldlM_append, hc.within]
  rfl

theorem Closes.within {s : Span} {ends : Bool} {ms : List Move} (h : Closes s ends ms) {k : Nat} :
    ms.foldlM Move.within k = some k := by
  cases h with
  | returned => rfl
  | fallen h => exact h.within

/-- A template binds arguments and loop variables in scopes of its own. -/
theorem Unfolds.within {p : Piece} {ms : List Move} {b : Bool} (h : Unfolds p ms b) {k : Nat} :
    ms.foldlM Move.within k = some k := by
  cases h with
  | assignVar hc | assignVarMismatch hc | assignDeclare hc | assignDeclareMismatch hc | ret hc
  | bodyExpr hc =>
      simp only [List.foldlM_append, List.foldlM_cons, hc.within]
      rfl
  | @argsHeld _ _ p _ _ _ hc =>
      simp only [List.foldlM_append, hc.within]
      cases p.copy <;> rfl
  | @sub _ body _ _ _ _ _ _ _ _ hc =>
      simp only [List.foldlM_append, hc.within]
      cases mentionsArgList body <;> rfl
  | retUndef h => exact h.within
  | @next _ control => cases control <;> rfl
  | @checkpoint _ on => cases on <;> rfl
  | @call _ _ _ _ _ sub => cases sub.usesArgList <;> rfl
  | @cond _ _ _ rest => cases rest <;> rfl
  | @loop init condition step => cases init <;> cases condition <;> cases step <;> rfl
  | @package kind => cases kind <;> rfl
  | _ => rfl

/-- The moves leave as many scopes open when it does not matter which names they bind. -/
theorem Move.opened_of_within {ms : List Move} {k k' : Nat} (h : ms.foldlM Move.within k = some k') :
    ms.foldlM Move.opened k = some k' := by
  induction ms generalizing k with
  | nil => exact h
  | cons m ms ih =>
      obtain ⟨j, hm, h⟩ := foldlM_cons.mp h
      refine foldlM_cons.mpr ⟨j, ?_, ih h⟩
      unfold within at hm
      split at hm
      · cases hm
      · exact hm

theorem Closes.opened {s : Span} {ends : Bool} {ms : List Move} (h : Closes s ends ms) {k : Nat} :
    ms.foldlM Move.opened k = some k := Move.opened_of_within h.within

/-- A template closes the scopes it opens, and no others. -/
theorem Unfolds.opened {p : Piece} {ms : List Move} {b : Bool} (h : Unfolds p ms b) {k : Nat} :
    ms.foldlM Move.opened k = some k := Move.opened_of_within h.within

/-- A move keeps the scopes below those that have been opened. -/
theorem Move.Does.kept_opened {m : Move} {σ σ' : Session} {k k' : Nat} {s : List Scope}
    (h : m.Does σ σ') (hk : Move.opened k m = some k') (hs : Kept s (σ.scopes.stack.drop k)) :
    Kept s (σ'.scopes.stack.drop k') := by
  cases m with
  | enter kind =>
      obtain rfl := Option.some.inj hk
      obtain rfl := h
      exact hs
  | leave =>
      obtain rfl := h
      cases k with
      | zero => cases hk
      | succ k =>
          obtain rfl := Option.some.inj hk
          simpa [Scopes.leave] using hs
  | _ =>
      obtain rfl := Option.some.inj hk
      exact hs.trans ((h.kept (by simp) (by simp)).drop _)

/-- What a row of moves has opened can be dropped, and the scopes below are kept. -/
theorem Along.kept_opened {K : Piece → Bool → Session → Session → Prop} {ms : List Move}
    {σ σ' : Session} {k : Nat}
    (hK : ∀ {p b σ σ'}, K p b σ σ' → Kept σ.scopes.stack σ'.scopes.stack)
    (hms : ms.foldlM Move.opened 0 = some k) (h : Along K ms σ σ') :
    Kept σ.scopes.stack (σ'.scopes.stack.drop k) := by
  refine h.interpret (R := fun k τ => Kept σ.scopes.stack (τ.scopes.stack.drop k))
    (fun hm _ hk => hm.kept_opened hk) ?_ hms .refl
  intro q c _ k k' τ τ' hq _ hk hs
  obtain rfl := Option.some.inj hk
  exact hs.trans ((hK hq).drop _)

/-- **A piece keeps the scopes.** -/
theorem Runs.kept {Q : List Move → Prop} {p : Piece} {b : Bool} {σ σ' : Session}
    (h : Runs Q p b σ σ') : Kept σ.scopes.stack σ'.scopes.stack :=
  h.ind (P := fun _ _ σ σ' => Kept σ.scopes.stack σ'.scopes.stack)
    fun hu _ ha => ha.kept_opened And.right hu.opened

namespace Scopes

/-- The number of slots given out does not go down. -/
theorem Below.taken {s s' : List Scope} (h : Below s s') : taken.go s ≤ taken.go s' := by
  induction h with
  | nil => exact Nat.le_refl _
  | scope ha _ ih => simpa [taken.go, ha] using ih
  | @sub a n r ha hn =>
      have ha' : { a with nextSlot := n }.isSubroutine = true := ha
      simpa [taken.go, ha, ha'] using hn

/-- The scopes are of the kinds that they were. -/
theorem Below.kinds {s s' : List Scope} (h : Below s s') : s'.map (·.kind) = s.map (·.kind) := by
  induction h with
  | nil => rfl
  | scope _ _ ih => simp [ih]
  | sub _ _ => rfl

namespace Kept

theorem taken {s s' : List Scope} (h : Kept s s') : taken.go s ≤ taken.go s' := by
  cases h with
  | nil => exact Nat.le_refl _
  | @scope a a' _ _ ha hk hr =>
      have ha' : a'.isSubroutine = false := by rw [Scope.isSubroutine, hk]; exact ha
      simpa [Scopes.taken.go, ha, ha'] using hr.taken
  | @sub a a' _ ha hk hn =>
      have ha' : a'.isSubroutine = true := by rw [Scope.isSubroutine, hk]; exact ha
      simpa [Scopes.taken.go, ha, ha'] using hn

theorem kinds {s s' : List Scope} (h : Kept s s') : s'.map (·.kind) = s.map (·.kind) := by
  cases h with
  | nil => rfl
  | scope _ hk hr => simp [hk, hr.kinds]
  | sub _ hk _ => simp [hk]

end Kept

/-- The scopes opened last are of the same subroutine. -/
def Inner (k : Nat) (stack : List Scope) : Prop :=
  ∀ a ∈ stack.take k, a.isSubroutine = false

theorem Inner.zero {stack : List Scope} : Inner 0 stack := by simp [Inner]

/-- The opened scopes stay inside the subroutine. -/
theorem Inner.kept {k : Nat} {s s' : List Scope} (h : Inner k s) (hk : Kept s s') :
    Inner k s' := by
  intro a ha
  have hkinds : (s'.take k).map Scope.kind = (s.take k).map Scope.kind := by
    rw [List.map_take, List.map_take, hk.kinds]
  have hmem : a.kind ∈ (s'.take k).map Scope.kind := List.mem_map_of_mem ha
  rw [hkinds] at hmem
  obtain ⟨a₀, ha₀, he⟩ := List.mem_map.mp hmem
  have := h a₀ ha₀
  rwa [Scope.isSubroutine, he] at this

/-- A scope that is no subroutine's takes no slots when it is opened. -/
theorem taken_enter {s : Scopes} {kind : ScopeKind} (h : kind.isSubroutine = false) :
    (s.enter kind).taken = s.taken := by
  have : ({ kind } : Scope).isSubroutine = false := h
  simp [taken, enter, taken.go, this]

/-- One scope more is opened inside the subroutine. -/
theorem Inner.enter {k : Nat} {s : Scopes} {kind : ScopeKind} (h : Inner k s.stack)
    (hk : kind.isSubroutine = false) : Inner (k + 1) (s.enter kind).stack := by
  intro a ha
  rcases List.mem_cons.mp ha with rfl | ha
  · exact hk
  · exact h a ha

/-- A scope inside the subroutine gives no slots back when it is left. -/
theorem Inner.leave {k : Nat} {s : Scopes} (h : Inner (k + 1) s.stack) :
    s.leave.taken = s.taken ∧ Inner k s.leave.stack := by
  simp only [taken, Scopes.leave]
  cases hs : s.stack with
  | nil => exact ⟨rfl, by simp [Inner]⟩
  | cons a r =>
      rw [hs] at h
      have ha : a.isSubroutine = false := h a (by simp)
      exact ⟨by simp [taken.go, ha], fun b hb => h b (List.mem_cons_of_mem a hb)⟩

/-- The loop around a place depends on the kinds of the scopes only. -/
theorem innermostLoop?_congr {s s' : Scopes}
    (h : s'.stack.map (·.kind) = s.stack.map (·.kind)) : s'.innermostLoop? = s.innermostLoop? := by
  have : ∀ {r r' : List Scope}, r'.map (·.kind) = r.map (·.kind) →
      innermostLoop?.go r' = innermostLoop?.go r := by
    intro r
    induction r with
    | nil =>
        intro r' h
        obtain rfl : r' = [] := by simpa using h
        rfl
    | cons a r ih =>
        intro r' h
        cases r' with
        | nil => simp at h
        | cons a' r' =>
            simp only [List.map_cons, List.cons.injEq] at h
            simp [innermostLoop?.go, h.1, ih h.2]
  exact this h

end Scopes

end StackScript
