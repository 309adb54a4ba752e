import StackScript.Proofs.Faults.Halting

/-!
# Slots in the order they are given out

Any sequence of operations on the scopes, whether or not they fail, gives out the slots of each subroutine in
order.  The number of the next slot stands in the scope of the subroutine (`Owns`), names stand in the
innermost scope: so closing scopes releases no slot, and a subroutine inside another one counts for itself.

* `ScopeOp.perform_request`, `ScopeOp.perform_other`: what an operation does that asks for a new slot, and what
  any other one does.
* `Owns.perform`: the scope of a subroutine counts the slots it has given out.
* `Scopes.givenOut`: the slots that a sequence of operations gives out for a subroutine.
* `slots_in_order`: these are `0`, `1`, `2` and so on, and beyond the last slot number there are none.
-/

namespace StackScript

open Scopes

/-- A step that ends is followed by what comes behind it. -/
theorem Step.bind_of_ok {σ α β : Type} {x : Step σ α} {f : α → Step σ β} {s s' : σ} {a : α}
    (h : x s = (.ok a, s')) : (x >>= f) s = f a s' := by
  show Step.bind x f s = f a s'
  rw [Step.bind, h]

/-! ### Operations -/

/-- An operation on the open scopes. -/
inductive ScopeOp where
  | enter (kind : ScopeKind)
  | pop
  | alloc
  | declare (name : String) (type : ValueType)
  | bind (name : String) (slot : Slot) (type : ValueType)
  | argument (name : String) (type : ValueType)

namespace ScopeOp

/-- Performs the operation.  It yields a slot, unless it is not about one. -/
def perform : ScopeOp → Step Scopes (Option Slot)
  | .enter kind => do
    Step.update (·.enter kind)
    return none
  | .pop => do
    let _ ← Scopes.pop
    return none
  | .alloc => do
    return some (← Scopes.alloc)
  | .declare name type => do
    return some (← Scopes.declare name type)
  | .bind name slot type => do
    Scopes.bind name slot type
    return none
  | .argument name type => do
    return some (← Scopes.bindArgument name type)

/-- The operation asks for a new slot: a declaration does if the innermost scope does not bind the name, and
an argument if that is the scope of a subroutine. -/
def requests (s : Scopes) : ScopeOp → Bool
  | .alloc => true
  | .declare name _ => s.stack.head?.any fun top => (top.binding? name).isNone
  | .argument _ _ => s.stack.head?.any Scope.isSubroutine
  | .enter _ | .pop | .bind _ _ _ => false

/-- The new slot that the operation gives out. -/
def given? (s : Scopes) (op : ScopeOp) : Option Slot :=
  if op.requests s then (op.perform s).1.toOption.join else none

/-- **An operation that fails changes nothing.** -/
theorem perform_error {op : ScopeOp} {s s' : Scopes} {f : Fault} (h : op.perform s = (.error f, s')) :
    s' = s := by
  -- What is yielded is put together behind the operation, which does not fail.
  have hmap {α : Type} {x : Step Scopes α} {g : α → Option Slot} (hx : Step.Clean x)
      (h : (x >>= fun a => pure (g a)) s = (.error f, s')) : s' = s := by
    rcases Step.bind_eq_error.mp h with h | ⟨a, t, -, h⟩
    · exact hx h
    · cases h
  cases op with
  | enter kind => exact hmap (g := fun _ => none) (Step.Clean.ends .update) h
  | pop =>
      refine hmap (x := Scopes.pop) (g := fun _ => none) (fun {f s s'} h => ?_) h
      unfold Scopes.pop at h
      split at h <;> cases h
      rfl
  | alloc => exact hmap Step.Clean.alloc h
  | declare name type => exact hmap Step.Clean.declare h
  | bind name slot type => exact hmap (g := fun _ => none) Step.Clean.bind h
  | argument name type => exact hmap Step.Clean.bindArgument h

end ScopeOp

/-! ### New slots -/

namespace Scopes

/-- The scopes are the same but for names. -/
def Alike (r r' : List Scope) : Prop :=
  r'.map (fun a => (a.kind, a.nextSlot)) = r.map fun a => (a.kind, a.nextSlot)

/-- A new slot is the next one of the subroutine, as long as there are any. -/
theorem alloc_eq {s : Scopes} (h : s.stack.any Scope.isSubroutine = true) :
    alloc s = if s.taken < UInt16.size then (.ok s.taken.toUInt16, ⟨bump s.stack⟩)
      else (.error .tooManyLocals, s) := by
  have hgo : ∀ {r : List Scope}, r.any Scope.isSubroutine = true → alloc.go r =
      if taken.go r < UInt16.size then (.ok (taken.go r).toUInt16, bump r)
      else (.error .tooManyLocals, r) := by
    intro r
    induction r with
    | nil => simp
    | cons a r ih =>
        intro h
        cases ha : a.isSubroutine with
        | true => simp [alloc.go, taken.go, bump, ha]
        | false =>
            simp only [alloc.go, taken.go, bump, ha, ih (by simpa [ha] using h), Bool.false_eq_true, if_false]
            split <;> rfl
  unfold alloc
  rw [hgo h]
  by_cases hlt : taken.go s.stack < UInt16.size
  · rw [if_pos hlt, if_pos (show s.taken < UInt16.size from hlt)]
    rfl
  · rw [if_neg hlt, if_neg (show ¬ s.taken < UInt16.size from hlt)]

theorem bump_cons {a : Scope} {r : List Scope} : ∃ a' r', bump (a :: r) = a' :: r' := by
  unfold bump
  split <;> exact ⟨_, _, rfl⟩

end Scopes

namespace ScopeOp

variable {op : ScopeOp} {s s' : Scopes}

/-- A request takes a slot, and then perhaps binds a name. -/
theorem request_eq (h : op.requests s = true) :
    ∃ k : Slot → Step Scopes (Option Slot), op.perform s = (Scopes.alloc >>= k) s ∧
      ∀ {slot a r}, ∃ r', k slot ⟨a :: r⟩ = (.ok (some slot), ⟨r'⟩) ∧ Alike (a :: r) r' := by
  cases op with
  | enter kind | pop | bind name slot type => cases h
  | alloc => exact ⟨fun slot => pure (some slot), rfl, ⟨_, rfl, rfl⟩⟩
  | declare name type =>
      refine ⟨fun slot => do
        Scopes.bind name slot type
        return some slot, ?_, ⟨_, rfl, rfl⟩⟩
      cases hstack : s.stack with
      | nil => simp [requests, hstack] at h
      | cons a r =>
          have hnone : a.binding? name = none := by simpa [requests, hstack] using h
          have hcheck : Step.check (fun s : Scopes => s.top.map (·.binding? name)) s = (.ok none, s) := by
            simp [Step.check, top, hstack, hnone, Except.map]
          simp only [perform, Scopes.declare, Step.bind_assoc]
          rw [Step.bind_of_ok hcheck]
          simp only [Step.bind_assoc, Step.pure_bind]
  | argument name type =>
      cases hstack : s.stack with
      | nil => simp [requests, hstack] at h
      | cons a r =>
          have hsub : a.isSubroutine = true := by simpa [requests, hstack] using h
          have hcheck : Step.check (fun s : Scopes => s.top.map (·.isSubroutine)) s = (.ok true, s) := by
            simp [Step.check, top, hstack, hsub, Except.map]
          apply Exists.intro
          refine ⟨?opened, ?bound⟩
          case opened =>
            simp only [perform, Scopes.bindArgument, Step.bind_assoc]
            rw [Step.bind_of_ok hcheck]
            simp only [if_true, Step.bind_assoc, Step.pure_bind]
            rfl
          case bound => exact ⟨_, rfl, rfl⟩

/-- **A request is granted as long as there are slots.** -/
theorem perform_request (h : op.requests s = true) (hs : s.stack.any Scope.isSubroutine = true) :
    if s.taken < UInt16.size then
      ∃ s', op.perform s = (.ok (some s.taken.toUInt16), s') ∧ Alike (bump s.stack) s'.stack
    else op.perform s = (.error .tooManyLocals, s) := by
  obtain ⟨k, heq, hk⟩ := request_eq h
  have halloc := alloc_eq hs
  rw [heq]
  split
  · rename_i hlt
    rw [if_pos hlt] at halloc
    rw [Step.bind_of_ok halloc]
    cases hstack : s.stack with
    | nil => simp [hstack] at hs
    | cons a r =>
        obtain ⟨a', r', hbump⟩ := bump_cons (a := a) (r := r)
        obtain ⟨r'', hr'', halike⟩ := @hk s.taken.toUInt16 a' r'
        rw [hbump]
        exact ⟨_, hr'', halike⟩
  · rename_i hlt
    rw [if_neg hlt] at halloc
    exact Step.bind_eq_error.mpr (.inl halloc)

/-- **Any other operation** opens a scope, closes one, or leaves all but names as it was. -/
theorem perform_other (h : op.requests s = false) :
    (∃ kind, (op.perform s).2 = s.enter kind) ∨ (∃ a, s.stack = a :: (op.perform s).2.stack) ∨
      Alike s.stack (op.perform s).2.stack := by
  -- An operation that fails leaves the scopes as they were.
  rcases hp : op.perform s with ⟨result, s'⟩
  cases result with
  | error f =>
      obtain rfl := perform_error hp
      exact .inr (.inr rfl)
  | ok found =>
      cases op with
      | enter kind =>
          obtain ⟨_, t, ht, hp⟩ := Step.bind_eq_ok.mp hp
          cases ht
          cases hp
          exact .inl ⟨kind, rfl⟩
      | pop =>
          obtain ⟨a, t, ht, hp⟩ := Step.bind_eq_ok.mp hp
          obtain ⟨-, rfl⟩ := Step.pure_eq_ok.mp hp
          unfold Scopes.pop at ht
          split at ht <;> cases ht
          exact .inr (.inl ⟨a, ‹_›⟩)
      | bind name slot type =>
          obtain ⟨_, t, ht, hp⟩ := Step.bind_eq_ok.mp hp
          obtain ⟨-, rfl⟩ := Step.pure_eq_ok.mp hp
          obtain ⟨a, r, hs, hs'⟩ := bind_ok ht
          refine .inr (.inr ?_)
          rw [Alike, hs, hs']
          rfl
      | alloc => cases h
      | declare name type =>
          obtain ⟨slot, t, ht, hp⟩ := Step.bind_eq_ok.mp hp
          obtain ⟨-, rfl⟩ := Step.pure_eq_ok.mp hp
          obtain ⟨a, r, hs, ⟨-, -, -, rfl⟩ | ⟨_, hnone, -⟩⟩ := declare_ok ht
          · exact .inr (.inr rfl)
          · simp [requests, hs, hnone] at h
      | argument name type =>
          obtain ⟨slot, t, ht, hp⟩ := Step.bind_eq_ok.mp hp
          obtain ⟨a, r, hs, hsub, -⟩ := bindArgument_ok ht
          simp [requests, hs, hsub] at h

end ScopeOp

/-! ### The scope of a subroutine -/

namespace Scopes

/-- How many scopes there are around that of the current subroutine. -/
def routineDepth? (s : Scopes) : Option Nat := (s.enclosing? .subroutine).map (·.2.depth)

/-- The scope with `base` others around it is that of a subroutine which has given out `n` slots.  It is the
nearest one of a subroutine if `near` is true. -/
inductive Owns (base n : Nat) : Bool → List Scope → Prop where
  | here {a : Scope} {r : List Scope} : a.isSubroutine = true → a.nextSlot = n → r.length = base →
      Owns base n true (a :: r)
  | inside {near : Bool} {a : Scope} {r : List Scope} : Owns base n near r →
      Owns base n (near && !a.isSubroutine) (a :: r)

namespace Owns

variable {base n : Nat} {near : Bool} {r r' : List Scope}

theorem length_lt (h : Owns base n near r) : base < r.length := by
  induction h with
  | here _ _ hbase => simp [hbase]
  | inside _ ih => exact Nat.lt_succ_of_lt ih

/-- A subroutine that is open is among the scopes. -/
theorem any_isSubroutine (h : Owns base n near r) : r.any Scope.isSubroutine = true := by
  induction h with
  | here ha => simp [ha]
  | inside _ ih => simp [ih]

/-- The subroutine is the current one exactly if it is the nearest. -/
theorem routineDepth? {s : Scopes} (h : Owns base n near s.stack) :
    s.routineDepth? = some base ↔ near = true := by
  have hgo : ∀ {near : Bool} {r : List Scope}, Owns base n near r →
      ((enclosing?.go .subroutine r).map (·.2.depth) = some base ↔ near = true) := by
    intro near r h
    induction h with
    | here ha _ hbase =>
        have hkind : ScopeKind.tag _ = .subroutine := of_decide_eq_true ha
        simp [enclosing?.go, hkind, depth, hbase]
    | @inside near a r hr ih =>
        cases ha : a.isSubroutine with
        | true =>
            have hkind : a.kind.tag = .subroutine := of_decide_eq_true ha
            simpa [enclosing?.go, hkind, depth] using Nat.ne_of_gt hr.length_lt
        | false =>
            have hkind : a.kind.tag ≠ .subroutine := of_decide_eq_false ha
            simpa [enclosing?.go, hkind] using ih
  exact hgo h

/-- The slots taken are those that the nearest subroutine has given out. -/
theorem taken (h : Owns base n near r) (hnear : near = true) : taken.go r = n := by
  induction h with
  | here ha hn => simp [taken.go, ha, hn]
  | inside _ ih =>
      obtain ⟨hnear, ha⟩ := Bool.and_eq_true_iff.mp hnear
      simpa [taken.go, Bool.not_eq_true' _ ▸ ha] using ih hnear

theorem alike (h : Owns base n near r) (hr : Alike r r') : Owns base n near r' := by
  induction h generalizing r' with
  | here ha hn hbase =>
      cases r' with
      | nil => cases hr
      | cons a' r' =>
          obtain ⟨hhead, htail⟩ := List.cons.inj hr
          obtain ⟨hkind, hnext⟩ := Prod.mk.inj hhead
          refine .here ?_ (hnext.trans hn) ?_
          · rwa [Scope.isSubroutine, hkind]
          · simpa [hbase] using congrArg List.length htail
  | inside _ ih =>
      cases r' with
      | nil => cases hr
      | cons a' r' =>
          obtain ⟨hhead, htail⟩ := List.cons.inj hr
          rw [Scope.isSubroutine, ← (Prod.mk.inj hhead).1]
          exact .inside (ih htail)

/-- One more slot is counted by the nearest subroutine, and by no other. -/
theorem bump (h : Owns base n near r) : Owns base (n + near.toNat) near (bump r) := by
  induction h with
  | here ha hn hbase =>
      rw [Scopes.bump, if_pos ha]
      exact .here ha (by simp [hn]) hbase
  | @inside near a r hr ih =>
      cases ha : a.isSubroutine with
      | true =>
          have hsame := hr.inside (a := { a with nextSlot := a.nextSlot + 1 })
          rw [Scopes.bump, if_pos ha]
          simpa [Scope.isSubroutine, show a.kind.isSubroutine = true from ha] using hsame
      | false =>
          have hsame := ih.inside (a := a)
          rw [Scopes.bump, if_neg (by simp [ha])]
          simpa [ha] using hsame

end Owns

/-! ### Sequences of operations -/

/-- The scopes behind a sequence of operations, of which any may fail. -/
def after (s : Scopes) (ops : List ScopeOp) : Scopes := ops.foldl (fun s op => (op.perform s).2) s

/-- The slot that the operation gives out, if the current subroutine is the one with `base` scopes around
it. -/
def given (base : Nat) (s : Scopes) (op : ScopeOp) : List Slot :=
  if s.routineDepth? = some base then (op.given? s).toList else []

/-- The slots that the operations give out while the subroutine with `base` scopes around it is the current
one. -/
def givenOut (base : Nat) (s : Scopes) : List ScopeOp → List Slot
  | [] => []
  | op :: ops => given base s op ++ givenOut base (op.perform s).2 ops

/-- The scope with `base` others around it is open throughout the operations. -/
def Lives (base : Nat) (s : Scopes) (ops : List ScopeOp) : Prop :=
  ∀ k ≤ ops.length, base < (s.after (ops.take k)).depth

instance {base : Nat} {s : Scopes} {ops : List ScopeOp} : Decidable (Lives base s ops) :=
  inferInstanceAs (Decidable (∀ k ≤ ops.length, base < (s.after (ops.take k)).depth))

theorem Lives.tail {base : Nat} {s : Scopes} {op : ScopeOp} {ops : List ScopeOp}
    (h : Lives base s (op :: ops)) : Lives base (op.perform s).2 ops :=
  fun k hk => h (k + 1) (Nat.succ_le_succ hk)

theorem Lives.lt {base : Nat} {s : Scopes} {ops : List ScopeOp} (h : Lives base s ops) : base < s.depth :=
  h 0 (Nat.zero_le _)

namespace Owns

variable {base n : Nat} {near : Bool} {s : Scopes} {op : ScopeOp} {ops : List ScopeOp}

/-- The subroutine gives a slot exactly if it is the nearest one, a slot is asked for and one is left. -/
theorem given_eq (h : Owns base n near s.stack) :
    given base s op =
      if near = true ∧ op.requests s = true ∧ n < UInt16.size then [n.toUInt16] else [] := by
  unfold given ScopeOp.given?
  cases near with
  | false => simp [h.routineDepth?]
  | true =>
      have htaken : s.taken = n := h.taken rfl
      cases hreq : op.requests s with
      | false => simp
      | true =>
          have hresult := ScopeOp.perform_request hreq h.any_isSubroutine
          rw [htaken] at hresult
          by_cases hlt : n < UInt16.size
          · rw [if_pos hlt] at hresult
            obtain ⟨s', hs', -⟩ := hresult
            simp [h.routineDepth?, hs', hlt, Except.toOption]
          · rw [if_neg hlt] at hresult
            simp [hresult, hlt, Except.toOption]

/-- **The scope of a subroutine counts the slots it has given out.** -/
theorem perform (h : Owns base n near s.stack) (hlive : base < (op.perform s).2.depth) :
    ∃ near', Owns base (n + (given base s op).length) near' (op.perform s).2.stack := by
  rw [h.given_eq]
  -- A request counts here only if no other subroutine stands in between, which is what `near` tells.
  cases hreq : op.requests s with
  | true =>
      have hresult := ScopeOp.perform_request hreq h.any_isSubroutine
      refine ⟨near, ?_⟩
      split at hresult
      · rename_i hlt
        obtain ⟨s', hs', halike⟩ := hresult
        have hlength : (if near = true ∧ true = true ∧ n < UInt16.size then [n.toUInt16] else []).length =
            near.toNat := by
          cases near with
          | false => rfl
          | true =>
              have htaken : s.taken = n := h.taken rfl
              simp [← htaken, hlt]
        rw [hlength, hs']
        exact h.bump.alike halike
      · rename_i hlt
        have hnone : ¬ (near = true ∧ true = true ∧ n < UInt16.size) := by
          rintro ⟨rfl, -, hn⟩
          have htaken : s.taken = n := h.taken rfl
          exact hlt (htaken ▸ hn)
        rw [if_neg hnone, hresult]
        exact h
  | false =>
      simp only [Bool.false_eq_true, false_and, and_false, if_false, List.length_nil, Nat.add_zero]
      rcases ScopeOp.perform_other hreq with ⟨kind, heq⟩ | ⟨a, hstack⟩ | halike
      · rw [heq]
        exact ⟨_, .inside h⟩
      · rw [hstack] at h
        cases h with
        | here _ _ hbase => exact absurd hlive (by simp [depth, hbase])
        | inside h => exact ⟨_, h⟩
      · exact ⟨near, h.alike halike⟩

/-- **The slots of a subroutine are given out one after the other.** -/
theorem givenOut (h : Owns base n near s.stack) (hn : n ≤ UInt16.size) (hlives : Lives base s ops) :
    (givenOut base s ops).map (·.toNat) = List.range' n (givenOut base s ops).length ∧
      n + (givenOut base s ops).length ≤ UInt16.size ∧
      ∃ near', Owns base (n + (givenOut base s ops).length) near' (s.after ops).stack := by
  induction ops generalizing s n near with
  | nil => exact ⟨rfl, hn, near, h⟩
  | cons op ops ih =>
      obtain ⟨near', h'⟩ := h.perform hlives.tail.lt
      have hfirst : (given base s op).map (·.toNat) = List.range' n (given base s op).length ∧
          n + (given base s op).length ≤ UInt16.size := by
        rw [h.given_eq]
        split
        · rename_i hnew
          exact ⟨by simpa using Nat.mod_eq_of_lt hnew.2.2, hnew.2.2⟩
        · exact ⟨rfl, hn⟩
      obtain ⟨hrest, hle, hafter⟩ := ih h' hfirst.2 hlives.tail
      simp only [Scopes.givenOut, List.map_append, List.length_append, ← Nat.add_assoc, ← List.range'_append_1]
      exact ⟨by rw [hfirst.1, hrest], hle, hafter⟩

end Owns

end Scopes

/-- **Slots are numbered in order.**  Let a subroutine's scope be opened behind any sequence of operations on
no scopes, and let it stay open throughout a second sequence.

* The slots newly given out while it is the nearest scope of a subroutine are `0`, `1`, `2` and so on, and at
  most as many as there are slot numbers.
* Whatever is asked for next while it is the nearest one gets the next slot, or fails if all are given out.

Any operation that fails, in any scopes, leaves them as they are. -/
theorem slots_in_order :
    (∀ (before ops : List ScopeOp) (type : ValueType),
      let outer := Scopes.after {} before
      let opened := outer.enter (.subroutine type)
      Lives outer.depth opened ops →
        let given := givenOut outer.depth opened ops
        given.map (·.toNat) = List.range given.length ∧ given.length ≤ UInt16.size ∧
        ∀ op : ScopeOp, (opened.after ops).routineDepth? = some outer.depth →
          op.requests (opened.after ops) = true →
          (op.perform (opened.after ops)).1 =
            if given.length < UInt16.size then .ok (some given.length.toUInt16)
            else .error .tooManyLocals) ∧
    ∀ (op : ScopeOp) (s s' : Scopes) (f : Fault), op.perform s = (.error f, s') → s' = s := by
  refine ⟨fun before ops type => ?_, fun op s s' f => ScopeOp.perform_error⟩
  intro outer opened hlives given
  have hopened : Owns outer.depth 0 true opened.stack := .here rfl rfl rfl
  obtain ⟨hslots, hle, near, howns⟩ := hopened.givenOut (Nat.zero_le _) hlives
  rw [Nat.zero_add] at hle howns
  refine ⟨by rw [hslots, List.range_eq_range'], hle, fun op hnear hreq => ?_⟩
  have htaken : (opened.after ops).taken = given.length := howns.taken (howns.routineDepth?.mp hnear)
  have hresult := ScopeOp.perform_request hreq howns.any_isSubroutine
  rw [htaken] at hresult
  split at hresult
  · obtain ⟨s', hs', -⟩ := hresult
    rw [hs', if_pos ‹_›]
  · rw [hresult, if_neg ‹_›]

/-- Operations with a block, in which a name is declared twice, and a subroutine in the block. -/
def nestedOps : List ScopeOp :=
  [.argument "$a" .int, .enter .block, .declare "$x" .unknown, .enter (.subroutine .unknown), .alloc, .pop,
    .declare "$x" .str, .alloc, .pop, .alloc]

/-- Inside a subroutine that has given out a slot already, these operations give out four slots, and a fifth
one is to come. -/
theorem slots_in_order_nested :
    let outer := Scopes.after {} [.enter (.subroutine .unknown), .alloc]
    let opened := outer.enter (.subroutine .int)
    Lives outer.depth opened nestedOps ∧
      (givenOut outer.depth opened nestedOps).map (·.toNat) = [0, 1, 2, 3] ∧
      (ScopeOp.alloc.perform (opened.after nestedOps)).1 = .ok (some 4) := by
  intro outer opened
  have hlives : Lives outer.depth opened nestedOps := by decide +kernel
  have hlength : (givenOut outer.depth opened nestedOps).length = 4 := by decide +kernel
  obtain ⟨hslots, -, hnext⟩ := slots_in_order.1 _ nestedOps .int hlives
  rw [hlength] at hslots hnext
  exact ⟨hlives, hslots, hnext .alloc (by decide +kernel) rfl⟩

end StackScript
