import StackScript.Proofs.Slots.Given
import StackScript.Proofs.Slots.Hidden
import StackScript.Proofs.Stack.Exits

/-!
# Templates and the slots of loops

Of the templates of the table, only that of a `for` loop gets a slot to count in, and only it and that of
`next` store to a slot that need not be a variable's.

* `Unfolds.counting`: a template that opens a loop that counts is that of a `for` loop.
* `Unfolds.store_counting`: where it stores to the slot it counts in.
* `Unfolds.next_of_store`: a template that stores to the slot of a loop around it is that of `next`.
* `Unfolds.frame`: the template of a subroutine does neither.
-/

namespace StackScript

open Scopes

/-- A move of a template that has been interpreted has been interpreted. -/
theorem exists_act_of_mem {S : Type} {act : S → Move → Option S} {ms : List Move} {m : Move} {s s' : S}
    (h : ms.foldlM act s = some s') (hm : m ∈ ms) : ∃ t t', act t m = some t' := by
  induction ms generalizing s with
  | nil => cases hm
  | cons m' ms ih =>
      obtain ⟨s₁, hs₁, h⟩ := Move.foldlM_cons.mp h
      rcases List.mem_cons.mp hm with rfl | hm
      · exact ⟨s, s₁, hs₁⟩
      · exact ih h hm

/-- Only a declaration opens the scope of a subroutine. -/
theorem Unfolds.enters_subroutine {p : Piece} {ms : List Move} {b : Bool} {type : ValueType}
    (h : Unfolds p ms b) (hm : .enter (.subroutine type) ∈ ms) : p.isSub = true := by
  by_contra hp
  obtain ⟨known, hslots⟩ := h.slots (Piece.ne_sub (by simpa using hp)) 0 []
  obtain ⟨S, S', hS⟩ := exists_act_of_mem hslots hm
  cases hS

/-- The template of a loop that counts. -/
def Move.counting (name : String) (iterable : Expr) (body : List Stmt) (done top : Label)
    (index item : Slot) : List Move :=
  [.alloc index, .alloc item, .newLabel done, .newLabel top, .emit (.pushInt 0), .emit (.store index),
    .piece (.expr iterable) true, .op .dup, .emit (.callBuiltin .elems 1),
    .enter (.loop (.forEach done top index item)), .bind name item .unknown, .mark top,
    .emit (.load index), .emit (.dupN 1), .emit (.jumpIfGreaterOrEqual done), .emit (.dupN 1),
    .emit (.load index), .op .arrayGet, .emit (.store item), .piece (.stmts body) true,
    .emit (.load index), .emit (.pushInt 1), .op .add, .emit (.store index), .emit (.jump top),
    .mark done, .op .pop, .op .pop, .leave]

/-- Only `for` loops count. -/
theorem Unfolds.counting {p : Piece} {ms : List Move} {b : Bool} {c : LoopControl} {index : Slot}
    (h : Unfolds p ms b) (hc : .enter (.loop c) ∈ ms) (hi : c.index? = some index) :
    ∃ name iterable body done top item, p = .stmt (.forEach name iterable body) ∧
      c = .forEach done top index item ∧
      ms = Move.counting name iterable body done top index item := by
  obtain ⟨s, rfl, hloop, -⟩ := h.enters_loop hc
  cases h with
  | whileLoop =>
      obtain rfl : c = .whileLoop _ _ := by simpa using hc
      cases hi
  | @loop init condition step _ done next =>
      obtain rfl : c = .countedLoop done next := by
        cases init <;> cases condition <;> cases step <;>
          simpa [Move.effect, Move.guarded, Move.block, Move.op] using hc
      cases hi
  | @forEach name iterable body index' item done top =>
      obtain rfl : c = .forEach done top index' item := by
        simpa [Move.increment, Move.op] using hc
      obtain rfl : index' = index := Option.some.inj hi
      exact ⟨name, iterable, body, done, top, item, rfl, rfl, rfl⟩
  | _ => cases hloop

/-- A template that looks for the loop around it and stores to a slot is that of `next`. -/
theorem Unfolds.next_of_store {p : Piece} {ms : List Move} {b : Bool} {c : LoopControl} {s : Slot}
    (h : Unfolds p ms b) (hc : .innermost (some c) ∈ ms) (hs : .emit (.store s) ∈ ms) :
    ∃ span, p = .expr (.call "next" [] span) := by
  cases h with
  | @next span => exact ⟨span, rfl⟩
  | last => simp [Move.op, Instruction.store, Instruction.jump, Instruction.bare] at hs
  | assignVar he | assignVarMismatch he | assignDeclare he | assignDeclareMismatch he | ret he
  | bodyExpr he => cases he <;> simp [Move.op] at hc
  | @argsHeld _ _ q _ _ _ he =>
      cases h : q.copy <;> cases he <;> simp [Move.when, h] at hc
  | retUndef hr =>
      obtain ⟨he⟩ := hr
      cases he <;> simp [Move.op] at hc
  | @sub _ body _ _ _ _ _ _ _ _ hclose =>
      rcases hclose with _ | ⟨⟨he⟩⟩
      · cases h : mentionsArgList body <;> simp [Move.argListSlot, Move.op, h] at hc
      · cases h : mentionsArgList body <;> cases he <;>
          simp [Move.argListSlot, Move.op, h] at hc
  | @checkpoint _ on => cases on <;> simp [Move.when, Move.op] at hc
  | @call _ _ _ _ _ sub => cases h : sub.usesArgList <;> simp [Move.when, h] at hc
  | @cond _ _ _ rest => cases rest <;> simp [Move.block, Move.otherwise] at hc
  | @loop init condition step =>
      cases init <;> cases condition <;> cases step <;>
        simp [Move.effect, Move.guarded, Move.block, Move.op] at hc
  | @package kind => cases kind <;> simp [Move.declareModule, Move.block] at hc
  | _ => simp [Move.op, Move.block, Move.increment] at hc

namespace Move

variable {T T' : Tally} {m : Move}

/-- Opening a scope uses up the slot that waits for a loop, or leaves it waiting. -/
theorem tally_enter {kind : ScopeKind} (h : Move.tally T (.enter kind) = some T') :
    ∃ index, T' = { T with opened := T.opened + 1, index := index } ∧
      (index = T.index ∨ index = none) := by
  rcases kind with type | _ | control
  · simp only [Move.tally, Option.ite_none_right_eq_some, Option.some.injEq] at h
    exact ⟨T.index, h.2.symm, .inl rfl⟩
  · exact ⟨T.index, (Option.some.inj h).symm, .inl rfl⟩
  · rcases control with _ | _ | ⟨done, next, index, item⟩
    · exact ⟨T.index, (Option.some.inj h).symm, .inl rfl⟩
    · exact ⟨T.index, (Option.some.inj h).symm, .inl rfl⟩
    · simp only [Move.tally, Option.ite_none_right_eq_some, Option.some.injEq] at h
      exact ⟨none, h.2.symm, .inr rfl⟩

/-- A loop counts in the slot that has been waiting for it. -/
theorem tally_loop {c : LoopControl} {i : Slot} (h : Move.tally T (.enter (.loop c)) = some T')
    (hi : c.index? = some i) : T.index = some i := by
  cases c with
  | forEach done next index item =>
      simp only [Move.tally, Option.ite_none_right_eq_some] at h
      exact h.1.trans hi
  | _ => cases hi

/-- A template gets one slot to count in, and keeps it. -/
theorem tally_own {i : Slot} (h : Move.tally T m = some T') (hi : T.own = some i) :
    T'.own = some i ∧ (T'.index = T.index ∨ T'.index = none) := by
  cases m with
  | enter kind =>
      obtain ⟨index, rfl, hindex⟩ := tally_enter h
      exact ⟨hi, hindex⟩
  | lookup name found => cases found <;> cases h <;> exact ⟨hi, .inl rfl⟩
  | alloc s =>
      simp only [Move.tally, hi, Option.isNone_some, Bool.false_eq_true, if_false,
        Option.ite_none_left_eq_some, Option.ite_none_right_eq_some, Option.some.injEq] at h
      obtain ⟨-, -, rfl⟩ := h
      exact ⟨rfl, .inl rfl⟩
  | innermost found =>
      cases found with
      | none =>
          cases h
          exact ⟨hi, .inl rfl⟩
      | some c =>
          simp only [Move.tally, Option.ite_none_right_eq_some, Option.some.injEq] at h
          obtain ⟨-, rfl⟩ := h
          exact ⟨hi, .inl rfl⟩
  | bind | leave | emit =>
      simp only [Move.tally, Option.ite_none_right_eq_some, Option.some.injEq] at h
      obtain ⟨-, rfl⟩ := h
      exact ⟨hi, .inl rfl⟩
  | _ =>
      cases h
      exact ⟨hi, .inl rfl⟩

/-- The loop of a template is the one that it has looked for. -/
theorem tally_found (h : Move.tally T m = some T') :
    T'.found = T.found ∨ ∃ c, m = .innermost (some c) ∧ T'.found = some c := by
  cases m with
  | enter kind =>
      obtain ⟨index, rfl, -⟩ := tally_enter h
      exact .inl rfl
  | lookup name found => cases found <;> cases h <;> exact .inl rfl
  | alloc s =>
      simp only [Move.tally] at h
      split at h
      · simp only [Option.ite_none_right_eq_some, Option.some.injEq] at h
        obtain ⟨-, rfl⟩ := h
        exact .inl rfl
      · simp only [Option.ite_none_right_eq_some, Option.some.injEq] at h
        obtain ⟨-, rfl⟩ := h
        exact .inl rfl
  | innermost found =>
      cases found with
      | none =>
          cases h
          exact .inl rfl
      | some c =>
          simp only [Move.tally, Option.ite_none_right_eq_some, Option.some.injEq] at h
          obtain ⟨-, rfl⟩ := h
          exact .inr ⟨c, rfl, rfl⟩
  | bind | leave | emit =>
      simp only [Move.tally, Option.ite_none_right_eq_some, Option.some.injEq] at h
      obtain ⟨-, rfl⟩ := h
      exact .inl rfl
  | _ =>
      cases h
      exact .inl rfl

end Move

/-- Where the template of a loop stores to the slot it counts in, if no name has that slot. -/
theorem Unfolds.store_counting {p : Piece} {ms₀ ms : List Move} {b : Bool} {c : LoopControl} {s : Slot}
    {T : Tally} (h : Unfolds p (ms₀ ++ .emit (.store s) :: ms) b)
    (hT : ms₀.foldlM Move.tally {} = some T)
    (hc : .enter (.loop c) ∈ ms₀ ++ .emit (.store s) :: ms) (hi : c.index? = some s) :
    s ∈ T.named ∨ (∃ iterable ns, ms = .piece (.expr iterable) true :: ns) ∨
      ∃ ns, ms = .emit (.jump c.next) :: ns := by
  obtain ⟨name, iterable, body, done, top, item, rfl, rfl, hL⟩ := h.counting hc hi
  have hsuffix : Move.emit (.store s) :: ms <:+ _ := ⟨ms₀, hL⟩
  simp only [Move.counting, List.suffix_cons_iff, List.suffix_nil, List.cons.injEq, Move.emit.injEq,
    Move.op, Instruction.store, Instruction.bare, Instruction.pushInt, Instruction.callBuiltin,
    Instruction.load, Instruction.dupN, Instruction.jump, Instruction.jumpIfGreaterOrEqual,
    Instruction.mk.injEq, Option.some.injEq, Operand.slot.injEq, reduceCtorEq, true_and, false_and,
    false_or, or_false] at hsuffix
  rcases hsuffix with rfl | ⟨rfl, rfl⟩ | rfl
  · exact .inr (.inl ⟨iterable, _, rfl⟩)
  · -- What is stored here is the element, which the loop has bound its variable to.
    obtain rfl : ms₀ = (Move.counting name iterable body done top s s).take 18 :=
      List.append_cancel_right hL
    left
    obtain rfl : _ = T := by
      simpa [Move.counting, Move.tally, Tally.idle, Tally.stores, Move.op, Instruction.stored?,
        Instruction.bare, Instruction.load, Instruction.store, Instruction.pushInt, Instruction.dupN,
        Instruction.jumpIfGreaterOrEqual, Instruction.callBuiltin] using hT
    simp
  · exact .inr (.inr ⟨_, rfl⟩)

/-- A template opens one loop at most that counts. -/
theorem Unfolds.counting_unique {p : Piece} {ms : List Move} {b : Bool} {c c' : LoopControl}
    {i j : Slot} (h : Unfolds p ms b) (hc : .enter (.loop c) ∈ ms) (hc' : .enter (.loop c') ∈ ms)
    (hi : c.index? = some i) (hj : c'.index? = some j) : c = c' := by
  obtain ⟨name, iterable, body, done, top, item, -, rfl, rfl⟩ := h.counting hc hi
  obtain rfl : c' = .forEach done top i item := by simpa [Move.counting, Move.op] using hc'
  rfl

/-- Behind moves that have been tallied, the others can be. -/
theorem Unfolds.tally_rest {p : Piece} {L ms₀ ms : List Move} {b : Bool} {T : Tally}
    (h : Unfolds p L b) (hL : L = ms₀ ++ ms) (hT : ms₀.foldlM Move.tally {} = some T) :
    ∃ T', ms.foldlM Move.tally T = some T' := by
  obtain ⟨T', hT'⟩ := h.tally
  rw [hL, List.foldlM_append, hT] at hT'
  exact ⟨T', hT'⟩

/-- The move neither gets a slot for a loop to count in nor stores to one. -/
def Move.Harmless (m : Move) : Prop := ∀ s, m ≠ .alloc s ∧ m ≠ .emit (.store s)

/-- The moves that are not harmless. -/
def Move.counts : Move → Bool
  | .alloc _ => true
  | .emit ⟨.storeLocal, _⟩ => true
  | _ => false

theorem Move.harmless_of_counts {ms : List Move} (h : ms.all (!·.counts) = true) :
    ∀ m ∈ ms, m.Harmless := by
  intro m hm s
  have hm := List.all_eq_true.mp h m hm
  constructor <;> rintro rfl <;> cases hm

theorem Closes.counts {s : Span} {ends : Bool} {ms : List Move} (h : Closes s ends ms) :
    ms.all (!·.counts) = true := by
  rcases h with _ | ⟨⟨hc⟩⟩
  · rfl
  · cases hc <;> rfl

/-- The template of a subroutine gets no slots to count in and stores nothing: its body does. -/
theorem Unfolds.frame {p : Piece} {L : List Move} {b : Bool} (h : Unfolds p L b) (hp : p.isSub = true) :
    (∀ m ∈ L, m.Harmless) ∧ (Move.pieces L).length ≤ 1 := by
  cases h with
  | subParameter | subRedeclared => exact ⟨Move.harmless_of_counts rfl, Nat.zero_le 1⟩
  | @sub _ body _ _ _ _ _ _ _ _ hclose =>
      refine ⟨Move.harmless_of_counts ?_, by simp [Move.pieces, hclose.pieces]⟩
      simp only [List.all_append, hclose.counts]
      cases mentionsArgList body <;> rfl
  | _ => cases hp

namespace Tally

variable {T T' : Tally} {ms : List Move} {c : LoopControl}

/-- The slots that a template may store to: those of names, its own, and that of the loop it has found. -/
theorem stores_iff {s : Slot} : T.stores s = true ↔
    s ∈ T.named ∨ T.own = some s ∨ ∃ c, T.found = some c ∧ c.index? = some s := by
  simp [stores, Option.bind_eq_some_iff]

theorem found_mem (h : ms.foldlM Move.tally T = some T') (hT : T.found = none)
    (hc : T'.found = some c) : .innermost (some c) ∈ ms := by
  suffices hall : T.found = some c ∨ .innermost (some c) ∈ ms by simpa [hT] using hall
  clear hT
  induction ms generalizing T with
  | nil =>
      obtain rfl : T = T' := by simpa using h
      exact .inl hc
  | cons m ms ih =>
      obtain ⟨T₁, hT₁, h⟩ := Move.foldlM_cons.mp h
      rcases ih h with hfound | hmem
      · rcases Move.tally_found hT₁ with he | ⟨c', rfl, he⟩
        · exact .inl (he ▸ hfound)
        · obtain rfl : c' = c := Option.some.inj (he.symm.trans hfound)
          exact .inr List.mem_cons_self
      · exact .inr (List.mem_cons_of_mem _ hmem)

/-- The slot in which a loop counts is the first that its template is given. -/
theorem own_index {i index : Slot} (h : ms.foldlM Move.tally T = some T') (hown : T.own = some i)
    (hindex : ∀ {j}, T.index = some j → j = i) (hc : .enter (.loop c) ∈ ms)
    (hi : c.index? = some index) : index = i := by
  induction ms generalizing T with
  | nil => cases hc
  | cons m ms ih =>
      obtain ⟨T₁, hT₁, h⟩ := Move.foldlM_cons.mp h
      rcases List.mem_cons.mp hc with rfl | hc
      · exact hindex (Move.tally_loop hT₁ hi)
      · obtain ⟨hown₁, hindex₁⟩ := Move.tally_own hT₁ hown
        refine ih h hown₁ (fun {j} hj => ?_) hc
        rcases hindex₁ with he | he
        · exact hindex (he ▸ hj)
        · rw [he] at hj
          cases hj

end Tally

namespace Scopes

/-- The innermost loop is open. -/
theorem mem_loops_of_innermost {s : Scopes} {c : LoopControl} (h : s.innermostLoop? = some c) :
    c ∈ loops s.stack := by
  have : ∀ {stack : List Scope}, innermostLoop?.go stack = some c → c ∈ loops stack := by
    intro stack h
    induction stack with
    | nil => cases h
    | cons a r ih =>
        rw [loops_cons]
        cases hk : a.kind with
        | loop control =>
            obtain rfl : control = c := by simpa [innermostLoop?.go, hk] using h
            simp [ScopeKind.control?]
        | subroutine type => simp [innermostLoop?.go, hk] at h
        | block =>
            have hs : a.isSubroutine = false := by
              simp [Scope.isSubroutine, hk, ScopeKind.isSubroutine, ScopeKind.tag]
            simpa [hs, ScopeKind.control?] using ih (by simpa [innermostLoop?.go, hk] using h)
  exact this h

/-- Opening a scope opens its own loop only. -/
theorem mem_loops_enter {s : Scopes} {kind : ScopeKind} {c : LoopControl}
    (h : c ∈ loops (s.enter kind).stack) : kind = .loop c ∨ c ∈ loops s.stack := by
  rw [Scopes.enter, loops_cons] at h
  rcases List.mem_append.mp h with h | h
  · cases kind <;> simp [ScopeKind.control?] at h
    exact .inl (by rw [h])
  · split at h
    · cases h
    · exact .inr h

/-- Scopes of the same subroutine share the count of slots. -/
theorem Inner.taken_drop {k : Nat} {s : List Scope} (h : Inner k s) :
    taken.go (s.drop k) = taken.go s := by
  induction k generalizing s with
  | zero => rfl
  | succ k ih =>
      cases s with
      | nil => rfl
      | cons a r =>
          have ha : a.isSubroutine = false := h a (by simp)
          rw [taken_of_inner ha, ← ih fun b hb => h b (List.mem_cons_of_mem a hb), List.drop_succ_cons]

/-- Closing a scope of a subroutine brings no names and no loops in. -/
theorem Inner.bound_leave {k n : Nat} {s : Scopes} (h : Inner (k + 1) s.stack)
    (hb : Bound s.leave.stack n) : Bound s.stack n := by
  rw [Scopes.leave] at hb
  cases hs : s.stack with
  | nil => simpa [hs] using hb
  | cons a r =>
      rw [hs] at h hb
      exact bound_cons.mpr (.inr ⟨h a (by simp), hb⟩)

theorem Inner.loops_leave {k : Nat} {s : Scopes} {c : LoopControl} (h : Inner (k + 1) s.stack)
    (hc : c ∈ loops s.leave.stack) : c ∈ loops s.stack := by
  rw [Scopes.leave] at hc
  cases hs : s.stack with
  | nil => simpa [hs] using hc
  | cons a r =>
      rw [hs] at h hc
      have ha : a.isSubroutine = false := h a (by simp)
      rw [loops_cons, ha]
      exact List.mem_append_right _ hc

/-- A name of the scope that is opened last has its slot. -/
theorem bound_bind {s s' : Scopes} {x : String} {slot : Slot} {t : ValueType}
    (h : bind x slot t s = (.ok (), s')) : Bound s'.stack slot.toNat := by
  obtain ⟨a, r, -, hs'⟩ := bind_ok h
  rw [hs']
  exact bound_cons.mpr (.inl ⟨x, ⟨slot, t⟩, by simp [binding?_bind], rfl⟩)

/-- A variable that is declared has its slot bound. -/
theorem bound_declare {s s' : Scopes} {x : String} {slot : Slot} {t : ValueType}
    (h : declare x t s = (.ok slot, s')) : Bound s'.stack slot.toNat := by
  obtain ⟨a, r, hs, ⟨b, hb, rfl, rfl⟩ | ⟨u, -, -, hb⟩⟩ := declare_ok h
  · rw [hs]
    exact bound_cons.mpr (.inl ⟨x, b, hb, rfl⟩)
  · exact bound_bind hb

end Scopes

end StackScript
