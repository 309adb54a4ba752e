import StackScript.Proofs.Meaning.Names
import StackScript.Proofs.Sessions

/-!
# Hidden slots

A `for` loop counts in a slot that has no name.  No variable in scope has that slot either: the slots
of the names and of the loops of a subroutine are all different, at every moment of a lowering.

* `Scopes.Tidy`: no name in scope has the slot of another name or of a loop.
* `Unfolds.tally`: a template uses the slots it is given for one name or one loop each.
* `Program.GoesThrough.tidy`: the scopes are tidy wherever lowering a program goes.
-/

namespace StackScript

/-- The hidden slot in which a loop counts. -/
def LoopControl.index? : LoopControl → Option Slot
  | .forEach _ _ index _ => some index
  | _ => none

namespace Scopes

/-- The scopes of the current subroutine, innermost first and its own scope last. -/
def routine : List Scope → List Scope
  | [] => []
  | a :: r => a :: if a.isSubroutine then [] else routine r

/-- The loops of the current subroutine that are open. -/
def loops (s : List Scope) : List LoopControl := (routine s).filterMap (·.kind.control?)

/-- A loop of the current subroutine counts in the slot. -/
def Counted (s : List Scope) (n : Nat) : Prop := ∃ c ∈ loops s, ∃ i, c.index? = some i ∧ i.toNat = n

/-- The loops of the innermost scope, and those around it as far as the subroutine goes. -/
theorem loops_cons {a : Scope} {r : List Scope} :
    loops (a :: r) = a.kind.control?.toList ++ if a.isSubroutine then [] else loops r := by
  cases ha : a.isSubroutine <;> cases hk : a.kind.control? <;> simp [loops, routine, ha, hk]

/-- A slot is counted in by a loop of the innermost scope, or by one around it in the same subroutine. -/
theorem counted_cons {a : Scope} {r : List Scope} {n : Nat} :
    Counted (a :: r) n ↔
      (∃ c, a.kind = .loop c ∧ ∃ i, c.index? = some i ∧ i.toNat = n) ∨
        a.isSubroutine = false ∧ Counted r n := by
  have hcontrol {c : LoopControl} : a.kind.control? = some c ↔ a.kind = .loop c := by
    cases a.kind <;> simp [ScopeKind.control?]
  unfold Counted
  cases ha : a.isSubroutine <;> simp [loops_cons, ha, hcontrol, or_and_right, exists_or]

/-- Which loops are open depends on the kinds of the scopes only. -/
theorem loops_congr {s s' : List Scope} (h : s'.map (·.kind) = s.map (·.kind)) :
    loops s' = loops s := by
  induction s generalizing s' with
  | nil =>
      obtain rfl : s' = [] := by simpa using h
      rfl
  | cons a r ih =>
      cases s' with
      | nil => cases h
      | cons a' r' =>
          obtain ⟨hk, hr⟩ := List.cons.inj h
          have hk : a'.kind = a.kind := hk
          rw [loops_cons, loops_cons, Scope.isSubroutine, Scope.isSubroutine, hk, ih hr]

/-- Loops are opened and left with their scopes only. -/
theorem Kept.counted {s s' : List Scope} {n : Nat} (h : Kept s s') : Counted s' n ↔ Counted s n := by
  rw [Counted, Counted, loops_congr h.kinds]

/-- The slots in which loops count have been given out, and no name in scope has one, in the current
subroutine and in those around it. -/
def Hidden : List Scope → Prop
  | [] => True
  | a :: r => (∀ {n}, Counted (a :: r) n → n < taken.go (a :: r) ∧ ¬ Bound (a :: r) n) ∧ Hidden r

namespace Hidden

/-- The slot of a loop that is open has been given out, and no name has it. -/
theorem counted {s : List Scope} {n : Nat} (h : Hidden s) (hn : Counted s n) :
    n < taken.go s ∧ ¬ Bound s n := by
  cases s with
  | nil => simp [Counted, loops, routine] at hn
  | cons a r => exact h.1 hn

/-- Names that get slots given out since leave loops alone. -/
theorem counted_kept {s s' : List Scope} {n : Nat} (h : Hidden s) (hk : Kept s s') (hf : Fresh s s')
    (hn : Counted s' n) : n < taken.go s' ∧ ¬ Bound s' n := by
  obtain ⟨hlt, hfree⟩ := h.counted (hk.counted.mp hn)
  refine ⟨Nat.lt_of_lt_of_le hlt hk.taken, fun hb => ?_⟩
  rcases hf n hb with hb | hle
  · exact hfree hb
  · exact absurd hlt (Nat.not_lt.mpr hle)

theorem below {s s' : List Scope} (h : Hidden s) (hb : Below s s') : Hidden s' := by
  induction hb with
  | nil => trivial
  | scope ha hb ih =>
      have hb := Below.scope ha hb
      exact ⟨h.counted_kept (.of_below hb) (.below hb), ih h.2⟩
  | @sub a n r ha hle =>
      have hb : Below (a :: r) ({ a with nextSlot := n } :: r) := .sub ha hle
      exact ⟨h.counted_kept (.of_below hb) (.below hb), h.2⟩

/-- Names that get new slots leave the slots of loops hidden. -/
theorem kept {s s' : List Scope} (h : Hidden s) (hk : Kept s s') (hf : Fresh s s') : Hidden s' := by
  have htop {n : Nat} : Counted s' n → n < taken.go s' ∧ ¬ Bound s' n := h.counted_kept hk hf
  cases hk with
  | nil => trivial
  | scope _ _ hr => exact ⟨htop, h.2.below hr⟩
  | sub _ _ _ => exact ⟨htop, h.2⟩

end Hidden

/-- No name in scope has the slot of another name or of a loop. -/
structure Tidy (s : List Scope) : Prop where
  apart : Apart s
  hidden : Hidden s

/-- The slot has been given out, and neither a name in scope nor a loop has it. -/
structure Free (s : List Scope) (n : Nat) : Prop where
  given : n < taken.go s
  unbound : ¬ Bound s n
  uncounted : ¬ Counted s n

/-- A scope that is opened adds its own loop, and a subroutine hides those around it. -/
theorem counted_enter {s : Scopes} {kind : ScopeKind} {n : Nat} :
    Counted (s.enter kind).stack n ↔
      (∃ c, kind = .loop c ∧ ∃ i, c.index? = some i ∧ i.toNat = n) ∨
        kind.isSubroutine = false ∧ Counted s.stack n := by
  rw [enter, counted_cons]
  rfl

namespace Free

/-- A free slot stays free when names get new slots. -/
theorem kept {s s' : List Scope} {n : Nat} (h : Free s n) (hk : Kept s s') (hf : Fresh s s') :
    Free s' n := by
  refine ⟨Nat.lt_of_lt_of_le h.given hk.taken, fun hb => ?_, fun hc => ?_⟩
  · rcases hf n hb with hb | hle
    · exact h.unbound hb
    · exact absurd h.given (Nat.not_lt.mpr hle)
  · exact h.uncounted (hk.counted.mp hc)

/-- A free slot stays free in a scope of the same subroutine that does not count in it. -/
theorem enter {s : Scopes} {kind : ScopeKind} {n : Nat} (h : Free s.stack n)
    (hkind : kind.isSubroutine = false)
    (hn : ∀ {c i}, kind = .loop c → c.index? = some i → i.toNat ≠ n) :
    Free (s.enter kind).stack n := by
  refine ⟨?_, fun hb => h.unbound (bound_enter.mp hb).2, fun hc => ?_⟩
  · show n < (s.enter kind).taken
    rw [taken_enter hkind]
    exact h.given
  · rcases counted_enter.mp hc with ⟨c, hc, i, hi, he⟩ | ⟨-, hc⟩
    · exact hn hc hi he
    · exact h.uncounted hc

/-- A slot that is new is free. -/
theorem alloc {s s' : Scopes} {slot : Slot} (h : Tidy s.stack) (ha : alloc s = (.ok slot, s')) :
    Free s'.stack slot.toNat := by
  obtain ⟨hslot, hstack, htaken⟩ := alloc_ok ha
  have hnew : ¬ slot.toNat < taken.go s.stack := fun hlt => by
    have : slot.toNat < s.taken := hlt
    omega
  refine ⟨?_, fun hb => ?_, fun hc => ?_⟩
  · show slot.toNat < s'.taken
    omega
  · rw [hstack] at hb
    exact hnew (h.apart.bound_lt (Below.bump.bound.mp hb))
  · rw [hstack] at hc
    exact hnew (h.hidden.counted ((Kept.of_below .bump).counted.mp hc)).1

end Free

namespace Tidy

/-- Names that get slots of their own leave the scopes tidy. -/
theorem kept {s s' : List Scope} (h : Tidy s) (hk : Kept s s')
    (ha : Apart s' ∧ Fresh s s') : Tidy s' :=
  ⟨ha.1, h.hidden.kept hk ha.2⟩

/-- A loop may be opened that counts in a free slot. -/
theorem enter {s : Scopes} {kind : ScopeKind} (h : Tidy s.stack)
    (hkind : ∀ {c i}, kind = .loop c → c.index? = some i → Free s.stack i.toNat) :
    Tidy (s.enter kind).stack := by
  refine ⟨h.apart.enter, fun {n} hn => ?_, h.hidden⟩
  rcases counted_enter.mp hn with ⟨c, rfl, i, hi, rfl⟩ | ⟨hk, hn⟩
  · have hfree := hkind rfl hi
    refine ⟨?_, fun hb => hfree.unbound (bound_enter.mp hb).2⟩
    show i.toNat < (s.enter _).taken
    rw [taken_enter rfl]
    exact hfree.given
  · obtain ⟨hlt, hfree⟩ := h.hidden.counted hn
    refine ⟨?_, fun hb => hfree (bound_enter.mp hb).2⟩
    show n < (s.enter kind).taken
    rw [taken_enter hk]
    exact hlt

/-- The scopes around a tidy one are tidy. -/
theorem leave {s : Scopes} (h : Tidy s.stack) : Tidy s.leave.stack := by
  refine ⟨h.apart.leave, ?_⟩
  have hh := h.hidden
  rw [Scopes.leave]
  cases hs : s.stack with
  | nil => trivial
  | cons a r =>
      rw [hs] at hh
      exact hh.2

/-- A name may get a slot that is free. -/
theorem bind {s s' : Scopes} {name : String} {slot : Slot} {type : ValueType} (h : Tidy s.stack)
    (hslot : Free s.stack slot.toNat) (hb : Scopes.bind name slot type s = (.ok (), s')) :
    Tidy s'.stack ∧ ∀ {n}, Bound s'.stack n → Bound s.stack n ∨ n = slot.toNat := by
  obtain ⟨a, r, hs, hs'⟩ := bind_ok hb
  rw [hs] at h hslot ⊢
  rw [hs']
  have hbound {n : Nat} (hn : Bound (a.bind name ⟨slot, type⟩ :: r) n) :
      Bound (a :: r) n ∨ n = slot.toNat :=
    bound_of_bind (a := a) (b := ⟨slot, type⟩) hn rfl fun y => binding?_bind
  refine ⟨⟨h.apart.bind rfl (fun y => binding?_bind) (Nat.le_refl _) hslot.given hslot.unbound,
    fun {n} hn => ?_, h.hidden.2⟩, hbound⟩
  have hn : Counted (a :: r) n := Kept.bind.counted.mp hn
  refine ⟨(h.hidden.counted hn).1, fun hb => ?_⟩
  rcases hbound hb with hb | rfl
  · exact (h.hidden.counted hn).2 hb
  · exact hslot.uncounted hn

end Tidy

end Scopes

open Scopes

/-! ### Along a template -/

/-- What a template has to do with slots so far. -/
structure Tally where
  /-- The scopes it has opened. -/
  opened : Nat := 0
  /-- A slot for a loop that is not open yet. -/
  index : Option Slot := none
  /-- A slot for a name that is not bound yet. -/
  item : Option Slot := none
  /-- The slot in which its own loop counts. -/
  own : Option Slot := none
  /-- Slots of names in scope. -/
  named : List Slot := []
  /-- The loop it has found around it. -/
  found : Option LoopControl := none

/-- The slot that an instruction stores to. -/
def Instruction.stored? : Instruction → Option Slot
  | ⟨.storeLocal, some (.slot s)⟩ => some s
  | _ => none

namespace Tally

/-- The template may store to the slot. -/
def stores (T : Tally) (s : Slot) : Bool :=
  s ∈ T.named ∨ T.own = some s ∨ T.found.bind LoopControl.index? = some s

/-- No slot is waiting to be used. -/
def idle (T : Tally) : Bool := T.index.isNone && T.item.isNone

end Tally

/-- What comes of the tally by a move; nothing if the move uses a slot that it should not. -/
def Move.tally (T : Tally) : Move → Option Tally
  | .alloc s =>
    if T.idle then if T.own.isNone then some { T with index := some s, own := some s } else none
    else if T.item.isNone then some { T with item := some s } else none
  | .declare _ _ s => some { T with named := s :: T.named }
  | .lookup _ (some b) => some { T with named := b.slot :: T.named }
  | .innermost (some c) => if T.opened = 0 then some { T with found := some c } else none
  | .bind _ s _ =>
    if T.index = none ∧ T.item = some s then some { T with item := none, named := s :: T.named }
    else none
  | .enter (.loop (.forEach _ _ index _)) =>
    if T.index = some index then some { T with opened := T.opened + 1, index := none } else none
  | .enter (.subroutine _) => if T.idle then some { T with opened := T.opened + 1 } else none
  | .enter _ => some { T with opened := T.opened + 1 }
  | .leave =>
    if T.idle ∧ T.opened ≠ 0 then some { T with opened := T.opened - 1, named := [] } else none
  | .emit i => if i.stored?.all T.stores then some T else none
  | _ => some T

section Templates

variable {T : Tally}

theorem Enforces.tally {e : Expr} {type : ValueType} {role : Role} {cs : List Move} {ok : Bool}
    (h : Enforces e type role cs ok) : cs.foldlM Move.tally T = some T := by
  cases h <;> simp [Move.tally, Instruction.stored?, Instruction.toCompatible]

theorem ReturnsUndef.tally {s : Span} {ms : List Move} (h : ReturnsUndef s ms) :
    ms.foldlM Move.tally T = some T := by
  obtain ⟨hc⟩ := h
  simp [Move.tally, Instruction.stored?, Move.op, Instruction.bare, hc.tally]

theorem Closes.tally {s : Span} {ends : Bool} {ms : List Move} (h : Closes s ends ms) :
    ms.foldlM Move.tally T = some T := by
  cases h with
  | returned => simp [Move.tally, Instruction.stored?, Move.op, Instruction.bare]
  | fallen h => exact h.tally

/-- A template uses the slots it is given for one name or one loop each, and stores to slots of names
and of the loops it may count. -/
theorem Unfolds.tally {p : Piece} {ms : List Move} {b : Bool} (h : Unfolds p ms b) :
    ∃ T, ms.foldlM Move.tally {} = some T := by
  cases h with
  | assignVar hc | assignVarMismatch hc | assignDeclare hc | assignDeclareMismatch hc | ret hc
  | bodyExpr hc =>
      simp [Move.tally, Tally.stores, Move.op, Instruction.stored?, Instruction.bare,
        Instruction.store, hc.tally]
  | @argsHeld _ _ p _ _ _ hc =>
      simp only [List.foldlM_append, hc.tally]
      cases p.copy <;> exact ⟨_, rfl⟩
  | @sub _ body _ _ _ _ _ _ _ _ hc =>
      simp only [List.foldlM_append, hc.tally]
      cases mentionsArgList body <;> exact ⟨_, rfl⟩
  | retUndef h => exact ⟨_, h.tally⟩
  | @next _ control =>
      cases control <;>
        simp [Move.tally, Tally.stores, Move.op, Move.advance, Move.increment, LoopControl.index?,
          Instruction.stored?, Instruction.bare, Instruction.load, Instruction.store,
          Instruction.pushInt, Instruction.jump]
  | @checkpoint _ on => cases on <;> exact ⟨_, rfl⟩
  | @call _ _ _ _ _ sub => cases sub.usesArgList <;> exact ⟨_, rfl⟩
  | @cond _ _ _ rest => cases rest <;> exact ⟨_, rfl⟩
  | @loop init condition step => cases init <;> cases condition <;> cases step <;> exact ⟨_, rfl⟩
  | @package kind => cases kind <;> exact ⟨_, rfl⟩
  | @bool v => cases v <;> exact ⟨_, rfl⟩
  | @binary o => cases o <;> exact ⟨_, rfl⟩
  | @unary o => cases o <;> exact ⟨_, rfl⟩
  | declare | forEach =>
      simp [Move.tally, Tally.idle, Tally.stores, Move.op, Move.increment, Instruction.stored?,
        Instruction.bare, Instruction.load, Instruction.store, Instruction.pushInt, Instruction.dupN,
        Instruction.jump, Instruction.jumpIfGreaterOrEqual, Instruction.callBuiltin]
  | _ => exact ⟨_, rfl⟩

/-- The scopes are tidy, and the slots that wait to be used are free. -/
structure Tally.Sound (T : Tally) (s : List Scope) : Prop where
  tidy : Tidy s
  index : ∀ {i}, T.index = some i → Free s i.toNat
  item : ∀ {i}, T.item = some i → Free s i.toNat ∧ T.index ≠ some i

namespace Tally.Sound

theorem start {s : List Scope} (h : Tidy s) : ({} : Tally).Sound s := ⟨h, by simp, by simp⟩

/-- The slots that wait stay free when names get new slots. -/
theorem kept {s s' : List Scope} (h : T.Sound s) (hk : Kept s s') (ha : Apart s' ∧ Fresh s s') :
    T.Sound s' :=
  ⟨h.tidy.kept hk ha, fun hi => (h.index hi).kept hk ha.2,
    fun hi => ⟨(h.item hi).1.kept hk ha.2, (h.item hi).2⟩⟩

/-- If no slot is waiting, only the scopes matter. -/
theorem of_idle {s : List Scope} (h : Tidy s) (hidle : T.idle = true) : T.Sound s := by
  obtain ⟨hindex, hitem⟩ : T.index = none ∧ T.item = none := by simpa [idle] using hidle
  exact ⟨h, by simp [hindex], by simp [hitem]⟩

/-- A scope is opened: that of a `for` takes the slot that waits for it, others leave both slots free. -/
theorem enter {s : Scopes} {kind : ScopeKind} {T' : Tally} (h : T.Sound s.stack)
    (hT : Move.tally T (.enter kind) = some T') : T'.Sound (s.enter kind).stack := by
  -- The scope of a loop that counts takes the slot that has been waiting for it.
  have hplain (hkind : kind.isSubroutine = false)
      (hc : ∀ {c i}, kind = .loop c → c.index? ≠ some i) (hT : T'.index = T.index)
      (hT' : T'.item = T.item) : T'.Sound (s.enter kind).stack := by
    refine ⟨h.tidy.enter fun hk hi => absurd hi (hc hk), fun hi => ?_, fun hi => ?_⟩
    · rw [hT] at hi
      exact (h.index hi).enter hkind fun hk hi => absurd hi (hc hk)
    · rw [hT'] at hi
      exact ⟨(h.item hi).1.enter hkind fun hk hi => absurd hi (hc hk), hT ▸ (h.item hi).2⟩
  cases kind with
  | block =>
      obtain rfl := Option.some.inj hT
      exact hplain rfl (by simp) rfl rfl
  | subroutine type =>
      simp only [Move.tally, Option.ite_none_right_eq_some, Option.some.injEq] at hT
      obtain ⟨hidle, rfl⟩ := hT
      exact .of_idle (h.tidy.enter (by simp)) hidle
  | loop control =>
      cases control with
      | whileLoop done next =>
          obtain rfl := Option.some.inj hT
          refine hplain rfl ?_ rfl rfl
          rintro c i ⟨⟩
          simp [LoopControl.index?]
      | countedLoop done next =>
          obtain rfl := Option.some.inj hT
          refine hplain rfl ?_ rfl rfl
          rintro c i ⟨⟩
          simp [LoopControl.index?]
      | forEach done next index item =>
          simp only [Move.tally, Option.ite_none_right_eq_some, Option.some.injEq] at hT
          obtain ⟨hindex, rfl⟩ := hT
          have hcontrol {c : LoopControl} {i : Slot}
              (hk : ScopeKind.loop (.forEach done next index item) = .loop c)
              (hi : c.index? = some i) : index = i := by
            cases hk
            exact Option.some.inj hi
          refine ⟨h.tidy.enter fun hk hi => ?_, by simp, fun {i} hi => ⟨?_, by simp⟩⟩
          · obtain rfl := hcontrol hk hi
            exact h.index hindex
          · obtain ⟨hfree, hne⟩ := h.item hi
            refine hfree.enter rfl fun hk hi' he => hne ?_
            obtain rfl := hcontrol hk hi'
            rw [hindex, UInt16.toNat_inj.mp he]

/-- A slot is given out: the first waits for the loop, the second for the loop variable. -/
theorem alloc {s s' : Scopes} {slot : Slot} {T' : Tally} (h : T.Sound s.stack)
    (ha : Scopes.alloc s = (.ok slot, s')) (hT : Move.tally T (.alloc slot) = some T') :
    T'.Sound s'.stack := by
  have hbelow : Below s.stack s'.stack := by
    rw [(alloc_ok ha).2.1]
    exact .bump
  have hkept : T.Sound s'.stack :=
    h.kept (.of_below hbelow) ⟨h.tidy.apart.below hbelow, .below hbelow⟩
  have hfree := Free.alloc h.tidy ha
  simp only [Move.tally] at hT
  split at hT
  · rename_i hidle
    obtain ⟨-, hitem⟩ : T.index = none ∧ T.item = none := by simpa [idle] using hidle
    simp only [Option.ite_none_right_eq_some, Option.some.injEq] at hT
    obtain ⟨-, rfl⟩ := hT
    exact ⟨hkept.tidy, fun hi => Option.some.inj hi ▸ hfree, by simp [hitem]⟩
  · simp only [Option.ite_none_right_eq_some, Option.some.injEq] at hT
    obtain ⟨-, rfl⟩ := hT
    refine ⟨hkept.tidy, hkept.index, fun {i} hi => ?_⟩
    obtain rfl := Option.some.inj hi
    refine ⟨hfree, fun hi => ?_⟩
    -- The slot that was waiting has been given out before.
    have hlt : slot.toNat < s.taken := (h.index hi).given
    have := (alloc_ok ha).1
    omega

end Tally.Sound

/-- A move keeps the scopes tidy, and uses free slots only. -/
theorem Move.Does.tally {m : Move} {T' : Tally} {σ σ' : Session} (h : m.Does σ σ')
    (hT : Move.tally T m = some T') (hs : T.Sound σ.scopes.stack) : T'.Sound σ'.scopes.stack := by
  -- Moves that keep the scopes, and the slots that are set aside for a loop.
  have hplain (henter : ∀ k, m ≠ .enter k) (hleave : m ≠ .leave) (hbind : ∀ x s t, m ≠ .bind x s t)
      (hindex : T'.index = T.index) (hitem : T'.item = T.item) : T'.Sound σ'.scopes.stack := by
    have hkept := hs.kept (h.kept henter hleave) (h.apart henter hleave hbind hs.tidy.apart)
    exact ⟨hkept.tidy, fun hi => hkept.index (hindex ▸ hi),
      fun hi => hindex ▸ hkept.item (hitem ▸ hi)⟩
  cases m with
  | enter kind =>
      obtain rfl := h
      exact hs.enter hT
  | leave =>
      obtain rfl := h
      simp only [Move.tally, Option.ite_none_right_eq_some, Option.some.injEq] at hT
      obtain ⟨⟨hidle, -⟩, rfl⟩ := hT
      exact .of_idle hs.tidy.leave hidle
  | alloc slot =>
      obtain ⟨s, ha, rfl⟩ := acts_alloc.mp h
      exact hs.alloc ha hT
  | bind name slot type =>
      obtain ⟨s, hb, rfl⟩ := acts_bind.mp h
      simp only [Move.tally, Option.ite_none_right_eq_some, Option.some.injEq] at hT
      obtain ⟨⟨hindex, hitem⟩, rfl⟩ := hT
      exact .of_idle (hs.tidy.bind (hs.item hitem).1 hb).1 (by simp [Tally.idle, hindex])
  | lookup name found =>
      cases found <;> cases hT <;> exact hplain (by simp) (by simp) (by simp) rfl rfl
  | innermost found =>
      cases found with
      | none =>
          cases hT
          exact hplain (by simp) (by simp) (by simp) rfl rfl
      | some c =>
          simp only [Move.tally, Option.ite_none_right_eq_some, Option.some.injEq] at hT
          obtain ⟨-, rfl⟩ := hT
          exact hplain (by simp) (by simp) (by simp) rfl rfl
  | emit i =>
      simp only [Move.tally, Option.ite_none_right_eq_some, Option.some.injEq] at hT
      obtain ⟨-, rfl⟩ := hT
      exact hplain (by simp) (by simp) (by simp) rfl rfl
  | piece p b => exact h.elim
  | _ =>
      obtain rfl := Option.some.inj hT
      exact hplain (by simp) (by simp) (by simp) rfl rfl

/-- Where a template leads from tidy scopes, the scopes are tidy all along. -/
theorem Along.tally {T' : Tally} {ms : List Move} {σ σ' : Session} (h : Along Lowers ms σ σ')
    (hT : ms.foldlM Move.tally T = some T') (hs : T.Sound σ.scopes.stack) :
    T'.Sound σ'.scopes.stack := by
  refine h.interpret (R := fun T τ => T.Sound τ.scopes.stack) (fun hm _ => hm.tally) ?_ hT hs
  intro q b _ T T' τ τ' hq _ hT hs
  obtain rfl := Option.some.inj hT
  exact hs.kept hq.runs.kept (hq.runs.apart hs.tidy.apart)

end Templates

/-! ### Wherever a lowering goes -/

namespace Program

variable {p : Program} {name : String} {options : CompileOptions}

/-- What holds of whole templates holds of their first moves. -/
theorem tally_append {ms ns : List Move} {T T' : Tally}
    (h : (ms ++ ns).foldlM Move.tally T = some T') : ∃ T₁, ms.foldlM Move.tally T = some T₁ := by
  rw [List.foldlM_append] at h
  obtain ⟨T₁, hT₁, -⟩ := Option.bind_eq_some_iff.mp h
  exact ⟨T₁, hT₁⟩

/-- The scopes are tidy in the middle of a template. -/
theorem tidy_along {q : Piece} {b : Bool} {ms ns : List Move} {τ υ : Session}
    (hu : Unfolds q (ms ++ ns) b) (h : Along Lowers ms τ υ) (ht : Tidy τ.scopes.stack) :
    Tidy υ.scopes.stack := by
  obtain ⟨T, hT⟩ := hu.tally
  obtain ⟨T₁, hT₁⟩ := tally_append hT
  exact (h.tally hT₁ (.start ht)).tidy

theorem known_scopes :
    ((Session.start name options).declareStmts PackageTree.root p.body).scopes = {} :=
  Session.declareStmts_knows.scopes

/-- The scopes are tidy wherever lowering a program comes to a piece. -/
theorem Meets.tidy {q : Piece} {τ : Session} (h : p.Meets name options q τ) :
    Tidy τ.scopes.stack := by
  induction h with
  | top =>
      have hempty : Tidy ({} : Scopes).stack := ⟨trivial, trivial⟩
      show Tidy (Scopes.enter _ _).stack
      rw [known_scopes]
      exact hempty.enter (by simp)
  | part _ hu ha ih => exact tidy_along hu ha ih

/-- **Lowering goes through tidy scopes only.** -/
theorem GoesThrough.tidy {υ : Session} (h : p.GoesThrough name options υ) : Tidy υ.scopes.stack := by
  induction h with
  | program hms ha =>
      obtain ⟨T, hT⟩ : ∃ T, p.template.foldlM Move.tally {} = some T := by
        simp [template, Move.tally, Tally.idle, Move.op, Instruction.stored?, Instruction.bare,
          Instruction.pushFrame]
      rw [hms] at hT
      obtain ⟨T₁, hT₁⟩ := tally_append hT
      refine (ha.tally hT₁ (.start ?_)).tidy
      rw [known_scopes]
      exact ⟨trivial, trivial⟩
  | piece hq hu ha => exact tidy_along hu ha hq.tidy
  | begun hq hu ha hm =>
      have ht := tidy_along hu ha hq.tidy
      cases hm with
      | params hps => exact ht.kept (kept_bindParams hps) (apart_bindParams hps ht.apart)
      | traits _ hnames =>
          rw [(applyTraits_eq_ok hnames).1]
          exact ht
  | closing _ ih => exact ih.leave

end Program

/-! ### Aliasing -/

namespace Scopes

/-- In each subroutine whose scopes are open, two names that are bound in its scopes have different
slots unless they are one name of one scope, and no name has the hidden slot of a loop. -/
structure Unaliased (stack : List Scope) : Prop where
  names : ∀ {s}, s <:+ stack → ∀ {i j : Nat} {a a' : Scope} {x y : String} {b b' : Binding},
    (routine s)[i]? = some a → (routine s)[j]? = some a' → a.binding? x = some b →
    a'.binding? y = some b' → b.slot = b'.slot → i = j ∧ x = y
  loops : ∀ {s}, s <:+ stack → ∀ {a : Scope} {x : String} {b : Binding} {c : LoopControl},
    a ∈ routine s → a.binding? x = some b → c ∈ loops s → c.index? ≠ some b.slot

/-- The names of the current subroutine, scope by scope. -/
theorem names_eq {s : List Scope} : names s = (routine s).map Scope.binding? := by
  induction s with
  | nil => rfl
  | cons a r ih => cases ha : a.isSubroutine <;> simp [names, routine, ha, ih]

/-- A name in scope has a slot that is bound. -/
theorem bound_of_mem {s : List Scope} {a : Scope} {x : String} {b : Binding} (ha : a ∈ routine s)
    (hx : a.binding? x = some b) : Bound s b.slot.toNat := by
  refine ⟨a.binding?, ?_, x, b, hx, rfl⟩
  rw [names_eq]
  exact List.mem_map_of_mem ha

/-- Where slots are apart, a slot has one name of one scope. -/
theorem Apart.injective {s : List Scope} (h : Apart s) {i j : Nat} {a a' : Scope} {x y : String}
    {b b' : Binding} (hi : (routine s)[i]? = some a) (hj : (routine s)[j]? = some a')
    (hx : a.binding? x = some b) (hy : a'.binding? y = some b') (he : b.slot = b'.slot) :
    i = j ∧ x = y := by
  induction s generalizing i j with
  | nil => simp [routine] at hi
  | cons c r ih =>
      obtain ⟨hinj, hslot, hr⟩ := h
      -- A name of the innermost scope has a slot that no name around it has.
      have houter {k : Nat} {d : Scope} {z z' : String} {f f' : Binding}
          (hz : c.binding? z = some f) (hk : (routine (c :: r))[k + 1]? = some d)
          (hz' : d.binding? z' = some f') : f.slot ≠ f'.slot := by
        intro he
        cases hc : c.isSubroutine with
        | true => simp [routine, hc] at hk
        | false =>
            simp only [routine, hc, Bool.false_eq_true, if_false, List.getElem?_cons_succ] at hk
            exact (hslot hz).2 hc (he ▸ bound_of_mem (List.mem_of_getElem? hk) hz')
      cases i with
      | zero =>
          obtain rfl : c = a := by simpa [routine] using hi
          cases j with
          | zero =>
              obtain rfl : c = a' := by simpa [routine] using hj
              exact ⟨rfl, hinj hx hy (congrArg UInt16.toNat he)⟩
          | succ j => exact absurd he (houter hx hj hy)
      | succ i =>
          cases j with
          | zero =>
              obtain rfl : c = a' := by simpa [routine] using hj
              exact absurd he.symm (houter hy hi hx)
          | succ j =>
              cases hc : c.isSubroutine with
              | true => simp [routine, hc] at hi
              | false =>
                  simp only [routine, hc, Bool.false_eq_true, if_false,
                    List.getElem?_cons_succ] at hi hj
                  obtain ⟨rfl, hxy⟩ := ih hr hi hj
                  exact ⟨rfl, hxy⟩

/-- The scopes around tidy scopes are tidy. -/
theorem Tidy.suffix {s stack : List Scope} (h : Tidy stack) (hs : s <:+ stack) : Tidy s := by
  induction stack with
  | nil =>
      obtain rfl := List.suffix_nil.mp hs
      exact h
  | cons a r ih =>
      rcases List.suffix_cons_iff.mp hs with rfl | hs
      · exact h
      · exact ih ⟨h.apart.2.2, h.hidden.2⟩ hs

/-- In tidy scopes no slot has two uses. -/
theorem Tidy.unaliased {stack : List Scope} (h : Tidy stack) : Unaliased stack := by
  constructor
  · intro s hs i j a a' x y b b' hi hj hx hy he
    exact (h.suffix hs).apart.injective hi hj hx hy he
  · intro s hs a x b c ha hx hc hi
    exact ((h.suffix hs).hidden.counted ⟨c, hc, _, hi, rfl⟩).2 (bound_of_mem ha hx)

end Scopes

end StackScript
