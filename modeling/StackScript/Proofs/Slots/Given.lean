import StackScript.Proofs.Bodies

/-!
# Slots in use were given out

The slots that the code of a body loads and stores are those of the variables and of the hidden loop
indices that are in scope, and all of these have been given out by the body's frame.

* `Scopes.Safe`: the slots in scope have been given out.
* `Unfolds.slots`: a template uses the slots it finds or gets, and no others.
* `Runs.slotsGiven`: so does the code of a piece.
-/

namespace StackScript

open Scopes

/-! ### Slots in scope -/

namespace Scopes

/-- The slots bound in the scopes of the current subroutine, and the hidden ones of its loops, have
all been given out. -/
def Safe : List Scope → Prop
  | [] => True
  | a :: r =>
    (∀ {name b}, a.binding? name = some b → b.slot.toNat < taken.go (a :: r)) ∧
      (∀ {done next index item}, a.kind = .loop (.forEach done next index item) →
        index.toNat < taken.go (a :: r)) ∧
      (a.isSubroutine = false → Safe r)

theorem taken_of_inner {a : Scope} {r : List Scope} (h : a.isSubroutine = false) :
    taken.go (a :: r) = taken.go r := by
  simp [taken.go, h]

/-- A name in scope has a slot that has been given out. -/
theorem Safe.resolve {s : Scopes} {name : String} {b : Binding} (h : Safe s.stack)
    (hb : s.resolve? name = some b) : b.slot.toNat < s.taken := by
  have : ∀ {stack : List Scope}, Safe stack → resolve?.go name stack = some b →
      b.slot.toNat < taken.go stack := by
    intro stack
    induction stack with
    | nil => intro _ hb; simp [resolve?.go] at hb
    | cons a r ih =>
        rintro ⟨ha, -, hr⟩ hb
        unfold resolve?.go at hb
        cases hn : a.binding? name with
        | some b' =>
            simp only [hn, Option.some.injEq] at hb
            subst hb
            exact ha hn
        | none =>
            simp only [hn] at hb
            cases hs : a.isSubroutine with
            | true => simp [hs] at hb
            | false =>
                rw [taken_of_inner hs]
                exact ih (hr hs) (by simpa [hs] using hb)
  exact this h hb

/-- A loop counts in a slot that has been given out. -/
theorem Safe.index {s : Scopes} {done next : Label} {index item : Slot} (h : Safe s.stack)
    (hl : s.innermostLoop? = some (.forEach done next index item)) : index.toNat < s.taken := by
  have : ∀ {stack : List Scope}, Safe stack →
      innermostLoop?.go stack = some (.forEach done next index item) →
      index.toNat < taken.go stack := by
    intro stack
    induction stack with
    | nil => intro _ hl; simp [innermostLoop?.go] at hl
    | cons a r ih =>
        rintro ⟨-, hi, hr⟩ hl
        unfold innermostLoop?.go at hl
        cases hk : a.kind with
        | loop control =>
            simp only [hk, Option.some.injEq] at hl
            exact hi (hl ▸ hk)
        | subroutine type => simp [hk] at hl
        | block =>
            have hs : a.isSubroutine = false := by
              simp [Scope.isSubroutine, hk, ScopeKind.isSubroutine, ScopeKind.tag]
            rw [taken_of_inner hs]
            exact ih (hr hs) (by simpa [hk] using hl)
  exact this h hl

/-- Giving out one more slot is safe. -/
theorem Safe.bump {stack : List Scope} (h : Safe stack) : Safe (Scopes.bump stack) := by
  induction stack with
  | nil => trivial
  | cons a r ih =>
      obtain ⟨ha, hi, hr⟩ := h
      have hle := (Below.bump (s := a :: r)).taken
      cases hs : a.isSubroutine with
      | true =>
          rw [Scopes.bump, if_pos hs] at hle ⊢
          exact ⟨fun hb => Nat.lt_of_lt_of_le (ha hb) hle, fun hk => Nat.lt_of_lt_of_le (hi hk) hle,
            fun hs' => absurd (hs.symm.trans hs') (by simp)⟩
      | false =>
          have hb : Scopes.bump (a :: r) = a :: Scopes.bump r := by simp [Scopes.bump, hs]
          rw [hb] at hle ⊢
          exact ⟨fun hb => Nat.lt_of_lt_of_le (ha hb) hle, fun hk => Nat.lt_of_lt_of_le (hi hk) hle,
            fun _ => ih (hr hs)⟩

/-- A name may get a slot that has been given out. -/
theorem Safe.bind {a : Scope} {r : List Scope} {name : String} {b : Binding} (h : Safe (a :: r))
    (hb : b.slot.toNat < taken.go (a :: r)) : Safe (a.bind name b :: r) := by
  obtain ⟨ha, hi, hr⟩ := h
  refine ⟨fun {name' b'} hb' => ?_, hi, hr⟩
  rw [Scope.binding?, Scope.bind, Std.ExtTreeMap.getElem?_insert] at hb'
  split at hb'
  · obtain rfl := Option.some.inj hb'
    exact hb
  · exact ha hb'

/-- A declaration gets a slot that has been given out, be it new or that of the name before. -/
theorem Safe.declare {s s' : Scopes} {name : String} {type : ValueType} {slot : Slot}
    (h : Safe s.stack) (hd : Scopes.declare name type s = (.ok slot, s')) :
    Safe s'.stack ∧ slot.toNat < s'.taken := by
  obtain ⟨a, r, hs, ⟨b, hb, rfl, rfl⟩ | ⟨t, -, ha, hb⟩⟩ := declare_ok hd
  · refine ⟨h, ?_⟩
    rw [hs] at h
    rw [taken, hs]
    exact h.1 hb
  · obtain ⟨hslot, hstack, htaken⟩ := alloc_ok ha
    obtain ⟨a', r', ht, hs'⟩ := bind_ok hb
    have hbump : Safe t.stack := hstack ▸ h.bump
    have hlt : slot.toNat < taken.go (a' :: r') := by
      rw [← ht]
      show slot.toNat < t.taken
      omega
    rw [ht] at hbump
    have hkept : Kept (a' :: r') (a'.bind name ⟨slot, type⟩ :: r') := .bind
    rw [taken, hs']
    exact ⟨hbump.bind hlt, Nat.lt_of_lt_of_le hlt hkept.taken⟩

/-- A scope of the same subroutine is safe if its loop counts in a slot that has been given out. -/
theorem Safe.enter {s : Scopes} {kind : ScopeKind} (h : Safe s.stack)
    (hkind : kind.isSubroutine = false)
    (hi : ∀ {done next index item}, kind = .loop (.forEach done next index item) →
      index.toNat < s.taken) : Safe (s.enter kind).stack := by
  have ht : taken.go ({ kind } :: s.stack) = taken.go s.stack := taken_of_inner hkind
  rw [Scopes.enter, Safe, ht]
  exact ⟨fun hb => by simp [Scope.binding?] at hb, hi, fun _ => h⟩

/-- Leaving a scope of the same subroutine gives no slot back. -/
theorem Safe.leave {k : Nat} {s : Scopes} (h : Safe s.stack) (hk : Inner (k + 1) s.stack) :
    Safe s.leave.stack := by
  rw [Scopes.leave]
  cases hs : s.stack with
  | nil => trivial
  | cons a r =>
      rw [hs] at h hk
      exact h.2.2 (hk a (by simp))

end Scopes

/-! ### Templates use the slots they find or get -/

/-- The slot that an instruction loads or stores. -/
def Instruction.slot? (i : Instruction) : Option Slot :=
  match i.operand with
  | some (.slot s) => some s
  | _ => none

/-- The number of scopes a template has opened so far, and the slots that are known to have been
given out; nothing if a move uses another one. -/
def Move.slots : Nat × List Slot → Move → Option (Nat × List Slot)
  | (k, known), .alloc s | (k, known), .declare _ _ s => some (k, s :: known)
  | (k, known), .lookup _ (some b) => some (k, b.slot :: known)
  | (k, known), .innermost (some (.forEach _ _ index _)) => some (k, index :: known)
  | (k, known), .bind _ s _ => if s ∈ known then some (k, known) else none
  | (k, known), .enter (.loop (.forEach _ _ index _)) =>
    if index ∈ known then some (k + 1, known) else none
  | _, .enter (.subroutine _) | _, .argument _ _ _ | _, .params _ | (0, _), .leave => none
  | (k, known), .enter _ => some (k + 1, known)
  | (k + 1, known), .leave => some (k, known)
  | (k, known), .emit i => if i.slot?.all (· ∈ known) then some (k, known) else none
  | (k, known), _ => some (k, known)

theorem Enforces.slots {e : Expr} {type : ValueType} {role : Role} {cs : List Move} {ok : Bool}
    (h : Enforces e type role cs ok) {S : Nat × List Slot} : cs.foldlM Move.slots S = some S := by
  cases h <;> simp [Move.slots, Instruction.slot?, Instruction.toCompatible]

theorem ReturnsUndef.slots {s : Span} {ms : List Move} (h : ReturnsUndef s ms)
    {S : Nat × List Slot} : ms.foldlM Move.slots S = some S := by
  obtain ⟨hc⟩ := h
  simp [Move.slots, Instruction.slot?, Move.op, Instruction.bare, hc.slots]

/-- A template uses the slots it finds or gets, and closes the scopes it opens. -/
theorem Unfolds.slots {p : Piece} {ms : List Move} {b : Bool} (h : Unfolds p ms b)
    (hp : ∀ head body, p ≠ .stmt (.sub head body)) (k : Nat) (known : List Slot) :
    ∃ known', ms.foldlM Move.slots (k, known) = some (k, known') := by
  cases h with
  | sub | subParameter | subRedeclared => exact absurd rfl (hp _ _)
  | assignVar hc | assignVarMismatch hc | assignDeclare hc | assignDeclareMismatch hc | ret hc
  | bodyExpr hc =>
      simp [Move.slots, Move.op, Instruction.slot?, Instruction.bare, Instruction.store, hc.slots]
  | @argsHeld _ _ p _ _ _ hc =>
      simp only [List.foldlM_append, hc.slots]
      cases p.copy <;> exact ⟨_, rfl⟩
  | retUndef h => exact ⟨_, h.slots⟩
  | @next _ control =>
      cases control <;>
        simp [Move.slots, Move.op, Move.advance, Move.increment, Instruction.slot?,
          Instruction.bare, Instruction.load, Instruction.store, Instruction.pushInt,
          Instruction.jump]
  | @last _ control => cases control <;> exact ⟨_, rfl⟩
  | @checkpoint _ on => cases on <;> exact ⟨_, rfl⟩
  | @call _ _ _ _ _ sub => cases sub.usesArgList <;> exact ⟨_, rfl⟩
  | @cond _ _ _ rest => cases rest <;> exact ⟨_, rfl⟩
  | @loop init condition step => cases init <;> cases condition <;> cases step <;> exact ⟨_, rfl⟩
  | @package kind => cases kind <;> exact ⟨_, rfl⟩
  | var | declare | forEach =>
      simp [Move.slots, Move.op, Move.increment, Instruction.slot?, Instruction.bare, Instruction.load,
        Instruction.store, Instruction.pushInt, Instruction.dupN, Instruction.jump,
        Instruction.jumpIfGreaterOrEqual, Instruction.callBuiltin]
  | _ => exact ⟨_, rfl⟩

/-- In the code emitted since `σ`, the instructions of the body opened at `t` use slots that have
been given out. -/
def SlotsGiven (c : Chunk) (t : Nat) (σ τ : Session) : Prop :=
  ∀ {n s}, σ.draft.position ≤ n → n < τ.draft.position → c.InBody t n →
    τ.draft.chunk.instructions[n]?.bind Instruction.slot? = some s → s.toNat < τ.scopes.taken

/-- What holds of the session while a template is followed. -/
structure SlotsKnown (c : Chunk) (t : Nat) (σ : Session) (S : Nat × List Slot) (τ : Session) :
    Prop where
  inner : Inner S.1 τ.scopes.stack
  safe : Safe τ.scopes.stack
  known : ∀ s ∈ S.2, s.toNat < τ.scopes.taken
  code : SlotsGiven c t σ τ

/-- The slots in the code so far have been given out, and those of a new instruction have. -/
theorem Move.Does.slotsGiven {c : Chunk} {t : Nat} {σ τ τ' : Session} {m : Move} (h : m.Does τ τ')
    (hcode : SlotsGiven c t σ τ) (htaken : τ.scopes.taken ≤ τ'.scopes.taken)
    (hemit : ∀ {i s}, m = .emit i → i.slot? = some s → s.toNat < τ'.scopes.taken) :
    SlotsGiven c t σ τ' := by
  intro n s hle hlt hb hs
  rcases Nat.lt_or_ge n τ.draft.position with hn | hn
  · rw [h.grows.instruction_eq hn] at hs
    exact Nat.lt_of_lt_of_le (hcode hle hn hb hs) htaken
  · have hpos := h.position
    have hwidth : m.width ≤ 1 := by cases m <;> simp [Move.width]
    obtain rfl : n = τ.draft.position := by omega
    obtain ⟨i, hi, hs⟩ := Option.bind_eq_some_iff.mp hs
    rcases h.emitted hi with rfl | ⟨-, index, rfl⟩
    · exact hemit rfl hs
    · simp [Instruction.slot?, Instruction.loadConst] at hs

/-- A move that emits nothing of its own, and what it adds to the slots that are known. -/
theorem SlotsKnown.step {c : Chunk} {t k k' : Nat} {σ τ τ' : Session} {m : Move}
    {known known' : List Slot} (hR : SlotsKnown c t σ (k, known) τ) (h : m.Does τ τ')
    (hm : ∀ i, m ≠ .emit i) (htaken : τ.scopes.taken ≤ τ'.scopes.taken)
    (hinner : Inner k' τ'.scopes.stack) (hsafe : Safe τ'.scopes.stack)
    (hknown : ∀ s ∈ known', s ∈ known ∨ s.toNat < τ'.scopes.taken) :
    SlotsKnown c t σ (k', known') τ' := by
  refine ⟨hinner, hsafe, fun s hs => ?_, h.slotsGiven hR.code htaken fun he => absurd he (hm _)⟩
  rcases hknown s hs with hs | hs
  · exact Nat.lt_of_lt_of_le (hR.known s hs) htaken
  · exact hs

/-- What a move that enters a scope requires and makes known. -/
theorem Move.slots_enter {k : Nat} {known : List Slot} {kind : ScopeKind} {S : Nat × List Slot}
    (h : Move.slots (k, known) (.enter kind) = some S) :
    S = (k + 1, known) ∧ kind.isSubroutine = false ∧ ∀ {done next index item},
      kind = .loop (.forEach done next index item) → index ∈ known := by
  cases kind with
  | subroutine type => cases h
  | block => exact ⟨(Option.some.inj h).symm, rfl, by simp⟩
  | loop control =>
      cases control with
      | forEach done next index item =>
          simp only [Move.slots, Option.ite_none_right_eq_some, Option.some.injEq] at h
          obtain ⟨hmem, rfl⟩ := h
          refine ⟨rfl, rfl, ?_⟩
          rintro _ _ _ _ ⟨⟩
          exact hmem
      | _ => exact ⟨(Option.some.inj h).symm, rfl, by simp⟩

/-- A move uses slots that have been given out only. -/
theorem Move.Does.slotsKnown {c : Chunk} {t : Nat} {σ τ τ' : Session} {m : Move}
    {S S' : Nat × List Slot} (h : m.Does τ τ') (hS : Move.slots S m = some S')
    (hR : SlotsKnown c t σ S τ) : SlotsKnown c t σ S' τ' := by
  obtain ⟨k, known⟩ := S
  -- Moves that change the scopes or name a slot need an argument of their own; the rest are the last
  -- case.
  cases m with
  | emit i =>
      have hscopes := h.spares.scopes rfl
      simp only [Move.slots, Option.all_eq_true, decide_eq_true_eq, Option.ite_none_right_eq_some,
        Option.some.injEq] at hS
      obtain ⟨hi, rfl⟩ := hS
      refine ⟨hscopes ▸ hR.inner, hscopes ▸ hR.safe, hscopes ▸ hR.known,
        h.slotsGiven hR.code (Nat.le_of_eq (by rw [hscopes])) fun he hs => ?_⟩
      cases he
      exact hscopes ▸ hR.known _ (hi _ hs)
  | alloc slot =>
      obtain rfl : (k, slot :: known) = S' := Option.some.inj hS
      have hkept := h.kept (by simp) (by simp)
      obtain ⟨s, hs, he⟩ := acts_alloc.mp h
      obtain ⟨hslot, hstack, htaken⟩ := alloc_ok hs
      refine hR.step h (by simp) hkept.taken (hR.inner.kept hkept) ?_ fun s' hs' => ?_
      · rw [he, hstack]
        exact hR.safe.bump
      · rcases List.mem_cons.mp hs' with rfl | hs'
        · have : s'.toNat < s.taken := by omega
          exact .inr (he ▸ this)
        · exact .inl hs'
  | declare name type slot =>
      obtain rfl : (k, slot :: known) = S' := Option.some.inj hS
      have hkept := h.kept (by simp) (by simp)
      obtain ⟨s, hs, he⟩ := acts_declare.mp h
      obtain ⟨hsafe, hslot⟩ := hR.safe.declare hs
      refine hR.step h (by simp) hkept.taken (hR.inner.kept hkept) (he ▸ hsafe) fun s' hs' => ?_
      rcases List.mem_cons.mp hs' with rfl | hs'
      · exact .inr (he ▸ hslot)
      · exact .inl hs'
  | bind name slot type =>
      simp only [Move.slots, Option.ite_none_right_eq_some, Option.some.injEq] at hS
      obtain ⟨hmem, rfl⟩ := hS
      have hkept := h.kept (by simp) (by simp)
      obtain ⟨s, hs, he⟩ := acts_bind.mp h
      obtain ⟨a, r, hstack, hstack'⟩ := bind_ok hs
      refine hR.step h (by simp) hkept.taken (hR.inner.kept hkept) ?_ fun s' => .inl
      have hslot := hR.known slot hmem
      have hsafe := hR.safe
      rw [Scopes.taken, hstack] at hslot
      rw [hstack] at hsafe
      rw [he, hstack']
      exact hsafe.bind hslot
  | enter kind =>
      obtain ⟨rfl, hkind, hindex⟩ := Move.slots_enter hS
      have hscopes : τ'.scopes = τ.scopes.enter kind := by rw [show τ' = _ from h]
      refine hR.step h (by simp) ?_ ?_ ?_ fun s' => .inl
      all_goals rw [hscopes]
      · exact Nat.le_of_eq (taken_enter hkind).symm
      · exact hR.inner.enter hkind
      · exact hR.safe.enter hkind fun hk => hR.known _ (hindex hk)
  | leave =>
      cases k with
      | zero => cases hS
      | succ k =>
          obtain rfl : (k, known) = S' := Option.some.inj hS
          have hscopes : τ'.scopes = τ.scopes.leave := by rw [show τ' = _ from h]
          obtain ⟨htaken, hinner⟩ := hR.inner.leave
          refine hR.step h (by simp) ?_ ?_ ?_ fun s' => .inl
          all_goals rw [hscopes]
          · exact Nat.le_of_eq htaken.symm
          · exact hinner
          · exact hR.safe.leave hR.inner
  | lookup name found =>
      obtain ⟨hf, rfl⟩ := h
      cases found with
      | none =>
          obtain rfl : (k, known) = S' := Option.some.inj hS
          exact hR
      | some b =>
          obtain rfl : (k, b.slot :: known) = S' := Option.some.inj hS
          refine ⟨hR.inner, hR.safe, fun s hs => ?_, hR.code⟩
          rcases List.mem_cons.mp hs with rfl | hs
          · exact hR.safe.resolve hf
          · exact hR.known s hs
  | innermost found =>
      obtain ⟨hf, rfl⟩ := h
      rcases found with _ | (_ | _ | ⟨done, next, index, item⟩)
      case some.forEach =>
        obtain rfl : (k, index :: known) = S' := Option.some.inj hS
        refine ⟨hR.inner, hR.safe, fun s hs => ?_, hR.code⟩
        rcases List.mem_cons.mp hs with rfl | hs
        · exact hR.safe.index hf
        · exact hR.known s hs
      all_goals
        obtain rfl : (k, known) = S' := Option.some.inj hS
        exact hR
  | piece p b => exact h.elim
  | argument | params => cases hS
  | _ =>
      obtain rfl : (k, known) = S' := Option.some.inj hS
      have hscopes := h.spares.scopes rfl
      exact hR.step h (by simp) (Nat.le_of_eq (by rw [hscopes])) (hscopes ▸ hR.inner)
        (hscopes ▸ hR.safe) fun s' => .inl

/-- **Slots in use were given out.**  The code that a piece emits for the body around it uses slots
that this body's frame has given out by the end of the piece. -/
theorem Runs.slotsGiven {p : Piece} {b : Bool} {σ σ' : Session} {d : Draft} {c : Chunk} {t : Nat}
    (h : Runs Quiet p b σ σ') (ht : t < σ.draft.position) (hd : σ'.draft.Grows d)
    (hc : d.finish = .ok c) (hs : Safe σ.scopes.stack) :
    Safe σ'.scopes.stack ∧ SlotsGiven c t σ σ' := by
  refine h.ind (P := fun _ _ σ σ' => t < σ.draft.position → σ'.draft.Grows d →
    Safe σ.scopes.stack → Safe σ'.scopes.stack ∧ SlotsGiven c t σ σ') ?_ ht hd hs
  intro p b ms σ σ' hu hq ha ht hd hs
  rcases p.other_or_sub with hp | ⟨head, body, rfl⟩
  · obtain ⟨known, hslots⟩ := hu.slots hp 0 []
    have hend : σ.draft.position ≤ σ'.draft.position ∧ SlotsKnown c t σ (0, known) σ' := by
      refine ha.interpret (R := fun S τ => σ.draft.position ≤ τ.draft.position ∧
        SlotsKnown c t σ S τ) ?_ ?_ hslots ⟨Nat.le_refl _, Scopes.Inner.zero, hs, by simp, ?_⟩
      · intro m ns S S' τ τ' hm _ hS ⟨hle, hR⟩
        exact ⟨Nat.le_trans hle hm.grows.position_le, hm.slotsKnown hS hR⟩
      · intro q e ns S S' τ τ' ⟨hrun, hP⟩ hrest hS ⟨hle, hinner, hsafe, hknown, hcode⟩
        obtain rfl : S = S' := Option.some.inj hS
        have hgrow := (hrest.grows_of fun h => h.1.grows).trans hd
        obtain ⟨hsafe', hcode'⟩ := hP (Nat.lt_of_lt_of_le ht hle) hgrow hsafe
        refine ⟨Nat.le_trans hle hrun.grows.position_le, hinner.kept hrun.kept, hsafe',
          fun s hs => Nat.lt_of_lt_of_le (hknown s hs) hrun.kept.taken, fun {n s} h₁ h₂ hb hs => ?_⟩
        rcases Nat.lt_or_ge n τ.draft.position with hn | hn
        · rw [hrun.grows.instruction_eq hn] at hs
          exact Nat.lt_of_lt_of_le (hcode h₁ hn hb hs) hrun.kept.taken
        · exact hcode' hn h₂ hb hs
      · intro n s h₁ h₂
        omega
    exact ⟨hend.2.safe, hend.2.code⟩
  · have hsub := hu.subRun hq ha
    have hscopes : σ'.scopes = σ.scopes := (hsub.mono And.left).scopes
    refine ⟨hscopes ▸ hs, fun {n s} h₁ h₂ hb hslot => ?_⟩
    obtain ⟨-, -, hclose, hbefore, hframe, hparams, ⟨hrun, -⟩, hcl, hbehind⟩ := hsub
    obtain ⟨e₃, hlt, e₆, hjump, hopen, -⟩ :=
      SubRun.layout hclose hbefore hframe hparams hrun.grows hcl hbehind hd hc
    -- Of the subroutine's code, only the jump over it is of the body around it.
    have hn : n = σ.draft.position := by
      rcases Nat.eq_or_lt_of_le h₁ with he | hgt
      · exact he.symm
      · have := hb.2.2.2 (σ.draft.position + 1)
          (by simp [Chunk.opens, hopen, Instruction.pushFrame]) (by omega) hgt
        simp [Chunk.bodyEnd, hjump] at this
        omega
    subst hn
    obtain ⟨i, hi, hslot⟩ := Option.bind_eq_some_iff.mp hslot
    obtain ⟨j, hj, hr⟩ := (Draft.finish_eq_ok hc).2.2 (hd.instruction hi)
    obtain rfl : ⟨.jump, some (.offset σ'.draft.position)⟩ = j :=
      Option.some.inj (hjump.symm.trans hj)
    have := (Draft.resolveInstruction_eq_ok hr).2
    obtain ⟨op, operand⟩ := i
    unfold Instruction.slot? at hslot
    split at hslot
    · rename_i ho
      simp only at ho
      simp [ho, Draft.Resolves] at this
    · cases hslot

end StackScript
