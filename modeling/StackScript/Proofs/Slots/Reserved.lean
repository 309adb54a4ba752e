import StackScript.Proofs.Routines
import StackScript.Proofs.Slots.Given
import StackScript.Proofs.Slots.Demand

/-!
# Frames hold the slots of their bodies

`PushFrame` opens the frame of a routine with as many slots as it has parameters, the argument list
included, and as many more as `slotsNeeded` counts in its body.

* `Frame`: the scope of a routine when its parameters have been bound.
* `Program.Body.frame`: the frame of a routine, and what is lowered in it.
* `compile_reserves_slots`: the code of a routine uses slots of its frame only, and the frame has no
  slot that is not given out unless a `my` repeats a name bound by a parameter or a loop.
-/

namespace StackScript

open Scopes

/-! ### Parameters -/

/-- The name of a parameter that is a variable. -/
def Param.name? (p : Param) : Option String :=
  match p.resolve with
  | .ok param => some param.name
  | .error _ => none

/-- The names that are bound before the body of a routine is entered: the argument list, if the body
mentions it, and the parameters. -/
def Routine.bound (r : Routine) : List String :=
  match r.head with
  | none => []
  | some head => (if mentionsArgList r.body then [argList] else []) ++ head.params.filterMap Param.name?

/-- The names of the parameters are those that are bound. -/
theorem Param.names_of_resolve {params : List Param} {ps : List SubParam}
    (h : params.mapM Param.resolve = .ok ps) : params.filterMap Param.name? = ps.map (·.name) := by
  induction params generalizing ps with
  | nil =>
      obtain rfl : [] = ps := Except.ok.inj h
      rfl
  | cons p params ih =>
      rw [List.mapM_cons] at h
      cases hp : p.resolve with
      | error e => simp [hp, Bind.bind, Except.bind] at h
      | ok q =>
          cases hps : params.mapM Param.resolve with
          | error e => simp [hp, hps, Bind.bind, Except.bind] at h
          | ok qs =>
              obtain rfl : q :: qs = ps := by
                simpa [hp, hps, Bind.bind, Except.bind, Pure.pure, Except.pure] using h
              simp [Param.name?, hp, ih hps]

/-- The innermost scope is that of a routine which binds these names, each to a slot of its own, and
nothing else. -/
structure Frame (names : List String) (s : Scopes) : Prop where
  top : ∃ a r, s.stack = a :: r ∧ a.isSubroutine = true ∧ Tracks names {} a
  taken : s.taken = names.length
  safe : Safe s.stack

/-- A subroutine's scope begins with no argument. -/
theorem Frame.enter {s : Scopes} {type : ValueType} : Frame [] (s.enter (.subroutine type)) := by
  refine ⟨⟨_, _, rfl, rfl, fun x => by simp [Scope.binding?]⟩, rfl, ?_⟩
  rw [Scopes.enter, Safe]
  refine ⟨fun hb => ?_, fun hk => ?_, fun hs => ?_⟩
  · simp [Scope.binding?] at hb
  · cases hk
  · cases hs

/-- An argument takes the next slot, and its name is bound. -/
theorem Frame.bindArgument {names : List String} {name : String} {type : ValueType} {slot : Slot}
    {s s' : Scopes} (h : Frame names s) (hb : bindArgument name type s = (.ok slot, s')) :
    Frame (names ++ [name]) s' := by
  obtain ⟨a, r, hs, ha, hslot, hs'⟩ := bindArgument_ok hb
  obtain ⟨⟨a', r', hs₀, -, ht⟩, htaken, hsafe⟩ := h
  obtain ⟨rfl, rfl⟩ := List.cons.inj (hs.symm.trans hs₀)
  have hnext : a.nextSlot = names.length := by
    simpa [Scopes.taken, hs, taken.go, ha] using htaken
  have hbinding {x : String} : ({ a with nextSlot := a.nextSlot + 1 }.bindArgument name
      ⟨slot, type⟩).binding? x = if name = x then some ⟨slot, type⟩ else a.binding? x := by
    simp [Scope.binding?, Scope.bindArgument, Std.ExtTreeMap.getElem?_insert]
  have hsub : ({ a with nextSlot := a.nextSlot + 1 }.bindArgument name ⟨slot, type⟩).isSubroutine
      = true := ha
  have hnext' : ({ a with nextSlot := a.nextSlot + 1 }.bindArgument name ⟨slot, type⟩).nextSlot
      = names.length + 1 := by
    simp [Scope.bindArgument, hnext]
  have hkind : ({ a with nextSlot := a.nextSlot + 1 }.bindArgument name ⟨slot, type⟩).kind
      = a.kind := rfl
  -- What matters of the new scope has been noted; its definition would only get in the way.
  generalize { a with nextSlot := a.nextSlot + 1 }.bindArgument name ⟨slot, type⟩ = a' at *
  have hgo : taken.go (a' :: r) = names.length + 1 := by simp [taken.go, hsub, hnext']
  refine ⟨⟨_, _, hs', hsub, fun x => ?_⟩, ?_, ?_⟩
  · rw [hbinding]
    by_cases he : name = x
    · simp [he]
    · have he' : x ≠ name := fun h => he h.symm
      rw [if_neg he, ht x]
      simp [he']
  · rw [Scopes.taken, hs', hgo]
    simp
  · rw [hs', Safe, hgo]
    rw [hs, Safe, taken.go, if_pos ha, hnext] at hsafe
    refine ⟨fun {x b} hx => ?_, fun hk => ?_, fun hs => by simp [hsub] at hs⟩
    · rw [hbinding] at hx
      split at hx
      · obtain rfl := Option.some.inj hx
        show slot.toNat < names.length + 1
        omega
      · exact Nat.lt_succ_of_lt (hsafe.1 hx)
    · exact Nat.lt_succ_of_lt (hsafe.2.1 (hkind ▸ hk))

/-- Parameters take the slots that follow. -/
theorem Frame.bindParams {names : List String} {ps : List SubParam} {σ σ' : Session}
    (h : Frame names σ.scopes) (hb : Lower.bindParams ps σ = (.ok (), σ')) :
    Frame (names ++ ps.map (·.name)) σ'.scopes := by
  induction ps generalizing σ names with
  | nil =>
      obtain ⟨_, rfl⟩ := Step.pure_eq_ok.mp hb
      simpa using h
  | cons p ps ih =>
      obtain ⟨slot, τ, h₁, h₂⟩ := Step.bind_eq_ok.mp hb
      obtain ⟨s, hs, rfl⟩ := Move.onScopes_eq_ok.mp h₁
      have := ih (h.bindArgument hs) h₂
      simpa using this

/-- Behind the parameters, nothing has been demanded yet. -/
theorem Frame.covers {names : List String} {s : Scopes} (h : Frame names s) :
    Ledger.Covers ⟨names, {}, [], True⟩ names.length 0 s := by
  obtain ⟨⟨a, r, hs, -, ht⟩, htaken, -⟩ := h
  refine ⟨⟨⟨a, r, hs, ht⟩, fun {j g} hg => by simp at hg, Scopes.Inner.zero⟩, ?_, fun _ => ?_⟩
  · simp [Ledger.total, SlotDemand.total, htaken]
  · simp [Ledger.total, SlotDemand.total, htaken]

/-! ### Frames of routines -/

theorem Closes.slots {s : Span} {ends : Bool} {ms : List Move} (h : Closes s ends ms)
    {S : Nat × List Slot} : ms.foldlM Move.slots S = some S := by
  cases h with
  | returned => simp [Move.slots, Move.op, Instruction.slot?, Instruction.bare]
  | fallen h => exact h.slots

theorem Closes.scopeless {s : Span} {ends : Bool} {ms : List Move} (h : Closes s ends ms) :
    ms.all (!·.onScopes) = true := by
  cases h with
  | returned => rfl
  | fallen h =>
      obtain ⟨hc⟩ := h
      have : ∀ {cs : List Move} {type : ValueType} {ok : Bool},
          Enforces (.undefined s) type .result cs ok → cs.all (!·.onScopes) = true := by
        intro cs type ok h
        cases h <;> rfl
      have := this hc
      simp_all [Move.onScopes, Move.op]

/-- Resolving labels leaves the slots as they are. -/
theorem Instruction.slot?_of_resolved {d : Draft} {i j : Instruction} {slot : Slot}
    (h : d.resolveInstruction i = .ok j) (hj : j.slot? = some slot) : i.slot? = some slot := by
  obtain ⟨-, ho⟩ := Draft.resolveInstruction_eq_ok h
  obtain ⟨op, operand⟩ := i
  unfold Draft.Resolves at ho
  split at ho
  · obtain ⟨offset, -, ho⟩ := ho
    simp [slot?, ho] at hj
  · obtain ⟨offset, -, ho⟩ := ho
    simp [slot?, ho] at hj
  · rwa [slot?, ho] at hj

/-- What was found of the code while it was emitted holds of the finished code. -/
theorem SlotsGiven.finished {c : Chunk} {d : Draft} {t n : Nat} {σ τ : Session} {slot : Slot}
    (h : SlotsGiven c t σ τ) (hd : τ.draft.Grows d) (hc : d.finish = .ok c)
    (hle : σ.draft.position ≤ n) (hlt : n < τ.draft.position) (hb : c.InBody t n)
    (hs : c.instructions[n]?.bind Instruction.slot? = some slot) :
    slot.toNat < τ.scopes.taken := by
  obtain ⟨i, hi⟩ : ∃ i, τ.draft.chunk.instructions[n]? = some i :=
    ⟨_, Array.getElem?_eq_getElem hlt⟩
  obtain ⟨j, hj, hr⟩ := (Draft.finish_eq_ok hc).2.2 (hd.instruction hi)
  refine h hle hlt hb ?_
  rw [hi]
  exact Instruction.slot?_of_resolved hr (by simpa [hj] using hs)

/-- Code that uses no slots may follow. -/
theorem SlotsGiven.behind {K : Piece → Bool → Session → Session → Prop} {c : Chunk} {t : Nat}
    {σ τ τ' : Session} {ms : List Move} (h : SlotsGiven c t σ τ) (hs : Safe τ.scopes.stack)
    (hms : ms.foldlM Move.slots (0, []) = some (0, [])) (hp : Move.pieces ms = [])
    (ha : Along K ms τ τ') : SlotsGiven c t σ τ' :=
  ((ha.does hp).interpret (R := SlotsKnown c t σ) (fun hm _ => hm.slotsKnown)
    (fun hp => hp.elim) hms ⟨Scopes.Inner.zero, hs, by simp, h⟩).code

/-- The statements of a routine take as many slots as are reserved for them. -/
theorem Frame.taken_runs {names : List String} {body : List Stmt} {q : Piece} {b : Bool}
    {σ σ' : Session} (h : Frame names σ.scopes) (hrun : Runs Quiet q b σ σ')
    (hq : q = .stmts body ∨ ∃ type, q = .body type body) :
    σ'.scopes.taken ≤ names.length + slotsNeeded body ∧
      (Stmt.allTidy body = true → (∀ x ∈ names, Stmt.anyDeclares x body = false) →
        σ'.scopes.taken = names.length + slotsNeeded body) := by
  obtain ⟨⟨bound, demand, around, exact'⟩, ⟨-, hdemand, haround, hexact⟩, -, hle, heq⟩ :=
    hrun.covers h.covers
  have htidy : q.tidy = Stmt.allTidy body ∧ ∀ x, q.declares x = Stmt.anyDeclares x body := by
    rcases hq with rfl | ⟨type, rfl⟩ <;> exact ⟨rfl, fun _ => rfl⟩
  have htotal : Ledger.total ⟨bound, demand, around, exact'⟩ = slotsNeeded body := by
    obtain rfl : demand = q.demand {} := hdemand
    obtain rfl : around = [] := haround
    rcases hq with rfl | ⟨type, rfl⟩ <;> simp [Ledger.total, slotsNeeded, Piece.demand]
  rw [htotal] at hle heq
  refine ⟨hle, fun ht hx => heq (hexact trivial (htidy.1.trans ht) fun x hm => ?_)⟩
  rw [htidy.2, hx x hm]

/-- What the frame of a routine holds, where `taken` slots are given out in the routine. -/
structure Chunk.Reserves (c : Chunk) (r : Routine) (t taken : Nat) : Prop where
  frame : ∃ params locals, c.instructions[t]? = some (.pushFrame params locals) ∧
    params.toNat = r.bound.length ∧ locals.toNat = slotsNeeded r.body
  used : ∀ {n slot}, c.InBody t n → c.instructions[n]?.bind Instruction.slot? = some slot →
    slot.toNat < taken
  le : taken ≤ r.bound.length + slotsNeeded r.body
  eq : Stmt.allTidy r.body = true → (∀ x ∈ r.bound, Stmt.anyDeclares x r.body = false) →
    taken = r.bound.length + slotsNeeded r.body

/-- Where the body of a subroutine begins, its scope holds the argument list, if any, and the parameters. -/
theorem SubRun.frame {K : Piece → Bool → Session → Session → Prop} {type : ValueType} {head : SubHead}
    {ps : List SubParam} {sub sub' : Subroutine} {skip : Label} {slot : Slot} {uses : Bool}
    {params locals : UInt16} {σ σ₁ σ₂ σ₃ : Session} {A B : Session → Prop}
    (h₁ : Along K [.mention head.name sub, .setSub head.name sub', .sees A, .sees B, .newLabel skip,
      .enter (.subroutine type)] σ σ₁)
    (h₂ : Along K [.emit (.jump skip), .mark sub.label, .emit (.pushFrame params locals)] σ₁ σ₂)
    (h₃ : Along K (Move.argListSlot uses slot ++ [Move.params ps]) σ₂ σ₃) :
    Frame ((if uses then [argList] else []) ++ ps.map (·.name)) σ₃.scopes := by
  have hempty : Frame [] σ₂.scopes := by
    rw [h₂.scopes rfl rfl, SubRun.entered h₁]
    exact .enter
  obtain ⟨τ, hlist, τ', hparams, rfl⟩ := along_append.mp h₃
  have hlist : Frame (if uses then [argList] else []) τ.scopes := by
    cases uses with
    | false =>
        obtain rfl : σ₂ = τ := hlist
        exact hempty
    | true =>
        obtain ⟨_, hslot, rfl⟩ := hlist
        obtain ⟨s, hs, rfl⟩ := Move.acts_argument.mp hslot
        exact hempty.bindArgument hs
  exact hlist.bindParams hparams

/-- **The frame of a subroutine reserves the slots that its body is given.** -/
theorem SubRun.holds {head : SubHead} {body : List Stmt} {τ τ' υ υ' : Session} {d : Draft}
    {c : Chunk}
    (h : SubRun (fun q e ρ ρ' => Runs Quiet q e ρ ρ' ∧ ρ = υ ∧ ρ' = υ') head body τ τ')
    (hd : τ'.draft.Grows d) (hc : d.finish = .ok c) :
    c.Reserves ⟨some head, body⟩ (τ.draft.position + 1) υ'.scopes.taken := by
  cases h with
  | @intro ps sub skip slot ends close σ₁ σ₂ σ₃ σ₄ σ₅ hps _ hclose h₁ h₂ h₃ hbody h₅ h₆ =>
  obtain ⟨hrun, -, rfl⟩ := hbody
  obtain ⟨e₃, hlt, e₆, hjump, hopen, -⟩ :=
    SubRun.layout hclose h₁ h₂ h₃ hrun.grows h₅ h₆ hd hc
  have hbound : Routine.bound ⟨some head, body⟩ =
      (if mentionsArgList body then [argList] else []) ++ ps.map (·.name) := by
    simp only [Routine.bound, Param.names_of_resolve hps]
  have hlength : (Routine.bound ⟨some head, body⟩).length =
      ps.length + (mentionsArgList body).toNat := by
    rw [hbound]
    cases mentionsArgList body <;> simp
  obtain ⟨hfit, hfit'⟩ : ps.length + (mentionsArgList body).toNat < UInt16.size ∧
      slotsNeeded body < UInt16.size := by
    obtain ⟨_, -, _, -, _, ⟨hps, rfl⟩, _, ⟨hls, rfl⟩, -⟩ := h₁
    exact ⟨hps, hls⟩
  have hframe : Frame (Routine.bound ⟨some head, body⟩) σ₃.scopes := by
    rw [hbound]
    exact SubRun.frame h₁ h₂ h₃
  have hgrow : σ₅.draft.Grows d := (h₆.grows_flat rfl).trans hd
  obtain ⟨hle, heq⟩ := hframe.taken_runs hrun (.inr ⟨_, rfl⟩)
  obtain ⟨hsafe, hgiven⟩ := hrun.slotsGiven (t := τ.draft.position + 1) (by omega)
    ((h₅.grows_flat hclose.pieces).trans hgrow) hc hframe.safe
  -- What closes the body uses no slots.
  have hgiven : SlotsGiven c (τ.draft.position + 1) σ₃ σ₅ :=
    hgiven.behind hsafe hclose.slots hclose.pieces h₅
  refine ⟨⟨_, _, hopen, ?_, ?_⟩, fun {n s} hb hs => ?_, hle, heq⟩
  · rw [hlength]
    exact Nat.mod_eq_of_lt hfit
  · exact Nat.mod_eq_of_lt hfit'
  · have hstop : c.bodyEnd (τ.draft.position + 1) = τ'.draft.position := by
      simp [Chunk.bodyEnd, hjump]
    obtain ⟨-, hfrom, hto, -⟩ := id hb
    rcases Nat.eq_or_lt_of_le hfrom with rfl | hfrom
    · simp [hopen, Instruction.slot?, Instruction.pushFrame] at hs
    · have := hgiven.finished hgrow hc (by omega) (by omega) hb hs
      rwa [h₅.scopes hclose.pieces hclose.scopeless] at this

/-- The frame of the top level reserves the slots that it is given. -/
theorem Program.top_holds {p : Program} {name : String} {options : CompileOptions}
    {u : CompiledUnit} {σ : Session} (h : compile name options p = .ok u)
    (hl : Lowers (.stmts p.body) true (p.entry name options) σ) :
    u.chunk.Reserves ⟨none, p.body⟩ 0 σ.scopes.taken := by
  obtain ⟨hfit, σ', hl', hfin⟩ := compile_eq_ok.mp h
  obtain rfl : σ = σ' := (Prod.mk.inj (Eq.trans hl.symm hl')).2
  obtain ⟨hcount, hchunk, -⟩ := Session.finish_eq_ok hfin
  have hhalt : (Move.op .halt).Does σ { σ with draft := σ.draft.emit (.bare .halt) } := rfl
  have hrun := hl.quiet hcount
  have hframe : Frame (Routine.bound ⟨none, p.body⟩) (p.entry name options).scopes := .enter
  obtain ⟨hle, heq⟩ := hframe.taken_runs hrun (.inl rfl)
  obtain ⟨hsafe, hgiven⟩ := hrun.slotsGiven (t := 0) (by simp [entry_position]) hhalt.grows hchunk
    hframe.safe
  have hend : Along Lowers [.op .halt] σ { σ with draft := σ.draft.emit (.bare .halt) } :=
    ⟨_, hhalt, rfl⟩
  have hgiven : SlotsGiven u.chunk 0 (p.entry name options)
      { σ with draft := σ.draft.emit (.bare .halt) } :=
    hgiven.behind hsafe rfl rfl hend
  refine ⟨⟨_, _, entry_frame h, rfl, Nat.mod_eq_of_lt hfit⟩, fun {n s} hb hs => ?_, hle, heq⟩
  obtain ⟨-, -, hto, -⟩ := id hb
  cases n with
  | zero => simp [entry_frame h, Instruction.slot?, Instruction.pushFrame] at hs
  | succ n =>
      refine hgiven.finished .refl hchunk ?_ ?_ hb hs
      · rw [entry_position]
        omega
      · exact (Draft.finish_eq_ok hchunk).2.1 ▸ hto

/-- The frame of every routine of a program that compiles. -/
theorem Program.Body.holds {p : Program} {name : String} {options : CompileOptions}
    {u : CompiledUnit} {r : Routine} {t : Nat} {σ : Session} (h : compile name options p = .ok u)
    (hb : p.Body name options r t σ) : u.chunk.Reserves r t σ.scopes.taken := by
  cases hb with
  | top hl => exact top_holds h hl
  | sub hsub hpart =>
      obtain ⟨σ₀, hl, hcount, hchunk⟩ := lowers_of_compile h
      obtain ⟨-, -, hbehind⟩ := hsub.within hl
      have hcount' := hbehind.count
      have hhalt : (Move.op .halt).Does σ₀ { σ₀ with draft := σ₀.draft.emit (.bare .halt) } := rfl
      exact (hpart.subRun (by omega)).2.holds (hbehind.grows.trans hhalt.grows) hchunk

/-! ### Slots of a compiled program -/

/-- **Slot reservation.**  In the unit of a program every routine has a frame, and every instruction
is of the body of a routine.  The local variables that a routine's own code loads and stores are slots
of its frame.  Where no `my` directly in the routine's scope repeats the name of a parameter, or
that of the argument list if it has a slot, and none directly in the body of a `for` repeats the loop
variable, the routine gives out all the slots of its frame. -/
theorem compile_reserves_slots {p : Program} {name : String} {options : CompileOptions}
    {u : CompiledUnit} (h : compile name options p = .ok u) :
    (∀ r ∈ p.routines, ∃ t σ, p.Body name options r t σ) ∧
    (∀ n < u.chunk.size, ∃ r t σ, p.Body name options r t σ ∧ u.chunk.InBody t n) ∧
    ∀ r t σ, p.Body name options r t σ → ∃ params locals,
      u.chunk.instructions[t]? = some (.pushFrame params locals) ∧
      (∀ n slot, u.chunk.InBody t n →
        u.chunk.instructions[n]? = some (.load slot) ∨
          u.chunk.instructions[n]? = some (.store slot) →
        slot.toNat < params.toNat + locals.toNat) ∧
      (Stmt.allTidy r.body = true → (∀ x ∈ r.bound, Stmt.anyDeclares x r.body = false) →
        σ.scopes.taken = params.toNat + locals.toNat) := by
  refine ⟨fun r hr => Program.exists_body h hr, fun n hn => Program.exists_inBody h hn,
    fun r t σ hb => ?_⟩
  obtain ⟨⟨params, locals, hi, hparams, hlocals⟩, hused, hle, heq⟩ := hb.holds h
  rw [← hparams, ← hlocals] at hle heq
  refine ⟨params, locals, hi, fun n slot hn hslot => ?_, heq⟩
  refine Nat.lt_of_lt_of_le (hused hn ?_) hle
  rcases hslot with hslot | hslot <;>
    simp [hslot, Instruction.slot?, Instruction.load, Instruction.store]

/-- A subroutine `sum` with a parameter, the argument list, a variable of its own and a loop over the
arguments, and a call of it. -/
def summing : Program where
  body := [
    .sub { name := "sum", params := [⟨.var "$start" {}, true⟩] } [
      .expr (.assign (.declare "$sum" .unknown {}) (.var "$start" {}) {}),
      .forEach "$item" (.var "@_" {}) [
        .expr (.assign (.var "$sum" {}) (.binary .add (.var "$sum" {}) (.var "$item" {}) {}) {})],
      .ret (some (.var "$sum" {})) {}],
    .expr (.call "sum" [.integer 1 {}, .integer 2 {}] {})]

/-- The subroutine of `summing` is given just the slots that its frame reserves. -/
theorem compile_reserves_slots_summing :
    ∃ u head body t σ params locals, compile "summing" {} summing = .ok u ∧
      summing.Body "summing" {} ⟨some head, body⟩ t σ ∧
      u.chunk.instructions[t]? = some (.pushFrame params locals) ∧
      σ.scopes.taken = params.toNat + locals.toNat := by
  have hok : (compile "summing" {} summing).isOk = true := by decide +kernel
  cases h : compile "summing" {} summing with
  | error e => simp [h, Except.isOk, Except.toBool] at hok
  | ok u =>
      obtain ⟨hroutines, -, hframes⟩ := compile_reserves_slots h
      obtain ⟨t, σ, hb⟩ := hroutines _ (List.mem_cons_of_mem _ (List.mem_cons_self ..))
      obtain ⟨params, locals, hi, -, htaken⟩ := hframes _ t σ hb
      exact ⟨u, _, _, t, σ, params, locals, rfl, hb, hi, htaken (by decide) (by decide)⟩

end StackScript
