import StackScript.Proofs.Scoping

/-!
# Where a fault stops a lowering

A fault stops a lowering at a move of the table: the moves before it have been made, and what was open
is closed behind it.  Most steps always end, and those that may fail leave the session as it was.

* `Halts`: lowering a piece stops at a move of a line of the table, or in lowering a smaller piece.
* `Step.Ends`, `Step.Clean`: the step always ends; it changes nothing if it fails.
* `Lower.Within`: behind the first moves of a line, a step stops only where the piece may.
* `Piece.halts`: a fault stops a piece nowhere else.
-/

namespace StackScript

open Lower

/-- The first part of a move that is made in parts. -/
inductive Move.Begins : Move → Session → Session → Prop where
  /-- Some of the parameters have been bound. -/
  | params {ps qs : List SubParam} {σ σ' : Session} : bindParams ps σ = (.ok (), σ') →
      Begins (.params (ps ++ qs)) σ σ'
  /-- Some of the traits have been applied. -/
  | traits {head : SubHead} {entry : Label} {names rest : List String} {σ σ' : Session} :
      head.traits = names ++ rest → applyTraits head entry names σ = (.ok (), σ') →
      Begins (.traits head entry) σ σ'

/-- Lowering `p` from `σ` stops with the fault, and this is the session then.  It stops at a move of a
line of the table or in the middle of it, or in lowering a smaller piece, and closes what was open. -/
inductive Halts (p : Piece) (σ : Session) (f : Fault) : Session → Prop where
  | move {b : Bool} {ms ns : List Move} {τ : Session} : Unfolds p (ms ++ ns) b → Along Lowers ms σ τ →
      Halts p σ f τ
  | begun {b : Bool} {m : Move} {ms ns : List Move} {τ υ : Session} : Unfolds p (ms ++ m :: ns) b →
      Along Lowers ms σ τ → m.Begins τ υ → Halts p σ f υ
  | piece {q : Piece} {b c : Bool} {ms ns : List Move} {τ υ : Session} :
      Unfolds p (ms ++ .piece q c :: ns) b → Along Lowers ms σ τ → q.lower τ = (.error f, υ) →
      Halts p σ f υ
  | closing {id : PackageId} {υ : Session} : Halts p σ f υ →
      Halts p σ f { υ with scopes := υ.scopes.leave, package := id }

/-- The step always comes to its end. -/
def Step.Ends {σ α : Type} (x : Step σ α) : Prop := ∀ s, ∃ a s', x s = (.ok a, s')

namespace Step.Ends

variable {σ α β : Type} {x : Step σ α} {k : α → Step σ β}

/-- Steps that always end, one after the other, always end. -/
theorem bind (hx : Ends x) (hk : ∀ a, Ends (k a)) : Ends (x >>= k) := by
  intro s
  obtain ⟨a, s₁, hs₁⟩ := hx s
  obtain ⟨b, s₂, hs₂⟩ := hk a s₁
  exact ⟨b, s₂, Step.bind_eq_ok.mpr ⟨a, s₁, hs₁, hs₂⟩⟩

theorem andThen {y : Step σ β} (hx : Ends x) (hy : Ends y) : Ends (x >>= fun _ => y) :=
  hx.bind fun _ => hy

/-- A step that always ends gives no fault. -/
theorem ne_error (hx : Ends x) {f : Fault} {s s' : σ} : x s ≠ (.error f, s') := by
  intro h
  obtain ⟨a, t, ht⟩ := hx s
  cases ht.symm.trans h

theorem pure {a : α} : Ends (Pure.pure a : Step σ α) := fun s => ⟨a, s, rfl⟩

theorem view {f : σ → α} : Ends (Step.view f) := fun s => ⟨f s, s, rfl⟩

theorem update {f : σ → σ} : Ends (Step.update f) := fun s => ⟨(), f s, rfl⟩

end Step.Ends

namespace Lower

open Step (Ends)

theorem ends_emit {i : Instruction} : Ends (emit i) := .update

theorem ends_emitOp {op : Opcode} : Ends (emitOp op) := .update

theorem ends_report {p : Problem} {span : Span} : Ends (report p span) := .update

/-- A type is enforced or the misfit is reported; neither fails. -/
theorem ends_enforce {e : Expr} {type : ValueType} {role : Role} : Ends (enforce e type role) := by
  unfold enforce
  split
  · exact .pure
  · refine .bind .view fun actual => ?_
    split
    · exact .pure
    · exact ends_emit.andThen .pure
    · exact ends_report.andThen .pure

theorem ends_increment {slot : Slot} : Ends (emitIncrement slot) :=
  ends_emit.andThen <| ends_emit.andThen <| ends_emitOp.andThen ends_emit

theorem ends_undefReturn {span : Span} : Ends (emitUndefReturn span) :=
  .bind .view fun _ => ends_emitOp.andThen <| ends_enforce.andThen ends_emitOp

/-- `last` and `next` outside of a loop are reported, which is no fault. -/
theorem ends_loopControl {name : String} {args : List Expr} {span : Span} :
    Ends (lowerLoopControl name args span) := by
  unfold lowerLoopControl
  split
  · exact ends_report
  · refine .bind .view fun found => ?_
    cases found with
    | none => exact ends_report
    | some control =>
        have hjump {l : Label} : Ends (do emit (.jump l); emitOp .loadUndefined) :=
          ends_emit.andThen ends_emitOp
        simp only
        split
        · exact hjump
        · split
          · exact ends_increment.andThen hjump
          · exact hjump

/-- A checkpoint with a wrong argument is reported, which is no fault. -/
theorem ends_checkpoint {args : List Expr} {span : Span} : Ends (lowerCheckpoint args span) := by
  unfold lowerCheckpoint
  split
  · refine .bind .view fun on => ?_
    split
    · exact ends_emit.andThen ends_emitOp
    · exact ends_emitOp
  · exact ends_report

/-- What holds an expression to a type is in the table. -/
theorem exists_enforces (e : Expr) (type : ValueType) (role : Role) :
    ∃ cs ok, Enforces e type role cs ok := by
  obtain ⟨ok, σ', h⟩ := @ends_enforce e type role (Session.start "" {})
  obtain ⟨cs, hc, -⟩ := (enforce_eq_ok (K := Lowers)).mp h
  exact ⟨cs, ok, hc⟩

end Lower

/-- The step changes nothing if it fails. -/
def Step.Clean {σ α : Type} (x : Step σ α) : Prop := ∀ {f s s'}, x s = (.error f, s') → s' = s

namespace Step.Clean

variable {α : Type}

/-- A step that always ends is clean, there being no fault. -/
theorem ends {σ : Type} {x : Step σ α} (h : Ends x) : Clean x := fun hx => absurd hx h.ne_error

theorem fail {σ : Type} {f : Fault} : Clean (Step.fail f : Step σ α) := by
  intro _ s s' h
  cases h
  rfl

/-- A step on the scopes alone changes no session when it fails. -/
theorem onScopes {x : Step Scopes α} (h : Clean x) : Clean (onScopes x) := by
  intro f σ σ' hx
  rcases hr : x σ.scopes with ⟨result, s⟩
  simp only [Lower.onScopes, hr, Prod.mk.injEq] at hx
  obtain ⟨rfl, rfl⟩ := hx
  rw [h hr]

/-- A step on the draft alone changes no session when it fails. -/
theorem onDraft {x : Step Draft α} (h : Clean x) : Clean (onDraft x) := by
  intro f σ σ' hx
  rcases hr : x σ.draft with ⟨result, s⟩
  simp only [Lower.onDraft, hr, Prod.mk.injEq] at hx
  obtain ⟨rfl, rfl⟩ := hx
  rw [h hr]

/-- Where no slot can be given out, none is counted. -/
theorem alloc : Clean Scopes.alloc := by
  have hgo {f : Fault} : ∀ {l l' : List Scope}, Scopes.alloc.go l = (.error f, l') → l' = l := by
    intro l
    induction l with
    | nil =>
        intro l' h
        cases h
        rfl
    | cons a r ih =>
        intro l' h
        simp only [Scopes.alloc.go] at h
        split at h
        · split at h <;> cases h
          rfl
        · rcases hr : Scopes.alloc.go r with ⟨result, r'⟩
          simp only [hr, Prod.mk.injEq] at h
          obtain ⟨rfl, rfl⟩ := h
          rw [ih hr]
  intro f s s' h
  simp only [Scopes.alloc, Prod.mk.injEq] at h
  obtain ⟨hr, rfl⟩ := h
  exact congrArg Scopes.mk (hgo (Prod.ext hr rfl))

/-- Where no scope is open, nothing is bound. -/
theorem bind {name : String} {slot : Slot} {type : ValueType} : Clean (Scopes.bind name slot type) := by
  intro f s s' h
  unfold Scopes.bind at h
  split at h <;> cases h
  rfl

/-- The slot is looked for before the name is bound, so a declaration that fails has bound nothing. -/
theorem declare {name : String} {type : ValueType} : Clean (Scopes.declare name type) := by
  intro f s s' h
  rcases Step.bind_eq_error.mp h with h | ⟨found, s₁, hs₁, h⟩
  · exact (congrArg Prod.snd h).symm
  · cases hs : s.stack with
    | nil => simp [Step.check, Scopes.top, hs, Except.map] at hs₁
    | cons a r =>
        obtain rfl : s = s₁ := congrArg Prod.snd hs₁
        cases found with
        | some b => cases h
        | none =>
            rcases Step.bind_eq_error.mp h with h | ⟨slot, s₂, hs₂, h⟩
            · exact alloc h
            · -- A scope is open, so the name can be bound.
              have hne : s₂.stack ≠ [] := by
                rw [(Scopes.alloc_ok hs₂).2.1, hs, Scopes.bump]
                split <;> simp
              rcases Step.bind_eq_error.mp h with h | ⟨_, _, _, h⟩
              · unfold Scopes.bind at h
                split at h
                · exact absurd ‹_› hne
                · cases h
              · cases h

/-- A parameter for which there is no slot is not bound. -/
theorem bindArgument {name : String} {type : ValueType} : Clean (Scopes.bindArgument name type) := by
  intro f s s' h
  rcases Step.bind_eq_error.mp h with h | ⟨inner, s₁, hs₁, h⟩
  · exact (congrArg Prod.snd h).symm
  · obtain rfl : s = s₁ := congrArg Prod.snd hs₁
    cases inner with
    | false => exact fail h
    | true =>
        rcases Step.bind_eq_error.mp h with h | ⟨slot, s₂, hs₂, h⟩
        · exact alloc h
        · cases h

/-- A label that cannot be marked leaves the draft as it was. -/
theorem mark {l : Label} : Clean (Draft.mark l) := by
  intro f d d' h
  unfold Draft.mark at h
  split at h <;> cases h <;> rfl

/-- A constant for which the pool has no room leaves no instruction behind. -/
theorem emitConstant {v : Constant} : Clean (Draft.emitConstant v) := by
  intro f d d' h
  unfold Draft.emitConstant at h
  rcases hc : Chunk.addConstant v d.chunk with ⟨e | index, c⟩
  · rw [hc] at h
    obtain ⟨-, rfl⟩ := Chunk.addConstant_error hc
    exact (Prod.mk.inj h).2.symm
  · rw [hc] at h
    cases h

end Step.Clean

namespace Lower

open Step (Ends Clean)

/-- A fault in a scope is the fault of the whole, and the scope is left. -/
theorem inScope_eq_error {α : Type} {kind : ScopeKind} {x : Lower α} {f : Fault} {σ σ' : Session} :
    inScope kind x σ = (.error f, σ') ↔
      ∃ τ, x { σ with scopes := σ.scopes.enter kind } = (.error f, τ) ∧
        σ' = { τ with scopes := τ.scopes.leave } := by
  unfold inScope
  rcases x { σ with scopes := σ.scopes.enter kind } with ⟨result, τ⟩
  simp only [Prod.mk.injEq]
  constructor
  · rintro ⟨rfl, rfl⟩
    exact ⟨τ, ⟨rfl, rfl⟩, rfl⟩
  · rintro ⟨_, ⟨rfl, rfl⟩, rfl⟩
    exact ⟨rfl, rfl⟩

/-- The moves are the first of a line of the table for `p`. -/
def Starts (p : Piece) (ms : List Move) : Prop := ∃ ns b, Unfolds p (ms ++ ns) b

/-- A row that a line of the table begins with is the start of it. -/
theorem Starts.of {p : Piece} {ms L : List Move} {b : Bool} (hu : Unfolds p L b) (h : ms <+: L) :
    Starts p ms := by
  obtain ⟨ns, rfl⟩ := h
  exact ⟨ns, b, hu⟩

/-- Behind the moves `ms` of a line of the table for `p`, the step stops only where lowering `p` may
stop. -/
structure Within {α : Type} (p : Piece) (σ : Session) (ms : List Move) (x : Lower α) : Prop where
  stops : ∀ {f τ υ}, Along Lowers ms σ τ → x τ = (.error f, υ) → Halts p σ f υ

namespace Within

variable {α β : Type} {p q : Piece} {σ : Session} {b : Bool} {ms ns : List Move} {x : Lower α}
  {k : α → Lower β}

/-- A step that always ends stops nowhere. -/
theorem ends (h : Ends x) : Within p σ ms x := ⟨fun _ hx => absurd hx h.ne_error⟩

/-- If the step ends, it has made moves for which `R` holds. -/
theorem bindTo {R : α → List Move → Prop} (hx : Within p σ ms x)
    (hm : ∀ {a τ υ}, x τ = (.ok a, υ) → ∃ ls, R a ls ∧ Along Lowers ls τ υ)
    (hk : ∀ {a ls}, R a ls → Within p σ (ms ++ ls) (k a)) : Within p σ ms (x >>= k) := by
  refine ⟨fun {f τ υ} ha h => ?_⟩
  rcases Step.bind_eq_error.mp h with h | ⟨a, τ', hτ', h⟩
  · exact hx.stops ha h
  · obtain ⟨ls, hls, ha'⟩ := hm hτ'
    exact (hk hls).stops (ha.append ha') h

/-- A step may stop where the piece may; if it ends, its moves are behind it and the rest may stop from
there on. -/
theorem bind {m : α → List Move} (hx : Within p σ ms x)
    (hm : ∀ {a τ υ}, x τ = (.ok a, υ) → Along Lowers (m a) τ υ)
    (hk : ∀ a, Within p σ (ms ++ m a) (k a)) : Within p σ ms (x >>= k) :=
  hx.bindTo (R := fun a ls => ls = m a) (fun h => ⟨_, rfl, hm h⟩) fun {a _} hls => hls ▸ hk a

/-- The same for a step of one move. -/
theorem move {m : α → Move} (hx : Within p σ ms x)
    (hm : ∀ {a τ υ}, x τ = (.ok a, υ) → (m a).Acts Lowers τ υ)
    (hk : ∀ a, Within p σ (ms ++ [m a]) (k a)) : Within p σ ms (x >>= k) :=
  hx.bind (m := fun a => [m a]) (fun h => ⟨_, hm h, rfl⟩) hk

/-- What follows the step ends. -/
theorem first (hx : Within p σ ms x) (hk : ∀ a, Ends (k a)) : Within p σ ms (x >>= k) := by
  refine ⟨fun {f τ υ} ha h => ?_⟩
  rcases Step.bind_eq_error.mp h with h | ⟨a, τ', hτ', h⟩
  · exact hx.stops ha h
  · exact absurd h (hk a).ne_error

/-- A step that changes nothing when it fails stops between two moves. -/
theorem clean (hx : Clean x) (hu : Starts p ms) : Within p σ ms x := by
  refine ⟨fun {f τ υ} ha h => ?_⟩
  obtain ⟨ns, b, hu⟩ := hu
  obtain rfl := hx h
  exact .move hu ha

/-- What is read off the session may be anything. -/
theorem view {f : Session → α} (hk : ∀ a, Within p σ ms (k a)) : Within p σ ms (Step.view f >>= k) :=
  ⟨fun ha h => (hk _).stops ha (Step.view_bind ▸ h)⟩

theorem emit {i : Instruction} {y : Lower β} (hk : Within p σ (ms ++ [Move.emit i]) y) :
    Within p σ ms (do Lower.emit i; y) :=
  (ends ends_emit).move (m := fun _ => .emit i) id fun _ => hk

theorem newLabel {k : Label → Lower β} (hk : ∀ l, Within p σ (ms ++ [Move.newLabel l]) (k l)) :
    Within p σ ms (Lower.newLabel >>= k) :=
  (ends fun _ => ⟨_, _, rfl⟩).move (m := .newLabel) id hk

theorem newMarkedLabel {k : Label → Lower β} (hk : ∀ l, Within p σ (ms ++ [Move.newMarkedLabel l]) (k l)) :
    Within p σ ms (Lower.newMarkedLabel >>= k) :=
  (ends fun _ => ⟨_, _, rfl⟩).move (m := .newMarkedLabel) id hk

/-- A label that cannot be marked stops the piece before the move that marks it. -/
theorem mark {l : Label} {y : Lower β} (hu : Starts p ms)
    (hk : Within p σ (ms ++ [Move.mark l]) y) : Within p σ ms (do Lower.mark l; y) :=
  (clean Clean.mark.onDraft hu).move (m := fun _ => .mark l) id fun _ => hk

/-- A number of slots that is too large stops the piece before the move that needs it. -/
theorem slotCount {n : Nat} {k : UInt16 → Lower β} (hu : Starts p ms)
    (hk : Within p σ (ms ++ [Move.sees fun _ => n < UInt16.size]) (k n.toUInt16)) :
    Within p σ ms (Lower.slotCount n >>= k) := by
  by_cases hn : n < UInt16.size
  · have heq : Lower.slotCount n = pure n.toUInt16 := if_pos hn
    rw [heq, Step.pure_bind]
    exact ⟨fun ha h => hk.stops (ha.append ⟨_, ⟨hn, rfl⟩, rfl⟩) h⟩
  · have heq : Lower.slotCount n = Step.fail .tooManyLocals := if_neg hn
    rw [heq]
    refine clean (fun {f s s'} h => ?_) hu
    cases h
    rfl

/-- A piece of the line. -/
theorem result {c : Bool} (hu : Starts p (ms ++ [Move.piece q c])) : Within p σ ms q.lower := by
  obtain ⟨ns, b, hu⟩ := hu
  rw [List.append_assoc] at hu
  exact ⟨fun ha h => .piece hu ha h⟩

/-- Lowering a smaller piece stops only inside of it. -/
theorem lowered {x : Lower Unit} (hq : q.lower = do x; return true)
    (hu : Starts p (ms ++ [Move.piece q true])) : Within p σ ms x := by
  refine ⟨fun {f τ υ} ha h => (result hu).stops ha ?_⟩
  rw [hq]
  exact Step.bind_eq_error.mpr (.inl h)

/-- Lowering a smaller piece, and then the rest. -/
theorem lower {x : Lower Unit} {y : Lower β} (hq : q.lower = do x; return true)
    (hu : Starts p (ms ++ [Move.piece q true])) (hk : Within p σ (ms ++ [Move.piece q true]) y) :
    Within p σ ms (do x; y) := by
  refine (lowered hq hu).move (m := fun _ => .piece q true) (fun {_ τ υ} h => ?_) fun _ => hk
  show q.lower τ = (.ok true, υ)
  rw [hq]
  exact Step.bind_eq_ok.mpr ⟨(), υ, h, rfl⟩

/-- A fault closes the scope. -/
theorem inScope {kind : ScopeKind} (hx : Within p σ (ms ++ [Move.enter kind]) x) :
    Within p σ ms (Lower.inScope kind x) := by
  refine ⟨fun {f τ υ} ha h => ?_⟩
  obtain ⟨τ', hr, rfl⟩ := inScope_eq_error.mp h
  exact .closing (hx.stops (ha.append ⟨_, rfl, rfl⟩) hr)

/-- A body in a scope of its own, and then the rest. -/
theorem block {body : List Stmt} {y : Lower β}
    (hu : Starts p (ms ++ [Move.enter .block] ++ [Move.piece (.stmts body) true]))
    (hk : Within p σ (ms ++ Move.block body) y) :
    Within p σ ms (do Lower.inScope .block (lowerStmts body); y) :=
  (inScope (lowered rfl hu)).bind (m := fun _ => Move.block body) along_block fun _ => hk

/-- A fault closes the scope and leaves the package. -/
theorem packaged {id : PackageId} {body : List Stmt}
    (hu : ∀ outer, Starts p (ms ++ [Move.sees fun σ => σ.package = outer, .goTo id, .enter .block] ++
      [Move.piece (.stmts body) true])) :
    Within p σ ms (Lower.inPackage id (Lower.inScope .block (lowerStmts body))) := by
  refine ⟨fun {f τ υ} ha h => ?_⟩
  rcases hr : lowerStmts body { τ with package := id, scopes := τ.scopes.enter .block } with ⟨result, τ'⟩
  simp only [Lower.inPackage, Lower.inScope, hr, Prod.mk.injEq] at h
  obtain ⟨rfl, rfl⟩ := h
  exact .closing ((lowered (q := .stmts body) rfl (hu τ.package)).stops
    (ha.append ⟨_, ⟨rfl, rfl⟩, _, rfl, _, rfl, rfl⟩) hr)

/-- An expression whose value is dropped, and then the rest. -/
theorem effect {e : Option Expr} {y : Lower β}
    (hu : ∀ e', e = some e' → Starts p (ms ++ [Move.piece (.expr e') true]))
    (hk : Within p σ (ms ++ Move.effect e) y) : Within p σ ms (do lowerEffect e; y) := by
  refine bind (m := fun _ => Move.effect e) ?_ along_effect fun _ => hk
  cases e with
  | none => exact ends .pure
  | some e =>
      exact (lowered rfl (hu e rfl)).first fun _ => ends_emitOp

/-- A condition that may be left out, and then the rest. -/
theorem guard {done : Label} {e : Option Expr} {y : Lower β}
    (hu : ∀ e', e = some e' → Starts p (ms ++ [Move.piece (.expr e') true]))
    (hk : Within p σ (ms ++ Move.guarded done e) y) : Within p σ ms (do lowerGuard done e; y) := by
  refine bind (m := fun _ => Move.guarded done e) ?_ along_guarded fun _ => hk
  cases e with
  | none => exact ends .pure
  | some e =>
      exact (lowered rfl (hu e rfl)).first fun _ => ends_emit

/-- Binding parameters stops with some of them bound. -/
theorem params {ps : List SubParam} (hu : Starts p (ms ++ [Move.params ps])) :
    Within p σ ms (bindParams ps) := by
  have hpart : ∀ {ps f τ υ}, bindParams ps τ = (.error f, υ) →
      ∃ qs rs, ps = qs ++ rs ∧ bindParams qs τ = (.ok (), υ) := by
    intro ps
    induction ps with
    | nil =>
        intro f τ υ h
        cases h
    | cons q qs ih =>
        intro f τ υ h
        rcases Step.bind_eq_error.mp h with h | ⟨slot, τ', hτ', h⟩
        · obtain rfl := Clean.bindArgument.onScopes h
          exact ⟨[], q :: qs, rfl, rfl⟩
        · obtain ⟨rs, ss, rfl, hrs⟩ := ih h
          exact ⟨q :: rs, ss, rfl, Step.bind_eq_ok.mpr ⟨slot, τ', hτ', hrs⟩⟩
  refine ⟨fun {f τ υ} ha h => ?_⟩
  obtain ⟨qs, rs, rfl, hqs⟩ := hpart h
  obtain ⟨ns, b, hu⟩ := hu
  rw [List.append_assoc] at hu
  exact .begun hu ha (.params hqs)

/-- Applying traits stops with some of them applied. -/
theorem traits {head : SubHead} {entry : Label} (hu : Starts p (ms ++ [Move.traits head entry])) :
    Within p σ ms (applyTraits head entry head.traits) := by
  have hexport : Clean (exportSub head entry) := by
    intro f τ υ h
    rw [exportSub, Step.view_bind] at h
    cases hm : τ.packages.enclosingModule? τ.package with
    | none =>
        simp only [hm] at h
        exact absurd h ends_report.ne_error
    | some module =>
        simp only [hm] at h
        split at h
        · cases h
        · rw [Step.view_bind] at h
          cases ho : τ.draft.offset? entry with
          | none =>
              simp only [ho] at h
              exact Clean.fail h
          | some position =>
              simp only [ho] at h
              cases h
  have hpart : ∀ {names f τ υ}, applyTraits head entry names τ = (.error f, υ) →
      ∃ done rest, names = done ++ rest ∧ applyTraits head entry done τ = (.ok (), υ) := by
    intro names
    induction names with
    | nil =>
        intro f τ υ h
        cases h
    | cons name names ih =>
        intro f τ υ h
        -- The first trait fails, or is applied and one of the others fails.
        have hfirst {x : Lower Unit} (hx : Clean x)
            (h : (do x; applyTraits head entry names) τ = (.error f, υ))
            (heq : ∀ rest, applyTraits head entry (name :: rest) = (do x; applyTraits head entry rest)) :
            ∃ done rest, name :: names = done ++ rest ∧ applyTraits head entry done τ = (.ok (), υ) := by
          rcases Step.bind_eq_error.mp h with h | ⟨_, τ', hτ', h⟩
          · obtain rfl := hx h
            exact ⟨[], name :: names, rfl, rfl⟩
          · obtain ⟨done, rest, rfl, hdone⟩ := ih h
            refine ⟨name :: done, rest, rfl, ?_⟩
            rw [heq]
            exact Step.bind_eq_ok.mpr ⟨_, τ', hτ', hdone⟩
        by_cases hname : (name == "export") = true
        · have heq (rest : List String) : applyTraits head entry (name :: rest) =
              (do exportSub head entry; applyTraits head entry rest) := by
            rw [applyTraits, if_pos hname]
          exact hfirst hexport (heq names ▸ h) heq
        · have heq (rest : List String) : applyTraits head entry (name :: rest) =
              (do report (.unknownTrait name) head.span; applyTraits head entry rest) := by
            rw [applyTraits, if_neg hname]
          exact hfirst (Clean.ends ends_report) (heq names ▸ h) heq
  refine ⟨fun {f τ υ} ha h => ?_⟩
  obtain ⟨done, rest, hnames, hdone⟩ := hpart h
  obtain ⟨ns, b, hu⟩ := hu
  rw [List.append_assoc] at hu
  exact .begun hu ha (.traits hnames hdone)

/-! ### Expressions -/

/-- A number of arguments that is too large is reported and ends the call. -/
theorem checkedArgc {name : String} {n : Nat} {span : Span} {k : Option UInt8 → Lower β}
    (hk : n < UInt8.size → Within p σ ms (k (some n.toUInt8))) (hend : Ends (k none)) :
    Within p σ ms (checkedArgc? name n span >>= k) := by
  by_cases hn : n < UInt8.size
  · have heq : checkedArgc? name n span = pure (some n.toUInt8) := if_pos hn
    rw [heq, Step.pure_bind]
    exact hk hn
  · have heq : checkedArgc? name n span = (do report (.tooManyArguments name) span; return none) :=
      if_neg hn
    rw [heq, Step.bind_assoc]
    exact ends (ends_report.andThen hend)

/-- An assignment stops in its value, or where it stores it. -/
theorem assign {target value : Expr} {s : Span} :
    Within (.expr (.assign target value s)) σ [] (lowerExpr (.assign target value s)) := by
  rw [lowerExpr]
  -- Whatever is assigned to, the value is lowered first.
  have hlower (hu : Starts (.expr (.assign target value s)) [.piece (.expr value) true])
      (hk : Within (.expr (.assign target value s)) σ [.piece (.expr value) true]
        (assignmentTarget? target)) :
      Within (.expr (.assign target value s)) σ [] (do lowerExpr value; storeInto target value) := by
    refine lower rfl hu (first hk fun found => ?_)
    cases found with
    | none => exact .pure
    | some found =>
        refine .bind ends_enforce fun ok => ?_
        cases ok with
        | true => exact ends_emitOp.andThen ends_emit
        | false => exact .pure
  unfold assignmentTarget? at hlower
  split at hlower
  · refine hlower ⟨_, _, .assignVarUndeclared⟩ (ends (.bind .view fun found => ?_))
    cases found with
    | some b => exact .pure
    | none => exact ends_report.andThen .pure
  · rename_i name type s'
    obtain ⟨cs, ok, hc⟩ := exists_enforces value type .assignment
    cases ok with
    | true =>
        have hu := @Unfolds.assignDeclare name type value s s' 0 cs hc
        exact hlower ⟨_, _, hu⟩ (first (clean Clean.declare.onScopes ⟨_, _, hu⟩) fun _ => .pure)
    | false =>
        have hu := @Unfolds.assignDeclareMismatch name type value s s' 0 cs hc
        exact hlower ⟨_, _, hu⟩ (first (clean Clean.declare.onScopes ⟨_, _, hu⟩) fun _ => .pure)
  · rename_i hvar hdecl
    exact hlower ⟨_, _, .assignOther hvar hdecl⟩ (ends (ends_report.andThen .pure))

/-- A call stops in one of its arguments, or where the callee is looked up. -/
theorem call {name : String} {args : List Expr} {s : Span} :
    Within (.expr (.call name args s)) σ [] (lowerExpr (.call name args s)) := by
  rw [lowerExpr]
  split
  · exact ends ends_loopControl
  split
  · exact ends ends_checkpoint
  rename_i hloop hcp
  split
  · rename_i builtin hb
    exact checkedArgc (fun hlt => lower rfl ⟨_, _, .builtin hb hlt⟩ <| ends ends_emit) .pure
  · rename_i hb
    have ho : Ordinary name := by
      simp only [Bool.or_eq_true, beq_iff_eq, not_or] at hloop hcp
      exact ⟨hloop.1, hloop.2, hcp, hb⟩
    refine move (m := fun found => .sees (Means name found)) (ends .view) Step.view_eq_ok.mp
      fun found => ?_
    cases found with
    | none =>
        exact checkedArgc (fun hlt => lower rfl ⟨_, _, .external ho hlt⟩ <|
          ends (Ends.andThen .update ends_emit)) .pure
    | some found =>
        obtain ⟨owner, sub⟩ := found
        refine view fun absolute => ?_
        simp only
        split
        · exact ends ends_report
        · rename_i hle
          refine checkedArgc (fun hlt => first
            (result (q := .args args sub.params) ⟨_, _, .callRefused ho (Nat.not_lt.mp hle) hlt⟩)
            fun fits => ?_) .pure
          have hcall {argc : UInt8} :
              Ends (do recordUse absolute s true; Lower.emit (.call sub.label argc)) :=
            .andThen .update ends_emit
          cases fits with
          | false => exact .pure
          | true =>
              simp only [if_true]
              split
              · exact ends_emit.andThen hcall
              · exact hcall

/-- Lowering an expression stops only where the piece may. -/
theorem expr (e : Expr) : Within (.expr e) σ [] (lowerExpr e) := by
  cases e with
  | integer v s | bool v s =>
      rw [lowerExpr]
      exact ends ends_emit
  | float v s =>
      rw [lowerExpr]
      exact clean Clean.emitConstant.onDraft ⟨_, _, .float⟩
  | str v s =>
      rw [lowerExpr]
      exact clean Clean.emitConstant.onDraft ⟨_, _, .str⟩
  | undefined s =>
      rw [lowerExpr]
      exact ends ends_emitOp
  | var name s =>
      rw [lowerExpr]
      refine ends (.bind .view fun found => ?_)
      cases found with
      | some b => exact ends_emit
      | none => exact ends_report.andThen ends_emitOp
  | declare name type s =>
      rw [lowerExpr]
      exact first (clean Clean.declare.onScopes ⟨_, _, @Unfolds.declare name type s 0⟩) fun _ =>
        ends_emitOp.andThen <| ends_emitOp.andThen ends_emit
  | typed type pattern s =>
      rw [lowerExpr]
      exact ends (ends_report.andThen ends_emitOp)
  | list items s =>
      rw [lowerExpr]
      refine lower rfl ⟨_, _, .list⟩ ?_
      split
      · exact ends ends_emit
      · exact clean Clean.fail ⟨_, _, .list⟩
  | binary o left right s =>
      rw [lowerExpr]
      exact lower rfl ⟨_, _, .binary⟩ <| lower rfl ⟨_, _, .binary⟩ <| ends ends_emitOp
  | unary o operand s =>
      rw [lowerExpr]
      exact lower rfl ⟨_, _, .unary⟩ <| ends ends_emitOp
  | assign target value s => exact assign
  | index target position s =>
      rw [lowerExpr]
      exact lower rfl ⟨_, _, .index⟩ <| lower rfl ⟨_, _, .index⟩ <| ends ends_emitOp
  | call name args s => exact call

theorem each (es : List Expr) : Within (.each es) σ [] (lowerEach es) := by
  cases es with
  | nil =>
      rw [lowerEach]
      exact ends .pure
  | cons e es =>
      rw [lowerEach]
      exact lower rfl ⟨_, _, .eachCons⟩ <| lowered rfl ⟨_, _, .eachCons⟩

theorem backward (es : List Expr) : Within (.backward es) σ [] (lowerBackward es) := by
  cases es with
  | nil =>
      rw [lowerBackward]
      exact ends .pure
  | cons e es =>
      rw [lowerBackward]
      exact lower rfl ⟨_, _, .backwardCons⟩ <| lowered rfl ⟨_, _, .backwardCons⟩

/-- Arguments are lowered from the last one on, each with its parameter. -/
theorem args (es : List Expr) (ps : List SubParam) : Within (.args es ps) σ [] (lowerArgs es ps) := by
  cases es with
  | nil =>
      rw [lowerArgs]
      exact ends .pure
  | cons e es =>
      rw [lowerArgs]
      refine move (m := .piece (.args es ps.tail))
        (result (q := .args es ps.tail) ⟨_, _, .argsRefused⟩) id fun fits => ?_
      cases fits with
      | false => exact ends .pure
      | true =>
          cases ps with
          | nil => exact lower rfl ⟨_, _, .argsFree⟩ <| ends .pure
          | cons q ps =>
              obtain ⟨cs, ok, hc⟩ := exists_enforces e q.type .argument
              refine lower rfl ⟨_, _, .argsHeld hc⟩ (ends ?_)
              simp only [List.head?_cons]
              split
              · exact ends_emitOp.andThen ends_enforce
              · exact ends_enforce

/-! ### Statements -/

theorem ret {span : Span} (value : Option Expr) :
    Within (.stmt (.ret value span)) σ [] (lowerStmt (.ret value span)) := by
  cases value with
  | none =>
      rw [lowerStmt]
      exact ends ends_undefReturn
  | some value =>
      rw [lowerStmt]
      obtain ⟨cs, ok, hc⟩ := exists_enforces value .unknown .result
      exact lower rfl ⟨_, _, .ret hc⟩ <| ends <| .bind .view fun _ => ends_enforce.andThen ends_emitOp

/-- A conditional stops in its condition, in a body, or where a label is marked. -/
theorem cond {condition : Expr} {body : List Stmt} {elsifs : List (Expr × List Stmt)}
    {rest : Option (List Stmt)} :
    Within (.stmt (.cond condition body elsifs rest)) σ []
      (lowerStmt (.cond condition body elsifs rest)) := by
  rw [lowerStmt_cond]
  refine newLabel fun done => newLabel fun next => ?_
  have hu := @Unfolds.cond condition body elsifs rest done next
  refine lower (q := .expr condition) rfl (.of hu (by simp)) <| emit <|
    block (.of hu (by simp [Move.block])) <| emit <| mark (.of hu (by simp [Move.block])) <|
    lower (q := .branches done elsifs) rfl (.of hu (by simp [Move.block])) ?_
  cases rest with
  | none => exact clean Clean.mark.onDraft (.of hu (by simp [Move.block, Move.otherwise]))
  | some body =>
      exact block (.of hu (by simp [Move.block, Move.otherwise]))
        (clean Clean.mark.onDraft (.of hu (by simp [Move.block, Move.otherwise])))

theorem whileLoop {condition : Expr} {body : List Stmt} :
    Within (.stmt (.whileLoop condition body)) σ [] (lowerStmt (.whileLoop condition body)) := by
  rw [lowerStmt]
  exact newLabel fun done => newMarkedLabel fun top => inScope <| lower rfl ⟨_, _, .whileLoop⟩ <| emit <|
    lower rfl ⟨_, _, .whileLoop⟩ <| emit <| clean Clean.mark.onDraft ⟨_, _, .whileLoop⟩

theorem loop {init condition step : Option Expr} {body : List Stmt} :
    Within (.stmt (.loop init condition step body)) σ []
      (lowerStmt (.loop init condition step body)) := by
  rw [lowerStmt_loop]
  refine newLabel fun done => newLabel fun next => inScope ?_
  have hu (top : Label) := @Unfolds.loop init condition step body done next top
  refine effect (fun e he => .of (hu done) (by simp [he, Move.effect])) <| newMarkedLabel fun top =>
    guard (fun e he => .of (hu top) (by simp [he, Move.guarded])) <|
    block (.of (hu top) (by simp [Move.block])) <| mark (.of (hu top) (by simp)) <|
    effect (fun e he => .of (hu top) (by simp [he, Move.effect])) <| emit <|
    clean Clean.mark.onDraft (.of (hu top) (by simp))

theorem forEach {name : String} {iterable : Expr} {body : List Stmt} :
    Within (.stmt (.forEach name iterable body)) σ [] (lowerStmt (.forEach name iterable body)) := by
  rw [lowerStmt]
  have hu (index item : Slot) (done top : Label) := 
    @Unfolds.forEach name iterable body index item done top
  refine move (m := .alloc) (clean Clean.alloc.onScopes (.of (hu 0 0 ⟨0⟩ ⟨0⟩) (by simp))) id
    fun index => ?_
  refine move (m := .alloc) (clean Clean.alloc.onScopes (.of (hu index 0 ⟨0⟩ ⟨0⟩) (by simp))) id
    fun item => newLabel fun done => newLabel fun top => emit <| emit <| ?_
  have hu := hu index item done top
  refine lower (q := .expr iterable) rfl (.of hu (by simp)) <| emit <| emit <| inScope ?_
  refine move (m := fun _ => .bind name item .unknown)
    (clean Clean.bind.onScopes (.of hu (by simp [Move.op]))) id fun _ => ?_
  refine mark (.of hu (by simp [Move.op])) <| emit <| emit <| emit <| emit <| emit <| emit <| emit <|
    lower (q := .stmts body) rfl (.of hu (by simp [Move.op])) <|
    bind (m := fun _ => Move.increment index) (ends ends_increment) along_increment fun _ => emit <|
    mark (.of hu (by simp [Move.op])) <| ends (ends_emitOp.andThen ends_emitOp)

theorem package {kind : PackageKind} {name : String} {body : List Stmt} :
    Within (.stmt (.package kind name body)) σ [] (lowerStmt (.package kind name body)) := by
  rw [lowerStmt]
  refine move (m := .enterPath name kind) (ends fun _ => ⟨_, _, rfl⟩) id fun id => ?_
  cases kind with
  | package => exact packaged fun outer => ⟨_, _, @Unfolds.package .package name "" body id outer⟩
  | module =>
      refine move (m := fun path => .sees fun σ => σ.packages.path id = path) (ends .view)
        Step.view_eq_ok.mp fun path => ?_
      exact move (m := fun _ => .interface (·.addModule path)) (ends .update) (fun h => h) fun _ =>
        packaged fun outer => ⟨_, _, .package⟩

theorem branches {done : Label} (elsifs : List (Expr × List Stmt)) :
    Within (.branches done elsifs) σ [] (lowerBranches done elsifs) := by
  rcases elsifs with _ | ⟨⟨condition, body⟩, rest⟩
  · rw [lowerBranches]
    exact ends .pure
  · rw [lowerBranches]
    exact newLabel fun next => lower rfl ⟨_, _, .branchesCons⟩ <| emit <|
      block ⟨_, _, .branchesCons⟩ <| emit <| mark ⟨_, _, .branchesCons⟩ <|
      lowered rfl ⟨_, _, .branchesCons⟩

theorem body {type : ValueType} (ss : List Stmt) : Within (.body type ss) σ [] (lowerBody type ss) := by
  unfold lowerBody
  split
  · exact ends .pure
  · rename_i e
    obtain ⟨cs, ok, hc⟩ := exists_enforces e type .result
    exact lower (q := .expr e) rfl (.of (.bodyExpr hc) (by simp)) <| ends <|
      ends_enforce.andThen <| ends_emitOp.andThen .pure
  · exact lower rfl ⟨_, _, .bodyRet⟩ <| ends .pure
  · rename_i s rest hexpr hret
    have hs : rest ≠ [] ∨ s.closing = false := Stmt.not_last hexpr hret
    exact lower rfl ⟨_, _, @Unfolds.bodyCons type s rest true hs⟩ <|
      result (q := .body type rest) ⟨_, _, @Unfolds.bodyCons type s rest true hs⟩

/-- A subroutine stops in its parameters, its body or its traits, with the scope left behind it. -/
theorem sub {head : SubHead} {body : List Stmt} :
    Within (.stmt (.sub head body)) σ [] (lowerStmt (.sub head body)) := by
  rw [lowerStmt]
  cases hps : head.params.mapM Param.resolve with
  | error e => exact ends ends_report
  | ok ps =>
      simp only
      refine move (m := .mention head.name) (ends fun _ => ⟨_, _, rfl⟩) id fun sub => ?_
      cases hm : sub.marked with
      | true => exact ends ends_report
      | false =>
          simp only [Bool.false_eq_true, if_false]
          have hu (skip : Label) (slot : Slot) {ends : Bool} {close : List Move}
              (hc : Closes head.span ends close) :=
            @Unfolds.sub head body ps sub skip slot ends close hps hm hc
          refine move (m := fun _ => .setSub head.name _) (ends .update) (fun h => h) fun _ =>
            slotCount (.of (hu ⟨0⟩ 0 .returned) (by simp)) <|
            slotCount (.of (hu ⟨0⟩ 0 .returned) (by simp)) <| newLabel fun skip => ?_
          refine bindTo (R := fun _ ls => ∃ slot ends close, Closes head.span ends close ∧ ls =
            [Move.enter (.subroutine head.returnType), .emit (.jump skip), .mark sub.label,
              .emit (.pushFrame (ps.length + (mentionsArgList body).toNat).toUInt16
                (slotsNeeded body).toUInt16)] ++ Move.argListSlot (mentionsArgList body) slot ++
              [Move.params ps, .piece (.body head.returnType body) ends] ++ close ++ [Move.leave])
            (inScope ?_) (fun h => ?_) ?_
          · refine emit <| mark (.of (hu skip 0 .returned) (by simp)) <| emit ?_
            -- The parameters and the body, behind the argument list if there is one.
            have hbody {ms : List Move} (hps : Starts (.stmt (.sub head body)) (ms ++ [Move.params ps]))
                (hb : Starts (.stmt (.sub head body))
                  (ms ++ [Move.params ps] ++ [Move.piece (.body head.returnType body) true])) :
                Within (.stmt (.sub head body)) σ ms (do
                  bindParams ps
                  if ← lowerBody head.returnType body then
                    Lower.emitOp .loadUndefined
                    Lower.emitOp .ret
                  else
                    emitUndefReturn head.span) := by
              refine move (m := fun _ => .params ps) (params hps) id fun _ =>
                first (result (q := .body head.returnType body) hb) fun ends => ?_
              cases ends with
              | true => exact ends_emitOp.andThen ends_emitOp
              | false => exact ends_undefReturn
            have hu (slot : Slot) := hu skip slot .returned
            split
            · rename_i hl
              have hlist {slot : Slot} : Move.argListSlot (mentionsArgList body) slot =
                  [.argument argList (.array .unknown) slot] := if_pos hl
              simp only [hlist] at hu
              exact move (m := .argument argList (.array .unknown))
                (clean Clean.bindArgument.onScopes (.of (hu 0) (by simp))) id fun slot =>
                hbody (.of (hu slot) (by simp)) (.of (hu slot) (by simp))
            · rename_i hl
              have hlist : Move.argListSlot (mentionsArgList body) 0 = [] := if_neg hl
              have hu := hu 0
              rw [hlist] at hu
              exact hbody (.of hu (by simp)) (.of hu (by simp))
          · obtain ⟨slot, ends, close, hc, ha⟩ := along_subFrame h
            exact ⟨_, ⟨slot, ends, close, hc, rfl⟩, ha⟩
          · rintro _ ls ⟨slot, ends, close, hc, rfl⟩
            exact mark (.of (hu skip slot hc) (by simp)) <| traits (.of (hu skip slot hc) (by simp))

/-- Lowering a statement stops only where the piece may. -/
theorem stmt (s : Stmt) : Within (.stmt s) σ [] (lowerStmt s) := by
  cases s with
  | expr e =>
      rw [lowerStmt]
      exact lower rfl ⟨_, _, .exprStmt⟩ <| ends ends_emitOp
  | block body =>
      rw [lowerStmt]
      exact inScope (lowered rfl ⟨_, _, .block⟩)
  | sub head body => exact sub
  | ret value s => exact ret value
  | cond condition body elsifs rest => exact cond
  | whileLoop condition body => exact whileLoop
  | loop init condition step body => exact loop
  | forEach name iterable body => exact forEach
  | use name =>
      rw [lowerStmt]
      exact ends .update
  | package kind name body => exact package

theorem stmts (ss : List Stmt) : Within (.stmts ss) σ [] (lowerStmts ss) := by
  cases ss with
  | nil =>
      rw [lowerStmts]
      exact ends .pure
  | cons s rest =>
      rw [lowerStmts]
      exact lower rfl ⟨_, _, .stmtsCons⟩ <| lowered rfl ⟨_, _, .stmtsCons⟩

/-- Lowering any piece stops only where the piece may. -/
theorem piece (p : Piece) : Within p σ [] p.lower := by
  cases p with
  | expr e => exact (expr e).first fun _ => .pure
  | each es => exact (each es).first fun _ => .pure
  | backward es => exact (backward es).first fun _ => .pure
  | args es ps => exact args es ps
  | stmt s => exact (stmt s).first fun _ => .pure
  | stmts ss => exact (stmts ss).first fun _ => .pure
  | branches done elsifs => exact (branches elsifs).first fun _ => .pure
  | body type ss => exact body ss

end Within

end Lower

/-- **A fault stops a lowering at a move of the table.** -/
theorem Piece.halts {p : Piece} {f : Fault} {σ σ' : Session} (h : p.lower σ = (.error f, σ')) :
    Halts p σ f σ' :=
  (Within.piece p).stops rfl h

end StackScript
