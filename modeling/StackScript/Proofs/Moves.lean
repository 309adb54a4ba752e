import StackScript.Proofs.Growth
import StackScript.Proofs.Unfolding.Stmt

/-!
# What moves do

A move changes a few parts of the session and leaves the others alone (`Move.Does.spares`).  Two
things hold of all of them: the code only grows, and a label once marked stays where it is
(`Draft.Grows`, `Move.Does.grows`); and a diagnostic once found is not forgotten
(`Move.Does.count_le`).
-/

namespace StackScript

namespace Move

variable {K : Piece → Bool → Session → Session → Prop} {σ σ' : Session}

/-- One instruction is added to the code. -/
theorem acts_emit {i : Instruction} :
    (emit i).Acts K σ σ' ↔ σ' = { σ with draft := σ.draft.emit i } := by
  simp [Acts, Lower.emit, Step.update, eq_comm]

/-- A step on the draft changes nothing else. -/
theorem onDraft_eq_ok {α : Type} {x : Step Draft α} {a : α} :
    Lower.onDraft x σ = (.ok a, σ') ↔ ∃ d, x σ.draft = (.ok a, d) ∧ σ' = { σ with draft := d } := by
  unfold Lower.onDraft
  constructor
  · intro h
    rcases hx : x σ.draft with ⟨result, d⟩
    simp only [hx, Prod.mk.injEq] at h
    obtain ⟨rfl, rfl⟩ := h
    exact ⟨d, rfl, rfl⟩
  · rintro ⟨d, hx, rfl⟩
    simp only [hx]

/-- A constant is loaded, from a place in the pool that is new or found. -/
theorem acts_constant {v : Constant} :
    (constant v).Acts K σ σ' ↔
      ∃ d, Draft.emitConstant v σ.draft = (.ok (), d) ∧ σ' = { σ with draft := d } :=
  onDraft_eq_ok

/-- The label is the next one. -/
theorem acts_newLabel {l : Label} :
    (newLabel l).Acts K σ σ' ↔
      l = σ.draft.nextLabel ∧ σ' = { σ with draft := σ.draft.newLabel.2 } := by
  simp [Acts, Lower.newLabel, Draft.newLabel, eq_comm]

theorem acts_newMarkedLabel {l : Label} :
    (newMarkedLabel l).Acts K σ σ' ↔
      l = σ.draft.nextLabel ∧ σ' = { σ with draft := σ.draft.newMarkedLabel.2 } := by
  simp [Acts, Lower.newMarkedLabel, Draft.newMarkedLabel, eq_comm]

/-- The label gets the position as its place. -/
theorem acts_mark {l : Label} :
    (mark l).Acts K σ σ' ↔
      ∃ d, Draft.mark l σ.draft = (.ok (), d) ∧ σ' = { σ with draft := d } :=
  onDraft_eq_ok

/-- A call is recorded with the position where it will stand. -/
theorem acts_use {name : String} {span : Span} {resolved : Bool} :
    (use name span resolved).Acts K σ σ' ↔
      σ' = { σ with uses := σ.uses.push ⟨name, span, σ.draft.position, resolved⟩ } := by
  simp [Acts, Lower.recordUse, Step.update, eq_comm]

/-- A diagnostic is added to the report. -/
theorem acts_report {p : Problem} {span : Span} :
    (report p span).Acts K σ σ' ↔
      σ' = { σ with report := σ.report.add (.ofProblem p span) } := by
  simp [Acts, Lower.report, Step.update, eq_comm]

/-- A step on the scopes changes nothing else. -/
theorem onScopes_eq_ok {α : Type} {x : Step Scopes α} {a : α} :
    Lower.onScopes x σ = (.ok a, σ') ↔
      ∃ s, x σ.scopes = (.ok a, s) ∧ σ' = { σ with scopes := s } := by
  unfold Lower.onScopes
  constructor
  · intro h
    rcases hx : x σ.scopes with ⟨result, s⟩
    simp only [hx, Prod.mk.injEq] at h
    obtain ⟨rfl, rfl⟩ := h
    exact ⟨s, rfl, rfl⟩
  · rintro ⟨s, hx, rfl⟩
    simp only [hx]

theorem acts_alloc {slot : Slot} :
    (alloc slot).Acts K σ σ' ↔
      ∃ s, Scopes.alloc σ.scopes = (.ok slot, s) ∧ σ' = { σ with scopes := s } :=
  onScopes_eq_ok

/-- The name gets a slot in the innermost scope. -/
theorem acts_declare {name : String} {type : ValueType} {slot : Slot} :
    (declare name type slot).Acts K σ σ' ↔
      ∃ s, Scopes.declare name type σ.scopes = (.ok slot, s) ∧ σ' = { σ with scopes := s } :=
  onScopes_eq_ok

theorem acts_argument {name : String} {type : ValueType} {slot : Slot} :
    (argument name type slot).Acts K σ σ' ↔
      ∃ s, Scopes.bindArgument name type σ.scopes = (.ok slot, s) ∧ σ' = { σ with scopes := s } :=
  onScopes_eq_ok

theorem acts_bind {name : String} {slot : Slot} {type : ValueType} :
    (bind name slot type).Acts K σ σ' ↔
      ∃ s, Scopes.bind name slot type σ.scopes = (.ok (), s) ∧ σ' = { σ with scopes := s } :=
  onScopes_eq_ok

/-- The tree has the package, and it is the one that the path leads to. -/
theorem acts_enterPath {path : String} {kind : PackageKind} {id : PackageId} :
    (enterPath path kind id).Acts K σ σ' ↔
      id = (σ.packages.enter σ.package path kind).1 ∧
        σ' = { σ with packages := (σ.packages.enter σ.package path kind).2 } := by
  simp [Acts, Lower.enterPath, eq_comm]

/-- The subroutine is looked up, and made known with a label if it is new. -/
theorem acts_mention {name : String} {sub : Subroutine} :
    (mention name sub).Acts K σ σ' ↔
      sub = (σ.packages.mention σ.package name σ.draft).1 ∧
        σ' = { σ with packages := (σ.packages.mention σ.package name σ.draft).2.1
                      draft := (σ.packages.mention σ.package name σ.draft).2.2 } := by
  simp [Acts, Lower.mention, eq_comm]

theorem acts_setSub {name : String} {sub : Subroutine} :
    (setSub name sub).Acts K σ σ' ↔
      σ' = { σ with packages := σ.packages.setSub σ.package name sub } := by
  simp [Acts, Lower.setSub, Step.update, eq_comm]

theorem acts_interface {f : Interface → Interface} :
    (interface f).Acts K σ σ' ↔ σ' = { σ with interface := f σ.interface } := by
  simp [Acts, Lower.onInterface, Step.update, eq_comm]

end Move

/-- Binding parameters changes nothing but the scopes. -/
theorem bindParams_scopes {ps : List SubParam} {σ σ' : Session}
    (h : Lower.bindParams ps σ = (.ok (), σ')) : σ' = { σ with scopes := σ'.scopes } := by
  induction ps generalizing σ with
  | nil =>
      obtain ⟨_, rfl⟩ := Step.pure_eq_ok.mp h
      rfl
  | cons p ps ih =>
      obtain ⟨slot, τ, h₁, h₂⟩ := Step.bind_eq_ok.mp h
      obtain ⟨s, -, rfl⟩ := Move.onScopes_eq_ok.mp h₁
      have := ih h₂
      exact this

/-! ### Diagnostics -/

namespace Report

/-- How many diagnostics were found, kept or not. -/
def count (r : Report) : Nat := r.items.length + r.dropped

/-- Every diagnostic counts, also where the report takes no more. -/
theorem count_add {r : Report} {d : Diagnostic} : (r.add d).count = r.count + 1 := by
  unfold add
  split <;> simp [count] <;> omega

/-- A report is empty if nothing was counted. -/
theorem isEmpty_iff {r : Report} : r.isEmpty = true ↔ r.count = 0 := by
  simp [isEmpty, count]

end Report

/-- A name that starts with a hash belongs to no script and stays private. -/
def SubHead.isPrivate (head : SubHead) : Bool := head.name.toList.head? == some '#'

/-- Exporting a subroutine reports that there is no module around it, or does nothing if it is private,
or lists its entry under its absolute name. -/
theorem exportSub_cases {head : SubHead} {entry : Label} {σ σ' : Session}
    (h : Lower.exportSub head entry σ = (.ok (), σ')) :
    (∃ d, σ' = { σ with report := σ.report.add d }) ∨ (head.isPrivate = true ∧ σ' = σ) ∨
      ∃ e, head.isPrivate = false ∧ σ.draft.offset? entry = some e ∧ σ' = { σ with
        interface := σ.interface.addExport (σ.packages.qualify σ.package head.name) e } := by
  unfold Lower.exportSub at h
  rw [Step.view_bind] at h
  cases hm : σ.packages.enclosingModule? σ.package with
  | none =>
      simp only [hm] at h
      exact .inl ⟨_, (Move.acts_report (K := fun _ _ _ _ => False)).mp h⟩
  | some module =>
      simp only [hm] at h
      split at h
      · rename_i hprivate
        obtain ⟨_, rfl⟩ := Step.pure_eq_ok.mp h
        exact .inr (.inl ⟨hprivate, rfl⟩)
      · rename_i hpublic
        rw [Step.view_bind] at h
        cases ho : σ.draft.offset? entry with
        | none =>
            simp only [ho] at h
            exact absurd h Step.fail_ne_ok
        | some position =>
            simp only [ho, Step.view_bind] at h
            cases h
            exact .inr (.inr ⟨position, Bool.eq_false_iff.mpr hpublic, rfl, rfl⟩)

/-- Exporting a subroutine changes the interface and the report only. -/
theorem exportSub_eq_ok {head : SubHead} {entry : Label} {σ σ' : Session}
    (h : Lower.exportSub head entry σ = (.ok (), σ')) :
    σ' = { σ with interface := σ'.interface, report := σ'.report } ∧
      σ.report.count ≤ σ'.report.count := by
  rcases exportSub_cases h with ⟨d, rfl⟩ | ⟨-, rfl⟩ | ⟨e, -, -, rfl⟩
  · exact ⟨rfl, by simp [Report.count_add]⟩
  · exact ⟨rfl, Nat.le_refl _⟩
  · exact ⟨rfl, Nat.le_refl _⟩

/-- Traits leave the code, the scopes and the packages alone. -/
theorem applyTraits_eq_ok {head : SubHead} {entry : Label} {names : List String} {σ σ' : Session}
    (h : Lower.applyTraits head entry names σ = (.ok (), σ')) :
    σ' = { σ with interface := σ'.interface, report := σ'.report } ∧
      σ.report.count ≤ σ'.report.count := by
  induction names generalizing σ with
  | nil =>
      obtain ⟨_, rfl⟩ := Step.pure_eq_ok.mp h
      exact ⟨rfl, Nat.le_refl _⟩
  | cons name names ih =>
      unfold Lower.applyTraits at h
      split at h
      · obtain ⟨_, τ, h₁, h₂⟩ := Step.bind_eq_ok.mp h
        obtain ⟨e₁, l₁⟩ := exportSub_eq_ok h₁
        obtain ⟨e₂, l₂⟩ := ih h₂
        refine ⟨?_, Nat.le_trans l₁ l₂⟩
        rw [e₂, e₁]
      · obtain ⟨_, τ, h₁, h₂⟩ := Step.bind_eq_ok.mp h
        obtain ⟨e₂, l₂⟩ := ih h₂
        obtain rfl := (Move.acts_report (K := fun _ _ _ _ => False)).mp h₁
        exact ⟨e₂, Nat.le_trans (by simp [Report.count_add]) l₂⟩

/-- A mention may create a label, and leaves the code as it is. -/
theorem Draft.Grows.mention {t : PackageTree} {id : PackageId} {name : String} {d : Draft} :
    d.Grows (t.mention id name d).2.2 := by
  unfold PackageTree.mention
  split
  · exact .refl
  · exact .newLabel

/-- The static type of an expression is read off the scopes and the packages. -/
theorem Session.typeOf_congr {σ τ : Session} (hs : τ.scopes = σ.scopes) (hp : τ.packages = σ.packages)
    (hk : τ.package = σ.package) : ∀ e, τ.typeOf e = σ.typeOf e
  | .integer _ _ | .float _ _ | .str _ _ | .bool _ _ | .undefined _ | .declare _ _ _ | .typed _ _ _
  | .list _ _ | .unary .not _ _ => rfl
  | .var _ _ => by simp only [typeOf, variableType, hs]
  | .call _ _ _ => by simp only [typeOf, callType, hp, hk]
  | .binary op left right _ => by
      simp only [typeOf, typeOf_congr hs hp hk left, typeOf_congr hs hp hk right]
  | .unary .minus operand _ => by simp only [typeOf, typeOf_congr hs hp hk operand]
  | .assign target value _ => by
      simp only [typeOf, typeOf_congr hs hp hk target, typeOf_congr hs hp hk value]
  | .index target _ _ => by simp only [typeOf, typeOf_congr hs hp hk target]

/-! ### What a move leaves alone -/

namespace Move

/-- The move leads from `σ` to `σ'` and is not the lowering of a piece. -/
abbrev Does (m : Move) (σ σ' : Session) : Prop := m.Acts (fun _ _ _ _ => False) σ σ'

/-- A move lowers a piece or does something else. -/
theorem Acts.does_or_piece {K : Piece → Bool → Session → Session → Prop} {m : Move}
    {σ σ' : Session} (h : m.Acts K σ σ') : m.Does σ σ' ∨ ∃ p b, m = .piece p b ∧ K p b σ σ' := by
  cases m with
  | piece p b => exact .inr ⟨p, b, rfl, h⟩
  | _ => exact .inl h

/-- The moves that change the code or the labels. -/
def onDraft : Move → Bool
  | .emit _ | .constant _ | .newLabel _ | .newMarkedLabel _ | .mark _ | .mention _ _ => true
  | _ => false

/-- The moves that change the open scopes. -/
def onScopes : Move → Bool
  | .enter _ | .leave | .alloc _ | .declare _ _ _ | .argument _ _ _ | .params _ | .bind _ _ _ => true
  | _ => false

/-- The moves that change the packages. -/
def onPackages : Move → Bool
  | .enterPath _ _ _ | .mention _ _ | .setSub _ _ => true
  | _ => false

/-- The parts of a session that a move is not about stay as they are. -/
structure Spares (m : Move) (σ σ' : Session) : Prop where
  options : σ'.options = σ.options
  draft : m.onDraft = false → σ'.draft = σ.draft
  scopes : m.onScopes = false → σ'.scopes = σ.scopes
  packages : m.onPackages = false → σ'.packages = σ.packages
  package : (∀ id, m ≠ .goTo id) → σ'.package = σ.package
  interface : (∀ f, m ≠ .interface f) → (∀ head entry, m ≠ .traits head entry) →
    σ'.interface = σ.interface
  uses : (∀ name span resolved, m ≠ .use name span resolved) → σ'.uses = σ.uses
  report : (∀ p span, m ≠ .report p span) → (∀ head entry, m ≠ .traits head entry) →
    σ'.report = σ.report

/-- **A move leaves alone what it is not about.** -/
theorem Does.spares {m : Move} {σ σ' : Session} (h : m.Does σ σ') : m.Spares σ σ' := by
  cases m with
  | emit i =>
      obtain rfl := acts_emit.mp h
      constructor <;> simp [onDraft]
  | constant v =>
      obtain ⟨d, -, rfl⟩ := acts_constant.mp h
      constructor <;> simp [onDraft]
  | newLabel l =>
      obtain ⟨-, rfl⟩ := acts_newLabel.mp h
      constructor <;> simp [onDraft]
  | newMarkedLabel l =>
      obtain ⟨-, rfl⟩ := acts_newMarkedLabel.mp h
      constructor <;> simp [onDraft]
  | mark l =>
      obtain ⟨d, -, rfl⟩ := acts_mark.mp h
      constructor <;> simp [onDraft]
  | use name span resolved =>
      obtain rfl := acts_use.mp h
      constructor <;> simp
  | report p span =>
      obtain rfl := acts_report.mp h
      constructor <;> simp
  | enter kind | leave | goTo id =>
      obtain rfl := h
      constructor <;> simp [onScopes]
  | alloc slot | declare name type slot | argument name type slot | bind name slot type =>
      obtain ⟨s, -, rfl⟩ := onScopes_eq_ok.mp h
      constructor <;> simp [onScopes]
  | params ps =>
      rw [bindParams_scopes h]
      constructor <;> simp [onScopes]
  | enterPath path kind id =>
      obtain ⟨-, rfl⟩ := acts_enterPath.mp h
      constructor <;> simp [onPackages]
  | mention name sub =>
      obtain ⟨-, rfl⟩ := acts_mention.mp h
      constructor <;> simp [onPackages, onDraft]
  | setSub name sub =>
      obtain rfl := acts_setSub.mp h
      constructor <;> simp [onPackages]
  | interface f =>
      obtain rfl := acts_interface.mp h
      constructor <;> simp
  | traits head entry =>
      rw [(applyTraits_eq_ok h).1]
      constructor <;> simp
  | lookup name found | innermost found | sees P =>
      obtain ⟨-, rfl⟩ := h
      constructor <;> simp
  | piece p b => exact h.elim

/-- **The code grows by every move**, and labels stay where they are. -/
theorem Does.grows {m : Move} {σ σ' : Session} (h : m.Does σ σ') : σ.draft.Grows σ'.draft := by
  cases m with
  | emit i =>
      obtain rfl := acts_emit.mp h
      exact .emit
  | constant v =>
      obtain ⟨d, hd, rfl⟩ := acts_constant.mp h
      exact .emitConstant hd
  | newLabel l =>
      obtain ⟨-, rfl⟩ := acts_newLabel.mp h
      exact .newLabel
  | newMarkedLabel l =>
      obtain ⟨-, rfl⟩ := acts_newMarkedLabel.mp h
      exact .newMarkedLabel
  | mark l =>
      obtain ⟨d, hd, rfl⟩ := acts_mark.mp h
      exact .mark hd
  | mention name sub =>
      obtain ⟨-, rfl⟩ := acts_mention.mp h
      exact .mention
  | piece p b => exact h.elim
  | _ =>
      rw [h.spares.draft rfl]
      exact .refl

/-- A move forgets no diagnostic. -/
theorem Does.count_le {m : Move} {σ σ' : Session} (h : m.Does σ σ') :
    σ.report.count ≤ σ'.report.count := by
  cases m with
  | report p span =>
      obtain rfl := acts_report.mp h
      simp [Report.count_add]
  | traits head entry => exact (applyTraits_eq_ok h).2
  | _ => exact Nat.le_of_eq (congrArg Report.count (h.spares.report (by simp) (by simp))).symm

end Move

end StackScript
