import StackScript.Proofs.Checkpoints.Strip
import StackScript.Proofs.Compositional

/-!
# Steps that are oblivious of checkpoints

A step is oblivious of checkpoints if it comes to the same whether the code is stripped before the step
or behind it.  Almost every step of lowering is: labels are numbered by how many there are, constants by
the pool, and scopes and packages know nothing of the code.  The exceptions read the position of the code
or the place of a label, but only to record it, and what is recorded moves with the code.

* `Draft.Oblivious`, `Lower.Oblivious`: a step commutes with stripping.
* `Step.Commutes.emit`, `Step.Commutes.mark` and so on: the single steps of lowering.
-/

namespace StackScript

/-! ### Steps on drafts -/

namespace Draft

variable {d d' : Draft}

/-- A step on drafts that does the same whether or not there are checkpoints. -/
structure Oblivious {α : Type} (x : Step Draft α) : Prop extends Step.Commutes Symbolic strip x where
  grows : ∀ {d : Draft}, d.Symbolic → d.Grows (x d).2

/-- An instruction without offsets may be emitted. -/
theorem Symbolic.emit {i : Instruction} (h : d.Symbolic) (hi : i.symbolic = true) :
    (d.emit i).Symbolic := by
  refine ⟨fun j hj => ?_, fun hn => Nat.le_trans (h.labels hn) Grows.emit.position_le⟩
  rcases Array.mem_push.mp hj with hj | rfl
  · exact h.code j hj
  · exact hi

/-- A checkpoint that is emitted is stripped, and any other instruction is kept. -/
theorem Symbolic.strip_emit {i : Instruction} (h : d.Symbolic) (hi : i.symbolic = true) :
    (d.emit i).strip = if i.isCheckpoint then d.strip else d.strip.emit i := by
  have hlabels : (d.emit i).strip.labels = d.strip.labels := h.labels_strip .emit
  have hchunk : (d.emit i).strip.chunk = _ := Chunk.strip_emit h.code hi
  have hall : (d.emit i).strip = ⟨(d.emit i).strip.chunk, (d.emit i).strip.labels⟩ := rfl
  rw [hall, hlabels, hchunk]
  cases i.isCheckpoint <;> rfl

namespace Oblivious

variable {α β : Type} {x : Step Draft α} {f : α → Step Draft β}

/-- What makes a step oblivious, from one draft to the next. -/
theorem of_forall (h : ∀ d : Draft, d.Symbolic →
    x d.strip = ((x d).1, (x d).2.strip) ∧ (x d).2.Symbolic ∧ d.Grows (x d).2) : Oblivious x :=
  ⟨⟨fun hd => (h _ hd).1, fun hd => (h _ hd).2.1⟩, fun hd => (h _ hd).2.2⟩

/-- Steps that are oblivious, one after the other, are. -/
theorem bind (hx : Oblivious x) (hf : ∀ a, Oblivious (f a)) : Oblivious (x >>= f) := by
  refine ⟨hx.toCommutes.bind fun a => (hf a).toCommutes, fun {d} h => ?_⟩
  show d.Grows (Step.bind x f d).2
  have hgrows := hx.grows h
  have hd := hx.keeps h
  unfold Step.bind
  rcases hr : x d with ⟨e | a, d₁⟩
  · rwa [hr] at hgrows
  · rw [hr] at hgrows hd
    exact hgrows.trans ((hf a).grows hd)

/-- An instruction that is no checkpoint is emitted into stripped code as well. -/
theorem emit {i : Instruction} (hi : i.symbolic = true) (hk : i.isCheckpoint = false) :
    Oblivious fun d => (.ok (), d.emit i) :=
  of_forall fun d h => ⟨by rw [h.strip_emit hi, if_neg (by simp [hk])], h.emit hi, .emit⟩

/-- Constants that are pooled move nothing. -/
theorem pool {v : Constant} : Oblivious fun d =>
    ((Chunk.addConstant v d.chunk).1, { d with chunk := (Chunk.addConstant v d.chunk).2 }) := by
  refine of_forall fun d h => ?_
  obtain ⟨pool, hpool, hgrows, hstrip⟩ := @Chunk.addConstant_eq v d.chunk
  rw [hpool, show d.strip.chunk = d.chunk.strip from rfl, hstrip]
  exact ⟨rfl, ⟨h.code, h.labels⟩, List.prefix_rfl, hgrows, Nat.le_refl _, id⟩

/-- A constant is pooled and then loaded. -/
theorem emitConstant {v : Constant} : Oblivious (Draft.emitConstant v) := by
  have heq : Draft.emitConstant v = (do
      let index ← fun d =>
        ((Chunk.addConstant v d.chunk).1, { d with chunk := (Chunk.addConstant v d.chunk).2 })
      fun d => (.ok (), d.emit (.loadConst index))) := by
    funext d
    show _ = Step.bind _ _ d
    unfold Draft.emitConstant Step.bind
    simp only
    rcases Chunk.addConstant v d.chunk with ⟨_ | _, _⟩ <;> rfl
  rw [heq]
  exact pool.bind fun index => emit rfl rfl

/-- A new label, marked here or not marked. -/
theorem push {f : Draft → Option Nat} (hf : ∀ {d}, f d.strip = (f d).map d.chunk.kept)
    (hle : ∀ {d offset}, f d = some offset → offset ≤ d.position) :
    Oblivious fun d => (.ok d.nextLabel, { d with labels := d.labels.push (f d) }) := by
  refine of_forall fun d h => ⟨?_, ⟨h.code, fun {n offset} hn => ?_⟩, .push⟩
  · have hnext : d.strip.nextLabel = d.nextLabel := by simp [nextLabel, Draft.strip]
    have hlabels : d.strip.labels.push (f d.strip) = (d.labels.push (f d)).map (·.map d.chunk.kept) := by
      rw [hf, Array.map_push]
      rfl
    simp only [hnext, hlabels]
    rfl
  · rw [Array.getElem?_push] at hn
    split at hn
    · have hoffset : offset ≤ d.position := hle (Option.some.inj hn)
      exact hoffset
    · exact h.labels hn

theorem newLabel : Oblivious fun d => (.ok d.newLabel.1, d.newLabel.2) :=
  push (f := fun _ => none) rfl nofun

theorem newMarkedLabel : Oblivious fun d => (.ok d.newMarkedLabel.1, d.newMarkedLabel.2) :=
  push (f := fun d => some d.position) (congrArg some position_strip) fun h =>
    Nat.le_of_eq (Option.some.inj h).symm

/-- A label is marked at the position that the stripped code has then. -/
theorem mark {l : Label} : Oblivious (Draft.mark l) := by
  refine of_forall fun d h => ?_
  have hlabel : d.strip.labels[l.id.toNat]? = d.labels[l.id.toNat]?.map (·.map d.chunk.kept) := by
    simp [Draft.strip]
  unfold Draft.mark
  rw [hlabel]
  cases hm : d.labels[l.id.toNat]? with
  | none => exact ⟨rfl, h, .refl⟩
  | some o =>
      cases o with
      | some offset => exact ⟨rfl, h, .refl⟩
      | none =>
          refine ⟨?_, ⟨h.code, fun {n offset} hn => ?_⟩, .mark (l := l) (by simp [Draft.mark, hm])⟩
          · simp only [Option.map_some, Option.map_none, position_strip]
            simp [Draft.strip, Array.map_setIfInBounds]
          · rw [Array.getElem?_setIfInBounds] at hn
            split at hn
            · split at hn
              · obtain rfl := Option.some.inj (Option.some.inj hn)
                exact Nat.le_refl _
              · cases hn
            · exact h.labels hn

/-- A mention gives out a label or finds one, whatever the code is. -/
theorem mention {t : PackageTree} {id : PackageId} {name : String} : Oblivious fun d =>
    (.ok ((t.mention id name d).1, (t.mention id name d).2.1), (t.mention id name d).2.2) := by
  unfold PackageTree.mention
  cases t.sub? id name with
  | some s => exact of_forall fun d h => ⟨rfl, h, .refl⟩
  | none =>
      refine of_forall fun d h => ⟨?_, newLabel.keeps h, .newLabel⟩
      obtain ⟨hlabel, hdraft⟩ := Prod.mk.inj (newLabel.commutes h)
      simp only [Except.ok.inj hlabel, hdraft]

end Oblivious

end Draft

/-! ### Steps of lowering -/

/-- A step of lowering that does the same whether or not there are checkpoints. -/
abbrev Lower.Oblivious {α : Type} (x : Lower α) : Prop :=
  Step.Commutes Session.Symbolic Session.strip x

namespace Step.Commutes

variable {α : Type} {x : Lower α}

/-- A step that leaves the code and what has been recorded alone. -/
theorem aside (hstrip : ∀ σ, x σ.strip = ((x σ).1, (x σ).2.strip))
    (hdraft : ∀ σ, (x σ).2.draft = σ.draft) (huses : ∀ σ, (x σ).2.uses = σ.uses)
    (hexports : ∀ σ, (x σ).2.interface.exports = σ.interface.exports) : Lower.Oblivious x := by
  refine ⟨fun {σ} _ => hstrip σ, fun {σ} hσ => ⟨?_, ?_, ?_⟩⟩
  · rw [hdraft]
    exact hσ.draft
  · rw [hdraft, huses]
    exact hσ.uses
  · rw [hdraft, hexports]
    exact hσ.exports

theorem report {p : Problem} {span : Span} : Lower.Oblivious (Lower.report p span) :=
  aside (fun _ => rfl) (fun _ => rfl) (fun _ => rfl) fun _ => rfl

theorem onScopes {x : Step Scopes α} : Lower.Oblivious (Lower.onScopes x) :=
  aside (fun _ => rfl) (fun _ => rfl) (fun _ => rfl) fun _ => rfl

/-- What an interface says apart from its exports has nothing to do with the code. -/
theorem onInterface {f : Interface → Interface} (hf : ∀ i g, f (i.mapOffset g) = (f i).mapOffset g)
    (hexports : ∀ i, (f i).exports = i.exports) : Lower.Oblivious (Lower.onInterface f) :=
  aside (fun σ => by simp only [Lower.onInterface, Step.update, Session.strip, hf])
    (fun _ => rfl) (fun _ => rfl) fun σ => hexports σ.interface

theorem addDependency {name : String} : Lower.Oblivious (Lower.onInterface (·.addDependency name)) := by
  refine onInterface (fun i g => ?_) fun i => ?_ <;>
    by_cases h : name ∈ i.dependencies <;> simp [Interface.addDependency, Interface.mapOffset, h]

theorem addModule {path : String} : Lower.Oblivious (Lower.onInterface (·.addModule path)) := by
  refine onInterface (fun i g => ?_) fun i => ?_ <;>
    by_cases h : path ∈ i.modules <;> simp [Interface.addModule, Interface.mapOffset, h]

/-- A step on the draft alone moves what has been recorded with the code. -/
theorem onDraft {x : Step Draft α} (hx : Draft.Oblivious x) : Lower.Oblivious (Lower.onDraft x) := by
  have hrun (σ : Session) : Lower.onDraft x σ = ((x σ.draft).1, { σ with draft := (x σ.draft).2 }) := rfl
  refine ⟨fun {σ} hσ => ?_, fun {σ} hσ => ?_⟩
  · rw [hrun, hrun, (hσ.redraft (hx.grows hσ.draft) (hx.keeps hσ.draft)).2,
      show σ.strip.draft = σ.draft.strip from rfl, hx.commutes hσ.draft]
  · rw [hrun]
    exact (hσ.redraft (hx.grows hσ.draft) (hx.keeps hσ.draft)).1

theorem emit {i : Instruction} (hi : i.symbolic = true) (hk : i.isCheckpoint = false) :
    Lower.Oblivious (Lower.emit i) :=
  onDraft (.emit hi hk)

theorem emitConstant {v : Constant} : Lower.Oblivious (Lower.emitConstant v) := onDraft .emitConstant

theorem newLabel : Lower.Oblivious Lower.newLabel := onDraft .newLabel

theorem newMarkedLabel : Lower.Oblivious Lower.newMarkedLabel := onDraft .newMarkedLabel

theorem mark {l : Label} : Lower.Oblivious (Lower.mark l) := onDraft .mark

/-- The position that is recorded moves with the code. -/
theorem recordUse {name : String} {span : Span} {resolved : Bool} :
    Lower.Oblivious (Lower.recordUse name span resolved) := by
  refine ⟨fun {σ} hσ => ?_, fun {σ} hσ => ⟨hσ.draft, fun c hc => ?_, hσ.exports⟩⟩
  · simp only [Lower.recordUse, Step.update, Session.strip, Draft.position_strip, Array.map_push]
    rfl
  · rcases Array.mem_push.mp hc with hc | rfl
    · exact hσ.uses c hc
    · exact Nat.le_refl _

/-- A step with something done before it and undone behind it that has nothing to do with the code. -/
theorem within {f : Session → Session} {g : Session → Session → Session} (hx : Lower.Oblivious x)
    (hf : ∀ σ, f σ.strip = (f σ).strip) (hg : ∀ σ τ : Session, g σ.strip τ.strip = (g σ τ).strip)
    (hin : ∀ {σ}, σ.Symbolic → (f σ).Symbolic) (hout : ∀ {σ τ}, τ.Symbolic → (g σ τ).Symbolic) :
    Lower.Oblivious fun σ => ((x (f σ)).1, g σ (x (f σ)).2) where
  commutes {σ} hσ := by rw [hf, hx.commutes (hin hσ), hg]
  keeps hσ := hout (hx.keeps (hin hσ))

/-- A scope that is opened and left has nothing to do with the code. -/
theorem inScope {kind : ScopeKind} (hx : Lower.Oblivious x) : Lower.Oblivious (Lower.inScope kind x) :=
  within (f := fun σ => { σ with scopes := σ.scopes.enter kind })
    (g := fun _ τ => { τ with scopes := τ.scopes.leave }) hx (fun _ => rfl) (fun _ _ => rfl)
    (fun hσ => ⟨hσ.draft, hσ.uses, hσ.exports⟩) fun hτ => ⟨hτ.draft, hτ.uses, hτ.exports⟩

theorem inPackage {id : PackageId} (hx : Lower.Oblivious x) : Lower.Oblivious (Lower.inPackage id x) :=
  within (f := fun σ => { σ with package := id }) (g := fun σ τ => { τ with package := σ.package }) hx
    (fun _ => rfl) (fun _ _ => rfl) (fun hσ => ⟨hσ.draft, hσ.uses, hσ.exports⟩)
    fun hτ => ⟨hτ.draft, hτ.uses, hτ.exports⟩

/-- A subroutine of any package, mentioned here for the first time or again. -/
theorem mentionIn {id : PackageId} {name : String} : Lower.Oblivious fun σ : Session =>
    (.ok (σ.packages.mention id name σ.draft).1, { σ with
      packages := (σ.packages.mention id name σ.draft).2.1
      draft := (σ.packages.mention id name σ.draft).2.2 }) := by
  refine ⟨fun {σ} hσ => ?_, fun {σ} hσ => ?_⟩
  · have hmention := @Draft.Oblivious.mention σ.packages id name
    obtain ⟨hsub, hdraft⟩ := Prod.mk.inj (hmention.commutes hσ.draft)
    obtain ⟨hsub, hpackages⟩ := Prod.mk.inj (Except.ok.inj hsub)
    have hstrip := (hσ.redraft (hmention.grows hσ.draft) (hmention.keeps hσ.draft)).2
    refine Prod.ext (congrArg Except.ok hsub) ?_
    rw [show σ.strip.packages = σ.packages from rfl, show σ.strip.draft = σ.draft.strip from rfl,
      hpackages, hdraft]
    exact congrArg (fun τ : Session =>
      { τ with packages := (σ.packages.mention id name σ.draft).2.1 }) hstrip.symm
  · have hmention := @Draft.Oblivious.mention σ.packages id name
    have hτ := (hσ.redraft (hmention.grows hσ.draft) (hmention.keeps hσ.draft)).1
    exact ⟨hτ.draft, hτ.uses, hτ.exports⟩

/-- The place of a label that is exported moves with the code. -/
theorem addExport {entry : Label} {name : Session → String} {e : Fault}
    (hname : ∀ σ, name σ.strip = name σ) :
    Lower.Oblivious (do
      match ← Step.view (·.draft.offset? entry) with
      | none => Step.fail e
      | some position =>
        let absolute ← Step.view name
        Lower.onInterface (·.addExport absolute position)) := by
  refine congr (y := fun σ => match σ.draft.offset? entry with
    | none => (.error e, σ)
    | some position => (.ok (), { σ with interface := σ.interface.addExport (name σ) position }))
    (fun σ => ?_) ⟨fun {σ} hσ => ?_, fun {σ} hσ => ?_⟩
  · simp only [Step.view_bind]
    cases σ.draft.offset? entry <;> rfl
  · rw [show σ.strip.draft = σ.draft.strip from rfl, Draft.offset?_strip, hname]
    cases σ.draft.offset? entry with
    | none => rfl
    | some position => simp [Session.strip, Interface.mapOffset, Interface.addExport]
  · cases ho : σ.draft.offset? entry with
    | none => exact hσ
    | some position =>
        refine ⟨hσ.draft, hσ.uses, fun x hx => ?_⟩
        rcases List.mem_append.mp hx with hx | hx
        · exact hσ.exports x hx
        · obtain rfl := List.mem_singleton.mp hx
          exact hσ.draft.labels (Option.join_eq_some_iff.mp ho)

/-- A checkpoint that is emitted is stripped, and none is emitted where there are none. -/
theorem checkpoint {id : Int64} (hx : Lower.Oblivious x) :
    Lower.Oblivious (do
      if ← Step.view (·.options.checkpoints) then Lower.emit (.checkpoint id)
      x) := by
  have hemitted {σ : Session} (hσ : σ.Symbolic) : ∀ on : Bool,
      Session.Symbolic (if on then { σ with draft := σ.draft.emit (.checkpoint id) } else σ) ∧
      Session.strip (if on then { σ with draft := σ.draft.emit (.checkpoint id) } else σ) = σ.strip := by
    rintro (_ | _)
    · exact ⟨hσ, rfl⟩
    · obtain ⟨hτ, hstrip⟩ := hσ.redraft .emit (hσ.draft.emit (i := .checkpoint id) rfl)
      refine ⟨hτ, hstrip.trans ?_⟩
      rw [hσ.draft.strip_emit rfl]
      rfl
  refine congr (y := fun σ => x (if σ.options.checkpoints
      then { σ with draft := σ.draft.emit (.checkpoint id) } else σ))
    (fun σ => ?_) ⟨fun {σ} hσ => ?_, fun {σ} hσ => hx.keeps (hemitted hσ _).1⟩
  · simp only [Step.view_bind]
    cases σ.options.checkpoints <;> rfl
  · obtain ⟨hτ, hstrip⟩ := hemitted hσ σ.options.checkpoints
    rw [← hx.commutes hτ, hstrip]
    rfl

end Step.Commutes

end StackScript
