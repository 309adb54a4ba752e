import StackScript.Proofs.Sealed

/-!
# Where labels are marked

A label is marked where the code has come to.  So no label stands behind the code, and one that is marked
later does not stand before the code that there was (`Draft.Marks`).  Branches go to labels, so a place at
which no label has been marked when its instruction is emitted is reached from the place before it only.

* `Move.Does.marks`, `Runs.marks`: moves, and the lowering of whole pieces, mark labels like this.
* `Program.branch_ne`: between two instructions that are emitted one right after the other no branch
  arrives.
-/

namespace StackScript

/-! ### Marking labels -/

/-- The labels of `d'` are where they are in `d`, or between the ends of the one and of the other. -/
structure Draft.Marks (d d' : Draft) : Prop where
  position_le : d.position ≤ d'.position
  labels : ∀ {n m : Nat}, d'.labels[n]? = some (some m) →
    d.labels[n]? = some (some m) ∨ (d.position ≤ m ∧ m ≤ d'.position)

namespace Draft.Marks

theorem refl {d : Draft} : d.Marks d := ⟨Nat.le_refl _, .inl⟩

theorem trans {d₁ d₂ d₃ : Draft} (h₁ : d₁.Marks d₂) (h₂ : d₂.Marks d₃) : d₁.Marks d₃ := by
  have hle₁ := h₁.position_le
  have hle₂ := h₂.position_le
  refine ⟨Nat.le_trans hle₁ hle₂, ?_⟩
  intro n m hm
  rcases h₂.labels hm with hm | hm
  · rcases h₁.labels hm with hm | hm
    · exact .inl hm
    · exact .inr (by omega)
  · exact .inr (by omega)

/-- Code that is added leaves the labels where they are. -/
theorem of_labels {d d' : Draft} (hpos : d.position ≤ d'.position) (h : d'.labels = d.labels) :
    d.Marks d' :=
  ⟨hpos, fun hm => .inl (h ▸ hm)⟩

/-- A new label is unmarked, or it is marked here. -/
theorem push {d : Draft} {o : Option Nat} (ho : ∀ m, o = some m → m = d.position) :
    d.Marks { d with labels := d.labels.push o } := by
  refine ⟨Nat.le_refl _, ?_⟩
  intro n m hm
  rw [Array.getElem?_push] at hm
  split at hm
  · obtain rfl := ho m (Option.some.inj hm)
    exact .inr ⟨Nat.le_refl _, Nat.le_refl _⟩
  · exact .inl hm

/-- A label is marked at the position that is there. -/
theorem mark {d d' : Draft} {l : Label} (h : Draft.mark l d = (.ok (), d')) : d.Marks d' := by
  unfold Draft.mark at h
  split at h
  · cases h
    refine ⟨Nat.le_refl _, ?_⟩
    intro n m hm
    rw [Array.getElem?_setIfInBounds] at hm
    split at hm
    · split at hm
      · obtain rfl := Option.some.inj (Option.some.inj hm)
        exact .inr ⟨Nat.le_refl _, Nat.le_refl _⟩
      · cases hm
    · exact .inl hm
  · cases h
  · cases h

theorem mention {t : PackageTree} {id : PackageId} {name : String} {d : Draft} :
    d.Marks (t.mention id name d).2.2 := by
  unfold PackageTree.mention
  split
  · exact .refl
  · exact push fun m hm => by cases hm

end Draft.Marks

/-- A move leaves labels where they are, or marks them where it is. -/
theorem Move.Does.marks {m : Move} {σ σ' : Session} (h : m.Does σ σ') : σ.draft.Marks σ'.draft := by
  have hpos := h.grows.position_le
  cases m with
  | emit i =>
      obtain rfl := acts_emit.mp h
      exact .of_labels hpos rfl
  | constant v =>
      obtain ⟨d, hd, rfl⟩ := acts_constant.mp h
      obtain ⟨index, c, -, rfl⟩ := Draft.emitConstant_eq_ok.mp hd
      exact .of_labels hpos rfl
  | newLabel l =>
      obtain ⟨-, rfl⟩ := acts_newLabel.mp h
      exact .push fun m hm => by cases hm
  | newMarkedLabel l =>
      obtain ⟨-, rfl⟩ := acts_newMarkedLabel.mp h
      exact .push fun m hm => (Option.some.inj hm).symm
  | mark l =>
      obtain ⟨d, hd, rfl⟩ := acts_mark.mp h
      exact .mark hd
  | mention name sub =>
      obtain ⟨-, rfl⟩ := acts_mention.mp h
      exact .mention
  | piece p b => exact h.elim
  | _ =>
      rw [h.spares.draft rfl]
      exact .refl

theorem Along.marks_of {K : Piece → Bool → Session → Session → Prop} {ms : List Move}
    {σ σ' : Session} (hK : ∀ {p b σ σ'}, K p b σ σ' → σ.draft.Marks σ'.draft)
    (h : Along K ms σ σ') : σ.draft.Marks σ'.draft :=
  h.rel (R := fun σ σ' => σ.draft.Marks σ'.draft) .refl .trans Move.Does.marks hK

/-- Lowering a piece marks labels within the code that it emits. -/
theorem Runs.marks {Q : List Move → Prop} {p : Piece} {b : Bool} {σ σ' : Session}
    (h : Runs Q p b σ σ') : σ.draft.Marks σ'.draft :=
  h.rel (R := fun σ σ' => σ.draft.Marks σ'.draft) .refl .trans Move.Does.marks

/-- What is lowered on the way is lowered behind the labels marked before, and before those marked
later. -/
theorem Visits.marks {p q : Piece} {b e : Bool} {σ σ' τ τ' : Session} (h : Visits p b σ σ' q e τ τ') :
    σ.draft.Marks τ.draft ∧ τ'.draft.Marks σ'.draft := by
  induction h with
  | self => exact ⟨.refl, .refl⟩
  | part _ hpart ih =>
      obtain ⟨ms, ns, -, h₁, -, h₂⟩ := hpart
      have hmarks {p b σ σ'} (h : Lowers p b σ σ') : σ.draft.Marks σ'.draft := h.runs.marks
      exact ⟨ih.1.trans (h₁.marks_of hmarks), (h₂.marks_of hmarks).trans ih.2⟩

/-- Looking through declarations moves no label. -/
theorem Session.declareStmts_marks {body : List Stmt} {s : Session} {id : PackageId} :
    s.draft.Marks (s.declareStmts id body).draft := by
  refine declareStmts_rel (R := fun s s' => s.draft.Marks s'.draft) .refl .trans ?_ .refl body s id
  intro s id head body
  unfold declareSub
  simp only
  split
  · exact .mention
  · split <;> exact .mention

/-! ### Places without a label -/

/-- No label stands behind the code. -/
def Draft.Bounded (d : Draft) : Prop :=
  ∀ n m : Nat, d.labels[n]? = some (some m) → m ≤ d.position

/-- Labels that are within the code stay within it. -/
theorem Draft.Bounded.mono {d d' : Draft} (h : d.Bounded) (hm : d.Marks d') : d'.Bounded := by
  intro n m hlabel
  rcases hm.labels hlabel with hlabel | hlabel
  · exact Nat.le_trans (h n m hlabel) hm.position_le
  · exact hlabel.2

theorem Draft.position_emit {d : Draft} {i : Instruction} :
    (d.emit i).position = d.position + 1 := by
  simp [position, emit, Chunk.emit, Chunk.size]

/-- Between two instructions that are emitted one right after the other there is no label. -/
theorem Draft.Bounded.unmarked {d d' : Draft} {i j : Instruction} (h : d.Bounded)
    (hm : ((d.emit i).emit j).Marks d') {n : Nat} :
    d'.labels[n]? ≠ some (some (d.position + 1)) := by
  intro hlabel
  have hpos : ((d.emit i).emit j).position = d.position + 1 + 1 := by
    rw [position_emit, position_emit]
  rcases hm.labels hlabel with hlabel | hlabel
  · have := h n _ hlabel
    omega
  · omega

namespace Program

variable {p : Program} {name : String} {options : CompileOptions} {u : CompiledUnit}

/-- Where the statements of a program begin, no label stands behind the code. -/
theorem entry_bounded : (p.entry name options).draft.Bounded := by
  have hstart : (Session.start name options).draft.Bounded := by
    intro n m hm
    simp [Session.start] at hm
  have hknown := hstart.mono (@Session.declareStmts_marks p.body _ PackageTree.root)
  intro n m hm
  have := hknown n m hm
  rw [entry, Draft.position_emit]
  omega

/-- What is lowered for a program is lowered between the labels marked before and those marked later. -/
theorem Lowered.marks {q : Piece} {b : Bool} {σ τ τ' : Session} (hq : p.Lowered name options q b τ τ')
    (hl : Lowers (.stmts p.body) true (p.entry name options) σ) :
    τ.draft.Bounded ∧ τ'.draft.Marks σ.halted.draft := by
  obtain ⟨σ', hl', hv⟩ := hq
  obtain rfl : σ = σ' := (Prod.mk.inj (Eq.trans hl.symm hl')).2
  have hhalt : (Move.op .halt).Does σ { σ with draft := σ.draft.emit (.bare .halt) } := rfl
  exact ⟨entry_bounded.mono hv.marks.1, hv.marks.2.trans hhalt.marks⟩

/-- Between two instructions that are emitted one right after the other no branch arrives. -/
theorem branch_ne {σ : Session} {d : Draft} {i j b : Instruction} {n : Nat}
    (h : compile name options p = .ok u)
    (hl : Lowers (.stmts p.body) true (p.entry name options) σ)
    (hd : d.Bounded) (hm : ((d.emit i).emit j).Marks σ.halted.draft)
    (hi : u.chunk.instructions[n]? = some b) (hb : b.branches = true) :
    b.operand ≠ some (.offset (d.position + 1)) := by
  intro hoperand
  obtain ⟨l, m, hlabel, hm'⟩ := branch_label h hl hi hb
  obtain rfl : d.position + 1 = m := by simpa using hoperand.symm.trans hm'
  exact hd.unmarked hm (Option.join_eq_some_iff.mp hlabel)

end Program

end StackScript
