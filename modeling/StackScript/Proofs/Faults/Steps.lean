import StackScript.Proofs.Declarations
import StackScript.Proofs.Stack.Flow

/-!
# Steps that stop at limits only

A step of lowering may stop for want of an open scope, for a label that is marked twice or is none of
the draft's, or because a limit of the code has been reached.  Only the last can happen, and this takes
an invariant: which scopes are open, which labels have been promised a place, and which subroutines
have one.

* `Lower.Spec`: from sessions of one kind a step leads to sessions of another, unless it stops at a
  limit or runs out of labels.
* `Session.Fit`: the sessions in which the scopes of the kinds `K` are open, and in which the labels
  `A` are promised and the labels `M` marked.
* `Lower.Spec.newLabel`, `Lower.Spec.mark` and so on: what the single steps do to these.
-/

namespace StackScript

/-- The fault is that a limit of the code has been reached. -/
def Fault.isLimit : Fault → Bool
  | .tooManyLocals | .tooManyConstants | .listTooLong => true
  | _ => false

namespace Session

/-- What a step keeps to, whether it ends or stops: the code grows, and so does the tree of packages. -/
structure Climbs (σ σ' : Session) : Prop where
  draft : σ.draft.Grows σ'.draft
  packages : σ.packages.packages.size ≤ σ'.packages.packages.size

theorem Climbs.refl {σ : Session} : σ.Climbs σ := ⟨.refl, Nat.le_refl _⟩

theorem Climbs.trans {σ₁ σ₂ σ₃ : Session} (h₁ : σ₁.Climbs σ₂) (h₂ : σ₂.Climbs σ₃) : σ₁.Climbs σ₃ :=
  ⟨h₁.draft.trans h₂.draft, Nat.le_trans h₁.packages h₂.packages⟩

/-- The labels created so far have numbers of their own. -/
def Few (σ : Session) : Prop := σ.draft.labels.size ≤ UInt32.size

/-- Where labels have numbers of their own, they had before. -/
theorem Climbs.few {σ σ' : Session} (h : σ.Climbs σ') (hσ' : σ'.Few) : σ.Few :=
  Nat.le_trans h.draft.labels hσ'

end Session

/-! ### Specifications of steps -/

namespace Lower

/-- Where `P` holds, the step ends where `Q` holds or stops at a limit, as long as labels have numbers of
their own. -/
structure Spec {α : Type} (P : Session → Prop) (x : Lower α) (Q : α → Session → Prop) : Prop where
  climbs : ∀ σ : Session, σ.Climbs (x σ).2
  ends : ∀ {σ a τ}, x σ = (.ok a, τ) → P σ → τ.Few → Q a τ
  stops : ∀ {σ f τ}, x σ = (.error f, τ) → P σ → τ.Few → f.isLimit = true

namespace Spec

variable {α β : Type} {P P' R : Session → Prop} {x : Lower α} {f : α → Lower β}
  {Q Q' : α → Session → Prop} {S : β → Session → Prop}

/-- Two steps one after the other: what the first comes to is where the second begins. -/
theorem bind (hx : Spec P x Q) (hf : ∀ a, Spec (Q a) (f a) S) : Spec P (x >>= f) S := by
  -- What comes after the first step tells that there were labels enough behind it.
  have hfirst {σ τ υ : Session} {a : α} {r : Except Fault β} (hτ : x σ = (.ok a, τ))
      (hυ : f a τ = (r, υ)) (hP : P σ) (hfew : υ.Few) : Q a τ := by
    have hclimbs := (hf a).climbs τ
    rw [hυ] at hclimbs
    exact hx.ends hτ hP (hclimbs.few hfew)
  refine ⟨fun σ => ?_, fun {σ b υ} h hP hfew => ?_, fun {σ e υ} h hP hfew => ?_⟩
  · have hclimbs := hx.climbs σ
    show σ.Climbs (Step.bind x f σ).2
    unfold Step.bind
    rcases hτ : x σ with ⟨e | a, τ⟩
    · rwa [hτ] at hclimbs
    · rw [hτ] at hclimbs
      exact hclimbs.trans ((hf a).climbs τ)
  · obtain ⟨a, τ, hτ, hυ⟩ := Step.bind_eq_ok.mp h
    exact (hf a).ends hυ (hfirst hτ hυ hP hfew) hfew
  · rcases Step.bind_eq_error.mp h with hτ | ⟨a, τ, hτ, hυ⟩
    · exact hx.stops hτ hP hfew
    · exact (hf a).stops hυ (hfirst hτ hυ hP hfew) hfew

/-- A specification holds from fewer sessions, and says less if it is asked less. -/
theorem mono (h : Spec P x Q) (hP : ∀ {σ}, P' σ → P σ) (hQ : ∀ {a τ}, Q a τ → Q' a τ) :
    Spec P' x Q' :=
  ⟨h.climbs, fun hx hσ hfew => hQ (h.ends hx (hP hσ) hfew), fun hx hσ hfew => h.stops hx (hP hσ) hfew⟩

/-- What growth leaves true stays true. -/
theorem frame (h : Spec P x Q) (hR : ∀ {σ τ}, σ.Climbs τ → R σ → R τ) :
    Spec (fun σ => P σ ∧ R σ) x (fun a τ => Q a τ ∧ R τ) := by
  refine ⟨h.climbs, fun {σ a τ} hx hσ hfew => ⟨h.ends hx hσ.1 hfew, hR ?_ hσ.2⟩,
    fun hx hσ hfew => h.stops hx hσ.1 hfew⟩
  have hclimbs := h.climbs σ
  rwa [hx] at hclimbs

/-- A step that always ends. -/
theorem total {g : Session → α} {k : Session → Session} (hclimbs : ∀ σ : Session, σ.Climbs (k σ))
    (h : ∀ {σ}, P σ → (k σ).Few → Q (g σ) (k σ)) : Spec P (fun σ => (.ok (g σ), k σ)) Q := by
  refine ⟨hclimbs, fun hx hσ hfew => ?_, fun hx _ _ => ?_⟩
  · cases hx
    exact h hσ hfew
  · cases hx

/-- Nothing is done. -/
theorem pure {a : α} (h : ∀ {σ}, P σ → Q a σ) : Spec P (Pure.pure a) Q :=
  total (g := fun _ => a) (k := id) (fun _ => .refl) fun hσ _ => h hσ

theorem view {g : Session → α} (h : ∀ {σ}, P σ → Q (g σ) σ) : Spec P (Step.view g) Q :=
  total (k := id) (fun _ => .refl) fun hσ _ => h hσ

/-- A limit that has been reached. -/
theorem fail {e : Fault} (he : ∀ {σ}, P σ → e.isLimit = true) : Spec P (Step.fail e) Q := by
  refine ⟨fun _ => .refl, fun hx _ _ => ?_, fun hx hσ _ => ?_⟩
  · cases hx
  · cases hx
    exact he hσ

end Spec

end Lower

/-! ### Labels of subroutines -/

/-- A label is known by its number. -/
theorem Label.ext_toNat {l l' : Label} (h : l.id.toNat = l'.id.toNat) : l = l' := by
  obtain ⟨i⟩ := l
  obtain ⟨j⟩ := l'
  exact congrArg Label.mk (UInt32.toNat_inj.mp h)

namespace Draft

/-- The label is the draft's, and it is not marked. -/
def IsOpen (d : Draft) (l : Label) : Prop := d.labels[l.id.toNat]? = some none

/-- The label is marked. -/
def IsMarked (d : Draft) (l : Label) : Prop := (d.offset? l).isSome = true

/-- A label that is marked stays marked. -/
theorem Grows.marked {d d' : Draft} {l : Label} (h : d.Grows d') (hl : d.IsMarked l) :
    d'.IsMarked l := by
  obtain ⟨n, hn⟩ := Option.isSome_iff_exists.mp hl
  exact Option.isSome_iff_exists.mpr ⟨n, h.offset hn⟩

theorem IsOpen.lt {d : Draft} {l : Label} (h : d.IsOpen l) : l.id.toNat < d.labels.size :=
  (Array.getElem?_eq_some_iff.mp h).1

section New

variable {d : Draft} {l : Label}

/-- The next label has the number of the labels there are, as long as there are numbers left. -/
theorem nextLabel_toNat (h : d.labels.size < UInt32.size) : d.nextLabel.id.toNat = d.labels.size :=
  Nat.mod_eq_of_lt h

/-- A label that is open stays open when another one is created. -/
theorem IsOpen.push {o : Option Nat} (h : d.IsOpen l) :
    IsOpen { d with labels := d.labels.push o } l := by
  have hlt : l.id.toNat < d.labels.size := h.lt
  rw [IsOpen, Array.getElem?_push_lt hlt]
  rwa [IsOpen, Array.getElem?_eq_getElem hlt] at h

/-- The next label is none of those that are open. -/
theorem IsOpen.ne_nextLabel (h : d.IsOpen l) (hfew : d.labels.size < UInt32.size) :
    l ≠ d.nextLabel := by
  rintro rfl
  exact Nat.lt_irrefl _ (nextLabel_toNat hfew ▸ h.lt)

end New

end Draft

namespace PackageTree

variable {t : PackageTree} {d : Draft} {A : List Label} {id : PackageId} {name : String}

/-- A subroutine that has been set was known before or is the one that was set. -/
theorem sub?_of_setSub {s s' : Subroutine} {i : PackageId} {x : String}
    (h : (t.setSub id name s).sub? i x = some s') :
    (id < t.packages.size ∧ i = id ∧ x = name ∧ s' = s) ∨
      (¬ (i = id ∧ x = name) ∧ t.sub? i x = some s') := by
  by_cases hid : id < t.packages.size
  · rw [sub?_setSub hid] at h
    split at h
    · rename_i heq
      exact .inl ⟨hid, heq.1, heq.2, (Option.some.inj h).symm⟩
    · rename_i hne
      exact .inr ⟨hne, h⟩
  · -- There is no such package, so nothing was set.
    have hsame : t.sub? i x = some s' := by
      rw [sub?, setSub, get_modify, if_neg fun h => hid h.2] at h
      exact h
    refine .inr ⟨?_, hsame⟩
    rintro ⟨rfl, -⟩
    simp [sub?, get, Array.getD, hid, Package.root] at hsame

/-- Entering a package adds no subroutines. -/
theorem sub?_enterChild {kind : PackageKind} {i : PackageId} {x : String} :
    (t.enterChild id name kind).2.sub? i x = t.sub? i x := by
  unfold enterChild
  split
  · split
    · rfl
    · unfold sub?
      rw [get_modify]
      split <;> rfl
  · have hget : (PackageTree.get ⟨t.packages.push { name, kind, parent := some id }⟩ i).subs =
        (t.get i).subs := by
      rcases Nat.lt_trichotomy i t.packages.size with hi | rfl | hi
      · simp [get, Array.getD, hi, Nat.lt_succ_of_lt hi, Array.getElem_push_lt hi]
      · simp [get, Array.getD, Package.root]
      · have h₁ : ¬ i < t.packages.size := Nat.not_lt.mpr (Nat.le_of_lt hi)
        have h₂ : ¬ i < t.packages.size + 1 := Nat.not_lt.mpr hi
        simp [get, Array.getD, h₁, h₂]
    unfold sub?
    rw [get_modify, ← hget]
    split <;> rfl

/-- Entering packages leaves their subroutines alone. -/
theorem sub?_enter {path : String} {kind : PackageKind} {i : PackageId} {x : String} :
    (t.enter id path kind).2.sub? i x = t.sub? i x := by
  unfold enter
  fun_induction enterComponents t id kind (Path.components path) with
  | case1 => rfl
  | case2 => exact sub?_enterChild
  | case3 t id name rest _ child t' heq ih =>
      rw [ih, ← @sub?_enterChild t id, heq]

theorem size_enter {path : String} {kind : PackageKind} :
    t.packages.size ≤ (t.enter id path kind).2.packages.size := by
  have hchild {t : PackageTree} {id : PackageId} {name : String} {kind : PackageKind} :
      t.packages.size ≤ (t.enterChild id name kind).2.packages.size := by
    unfold enterChild
    split
    · split <;> simp
    · simp
  unfold enter
  fun_induction enterComponents t id kind (Path.components path) with
  | case1 => exact Nat.le_refl _
  | case2 => exact hchild
  | case3 t id name rest _ child t' heq ih =>
      have h := @hchild t id name .package
      rw [heq] at h
      exact Nat.le_trans h ih

/-- A mention adds no package. -/
theorem size_mention : (t.mention id name d).2.1.packages.size = t.packages.size := by
  unfold mention
  split <;> simp

/-- Subroutines that are still to be emitted have open labels of their own, which have not been promised
to anyone else.  Those that have been emitted have marked labels, or labels that are promised. -/
structure Labelled (A : List Label) (t : PackageTree) (d : Draft) : Prop where
  waiting : ∀ {id name s}, t.sub? id name = some s → s.marked = false →
    d.IsOpen s.label ∧ s.label ∉ A
  emitted : ∀ {id name s}, t.sub? id name = some s → s.marked = true →
    s.label ∈ A ∨ d.IsMarked s.label
  apart : ∀ {id name s id' name' s'}, t.sub? id name = some s → t.sub? id' name' = some s' →
    s.marked = false → s'.marked = false → s.label = s'.label → id = id' ∧ name = name'

namespace Labelled

/-- The code may go on as long as the labels of these subroutines stay open. -/
theorem redraft {B : List Label} {d' : Draft} (h : Labelled A t d) (hg : d.Grows d')
    (hopen : ∀ l, d.IsOpen l → l ∉ A → d'.IsOpen l ∧ l ∉ B)
    (hdue : ∀ l ∈ A, l ∈ B ∨ d'.IsMarked l) : Labelled B t d' := by
  refine ⟨fun hs hm => ?_, fun hs hm => ?_, h.apart⟩
  · obtain ⟨ho, hA⟩ := h.waiting hs hm
    exact hopen _ ho hA
  · rcases h.emitted hs hm with hA | hmark
    · exact hdue _ hA
    · exact .inr (hg.marked hmark)

/-- A subroutine that is set with the label it had and is no further on than it was. -/
theorem setSub_same {s s' : Subroutine} (h : Labelled A t d)
    (hs : id < t.packages.size → t.sub? id name = some s)
    (hl : s'.label = s.label) (hm : s'.marked = s.marked) : Labelled A (t.setSub id name s') d := by
  -- Whatever is found now was found before, with the same label.
  have hback {i : PackageId} {x : String} {r : Subroutine}
      (hr : (t.setSub id name s').sub? i x = some r) :
      ∃ r', t.sub? i x = some r' ∧ r.label = r'.label ∧ r.marked = r'.marked := by
    rcases sub?_of_setSub hr with ⟨hid, rfl, rfl, rfl⟩ | ⟨-, hr⟩
    · exact ⟨s, hs hid, hl, hm⟩
    · exact ⟨r, hr, rfl, rfl⟩
  refine ⟨fun hr hm => ?_, fun hr hm => ?_, fun hr₁ hr₂ hm₁ hm₂ heq => ?_⟩
  · obtain ⟨r', hr', hl, hm'⟩ := hback hr
    rw [hl]
    exact h.waiting hr' (hm' ▸ hm)
  · obtain ⟨r', hr', hl, hm'⟩ := hback hr
    rw [hl]
    exact h.emitted hr' (hm' ▸ hm)
  · obtain ⟨r₁', hr₁', hl₁, hm₁'⟩ := hback hr₁
    obtain ⟨r₂', hr₂', hl₂, hm₂'⟩ := hback hr₂
    exact h.apart hr₁' hr₂' (hm₁' ▸ hm₁) (hm₂' ▸ hm₂) (hl₁ ▸ hl₂ ▸ heq)

/-- A new subroutine with an open label that is no one else's. -/
theorem setSub_new {s : Subroutine} (h : Labelled A t d) (hm : s.marked = false)
    (ho : d.IsOpen s.label) (hA : s.label ∉ A)
    (hnew : ∀ {i x r}, t.sub? i x = some r → r.marked = false → r.label ≠ s.label) :
    Labelled A (t.setSub id name s) d := by
  refine ⟨fun hr hmr => ?_, fun hr hmr => ?_, fun hr₁ hr₂ hm₁ hm₂ heq => ?_⟩
  · rcases sub?_of_setSub hr with ⟨-, rfl, rfl, rfl⟩ | ⟨-, hr⟩
    · exact ⟨ho, hA⟩
    · exact h.waiting hr hmr
  · rcases sub?_of_setSub hr with ⟨-, rfl, rfl, rfl⟩ | ⟨-, hr⟩
    · rw [hm] at hmr
      cases hmr
    · exact h.emitted hr hmr
  · rcases sub?_of_setSub hr₁ with ⟨-, rfl, rfl, rfl⟩ | ⟨-, hold₁⟩
    · rcases sub?_of_setSub hr₂ with ⟨-, rfl, rfl, -⟩ | ⟨-, hold₂⟩
      · exact ⟨rfl, rfl⟩
      · exact absurd heq.symm (hnew hold₂ hm₂)
    · rcases sub?_of_setSub hr₂ with ⟨-, rfl, rfl, rfl⟩ | ⟨-, hold₂⟩
      · exact absurd heq (hnew hold₁ hm₁)
      · exact h.apart hold₁ hold₂ hm₁ hm₂ heq

/-- A subroutine that is going to be emitted: its label is promised. -/
theorem setSub_marked {s s' : Subroutine} (h : Labelled A t d) (hs : t.sub? id name = some s)
    (hm : s.marked = false) (hl : s'.label = s.label) (hm' : s'.marked = true) :
    Labelled (s.label :: A) (t.setSub id name s') d := by
  -- Those that are still to be emitted were so before.
  have hback {i : PackageId} {x : String} {r : Subroutine}
      (hr : (t.setSub id name s').sub? i x = some r) (hmr : r.marked = false) :
      ¬ (i = id ∧ x = name) ∧ t.sub? i x = some r := by
    rcases sub?_of_setSub hr with ⟨-, rfl, rfl, rfl⟩ | hr
    · rw [hm'] at hmr
      cases hmr
    · exact hr
  refine ⟨fun hr hmr => ?_, fun hr hmr => ?_, fun hr₁ hr₂ hm₁ hm₂ heq =>
    h.apart (hback hr₁ hm₁).2 (hback hr₂ hm₂).2 hm₁ hm₂ heq⟩
  · obtain ⟨hne, hr⟩ := hback hr hmr
    obtain ⟨ho, hA⟩ := h.waiting hr hmr
    refine ⟨ho, fun hmem => ?_⟩
    rcases List.mem_cons.mp hmem with heq | hmem
    · exact hne (h.apart hr hs hmr hm heq)
    · exact hA hmem
  · rcases sub?_of_setSub hr with ⟨-, rfl, rfl, rfl⟩ | ⟨-, hr⟩
    · exact .inl (hl ▸ List.mem_cons_self)
    · exact (h.emitted hr hmr).imp_left (List.mem_cons_of_mem _)

/-- Mentioning a subroutine creates a label for it if it is new. -/
theorem mention (h : Labelled A t d) (hA : ∀ l ∈ A, d.IsOpen l)
    (hfew : (t.mention id name d).2.2.labels.size ≤ UInt32.size) :
    Labelled A (t.mention id name d).2.1 (t.mention id name d).2.2 := by
  rcases @mention_eq t id name d with ⟨-, heq⟩ | ⟨-, -, heq⟩
  · rwa [heq]
  · rw [heq] at hfew ⊢
    have hlt : d.labels.size < UInt32.size := by
      simpa [Draft.newLabel, Nat.succ_le_iff] using hfew
    have hnew {l : Label} (hl : d.IsOpen l) : l ≠ d.nextLabel := hl.ne_nextLabel hlt
    refine setSub_new (h.redraft .newLabel (fun l hl hnot => ⟨hl.push, hnot⟩) fun l hl => .inl hl)
      rfl ?_ (fun hmem => hnew (hA _ hmem) rfl) fun hr hm => hnew (h.waiting hr hm).1
    show (d.labels.push none)[d.nextLabel.id.toNat]? = some none
    rw [Draft.nextLabel_toNat hlt, Array.getElem?_push_size]

end Labelled

end PackageTree

/-! ### The invariant -/

/-- A session in which scopes of the kinds `K` are open, the labels `A` have been promised places and the
labels `M` have theirs. -/
structure Session.Fit (K : List ScopeKind) (A M : List Label) (σ : Session) : Prop where
  kinds : σ.scopes.stack.map (·.kind) = K
  homed : σ.Homed
  promised : ∀ l ∈ A, σ.draft.IsOpen l
  nodup : A.Nodup
  marked : ∀ l ∈ M, σ.draft.IsMarked l
  subs : σ.packages.Labelled A σ.draft
  /-- The loops around have their labels. -/
  loops : ∀ {control}, .loop control ∈ K → ∀ l ∈ [control.done, control.next],
    l ∈ A ∨ σ.draft.IsMarked l
  /-- Jumps go to labels that have places or will have them. -/
  jumps : ∀ i ∈ σ.draft.chunk.instructions, ∀ {l}, i.label? = some l → l ∈ A ∨ σ.draft.IsMarked l

namespace Session.Fit

variable {K L : List ScopeKind} {A B M N : List Label} {σ τ : Session} {d : Draft}

/-- The code may go on as long as promises are kept. -/
theorem redraft (h : σ.Fit K A M) (hg : σ.draft.Grows d) (hnodup : B.Nodup)
    (hpromised : ∀ l ∈ B, d.IsOpen l) (hdue : ∀ l ∈ A, l ∈ B ∨ d.IsMarked l)
    (hmarked : ∀ l ∈ N, d.IsMarked l)
    (hopen : ∀ l, σ.draft.IsOpen l → l ∉ A → d.IsOpen l ∧ l ∉ B)
    (hcode : ∀ i ∈ d.chunk.instructions, i ∈ σ.draft.chunk.instructions ∨
      ∀ {l}, i.label? = some l → l ∈ B ∨ d.IsMarked l) : Fit K B N { σ with draft := d } := by
  have hkeep {l : Label} (hl : l ∈ A ∨ σ.draft.IsMarked l) : l ∈ B ∨ d.IsMarked l :=
    hl.elim (hdue l) fun hl => .inr (hg.marked hl)
  refine ⟨h.kinds, ⟨h.homed.closed, h.homed.home⟩, hpromised, hnodup, hmarked,
    h.subs.redraft hg hopen hdue, fun hc l hl => hkeep (h.loops hc l hl), fun i hi {l} hl => ?_⟩
  rcases hcode i hi with hold | hnew
  · exact hkeep (h.jumps i hold hl)
  · exact hnew hl

/-- Other scopes may be open. -/
theorem rescope {s : Scopes} (h : σ.Fit K A M) (hs : s.stack.map (·.kind) = L)
    (hloops : ∀ {control}, .loop control ∈ L → .loop control ∈ K ∨
      ∀ l ∈ [control.done, control.next], l ∈ A ∨ l ∈ M) : Fit L A M { σ with scopes := s } := by
  refine ⟨hs, ⟨h.homed.closed, h.homed.home⟩, h.promised, h.nodup, h.marked, h.subs,
    fun hc l hl => ?_, h.jumps⟩
  rcases hloops hc with hold | hnew
  · exact h.loops hold l hl
  · exact (hnew l hl).imp_right (h.marked l)

/-- What has been recorded makes no difference. -/
theorem congr (h : σ.Fit K A M) (hd : τ.draft = σ.draft) (hs : τ.scopes = σ.scopes)
    (hp : τ.packages = σ.packages) (hk : τ.package = σ.package) : τ.Fit K A M := by
  obtain ⟨kinds, ⟨closed, home⟩, promised, nodup, marked, subs, loops, jumps⟩ := h
  rw [← hs] at kinds
  rw [← hp] at closed home subs
  rw [← hk] at home
  rw [← hd] at promised marked subs loops jumps
  exact ⟨kinds, ⟨closed, home⟩, promised, nodup, marked, subs, loops, jumps⟩

/-- Marks may be forgotten. -/
theorem forget (h : σ.Fit K A M) (hN : N ⊆ M) : σ.Fit K A N :=
  { h with marked := fun l hl => h.marked l (hN hl) }

/-- The order of promises makes no difference. -/
theorem perm (h : σ.Fit K A M) (hB : A.Perm B) : σ.Fit K B M := by
  have hmem {l : Label} {P : Prop} (hl : l ∈ A ∨ P) : l ∈ B ∨ P := hl.imp_left hB.mem_iff.mp
  refine ⟨h.kinds, h.homed, fun l hl => h.promised l (hB.mem_iff.mpr hl), hB.nodup_iff.mp h.nodup,
    h.marked, ⟨fun hs hm => ?_, fun hs hm => hmem (h.subs.emitted hs hm), h.subs.apart⟩,
    fun hc l hl => hmem (h.loops hc l hl), fun i hi {l} hl => hmem (h.jumps i hi hl)⟩
  obtain ⟨ho, hA⟩ := h.subs.waiting hs hm
  exact ⟨ho, fun hl => hA (hB.mem_iff.mpr hl)⟩

end Session.Fit

/-! ### Single steps -/

namespace Scopes

/-- A slot is refused only where there are no more, if there is a subroutine to take it. -/
theorem alloc_error {s s' : Scopes} {f : Fault} (h : alloc s = (.error f, s'))
    (hs : ∃ k ∈ s.stack.map (·.kind), k.isSubroutine = true) : f = .tooManyLocals := by
  -- The search goes outward to the nearest subroutine, so the induction is on the stack of scopes.
  have hgo : ∀ {stack stack' : List Scope}, alloc.go stack = (.error f, stack') →
      (∃ k ∈ stack.map (·.kind), k.isSubroutine = true) → f = .tooManyLocals := by
    intro stack
    induction stack with
    | nil =>
        intro _ _ hs
        obtain ⟨k, hk, -⟩ := hs
        cases hk
    | cons a r ih =>
        intro stack' h hs
        unfold alloc.go at h
        split at h
        · simp only at h
          split at h
          · cases h
          · cases h
            rfl
        · rename_i ha
          have hr : alloc.go r = (.error f, (alloc.go r).2) := by
            rcases hr : alloc.go r with ⟨e | slot, rest⟩
            · rw [hr] at h
              cases h
              rfl
            · rw [hr] at h
              cases h
          obtain ⟨k, hk, hsub⟩ := hs
          rcases List.mem_cons.mp hk with rfl | hk
          · exact absurd hsub ha
          · exact ih hr ⟨k, hk, hsub⟩
  unfold alloc at h
  rcases ha : alloc.go s.stack with ⟨e | slot, stack⟩
  · rw [ha] at h
    cases h
    exact hgo ha hs
  · rw [ha] at h
    cases h

/-- A loop that is found is one of those that are open. -/
theorem loop_mem {s : Scopes} {control : LoopControl} (h : s.innermostLoop? = some control) :
    .loop control ∈ s.stack.map (·.kind) := by
  have hgo : ∀ {stack : List Scope}, innermostLoop?.go stack = some control →
      .loop control ∈ stack.map (·.kind) := by
    intro stack
    induction stack with
    | nil =>
        intro h
        cases h
    | cons a r ih =>
        intro h
        unfold innermostLoop?.go at h
        split at h
        · rename_i control' hk
          cases h
          simp [hk]
        · cases h
        · exact List.mem_cons_of_mem _ (ih h)
  exact hgo h

/-- Giving out a slot opens no scope and closes none. -/
theorem alloc_kinds {s s' : Scopes} {slot : Slot} (h : alloc s = (.ok slot, s')) :
    s'.stack.map (·.kind) = s.stack.map (·.kind) := by
  rw [(alloc_ok h).2.1]
  exact Below.bump.kinds

end Scopes

namespace Lower

/-- The step stops at limits only, and the invariant holds behind it as it did before. -/
abbrev Keeps {α : Type} (K : List ScopeKind) (A M : List Label) (x : Lower α) : Prop :=
  Spec (Session.Fit K A M) x fun _ => Session.Fit K A M

namespace Spec

variable {α : Type} {K L : List ScopeKind} {A B M N : List Label}

/-- What the invariant does not speak of may change. -/
theorem update {f : Session → Session} (hd : ∀ σ, (f σ).draft = σ.draft)
    (hs : ∀ σ, (f σ).scopes = σ.scopes) (hp : ∀ σ, (f σ).packages = σ.packages)
    (hk : ∀ σ, (f σ).package = σ.package) : Keeps K A M (Step.update f) := by
  refine total (g := fun _ => ()) (k := f) (fun σ => ⟨?_, ?_⟩) fun {σ} hσ _ =>
    hσ.congr (hd σ) (hs σ) (hp σ) (hk σ)
  · rw [hd]
    exact .refl
  · exact Nat.le_of_eq (by rw [hp])

/-- Something is read off the session. -/
theorem look {g : Session → α} : Keeps K A M (Step.view g) := view id

theorem report {p : Problem} {span : Span} : Keeps K A M (Lower.report p span) :=
  update (fun _ => rfl) (fun _ => rfl) (fun _ => rfl) fun _ => rfl

theorem recordUse {name : String} {span : Span} {resolved : Bool} :
    Keeps K A M (Lower.recordUse name span resolved) :=
  update (fun _ => rfl) (fun _ => rfl) (fun _ => rfl) fun _ => rfl

theorem onInterface {f : Interface → Interface} : Keeps K A M (Lower.onInterface f) :=
  update (fun _ => rfl) (fun _ => rfl) (fun _ => rfl) fun _ => rfl

theorem slotCount {n : Nat} : Keeps K A M (Lower.slotCount n) := by
  unfold Lower.slotCount
  split
  · exact pure id
  · exact fail fun _ => rfl

/-- An instruction may be emitted if it goes nowhere, or to a label that has a place or will have one. -/
theorem emit_due {i : Instruction} :
    Spec (fun σ => Session.Fit K A M σ ∧ ∀ l, i.label? = some l → l ∈ A ∨ σ.draft.IsMarked l)
      (Lower.emit i) fun _ => Session.Fit K A M := by
  refine total (g := fun _ => ()) (k := fun σ => { σ with draft := σ.draft.emit i })
    (fun σ => ⟨.emit, Nat.le_refl _⟩) fun {σ} hσ _ => ?_
  obtain ⟨hσ, hdue⟩ := hσ
  refine hσ.redraft .emit hσ.nodup hσ.promised (fun l hl => .inl hl) hσ.marked
    (fun l hl hA => ⟨hl, hA⟩) fun j hj => ?_
  rcases Array.mem_push.mp hj with hj | rfl
  · exact .inl hj
  · exact .inr fun hl => hdue _ hl

/-- An instruction may go to a label that is promised or marked. -/
theorem emit {i : Instruction} (hi : ∀ {l}, i.label? = some l → l ∈ A ∨ l ∈ M) :
    Keeps K A M (Lower.emit i) :=
  emit_due.mono (fun hσ => ⟨hσ, fun _ hl => (hi hl).imp_right (hσ.marked _)⟩) id

theorem emitOp {op : Opcode} : Keeps K A M (Lower.emitOp op) := emit fun h => by cases h

/-- A constant may be one too many for the pool, which is a limit. -/
theorem emitConstant {v : Constant} : Keeps K A M (Lower.emitConstant v) := by
  have hrun (σ : Session) : (∃ index c, Chunk.addConstant v σ.draft.chunk = (.ok index, c) ∧
      Lower.emitConstant v σ =
        (.ok (), { σ with draft := { σ.draft with chunk := c.emit (.loadConst index) } })) ∨
      Lower.emitConstant v σ = (.error .tooManyConstants, σ) := by
    unfold Lower.emitConstant Lower.onDraft Draft.emitConstant
    rcases hc : Chunk.addConstant v σ.draft.chunk with ⟨e | index, c⟩
    · obtain ⟨rfl, rfl⟩ := Chunk.addConstant_error hc
      exact .inr rfl
    · exact .inl ⟨index, c, rfl, rfl⟩
  refine ⟨fun σ => ?_, fun {σ _ τ} h hσ _ => ?_, fun {σ f τ} h hσ _ => ?_⟩
  · rcases hrun σ with ⟨index, c, hc, h⟩ | h
    · rw [h]
      exact ⟨.emitConstant (Draft.emitConstant_eq_ok.mpr ⟨index, c, hc, rfl⟩), Nat.le_refl _⟩
    · rw [h]
      exact .refl
  · rcases hrun σ with ⟨index, c, hc, h'⟩ | h'
    · obtain rfl : _ = τ := (Prod.mk.inj (h'.symm.trans h)).2
      refine hσ.redraft (.emitConstant (Draft.emitConstant_eq_ok.mpr ⟨index, c, hc, rfl⟩)) hσ.nodup
        hσ.promised (fun l hl => .inl hl) hσ.marked (fun l hl hA => ⟨hl, hA⟩) fun j hj => ?_
      rcases Array.mem_push.mp hj with hj | rfl
      · exact .inl ((Chunk.addConstant_ok hc).1 ▸ hj)
      · exact .inr fun hl => by cases hl
    · cases h'.symm.trans h
  · rcases hrun σ with ⟨index, c, hc, h'⟩ | h'
    · cases h'.symm.trans h
    · cases h'.symm.trans h
      rfl

/-- A new label is promised a place. -/
theorem newLabel : Spec (Session.Fit K A M) Lower.newLabel fun l => Session.Fit K (l :: A) M := by
  refine total (g := fun σ => σ.draft.nextLabel) (k := fun σ => { σ with draft := σ.draft.newLabel.2 })
    (fun σ => ⟨.newLabel, Nat.le_refl _⟩) fun {σ} hσ hfew => ?_
  have hlt : σ.draft.labels.size < UInt32.size := by
    simpa [Session.Few, Draft.newLabel, Nat.succ_le_iff] using hfew
  have hnew {l : Label} (hl : σ.draft.IsOpen l) : l ≠ σ.draft.nextLabel := hl.ne_nextLabel hlt
  refine hσ.redraft .newLabel (List.nodup_cons.mpr ⟨fun hmem => hnew (hσ.promised _ hmem) rfl, hσ.nodup⟩)
    (fun l hl => ?_) (fun l hl => .inl (List.mem_cons_of_mem _ hl))
    (fun l hl => Draft.Grows.newLabel.marked (hσ.marked l hl))
    (fun l hl hA => ⟨hl.push, fun hmem => ?_⟩) fun i hi => .inl hi
  · rcases List.mem_cons.mp hl with rfl | hl
    · show (σ.draft.labels.push none)[σ.draft.nextLabel.id.toNat]? = some none
      rw [Draft.nextLabel_toNat hlt, Array.getElem?_push_size]
    · exact (hσ.promised l hl).push
  · rcases List.mem_cons.mp hmem with heq | hmem
    · exact hnew hl heq
    · exact hA hmem

/-- A label that is marked where it is created. -/
theorem newMarkedLabel :
    Spec (Session.Fit K A M) Lower.newMarkedLabel fun l => Session.Fit K A (l :: M) := by
  refine total (g := fun σ => σ.draft.nextLabel)
    (k := fun σ => { σ with draft := σ.draft.newMarkedLabel.2 })
    (fun σ => ⟨.newMarkedLabel, Nat.le_refl _⟩) fun {σ} hσ hfew => ?_
  have hlt : σ.draft.labels.size < UInt32.size := by
    simpa [Session.Few, Draft.newMarkedLabel, Nat.succ_le_iff] using hfew
  refine hσ.redraft .newMarkedLabel hσ.nodup (fun l hl => (hσ.promised l hl).push)
    (fun l hl => .inl hl) (fun l hl => ?_) (fun l hl hA => ⟨hl.push, hA⟩) fun i hi => .inl hi
  rcases List.mem_cons.mp hl with rfl | hl
  · simp [Draft.IsMarked, Draft.offset?, Draft.newMarkedLabel, Draft.nextLabel_toNat hlt]
  · exact Draft.Grows.newMarkedLabel.marked (hσ.marked l hl)

/-- A label that was promised a place gets it. -/
theorem mark {l : Label} :
    Spec (Session.Fit K (l :: A) M) (Lower.mark l) fun _ => Session.Fit K A (l :: M) := by
  have hrun {σ : Session} (hl : σ.draft.IsOpen l) : Lower.mark l σ = (.ok (), { σ with draft :=
      { σ.draft with labels := σ.draft.labels.setIfInBounds l.id.toNat (some σ.draft.position) } }) := by
    unfold Lower.mark Lower.onDraft Draft.mark
    rw [hl]
  refine ⟨fun σ => ?_, fun {σ _ τ} h hσ _ => ?_, fun {σ f τ} h hσ _ => ?_⟩
  · unfold Lower.mark Lower.onDraft
    rcases hm : Draft.mark l σ.draft with ⟨e | _, d⟩
    · obtain rfl : σ.draft = d := by
        unfold Draft.mark at hm
        split at hm <;> cases hm <;> rfl
      exact .refl
    · exact ⟨.mark hm, Nat.le_refl _⟩
  · have hopen := hσ.promised l List.mem_cons_self
    obtain rfl : _ = τ := (Prod.mk.inj ((hrun hopen).symm.trans h)).2
    have hgrows : σ.draft.Grows { σ.draft with
        labels := σ.draft.labels.setIfInBounds l.id.toNat (some σ.draft.position) } := by
      refine .mark (l := l) ?_
      unfold Draft.mark
      rw [hopen]
    have hl : Draft.IsMarked { σ.draft with
        labels := σ.draft.labels.setIfInBounds l.id.toNat (some σ.draft.position) } l := by
      simp [Draft.IsMarked, Draft.offset?, hopen.lt]
    obtain ⟨hnot, hnodup⟩ := List.nodup_cons.mp hσ.nodup
    -- All other labels are as they were.
    have hother {l' : Label} (hne : l' ≠ l) (ho : σ.draft.IsOpen l') : Draft.IsOpen { σ.draft with
        labels := σ.draft.labels.setIfInBounds l.id.toNat (some σ.draft.position) } l' := by
      have hid : l.id.toNat ≠ l'.id.toNat := fun h => hne (Label.ext_toNat h.symm)
      show (σ.draft.labels.setIfInBounds _ _)[_]? = _
      rw [Array.getElem?_setIfInBounds_ne hid]
      exact ho
    refine hσ.redraft hgrows hnodup
      (fun l' hl' => hother (fun heq => hnot (heq ▸ hl')) (hσ.promised l' (List.mem_cons_of_mem _ hl')))
      (fun l' hl' => ?_) (fun l' hl' => ?_)
      (fun l' ho hA => ⟨hother (fun heq => hA (heq ▸ List.mem_cons_self)) ho,
        fun hmem => hA (List.mem_cons_of_mem _ hmem)⟩) fun i hi => .inl hi
    · rcases List.mem_cons.mp hl' with rfl | hl'
      · exact .inr hl
      · exact .inl hl'
    · rcases List.mem_cons.mp hl' with rfl | hl'
      · exact hl
      · exact hgrows.marked (hσ.marked l' hl')
  · rw [hrun (hσ.promised l List.mem_cons_self)] at h
    cases h

/-- A step on the scopes keeps the invariant if it keeps their kinds and stops at limits only. -/
theorem onScopes {x : Step Scopes α}
    (hok : ∀ {s a s'}, x s = (.ok a, s') → s'.stack.map (·.kind) = s.stack.map (·.kind))
    (herror : ∀ {s f s'}, x s = (.error f, s') → s.stack.map (·.kind) = K → f.isLimit = true) :
    Keeps K A M (Lower.onScopes x) := by
  refine ⟨fun σ => ⟨.refl, Nat.le_refl _⟩, fun {σ a τ} h hσ _ => ?_, fun {σ f τ} h hσ _ => ?_⟩
  · obtain ⟨s, hs, rfl⟩ := Move.onScopes_eq_ok.mp h
    exact hσ.rescope ((hok hs).trans hσ.kinds) fun hc => .inl hc
  · unfold Lower.onScopes at h
    rcases hx : x σ.scopes with ⟨e | a, s⟩
    · rw [hx] at h
      cases h
      exact herror hx hσ.kinds
    · rw [hx] at h
      cases h

/-- Within a subroutine or the top level, slots run out at the limit only. -/
theorem alloc (hK : ∃ k ∈ K, k.isSubroutine = true) : Keeps K A M Lower.alloc :=
  onScopes Scopes.alloc_kinds fun h hs => by
    rw [Scopes.alloc_error h (hs ▸ hK)]
    rfl

/-- Where a scope is open, a name can be bound. -/
theorem bindSlot {name : String} {slot : Slot} {type : ValueType} (hK : K ≠ []) :
    Keeps K A M (Lower.bindSlot name slot type) := by
  refine onScopes (fun h => ?_) fun h hs => ?_
  · obtain ⟨a, r, hs, hs'⟩ := Scopes.bind_ok h
    rw [hs, hs']
    rfl
  · unfold Scopes.bind at h
    split at h
    · rename_i hnil
      rw [hnil] at hs
      exact absurd hs.symm hK
    · cases h

/-- Within a subroutine or the top level, a declaration fails at the limit only. -/
theorem declare {name : String} {type : ValueType} (hK : ∃ k ∈ K, k.isSubroutine = true) :
    Keeps K A M (Lower.declare name type) := by
  refine onScopes (fun {s slot s'} h => ?_) fun {s f s'} h hs => ?_
  · obtain ⟨a, r, hs, ⟨-, -, -, rfl⟩ | ⟨t, -, ha, hb⟩⟩ := Scopes.declare_ok h
    · rfl
    · obtain ⟨a', r', ht, hs'⟩ := Scopes.bind_ok hb
      rw [← Scopes.alloc_kinds ha, ht, hs']
      rfl
  · cases hstack : s.stack with
    | nil =>
        obtain ⟨k, hk, -⟩ := hK
        rw [hstack] at hs
        subst hs
        cases hk
    | cons a r =>
        have htop : s.top.map (·.binding? name) = .ok (a.binding? name) := by
          simp [Scopes.top, hstack, Except.map]
        rcases Step.bind_eq_error.mp h with hcheck | ⟨found, s₁, hcheck, h⟩
        · rw [Step.check, htop] at hcheck
          cases hcheck
        · rw [Step.check, htop] at hcheck
          cases hcheck
          cases hb : a.binding? name with
          | some b =>
              rw [hb] at h
              cases h
          | none =>
              simp only [hb] at h
              rcases Step.bind_eq_error.mp h with halloc | ⟨slot, s₂, halloc, h⟩
              · rw [Scopes.alloc_error halloc (hs ▸ hK)]
                rfl
              · -- There is a scope to bind the name in.
                have hkinds := Scopes.alloc_kinds halloc
                rw [hstack] at hkinds
                rcases Step.bind_eq_error.mp h with hbind | ⟨_, s₃, -, h⟩
                · unfold Scopes.bind at hbind
                  split at hbind
                  · rename_i hnil
                    rw [hnil] at hkinds
                    cases hkinds
                  · cases hbind
                · cases h

/-- Directly in the scope of a subroutine, a parameter fails at the limit only. -/
theorem bindArgument {name : String} {type type' : ValueType} :
    Keeps (.subroutine type' :: K) A M (Lower.bindArgument name type) := by
  refine onScopes (fun h => ?_) fun {s f s'} h hs => ?_
  · obtain ⟨a, r, hs, -, -, hs'⟩ := Scopes.bindArgument_ok h
    rw [hs, hs']
    rfl
  · cases hstack : s.stack with
    | nil =>
        rw [hstack] at hs
        cases hs
    | cons a r =>
        rw [hstack] at hs
        have hkind : a.kind = .subroutine type' := (List.cons.inj hs).1
        have ha : a.isSubroutine = true := by
          rw [Scope.isSubroutine, hkind]
          rfl
        have htop : s.top.map (·.isSubroutine) = .ok true := by
          simp [Scopes.top, hstack, Except.map, ha]
        rcases Step.bind_eq_error.mp h with hcheck | ⟨found, s₁, hcheck, h⟩
        · rw [Step.check, htop] at hcheck
          cases hcheck
        · rw [Step.check, htop] at hcheck
          cases hcheck
          rw [if_pos rfl] at h
          rcases Step.bind_eq_error.mp h with halloc | ⟨slot, s₂, -, h⟩
          · rw [Scopes.alloc_error halloc ⟨a.kind, by simp [hstack], ha⟩]
            rfl
          · rcases Step.bind_eq_error.mp h with hupdate | ⟨_, s₃, -, h⟩
            · cases hupdate
            · cases h

/-! ### Scopes and packages -/

/-- A scope that is opened and closed.  If it is that of a loop, its labels have places or will have
them. -/
theorem inScope {x : Lower α} {kind : ScopeKind}
    (hx : Spec (Session.Fit (kind :: K) A M) x fun _ => Session.Fit (kind :: K) B N)
    (hloop : ∀ {control}, kind = .loop control →
      ∀ l ∈ [control.done, control.next], l ∈ A ∨ l ∈ M) :
    Spec (Session.Fit K A M) (Lower.inScope kind x) fun _ => Session.Fit K B N := by
  have henter {σ : Session} (hσ : σ.Fit K A M) :
      Session.Fit (kind :: K) A M { σ with scopes := σ.scopes.enter kind } := by
    refine hσ.rescope (by simp [Scopes.enter, hσ.kinds]) fun hc => ?_
    rcases List.mem_cons.mp hc with heq | hc
    · exact .inr (hloop heq.symm)
    · exact .inl hc
  refine ⟨fun σ => ?_, fun {σ a τ} h hσ hfew => ?_, fun {σ f τ} h hσ hfew => ?_⟩
  · have hclimbs := hx.climbs { σ with scopes := σ.scopes.enter kind }
    unfold Lower.inScope
    exact ⟨hclimbs.draft, hclimbs.packages⟩
  · obtain ⟨υ, hυ, rfl⟩ := inScope_eq_ok.mp h
    have hfit := hx.ends hυ (henter hσ) hfew
    refine hfit.rescope ?_ fun hc => .inl (List.mem_cons_of_mem _ hc)
    have hkinds := hfit.kinds
    rw [Scopes.leave, List.map_tail, hkinds]
    rfl
  · unfold Lower.inScope at h
    rcases hυ : x { σ with scopes := σ.scopes.enter kind } with ⟨e | a, υ⟩
    · rw [hυ] at h
      cases h
      exact hx.stops hυ (henter hσ) hfew
    · rw [hυ] at h
      cases h

/-- The scope of a loop whose end is still to be marked. -/
theorem inLoop {x : Lower α} {control : LoopControl}
    (hx : Spec (Session.Fit (.loop control :: K) A M) x fun _ =>
      Session.Fit (.loop control :: K) B N) (hdone : control.done ∈ A)
    (hnext : control.next ∈ A ∨ control.next ∈ M) :
    Spec (Session.Fit K A M) (Lower.inScope (.loop control) x) fun _ => Session.Fit K B N := by
  refine inScope hx ?_
  rintro _ ⟨⟩ l hl
  rcases List.mem_cons.mp hl with rfl | hl
  · exact .inl hdone
  · obtain rfl : l = control.next := List.mem_singleton.mp hl
    exact hnext

/-- Another package of the tree is made the current one for a while. -/
theorem inPackage {x : Lower α} {id : PackageId} (hx : Keeps K A M x) :
    Spec (fun σ => Session.Fit K A M σ ∧ id < σ.packages.packages.size) (Lower.inPackage id x)
      fun _ => Session.Fit K A M := by
  have hgo {σ : Session} {id : PackageId} (hσ : σ.Fit K A M) (hid : id < σ.packages.packages.size) :
      Session.Fit K A M { σ with package := id } :=
    { hσ with homed := ⟨hσ.homed.closed, hid⟩ }
  refine ⟨fun σ => ?_, fun {σ a τ} h hσ hfew => ?_, fun {σ f τ} h hσ hfew => ?_⟩
  · have hclimbs := hx.climbs { σ with package := id }
    unfold Lower.inPackage
    exact ⟨hclimbs.draft, hclimbs.packages⟩
  · obtain ⟨υ, hυ, rfl⟩ := inPackage_eq_ok.mp h
    have hclimbs := hx.climbs { σ with package := id }
    rw [hυ] at hclimbs
    exact hgo (hx.ends hυ (hgo hσ.1 hσ.2) hfew)
      (Nat.lt_of_lt_of_le hσ.1.homed.home hclimbs.packages)
  · unfold Lower.inPackage at h
    rcases hυ : x { σ with package := id } with ⟨e | a, υ⟩
    · rw [hυ] at h
      cases h
      exact hx.stops hυ (hgo hσ.1 hσ.2) hfew
    · rw [hυ] at h
      cases h

/-- Entering a package yields one that is in the tree. -/
theorem enterPath {path : String} {kind : PackageKind} :
    Spec (Session.Fit K A M) (Lower.enterPath path kind) fun id σ =>
      Session.Fit K A M σ ∧ id < σ.packages.packages.size := by
  refine total (g := fun σ => (σ.packages.enter σ.package path kind).1)
    (k := fun σ => { σ with packages := (σ.packages.enter σ.package path kind).2 })
    (fun σ => ⟨.refl, PackageTree.size_enter⟩) fun {σ} hσ _ => ?_
  have hspec := @PackageTree.enter_spec σ.packages σ.package path kind hσ.homed.closed hσ.homed.home
  have hsubs {i : PackageId} {x : String} {s : Subroutine}
      (hs : (σ.packages.enter σ.package path kind).2.sub? i x = some s) :
      σ.packages.sub? i x = some s := PackageTree.sub?_enter ▸ hs
  exact ⟨{ hσ with
    homed := ⟨hspec.closed, Nat.lt_of_lt_of_le hσ.homed.home hspec.grows.size⟩
    subs := ⟨fun hs => hσ.subs.waiting (hsubs hs), fun hs => hσ.subs.emitted (hsubs hs),
      fun hs hs' => hσ.subs.apart (hsubs hs) (hsubs hs')⟩ }, hspec.inside⟩

/-- A subroutine is known when it has been mentioned. -/
theorem mention {name : String} :
    Spec (Session.Fit K A M) (Lower.mention name) fun s σ =>
      Session.Fit K A M σ ∧ σ.packages.sub? σ.package name = some s := by
  refine total (g := fun σ => (σ.packages.mention σ.package name σ.draft).1)
    (k := fun σ => { σ with
      packages := (σ.packages.mention σ.package name σ.draft).2.1
      draft := (σ.packages.mention σ.package name σ.draft).2.2 })
    (fun σ => ⟨.mention, Nat.le_of_eq PackageTree.size_mention.symm⟩) fun {σ} hσ hfew => ?_
  have hsubs := hσ.subs.mention hσ.promised hfew
  refine ⟨?_, PackageTree.sub?_mention_self hσ.homed.home⟩
  rcases @PackageTree.mention_eq σ.packages σ.package name σ.draft with ⟨-, heq⟩ | ⟨-, -, heq⟩
  · simp only [heq]
    exact hσ
  · simp only [heq] at hsubs ⊢
    exact ⟨hσ.kinds, ⟨hσ.homed.closed.setSub, by simpa using hσ.homed.home⟩,
      fun l hl => (hσ.promised l hl).push, hσ.nodup,
      fun l hl => Draft.Grows.newLabel.marked (hσ.marked l hl), hsubs,
      fun hc l hl => (hσ.loops hc l hl).imp_right Draft.Grows.newLabel.marked,
      fun i hi {l} hl => (hσ.jumps i hi hl).imp_right Draft.Grows.newLabel.marked⟩

/-- A subroutine that is going to be emitted promises its label. -/
theorem setSub {name : String} {s s' : Subroutine} (hm : s.marked = false) (hl : s'.label = s.label)
    (hm' : s'.marked = true) :
    Spec (fun σ => Session.Fit K A M σ ∧ σ.packages.sub? σ.package name = some s)
      (Lower.setSub name s') fun _ => Session.Fit K (s.label :: A) M := by
  refine total (g := fun _ => ())
    (k := fun σ => { σ with packages := σ.packages.setSub σ.package name s' })
    (fun σ => ⟨.refl, by simp⟩) fun {σ} hσ _ => ?_
  obtain ⟨hσ, hs⟩ := hσ
  obtain ⟨hopen, hA⟩ := hσ.subs.waiting hs hm
  refine ⟨hσ.kinds, ⟨hσ.homed.closed.setSub, by simpa using hσ.homed.home⟩, fun l hmem => ?_,
    List.nodup_cons.mpr ⟨hA, hσ.nodup⟩, hσ.marked, hσ.subs.setSub_marked hs hm hl hm',
    fun hc l hmem => (hσ.loops hc l hmem).imp_left (List.mem_cons_of_mem _),
    fun i hi {l} hmem => (hσ.jumps i hi hmem).imp_left (List.mem_cons_of_mem _)⟩
  rcases List.mem_cons.mp hmem with rfl | hmem
  · exact hopen
  · exact hσ.promised l hmem

end Spec

end Lower

end StackScript
