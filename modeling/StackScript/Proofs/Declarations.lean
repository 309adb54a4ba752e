import StackScript.Proofs.Packages

/-!
# Declarations and the subroutines they declare

A subroutine is written down twice: once when all declarations are looked through, before anything
is lowered, and once when its own declaration is lowered.  In a program that compiles the two agree.
Its packages are entered again, and are found where they were made; every declaration is lowered,
and none of a name that has been lowered already.

* `Runs.onward`: what lowering does to the subroutines that are known.
* `Lowers.emitted`: what is known of a subroutine behind its declaration.
* `Lowers.visits_of_declared`: every declaration is lowered in the package it was seen in.
* `Session.declareStmts_announces`: what is known before anything is lowered.
* `Program.exists_emitted`: a subroutine that can be called somewhere in a program that compiles is
  emitted, with the parameters that the caller sees.
-/

namespace StackScript

/-! ### The table of subroutines -/

/-- What is known of the subroutine is what this declaration says. -/
structure Subroutine.Describes (s : Subroutine) (head : SubHead) (body : List Stmt) : Prop where
  params : head.params.mapM Param.resolve = .ok s.params
  returnType : s.returnType = head.returnType
  usesArgList : s.usesArgList = mentionsArgList body

namespace PackageTree

/-- From `t` to `t'` subroutines keep their labels, and those that have been emitted stay as they
are.  One that is declared and has not been emitted is what it was. -/
structure Advances (t t' : PackageTree) : Prop where
  forth : ∀ {id name s}, t.sub? id name = some s →
    ∃ s', t'.sub? id name = some s' ∧ s'.label = s.label ∧ (s.marked = true → s' = s)
  back : ∀ {id name s}, t'.sub? id name = some s → s.marked = false → s.declared = true →
    t.sub? id name = some s

namespace Advances

variable {t t' t₁ t₂ t₃ : PackageTree}

/-- Where no subroutine changes, nothing goes back. -/
theorem of_subs (h : ∀ id name, t'.sub? id name = t.sub? id name) : Advances t t' :=
  ⟨fun {id name s} hs => ⟨s, by rw [h, hs], rfl, fun _ => rfl⟩, fun hs _ _ => by rwa [h] at hs⟩

theorem refl : Advances t t := of_subs fun _ _ => rfl

theorem trans (h₁ : Advances t₁ t₂) (h₂ : Advances t₂ t₃) : Advances t₁ t₃ := by
  refine ⟨fun hs => ?_, fun hs hm hd => h₁.back (h₂.back hs hm hd) hm hd⟩
  obtain ⟨s₂, hs₂, hl₂, hm₂⟩ := h₁.forth hs
  obtain ⟨s₃, hs₃, hl₃, hm₃⟩ := h₂.forth hs₂
  refine ⟨s₃, hs₃, hl₃.trans hl₂, fun hm => ?_⟩
  obtain rfl := hm₂ hm
  exact hm₃ hm

end Advances

/-- A subroutine that is mentioned is the one that is known, or it is new. -/
theorem mention_eq {t : PackageTree} {id : PackageId} {name : String} {d : Draft} :
    (t.sub? id name = some (t.mention id name d).1 ∧ (t.mention id name d).2 = (t, d)) ∨
      (t.sub? id name = none ∧ (t.mention id name d).1 = { name, label := d.nextLabel } ∧
        (t.mention id name d).2 = (t.setSub id name { name, label := d.nextLabel }, d.newLabel.2)) := by
  unfold mention
  cases h : t.sub? id name with
  | some s => exact .inl ⟨rfl, rfl⟩
  | none => exact .inr ⟨rfl, rfl, rfl⟩

end PackageTree

/-! ### What lowering does to the table -/

namespace Move

/-- The name of the subroutine that the move is about. -/
def subject? : Move → Option String
  | .mention name _ | .setSub name _ => some name
  | _ => none

/-- A move changes what is known of the subroutine that it is about, in the current package. -/
theorem Does.subs {m : Move} {σ σ' : Session} {id : PackageId} {name : String} (h : m.Does σ σ')
    (hσ : σ.Homed) (hm : m.subject? = some name → id ≠ σ.package) :
    σ'.packages.sub? id name = σ.packages.sub? id name := by
  cases m with
  | enterPath path kind i =>
      obtain ⟨-, rfl⟩ := acts_enterPath.mp h
      exact (@PackageTree.enter_spec _ _ path kind hσ.closed hσ.home).subs id name
  | mention x sub =>
      obtain ⟨-, rfl⟩ := acts_mention.mp h
      rcases @PackageTree.mention_eq σ.packages σ.package x σ.draft with ⟨-, h⟩ | ⟨-, -, h⟩
      · simp only [h]
      · simp only [h]
        rw [PackageTree.sub?_setSub hσ.home, if_neg]
        rintro ⟨hid, rfl⟩
        exact hm rfl hid
  | setSub x sub =>
      obtain rfl := acts_setSub.mp h
      show (σ.packages.setSub _ _ _).sub? id name = _
      rw [PackageTree.sub?_setSub hσ.home, if_neg]
      rintro ⟨hid, rfl⟩
      exact hm rfl hid
  | piece p b => exact h.elim
  | _ => rw [h.spares.packages rfl]

end Move

section Enforced

variable {e : Expr} {type : ValueType} {role : Role} {cs ms : List Move} {ok ends : Bool} {s : Span}

theorem Enforces.subless (h : Enforces e type role cs ok) : cs.all (!·.subject?.isSome) = true := by
  cases h <;> rfl

theorem ReturnsUndef.subless (h : ReturnsUndef s ms) : ms.all (!·.subject?.isSome) = true := by
  obtain ⟨hc⟩ := h
  simp only [List.all_append, List.all_cons, hc.subless]
  rfl

theorem Closes.subless (h : Closes s ends ms) : ms.all (!·.subject?.isSome) = true := by
  cases h with
  | returned => rfl
  | fallen h => exact h.subless

end Enforced

/-- Only the declaration of a subroutine changes what is known of subroutines. -/
theorem Unfolds.subless {p : Piece} {ms : List Move} {b : Bool} (h : Unfolds p ms b)
    (hp : ∀ head body, p ≠ .stmt (.sub head body)) : ms.all (!·.subject?.isSome) = true := by
  cases h with
  | sub | subParameter | subRedeclared => exact absurd rfl (hp _ _)
  | assignVar hc | assignVarMismatch hc | assignDeclare hc | assignDeclareMismatch hc | ret hc
  | bodyExpr hc =>
      simp only [List.all_append, List.all_cons, hc.subless]
      rfl
  | @argsHeld _ _ p _ _ _ hc =>
      simp only [List.all_append, hc.subless]
      cases p.copy <;> rfl
  | retUndef h => exact h.subless
  | @next _ control => cases control <;> rfl
  | @checkpoint _ on => cases on <;> rfl
  | @call _ _ _ _ _ sub => cases h : sub.usesArgList <;> rfl
  | @cond _ _ _ rest => cases rest <;> rfl
  | @loop init condition step => cases init <;> cases condition <;> cases step <;> rfl
  | @package kind => cases kind <;> rfl
  | _ => rfl

/-- A move that enters no package and names no subroutine leaves the tree alone. -/
theorem Move.onPackages_eq_false {m : Move} (h₁ : m.travels = false) (h₂ : m.subject? = none) :
    m.onPackages = false := by
  cases m with
  | enterPath => cases h₁
  | mention | setSub => cases h₂
  | _ => rfl

/-- Moves that neither enter packages nor declare subroutines leave the packages as they are, if the pieces
on the way do. -/
theorem Along.packages_eq {K : Piece → Bool → Session → Session → Prop} {ms : List Move}
    {σ σ' : Session}
    (hK : ∀ {p b σ σ'}, p ∈ Move.pieces ms → K p b σ σ' →
      σ'.packages = σ.packages ∧ σ'.package = σ.package)
    (htravels : ms.all (!·.travels) = true) (hsubs : ms.all (!·.subject?.isSome) = true)
    (h : Along K ms σ σ') : σ'.packages = σ.packages ∧ σ'.package = σ.package := by
  refine h.keeps (I := fun τ => τ.packages = σ.packages ∧ τ.package = σ.package)
    (fun {m τ τ'} hm hd hτ => ?_) (fun hp hd hτ => ?_) ⟨rfl, rfl⟩
  · have htravels : m.travels = false := by simpa using List.all_eq_true.mp htravels m hm
    have hsub : m.subject? = none := by simpa using List.all_eq_true.mp hsubs m hm
    refine ⟨(hd.spares.packages (Move.onPackages_eq_false htravels hsub)).trans hτ.1,
      (hd.spares.package ?_).trans hτ.2⟩
    rintro id rfl
    cases htravels
  · obtain ⟨hpackages, hpackage⟩ := hK hp hd
    exact ⟨hpackages.trans hτ.1, hpackage.trans hτ.2⟩

/-- A template is about no subroutine but the one that it declares. -/
theorem Unfolds.subject {p : Piece} {ms : List Move} {b : Bool} {m : Move} {name : String}
    (h : Unfolds p ms b) (hm : m ∈ ms) (hname : m.subject? = some name) :
    ∃ head body, p = .stmt (.sub head body) ∧ name = head.name := by
  rcases p.other_or_sub with hp | ⟨head, body, rfl⟩
  · have := List.all_eq_true.mp (h.subless hp) m hm
    simp [hname] at this
  · refine ⟨head, body, rfl, ?_⟩
    cases h with
    | subParameter =>
        obtain rfl := List.mem_singleton.mp hm
        cases hname
    | subRedeclared =>
        rcases List.mem_cons.mp hm with rfl | hm
        · exact (Option.some.inj hname).symm
        · obtain rfl := List.mem_singleton.mp hm
          cases hname
    | sub _ _ hclose =>
        have hclose := List.all_eq_true.mp hclose.subless m
        simp only [List.mem_append, List.mem_cons, List.not_mem_nil, or_false] at hm
        rcases hm with (((hm | hm) | hm) | hm) | hm
        · rcases hm with rfl | rfl | rfl | rfl | rfl | rfl | rfl | rfl | rfl <;>
            first | exact (Option.some.inj hname).symm | cases hname
        · unfold Move.argListSlot at hm
          split at hm
          · obtain rfl := List.mem_singleton.mp hm
            cases hname
          · cases hm
        · rcases hm with rfl | rfl <;> cases hname
        · simp [hname] at hclose
          exact absurd hm hclose
        · rcases hm with rfl | rfl | rfl <;> cases hname

/-- A declaration is lowered, or it is refused: then what is known stays as it is. -/
theorem Unfolds.subRun_or {K : Piece → Bool → Session → Session → Prop} {head : SubHead}
    {body : List Stmt} {ms : List Move} {b : Bool} {σ σ' : Session}
    (hu : Unfolds (.stmt (.sub head body)) ms b) (h : Along K ms σ σ') :
    SubRun K head body σ σ' ∨ Move.pieces ms = [] ∧ σ'.packages = σ.packages ∧
      σ'.package = σ.package ∧ σ.report.count < σ'.report.count := by
  cases hu with
  | subParameter =>
      obtain ⟨_, hr, rfl⟩ := h
      obtain rfl := Move.acts_report.mp hr
      exact .inr ⟨rfl, rfl, rfl, by simp [Report.count_add]⟩
  | subRedeclared _ hm =>
      obtain ⟨_, hmention, _, hr, rfl⟩ := h
      obtain rfl := Move.acts_report.mp hr
      obtain ⟨rfl, rfl⟩ := Move.acts_mention.mp hmention
      refine .inr ⟨rfl, ?_, rfl, by simp [Report.count_add]⟩
      rcases @PackageTree.mention_eq σ.packages σ.package head.name σ.draft with
        ⟨-, h⟩ | ⟨-, h, -⟩
      · simp [h]
      · simp [h] at hm
  | sub hp hk hc => exact .inl ((Unfolds.sub hp hk hc).subRun_of_pieces (by simp [Move.pieces]) h)

/-- What is known behind the first moves of a subroutine: the subroutine counts as emitted, and
nothing else has changed. -/
theorem SubRun.subs {K : Piece → Bool → Session → Session → Prop} {head : SubHead}
    {type : ValueType} {sub sub' : Subroutine} {skip : Label} {σ σ₁ : Session}
    {A B : Session → Prop}
    (h₁ : Along K [.mention head.name sub, .setSub head.name sub', .sees A, .sees B, .newLabel skip,
      .enter (.subroutine type)] σ σ₁) (hσ : σ.Homed) :
    (σ.packages.sub? σ.package head.name = some sub ∨
      σ.packages.sub? σ.package head.name = none ∧
        sub = { name := head.name, label := σ.draft.nextLabel }) ∧
      σ.Settled σ₁ ∧ ∀ id name, σ₁.packages.sub? id name =
        if id = σ.package ∧ name = head.name then some sub' else σ.packages.sub? id name := by
  have hsettled := Along.settled (K := fun _ _ _ _ => False) False.elim rfl (h₁.does rfl) hσ
  obtain ⟨τ₁, hmention, τ₂, hset, _, ⟨-, rfl⟩, _, ⟨-, rfl⟩, _, hnew, _, rfl, rfl⟩ := h₁
  obtain ⟨rfl, rfl⟩ := Move.acts_mention.mp hmention
  obtain rfl := Move.acts_setSub.mp hset
  obtain ⟨-, rfl⟩ := Move.acts_newLabel.mp hnew
  refine ⟨?_, hsettled, fun id name => ?_⟩
  · rcases @PackageTree.mention_eq σ.packages σ.package head.name σ.draft with
      ⟨h, -⟩ | ⟨h, hsub, -⟩
    · exact .inl h
    · exact .inr ⟨h, hsub⟩
  · rcases @PackageTree.mention_eq σ.packages σ.package head.name σ.draft with
      ⟨-, h⟩ | ⟨-, -, h⟩
    · simp only [h]
      rw [PackageTree.sub?_setSub hσ.home]
    · simp only [h]
      rw [PackageTree.sub?_setSub (by simpa using hσ.home), PackageTree.sub?_setSub hσ.home]
      split <;> simp_all

/-- From `σ` to `σ'` a piece has been lowered: the same package is current again, and the table of
subroutines has advanced. -/
structure Session.Onward (σ σ' : Session) : Prop extends σ.Settled σ' where
  advances : σ.packages.Advances σ'.packages

namespace Session.Onward

theorem refl {σ : Session} (h : σ.Homed) : σ.Onward σ := ⟨.refl h, .refl⟩

theorem trans {σ₁ σ₂ σ₃ : Session} (h₁ : σ₁.Onward σ₂) (h₂ : σ₂.Onward σ₃) : σ₁.Onward σ₃ :=
  ⟨h₁.toSettled.trans h₂.toSettled, h₁.advances.trans h₂.advances⟩

end Session.Onward

/-- A row of moves that go to no other package and name no subroutine moves the session onward, if its
pieces do. -/
theorem Along.onward {K : Piece → Bool → Session → Session → Prop} {ms : List Move}
    {σ σ' : Session} (hK : ∀ {p b σ σ'}, K p b σ σ' → σ.Homed → σ.Onward σ')
    (hgo : ms.all (!·.travels) = true) (hsubs : ms.all (!·.subject?.isSome) = true) (h : Along K ms σ σ')
    (hσ : σ.Homed) : σ.Onward σ' := by
  refine h.keeps (I := σ.Onward) (fun {m τ τ'} hm hd hτ => hτ.trans ?_)
    (fun _ hp hτ => hτ.trans (hK hp hτ.homed)) (.refl hσ)
  have hgo : m.travels = false := by simpa using List.all_eq_true.mp hgo m hm
  have hsub : m.subject? = none := by simpa using List.all_eq_true.mp hsubs m hm
  exact ⟨hd.settled hgo hτ.homed, .of_subs fun id name => hd.subs hτ.homed (by simp [hsub])⟩

/-- Moves that neither lower a piece nor change what is known of subroutines. -/
theorem Along.onward_flat {K : Piece → Bool → Session → Session → Prop} {ms : List Move}
    {σ σ' : Session} (h : Along K ms σ σ') (hpieces : Move.pieces ms = [])
    (hgo : ms.all (!·.travels) = true) (hsubs : ms.all (!·.subject?.isSome) = true) (hσ : σ.Homed) :
    σ.Onward σ' :=
  (h.does hpieces).onward False.elim hgo hsubs hσ

section Sub

variable {K : Piece → Bool → Session → Session → Prop} {head : SubHead} {ps : List SubParam}
  {sub : Subroutine} {skip : Label} {slot : Slot} {uses ends : Bool} {params locals : UInt16}
  {close : List Move} {σ₁ σ₂ σ₃ σ₄ σ₅ σ' : Session}

/-- The frame and the parameters of a subroutine change nothing that is known of subroutines. -/
theorem SubRun.onward_params
    (h₂ : Along K [.emit (.jump skip), .mark sub.label, .emit (.pushFrame params locals)] σ₁ σ₂)
    (h₃ : Along K (Move.argListSlot uses slot ++ [Move.params ps]) σ₂ σ₃) (hσ : σ₁.Homed) :
    σ₁.Onward σ₃ := by
  have o₂ := h₂.onward_flat rfl rfl rfl hσ
  exact o₂.trans (h₃.onward_flat (by simp [Move.pieces]) (by cases uses <;> rfl)
    (by cases uses <;> rfl) o₂.homed)

/-- Up to its body, the declaration of a subroutine that was not emitted before changes that one only. -/
theorem SubRun.advances_params {head : SubHead} {type : ValueType} {sub' : Subroutine}
    {A B : Session → Prop} {σ : Session} (hmarked : sub.marked = false)
    (h₁ : Along K [.mention head.name sub, .setSub head.name sub', .sees A, .sees B, .newLabel skip,
      .enter (.subroutine type)] σ σ₁)
    (hlabel : sub'.label = sub.label) (hmarked' : sub'.marked = true)
    (h₂ : Along K [.emit (.jump skip), .mark sub.label, .emit (.pushFrame params locals)] σ₁ σ₂)
    (h₃ : Along K (Move.argListSlot uses slot ++ [Move.params ps]) σ₂ σ₃) (hσ : σ.Homed) :
    σ.Settled σ₃ ∧ σ.packages.Advances σ₃.packages := by
  obtain ⟨hsub, s₁, hsubs⟩ := SubRun.subs h₁ hσ
  have o₃ := SubRun.onward_params h₂ h₃ s₁.homed
  refine ⟨s₁.trans o₃.toSettled, .trans ⟨fun {id name s} hs => ?_, fun {id name s} hs hm _ => ?_⟩
    o₃.advances⟩
  · rw [hsubs]
    split
    · rename_i heq
      obtain ⟨rfl, rfl⟩ := heq
      refine ⟨_, rfl, ?_⟩
      rcases hsub with hsub | ⟨hnone, -⟩
      · obtain rfl := Option.some.inj (hsub.symm.trans hs)
        exact ⟨hlabel, fun h => by simp [hmarked] at h⟩
      · rw [hnone] at hs
        cases hs
    · exact ⟨s, hs, rfl, fun _ => rfl⟩
  · rw [hsubs] at hs
    split at hs
    · obtain rfl := Option.some.inj hs
      rw [hmarked'] at hm
      cases hm
    · exact hs

/-- Behind its body, the declaration of a subroutine changes nothing that is known of subroutines. -/
theorem SubRun.onward_behind (hclose : Closes head.span ends close) (h₅ : Along K close σ₄ σ₅)
    (h₆ : Along K [.leave, .mark skip, .traits head sub.label] σ₅ σ') (hσ : σ₄.Homed) :
    σ₄.Onward σ' := by
  have o₅ := h₅.onward_flat hclose.pieces hclose.stays hclose.subless hσ
  exact o₅.trans (h₆.onward_flat rfl rfl rfl o₅.homed)

end Sub

/-- **What lowering does to the subroutines that are known.** -/
theorem Runs.onward {Q : List Move → Prop} {p : Piece} {b : Bool} {σ σ' : Session}
    (h : Runs Q p b σ σ') (hσ : σ.Homed) : σ.Onward σ' := by
  refine h.ind (P := fun _ _ σ σ' => σ.Homed → σ.Onward σ') ?_ hσ
  intro p b ms σ σ' hu hq ha hσ
  rcases p.other_or_package with hp | ⟨kind, name, body, rfl⟩
  · rcases p.other_or_sub with hsub | ⟨head, body, rfl⟩
    · exact ha.onward And.right (hu.stays hp) (hu.subless hsub) hσ
    · have hsettled := (Runs.mk hu hq (ha.mono And.left)).settled hσ
      refine ⟨hsettled, ?_⟩
      rcases hu.subRun_or ha with hrun | ⟨-, hsame, -⟩
      · cases hrun with
        | @intro ps sub _ _ _ _ σ₁ _ _ _ _ _ hmarked hclose h₁ h₂ h₃ hbody h₅ h₆ =>
        obtain ⟨s₃, a₃⟩ := SubRun.advances_params hmarked h₁ rfl rfl h₂ h₃ hσ
        have o₄ := hbody.2 s₃.homed
        exact a₃.trans (o₄.advances.trans (SubRun.onward_behind hclose h₅ h₆ o₄.homed).advances)
      · rw [hsame]
        exact .refl
  · refine ⟨(Runs.mk hu hq (ha.mono And.left)).settled hσ, ?_⟩
    have hspec := @PackageTree.enter_spec _ _ name kind hσ.closed hσ.home
    obtain ⟨_, τ, τ', ⟨-, hbody⟩, hτ, hpackages, hsame, -⟩ := hu.packageRun ha hσ
    rw [hsame]
    refine .trans (.of_subs fun i x => ?_) (hbody hτ).advances
    rw [hpackages, hspec.subs]

/-- Lowering a piece moves the session onward. -/
theorem Lowers.onward {p : Piece} {b : Bool} {σ σ' : Session} (h : Lowers p b σ σ') (hσ : σ.Homed) :
    σ.Onward σ' :=
  h.runs.onward hσ

/-- What is known where a part of a piece is lowered, and behind the piece. -/
theorem Part.advances {p q : Piece} {b e : Bool} {σ σ' τ τ' : Session}
    (h : Part p b σ σ' q e τ τ') (hcount : σ'.report.count = 0) (hσ : σ.Homed) :
    σ.packages.Advances τ.packages ∧ τ'.packages.Advances σ'.packages := by
  have hτ := (h.homed hσ).1
  rcases p.other_or_sub with hsub | ⟨head, body, rfl⟩
  · obtain ⟨ms, ns, hu, h₁, hq, h₂⟩ := h
    have hτ' := (hq.settled hτ).homed
    have hsubless := hu.subless hsub
    simp only [List.all_append, List.all_cons, Bool.and_eq_true] at hsubless
    rcases p.other_or_package with hp | ⟨kind, name, body, rfl⟩
    · have hstays := hu.stays hp
      simp only [List.all_append, List.all_cons, Bool.and_eq_true] at hstays
      exact ⟨(h₁.onward Lowers.onward hstays.1 hsubless.1 hσ).advances,
        (h₂.onward Lowers.onward hstays.2.2 hsubless.2.2 hτ').advances⟩
    · obtain ⟨i, outer, path, -, rfl, rfl⟩ := hu.package_split
      have hspec := @PackageTree.enter_spec _ _ name kind hσ.closed hσ.home
      obtain ⟨-, -, -, hpackages⟩ := h₁.entered hσ
      obtain ⟨_, rfl, _, rfl, rfl⟩ := h₂
      exact ⟨.of_subs fun i x => by rw [hpackages, hspec.subs], .refl⟩
  · obtain ⟨-, hrun⟩ := h.subRun hcount
    cases hrun with
    | intro _ hmarked hclose h₁ h₂ h₃ hbody h₅ h₆ =>
    obtain ⟨hq, rfl, rfl⟩ := hbody
    obtain ⟨s₃, a₃⟩ := SubRun.advances_params hmarked h₁ rfl rfl h₂ h₃ hσ
    exact ⟨a₃, (SubRun.onward_behind hclose h₅ h₆ (hq.settled hτ).homed).advances⟩

/-- The table of subroutines advances to wherever a piece is visited, and from there to the end. -/
theorem Visits.advances {p q : Piece} {b e : Bool} {σ σ' τ τ' : Session}
    (h : Visits p b σ σ' q e τ τ') (hp : Lowers p b σ σ') (hcount : σ'.report.count = 0)
    (hσ : σ.Homed) : σ.packages.Advances τ.packages ∧ τ'.packages.Advances σ'.packages := by
  induction h with
  | self => exact ⟨.refl, .refl⟩
  | part hv hpart ih =>
      obtain ⟨-, -, hbehind⟩ := hv.within hp
      have hcount' := hbehind.count_eq_zero hcount
      obtain ⟨a₁, a₂⟩ := hpart.advances hcount' (hv.homed hσ).1
      exact ⟨ih.1.trans a₁, a₂.trans ih.2⟩

/-! ### Declarations that are lowered -/

/-- The subroutine that a declaration lowered from `σ` to `σ'` declares. -/
structure Emitted (head : SubHead) (body : List Stmt) (σ σ' : Session) (s : Subroutine) : Prop where
  known : σ'.packages.sub? σ.package head.name = some s
  marked : s.marked = true
  declared : s.declared = true
  describes : s.Describes head body
  /-- Its label stands for its frame. -/
  entry : ∀ {d : Draft}, σ'.draft.Grows d → d.offset? s.label = some (σ.draft.position + 1)

/-- Where the body of a subroutine begins its frame is behind, and its label stands for it. -/
theorem SubRun.entry_params {K : Piece → Bool → Session → Session → Prop} {head : SubHead}
    {type : ValueType} {ps : List SubParam} {sub sub' : Subroutine} {skip : Label} {slot : Slot}
    {uses : Bool} {params locals : UInt16} {A B : Session → Prop} {σ σ₁ σ₂ σ₃ : Session}
    (h₁ : Along K [.mention head.name sub, .setSub head.name sub', .sees A, .sees B, .newLabel skip,
      .enter (.subroutine type)] σ σ₁)
    (h₂ : Along K [.emit (.jump skip), .mark sub.label, .emit (.pushFrame params locals)] σ₁ σ₂)
    (h₃ : Along K (Move.argListSlot uses slot ++ [Move.params ps]) σ₂ σ₃) :
    σ.draft.position + 1 < σ₃.draft.position ∧
      σ₃.draft.offset? sub.label = some (σ.draft.position + 1) := by
  have e₁ : σ₁.draft.position = σ.draft.position := h₁.position rfl
  have e₂ : σ₂.draft.position = σ₁.draft.position + 2 := h₂.position rfl
  have g₃ : σ₂.draft.Grows σ₃.draft := h₃.grows_flat (by simp [Move.pieces])
  constructor
  · have := g₃.position_le
    omega
  · obtain ⟨τ₁, hjump, τ₂, hlabel, τ₃, hframe, rfl⟩ := h₂.does rfl
    have ejump : τ₁.draft.position = σ₁.draft.position + 1 := Move.Does.position hjump
    rw [← e₁, ← ejump]
    exact Move.acts_mark_at hlabel ((Move.Does.grows hframe).trans g₃)

/-- The subroutine is known by its name behind its declaration, and described as it is declared. -/
theorem SubRun.emitted {K : Piece → Bool → Session → Session → Prop} {head : SubHead}
    {body : List Stmt} {σ σ' : Session} (h : SubRun K head body σ σ')
    (hK : ∀ {p b σ σ'}, K p b σ σ' → Runs Quiet p b σ σ') (hσ : σ.Homed) :
    ∃ s, Emitted head body σ σ' s := by
  cases h with
  | @intro ps sub skip slot ends close σ₁ σ₂ σ₃ σ₄ σ₅ hps _ hclose h₁ h₂ h₃ hbody h₅ h₆ =>
  obtain ⟨-, s₁, hsubs⟩ := SubRun.subs h₁ hσ
  have o₃ := SubRun.onward_params h₂ h₃ s₁.homed
  have o₄ := (hK hbody).onward o₃.homed
  have o₆ := SubRun.onward_behind hclose h₅ h₆ o₄.homed
  obtain ⟨s, hs, -, hsame⟩ := (o₃.trans (o₄.trans o₆)).advances.forth
    ((hsubs σ.package head.name).trans (if_pos ⟨rfl, rfl⟩))
  obtain rfl := hsame rfl
  refine ⟨_, hs, rfl, rfl, ⟨hps, rfl, rfl⟩, fun {d} hd => ?_⟩
  have g₅ : σ₄.draft.Grows σ₅.draft := h₅.grows_flat hclose.pieces
  have g₆ : σ₅.draft.Grows σ'.draft := h₆.grows_flat rfl
  exact ((hK hbody).grows.trans (g₅.trans (g₆.trans hd))).offset (SubRun.entry_params h₁ h₂ h₃).2

/-- **What is known of a subroutine behind its declaration.** -/
theorem Lowers.emitted {head : SubHead} {body : List Stmt} {b : Bool} {σ σ' : Session}
    (h : Lowers (.stmt (.sub head body)) b σ σ') (hcount : σ'.report.count = 0) (hσ : σ.Homed) :
    ∃ s, Emitted head body σ σ' s := by
  obtain ⟨ms, hu, hq, ha⟩ := (h.quiet hcount).unfolds
  exact (hu.subRun hq ha).emitted id hσ

/-- What is known of a subroutine changes only by its declaration. -/
theorem Makes.subs {p : Piece} {b : Bool} {m : Move} {σ σ' τ τ' : Session} {id : PackageId}
    {name : String} (h : Makes p b σ σ' m τ τ') (hσ : σ.Homed)
    (hne : τ'.packages.sub? id name ≠ τ.packages.sub? id name) :
    ∃ head body, p = .stmt (.sub head body) ∧ id = σ.package ∧ name = head.name := by
  obtain ⟨ms, ns, hu, h₁, hm, -⟩ := h
  rcases p.other_or_package with hp | ⟨kind, path, body, rfl⟩
  · have hstays := hu.stays hp
    simp only [List.all_append, Bool.and_eq_true] at hstays
    have hτ := h₁.settled Lowers.settled hstays.1 hσ
    have hsubject : m.subject? = some name ∧ id = τ.package := by
      refine Classical.byContradiction fun hno => hne (hm.subs hτ.homed fun hname hid => ?_)
      exact hno ⟨hname, hid⟩
    obtain ⟨head, body, rfl, rfl⟩ := hu.subject (m := m) (by simp) hsubject.1
    exact ⟨head, body, rfl, hsubject.2.trans hτ.package, rfl⟩
  · -- A package statement begins with entering the package, and that leaves subroutines alone.
    have hon : m.onPackages = true := by
      cases hon : m.onPackages with
      | true => rfl
      | false => exact absurd (by rw [hm.spares.packages hon]) hne
    generalize hall : ms ++ m :: ns = all at hu
    cases hu with
    | package =>
    obtain ⟨rfl, rfl, -⟩ := split_unique (C := []) (by simpa using hall) hon rfl
      (by cases kind <;> rfl)
    obtain rfl : σ = τ := h₁
    exact absurd (hm.subs hσ (by simp [Move.subject?])) hne

/-- **A subroutine that counts as emitted was so before, or its declaration has been lowered.** -/
theorem Lowers.visits_of_marked {p : Piece} {b : Bool} {σ σ' : Session} {id : PackageId}
    {name : String} {s : Subroutine} (h : Lowers p b σ σ') (hσ : σ.Homed)
    (hcount : σ'.report.count = 0) (hs : σ'.packages.sub? id name = some s)
    (hm : s.marked = true) :
    σ.packages.sub? id name = some s ∨ ∃ head body e τ τ',
      Visits p b σ σ' (.stmt (.sub head body)) e τ τ' ∧ τ.package = id ∧ head.name = name ∧
        Emitted head body τ τ' s := by
  by_cases hbefore : σ.packages.sub? id name = some s
  · exact .inl hbefore
  refine .inr ?_
  obtain ⟨q, e, τ, τ', m, υ, υ', hv, hmakes, hno, hyes⟩ :=
    h.exists_change (A := fun τ => τ.packages.sub? id name = some s) hbefore hs
  obtain ⟨hτ, -⟩ := hv.homed hσ
  obtain ⟨hlow, -, hbehind⟩ := hv.within h
  obtain ⟨head, body, rfl, rfl, rfl⟩ := hmakes.subs hτ fun heq => hno (heq ▸ hyes)
  have hcount' : τ'.report.count = 0 := hbehind.count_eq_zero hcount
  obtain ⟨s', hem⟩ := hlow.emitted hcount' hτ
  -- It is emitted, so it stays as it is to the end.
  obtain ⟨s'', hs'', -, hsame⟩ := (hv.advances h hcount hσ).2.forth hem.known
  obtain rfl := hsame hem.marked
  obtain rfl := Option.some.inj (hs''.symm.trans hs)
  exact ⟨head, body, e, τ, τ', hv, rfl, rfl, hem⟩

/-! ### Declarations in their packages -/

/-- A declaration of a subroutine, with the package it stands in. -/
structure Declaration where
  owner : PackageId
  head : SubHead
  body : List Stmt

namespace Stmt

mutual

/-- The declarations in a statement of the package `id`, where `t` says which packages there are. -/
def declarations (t : PackageTree) (id : PackageId) : Stmt → List Declaration
  | .sub head body => ⟨id, head, body⟩ :: allDeclarations t id body
  | .package _ name body =>
    match t.descend? id (Path.components name) with
    | none => []
    | some child => allDeclarations t child body
  | .block body | .whileLoop _ body | .forEach _ _ body | .loop _ _ _ body =>
    allDeclarations t id body
  | .cond _ body elsifs otherwise =>
    allDeclarations t id body ++ branchesDeclarations t id elsifs ++
      match otherwise with
      | none => []
      | some body => allDeclarations t id body
  | .expr _ | .ret _ _ | .use _ => []

/-- The declarations in a list of statements. -/
def allDeclarations (t : PackageTree) (id : PackageId) : List Stmt → List Declaration
  | [] => []
  | s :: rest => s.declarations t id ++ allDeclarations t id rest

/-- The declarations in the bodies of the branches. -/
def branchesDeclarations (t : PackageTree) (id : PackageId) :
    List (Expr × List Stmt) → List Declaration
  | [] => []
  | (_, body) :: rest => allDeclarations t id body ++ branchesDeclarations t id rest

end

mutual

/-- The packages that a statement of the package `id` enters are in the tree `t`, as modules if they
are declared so. -/
def Housed (t : PackageTree) (id : PackageId) : Stmt → Prop
  | .package kind name body =>
    ∃ child, t.Leads id kind (Path.components name) child ∧ AllHoused t child body
  | .sub _ body | .block body | .whileLoop _ body | .forEach _ _ body | .loop _ _ _ body =>
    AllHoused t id body
  | .cond _ body elsifs otherwise =>
    AllHoused t id body ∧ BranchesHoused t id elsifs ∧
      match otherwise with
      | none => True
      | some body => AllHoused t id body
  | .expr _ | .ret _ _ | .use _ => True

/-- The packages that the statements enter are in the tree. -/
def AllHoused (t : PackageTree) (id : PackageId) : List Stmt → Prop
  | [] => True
  | s :: rest => s.Housed t id ∧ AllHoused t id rest

/-- The packages that the bodies of the branches enter are in the tree. -/
def BranchesHoused (t : PackageTree) (id : PackageId) : List (Expr × List Stmt) → Prop
  | [] => True
  | (_, body) :: rest => AllHoused t id body ∧ BranchesHoused t id rest

end

end Stmt

/-- The declarations in a piece. -/
def Piece.declarations (t : PackageTree) (id : PackageId) : Piece → List Declaration
  | .stmt s => s.declarations t id
  | .stmts ss | .body _ ss => Stmt.allDeclarations t id ss
  | .branches _ elsifs => Stmt.branchesDeclarations t id elsifs
  | .expr _ | .each _ | .backward _ | .args _ _ => []

/-- The declarations in a piece are those in the pieces of its template. -/
theorem Unfolds.declarations {p : Piece} {ms : List Move} {b : Bool} {t : PackageTree}
    {id : PackageId} (h : Unfolds p ms b) (hsub : ∀ head body, p ≠ .stmt (.sub head body))
    (hpackage : ∀ kind name body, p ≠ .stmt (.package kind name body)) :
    p.declarations t id = (Move.pieces ms).flatMap (Piece.declarations t id) := by
  cases h with
  | sub | subParameter | subRedeclared => exact absurd rfl (hsub _ _)
  | package => exact absurd rfl (hpackage _ _ _)
  | assignVar hc | assignVarMismatch hc | assignDeclare hc | assignDeclareMismatch hc | argsHeld hc
  | ret hc | bodyExpr hc =>
      simp [Move.pieces, Move.op, hc.pieces, Piece.declarations, Stmt.declarations,
        Stmt.allDeclarations]
  | retUndef h => simp [h.pieces, Piece.declarations, Stmt.declarations]
  | @cond _ _ _ rest =>
      cases rest <;> simp [Move.pieces, Move.block, Piece.declarations, Stmt.declarations]
  | @loop init condition step =>
      cases init <;> cases condition <;> cases step <;>
        simp [Move.pieces, Move.block, Piece.declarations, Stmt.declarations]
  | _ =>
      simp [Move.pieces, Move.op, Move.block, Move.increment, Piece.declarations, Stmt.declarations,
        Stmt.allDeclarations, Stmt.branchesDeclarations]

/-- **Every declaration is lowered in the package it was seen in.** -/
theorem Lowers.visits_of_declared {p : Piece} {b : Bool} {σ σ' : Session} {t : PackageTree}
    {D : Declaration} (h : Lowers p b σ σ') (hcount : σ'.report.count = 0) (hσ : σ.Homed)
    (ht : t.Extends σ.packages) (hD : D ∈ p.declarations t σ.package) :
    ∃ e τ τ', Visits p b σ σ' (.stmt (.sub D.head D.body)) e τ τ' ∧ τ.package = D.owner := by
  refine h.ind (P := fun p b σ σ' => σ'.report.count = 0 → σ.Homed → t.Extends σ.packages →
    D ∈ p.declarations t σ.package → ∃ e τ τ', Visits p b σ σ' (.stmt (.sub D.head D.body)) e τ τ' ∧
      τ.package = D.owner) ?_ hcount hσ ht hD
  clear h hcount hσ ht hD
  intro p b ms σ σ' hu ha hcount hσ ht hD
  -- It is in one of the pieces of the template, unless the piece is the declaration itself.
  have hpiece {q : Piece} (hq : q ∈ Move.pieces ms)
      (hin : ∀ {e τ τ'}, Part p b σ σ' q e τ τ' → D ∈ q.declarations t τ.package) :
      ∃ e τ τ', Visits p b σ σ' (.stmt (.sub D.head D.body)) e τ τ' ∧ τ.package = D.owner := by
    obtain ⟨ms₁, c, ms₂, τ, τ', rfl, h₁, ⟨hl, hP⟩, h₂⟩ := ha.exists_piece hq
    have l₂ := h₂.mono And.left
    have hpart : Part p b σ σ' q c τ τ' := ⟨ms₁, ms₂, hu, h₁.mono And.left, hl, l₂⟩
    obtain ⟨hτ, g₁, -⟩ := hpart.homed hσ
    obtain ⟨e, υ, υ', hv, howner⟩ := hP (l₂.before.count_eq_zero hcount) hτ
      (ht.trans g₁) (hin hpart)
    exact ⟨e, υ, υ', .trans (.part .self hpart) hv, howner⟩
  rcases p.other_or_package with hp | ⟨kind, name, body, rfl⟩
  · have hsame {q : Piece} {e : Bool} {τ τ' : Session} (hpart : Part p b σ σ' q e τ τ') :
        τ.package = σ.package := (hpart.homed hσ).2.2.2.1 hp
    rcases p.other_or_sub with hsub | ⟨head, body, rfl⟩
    · rw [hu.declarations hsub hp] at hD
      obtain ⟨q, hq, hD⟩ := List.mem_flatMap.mp hD
      exact hpiece hq fun hpart => hsame hpart ▸ hD
    · rcases List.mem_cons.mp (by simpa only [Piece.declarations, Stmt.declarations] using hD) with
        rfl | hD
      · exact ⟨b, σ, σ', .self, rfl⟩
      · have hpieces := hu.sub_pieces ((ha.mono And.left).quiet_of_lowers hcount)
        exact hpiece (q := .body head.returnType body) (by simp [hpieces])
          fun hpart => hsame hpart ▸ hD
  · have hmem : .stmts body ∈ Move.pieces ms := by
      cases hu
      simp [Move.pieces, Move.block]
    simp only [Piece.declarations, Stmt.declarations] at hD
    split at hD
    · cases hD
    · rename_i child hchild
      refine hpiece hmem fun hpart => ?_
      rw [(hpart.homed hσ).2.2.2.2 kind name body rfl, ht.enter_eq hσ.closed hσ.home hchild]
      exact hD

/-! ### What is known before anything is lowered -/

namespace PackageTree

/-- Subroutines are listed by their names, nothing has been emitted, and what is declared is what one
of the declarations that satisfy `P` says. -/
structure Known (P : Declaration → Prop) (t : PackageTree) : Prop where
  named : ∀ {id name sub}, t.sub? id name = some sub → sub.name = name
  unmarked : ∀ {id name sub}, t.sub? id name = some sub → sub.marked = false
  declared : ∀ {id name sub}, t.sub? id name = some sub → sub.declared = true →
    ∃ D, P D ∧ D.owner = id ∧ D.head.name = name ∧ sub.Describes D.head D.body

/-- Only the subroutines of a tree count. -/
theorem Known.of_subs {P : Declaration → Prop} {t t' : PackageTree} (h : t.Known P)
    (hsubs : ∀ id name, t'.sub? id name = t.sub? id name) : t'.Known P :=
  ⟨fun hs => h.named (hsubs _ _ ▸ hs), fun hs => h.unmarked (hsubs _ _ ▸ hs),
    fun hs => h.declared (hsubs _ _ ▸ hs)⟩

/-- A subroutine that is set is known if it has its name, has not been emitted, and is described as one of
the declarations says. -/
theorem Known.setSub {P : Declaration → Prop} {t : PackageTree} {id : PackageId} {name : String}
    {sub : Subroutine} (h : t.Known P) (hid : id < t.packages.size) (hname : sub.name = name)
    (hm : sub.marked = false)
    (hd : sub.declared = true →
      ∃ D, P D ∧ D.owner = id ∧ D.head.name = name ∧ sub.Describes D.head D.body) :
    (t.setSub id name sub).Known P := by
  refine ⟨fun {i x s'} hs => ?_, fun {i x s'} hs => ?_, fun {i x s'} hs hdecl => ?_⟩
  · rw [sub?_setSub hid] at hs
    split at hs
    · rename_i hkey
      obtain rfl := Option.some.inj hs
      exact hname.trans hkey.2.symm
    · exact h.named hs
  · rw [sub?_setSub hid] at hs
    split at hs
    · obtain rfl := Option.some.inj hs
      exact hm
    · exact h.unmarked hs
  · rw [sub?_setSub hid] at hs
    split at hs
    · rename_i hkey
      obtain ⟨rfl, rfl⟩ := hkey
      obtain rfl := Option.some.inj hs
      exact hd hdecl
    · exact h.declared hs hdecl

/-- A mention makes a name known, but declares nothing. -/
theorem Known.mention {P : Declaration → Prop} {t : PackageTree} {id : PackageId} {name : String}
    {d : Draft} (h : t.Known P) (hid : id < t.packages.size) :
    (t.mention id name d).2.1.Known P ∧ (t.mention id name d).1.marked = false ∧
      (t.mention id name d).1.name = name := by
  rcases @mention_eq t id name d with ⟨hs, heq⟩ | ⟨-, hs, heq⟩
  · rw [heq]
    exact ⟨h, h.unmarked hs, h.named hs⟩
  · rw [heq, hs]
    exact ⟨h.setSub hid rfl rfl fun hd => (by cases hd), rfl, rfl⟩

/-- The declaration is in order, and so the subroutine it declares is known. -/
def Lists (t : PackageTree) (d : Declaration) : Prop :=
  ∀ ps, d.head.params.mapM Param.resolve = .ok ps →
    ∃ s, t.sub? d.owner d.head.name = some s ∧ s.declared = true

/-- A mention changes nothing that is known already. -/
theorem mention_keeps {t : PackageTree} {id i : PackageId} {name x : String} {d : Draft}
    {s : Subroutine} (hid : id < t.packages.size) (h : t.sub? i x = some s) :
    (t.mention id name d).2.1.sub? i x = some s := by
  rcases @mention_eq t id name d with ⟨-, heq⟩ | ⟨hnone, -, heq⟩
  · rw [heq]
    exact h
  · rw [heq, sub?_setSub hid, if_neg]
    · exact h
    · rintro ⟨rfl, rfl⟩
      cases hnone.symm.trans h

/-- What a mention yields is what is known of the name then. -/
theorem sub?_mention_self {t : PackageTree} {id : PackageId} {name : String} {d : Draft}
    (hid : id < t.packages.size) :
    (t.mention id name d).2.1.sub? id name = some (t.mention id name d).1 := by
  rcases @mention_eq t id name d with ⟨hs, heq⟩ | ⟨-, hs, heq⟩
  · rw [heq]
    exact hs
  · rw [heq, hs, sub?_setSub hid, if_pos ⟨rfl, rfl⟩]

/-- From `t` to `t'` packages are added only, and if `T` has them all then what is declared in `D` is
made known, and nothing else; what is declared stays as it is.  Then `H` holds, which is to say that
the packages that `T` should have are there. -/
structure Announces (T : PackageTree) (D : List Declaration) (H : Prop) (t t' : PackageTree) :
    Prop where
  closed : t'.Closed
  grows : t.Extends t'
  known : ∀ {P}, t'.Extends T → t.Known P → (∀ d ∈ D, P d) → t'.Known P
  keeps : ∀ {id name s}, t.sub? id name = some s → s.declared = true → t'.sub? id name = some s
  lists : t'.Extends T → ∀ d ∈ D, t'.Lists d
  housed : t'.Extends T → H

namespace Announces

variable {T t t₁ t₂ t₃ : PackageTree} {D D₁ D₂ : List Declaration} {H H' : Prop}

theorem refl (h : t.Closed) (hH : H) : Announces T [] H t t :=
  ⟨h, .refl, fun _ h _ => h, fun h _ => h, fun _ _ h => (nomatch h), fun _ => hH⟩

/-- What is announced first stays known behind what is announced next. -/
theorem trans (h₁ : Announces T D₁ H t₁ t₂) (h₂ : Announces T D₂ H' t₂ t₃) :
    Announces T (D₁ ++ D₂) (H ∧ H') t₁ t₃ := by
  refine ⟨h₂.closed, h₁.grows.trans h₂.grows, fun ht hs hD => ?_,
    fun h hd => h₂.keeps (h₁.keeps h hd) hd, fun ht d hd ps hps => ?_,
    fun ht => ⟨h₁.housed (h₂.grows.trans ht), h₂.housed ht⟩⟩
  · have h := h₁.known (h₂.grows.trans ht) hs fun d hd => hD d (List.mem_append_left _ hd)
    exact h₂.known ht h fun d hd => hD d (List.mem_append_right _ hd)
  · rcases List.mem_append.mp hd with hd | hd
    · obtain ⟨s, hs, hdeclared⟩ := h₁.lists (h₂.grows.trans ht) d hd ps hps
      exact ⟨s, h₂.keeps hs hdeclared, hdeclared⟩
    · exact h₂.lists ht d hd ps hps

theorem imp (h : Announces T D H t₁ t₂) (hH : H → H') : Announces T D H' t₁ t₂ :=
  { h with housed := fun ht => hH (h.housed ht) }

end Announces

end PackageTree

namespace Session

open PackageTree

variable {T : PackageTree} {s : Session} {id : PackageId}

theorem declareSub_package {head : SubHead} {body : List Stmt} :
    (s.declareSub id head body).package = s.package := by
  unfold declareSub
  simp only
  split
  · rfl
  · split
    · rfl
    · rfl

/-- A subroutine is announced under its name, in the package its declaration stands in. -/
theorem declareSub_announces {head : SubHead} {body : List Stmt} (hs : s.packages.Closed)
    (hid : id < s.packages.packages.size) :
    Announces T [⟨id, head, body⟩] True s.packages (s.declareSub id head body).packages := by
  have hmention := @Extends.mention s.packages id head.name s.draft
  have hid' := Nat.lt_of_lt_of_le hid hmention.size
  have hkeeps {i x sub} := @mention_keeps s.packages id i head.name x s.draft sub hid
  unfold declareSub
  cases hps : head.params.mapM Param.resolve with
  | error e =>
      refine ⟨hs.mention, hmention, fun _ h _ => (h.mention hid).1, fun h _ => hkeeps h,
        fun _ d hd ps hps' => ?_, fun _ => trivial⟩
      obtain rfl := List.mem_singleton.mp hd
      cases hps.symm.trans hps'
  | ok ps =>
      have hsub := @sub?_mention_self s.packages id head.name s.draft hid
      simp only
      split
      · rename_i hdeclared
        refine ⟨hs.mention, hmention, fun _ h _ => (h.mention hid).1, fun h _ => hkeeps h,
          fun _ d hd _ _ => ?_, fun _ => trivial⟩
        obtain rfl := List.mem_singleton.mp hd
        exact ⟨_, hsub, hdeclared⟩
      · rename_i hdeclared
        refine ⟨hs.mention.setSub, hmention.trans .setSub, fun _ h hD => ?_, fun {i x sub} h hd => ?_,
          fun _ d hd _ _ => ?_, fun _ => trivial⟩
        · obtain ⟨hknown, hm, hname⟩ := h.mention hid
          exact hknown.setSub hid' hname hm fun _ =>
            ⟨⟨id, head, body⟩, hD _ (List.mem_singleton_self _), rfl, rfl, hps, rfl, rfl⟩
        · show (PackageTree.setSub _ _ _ _).sub? i x = some sub
          rw [sub?_setSub hid', if_neg]
          · exact hkeeps h
          · rintro ⟨rfl, rfl⟩
            obtain rfl := Option.some.inj (hsub.symm.trans (hkeeps h))
            exact hdeclared hd
        · obtain rfl := List.mem_singleton.mp hd
          exact ⟨_, (sub?_setSub hid').trans (if_pos ⟨rfl, rfl⟩), rfl⟩

mutual

/-- **What a statement declares is announced**, whether it stands in a package or in a body. -/
theorem declareStmt_announces (stmt : Stmt) {s : Session} {id : PackageId}
    (hs : s.packages.Closed) (hid : id < s.packages.packages.size) :
    Announces T (stmt.declarations T id) (stmt.Housed T id) s.packages
      (s.declareStmt id stmt).packages := by
  cases stmt with
  | sub head body =>
      have h := @declareSub_announces T s id head body hs hid
      exact (h.trans (declareStmts_announces body h.closed
        (Nat.lt_of_lt_of_le hid h.grows.size))).imp And.right
  | package kind name body =>
      have hspec := @enter_spec s.packages id name kind hs hid
      have h := @declareStmts_announces body { s with packages := (s.packages.enter id name kind).2 }
        _ hspec.closed hspec.inside
      -- The path leads where it leads in all of the tree.
      have hleads {t : PackageTree} (ht : PackageTree.Extends _ t) := (h.grows.trans ht).leads hspec.leads
      refine ⟨h.closed, hspec.grows.trans h.grows, fun ht hknown hD => ?_,
        fun hs hd => h.keeps ((hspec.subs _ _).trans hs) hd, fun ht d hd => ?_, fun ht => ?_⟩
      · refine h.known ht (hknown.of_subs hspec.subs) ?_
        simpa only [Stmt.declarations, (hleads ht).descends] using hD
      · refine h.lists ht d ?_
        simpa only [Stmt.declarations, (hleads ht).descends] using hd
      · exact ⟨_, hleads ht, h.housed ht⟩
  | block body | whileLoop _ body | forEach _ _ body | loop _ _ _ body =>
      exact declareStmts_announces body hs hid
  | cond _ body elsifs rest =>
      have h₁ := @declareStmts_announces body s id hs hid
      have hid₁ := Nat.lt_of_lt_of_le hid h₁.grows.size
      have h₂ := h₁.trans (declareBranches_announces elsifs h₁.closed hid₁)
      cases rest with
      | none =>
          have h₃ : Announces T [] True _ _ := .refl h₂.closed trivial
          exact (h₂.trans h₃).imp fun h => ⟨h.1.1, h.1.2, trivial⟩
      | some body =>
          exact (h₂.trans (declareStmts_announces body h₂.closed
            (Nat.lt_of_lt_of_le hid h₂.grows.size))).imp fun h => ⟨h.1.1, h.1.2, h.2⟩
  | expr | ret | use => exact .refl hs trivial

theorem declareStmts_announces (body : List Stmt) {s : Session} {id : PackageId}
    (hs : s.packages.Closed) (hid : id < s.packages.packages.size) :
    Announces T (Stmt.allDeclarations T id body) (Stmt.AllHoused T id body) s.packages
      (s.declareStmts id body).packages := by
  cases body with
  | nil => exact .refl hs trivial
  | cons stmt rest =>
      have h := @declareStmt_announces stmt s id hs hid
      exact h.trans (declareStmts_announces rest h.closed (Nat.lt_of_lt_of_le hid h.grows.size))

theorem declareBranches_announces (elsifs : List (Expr × List Stmt)) {s : Session}
    {id : PackageId} (hs : s.packages.Closed) (hid : id < s.packages.packages.size) :
    Announces T (Stmt.branchesDeclarations T id elsifs) (Stmt.BranchesHoused T id elsifs) s.packages
      (s.declareBranches id elsifs).packages := by
  cases elsifs with
  | nil => exact .refl hs trivial
  | cons branch rest =>
      have h := @declareStmts_announces branch.2 s id hs hid
      exact h.trans (declareBranches_announces rest h.closed (Nat.lt_of_lt_of_le hid h.grows.size))

end

end Session

/-! ### Subroutines of a program -/

theorem PackageTree.get_empty {id : PackageId} : ({} : PackageTree).get id = Package.root := by
  cases id <;> rfl

/-- A tree of the root alone is linked in both directions. -/
theorem PackageTree.closed_empty : ({} : PackageTree).Closed := by
  have hchild {id : PackageId} {x : String} : ({} : PackageTree).child? id x = none := by
    rw [PackageTree.child?, PackageTree.get_empty]
    simp [Package.root]
  have hparent {id : PackageId} : ({} : PackageTree).parent? id = none := by
    rw [PackageTree.parent?, PackageTree.get_empty, Package.root]
  refine ⟨fun h => ?_, fun h => ?_, fun h => ?_, fun h => ?_, fun hlt _ => Nat.lt_one_iff.mp hlt⟩
  · cases hchild.symm.trans h
  · cases hchild.symm.trans h
  · cases hparent.symm.trans h
  · cases hparent.symm.trans h

/-- Nothing is known at the start. -/
theorem PackageTree.sub?_empty {x : String} {id : PackageId} :
    ({} : PackageTree).sub? id x = none := by
  rw [PackageTree.sub?, PackageTree.get_empty]
  simp [Package.root]

theorem Session.sub?_start {name x : String} {options : CompileOptions} {id : PackageId} :
    (Session.start name options).packages.sub? id x = none :=
  PackageTree.sub?_empty

namespace Program

variable {p : Program} {name : String} {options : CompileOptions}

/-- Looking through the declarations ends in the root. -/
theorem entry_package : (p.entry name options).package = PackageTree.root :=
  Session.declareStmts_rel (R := fun s s' => s'.package = s.package) rfl
    (fun h₁ h₂ => h₂.trans h₁) Session.declareSub_package rfl _ _ _

/-- What looking through the declarations of a program does. -/
theorem entry_announces : PackageTree.Announces (p.entry name options).packages
    (Stmt.allDeclarations (p.entry name options).packages PackageTree.root p.body)
    (Stmt.AllHoused (p.entry name options).packages PackageTree.root p.body) {}
    (p.entry name options).packages :=
  @Session.declareStmts_announces (p.entry name options).packages p.body
    (Session.start name options) PackageTree.root PackageTree.closed_empty Nat.zero_lt_one

/-- What is known of the subroutines of a program when its statements begin to be lowered. -/
theorem entry_known : (p.entry name options).Homed ∧
    (p.entry name options).packages.Known (· ∈ Stmt.allDeclarations
      (p.entry name options).packages (p.entry name options).package p.body) := by
  have h := @entry_announces p name options
  refine ⟨⟨h.closed, ?_⟩, ?_⟩
  · rw [entry_package]
    exact Nat.lt_of_lt_of_le Nat.zero_lt_one h.grows.size
  · rw [entry_package]
    exact h.known .refl ⟨fun hs => (nomatch PackageTree.sub?_empty.symm.trans hs),
      fun hs => (nomatch PackageTree.sub?_empty.symm.trans hs),
      fun hs => (nomatch PackageTree.sub?_empty.symm.trans hs)⟩ fun _ => id

/-- What counts as emitted behind a program that compiles is so by a declaration. -/
theorem lowered_of_marked {σ : Session} {id : PackageId} {x : String} {s : Subroutine}
    (hl : Lowers (.stmts p.body) true (p.entry name options) σ) (hcount : σ.report.count = 0)
    (hs : σ.packages.sub? id x = some s) (hm : s.marked = true) :
    ∃ head body e τ τ', p.Lowered name options (.stmt (.sub head body)) e τ τ' ∧ τ.package = id ∧
      head.name = x ∧ Emitted head body τ τ' s := by
  obtain ⟨hentry, hknown⟩ := @entry_known p name options
  rcases hl.visits_of_marked hentry hcount hs hm with
    hbefore | ⟨head, body, e, τ, τ', hv, hid, hx, hem⟩
  · rw [hknown.unmarked hbefore] at hm
    cases hm
  · exact ⟨head, body, e, τ, τ', ⟨σ, hl, hv⟩, hid, hx, hem⟩

/-- What a declaration makes known of its subroutine is known behind the program. -/
theorem Lowered.emitted {σ τ τ' : Session} {head : SubHead} {body : List Stmt} {b : Bool}
    (h : p.Lowered name options (.stmt (.sub head body)) b τ τ')
    (hl : Lowers (.stmts p.body) true (p.entry name options) σ) (hcount : σ.report.count = 0) :
    ∃ s, Emitted head body τ τ' s ∧ σ.packages.sub? τ.package head.name = some s := by
  obtain ⟨hsub, -, hbehind⟩ := h.within hl
  obtain ⟨σ', hl', hv⟩ := h
  obtain rfl : σ = σ' := (Prod.mk.inj (Eq.trans hl.symm hl')).2
  have hentry := (@entry_known p name options).1
  obtain ⟨s, hem⟩ := hsub.emitted (hbehind.count_eq_zero hcount) (hv.homed hentry).1
  obtain ⟨s', hs', -, hsame⟩ := (hv.advances hl hcount hentry).2.forth hem.known
  obtain rfl := hsame hem.marked
  exact ⟨s', hem, hs'⟩

/-- **A subroutine that is declared somewhere in a program that compiles is emitted**, in its
package and as it was declared. -/
theorem exists_emitted {σ τ τ' : Session} {q : Piece} {b : Bool} {id : PackageId} {x : String}
    {sub : Subroutine} (hl : Lowers (.stmts p.body) true (p.entry name options) σ)
    (hcount : σ.report.count = 0) (h : p.Lowered name options q b τ τ')
    (hs : τ.packages.sub? id x = some sub) (hd : sub.declared = true) :
    ∃ head body e υ υ', p.Lowered name options (.stmt (.sub head body)) e υ υ' ∧ υ.package = id ∧
      head.name = x ∧ sub.Describes head body ∧
        ∀ {d}, σ.draft.Grows d → d.offset? sub.label = some (υ.draft.position + 1) := by
  obtain ⟨hentry, hknown⟩ := @entry_known p name options
  obtain ⟨σ', hl', hv⟩ := h
  obtain rfl : σ = σ' := (Prod.mk.inj (Eq.trans hl.symm hl')).2
  obtain ⟨a₁, a₂⟩ := hv.advances hl hcount hentry
  obtain ⟨hq, -, -⟩ := hv.within hl
  cases hm : sub.marked with
  | true =>
      -- It stays as it is to the end, so one of the declarations lowered was its own.
      obtain ⟨s, hs', -, hsame⟩ :=
        ((hq.onward (hv.homed hentry).1).advances.trans a₂).forth hs
      obtain rfl := hsame hm
      obtain ⟨head, body, e, υ, υ', hlowered, hid, hx, hem⟩ := lowered_of_marked hl hcount hs' hm
      exact ⟨head, body, e, υ, υ', hlowered, hid, hx, hem.describes,
        fun hg => hem.entry ((hlowered.within hl).2.2.grows.trans hg)⟩
  | false =>
      -- It is what was known at the start, and its declaration is still to be lowered.
      have hs₀ := a₁.back hs hm hd
      obtain ⟨D, hD, rfl, rfl, hdesc⟩ := hknown.declared hs₀ hd
      obtain ⟨e, υ, υ', hv', hid⟩ := hl.visits_of_declared hcount hentry .refl hD
      obtain ⟨hsub, -, hbehind⟩ := hv'.within hl
      obtain ⟨s, hem⟩ := hsub.emitted (hbehind.count_eq_zero hcount) (hv'.homed hentry).1
      have hadv := (hv'.advances hl hcount hentry).1.trans (hsub.onward (hv'.homed hentry).1).advances
      obtain ⟨s', hs', hlabel, -⟩ := hadv.forth hs₀
      rw [← hid] at hs'
      obtain rfl := Option.some.inj (hem.known.symm.trans hs')
      exact ⟨D.head, D.body, e, υ, υ', ⟨σ, hl, hv'⟩, hid, rfl, hdesc,
        fun hg => hlabel ▸ hem.entry (hbehind.grows.trans hg)⟩

end Program

end StackScript
