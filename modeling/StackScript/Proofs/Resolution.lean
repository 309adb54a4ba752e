import StackScript.Proofs.Units

/-!
# What names of subroutines mean

All packages are entered and all declarations are looked through before anything is lowered.  In a
program that compiles, lowering the statements then changes nothing about the packages but which
subroutines count as emitted.  So a name means the same wherever in the source the call stands, before the
declaration or behind it.

* `PackageTree.Same`: trees that differ only in which subroutines count as emitted.
* `PackageTree.Same.resolveSub?`: names mean the same in them.
* `PackageTree.Leads.enter_eq`: entering a package that is there changes nothing.
* `Runs.same`: lowering what has been foreseen keeps the tree the same.
* `Program.entry_foresees`: in a program that compiles, everything has been foreseen.
* `compile_resolves_alike`: what this comes to.
-/

namespace StackScript

/-! ### Trees that are the same -/

/-- What is known of a subroutine, but for whether it has been emitted. -/
def Subroutine.unmarked (s : Subroutine) : Subroutine := { s with marked := false }

namespace Subroutine

/-- Whether a subroutine is declared has nothing to do with whether it has been emitted. -/
theorem declared_of_unmarked {s s' : Subroutine} (h : s'.unmarked = s.unmarked) :
    s'.declared = s.declared := by
  rw [show s'.declared = s'.unmarked.declared from rfl, h]
  rfl

/-- What a declaration says of a subroutine has nothing to do with whether it has been emitted. -/
theorem Describes.of_unmarked {s s' : Subroutine} {head : SubHead} {body : List Stmt}
    (hs : s.Describes head body) (h : s'.unmarked = s.unmarked) : s'.Describes head body := by
  have hdesc : s.unmarked.Describes head body := ⟨hs.params, hs.returnType, hs.usesArgList⟩
  rw [← h] at hdesc
  exact ⟨hdesc.params, hdesc.returnType, hdesc.usesArgList⟩

/-- What a declaration sets is what is known of its subroutine already. -/
theorem unmarked_of_describes {s : Subroutine} {head : SubHead} {body : List Stmt} {ps : List SubParam}
    (hd : s.declared = true) (hs : s.Describes head body)
    (hps : head.params.mapM Param.resolve = .ok ps) :
    Subroutine.unmarked { s with
      marked := true, declared := true, params := ps, returnType := head.returnType
      usesArgList := mentionsArgList body } = s.unmarked := by
  obtain rfl : s.params = ps := Except.ok.inj (hs.params.symm.trans hps)
  rw [← hs.returnType, ← hs.usesArgList, ← hd]
  rfl

/-- What two declarations of one subroutine say is the same. -/
theorem Describes.of_describes {s s' : Subroutine} {head head' : SubHead} {body body' : List Stmt}
    (h : s.Describes head body) (h' : s.Describes head' body') (hs : s'.Describes head' body') :
    s'.Describes head body := by
  have hparams : s.params = s'.params := Except.ok.inj (h'.params.symm.trans hs.params)
  refine ⟨hparams ▸ h.params, ?_, ?_⟩
  · rw [hs.returnType, ← h'.returnType, h.returnType]
  · rw [hs.usesArgList, ← h'.usesArgList, h.usesArgList]

end Subroutine

/-- The packages differ only in which subroutines count as emitted. -/
structure Package.Same (p p' : Package) : Prop where
  name : p'.name = p.name
  kind : p'.kind = p.kind
  parent : p'.parent = p.parent
  children : p'.children = p.children
  subs : ∀ x : String, p'.subs[x]?.map Subroutine.unmarked = p.subs[x]?.map Subroutine.unmarked

namespace PackageTree

variable {t t' t₁ t₂ t₃ : PackageTree} {id i : PackageId} {name : String}

/-- What a name means, but for whether it has been emitted. -/
def unmark (r : PackageId × Subroutine) : PackageId × Subroutine := (r.1, r.2.unmarked)

/-- The trees differ only in which subroutines count as emitted. -/
structure Same (t t' : PackageTree) : Prop where
  size : t'.packages.size = t.packages.size
  package : ∀ id, (t.get id).Same (t'.get id)

namespace Same

theorem refl : Same t t := ⟨rfl, fun _ => ⟨rfl, rfl, rfl, rfl, fun _ => rfl⟩⟩

theorem symm (h : Same t t') : Same t' t := by
  refine ⟨h.size.symm, fun id => ?_⟩
  have hid := h.package id
  exact ⟨hid.name.symm, hid.kind.symm, hid.parent.symm, hid.children.symm, fun x => (hid.subs x).symm⟩

theorem trans (h₁ : Same t₁ t₂) (h₂ : Same t₂ t₃) : Same t₁ t₃ := by
  refine ⟨h₂.size.trans h₁.size, fun id => ?_⟩
  have h₁ := h₁.package id
  have h₂ := h₂.package id
  exact ⟨h₂.name.trans h₁.name, h₂.kind.trans h₁.kind, h₂.parent.trans h₁.parent,
    h₂.children.trans h₁.children, fun x => (h₂.subs x).trans (h₁.subs x)⟩

/-- A subroutine of a package comes to count as emitted. -/
theorem setSub {s s' : Subroutine} (hs : t.sub? id name = some s) (heq : s'.unmarked = s.unmarked) :
    Same t (t.setSub id name s') := by
  refine ⟨size_setSub, fun i => ?_⟩
  unfold PackageTree.setSub
  rw [get_modify]
  split
  · rename_i hi
    refine ⟨rfl, rfl, rfl, rfl, fun x => ?_⟩
    obtain rfl := hi.1
    by_cases hx : x = name
    · subst hx
      have hs : (t.get i).subs[x]? = some s := hs
      simp [hs, heq]
    · simp [Std.ExtTreeMap.getElem?_insert, Ne.symm hx]
  · exact ⟨rfl, rfl, rfl, rfl, fun _ => rfl⟩

theorem kind (h : Same t t') : t'.kind id = t.kind id := (h.package id).kind

theorem child? (h : Same t t') : t'.child? id name = t.child? id name := by
  unfold PackageTree.child?
  rw [(h.package id).children]

/-- A subroutine that is not known in one tree is not known in the other. -/
theorem sub?_eq_none (h : Same t t') (hs : t.sub? id name = none) : t'.sub? id name = none := by
  have hsubs : (t'.sub? id name).map _ = (t.sub? id name).map _ := (h.package id).subs name
  rw [hs] at hsubs
  exact Option.map_eq_none_iff.mp hsubs

/-- A subroutine that is known in one tree is known in the other, but for whether it has been emitted. -/
theorem sub?_eq_some (h : Same t t') {s : Subroutine} (hs : t.sub? id name = some s) :
    ∃ s', t'.sub? id name = some s' ∧ s'.unmarked = s.unmarked := by
  have hsubs : (t'.sub? id name).map _ = (t.sub? id name).map _ := (h.package id).subs name
  rw [hs] at hsubs
  exact Option.map_eq_some_iff.mp hsubs

/-- A path leads to the same package in both. -/
theorem descend? (h : Same t t') {path : List String} : t'.descend? id path = t.descend? id path := by
  induction path generalizing id with
  | nil => rfl
  | cons x rest ih =>
      simp only [PackageTree.descend?, h.child?]
      cases t.child? id x with
      | none => rfl
      | some c => exact ih

theorem leads (h : Same t t') {kind : PackageKind} {path : List String} {child : PackageId}
    (hp : t.Leads id kind path child) : t'.Leads id kind path child :=
  ⟨h.descend?.trans hp.descends, fun hk hne => h.kind.trans (hp.module hk hne)⟩

/-- The packages around a package are the same in both. -/
theorem walk (h : Same t t') {steps : Nat} : t'.walk steps id = t.walk steps id := by
  induction steps generalizing id with
  | zero => rfl
  | succ steps ih =>
      have hparent : t'.parent? id = t.parent? id := (h.package id).parent
      simp only [PackageTree.walk, hparent]
      cases t.parent? id with
      | none => rfl
      | some parent => exact congrArg (id :: ·) ih

theorem outward (h : Same t t') : t'.outward id = t.outward id := h.walk

/-- A name found in one tree is found in the other. -/
theorem findSub? (h : Same t t') :
    (t'.findSub? id name).map unmark = (t.findSub? id name).map unmark := by
  rw [findSub?_eq, findSub?_eq, h.descend?]
  cases t.descend? id (Path.outer name) with
  | none => rfl
  | some owner =>
      simp only [Option.bind_some]
      cases hs : t.sub? owner (Path.base name) with
      | none => rw [h.sub?_eq_none hs]
      | some s =>
          obtain ⟨s', hs', heq⟩ := h.sub?_eq_some hs
          rw [hs', Option.filter_some, Option.filter_some, Subroutine.declared_of_unmarked heq]
          cases s.declared with
          | false => rfl
          | true => simp [unmark, heq]

/-- **A name means the same in trees that are the same.** -/
theorem resolveSub? (h : Same t t') :
    (t'.resolveSub? id name).map unmark = (t.resolveSub? id name).map unmark := by
  unfold PackageTree.resolveSub?
  rw [h.outward, List.map_findSome?, List.map_findSome?]
  congr 1
  funext i
  exact h.findSub?

end Same

/-! ### Entering what is there -/

/-- A change that changes nothing of a package changes nothing of the tree. -/
theorem modify_eq_self {f : Package → Package} (h : f (t.get id) = t.get id) : t.modify id f = t := by
  obtain ⟨ps⟩ := t
  simp only [modify, PackageTree.mk.injEq]
  refine Array.ext (by simp) fun i h₁ h₂ => ?_
  rw [Array.getElem_modify]
  split
  · rename_i hi
    subst hi
    simpa [get, Array.getD, h₂] using h
  · rfl

/-- A child that is there, and is a module if it is to be one, is entered without a change. -/
theorem enterChild_eq {child : PackageId} {kind : PackageKind} (hc : t.child? id name = some child)
    (hk : kind = .module → t.kind child = .module) : t.enterChild id name kind = (child, t) := by
  unfold enterChild
  rw [hc]
  cases kind with
  | package => rfl
  | module =>
      have hsame : ({ t.get child with kind := .module } : Package) = t.get child := by
        rw [← hk rfl]
        rfl
      simp only [modify_eq_self (f := fun p => { p with kind := .module }) hsame]

/-- A path whose packages are all there is entered without a change. -/
theorem Leads.enterComponents_eq {kind : PackageKind} {path : List String} {child : PackageId}
    (h : t.Leads id kind path child) : t.enterComponents id kind path = (child, t) := by
  fun_induction enterComponents t id kind path with
  | case1 t id =>
      obtain rfl := Option.some.inj h.descends
      rfl
  | case2 t id name =>
      have hdescends := h.descends
      simp only [descend?] at hdescends
      cases hc : t.child? id name with
      | none => simp [hc] at hdescends
      | some c =>
          obtain rfl : c = child := by simpa [hc] using hdescends
          exact enterChild_eq hc fun hk => h.module hk (by simp)
  | case3 t id name rest hrest c t' heq ih =>
      have hdescends := h.descends
      simp only [descend?] at hdescends
      cases hc : t.child? id name with
      | none => simp [hc] at hdescends
      | some c' =>
          have hstays : t.enterChild id name .package = (c', t) := enterChild_eq hc (by simp)
          obtain ⟨rfl, rfl⟩ := Prod.mk.inj (hstays.symm.trans heq)
          exact ih ⟨by simpa [hc] using hdescends, fun hk _ => h.module hk (by simp)⟩

/-- **Entering a package that is there changes nothing.** -/
theorem Leads.enter_eq {kind : PackageKind} {path : String} {child : PackageId}
    (h : t.Leads id kind (Path.components path) child) : t.enter id path kind = (child, t) :=
  h.enterComponents_eq

/-- The subroutine that is declared is known, as it is declared. -/
def Holds (t : PackageTree) (D : Declaration) : Prop :=
  ∃ s, t.sub? D.owner D.head.name = some s ∧ s.declared = true ∧ s.Describes D.head D.body

end PackageTree

/-! ### Lowering what has been foreseen -/

/-- The packages that a piece enters are in the tree. -/
def Piece.Housed (t : PackageTree) (id : PackageId) : Piece → Prop
  | .stmt s => s.Housed t id
  | .stmts ss | .body _ ss => Stmt.AllHoused t id ss
  | .branches _ elsifs => Stmt.BranchesHoused t id elsifs
  | .expr _ | .each _ | .backward _ | .args _ _ => True

/-- The packages that a piece of the package `id` enters are in the tree, and the subroutines that it
declares are known. -/
structure Piece.Foreseen (t : PackageTree) (id : PackageId) (p : Piece) : Prop where
  housed : p.Housed t id
  declared : ∀ D ∈ p.declarations t id, t.Holds D

/-- What a line of the table lowers enters no more packages than the piece. -/
theorem Unfolds.housed {p : Piece} {ms : List Move} {b : Bool} {t : PackageTree} {id : PackageId}
    (h : Unfolds p ms b) (hsub : ∀ head body, p ≠ .stmt (.sub head body))
    (hpackage : ∀ kind name body, p ≠ .stmt (.package kind name body)) (hp : p.Housed t id) :
    ∀ q ∈ Move.pieces ms, q.Housed t id := by
  cases h with
  | sub | subParameter | subRedeclared => exact absurd rfl (hsub _ _)
  | package => exact absurd rfl (hpackage _ _ _)
  | assignVar hc | assignVarMismatch hc | assignDeclare hc | assignDeclareMismatch hc | argsHeld hc
  | ret hc | bodyExpr hc =>
      simp_all [Move.pieces, Move.op, hc.pieces, Piece.Housed, Stmt.Housed, Stmt.AllHoused]
  | retUndef h => simp [h.pieces]
  | @cond _ _ _ rest =>
      cases rest <;> simp_all [Move.pieces, Move.block, Piece.Housed, Stmt.Housed]
  | @loop init condition step =>
      cases init <;> cases condition <;> cases step <;>
        simp_all [Move.pieces, Move.block, Piece.Housed, Stmt.Housed]
  | _ =>
      simp_all [Move.pieces, Move.op, Move.block, Move.increment, Piece.Housed, Stmt.Housed,
        Stmt.AllHoused, Stmt.BranchesHoused]

/-- What a line of the table lowers has been foreseen with the piece. -/
theorem Unfolds.foreseen {p : Piece} {ms : List Move} {b : Bool} {t : PackageTree} {id : PackageId}
    (h : Unfolds p ms b) (hsub : ∀ head body, p ≠ .stmt (.sub head body))
    (hpackage : ∀ kind name body, p ≠ .stmt (.package kind name body)) (hp : p.Foreseen t id) :
    ∀ q ∈ Move.pieces ms, q.Foreseen t id := by
  intro q hq
  refine ⟨h.housed hsub hpackage hp.housed q hq, fun D hD => hp.declared D ?_⟩
  rw [h.declarations hsub hpackage]
  exact List.mem_flatMap.mpr ⟨q, hq, hD⟩

/-- The subroutine of a declaration that has been foreseen is known, and its body has been foreseen. -/
theorem Piece.Foreseen.sub {t : PackageTree} {id : PackageId} {head : SubHead} {body : List Stmt}
    (h : Piece.Foreseen t id (.stmt (.sub head body))) :
    t.Holds ⟨id, head, body⟩ ∧ Piece.Foreseen t id (.body head.returnType body) :=
  ⟨h.declared _ List.mem_cons_self, h.housed, fun D hD => h.declared D (List.mem_cons_of_mem _ hD)⟩

/-- The package of a statement that has been foreseen is there, and its body has been foreseen. -/
theorem Piece.Foreseen.package {t : PackageTree} {id : PackageId} {kind : PackageKind} {name : String}
    {body : List Stmt} (h : Piece.Foreseen t id (.stmt (.package kind name body))) :
    ∃ child, t.Leads id kind (Path.components name) child ∧ Piece.Foreseen t child (.stmts body) := by
  obtain ⟨child, hleads, hbody⟩ := h.housed
  refine ⟨child, hleads, hbody, fun D hD => h.declared D ?_⟩
  simpa only [Piece.declarations, Stmt.declarations, hleads.descends] using hD

section Foreseen

variable {T : PackageTree}

/-- Moves that neither enter packages nor declare subroutines. -/
theorem Along.same {K : Piece → Bool → Session → Session → Prop} {ms : List Move} {σ σ' : Session}
    (hK : ∀ {p b σ σ'}, K p b σ σ' → σ.Homed →
      σ.Settled σ' ∧ (p.Foreseen T σ.package → T.Same σ.packages → T.Same σ'.packages))
    (htravels : ms.all (!·.travels) = true) (hsubs : ms.all (!·.subject?.isSome) = true)
    (hpieces : ∀ q ∈ Move.pieces ms, q.Foreseen T σ.package) (h : Along K ms σ σ') (hσ : σ.Homed)
    (hT : T.Same σ.packages) : T.Same σ'.packages := by
  refine (h.keeps (I := fun τ => σ.Settled τ ∧ T.Same τ.packages) (fun {m τ τ'} hm hd hτ => ?_)
    (fun {p b τ τ'} hp hd hτ => ?_) ⟨.refl hσ, hT⟩).2
  · obtain ⟨hsettled, hT⟩ := hτ
    have htravels : m.travels = false := by simpa using List.all_eq_true.mp htravels m hm
    have hsub : m.subject? = none := by simpa using List.all_eq_true.mp hsubs m hm
    have hpackages : τ'.packages = τ.packages :=
      hd.spares.packages (Move.onPackages_eq_false htravels hsub)
    exact ⟨hsettled.trans (hd.settled htravels hsettled.homed), hpackages ▸ hT⟩
  · obtain ⟨hsettled, hT⟩ := hτ
    obtain ⟨hsettled', hsame⟩ := hK hd hsettled.homed
    exact ⟨hsettled.trans hsettled', hsame (hsettled.package ▸ hpieces p hp) hT⟩

theorem Along.same_flat {K : Piece → Bool → Session → Session → Prop} {ms : List Move}
    {σ σ' : Session} (h : Along K ms σ σ') (hpieces : Move.pieces ms = [])
    (htravels : ms.all (!·.travels) = true) (hsubs : ms.all (!·.subject?.isSome) = true)
    (hσ : σ.Homed) (hT : T.Same σ.packages) : σ'.Homed ∧ T.Same σ'.packages := by
  have hdoes := h.does hpieces
  exact ⟨(hdoes.settled False.elim htravels hσ).homed,
    hdoes.same False.elim htravels hsubs (by simp [hpieces]) hσ hT⟩

/-- Where a declaration that has been foreseen begins, its subroutine comes to count as emitted. -/
theorem SubRun.same {K : Piece → Bool → Session → Session → Prop} {head : SubHead} {body : List Stmt}
    {ps : List SubParam} {sub : Subroutine} {skip : Label} {σ σ₁ : Session} {A B : Session → Prop}
    (hps : head.params.mapM Param.resolve = .ok ps)
    (h₁ : Along K [.mention head.name sub, .setSub head.name { sub with
          marked := true, declared := true, params := ps, returnType := head.returnType
          usesArgList := mentionsArgList body },
        .sees A, .sees B, .newLabel skip, .enter (.subroutine head.returnType)] σ σ₁)
    (hD : T.Holds ⟨σ.package, head, body⟩) (hT : T.Same σ.packages) : T.Same σ₁.packages := by
  obtain ⟨s, hs, hdeclared, hdesc⟩ := hD
  obtain ⟨s', hs', heq⟩ := hT.sub?_eq_some hs
  obtain ⟨τ₁, hmention, τ₂, hset, _, ⟨-, rfl⟩, _, ⟨-, rfl⟩, _, hnew, _, rfl, rfl⟩ := h₁
  obtain ⟨rfl, rfl⟩ := Move.acts_mention.mp hmention
  obtain rfl := Move.acts_setSub.mp hset
  obtain ⟨-, rfl⟩ := Move.acts_newLabel.mp hnew
  -- It is found where it is, and not made.
  rcases @PackageTree.mention_eq σ.packages σ.package head.name σ.draft with
    ⟨hfound, hkept⟩ | ⟨hnone, -⟩
  · simp only [hkept]
    obtain rfl := Option.some.inj (hs'.symm.trans hfound)
    exact hT.trans (.setSub hs' (Subroutine.unmarked_of_describes
      ((Subroutine.declared_of_unmarked heq).trans hdeclared) (hdesc.of_unmarked heq) hps))
  · cases hnone.symm.trans hs'

/-- So it is where its body begins. -/
theorem SubRun.same_params {K : Piece → Bool → Session → Session → Prop} {head : SubHead}
    {body : List Stmt} {ps : List SubParam} {sub : Subroutine} {skip : Label} {slot : Slot}
    {params locals : UInt16} {σ σ₁ σ₂ σ₃ : Session} {A B : Session → Prop}
    (hps : head.params.mapM Param.resolve = .ok ps)
    (h₁ : Along K [.mention head.name sub, .setSub head.name { sub with
          marked := true, declared := true, params := ps, returnType := head.returnType
          usesArgList := mentionsArgList body },
        .sees A, .sees B, .newLabel skip, .enter (.subroutine head.returnType)] σ σ₁)
    (h₂ : Along K [.emit (.jump skip), .mark sub.label, .emit (.pushFrame params locals)] σ₁ σ₂)
    (h₃ : Along K (Move.argListSlot (mentionsArgList body) slot ++ [Move.params ps]) σ₂ σ₃)
    (hD : T.Holds ⟨σ.package, head, body⟩) (hσ : σ.Homed) (hT : T.Same σ.packages) :
    T.Same σ₃.packages := by
  obtain ⟨-, s₁, -⟩ := SubRun.subs h₁ hσ
  obtain ⟨hσ₂, hT₂⟩ := h₂.same_flat rfl rfl rfl s₁.homed (SubRun.same hps h₁ hD hT)
  exact (h₃.same_flat (by simp [Move.pieces]) (by cases mentionsArgList body <;> rfl)
    (by cases mentionsArgList body <;> rfl) hσ₂ hT₂).2

/-- **Lowering what has been foreseen keeps the tree the same.** -/
theorem Runs.same {p : Piece} {b : Bool} {σ σ' : Session} (h : Runs Quiet p b σ σ') (hσ : σ.Homed)
    (hp : p.Foreseen T σ.package) (hT : T.Same σ.packages) : T.Same σ'.packages := by
  refine h.ind (P := fun p _ σ σ' => σ.Homed → p.Foreseen T σ.package → T.Same σ.packages →
    T.Same σ'.packages) ?_ hσ hp hT
  clear h hσ hp hT
  intro p b ms σ σ' hu hq ha hσ hp hT
  rcases p.other_or_package with hpackage | ⟨kind, name, body, rfl⟩
  · rcases p.other_or_sub with hsub | ⟨head, body, rfl⟩
    · exact ha.same (fun h hσ => ⟨h.1.settled hσ, h.2 hσ⟩) (hu.stays hpackage) (hu.subless hsub)
        (hu.foreseen hsub hpackage hp) hσ hT
    · obtain ⟨hD, hbody⟩ := hp.sub
      cases hu.subRun hq ha with
      | @intro ps sub _ _ _ _ _ _ σ₃ _ _ hps hmarked hclose h₁ h₂ h₃ hrun h₅ h₆ =>
      obtain ⟨s₃, -⟩ := SubRun.advances_params hmarked h₁ rfl rfl h₂ h₃ hσ
      have hT₃ := SubRun.same_params hps h₁ h₂ h₃ hD hσ hT
      have hT₄ := hrun.2 s₃.homed (s₃.package ▸ hbody) hT₃
      obtain ⟨hσ₅, hT₅⟩ := h₅.same_flat hclose.pieces hclose.stays hclose.subless
        (hrun.1.settled s₃.homed).homed hT₄
      exact (h₆.same_flat rfl rfl rfl hσ₅ hT₅).2
  · obtain ⟨child, hleads, hbody⟩ := hp.package
    obtain ⟨_, τ, τ', ⟨-, hrun⟩, hτ, hpackages, hsame, -, hchild⟩ := hu.packageRun ha hσ
    rw [(hT.leads hleads).enter_eq] at hpackages hchild
    rw [hsame]
    exact hrun hτ (hchild ▸ hbody) (hpackages ▸ hT)

/-- So it is where a part of the piece is lowered, and the part has been foreseen with the piece. -/
theorem Part.same {p q : Piece} {b e : Bool} {σ σ' τ τ' : Session} (h : Part p b σ σ' q e τ τ')
    (hcount : σ'.report.count = 0) (hσ : σ.Homed) (hp : p.Foreseen T σ.package)
    (hT : T.Same σ.packages) : T.Same τ.packages ∧ q.Foreseen T τ.package := by
  obtain ⟨-, -, -, hstays, -⟩ := h.homed hσ
  -- A package and a subroutine change the tree before they come to their bodies; other pieces only by
  -- the parts in front.
  rcases p.other_or_package with hpackage | ⟨kind, name, body, rfl⟩
  · rw [hstays hpackage]
    rcases p.other_or_sub with hsub | ⟨head, body, rfl⟩
    · obtain ⟨ms, ns, hu, h₁, hq, h₂⟩ := h
      have hforeseen := hu.foreseen hsub hpackage hp
      have htravels := hu.stays hpackage
      have hsubs := hu.subless hsub
      simp only [List.all_append, Bool.and_eq_true] at htravels hsubs
      obtain ⟨-, hfront, -, -⟩ := hq.quiet_around h₁ h₂ hcount
      refine ⟨hfront.same (fun h hσ => ⟨h.settled hσ, h.same hσ⟩) htravels.1 hsubs.1
        (fun r hr => hforeseen r ?_) hσ hT, hforeseen q ?_⟩
      · rw [Move.pieces_append]
        exact List.mem_append_left _ hr
      · rw [Move.pieces_append]
        exact List.mem_append_right _ (by simp [Move.pieces])
    · obtain ⟨hD, hbody⟩ := hp.sub
      obtain ⟨rfl, hrun⟩ := h.subRun hcount
      cases hrun with
      | intro hps _ _ h₁ h₂ h₃ hq _ _ =>
      obtain ⟨-, rfl, -⟩ := hq
      exact ⟨SubRun.same_params hps h₁ h₂ h₃ hD hσ hT, hbody⟩
  · obtain ⟨child, hleads, hbody⟩ := hp.package
    obtain ⟨ms, ns, hu, h₁, -, -⟩ := h
    obtain ⟨id, outer, path, rfl, rfl, rfl⟩ := hu.package_split
    obtain ⟨-, -, hchild, hpackages⟩ := h₁.entered hσ
    rw [(hT.leads hleads).enter_eq] at hpackages hchild
    exact ⟨hpackages ▸ hT, hchild ▸ hbody⟩

/-- Wherever a piece is visited, the tree is the same and the piece has been foreseen. -/
theorem Visits.same {p q : Piece} {b e : Bool} {σ σ' τ τ' : Session} (h : Visits p b σ σ' q e τ τ')
    (hl : Lowers p b σ σ') (hcount : σ'.report.count = 0) (hσ : σ.Homed)
    (hp : p.Foreseen T σ.package) (hT : T.Same σ.packages) :
    T.Same τ.packages ∧ q.Foreseen T τ.package := by
  induction h with
  | self => exact ⟨hT, hp⟩
  | part hv hpart ih =>
      obtain ⟨hT, hq⟩ := ih
      have hbehind := (hv.within hl).2.2.count
      exact hpart.same (by omega) (hv.homed hσ).1 hq hT

end Foreseen

/-! ### What can be seen from a package -/

namespace PackageTree

variable {t t' : PackageTree} {id : PackageId} {name : String}

/-- The declaration is visible from the package under this name: the path of the name, if it has one,
leads to its package from the package itself or from one around it. -/
def Sees (t : PackageTree) (id : PackageId) (name : String) (D : Declaration) : Prop :=
  D.head.name = Path.base name ∧ ∃ i ∈ t.outward id, t.descend? i (Path.outer name) = some D.owner

/-- A name is found from a package exactly if its path leads to one that declares a subroutine of its base
name. -/
theorem findSub?_isSome : (t.findSub? id name).isSome = true ↔
    ∃ owner s, t.descend? id (Path.outer name) = some owner ∧
      t.sub? owner (Path.base name) = some s ∧ s.declared = true := by
  rw [findSub?_eq, Option.isSome_bind]
  simp [Option.any_eq_true]

/-- A name means something exactly if a subroutine that is declared can be found with it. -/
theorem resolveSub?_isSome : (t.resolveSub? id name).isSome = true ↔
    ∃ i ∈ t.outward id, ∃ owner s, t.descend? i (Path.outer name) = some owner ∧
      t.sub? owner (Path.base name) = some s ∧ s.declared = true := by
  unfold resolveSub?
  rw [List.findSome?_isSome_iff]
  simp only [findSub?_isSome]

end PackageTree

namespace Stmt

variable {t t' : PackageTree}

mutual

/-- The declarations of a statement depend only on where paths lead. -/
theorem declarations_congr (h : ∀ id path, t'.descend? id path = t.descend? id path) (s : Stmt)
    (id : PackageId) : s.declarations t' id = s.declarations t id := by
  cases s with
  | sub head body => simp only [declarations, allDeclarations_congr h body id]
  | package kind name body =>
      simp only [declarations, h]
      cases t.descend? id (Path.components name) with
      | none => rfl
      | some child => exact allDeclarations_congr h body child
  | block body | whileLoop _ body | forEach _ _ body | loop _ _ _ body =>
      simp only [declarations, allDeclarations_congr h body id]
  | cond _ body elsifs rest =>
      have hbody := allDeclarations_congr h body id
      have helsifs := branchesDeclarations_congr h elsifs id
      cases rest with
      | none => simp only [declarations, hbody, helsifs]
      | some last => simp only [declarations, hbody, helsifs, allDeclarations_congr h last id]
  | expr | ret | use => rfl

theorem allDeclarations_congr (h : ∀ id path, t'.descend? id path = t.descend? id path)
    (body : List Stmt) (id : PackageId) : allDeclarations t' id body = allDeclarations t id body := by
  cases body with
  | nil => rfl
  | cons s rest => simp only [allDeclarations, declarations_congr h s id, allDeclarations_congr h rest id]

theorem branchesDeclarations_congr (h : ∀ id path, t'.descend? id path = t.descend? id path)
    (elsifs : List (Expr × List Stmt)) (id : PackageId) :
    branchesDeclarations t' id elsifs = branchesDeclarations t id elsifs := by
  cases elsifs with
  | nil => rfl
  | cons branch rest =>
      simp only [branchesDeclarations, allDeclarations_congr h branch.2 id,
        branchesDeclarations_congr h rest id]

end

end Stmt

/-! ### Names in a program -/

/-- A call that is lowered without a report is recorded and emitted. -/
theorem Unfolds.calling {x : String} {args : List Expr} {s : Span} {ms : List Move} {b : Bool}
    (h : Unfolds (.expr (.call x args s)) ms b) (hx : Ordinary x) (hq : Quiet ms) :
    ∃ front y i r, ms = front ++ [Move.use y s r, .emit i] ∧ Calling x args front y i r := by
  obtain ⟨hlast, hnext, hcheckpoint, hbuiltin⟩ := hx
  cases h with
  | call ho h₁ h₂ => exact ⟨_, _, _, true, rfl, .call ho h₁ h₂⟩
  | external _ h => exact ⟨_, _, _, false, rfl, .external h⟩
  | last => exact absurd rfl hlast
  | next => exact absurd rfl hnext
  | checkpoint => exact absurd rfl hcheckpoint
  | builtin hb => cases hbuiltin.symm.trans hb
  | _ => simp [Quiet, Move.quiet] at hq

/-- Whether a call counts as resolved is whether its name means something. -/
theorem Calling.resolved_eq {K : Piece → Bool → Session → Session → Prop} {x y : String}
    {args : List Expr} {front : List Move} {i : Instruction} {r : Bool} {σ σ' : Session}
    (h : Calling x args front y i r) (ha : Along K front σ σ') :
    r = (σ.packages.resolveSub? σ.package x).isSome := by
  cases h with
  | call =>
      obtain ⟨_, ⟨hmeans, -⟩, -⟩ := ha
      rw [show σ.packages.resolveSub? σ.package x = _ from hmeans]
      rfl
  | external =>
      obtain ⟨_, ⟨hmeans, -⟩, -⟩ := ha
      rw [show σ.packages.resolveSub? σ.package x = _ from hmeans]
      rfl

namespace Program

variable {p : Program} {name : String} {options : CompileOptions} {u : CompiledUnit} {σ : Session}

/-- Behind the program every declaration says what is known of its subroutine. -/
theorem holds_of_declared {D : Declaration}
    (hl : Lowers (.stmts p.body) true (p.entry name options) σ) (hcount : σ.report.count = 0)
    (hD : D ∈ Stmt.allDeclarations (p.entry name options).packages PackageTree.root p.body) :
    ∃ s, σ.packages.sub? D.owner D.head.name = some s ∧ s.Describes D.head D.body := by
  obtain ⟨hentry, -⟩ := @entry_known p name options
  rw [← @entry_package p name options] at hD
  obtain ⟨e, τ, τ', hv, howner⟩ := hl.visits_of_declared hcount hentry .refl hD
  have hlowered : p.Lowered name options (.stmt (.sub D.head D.body)) e τ τ' := ⟨σ, hl, hv⟩
  obtain ⟨s, hem, hs⟩ := hlowered.emitted hl hcount
  exact ⟨s, howner ▸ hs, hem.describes⟩

/-- **In a program that compiles everything has been foreseen** when its statements begin to be
lowered. -/
theorem entry_foresees (hl : Lowers (.stmts p.body) true (p.entry name options) σ)
    (hcount : σ.report.count = 0) :
    Piece.Foreseen (p.entry name options).packages PackageTree.root (.stmts p.body) := by
  have hann := @entry_announces p name options
  refine ⟨hann.housed .refl, fun D hD => ?_⟩
  obtain ⟨s, hs, hdesc⟩ := holds_of_declared hl hcount hD
  obtain ⟨s₀, hs₀, hdeclared⟩ := hann.lists .refl D hD _ hdesc.params
  -- What is known may come from another declaration of the name; then the two say the same.
  obtain ⟨D', hD', howner, hname, hdesc'⟩ := entry_known.2.declared hs₀ hdeclared
  obtain ⟨s', hs', hdesc''⟩ := holds_of_declared hl hcount (entry_package ▸ hD')
  rw [howner, hname] at hs'
  obtain rfl := Option.some.inj (hs.symm.trans hs')
  exact ⟨s₀, hs₀, hdeclared, hdesc.of_describes hdesc'' hdesc'⟩

/-- Lowering a program that compiles keeps the packages the same throughout. -/
theorem entry_same (hl : Lowers (.stmts p.body) true (p.entry name options) σ)
    (hcount : σ.report.count = 0) : (p.entry name options).packages.Same σ.packages := by
  have hforeseen := entry_foresees hl hcount
  rw [← @entry_package p name options] at hforeseen
  exact (hl.quiet hcount).same entry_known.1 hforeseen .refl

/-- Before and behind a piece that is lowered there are the packages that there are in the end. -/
theorem Lowered.same_both {q : Piece} {b : Bool} {τ τ' : Session}
    (hq : p.Lowered name options q b τ τ')
    (hl : Lowers (.stmts p.body) true (p.entry name options) σ) (hcount : σ.report.count = 0) :
    τ.packages.Same σ.packages ∧ τ'.packages.Same σ.packages := by
  obtain ⟨σ', hl', hv⟩ := hq
  obtain rfl : σ = σ' := (Prod.mk.inj (Eq.trans hl.symm hl')).2
  obtain ⟨hlow, -, hbehind⟩ := hv.within hl
  have hforeseen := entry_foresees hl hcount
  rw [← @entry_package p name options] at hforeseen
  obtain ⟨hsame, hpiece⟩ := hv.same hl hcount entry_known.1 hforeseen .refl
  have hquiet := hlow.quiet (hbehind.count_eq_zero hcount)
  have hsame' := hquiet.same (hv.homed entry_known.1).1 hpiece hsame
  exact ⟨hsame.symm.trans (entry_same hl hcount), hsame'.symm.trans (entry_same hl hcount)⟩

/-- Wherever a piece of a program is lowered, the tree is the same as at the end. -/
theorem Lowered.same {q : Piece} {b : Bool} {τ τ' : Session}
    (hq : p.Lowered name options q b τ τ')
    (hl : Lowers (.stmts p.body) true (p.entry name options) σ) (hcount : σ.report.count = 0) :
    τ.packages.Same σ.packages :=
  (hq.same_both hl hcount).1

/-- Behind a program that compiles the subroutines that count as declared are those that are. -/
theorem declared_iff {owner : PackageId} {x : String}
    (hl : Lowers (.stmts p.body) true (p.entry name options) σ) (hcount : σ.report.count = 0) :
    (∃ s, σ.packages.sub? owner x = some s ∧ s.declared = true) ↔
      ∃ D ∈ Stmt.allDeclarations σ.packages PackageTree.root p.body,
        D.owner = owner ∧ D.head.name = x := by
  have hsame := entry_same hl hcount
  rw [Stmt.allDeclarations_congr (fun _ _ => hsame.descend?)]
  constructor
  · rintro ⟨s, hs, hdeclared⟩
    obtain ⟨s₀, hs₀, heq⟩ := hsame.symm.sub?_eq_some hs
    obtain ⟨D, hD, howner, hname, -⟩ := entry_known.2.declared hs₀
      ((Subroutine.declared_of_unmarked heq).trans hdeclared)
    exact ⟨D, entry_package ▸ hD, howner, hname⟩
  · rintro ⟨D, hD, rfl, rfl⟩
    obtain ⟨s₀, hs₀, hdeclared, -⟩ := (entry_foresees hl hcount).declared D hD
    obtain ⟨s, hs, heq⟩ := hsame.sub?_eq_some hs₀
    exact ⟨s, hs, (Subroutine.declared_of_unmarked heq).trans hdeclared⟩

/-- A name means something exactly if a declaration of the program can be seen with it. -/
theorem resolveSub?_isSome_iff {id : PackageId} {x : String}
    (hl : Lowers (.stmts p.body) true (p.entry name options) σ) (hcount : σ.report.count = 0) :
    (σ.packages.resolveSub? id x).isSome = true ↔
      ∃ D ∈ Stmt.allDeclarations σ.packages PackageTree.root p.body, σ.packages.Sees id x D := by
  rw [PackageTree.resolveSub?_isSome]
  constructor
  · rintro ⟨i, hi, owner, s, hdescend, hs⟩
    obtain ⟨D, hD, rfl, hname⟩ := (declared_iff hl hcount).mp ⟨s, hs⟩
    exact ⟨D, hD, hname, i, hi, hdescend⟩
  · rintro ⟨D, hD, hname, i, hi, hdescend⟩
    obtain ⟨s, hs⟩ := (declared_iff hl hcount).mpr ⟨D, hD, rfl, hname⟩
    exact ⟨i, hi, D.owner, s, hdescend, hs⟩

/-- A call that is lowered is recorded as resolved exactly if its name means something here. -/
theorem Lowered.call_recorded {x : String} {args : List Expr} {s : Span} {b : Bool} {τ τ' : Session}
    (hq : p.Lowered name options (.expr (.call x args s)) b τ τ')
    (h : compile name options p = .ok u) (hx : Ordinary x) :
    ∃ c ∈ u.uses, c.span = s ∧ c.position + 1 = τ'.draft.position ∧
      c.resolved = (τ.packages.resolveSub? τ.package x).isSome := by
  obtain ⟨σ, hl, hcount, -⟩ := lowers_of_compile h
  obtain ⟨hlow, -, hbehind⟩ := hq.within hl
  obtain ⟨ms, hu, ha⟩ := hlow.unfolds
  obtain ⟨front, y, i, r, rfl, hcall⟩ :=
    hu.calling hx (ha.quiet_of_lowers (hbehind.count_eq_zero hcount))
  obtain ⟨τ₁, h₁, h₂⟩ := along_append.mp ha
  refine ⟨_, hq.recorded h h₂, rfl, ?_, hcall.resolved_eq h₁⟩
  obtain ⟨υ, huse, _, hemit, rfl⟩ := h₂
  rw [Move.Does.position (m := .emit _) hemit, Move.Does.position (m := .use _ _ _) huse]
  rfl

/-- A subroutine that a name means somewhere in the program is emitted, where its label stands. -/
theorem Lowered.emitted_of_resolveSub? {q : Piece} {b : Bool} {τ τ' : Session} {id owner : PackageId}
    {x : String} {sub : Subroutine} (hq : p.Lowered name options q b τ τ')
    (h : compile name options p = .ok u)
    (hl : Lowers (.stmts p.body) true (p.entry name options) σ) (hcount : σ.report.count = 0)
    (hs : τ.packages.resolveSub? id x = some (owner, sub)) :
    ∃ head body e υ υ', p.Lowered name options (.stmt (.sub head body)) e υ υ' ∧
      υ.package = owner ∧ head.name = Path.base x ∧ sub.Describes head body ∧
      σ.draft.offset? sub.label = some (υ.draft.position + 1) ∧
      u.chunk.opens (υ.draft.position + 1) = true := by
  obtain ⟨hsub, hdeclared⟩ := PackageTree.sub?_of_resolveSub? hs
  obtain ⟨head, body, e, υ, υ', hlow, howner, hname, hdesc, hentry⟩ :=
    exists_emitted hl hcount hq hsub hdeclared
  exact ⟨head, body, e, υ, υ', hlow, howner, hname, hdesc, hentry .refl, hlow.opens h⟩

end Program

/-- **What a call means does not depend on the order of the source.**  Wherever in a program that
compiles something is lowered, there are the packages that there are in the end, of the same kinds, and
a name means the same subroutine of the same package, with the same label and the same parameters,
return type and use of the argument list, or nothing.  The subroutine is emitted in the unit.  A call is
recorded as resolved exactly if some declaration of the program, wherever it stands, can be seen from the
package of the call. -/
theorem compile_resolves_alike {p : Program} {name : String} {options : CompileOptions}
    {u : CompiledUnit} (h : compile name options p = .ok u) :
    ∃ σ, Lowers (.stmts p.body) true (p.entry name options) σ ∧
      (∀ q b τ τ', p.Lowered name options q b τ τ' →
        τ.packages.packages.size = σ.packages.packages.size ∧
        (∀ id, τ.packages.kind id = σ.packages.kind id) ∧
        (∀ id x, (τ.packages.resolveSub? id x).map PackageTree.unmark =
          (σ.packages.resolveSub? id x).map PackageTree.unmark) ∧
        ∀ id x owner sub, τ.packages.resolveSub? id x = some (owner, sub) →
          ∃ head body e υ υ', p.Lowered name options (.stmt (.sub head body)) e υ υ' ∧
            υ.package = owner ∧ head.name = Path.base x ∧ sub.Describes head body ∧
            σ.draft.offset? sub.label = some (υ.draft.position + 1) ∧
            u.chunk.opens (υ.draft.position + 1) = true) ∧
      ∀ x args s b τ τ', Ordinary x → p.Lowered name options (.expr (.call x args s)) b τ τ' →
        ∃ c ∈ u.uses, c.span = s ∧ c.position + 1 = τ'.draft.position ∧
          (c.resolved = true ↔ ∃ D ∈ Stmt.allDeclarations σ.packages PackageTree.root p.body,
            σ.packages.Sees τ.package x D) := by
  obtain ⟨σ, hl, hcount, -⟩ := Program.lowers_of_compile h
  refine ⟨σ, hl, fun q b τ τ' hq => ?_, fun x args s b τ τ' hx hq => ?_⟩
  · have hsame := hq.same hl hcount
    exact ⟨hsame.size.symm, fun _ => hsame.kind.symm, fun _ _ => hsame.resolveSub?.symm,
      fun _ _ _ _ hs => hq.emitted_of_resolveSub? h hl hcount hs⟩
  · obtain ⟨c, hc, hspan, hposition, hresolved⟩ := hq.call_recorded h hx
    refine ⟨c, hc, hspan, hposition, ?_⟩
    have hisSome := congrArg Option.isSome (@PackageTree.Same.resolveSub? _ _ τ.package x
      (hq.same hl hcount))
    rw [Option.isSome_map, Option.isSome_map] at hisSome
    rw [hresolved, ← hisSome, Program.resolveSub?_isSome_iff hl hcount]

/-- Calls before the declarations: of a subroutine of the same package, of one of the package around it,
of one in a package below, and of one that is nowhere. -/
def forward : Program where
  body := [
    .package .package "Shop" [
      .package .package "Cart" [
        .sub { name := "sum", params := [⟨.var "$n" {}, false⟩] } [
          .ret (some (.call "tax" [.call "round" [.var "$n" {}] {}] {})) {}],
        .sub { name := "round", params := [⟨.var "$n" {}, false⟩] } [.ret (some (.var "$n" {})) {}]],
      .expr (.call "Cart::sum" [.integer 3 {}] {}),
      .expr (.call "Cart::empty" [] {}),
      .sub { name := "tax", params := [⟨.var "$n" {}, false⟩] } [.ret (some (.var "$n" {})) {}]],
    .package .module "Shop" []]

/-- The calls of `forward` are resolved before their declarations, but for the last one. -/
theorem compile_resolves_alike_forward :
    ∃ u, compile "main" {} forward = .ok u ∧
      u.uses.toList.map (·.resolved) = [true, true, true, false] ∧
      ∃ σ, Lowers (.stmts forward.body) true (forward.entry "main" {}) σ ∧
        ∀ x args s b τ τ', Ordinary x → forward.Lowered "main" {} (.expr (.call x args s)) b τ τ' →
          ∃ c ∈ u.uses, c.span = s ∧ c.position + 1 = τ'.draft.position ∧
            (c.resolved = true ↔ ∃ D ∈ Stmt.allDeclarations σ.packages PackageTree.root forward.body,
              σ.packages.Sees τ.package x D) := by
  have hok : (compile "main" {} forward).toOption.any
      (·.uses.toList.map (·.resolved) == [true, true, true, false]) = true := by
    decide +kernel
  cases h : compile "main" {} forward with
  | error e => simp [h, Except.toOption] at hok
  | ok u =>
      obtain ⟨σ, hl, -, hcalls⟩ := compile_resolves_alike h
      exact ⟨u, rfl, by simpa [h, Except.toOption] using hok, σ, hl, hcalls⟩

end StackScript
