import StackScript.Proofs.Routines

/-!
# Package trees as they grow

Entering packages only adds to a tree: children that are there stay, so a path leads where it led
before, and subroutines are left alone.

* `PackageTree.Extends`: a tree has the packages of another, and its modules.
* `PackageTree.Closed`: the packages of a tree are linked in both directions.
* `PackageTree.enter_spec`: what entering a path does.
* `PackageTree.Extends.enter_eq`: a path that leads somewhere leads there for good.
* `Runs.settled`: lowering a piece ends in the package it began in and extends the tree.
* `Visits.homed`: so do the pieces that are lowered on the way.
-/

namespace StackScript

namespace PackageTree

variable {t t' t₁ t₂ t₃ : PackageTree} {id i : PackageId} {name : String}

/-! ### Reading a changed tree -/

/-- Changing one package leaves the others as they are. -/
theorem get_modify {f : Package → Package} : (t.modify id f).get i =
    if i = id ∧ id < t.packages.size then f (t.get i) else t.get i := by
  by_cases hi : i = id
  · subst hi
    by_cases hlt : i < t.packages.size
    · simp [get, modify, Array.getD, hlt, Array.getElem_modify]
    · simp [get, modify, Array.getD, hlt]
  · by_cases hlt : i < t.packages.size
    · simp [get, modify, Array.getD, hlt, hi, Array.getElem_modify, Ne.symm hi]
    · simp [get, modify, Array.getD, hlt, hi]

@[simp]
theorem size_modify {f : Package → Package} :
    (t.modify id f).packages.size = t.packages.size := by
  simp [modify]

@[simp]
theorem size_setSub {s : Subroutine} : (t.setSub id name s).packages.size = t.packages.size :=
  size_modify

/-- Only packages have subroutines. -/
theorem lt_size_of_sub? {s : Subroutine} (h : t.sub? id name = some s) : id < t.packages.size := by
  by_cases hlt : id < t.packages.size
  · exact hlt
  · simp [sub?, get, Array.getD, hlt, Package.root] at h

/-- A subroutine that is set is found, and no other is lost. -/
theorem sub?_setSub {s : Subroutine} {x : String} (hid : id < t.packages.size) :
    (t.setSub id name s).sub? i x = if i = id ∧ x = name then some s else t.sub? i x := by
  unfold sub? setSub
  rw [get_modify]
  by_cases hi : i = id
  · subst hi
    by_cases hx : x = name
    · simp [hid, hx]
    · simp [hid, hx, Std.ExtTreeMap.getElem?_insert, Ne.symm hx]
  · simp [hi]

/-- Setting a subroutine moves no package. -/
@[simp]
theorem child?_setSub {s : Subroutine} {x : String} :
    (t.setSub id name s).child? i x = t.child? i x := by
  unfold child? setSub
  rw [get_modify]
  split <;> rfl

@[simp]
theorem kind_setSub {s : Subroutine} : (t.setSub id name s).kind i = t.kind i := by
  unfold kind setSub
  rw [get_modify]
  split <;> rfl

@[simp]
theorem parent?_setSub {s : Subroutine} : (t.setSub id name s).parent? i = t.parent? i := by
  unfold parent? setSub
  rw [get_modify]
  split <;> rfl

@[simp]
theorem name_setSub {s : Subroutine} : ((t.setSub id name s).get i).name = (t.get i).name := by
  unfold setSub
  rw [get_modify]
  split <;> rfl

/-! ### Extension -/

/-- The tree `t'` has the packages of `t`, below one another as they are there, and its modules. -/
structure Extends (t t' : PackageTree) : Prop where
  size : t.packages.size ≤ t'.packages.size
  child : ∀ {id name c}, t.child? id name = some c → t'.child? id name = some c
  module : ∀ {id}, t.kind id = .module → t'.kind id = .module

/-- The packages of a tree are linked in both directions: a child is in the tree and has its parent
and its name, and a package is the child of its parent under its name.  Numbers increase from parents
to children, and only the root has no parent. -/
structure Closed (t : PackageTree) : Prop where
  child : ∀ {id name c}, t.child? id name = some c → c < t.packages.size
  up : ∀ {id name c}, t.child? id name = some c → t.parent? c = some id ∧ (t.get c).name = name
  down : ∀ {id c}, t.parent? c = some id → t.child? id (t.get c).name = some c
  lt : ∀ {id c}, t.parent? c = some id → id < c
  root : ∀ {id}, id < t.packages.size → t.parent? id = none → id = PackageTree.root

namespace Extends

theorem refl : Extends t t := ⟨Nat.le_refl _, id, id⟩

theorem trans (h₁ : Extends t₁ t₂) (h₂ : Extends t₂ t₃) : Extends t₁ t₃ :=
  ⟨Nat.le_trans h₁.size h₂.size, fun h => h₂.child (h₁.child h), fun h => h₂.module (h₁.module h)⟩

/-- Setting a subroutine adds no package and takes none away. -/
theorem setSub {s : Subroutine} : t.Extends (t.setSub id name s) :=
  ⟨by simp, by simp, by simp⟩

theorem mention {d : Draft} : t.Extends (t.mention id name d).2.1 := by
  unfold PackageTree.mention
  split
  · exact .refl
  · exact .setSub

/-- A path that leads somewhere leads there in every extension. -/
theorem descend? (h : Extends t t') {path : List String} (hp : t.descend? id path = some i) :
    t'.descend? id path = some i := by
  induction path generalizing id with
  | nil => exact hp
  | cons x rest ih =>
      simp only [PackageTree.descend?] at hp ⊢
      cases hc : t.child? id x with
      | none => simp [hc] at hp
      | some c =>
          rw [hc] at hp
          rw [h.child hc]
          exact ih hp

end Extends

/-- Only the links of a tree and the names in it count. -/
theorem Closed.congr (h : t.Closed) (hsize : t'.packages.size = t.packages.size)
    (hchild : ∀ i x, t'.child? i x = t.child? i x) (hparent : ∀ i, t'.parent? i = t.parent? i)
    (hname : ∀ i, (t'.get i).name = (t.get i).name) : t'.Closed := by
  constructor
  · intro i x c hc
    rw [hchild] at hc
    rw [hsize]
    exact h.child hc
  · intro i x c hc
    rw [hchild] at hc
    rw [hparent, hname]
    exact h.up hc
  · intro i c hc
    rw [hparent] at hc
    rw [hchild, hname]
    exact h.down hc
  · intro i c hc
    rw [hparent] at hc
    exact h.lt hc
  · intro i hi hp
    rw [hparent] at hp
    rw [hsize] at hi
    exact h.root hi hp

/-- Setting a subroutine leaves the links of the tree alone. -/
theorem Closed.setSub {s : Subroutine} (h : t.Closed) : (t.setSub id name s).Closed :=
  h.congr (by simp) (by simp) (by simp) (by simp)

theorem Closed.mention {d : Draft} (h : t.Closed) : (t.mention id name d).2.1.Closed := by
  unfold PackageTree.mention
  split
  · exact h
  · exact h.setSub

/-- The path leads from `id` to `child`, and to a module if it is to be one. -/
structure Leads (t : PackageTree) (id : PackageId) (kind : PackageKind) (path : List String)
    (child : PackageId) : Prop where
  descends : t.descend? id path = some child
  module : kind = .module → path ≠ [] → t.kind child = .module

/-- Where a path leads, and whether to a module, stays in every extension. -/
theorem Extends.leads (h : t.Extends t') {kind : PackageKind} {path : List String} {child : PackageId}
    (hp : t.Leads id kind path child) : t'.Leads id kind path child :=
  ⟨h.descend? hp.descends, fun hk hne => h.module (hp.module hk hne)⟩

/-- What entering a package does to a tree: it adds packages, leaves all subroutines alone, and
arrives where the path leads. -/
structure Entered (t : PackageTree) (id : PackageId) (kind : PackageKind) (path : List String)
    (r : PackageId × PackageTree) : Prop where
  grows : t.Extends r.2
  subs : ∀ i name, r.2.sub? i name = t.sub? i name
  inside : r.1 < r.2.packages.size
  closed : r.2.Closed
  leads : r.2.Leads id kind path r.1

/-- The tree with a package made a module. -/
def promote (t : PackageTree) (id : PackageId) : PackageTree :=
  t.modify id fun p => { p with kind := .module }

/-- The tree with a new child of a package. -/
def adopt (t : PackageTree) (id : PackageId) (name : String) (kind : PackageKind) : PackageTree :=
  PackageTree.modify ⟨t.packages.push { name, kind, parent := some id }⟩ id fun p =>
    { p with children := p.children.insert name t.packages.size }

/-- Entering a child finds it, and makes it a module if it is to be one, or adds it to the tree. -/
theorem enterChild_def {kind : PackageKind} : t.enterChild id name kind =
    match t.child? id name with
    | some child => (child, if kind = .module then t.promote child else t)
    | none => (t.packages.size, t.adopt id name kind) := by
  unfold enterChild
  cases t.child? id name with
  | none => rfl
  | some child => cases kind <;> rfl

/-- A package that is there is found, and is a module afterwards. -/
theorem Entered.promote {child : PackageId} (ht : t.Closed) (hc : t.child? id name = some child) :
    t.Entered id .module [name] (child, t.promote child) := by
  have hin := ht.child hc
  have hget : ∀ i, (t.promote child).get i =
      if i = child then { t.get i with kind := .module } else t.get i := by
    intro i
    unfold PackageTree.promote
    rw [get_modify]
    simp [hin]
  have hchild : ∀ i x, (t.promote child).child? i x = t.child? i x := by
    intro i x
    unfold child?
    rw [hget]
    split <;> rfl
  have hparent : ∀ i, (t.promote child).parent? i = t.parent? i := by
    intro i
    unfold parent?
    rw [hget]
    split <;> rfl
  have hname : ∀ i, ((t.promote child).get i).name = (t.get i).name := by
    intro i
    rw [hget]
    split <;> rfl
  have hkind : ∀ i, (t.promote child).kind i = if i = child then .module else t.kind i := by
    intro i
    unfold kind
    rw [hget]
    split <;> rfl
  have hsize : (t.promote child).packages.size = t.packages.size := size_modify
  refine ⟨⟨by simp [hsize], fun h => by rwa [hchild], fun h => by simp [hkind, h]⟩, fun i x => ?_,
    by simpa [hsize] using hin, ht.congr hsize hchild hparent hname, by simp [descend?, hchild, hc], fun _ _ => by simp [hkind]⟩
  unfold sub?
  rw [hget]
  split <;> rfl

/-- The new package is the last one, and its parent has one more child. -/
theorem get_adopt {kind : PackageKind} (hid : id < t.packages.size) : (t.adopt id name kind).get i =
    if i = t.packages.size then { name, kind, parent := some id }
    else if i = id then { t.get id with children := (t.get id).children.insert name t.packages.size }
    else t.get i := by
  have hpush : PackageTree.get ⟨t.packages.push { name, kind, parent := some id }⟩ i =
      if i = t.packages.size then { name, kind, parent := some id } else t.get i := by
    by_cases hi : i = t.packages.size
    · simp [get, Array.getD, hi]
    · by_cases hlt : i < t.packages.size
      · simp [get, Array.getD, hi, hlt, Nat.lt_succ_of_lt hlt, Array.getElem_push_lt hlt]
      · have hnot : ¬ i < t.packages.size + 1 :=
          fun h => (Nat.lt_succ_iff_lt_or_eq.mp h).elim hlt hi
        simp [get, Array.getD, hi, hlt, hnot]
  unfold adopt
  rw [get_modify, hpush]
  by_cases hi : i = id
  · subst hi
    simp [Nat.ne_of_lt hid, Nat.lt_succ_of_lt hid]
  · simp [hi]

theorem get_size : t.get t.packages.size = Package.root := by simp [get, Array.getD]

section Adopted

variable {kind : PackageKind}

/-- The new package is the child of its parent under its name; no other child is gained or lost. -/
theorem child?_adopt {x : String} (hid : id < t.packages.size) :
    (t.adopt id name kind).child? i x =
      if i = id ∧ x = name then some t.packages.size else t.child? i x := by
  unfold child?
  rw [get_adopt hid]
  by_cases hs : i = t.packages.size
  · subst hs
    simp [Ne.symm (Nat.ne_of_lt hid), get_size, Package.root]
  · by_cases hi : i = id
    · subst hi
      by_cases hx : x = name
      · simp [hs, hx]
      · simp [hs, hx, Std.ExtTreeMap.getElem?_insert, Ne.symm hx]
    · simp [hs, hi]

/-- The new package knows its parent. -/
theorem parent?_adopt (hid : id < t.packages.size) :
    (t.adopt id name kind).parent? i = if i = t.packages.size then some id else t.parent? i := by
  unfold parent?
  rw [get_adopt hid]
  split
  · rfl
  · split
    · simp [*]
    · rfl

theorem name_adopt (hid : id < t.packages.size) :
    ((t.adopt id name kind).get i).name = if i = t.packages.size then name else (t.get i).name := by
  rw [get_adopt hid]
  split
  · rfl
  · split
    · simp [*]
    · rfl

theorem kind_adopt (hid : id < t.packages.size) :
    (t.adopt id name kind).kind i = if i = t.packages.size then kind else t.kind i := by
  unfold PackageTree.kind
  rw [get_adopt hid]
  split
  · rfl
  · split
    · simp [*]
    · rfl

/-- A new package has no subroutines, and the others keep theirs. -/
theorem sub?_adopt {x : String} (hid : id < t.packages.size) :
    (t.adopt id name kind).sub? i x = t.sub? i x := by
  unfold sub?
  rw [get_adopt hid]
  split
  · rename_i hs
    simp [hs, get_size, Package.root]
  · split
    · simp [*]
    · rfl

theorem size_adopt : (t.adopt id name kind).packages.size = t.packages.size + 1 := by
  simp [adopt]

/-- **A new package is linked in both directions.** -/
theorem Closed.adopt (ht : t.Closed) (hid : id < t.packages.size) (hc : t.child? id name = none) :
    (t.adopt id name kind).Closed := by
  -- The new package is beyond all others, so none of them is its child.
  have hbeyond : t.parent? t.packages.size = none := by simp [parent?, get_size, Package.root]
  refine ⟨fun {i x c} h => ?_, fun {i x c} h => ?_, fun {i c} h => ?_, fun {i c} h => ?_,
    fun {i} hi h => ?_⟩
  · rw [child?_adopt hid] at h
    rw [size_adopt]
    split at h
    · obtain rfl := Option.some.inj h
      exact Nat.lt_succ_self _
    · exact Nat.lt_succ_of_lt (ht.child h)
  · rw [child?_adopt hid] at h
    rw [parent?_adopt hid, name_adopt hid]
    split at h
    · rename_i hkey
      obtain ⟨rfl, rfl⟩ := hkey
      obtain rfl := Option.some.inj h
      simp
    · simpa [Nat.ne_of_lt (ht.child h)] using ht.up h
  · rw [parent?_adopt hid] at h
    rw [child?_adopt hid, name_adopt hid]
    split at h
    · rename_i hs
      obtain rfl := Option.some.inj h
      simp [hs]
    · rename_i hs
      have hdown := ht.down h
      rw [if_neg hs, if_neg]
      · exact hdown
      · rintro ⟨rfl, heq⟩
        rw [heq, hc] at hdown
        cases hdown
  · rw [parent?_adopt hid] at h
    split at h
    · rename_i hs
      obtain rfl := Option.some.inj h
      exact hs ▸ hid
    · exact ht.lt h
  · rw [parent?_adopt hid] at h
    rw [size_adopt] at hi
    split at h
    · cases h
    · rename_i hs
      exact ht.root (Nat.lt_of_le_of_ne (Nat.le_of_lt_succ hi) hs) h

/-- A package that is not there is added, and found where the path leads. -/
theorem Entered.adopt (ht : t.Closed) (hid : id < t.packages.size) (hc : t.child? id name = none) :
    t.Entered id kind [name] (t.packages.size, t.adopt id name kind) := by
  refine ⟨⟨by simp [size_adopt], fun {i x c} h => ?_, fun {i} h => ?_⟩, fun i x => sub?_adopt hid,
    by simp [size_adopt], ht.adopt hid hc, by simp [descend?, child?_adopt hid],
    fun hk _ => by simp [kind_adopt hid, hk]⟩
  · rw [child?_adopt hid, if_neg]
    · exact h
    · rintro ⟨rfl, rfl⟩
      cases hc.symm.trans h
  · rw [kind_adopt hid]
    split
    · rename_i heq
      rw [heq, PackageTree.kind, get_size] at h
      cases h
    · exact h

end Adopted

/-- Entering a child arrives at a package of the name. -/
theorem enterChild_spec {kind : PackageKind} (ht : t.Closed) (hid : id < t.packages.size) :
    t.Entered id kind [name] (t.enterChild id name kind) := by
  rw [enterChild_def]
  cases hc : t.child? id name with
  | none => exact .adopt ht hid hc
  | some c =>
      cases kind with
      | package => exact ⟨.refl, fun _ _ => rfl, ht.child hc, ht, by simp [descend?, hc], nofun⟩
      | module => exact .promote ht hc

/-- Entering component after component arrives where the whole path leads. -/
theorem enterComponents_spec {kind : PackageKind} {path : List String} (ht : t.Closed)
    (hid : id < t.packages.size) : t.Entered id kind path (t.enterComponents id kind path) := by
  fun_induction enterComponents t id kind path with
  | case1 t id => exact ⟨.refl, fun _ _ => rfl, hid, ht, rfl, fun _ h => absurd rfl h⟩
  | case2 t id name => exact enterChild_spec ht hid
  | case3 t id name rest hrest child t' heq ih =>
      have h₁ : t.Entered id .package [name] (child, t') := heq ▸ enterChild_spec ht hid
      have h₂ := ih h₁.closed h₁.inside
      refine ⟨h₁.grows.trans h₂.grows, fun i x => (h₂.subs i x).trans (h₁.subs i x),
        h₂.inside, h₂.closed, ?_, fun hk _ => h₂.leads.module hk hrest⟩
      have hchild : t'.child? id name = some child := by
        have := h₁.leads.descends
        simp only [descend?] at this
        cases hc : t'.child? id name with
        | none => simp [hc] at this
        | some c => simpa [hc] using this
      simp only [descend?, h₂.grows.child hchild]
      exact h₂.leads.descends

/-- **What entering a path does.** -/
theorem enter_spec {path : String} {kind : PackageKind} (ht : t.Closed)
    (hid : id < t.packages.size) :
    t.Entered id kind (Path.components path) (t.enter id path kind) :=
  enterComponents_spec ht hid

/-- **A path leads to the same package for good.** -/
theorem Extends.enter_eq {path : String} {kind : PackageKind} (h : t'.Extends t) (ht : t.Closed)
    (hid : id < t.packages.size) (hp : t'.descend? id (Path.components path) = some i) :
    (t.enter id path kind).1 = i := by
  have hspec := @enter_spec t id path kind ht hid
  have := (h.trans hspec.grows).descend? hp
  rw [hspec.leads.descends] at this
  exact Option.some.inj this

end PackageTree

/-! ### Sessions -/

/-- The current package of the session is in its tree. -/
structure Session.Homed (σ : Session) : Prop where
  closed : σ.packages.Closed
  home : σ.package < σ.packages.packages.size

/-- From `σ` to `σ'` the tree has been extended, and the same package is current again. -/
structure Session.Settled (σ σ' : Session) : Prop where
  homed : σ'.Homed
  package : σ'.package = σ.package
  grows : σ.packages.Extends σ'.packages

theorem Session.Settled.refl {σ : Session} (h : σ.Homed) : σ.Settled σ := ⟨h, rfl, .refl⟩

theorem Session.Settled.trans {σ₁ σ₂ σ₃ : Session} (h₁ : σ₁.Settled σ₂) (h₂ : σ₂.Settled σ₃) :
    σ₁.Settled σ₃ :=
  ⟨h₂.homed, h₂.package.trans h₁.package, h₁.grows.trans h₂.grows⟩

namespace Move

/-- The move enters a package, or makes one the current one. -/
def travels : Move → Bool
  | .enterPath _ _ _ | .goTo _ => true
  | _ => false

/-- The move lowers a piece. -/
def isPiece : Move → Bool
  | .piece _ _ => true
  | _ => false

/-- A move that goes to no other package leaves the session in the one it is in. -/
theorem Does.settled {m : Move} {σ σ' : Session} (h : m.Does σ σ') (hm : m.travels = false)
    (hσ : σ.Homed) : σ.Settled σ' := by
  have hpackage : σ'.package = σ.package := h.spares.package fun id hid => by simp [hid, travels] at hm
  cases hp : m.onPackages with
  | false =>
      have hsame := h.spares.packages hp
      refine ⟨⟨hsame ▸ hσ.closed, ?_⟩, hpackage, hsame ▸ .refl⟩
      rw [hpackage, hsame]
      exact hσ.home
  | true =>
      cases m with
      | enterPath => cases hm
      | mention name sub =>
          obtain ⟨-, rfl⟩ := acts_mention.mp h
          have hgrows : σ.packages.Extends (σ.packages.mention σ.package name σ.draft).2.1 := .mention
          exact ⟨⟨hσ.closed.mention, Nat.lt_of_lt_of_le hσ.home hgrows.size⟩, rfl, hgrows⟩
      | setSub name sub =>
          obtain rfl := acts_setSub.mp h
          exact ⟨⟨hσ.closed.setSub, by simpa using hσ.home⟩, rfl, .setSub⟩
      | _ => simp [onPackages] at hp

end Move

/-- A row of such moves stays in its package, if the pieces in it do. -/
theorem Along.settled {K : Piece → Bool → Session → Session → Prop} {ms : List Move}
    {σ σ' : Session} (hK : ∀ {p b σ σ'}, K p b σ σ' → σ.Homed → σ.Settled σ')
    (hms : ms.all (!·.travels) = true) (h : Along K ms σ σ') (hσ : σ.Homed) : σ.Settled σ' := by
  refine h.keeps (I := σ.Settled) (fun {m τ τ'} hm hd hτ => hτ.trans (hd.settled ?_ hτ.homed))
    (fun _ hp hτ => hτ.trans (hK hp hτ.homed)) (.refl hσ)
  simpa using List.all_eq_true.mp hms m hm

theorem Enforces.stays {e : Expr} {type : ValueType} {role : Role} {cs : List Move} {ok : Bool}
    (h : Enforces e type role cs ok) : cs.all (!·.travels) = true := by
  cases h <;> rfl

theorem ReturnsUndef.stays {s : Span} {ms : List Move} (h : ReturnsUndef s ms) :
    ms.all (!·.travels) = true := by
  obtain ⟨hc⟩ := h
  simp only [List.all_append, List.all_cons, hc.stays]
  rfl

theorem Closes.stays {s : Span} {ends : Bool} {ms : List Move} (h : Closes s ends ms) :
    ms.all (!·.travels) = true := by
  cases h with
  | returned => rfl
  | fallen h => exact h.stays

/-- Only a package statement enters another package and goes there. -/
theorem Unfolds.stays {p : Piece} {ms : List Move} {b : Bool} (h : Unfolds p ms b)
    (hp : ∀ kind name body, p ≠ .stmt (.package kind name body)) :
    ms.all (!·.travels) = true := by
  cases h with
  | package => exact absurd rfl (hp _ _ _)
  | assignVar hc | assignVarMismatch hc | assignDeclare hc | assignDeclareMismatch hc | ret hc
  | bodyExpr hc =>
      simp only [List.all_append, List.all_cons, hc.stays]
      rfl
  | @argsHeld _ _ p _ _ _ hc =>
      simp only [List.all_append, hc.stays]
      cases p.copy <;> rfl
  | retUndef h => exact h.stays
  | @sub _ body _ _ _ _ _ _ _ _ hc =>
      simp only [List.all_append, hc.stays]
      cases mentionsArgList body <;> rfl
  | @next _ control => cases control <;> rfl
  | @checkpoint _ on => cases on <;> rfl
  | @call _ _ _ _ _ sub => cases h : sub.usesArgList <;> rfl
  | @cond _ _ _ rest => cases rest <;> rfl
  | @loop init condition step => cases init <;> cases condition <;> cases step <;> rfl
  | _ => rfl

/-- How a package statement is lowered: it enters the package, lowers its statements there and comes
back. -/
theorem Unfolds.package_split {kind : PackageKind} {name : String} {body : List Stmt}
    {ms ns : List Move} {q : Piece} {b e : Bool}
    (hu : Unfolds (.stmt (.package kind name body)) (ms ++ .piece q e :: ns) b) :
    ∃ id outer path, q = .stmts body ∧ ns = [.leave, .goTo outer] ∧
      ms = Move.enterPath name kind id :: (Move.declareModule id path kind ++
        [Move.sees fun σ => σ.package = outer, .goTo id, .enter .block]) := by
  generalize hms : ms ++ .piece q e :: ns = all at hu
  cases hu with
  | @package _ _ path _ id outer =>
      have hsplit := split_unique (P := Move.isPiece) (C := Move.enterPath name kind id ::
        (Move.declareModule id path kind ++ [Move.sees fun σ => σ.package = outer, .goTo id,
          .enter .block])) (n := .piece (.stmts body) true) (D := [.leave, .goTo outer])
        (by rw [hms]; simp [Move.block]) rfl (by cases kind <;> rfl) rfl
      obtain ⟨rfl, heq, rfl⟩ := hsplit
      exact ⟨id, outer, path, (Move.piece.inj heq).1, rfl, rfl⟩

/-- The session in which the statements of a package are lowered. -/
theorem Along.entered {K : Piece → Bool → Session → Session → Prop} {kind : PackageKind}
    {name path : String} {id outer : PackageId} {σ τ : Session}
    (h : Along K (.enterPath name kind id :: (Move.declareModule id path kind ++
      [Move.sees fun σ => σ.package = outer, .goTo id, .enter .block])) σ τ) (hσ : σ.Homed) :
    outer = σ.package ∧ τ.Homed ∧ τ.package = (σ.packages.enter σ.package name kind).1 ∧
      τ.packages = (σ.packages.enter σ.package name kind).2 := by
  obtain ⟨σ₁, h₁, h⟩ := h
  obtain ⟨rfl, rfl⟩ := Move.acts_enterPath.mp h₁
  have hspec := @PackageTree.enter_spec _ _ name kind hσ.closed hσ.home
  obtain ⟨σ₂, h₂, σ₃, ⟨rfl, rfl⟩, _, rfl, _, rfl, rfl⟩ := along_append.mp h
  have hpackages : σ₂.packages = (σ.packages.enter σ.package name kind).2 ∧
      σ₂.package = σ.package := by
    cases kind with
    | package =>
        obtain rfl := h₂
        exact ⟨rfl, rfl⟩
    | module =>
        obtain ⟨_, ⟨-, rfl⟩, _, hi, rfl⟩ := h₂
        obtain rfl := Move.acts_interface.mp hi
        exact ⟨rfl, rfl⟩
  exact ⟨hpackages.2, ⟨hpackages.1 ▸ hspec.closed, hpackages.1 ▸ hspec.inside⟩, rfl, hpackages.1⟩

/-- The statements of a package are lowered in it, and then the package around it is current again. -/
theorem Unfolds.packageRun {K : Piece → Bool → Session → Session → Prop} {kind : PackageKind}
    {name : String} {body : List Stmt} {ms : List Move} {b : Bool} {σ σ' : Session}
    (hu : Unfolds (.stmt (.package kind name body)) ms b) (h : Along K ms σ σ') (hσ : σ.Homed) :
    ∃ e τ τ', K (.stmts body) e τ τ' ∧ τ.Homed ∧
      τ.packages = (σ.packages.enter σ.package name kind).2 ∧ σ'.packages = τ'.packages ∧
      σ'.package = σ.package ∧ τ.package = (σ.packages.enter σ.package name kind).1 := by
  have hpiece : .stmts body ∈ Move.pieces ms := by
    cases hu
    simp [Move.pieces, Move.block]
  obtain ⟨ms₁, e, ms₂, τ, τ', rfl, h₁, hq, h₂⟩ := h.exists_piece hpiece
  obtain ⟨id, outer, path, -, rfl, rfl⟩ := hu.package_split
  obtain ⟨rfl, hτ, hpackage, hpackages⟩ := h₁.entered hσ
  obtain ⟨_, rfl, _, rfl, rfl⟩ := h₂
  exact ⟨e, τ, τ', hq, hτ, hpackages, rfl, rfl, hpackage⟩

/-- **Lowering a piece ends in the package it began in.** -/
theorem Runs.settled {Q : List Move → Prop} {p : Piece} {b : Bool} {σ σ' : Session}
    (h : Runs Q p b σ σ') (hσ : σ.Homed) : σ.Settled σ' := by
  refine h.ind (P := fun _ _ σ σ' => σ.Homed → σ.Settled σ') ?_ hσ
  intro p b ms σ σ' hu _ ha hσ
  rcases p.other_or_package with hp | ⟨kind, name, body, rfl⟩
  · exact ha.settled And.right (hu.stays hp) hσ
  · have hspec := @PackageTree.enter_spec _ _ name kind hσ.closed hσ.home
    obtain ⟨_, τ, τ', ⟨-, hbody⟩, hτ, hpackages, hsame, hpackage, -⟩ := hu.packageRun ha hσ
    have hgrows : σ.packages.Extends σ'.packages :=
      hsame ▸ (hpackages ▸ hspec.grows).trans (hbody hτ).grows
    exact ⟨⟨hsame ▸ (hbody hτ).homed.closed, hpackage ▸ Nat.lt_of_lt_of_le hσ.home hgrows.size⟩,
      hpackage, hgrows⟩

section Visited

variable {p q : Piece} {b e : Bool} {σ σ' τ τ' : Session}

/-- Lowering a piece comes back to the package it began in. -/
theorem Lowers.settled (h : Lowers p b σ σ') (hσ : σ.Homed) : σ.Settled σ' := h.runs.settled hσ

/-- Where the parts of a piece are lowered. -/
theorem Part.homed (h : Part p b σ σ' q e τ τ') (hσ : σ.Homed) :
    τ.Homed ∧ σ.packages.Extends τ.packages ∧ τ'.packages.Extends σ'.packages ∧
      ((∀ kind name body, p ≠ .stmt (.package kind name body)) → τ.package = σ.package) ∧
      ∀ kind name body, p = .stmt (.package kind name body) →
        τ.package = (σ.packages.enter σ.package name kind).1 := by
  obtain ⟨ms, ns, hu, h₁, hq, h₂⟩ := h
  rcases p.other_or_package with hp | ⟨kind, name, body, rfl⟩
  · have hstays := hu.stays hp
    simp only [List.all_append, List.all_cons, Bool.and_eq_true] at hstays
    have s₁ := h₁.settled Lowers.settled hstays.1 hσ
    have s₂ := hq.settled s₁.homed
    have s₃ := h₂.settled Lowers.settled hstays.2.2 s₂.homed
    exact ⟨s₁.homed, s₁.grows, s₃.grows, fun _ => s₁.package, fun kind name body heq =>
      absurd heq (hp kind name body)⟩
  · obtain ⟨id, outer, path, rfl, rfl, rfl⟩ := hu.package_split
    have hspec := @PackageTree.enter_spec _ _ name kind hσ.closed hσ.home
    obtain ⟨-, hτ, hpackage, hpackages⟩ := h₁.entered hσ
    obtain ⟨_, rfl, _, rfl, rfl⟩ := h₂
    refine ⟨hτ, hpackages ▸ hspec.grows, .refl, fun h => absurd rfl (h _ _ _), ?_⟩
    rintro kind name body ⟨⟩
    exact hpackage

/-- **The current package is in the tree wherever a piece is lowered.** -/
theorem Visits.homed (h : Visits p b σ σ' q e τ τ') (hσ : σ.Homed) :
    τ.Homed ∧ σ.packages.Extends τ.packages ∧ τ'.packages.Extends σ'.packages := by
  induction h with
  | self => exact ⟨hσ, .refl, .refl⟩
  | part _ hpart ih =>
      obtain ⟨hτ, g₁, g₂⟩ := ih
      obtain ⟨hυ, g₃, g₄, -⟩ := hpart.homed hτ
      exact ⟨hυ, g₁.trans g₃, g₄.trans g₂⟩

end Visited

end StackScript
