import StackScript.Proofs.Resolution

/-!
# Absolute names

The names that lead from the root to a package tell it from all others.  Written one behind the other
with `::` between them they still do, if they are identifiers: the text can be cut up again.  So can
the absolute name of a subroutine.

* `PackageTree.Closed.components_of_some`: what leads to a package leads to its parent first.
* `PackageTree.Closed.eq_of_components`: no two packages are reached by the same names.
* `Path.components_join`: a path of identifiers is cut up where it was joined.
* `PackageTree.Closed.qualify_injective`: no two subroutines have the same absolute name if all names
  are identifiers.
* `Stmt.allDeclarations_names`: the names in the absolute names of subroutines are in the source.
-/

namespace StackScript

/-! ### What leads to a package -/

namespace PackageTree

variable {t t' : PackageTree} {id i : PackageId}

/-- Numbers decrease outward, so the steps are enough as soon as there are more than the number. -/
theorem Closed.walk_eq (h : t.Closed) {m n : Nat} (hm : id < m) (hn : id < n) :
    t.walk m id = t.walk n id := by
  induction m generalizing n id with
  | zero => exact absurd hm (Nat.not_lt_zero _)
  | succ m ih =>
      cases n with
      | zero => exact absurd hn (Nat.not_lt_zero _)
      | succ n =>
          simp only [walk]
          cases hp : t.parent? id with
          | none => rfl
          | some parent =>
              have hlt := h.lt hp
              exact congrArg (id :: ·) (ih (Nat.lt_of_lt_of_le hlt (Nat.le_of_lt_succ hm))
                (Nat.lt_of_lt_of_le hlt (Nat.le_of_lt_succ hn)))

/-- The packages around a package are itself and those around its parent. -/
theorem Closed.outward_of_some (h : t.Closed) (hp : t.parent? id = some i) :
    t.outward id = id :: t.outward i := by
  unfold outward
  rw [walk, hp, h.walk_eq (Nat.lt_succ_self i) (h.lt hp)]

theorem components_of_none (hp : t.parent? id = none) : t.components id = [] := by
  simp [components, outward, walk, hp]

/-- **What leads to a package leads to its parent first.** -/
theorem Closed.components_of_some (h : t.Closed) (hp : t.parent? id = some i) :
    t.components id = t.components i ++ [(t.get id).name] := by
  simp [components, h.outward_of_some hp, hp]

/-- **No two packages are reached by the same names.** -/
theorem Closed.eq_of_components (h : t.Closed) (hid : id < t.packages.size)
    (hi : i < t.packages.size) (heq : t.components id = t.components i) : id = i := by
  induction id using Nat.strongRecOn generalizing i with
  | _ id ih =>
    cases hp : t.parent? id with
    | none =>
        cases hq : t.parent? i with
        | none => rw [h.root hid hp, h.root hi hq]
        | some q => simp [components_of_none hp, h.components_of_some hq] at heq
    | some p =>
        cases hq : t.parent? i with
        | none => simp [components_of_none hq, h.components_of_some hp] at heq
        | some q =>
            rw [h.components_of_some hp, h.components_of_some hq] at heq
            obtain ⟨hparents, hnames⟩ := List.append_inj' heq rfl
            have hlt := h.lt hp
            obtain rfl := ih p hlt (Nat.lt_trans hlt hid) (Nat.lt_trans (h.lt hq) hi) hparents
            have hchild := h.down hp
            rw [List.singleton_inj.mp hnames, h.down hq] at hchild
            exact (Option.some.inj hchild).symm

/-- A path leads on from what leads to the package it begins in. -/
theorem Closed.components_of_descend (h : t.Closed) {path : List String}
    (hp : t.descend? id path = some i) : t.components i = t.components id ++ path := by
  induction path generalizing id with
  | nil =>
      obtain rfl := Option.some.inj hp
      rw [List.append_nil]
  | cons x rest ih =>
      simp only [descend?] at hp
      cases hc : t.child? id x with
      | none => simp [hc] at hp
      | some c =>
          rw [hc] at hp
          obtain ⟨hparent, hname⟩ := h.up hc
          rw [ih hp, h.components_of_some hparent, hname, List.append_assoc, List.singleton_append]

namespace Same

/-- The path of a package does not depend on which subroutines count as emitted. -/
theorem components (h : Same t t') : t'.components id = t.components id := by
  have hparent (j : PackageId) : t'.parent? j = t.parent? j := (h.package j).parent
  have hname (j : PackageId) : (t'.get j).name = (t.get j).name := (h.package j).name
  unfold PackageTree.components
  rw [h.outward]
  simp only [hparent, hname]

theorem qualify {x : String} (h : Same t t') : t'.qualify id x = t.qualify id x := by
  unfold PackageTree.qualify path
  rw [h.components]

end Same

end PackageTree

/-! ### Names joined to a path -/

namespace Path

/-- A name that packages and subroutines have in a program as it is written. -/
def isIdentifier (name : String) : Bool := name != "" && !name.toList.contains ':'

theorem isIdentifier_iff {name : String} :
    isIdentifier name = true ↔ name ≠ "" ∧ ':' ∉ name.toList := by
  simp [isIdentifier]

theorem componentChars_self {w : List Char} (h : ':' ∉ w) : componentChars w = [w] := by
  induction w with
  | nil => rfl
  | cons c w ih =>
      obtain ⟨hc, hw⟩ := not_or.mp (mt List.mem_cons.mpr h)
      rw [componentChars]
      · rw [ih hw]
      · rintro rest rfl -
        exact hc rfl

/-- The first `::` ends the first component. -/
theorem componentChars_append {w rest : List Char} (h : ':' ∉ w) :
    componentChars (w ++ ':' :: ':' :: rest) = w :: componentChars rest := by
  induction w with
  | nil => rfl
  | cons c w ih =>
      obtain ⟨hc, hw⟩ := not_or.mp (mt List.mem_cons.mpr h)
      rw [List.cons_append, componentChars]
      · rw [ih hw]
      · rintro rest rfl -
        exact hc rfl

/-- **A path of names without colons is cut up where it was joined.** -/
theorem components_join {xs : List String} (hne : xs ≠ []) (h : ∀ x ∈ xs, ':' ∉ x.toList) :
    components (join xs) = xs := by
  induction xs with
  | nil => exact absurd rfl hne
  | cons x xs ih =>
      have hx := h x List.mem_cons_self
      cases xs with
      | nil =>
          rw [join, String.intercalate_singleton, components, componentChars_self hx]
          simp
      | cons y ys =>
          have hrest := ih (List.cons_ne_nil _ _) fun z hz => h z (List.mem_cons_of_mem _ hz)
          have htext : (join (x :: y :: ys)).toList =
              x.toList ++ ':' :: ':' :: (join (y :: ys)).toList := by
            rw [join, String.intercalate_cons_cons]
            simp [join]
          rw [components, htext, componentChars_append hx, List.map_cons, String.ofList_toList]
          exact congrArg (x :: ·) hrest

/-- Only the path of the root and that of a package without a name are empty. -/
theorem join_eq_empty {xs : List String} (h : join xs = "") : xs = [] ∨ xs = [""] := by
  match xs with
  | [] => exact .inl rfl
  | [x] =>
      rw [join, String.intercalate_singleton] at h
      rw [h]
      exact .inr rfl
  | x :: y :: ys =>
      rw [join, String.intercalate_cons_cons] at h
      have hchars := congrArg String.toList h
      simp at hchars

end Path

namespace PackageTree

variable {t : PackageTree} {id i : PackageId} {x y : String}

/-- The absolute name of a subroutine is the path of its package and its own name, but in a package
that is reached by the empty name alone. -/
theorem qualify_eq_join (h : t.components id ≠ [""]) :
    t.qualify id x = Path.join (t.components id ++ [x]) := by
  unfold qualify path
  by_cases hnil : t.components id = []
  · simp [hnil, Path.join]
  · have hempty : Path.join (t.components id) ≠ "" := by
      intro hjoin
      rcases Path.join_eq_empty hjoin with h' | h'
      · exact hnil h'
      · exact h h'
    rw [if_neg (by simpa using hempty), Path.join, Path.join,
      String.intercalate_append_of_ne_nil hnil (List.cons_ne_nil _ _), String.intercalate_singleton]

/-- In one package different subroutines have different absolute names. -/
theorem qualify_right_injective (h : t.qualify id x = t.qualify id y) : x = y := by
  unfold qualify at h
  by_cases hpath : (t.path id).isEmpty = true
  · simpa [hpath] using h
  · simpa [hpath] using h

/-- **No two subroutines have the same absolute name** if all names are identifiers. -/
theorem Closed.qualify_injective (h : t.Closed) (hid : id < t.packages.size)
    (hi : i < t.packages.size) (hx : Path.isIdentifier x = true) (hy : Path.isIdentifier y = true)
    (hidents : ∀ z ∈ t.components id, Path.isIdentifier z = true)
    (hidents' : ∀ z ∈ t.components i, Path.isIdentifier z = true)
    (heq : t.qualify id x = t.qualify i y) : id = i ∧ x = y := by
  have hjoin {j : PackageId} {z : String} (hj : ∀ w ∈ t.components j, Path.isIdentifier w = true) :
      t.qualify j z = Path.join (t.components j ++ [z]) := by
    refine qualify_eq_join fun hempty => ?_
    have := hj "" (by simp [hempty])
    simp [Path.isIdentifier] at this
  have hcut {j : PackageId} {z : String} (hj : ∀ w ∈ t.components j, Path.isIdentifier w = true)
      (hz : Path.isIdentifier z = true) :
      Path.components (Path.join (t.components j ++ [z])) = t.components j ++ [z] := by
    refine Path.components_join (by simp) fun w hw => ?_
    rcases List.mem_append.mp hw with hw | hw
    · exact (Path.isIdentifier_iff.mp (hj w hw)).2
    · obtain rfl := List.mem_singleton.mp hw
      exact (Path.isIdentifier_iff.mp hz).2
  rw [hjoin hidents, hjoin hidents'] at heq
  have hlists := congrArg Path.components heq
  rw [hcut hidents hx, hcut hidents' hy] at hlists
  obtain ⟨hpaths, hnames⟩ := List.append_inj' hlists rfl
  exact ⟨h.eq_of_components hid hi hpaths, List.singleton_inj.mp hnames⟩

end PackageTree

/-! ### Names in the source -/

namespace Stmt

mutual

/-- The names that a statement gives to packages and to subroutines. -/
def names : Stmt → List String
  | .sub head body => head.name :: allNames body
  | .package _ name body => Path.components name ++ allNames body
  | .block body | .whileLoop _ body | .forEach _ _ body | .loop _ _ _ body => allNames body
  | .cond _ body elsifs otherwise =>
    allNames body ++ branchesNames elsifs ++
      match otherwise with
      | none => []
      | some body => allNames body
  | .expr _ | .ret _ _ | .use _ => []

/-- The names that a list of statements gives. -/
def allNames : List Stmt → List String
  | [] => []
  | s :: rest => s.names ++ allNames rest

/-- The names that the bodies of the branches give. -/
def branchesNames : List (Expr × List Stmt) → List String
  | [] => []
  | (_, body) :: rest => allNames body ++ branchesNames rest

end

end Stmt

/-- The declaration is named, and its package is reached from the package `id`, by these names. -/
structure Declaration.NamedBy (D : Declaration) (t : PackageTree) (id : PackageId)
    (names : List String) : Prop where
  name : D.head.name ∈ names
  path : ∃ path, t.components D.owner = t.components id ++ path ∧ ∀ x ∈ path, x ∈ names

theorem Declaration.NamedBy.mono {D : Declaration} {t : PackageTree} {id : PackageId}
    {names names' : List String} (h : D.NamedBy t id names) (hsub : ∀ x ∈ names, x ∈ names') :
    D.NamedBy t id names' := by
  obtain ⟨path, hpath, hmem⟩ := h.path
  exact ⟨hsub _ h.name, path, hpath, fun x hx => hsub x (hmem x hx)⟩

namespace Stmt

variable {t : PackageTree}

mutual

/-- **A declaration is named by the names on the way to it.** -/
theorem declarations_names (ht : t.Closed) (s : Stmt) (id : PackageId) (D : Declaration)
    (hD : D ∈ s.declarations t id) : D.NamedBy t id s.names := by
  cases s with
  | sub head body =>
      rcases List.mem_cons.mp (by simpa only [declarations] using hD) with rfl | hD
      · exact ⟨List.mem_cons_self, [], by simp, by simp⟩
      · exact (allDeclarations_names ht body id D hD).mono fun x hx => List.mem_cons_of_mem _ hx
  | package kind name body =>
      simp only [declarations] at hD
      split at hD
      · cases hD
      · rename_i child hchild
        have h := allDeclarations_names ht body child D hD
        obtain ⟨path, hpath, hmem⟩ := h.path
        rw [ht.components_of_descend hchild, List.append_assoc] at hpath
        refine ⟨List.mem_append_right _ h.name, _, hpath, fun x hx => ?_⟩
        rcases List.mem_append.mp hx with hx | hx
        · exact List.mem_append_left _ hx
        · exact List.mem_append_right _ (hmem x hx)
  | block body | whileLoop _ body | forEach _ _ body | loop _ _ _ body =>
      exact allDeclarations_names ht body id D (by simpa only [declarations] using hD)
  | cond _ body elsifs rest =>
      have hbody := allDeclarations_names ht body id D
      have helsifs := branchesDeclarations_names ht elsifs id D
      cases rest with
      | none =>
          simp only [declarations, List.mem_append, List.not_mem_nil, or_false] at hD
          rcases hD with hD | hD
          · exact (hbody hD).mono fun x hx => by simp [names, hx]
          · exact (helsifs hD).mono fun x hx => by simp [names, hx]
      | some last =>
          simp only [declarations, List.mem_append] at hD
          rcases hD with (hD | hD) | hD
          · exact (hbody hD).mono fun x hx => by simp [names, hx]
          · exact (helsifs hD).mono fun x hx => by simp [names, hx]
          · exact (allDeclarations_names ht last id D hD).mono fun x hx => by simp [names, hx]
  | expr | ret | use => simp [declarations] at hD

theorem allDeclarations_names (ht : t.Closed) (body : List Stmt) (id : PackageId)
    (D : Declaration) (hD : D ∈ allDeclarations t id body) : D.NamedBy t id (allNames body) := by
  cases body with
  | nil => cases hD
  | cons s rest =>
      rcases List.mem_append.mp (by simpa only [allDeclarations] using hD) with hD | hD
      · exact (declarations_names ht s id D hD).mono fun x hx => List.mem_append_left _ hx
      · exact (allDeclarations_names ht rest id D hD).mono fun x hx => List.mem_append_right _ hx

theorem branchesDeclarations_names (ht : t.Closed) (elsifs : List (Expr × List Stmt))
    (id : PackageId) (D : Declaration) (hD : D ∈ branchesDeclarations t id elsifs) :
    D.NamedBy t id (branchesNames elsifs) := by
  cases elsifs with
  | nil => cases hD
  | cons branch rest =>
      rcases List.mem_append.mp (by simpa only [branchesDeclarations] using hD) with hD | hD
      · exact (allDeclarations_names ht branch.2 id D hD).mono fun x hx => List.mem_append_left _ hx
      · exact (branchesDeclarations_names ht rest id D hD).mono fun x hx =>
          List.mem_append_right _ hx

end

end Stmt

end StackScript
