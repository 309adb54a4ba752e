import StackScript.Proofs.AbsoluteNames

/-!
# Looking absolute names up

The absolute name of a subroutine is written by walking outward from its package, and read by cutting it at
its last `::`, cutting up what stands before, and walking down from the root.  In a tree whose names are
identifiers the two ways are inverse: an absolute name leads to the subroutine that has it.

* `PackageTree.Built`: the trees that come about under such names.
* `PackageTree.Closed.descend_components`: what leads to a package is the way down to it.
* `Path.splitLast?_qualified`: a qualified name is cut where it was joined.
* `absolute_names_identify`: an absolute name leads back to the package and the subroutine.
-/

namespace StackScript

/-! ### Cutting a name at its last separator -/

namespace Path

/-- A name without separators cannot be split. -/
theorem splitLastChars?_self {w : List Char} (h : ':' ∉ w) : splitLastChars? w = none := by
  induction w with
  | nil => rfl
  | cons c w ih =>
      obtain ⟨hc, hw⟩ := not_or.mp (mt List.mem_cons.mpr h)
      rw [splitLastChars?, ih hw]
      rintro base rfl -
      exact hc rfl

/-- The last `::` is the one behind which there is no colon. -/
theorem splitLastChars?_append {w b : List Char} (h : ':' ∉ b) :
    splitLastChars? (w ++ ':' :: ':' :: b) = some (w, b) := by
  induction w with
  | nil =>
      -- One colon further on, a single colon is left.
      have hrest : splitLastChars? (':' :: b) = none := by
        rw [splitLastChars?, splitLastChars?_self h]
        rintro base - rfl
        exact h List.mem_cons_self
      rw [List.nil_append, splitLastChars?, hrest]
  | cons c w ih => simp only [List.cons_append, splitLastChars?, ih]

theorem splitLast?_self {x : String} (h : ':' ∉ x.toList) : splitLast? x = none := by
  rw [splitLast?, splitLastChars?_self h, Option.map_none]

/-- A qualified name is split before its last part. -/
theorem splitLast?_qualified {path x : String} (h : ':' ∉ x.toList) :
    splitLast? (path ++ "::" ++ x) = some (path, x) := by
  have htext : (path ++ "::" ++ x).toList = path.toList ++ ':' :: ':' :: x.toList := by simp
  rw [splitLast?, htext, splitLastChars?_append h]
  simp

end Path

/-! ### Trees of identifiers -/

namespace PackageTree

variable {t : PackageTree} {id i : PackageId} {name x : String}

/-- The tree has come about step by step, in any of its packages, under names that are identifiers. -/
inductive Built : PackageTree → Prop where
  | empty : Built {}
  | enter {t : PackageTree} {id : PackageId} {path : String} {kind : PackageKind} : Built t →
      id < t.packages.size → (∀ x ∈ Path.components path, Path.isIdentifier x = true) →
      Built (t.enter id path kind).2
  | mention {t : PackageTree} {id : PackageId} {name : String} {d : Draft} : Built t →
      id < t.packages.size → Path.isIdentifier name = true → Built (t.mention id name d).2.1
  /-- What is known of a subroutine changes: it is declared, for one. -/
  | update {t : PackageTree} {id : PackageId} {name : String} {s : Subroutine} : Built t →
      (t.sub? id name).isSome = true → Built (t.setSub id name s)

/-- The names in the tree are identifiers, those of its packages and those of its subroutines. -/
structure Spelled (t : PackageTree) : Prop where
  package : ∀ {id parent}, t.parent? id = some parent → Path.isIdentifier (t.get id).name = true
  sub : ∀ {id name s}, t.sub? id name = some s → Path.isIdentifier name = true

namespace Spelled

theorem empty : Spelled {} := by
  refine ⟨fun {id parent} h => ?_, fun {id name s} h => ?_⟩
  · cases id <;> simp [parent?, get, Array.getD, Package.root] at h
  · cases id <;> simp [sub?, get, Array.getD, Package.root] at h

/-- A subroutine may be set under a name that is an identifier. -/
theorem setSub {s : Subroutine} (h : t.Spelled) (hid : id < t.packages.size)
    (hname : Path.isIdentifier name = true) : (t.setSub id name s).Spelled := by
  refine ⟨fun {i parent} hp => ?_, fun {i x s} hs => ?_⟩
  · rw [parent?_setSub] at hp
    rw [name_setSub]
    exact h.package hp
  · rw [sub?_setSub hid] at hs
    split at hs
    · rename_i hkey
      rw [hkey.2]
      exact hname
    · exact h.sub hs

theorem mention {d : Draft} (h : t.Spelled) (hid : id < t.packages.size)
    (hname : Path.isIdentifier name = true) : (t.mention id name d).2.1.Spelled := by
  unfold PackageTree.mention
  split
  · exact h
  · exact h.setSub hid hname

theorem promote (h : t.Spelled) : (t.promote id).Spelled := by
  have hget (i : PackageId) : ((t.promote id).get i).name = (t.get i).name ∧
      (t.promote id).parent? i = t.parent? i ∧ ∀ x, (t.promote id).sub? i x = t.sub? i x := by
    unfold parent? sub? PackageTree.promote
    rw [get_modify]
    split <;> exact ⟨rfl, rfl, fun _ => rfl⟩
  refine ⟨fun {i parent} hp => ?_, fun {i x s} hs => ?_⟩
  · rw [(hget i).2.1] at hp
    rw [(hget i).1]
    exact h.package hp
  · rw [(hget i).2.2] at hs
    exact h.sub hs

/-- A package may be added under a name that is an identifier. -/
theorem adopt {kind : PackageKind} (h : t.Spelled) (hid : id < t.packages.size)
    (hname : Path.isIdentifier name = true) : (t.adopt id name kind).Spelled := by
  refine ⟨fun {i parent} hp => ?_, fun {i x s} hs => ?_⟩
  · rw [parent?_adopt hid] at hp
    rw [name_adopt hid]
    split
    · exact hname
    · rename_i hi
      rw [if_neg hi] at hp
      exact h.package hp
  · rw [sub?_adopt hid] at hs
    exact h.sub hs

theorem enterChild {kind : PackageKind} (h : t.Spelled) (hid : id < t.packages.size)
    (hname : Path.isIdentifier name = true) : (t.enterChild id name kind).2.Spelled := by
  rw [enterChild_def]
  cases t.child? id name with
  | none => exact h.adopt hid hname
  | some child =>
      cases kind with
      | package => exact h
      | module => exact h.promote

/-- A path of identifiers may be entered. -/
theorem enterComponents {kind : PackageKind} {path : List String} (h : t.Spelled) (ht : t.Closed)
    (hid : id < t.packages.size) (hpath : ∀ x ∈ path, Path.isIdentifier x = true) :
    (t.enterComponents id kind path).2.Spelled := by
  fun_induction PackageTree.enterComponents t id kind path with
  | case1 t id => exact h
  | case2 t id name => exact h.enterChild hid (hpath name List.mem_cons_self)
  | case3 t id name rest hrest child t' heq ih =>
      have hname := hpath name List.mem_cons_self
      have hentered : t.Entered id .package [name] (child, t') := heq ▸ enterChild_spec ht hid
      have hspelled : (child, t').2.Spelled := heq ▸ h.enterChild hid hname
      exact ih hspelled hentered.closed hentered.inside fun x hx => hpath x (List.mem_cons_of_mem _ hx)

/-- What leads to a package is made of identifiers. -/
theorem components (h : t.Spelled) (ht : t.Closed) (id : PackageId) :
    ∀ x ∈ t.components id, Path.isIdentifier x = true := by
  induction id using Nat.strongRecOn with
  | _ id ih =>
    intro x hx
    cases hp : t.parent? id with
    | none => simp [components_of_none hp] at hx
    | some parent =>
        rw [ht.components_of_some hp] at hx
        rcases List.mem_append.mp hx with hx | hx
        · exact ih parent (ht.lt hp) x hx
        · obtain rfl := List.mem_singleton.mp hx
          exact h.package hp

end Spelled

/-- What a step keeps, every tree built has: it is linked in both directions, and its names are
identifiers. -/
theorem Built.sound (h : t.Built) : t.Closed ∧ t.Spelled := by
  induction h with
  | empty => exact ⟨closed_empty, .empty⟩
  | enter _ hid hpath ih =>
      obtain ⟨hclosed, hspelled⟩ := ih
      exact ⟨(enter_spec hclosed hid).closed, hspelled.enterComponents hclosed hid hpath⟩
  | mention _ hid hname ih => exact ⟨ih.1.mention, ih.2.mention hid hname⟩
  | update _ hs ih =>
      obtain ⟨s, hs⟩ := Option.isSome_iff_exists.mp hs
      exact ⟨ih.1.setSub, ih.2.setSub (lt_size_of_sub? hs) (ih.2.sub hs)⟩

/-! ### The way down -/

/-- A longer path goes on from where the shorter one leads. -/
theorem descend?_append {path rest : List String} (h : t.descend? id path = some i) :
    t.descend? id (path ++ rest) = t.descend? i rest := by
  induction path generalizing id with
  | nil =>
      obtain rfl := Option.some.inj h
      rfl
  | cons x path ih =>
      simp only [List.cons_append, descend?] at h ⊢
      cases hc : t.child? id x with
      | none => simp [hc] at h
      | some c =>
          rw [hc] at h
          exact ih h

/-- **What leads to a package is the way down to it.** -/
theorem Closed.descend_components (h : t.Closed) (hid : id < t.packages.size) :
    t.descend? PackageTree.root (t.components id) = some id := by
  induction id using Nat.strongRecOn with
  | _ id ih =>
    cases hp : t.parent? id with
    | none =>
        rw [components_of_none hp, h.root hid hp]
        rfl
    | some parent =>
        have hlt := h.lt hp
        rw [h.components_of_some hp, descend?_append (ih parent hlt (Nat.lt_trans hlt hid))]
        simp [descend?, h.down hp]

/-- **An absolute name is cut where it was joined**: what stands before the last `::` leads to the package,
and what stands behind it is the name. -/
theorem Spelled.cut_qualify (h : t.Spelled) (ht : t.Closed) (id : PackageId)
    (hx : Path.isIdentifier x = true) :
    Path.outer (t.qualify id x) = t.components id ∧ Path.base (t.qualify id x) = x := by
  have hcolon := (Path.isIdentifier_iff.mp hx).2
  have hidents := h.components ht id
  by_cases hroot : t.components id = []
  · have hqualify : t.qualify id x = x := by simp [qualify, path, hroot, Path.join]
    rw [hqualify, Path.outer, Path.base, Path.splitLast?_self hcolon]
    exact ⟨hroot.symm, rfl⟩
  · have hpath : (t.path id).isEmpty = false := by
      have hne : t.path id ≠ "" := by
        intro hempty
        rcases Path.join_eq_empty hempty with hnil | hnameless
        · exact hroot hnil
        · have := hidents "" (by simp [hnameless])
          simp [Path.isIdentifier] at this
      simpa using hne
    rw [qualify, hpath, if_neg Bool.false_ne_true, Path.outer, Path.base, Path.splitLast?_qualified hcolon]
    exact ⟨Path.components_join hroot fun y hy => (Path.isIdentifier_iff.mp (hidents y hy)).2, rfl⟩

end PackageTree

open PackageTree

/-- **Absolute names identify subroutines.**  In every tree that comes about under identifiers, the absolute
name of a declared subroutine, looked up from the root, leads to its package and to what is known of it;
without its packages it is the subroutine's own name; and no two names of one package or of two have the same
absolute name. -/
theorem absolute_names_identify {t : PackageTree} (h : t.Built) :
    (∀ id name s, t.sub? id name = some s → s.declared = true →
      t.findSub? root (t.qualify id name) = some (id, s) ∧ Path.base (t.qualify id name) = name) ∧
    ∀ id i x y, id < t.packages.size → i < t.packages.size → Path.isIdentifier x = true →
      Path.isIdentifier y = true → t.qualify id x = t.qualify i y → id = i ∧ x = y := by
  obtain ⟨hclosed, hspelled⟩ := h.sound
  refine ⟨fun id name s hs hdeclared => ?_, fun id i x y hid hi hx hy heq => ?_⟩
  · obtain ⟨houter, hbase⟩ := hspelled.cut_qualify hclosed id (hspelled.sub hs)
    refine ⟨?_, hbase⟩
    rw [findSub?_eq, houter, hbase, hclosed.descend_components (lt_size_of_sub? hs), Option.bind_some, hs,
      Option.filter_some, if_pos hdeclared, Option.map_some]
  · exact hclosed.qualify_injective hid hi hx hy (hspelled.components hclosed id)
      (hspelled.components hclosed i) heq

/-- A tree with a subroutine of the same name at the root, in a package and in a module below it. -/
def threefold : PackageTree :=
  let t := (({} : PackageTree).enter root "Shape" .package).2
  let t := (t.enter 1 "Round::Disc" .module).2
  let declare (t : PackageTree) (id : PackageId) : PackageTree :=
    (t.mention id "area" {}).2.1.setSub id "area" { name := "area", label := ⟨0⟩, declared := true }
  declare (declare (declare t root) 1) 3

/-- The three are told apart by their absolute names. -/
theorem absolute_names_identify_threefold :
    threefold.qualify 3 "area" = "Shape::Round::Disc::area" ∧
      threefold.findSub? root (threefold.qualify 3 "area") =
        some (3, { name := "area", label := ⟨0⟩, declared := true }) ∧
      threefold.qualify 1 "area" ≠ threefold.qualify 3 "area" := by
  have hbuilt : threefold.Built := by
    refine .update (.mention (.update (.mention (.update (.mention (.enter (.enter .empty ?_ ?_) ?_ ?_)
      ?_ ?_) ?_) ?_ ?_) ?_) ?_ ?_) ?_
    all_goals decide +kernel
  have hsub : threefold.sub? 3 "area" = some { name := "area", label := ⟨0⟩, declared := true } := by
    decide +kernel
  obtain ⟨hfound, hinjective⟩ := absolute_names_identify hbuilt
  refine ⟨by decide +kernel, (hfound 3 "area" _ hsub rfl).1, fun heq => ?_⟩
  have hsame := hinjective 1 3 "area" "area" (by decide +kernel) (by decide +kernel) (by decide)
    (by decide) heq
  exact absurd hsame.1 (by decide)

end StackScript
