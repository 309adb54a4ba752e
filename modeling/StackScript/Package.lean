import StackScript.Code.Draft
import StackScript.Scope
import StackScript.Text.Path
import StackScript.Tree.Basic

/-!
# Packages

The tree of a unit's packages and the subroutines they hold.  Packages are numbered in the order
they are made, the unnamed root first, so a package's number is greater than its parent's.

* `PackageTree.enter` finds or makes the package at a path below another.
* `PackageTree.findSub?` looks for a subroutine in one package, or below it if the name says so;
  `PackageTree.resolveSub?` tries each package outward from where the call stands.

A subroutine has a label from its first mention on, and can be found once it is declared.
-/

namespace StackScript

/-- The number of a package in its tree. -/
abbrev PackageId := Nat

/-- A declared parameter. -/
structure SubParam where
  name : String
  type : ValueType
  copy : Bool
  deriving DecidableEq, Repr, Inhabited

/-- What is known of a subroutine. -/
structure Subroutine where
  name : String
  /-- Its entry point. -/
  label : Label
  /-- Its body has been emitted. -/
  marked : Bool := false
  /-- A declaration of it has been seen. -/
  declared : Bool := false
  params : List SubParam := []
  returnType : ValueType := .unknown
  /-- Its body reads the argument list. -/
  usesArgList : Bool := false
  deriving DecidableEq, Repr, Inhabited

/-- A package, with its subroutines and the packages in it by name. -/
structure Package where
  name : String
  kind : PackageKind
  parent : Option PackageId
  subs : NameMap Subroutine := ∅
  children : NameMap PackageId := ∅

namespace Package

/-- The package around all the others. -/
def root : Package := { name := "", kind := .package, parent := none }

end Package

/-- All the packages of a program, numbered in the order in which they are made. -/
structure PackageTree where
  packages : Array Package := #[Package.root]

namespace PackageTree

/-- The unnamed package around all others. -/
def root : PackageId := 0

/-- The package with the given number. -/
def get (t : PackageTree) (id : PackageId) : Package := t.packages.getD id Package.root

/-- What kind of package it is. -/
def kind (t : PackageTree) (id : PackageId) : PackageKind := (t.get id).kind

/-- The package around it, if it is not the root. -/
def parent? (t : PackageTree) (id : PackageId) : Option PackageId := (t.get id).parent

/-- The package of this name in it. -/
def child? (t : PackageTree) (id : PackageId) (name : String) : Option PackageId :=
  (t.get id).children[name]?

/-! ### Walking outward -/

/-- The package and those around it, as far as `steps` of them. -/
def walk (t : PackageTree) : (steps : Nat) → PackageId → List PackageId
  | 0, _ => []
  | steps + 1, id =>
    id :: match t.parent? id with
      | none => []
      | some parent => walk t steps parent

/-- The package and all those around it.  Numbers decrease outward, so there are at most `id + 1`
of them. -/
def outward (t : PackageTree) (id : PackageId) : List PackageId := t.walk (id + 1) id

/-- The names that lead from the root to a package. -/
def components (t : PackageTree) (id : PackageId) : List String :=
  ((t.outward id).filter fun i => (t.parent? i).isSome).reverse.map fun i => (t.get i).name

/-- The absolute path of a package, empty for the root. -/
def path (t : PackageTree) (id : PackageId) : String := Path.join (t.components id)

/-- The absolute name of a subroutine of a package. -/
def qualify (t : PackageTree) (id : PackageId) (name : String) : String :=
  let path := t.path id
  if path.isEmpty then name else path ++ "::" ++ name

/-- The nearest module at or around a package. -/
def enclosingModule? (t : PackageTree) (id : PackageId) : Option PackageId :=
  (t.outward id).find? fun i => t.kind i = .module

/-! ### Entering packages -/

/-- The tree with a package changed. -/
def modify (t : PackageTree) (id : PackageId) (f : Package → Package) : PackageTree :=
  { packages := t.packages.modify id f }

/-- The child of a package, made if it is not there.  One that is there becomes a module if a
module is wanted. -/
def enterChild (t : PackageTree) (id : PackageId) (name : String) (kind : PackageKind) :
    PackageId × PackageTree :=
  match t.child? id name with
  | some child =>
    match kind with
    | .package => (child, t)
    | .module => (child, t.modify child fun p => { p with kind := .module })
  | none =>
    let child := t.packages.size
    let t : PackageTree := { packages := t.packages.push { name, kind, parent := some id } }
    (child, t.modify id fun p => { p with children := p.children.insert name child })

/-- The package reached through the given components, the last of them of the given kind and those
before it plain packages unless they are modules already. -/
def enterComponents (t : PackageTree) (id : PackageId) (kind : PackageKind) :
    List String → PackageId × PackageTree
  | [] => (id, t)
  | [name] => t.enterChild id name kind
  | name :: rest =>
    let (child, t) := t.enterChild id name .package
    t.enterComponents child kind rest

/-- The package at a path below another, made as needed. -/
def enter (t : PackageTree) (id : PackageId) (path : String) (kind : PackageKind) :
    PackageId × PackageTree :=
  t.enterComponents id kind (Path.components path)

/-! ### Subroutines -/

/-- A subroutine held by a package itself. -/
def sub? (t : PackageTree) (id : PackageId) (name : String) : Option Subroutine :=
  (t.get id).subs[name]?

/-- The tree with a subroutine of a package set. -/
def setSub (t : PackageTree) (id : PackageId) (name : String) (s : Subroutine) : PackageTree :=
  t.modify id fun p => { p with subs := p.subs.insert name s }

/-- A subroutine of a package; one not mentioned before gets a label of the draft. -/
def mention (t : PackageTree) (id : PackageId) (name : String) (d : Draft) :
    Subroutine × PackageTree × Draft :=
  match t.sub? id name with
  | some s => (s, t, d)
  | none =>
    let (label, d) := d.newLabel
    let s : Subroutine := { name, label }
    (s, t.setSub id name s, d)

/-- The package reached from another through existing children only. -/
def descend? (t : PackageTree) (id : PackageId) : List String → Option PackageId
  | [] => some id
  | name :: rest =>
    match t.child? id name with
    | some child => t.descend? child rest
    | none => none

/-- A declared subroutine of a package, or of one below it if the name is qualified, with the
package that holds it. -/
def findSub? (t : PackageTree) (id : PackageId) (name : String) : Option (PackageId × Subroutine) :=
  let found? (owner : PackageId) (base : String) : Option (PackageId × Subroutine) :=
    match t.sub? owner base with
    | some s => if s.declared then some (owner, s) else none
    | none => none
  match Path.splitLast? name with
  | some (path, base) =>
    match t.descend? id (Path.components path) with
    | some owner => found? owner base
    | none => none
  | none => found? id name

/-- The subroutine a call in the given package means, with the package that holds it. -/
def resolveSub? (t : PackageTree) (id : PackageId) (name : String) :
    Option (PackageId × Subroutine) :=
  (t.outward id).findSome? fun i => t.findSub? i name

/-- Every subroutine with the package that holds it, by package number and then by name. -/
def subroutines (t : PackageTree) : List (PackageId × Subroutine) :=
  (List.range t.packages.size).flatMap fun id => (t.get id).subs.toList.map fun (_, s) => (id, s)

end PackageTree

end StackScript
