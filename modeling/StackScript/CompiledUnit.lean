import StackScript.Code.Chunk
import StackScript.Scope
import StackScript.Tree.Basic

/-!
# Compiled units

What compiling one program yields: its code, the calls in it, the offsets of its subroutines, and
what it offers to other units and needs from them.
-/

namespace StackScript

/-- A subroutine offered to other units under its absolute name. -/
structure Export where
  name : String
  position : Nat
  deriving DecidableEq, Repr, Inhabited

/-- What a unit offers to others and needs from them. -/
structure Interface where
  /-- The modules it uses, in the order of their first mention. -/
  dependencies : List String := []
  exports : List Export := []
  /-- The absolute paths of the modules it declares. -/
  modules : List String := []
  deriving DecidableEq, Repr, Inhabited

namespace Interface

/-- Records a module that the unit uses. -/
def addDependency (i : Interface) (name : String) : Interface :=
  if name ∈ i.dependencies then i else { i with dependencies := i.dependencies ++ [name] }

/-- Offers a subroutine. -/
def addExport (i : Interface) (name : String) (position : Nat) : Interface :=
  { i with exports := i.exports ++ [⟨name, position⟩] }

/-- Records a module that the unit declares. -/
def addModule (i : Interface) (path : String) : Interface :=
  if path ∈ i.modules then i else { i with modules := i.modules ++ [path] }

/-- The subroutine offered under a name. -/
def export? (i : Interface) (name : String) : Option Export :=
  i.exports.find? fun e => e.name == name

end Interface

/-- A call of a subroutine that is no builtin. -/
structure CallSite where
  /-- The absolute name if the subroutine is in this unit, and the name as written otherwise. -/
  name : String
  span : Span
  /-- The offset of the call instruction. -/
  position : Nat
  /-- The subroutine is in this unit. -/
  resolved : Bool
  deriving DecidableEq, Repr, Inhabited

/-- What comes of compiling a program: its code, and what other units and the linker have to know about
it. -/
structure CompiledUnit where
  name : String
  chunk : Chunk
  /-- The calls, in the order of their offsets. -/
  uses : Array CallSite
  /-- The offset of each subroutine, by absolute name. -/
  subroutines : NameMap Nat
  interface : Interface

/-- The calls left for linking. -/
def CompiledUnit.unresolved (u : CompiledUnit) : List CallSite :=
  u.uses.toList.filter fun c => !c.resolved

end StackScript
