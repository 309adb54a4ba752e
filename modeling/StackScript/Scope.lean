import StackScript.Code.Instruction
import StackScript.Step
import Std.Data.ExtTreeMap

/-!
# Scopes

The scopes open at a point of a script, innermost first, with the variables they bind.  Slots are
numbered for each subroutine: every scope takes its slots from the counter of the nearest
subroutine scope, arguments first, and no slot is given out twice.

A name is looked up outward as far as the nearest subroutine scope, and no further.
-/

namespace StackScript

/-- A table by name. -/
abbrev NameMap (α : Type) := Std.ExtTreeMap String α

/-- The jump targets of a loop. -/
inductive LoopControl where
  /-- `next` tests the condition again. -/
  | whileLoop (done next : Label)
  /-- `next` goes on with the step. -/
  | countedLoop (done next : Label)
  /-- `next` increments the hidden index, then tests it. -/
  | forEach (done next : Label) (indexSlot loopSlot : Slot)
  deriving DecidableEq, Repr, Inhabited

namespace LoopControl

/-- Where `last` goes. -/
def done : LoopControl → Label
  | .whileLoop done _ | .countedLoop done _ | .forEach done _ _ _ => done

/-- Where `next` goes. -/
def next : LoopControl → Label
  | .whileLoop _ next | .countedLoop _ next | .forEach _ next _ _ => next

end LoopControl

/-- What a scope was opened for. -/
inductive ScopeKind where
  /-- A subroutine's body, or the top level of a unit. -/
  | subroutine (returnType : ValueType)
  | block
  | loop (control : LoopControl)
  deriving DecidableEq, Repr, Inhabited

/-- A scope's kind without what belongs to it. -/
inductive ScopeTag where
  | subroutine
  | block
  | loop
  deriving DecidableEq, Repr, Inhabited

namespace ScopeKind

/-- The kind alone. -/
def tag : ScopeKind → ScopeTag
  | .subroutine _ => .subroutine
  | .block => .block
  | .loop _ => .loop

/-- It is a subroutine's body, or the top level. -/
def isSubroutine (k : ScopeKind) : Bool := k.tag = .subroutine

/-- The jump targets, if it is a loop. -/
def control? : ScopeKind → Option LoopControl
  | .loop control => some control
  | _ => none

end ScopeKind

/-- A bound variable. -/
structure Binding where
  slot : Slot
  type : ValueType
  deriving DecidableEq, Repr, Inhabited

/-- An argument of a subroutine scope. -/
structure Argument where
  name : String
  type : ValueType
  deriving DecidableEq, Repr, Inhabited

/-- What one scope holds. -/
structure Scope where
  kind : ScopeKind
  bindings : NameMap Binding := ∅
  args : Array Argument := #[]
  /-- The next slot to give out, if this is a subroutine scope. -/
  nextSlot : Nat := 0

namespace Scope

/-- A variable bound in this scope itself. -/
def binding? (s : Scope) (name : String) : Option Binding := s.bindings[name]?

/-- Binds a name, over what it stood for in this scope. -/
def bind (s : Scope) (name : String) (b : Binding) : Scope :=
  { s with bindings := s.bindings.insert name b }

/-- Binds a name and records it as the next argument. -/
def bindArgument (s : Scope) (name : String) (b : Binding) : Scope :=
  { s with bindings := s.bindings.insert name b, args := s.args.push ⟨name, b.type⟩ }

/-- It is a subroutine's body, or the top level. -/
def isSubroutine (s : Scope) : Bool := s.kind.isSubroutine

end Scope

/-- The open scopes, innermost first. -/
structure Scopes where
  stack : List Scope := []

namespace Scopes

/-- How many scopes are open. -/
def depth (s : Scopes) : Nat := s.stack.length

/-- Opens a scope that binds nothing. -/
def enter (s : Scopes) (kind : ScopeKind) : Scopes := ⟨{ kind } :: s.stack⟩

/-- The scopes without the innermost one. -/
def leave (s : Scopes) : Scopes := ⟨s.stack.tail⟩

/-- Closes the innermost scope and yields it. -/
def pop : Step Scopes Scope := fun s =>
  match s.stack with
  | [] => (.error .frameUnderflow, s)
  | top :: rest => (.ok top, ⟨rest⟩)

/-- The innermost scope. -/
def top (s : Scopes) : Except Fault Scope :=
  match s.stack with
  | [] => .error .noOpenFrame
  | top :: _ => .ok top

/-! ### Looking outward -/

/-- The nearest scope of the given kind, with those around it. -/
def enclosing? (s : Scopes) (tag : ScopeTag) : Option (Scope × Scopes) :=
  go s.stack
where
  go : List Scope → Option (Scope × Scopes)
    | [] => none
    | scope :: rest => if scope.kind.tag = tag then some (scope, ⟨rest⟩) else go rest

/-- The innermost loop of the current subroutine. -/
def innermostLoop? (s : Scopes) : Option LoopControl :=
  go s.stack
where
  go : List Scope → Option LoopControl
    | [] => none
    | scope :: rest =>
      match scope.kind with
      | .loop control => some control
      | .subroutine _ => none
      | .block => go rest

/-- The return type that the current subroutine declares. -/
def returnType (s : Scopes) : ValueType :=
  go s.stack
where
  go : List Scope → ValueType
    | [] => .unknown
    | scope :: rest =>
      match scope.kind with
      | .subroutine type => type
      | _ => go rest

/-- The variable a name stands for. -/
def resolve? (s : Scopes) (name : String) : Option Binding :=
  go s.stack
where
  go : List Scope → Option Binding
    | [] => none
    | scope :: rest =>
      match scope.binding? name with
      | some b => some b
      | none => if scope.isSubroutine then none else go rest

/-! ### Binding -/

/-- Takes a new slot of the current subroutine. -/
def alloc : Step Scopes Slot := fun s =>
  match go s.stack with
  | (result, stack) => (result, ⟨stack⟩)
where
  go : Step (List Scope) Slot
    | [] => (.error .noSubroutineFrame, [])
    | scope :: rest =>
      if scope.isSubroutine then
        let slot := scope.nextSlot
        if slot < UInt16.size then
          (.ok slot.toUInt16, { scope with nextSlot := slot + 1 } :: rest)
        else (.error .tooManyLocals, scope :: rest)
      else
        match go rest with
        | (result, rest) => (result, scope :: rest)

/-- Binds a name to a given slot in the innermost scope. -/
def bind (name : String) (slot : Slot) (type : ValueType) : Step Scopes Unit := fun s =>
  match s.stack with
  | [] => (.error .noOpenFrame, s)
  | scope :: rest => (.ok (), ⟨scope.bind name ⟨slot, type⟩ :: rest⟩)

/-- Declares a name in the innermost scope: one already bound there keeps its slot and its type,
another gets a new slot. -/
def declare (name : String) (type : ValueType) : Step Scopes Slot := do
  match ← Step.check fun s => s.top.map (·.binding? name) with
  | some b => return b.slot
  | none =>
    let slot ← alloc
    bind name slot type
    return slot

/-- Adds an argument to the innermost scope, which must be a subroutine's. -/
def bindArgument (name : String) (type : ValueType) : Step Scopes Slot := do
  if ← Step.check fun s => s.top.map (·.isSubroutine) then
    let slot ← alloc
    Step.update fun s =>
      match s.stack with
      | [] => s
      | scope :: rest => ⟨scope.bindArgument name ⟨slot, type⟩ :: rest⟩
    return slot
  else
    Step.fail .argumentOutsideSubroutine

end Scopes

end StackScript
