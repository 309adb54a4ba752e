import StackScript.CompileOptions
import StackScript.CompiledUnit
import StackScript.Diagnostic
import StackScript.Package

/-!
# Lowering sessions

A session is the state of compiling one unit: the code so far, the open scopes, the packages and
the one that is current, and what has been found and recorded.  `Lower α` is a step on it.  Errors
in the script are recorded in the session and stop nothing; only a fault stops a step.
-/

namespace StackScript

/-- What lowering has got so far: the code, what is in scope, what is known of packages, and what has been
found. -/
structure Session where
  name : String
  options : CompileOptions
  draft : Draft := {}
  scopes : Scopes := {}
  packages : PackageTree := {}
  /-- The current package. -/
  package : PackageId := PackageTree.root
  interface : Interface := {}
  report : Report
  uses : Array CallSite := #[]

/-- The session before anything is lowered. -/
def Session.start (name : String) (options : CompileOptions) : Session :=
  { name, options, report := { limit := options.maxErrors } }

/-- A step of lowering. -/
abbrev Lower (α : Type) : Type := Step Session α

namespace Lower

/-- A step on the draft. -/
@[always_inline, inline]
def onDraft (x : Step Draft α) : Lower α := fun s =>
  match x s.draft with
  | (result, draft) => (result, { s with draft })

/-- A step on the open scopes. -/
@[always_inline, inline]
def onScopes (x : Step Scopes α) : Lower α := fun s =>
  match x s.scopes with
  | (result, scopes) => (result, { s with scopes })

/-! ### Code -/

/-- Emits an instruction. -/
def emit (i : Instruction) : Lower Unit :=
  Step.update fun s => { s with draft := s.draft.emit i }

/-- Emits an instruction without an operand. -/
def emitOp (op : Opcode) : Lower Unit := emit (.bare op)

/-- Emits the load of a constant. -/
def emitConstant (v : Constant) : Lower Unit := onDraft (Draft.emitConstant v)

/-- A label that stands for no offset yet. -/
def newLabel : Lower Label := fun s =>
  let (label, draft) := s.draft.newLabel
  (.ok label, { s with draft })

/-- A label that stands for the next offset. -/
def newMarkedLabel : Lower Label := fun s =>
  let (label, draft) := s.draft.newMarkedLabel
  (.ok label, { s with draft })

/-- Lets the label stand for the next offset. -/
def mark (l : Label) : Lower Unit := onDraft (Draft.mark l)

/-- Records a call by the instruction emitted next. -/
def recordUse (name : String) (span : Span) (resolved : Bool) : Lower Unit :=
  Step.update fun s => { s with uses := s.uses.push ⟨name, span, s.draft.position, resolved⟩ }

/-! ### Errors in the script -/

/-- Reports a problem at a place; lowering goes on. -/
def report (p : Problem) (span : Span) : Lower Unit :=
  Step.update fun s => { s with report := s.report.add (.ofProblem p span) }

/-! ### Scopes and packages -/

/-- A step inside a scope of its own, which is closed however the step ends. -/
def inScope (kind : ScopeKind) (body : Lower α) : Lower α := fun s =>
  match body { s with scopes := s.scopes.enter kind } with
  | (result, s) => (result, { s with scopes := s.scopes.leave })

/-- A step inside another package; the current one is current again however the step ends. -/
def inPackage (id : PackageId) (body : Lower α) : Lower α := fun s =>
  let outer := s.package
  match body { s with package := id } with
  | (result, s) => (result, { s with package := outer })

/-- Gives out the next slot of the current subroutine. -/
def alloc : Lower Slot := onScopes Scopes.alloc

/-- Gives a variable a slot in the innermost scope, or finds the one that it has there. -/
def declare (name : String) (type : ValueType) : Lower Slot := onScopes (Scopes.declare name type)

/-- Gives a parameter the next slot. -/
def bindArgument (name : String) (type : ValueType) : Lower Slot :=
  onScopes (Scopes.bindArgument name type)

/-- Binds a name to a slot that has been given out. -/
def bindSlot (name : String) (slot : Slot) (type : ValueType) : Lower Unit :=
  onScopes (Scopes.bind name slot type)

/-- What the name stands for, if it is in scope. -/
def resolve? (name : String) : Lower (Option Binding) := Step.view (·.scopes.resolve? name)

/-- The package at a path below the current one. -/
def enterPath (path : String) (kind : PackageKind) : Lower PackageId := fun s =>
  let (id, packages) := s.packages.enter s.package path kind
  (.ok id, { s with packages })

/-- A subroutine of the current package, mentioned here for the first time or again. -/
def mention (name : String) : Lower Subroutine := fun s =>
  let (sub, packages, draft) := s.packages.mention s.package name s.draft
  (.ok sub, { s with packages, draft })

/-- Changes what is known of a subroutine of the current package. -/
def setSub (name : String) (sub : Subroutine) : Lower Unit :=
  Step.update fun s => { s with packages := s.packages.setSub s.package name sub }

/-- The subroutine a call here means, with the package that holds it. -/
def resolveSub? (name : String) : Lower (Option (PackageId × Subroutine)) :=
  Step.view fun s => s.packages.resolveSub? s.package name

/-- Changes what the unit has to do with others. -/
def onInterface (f : Interface → Interface) : Lower Unit :=
  Step.update fun s => { s with interface := f s.interface }

end Lower

end StackScript
