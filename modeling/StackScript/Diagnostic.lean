import StackScript.Tree.Basic

/-!
# Diagnostics

Errors in a script.  They are recorded where they are found and lowering goes on, so one
compilation reports all of them, or the first few if there is a limit.
-/

namespace StackScript

/-- The classes of mistakes that are found in programs. -/
inductive DiagnosticKind where
  /-- A subroutine is declared again. -/
  | redeclaration
  /-- Too few arguments, or arguments where none are taken. -/
  | arity
  | typeMismatch
  /-- A construct where it is not allowed. -/
  | invalidContext
  | invalidTrait
  | malformedParameter
  | undeclaredVariable
  /-- An argument of the wrong shape, or too many arguments. -/
  | invalidArgument
  deriving DecidableEq, Repr, Inhabited

namespace DiagnosticKind

/-- The name of a class. -/
def name : DiagnosticKind → String
  | .redeclaration => "Redeclaration"
  | .arity => "Arity"
  | .typeMismatch => "TypeMismatch"
  | .invalidContext => "InvalidContext"
  | .invalidTrait => "InvalidTrait"
  | .malformedParameter => "MalformedParameter"
  | .undeclaredVariable => "UndeclaredVariable"
  | .invalidArgument => "InvalidArgument"

/-- The classes, in the order of their declaration. -/
def all : List DiagnosticKind :=
  [.redeclaration, .arity, .typeMismatch, .invalidContext, .invalidTrait, .malformedParameter,
    .undeclaredVariable, .invalidArgument]

end DiagnosticKind

/-- What a value is checked against a declared type for. -/
inductive Role where
  | result
  | argument
  | assignment
  deriving DecidableEq, Repr, Inhabited

/-- What is wrong with a script. -/
inductive Problem where
  | redeclared (name : String)
  /-- `last` or `next` with arguments. -/
  | loopControlArguments (name : String)
  | tooFewArguments (name : String) (required given : Nat)
  | mismatch (role : Role) (actual expected : ValueType)
  /-- `last` or `next` outside a loop. -/
  | noLoop
  /-- A typed pattern that is no parameter. -/
  | typedOutsideParams
  | notAssignable
  | exportOutsideModule
  | unknownTrait (name : String)
  /-- A parameter with a type and something else than a variable. -/
  | typedParameterNoVariable
  | parameterNoVariable
  | undeclaredRead (name : String)
  | undeclaredWrite (name : String)
  | checkpointArgument
  | tooManyArguments (name : String)
  deriving DecidableEq, Repr, Inhabited

namespace Problem

/-- The class that a problem belongs to. -/
def kind : Problem → DiagnosticKind
  | .redeclared _ => .redeclaration
  | .loopControlArguments _ | .tooFewArguments _ _ _ => .arity
  | .mismatch _ _ _ => .typeMismatch
  | .noLoop | .typedOutsideParams | .notAssignable => .invalidContext
  | .exportOutsideModule | .unknownTrait _ => .invalidTrait
  | .typedParameterNoVariable | .parameterNoVariable => .malformedParameter
  | .undeclaredRead _ | .undeclaredWrite _ => .undeclaredVariable
  | .checkpointArgument | .tooManyArguments _ => .invalidArgument

/-- A name between quotes. -/
def quote (name : String) : String := "`" ++ name ++ "'"

/-- The text of the message about a problem. -/
def message : Problem → String
  | .redeclared name => "redeclaration of subroutine " ++ quote name
  | .loopControlArguments name => quote name ++ " expects 0 arguments"
  | .tooFewArguments name required given =>
    "subroutine " ++ quote name ++ " expects at least " ++ toString required ++
      " required parameter(s), " ++ toString given ++ " given."
  | .mismatch .result actual expected =>
    "attempting to return a value of type " ++ quote actual.text ++
      " when subroutine is expected to return " ++ quote expected.text
  | .mismatch .argument actual expected =>
    "attempting to pass a parameter of an incompatible type " ++ quote actual.text ++ " where " ++
      quote expected.text ++ " is expected"
  | .mismatch .assignment actual expected =>
    "attempting to assign a value of type " ++ quote actual.text ++ " to a variable of type " ++
      quote expected.text
  | .noLoop => "no loop structure to break from"
  | .typedOutsideParams => "type annotations are only allowed in subroutine parameter lists"
  | .notAssignable => "left side of assignment must be a variable"
  | .exportOutsideModule => "trait `export' can only be used inside a module"
  | .unknownTrait name => "use of unknown trait " ++ quote name
  | .typedParameterNoVariable =>
    "expected an identifier after type name in subroutine parameter list"
  | .parameterNoVariable =>
    "expected an identifier or a typed identifier in subroutine parameter list"
  | .undeclaredRead name => "use of undeclared variable " ++ quote name
  | .undeclaredWrite name => "assignment to undeclared variable " ++ quote name
  | .checkpointArgument => "`checkpoint' expects a single integer literal"
  | .tooManyArguments name => "too many arguments in call to " ++ quote name

end Problem

/-- The place as messages spell it. -/
def Span.text (s : Span) : String := toString s.line.toNat ++ ":" ++ toString s.column.toNat

/-- A mistake in a program, as it is reported. -/
structure Diagnostic where
  kind : DiagnosticKind
  message : String
  span : Span
  deriving DecidableEq, Repr, Inhabited

namespace Diagnostic

/-- The diagnostic about a problem at a place. -/
def ofProblem (p : Problem) (span : Span) : Diagnostic := ⟨p.kind, p.message, span⟩

/-- A diagnostic as one line of text. -/
def text (d : Diagnostic) : String := d.span.text ++ ": error: " ++ d.message

end Diagnostic

/-- The diagnostics of a compilation, in the order they were found. -/
structure Report where
  items : List Diagnostic := []
  /-- How many are kept; all of them if this is zero. -/
  limit : Nat := 0
  /-- How many were found beyond the limit. -/
  dropped : Nat := 0
  deriving DecidableEq, Repr, Inhabited

namespace Report

/-- Adds a diagnostic.  If the limit has been reached it is counted and not kept. -/
def add (r : Report) (d : Diagnostic) : Report :=
  if r.limit ≠ 0 ∧ r.limit ≤ r.items.length then { r with dropped := r.dropped + 1 }
  else { r with items := r.items ++ [d] }

/-- Nothing was found, kept or not. -/
def isEmpty (r : Report) : Bool := r.items.isEmpty && r.dropped == 0

end Report

end StackScript
