import StackScript.Json.Record

/-!
# Compile options
-/

namespace StackScript

/-- What may be asked of the compiler. -/
structure CompileOptions where
  /-- Emit the marks of `checkpoint` calls. -/
  checkpoints : Bool := true
  /-- How many diagnostics are kept; all of them if this is zero. -/
  maxErrors : Nat := 0
  deriving DecidableEq, Repr, Inhabited

namespace CompileOptions

/-- Reads the options; what is left out has its default. -/
def read? : (depth : Nat) → Json → Option CompileOptions
  | 0, _ => none
  | _ + 1, j => do
    let r ← j.record? ["checkpoints", "max_errors"]
    return { checkpoints := ← r.withDefault "checkpoints" true Json.toBool?
             maxErrors := ← r.withDefault "max_errors" 0 Json.toNat? }

/-- The options a value holds; every option may be left out. -/
def ofJson? (j : Json) : Option CompileOptions := read? j.depth j

end CompileOptions

end StackScript
