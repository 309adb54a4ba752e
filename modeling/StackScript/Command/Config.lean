import StackScript.CompileOptions
import StackScript.Toml.Text

/-!
# Configuration

What a configuration file may set: the options of the compiler and those of the output.  Every
setting may be left out, and unknown ones do not count.
-/

namespace StackScript

/-- What the command prints, and how. -/
structure OutputOptions where
  /-- Print the listing of the linked program. -/
  listing : Bool := false
  /-- Colour the messages. -/
  color : Bool := true
  deriving DecidableEq, Repr, Inhabited

/-- The settings in a configuration file. -/
structure Config where
  compiler : CompileOptions := {}
  output : OutputOptions := {}
  deriving DecidableEq, Repr, Inhabited

namespace Toml

/-- A truth value. -/
def toBool? : Toml → Option Bool
  | .bool b => some b
  | _ => none

/-- An integer that is not negative. -/
def toNat? : Toml → Option Nat
  | .int (.ofNat n) => some n
  | _ => none

/-- The settings called `names` of a section: a table of them, or an array that gives them in their
order.  A time sets nothing. -/
def settings? (names : List String) : Toml → Option (List (String × Toml))
  | .table _ fields => some fields
  | .array items => some (names.zip items)
  | .tables last earlier => some (names.zip (last :: earlier).reverse)
  | .time _ => some []
  | _ => none

/-- One setting of a section. -/
def setting (settings : List (String × Toml)) (name : String) (default : α)
    (read : Toml → Option α) : Option α :=
  match settings.lookup name with
  | none => some default
  | some t => read t

end Toml

/-- Reads the table of the compiler; settings that are not there have their defaults. -/
def CompileOptions.ofToml? (t : Toml) : Option CompileOptions := do
  let s ← t.settings? ["checkpoints", "max_errors"]
  return { checkpoints := ← Toml.setting s "checkpoints" true Toml.toBool?
           maxErrors := ← Toml.setting s "max_errors" 0 Toml.toNat? }

/-- Reads the table of the output; settings that are not there have their defaults. -/
def OutputOptions.ofToml? (t : Toml) : Option OutputOptions := do
  let s ← t.settings? ["listing", "color"]
  return { listing := ← Toml.setting s "listing" false Toml.toBool?
           color := ← Toml.setting s "color" true Toml.toBool? }

namespace Config

/-- The name of a configuration file. -/
def fileName : String := "sprig.toml"

/-- Reads the whole configuration; tables that are not there have their defaults. -/
def ofToml? (t : Toml) : Option Config := do
  let s ← t.settings? ["compiler", "output"]
  return { compiler := ← Toml.setting s "compiler" {} CompileOptions.ofToml?
           output := ← Toml.setting s "output" {} OutputOptions.ofToml? }

/-- Reads a configuration from the text of its file. -/
def ofText? (text : String) : Option Config := (Toml.ofText? text).bind ofToml?

end Config

end StackScript
