/-!
# Qualified names

A qualified name joins package names and a subroutine name with `::`.

* `Path.components` reads a path from the left: every `::` ends a component.
* `Path.splitLast?` cuts a name at its last `::`, into the path before it and the name behind it.
-/

namespace StackScript.Path

/-- The components of a path. -/
def componentChars : List Char → List (List Char)
  | [] => [[]]
  | ':' :: ':' :: rest => [] :: componentChars rest
  | c :: rest =>
    match componentChars rest with
    | [] => [[c]]
    | w :: ws => (c :: w) :: ws

/-- The components of a path, as texts. -/
def components (path : String) : List String :=
  (componentChars path.toList).map String.ofList

/-- The characters before and behind the last `::`. -/
def splitLastChars? : List Char → Option (List Char × List Char)
  | [] => none
  | c :: rest =>
    match splitLastChars? rest with
    | some (path, base) => some (c :: path, base)
    | none =>
      match c, rest with
      | ':', ':' :: base => some ([], base)
      | _, _ => none

/-- The path before the last `::` of a name and the name behind it, if there is a `::`. -/
def splitLast? (name : String) : Option (String × String) :=
  (splitLastChars? name.toList).map fun (path, base) => (String.ofList path, String.ofList base)

/-- A name without its packages. -/
def base (name : String) : String :=
  match splitLast? name with
  | some (_, b) => b
  | none => name

/-- The path that has these components. -/
def join (parts : List String) : String := "::".intercalate parts

end StackScript.Path
