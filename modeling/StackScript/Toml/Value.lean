import StackScript.Double.Basic

/-!
# TOML values

The values of a configuration file, and how its lines add up to one table.

A table is opened in one of four ways, and these decide what later lines may still do to it.  A
header that only passes through a table leaves it open for a header of its own; a table made by a
dotted key takes more dotted keys; one with a header of its own takes tables, and one in braces
takes nothing.
-/

namespace StackScript

/-- How a table was opened. -/
inductive Opening where
  /-- By a header of its own. -/
  | header
  /-- On the way of a longer header. -/
  | passed
  /-- On the way of a dotted key. -/
  | dotted
  /-- In braces. -/
  | braces
  deriving DecidableEq, Repr

/-- A value of a configuration file. -/
inductive Toml where
  | bool (value : Bool)
  | int (value : Int)
  | float (value : Double)
  | str (value : String)
  /-- A date, a time of day or both, as it was written. -/
  | time (text : String)
  | array (items : List Toml)
  /-- The tables of the double-bracket headers of one name, the last of them first. -/
  | tables (last : Toml) (earlier : List Toml)
  | table (opening : Opening) (fields : List (String × Toml))

namespace Toml

/-- The table of an empty file. -/
def empty : Toml := .table .header []

/-- The fields with another value for a key, which is added if it is missing. -/
def setField (key : String) (value : Toml) : List (String × Toml) → List (String × Toml)
  | [] => [(key, value)]
  | (name, old) :: rest =>
    if name = key then (name, value) :: rest else (name, old) :: setField key value rest

/-- A table that a path may go through; `missing` is how the path opens tables. -/
def passable (missing opening : Opening) : Bool :=
  match opening with
  | .braces => false
  | .header => missing != .dotted
  | .passed | .dotted => true

/-- Changes the table at a path.  Missing tables are opened, and of the tables with double-bracket
headers the path goes through the last. -/
def alter (missing : Opening) (change : Toml → Option Toml) : List String → Toml → Option Toml
  | [], t => change t
  | key :: path, .table opening fields =>
    match (fields.lookup key).getD (.table missing []) with
    | .table childOpening childFields =>
      if passable missing childOpening then
        (alter missing change path (.table childOpening childFields)).map fun child =>
          .table opening (setField key child fields)
      else none
    | .tables last earlier =>
      (alter missing change path last).map fun last =>
        .table opening (setField key (.tables last earlier) fields)
    | _ => none
  | _ :: _, _ => none

/-- Opens the table called `key` in a table by a header of its own. -/
def openTable (key : String) : Toml → Option Toml
  | .table opening fields =>
    match fields.lookup key with
    | none => some (.table opening (fields ++ [(key, empty)]))
    | some (.table .passed inner) =>
      some (.table opening (setField key (.table .header inner) fields))
    | some _ => none
  | _ => none

/-- Opens one more of the tables called `key` in a table. -/
def openNextTable (key : String) : Toml → Option Toml
  | .table opening fields =>
    match fields.lookup key with
    | none => some (.table opening (fields ++ [(key, .tables empty [])]))
    | some (.tables last earlier) =>
      some (.table opening (setField key (.tables empty (last :: earlier)) fields))
    | some _ => none
  | _ => none

/-- Gives a key its value in a table.  A dotted key adds only to a table that a dotted key made. -/
def assign (path : List String) (key : String) (value : Toml) (t : Toml) : Option Toml :=
  alter .dotted add path t
where
  add : Toml → Option Toml
    | .table opening fields =>
      if opening = .dotted ↔ path = [] then none
      else if (fields.lookup key).isSome then none
      else some (.table opening (fields ++ [(key, value)]))
    | _ => none

end Toml

end StackScript
