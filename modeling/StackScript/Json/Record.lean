import StackScript.Json.Value

/-!
# Records and cases in JSON

How a record and a case of an enumeration stand in JSON.

* A record is an object of its fields, or an array of them in their order.  An object may hold
  further fields, which do not count, and none of the record's own twice.  An array may stop early,
  and the fields it leaves out must then have a default.
* A case with content is an object of one field, the case's name; one without is its name alone,
  or such an object with `null`.

Readers take the number of arrays and objects that may still be opened, so that a limit on nesting
is a limit on what is read and not on what is skipped.
-/

namespace StackScript

namespace Json

/-- The fields found for a record. -/
structure Record where
  fields : List (String × Json)
  /-- The record was written as an array. -/
  positional : Bool

/-- The fields called `names` of a record. -/
def record? (names : List String) : Json → Option Record
  | .obj fields =>
    let known := fields.filter fun (name, _) => names.contains name
    if (known.map Prod.fst).Nodup then some ⟨known, false⟩ else none
  | .arr items => if items.length ≤ names.length then some ⟨names.zip items, true⟩ else none
  | _ => none

namespace Record

/-- The value of a field, if it is there. -/
def get? (r : Record) (name : String) : Option Json := r.fields.lookup name

/-- A field that must be there. -/
def required (r : Record) (name : String) (read : Json → Option α) : Option α :=
  (r.get? name).bind read

/-- A field that may be left out. -/
def withDefault (r : Record) (name : String) (default : α) (read : Json → Option α) : Option α :=
  match r.get? name with
  | none => some default
  | some j => read j

end Record

/-- A value or `null`. -/
def orNull (read : Json → Option α) : Json → Option (Option α)
  | .null => some none
  | j => (read j).map some

namespace Record

/-- A field that may be `null`, and may be left out of an object. -/
def nullable (r : Record) (name : String) (read : Json → Option α) : Option (Option α) :=
  match r.get? name with
  | none => if r.positional then none else some none
  | some j => orNull read j

end Record

/-- A case without content: its name alone, or an object that gives it `null`.  The object needs a
level of nesting. -/
def bareTag? : Nat → Json → Option String
  | _, .str tag => some tag
  | _ + 1, .obj [(tag, .null)] => some tag
  | _, _ => none

/-- One of finitely many cases without content. -/
def oneOf? (cases : List (String × α)) (depth : Nat) (j : Json) : Option α :=
  (j.bareTag? depth).bind fun tag => cases.lookup tag

/-- An array of values of one kind. -/
def listOf? (read? : Nat → Json → Option α) : (depth : Nat) → Json → Option (List α)
  | depth + 1, .arr items => items.mapM (read? depth)
  | _, _ => none

/-- An array of strings. -/
def strings? : (depth : Nat) → Json → Option (List String) := listOf? fun _ => toStr?

end Json

end StackScript
