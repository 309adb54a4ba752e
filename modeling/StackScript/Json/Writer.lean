import StackScript.Double.Shortest
import StackScript.Json.Value

/-!
# Writing JSON text

`Json.compact` writes a value on one line without blanks, `Json.pretty` on a line for each item and
field, indented by two blanks a level.
-/

namespace StackScript.Json

/-- A code below 0x20 as an escape of four hexadecimal digits. -/
def controlEscape (n : Nat) : String :=
  "\\u00" ++ (if n < 16 then "0" else "") ++ String.ofList (Nat.toDigits 16 n)

/-- Adds a character of a string, escaped if it has to be. -/
def escapeInto (out : String) (c : Char) : String :=
  match c with
  | '"' => out ++ "\\\""
  | '\\' => out ++ "\\\\"
  | '\n' => out ++ "\\n"
  | '\r' => out ++ "\\r"
  | '\t' => out ++ "\\t"
  | '\x08' => out ++ "\\b"
  | '\x0c' => out ++ "\\f"
  | c => if c.toNat < 0x20 then out ++ controlEscape c.toNat else out.push c

/-- Adds a string in quotes. -/
def stringInto (out : String) (s : String) : String :=
  (s.toList.foldl escapeInto (out.push '"')).push '"'

/-- A value that is neither an array nor an object.  One that cannot be read is written as
`null`. -/
def leafInto (out : String) : Json → String
  | .null | .unreadable => out ++ "null"
  | .bool b => out ++ (if b then "true" else "false")
  | .int n => out ++ toString n
  | .float x => out ++ x.jsonText
  | .str s => stringInto out s
  | .arr _ | .obj _ => out

mutual

/-- Adds a value without white space. -/
def compactInto (out : String) : Json → String
  | .arr items => (compactItems (out.push '[') true items).push ']'
  | .obj fields => (compactFields (out.push '\x7b') true fields).push '\x7d'
  | j => leafInto out j

/-- Adds items without white space, with commas between them. -/
def compactItems (out : String) (first : Bool) : List Json → String
  | [] => out
  | j :: rest => compactItems (compactInto (if first then out else out.push ',') j) false rest

/-- Adds fields without white space, with commas between them. -/
def compactFields (out : String) (first : Bool) : List (String × Json) → String
  | [] => out
  | (name, j) :: rest =>
    let out := stringInto (if first then out else out.push ',') name
    compactFields (compactInto (out.push ':') j) false rest

end

/-- The text of a value without white space. -/
def compact (j : Json) : String := compactInto "" j

/-- A new line at the given level. -/
def lineInto (out : String) (level : Nat) : String :=
  (List.replicate (2 * level) ' ').foldl String.push (out.push '\n')

mutual

/-- Adds a value over several lines, indented this deep. -/
def prettyInto (level : Nat) (out : String) : Json → String
  | .arr [] => out ++ "[]"
  | .arr items => (lineInto (prettyItems (level + 1) (out.push '[') true items) level).push ']'
  | .obj [] => (out.push '\x7b').push '\x7d'
  | .obj fields =>
    (lineInto (prettyFields (level + 1) (out.push '\x7b') true fields) level).push '\x7d'
  | j => leafInto out j

/-- Adds items on lines of their own. -/
def prettyItems (level : Nat) (out : String) (first : Bool) : List Json → String
  | [] => out
  | j :: rest =>
    let out := lineInto (if first then out else out.push ',') level
    prettyItems level (prettyInto level out j) false rest

/-- Adds fields on lines of their own. -/
def prettyFields (level : Nat) (out : String) (first : Bool) : List (String × Json) → String
  | [] => out
  | (name, j) :: rest =>
    let out := stringInto (lineInto (if first then out else out.push ',') level) name
    prettyFields level (prettyInto level (out ++ ": ") j) false rest

end

/-- The text of a value over several lines. -/
def pretty (j : Json) : String := prettyInto 0 "" j

end StackScript.Json
