import StackScript.Double.Numeral
import StackScript.Json.Value
import StackScript.Text.Digits

/-!
# Reading JSON text

`Json.parse?` reads a text that holds exactly one value, with blanks around it.  The grammar is the
strict one: no comments, no trailing commas, no control characters inside strings, and four digits
behind an escape of a code point.  What follows the grammar and stands for nothing is read as
`unreadable`.  How a number is rounded is the caller's choice.

`Json.ofText?` rounds to the nearest number and takes a text only when all of it can be read.

A reader takes the characters left and returns those behind what it read.  Every nested reader
consumes a character for two of its steps at most, so twice the length of the text bounds them.
-/

namespace StackScript.Json

/-- White space between tokens. -/
def isBlank (c : Char) : Bool := c == ' ' || c == '\n' || c == '\t' || c == '\r'

/-- What is left behind the white space. -/
def skipBlanks (cs : List Char) : List Char := cs.dropWhile isBlank

/-! ### Strings -/

/-- The first half of a pair that encodes one character. -/
def isHighSurrogate (n : Nat) : Bool := 0xd800 ≤ n && n < 0xdc00

/-- The second half of a pair that encodes one character. -/
def isLowSurrogate (n : Nat) : Bool := 0xdc00 ≤ n && n < 0xe000

/-- The code points of a string up to its closing quote, halves of surrogate pairs included, and
what follows the quote. -/
def codePoints (done : List Nat) : List Char → Option (List Nat × List Char)
  | '"' :: rest => some (done.reverse, rest)
  | '\\' :: '"' :: rest => codePoints ('"'.toNat :: done) rest
  | '\\' :: '\\' :: rest => codePoints ('\\'.toNat :: done) rest
  | '\\' :: '/' :: rest => codePoints ('/'.toNat :: done) rest
  | '\\' :: 'b' :: rest => codePoints (0x08 :: done) rest
  | '\\' :: 'f' :: rest => codePoints (0x0c :: done) rest
  | '\\' :: 'n' :: rest => codePoints ('\n'.toNat :: done) rest
  | '\\' :: 'r' :: rest => codePoints ('\r'.toNat :: done) rest
  | '\\' :: 't' :: rest => codePoints ('\t'.toNat :: done) rest
  | '\\' :: 'u' :: a :: b :: c :: d :: rest =>
    match Text.number? 16 [a, b, c, d] with
    | some n => codePoints (n :: done) rest
    | none => none
  | c :: rest => if c == '\\' || c.toNat < 0x20 then none else codePoints (c.toNat :: done) rest
  | [] => none

/-- The characters of code points, a surrogate pair making one; none if half of a pair stands
alone. -/
def characters? (done : List Char) : List Nat → Option (List Char)
  | [] => some done.reverse
  | n :: rest =>
    if isHighSurrogate n then
      match rest with
      | low :: rest =>
        if isLowSurrogate low then
          characters? (Char.ofNat (0x10000 + (n - 0xd800) * 0x400 + (low - 0xdc00)) :: done) rest
        else none
      | [] => none
    else if isLowSurrogate n then none
    else characters? (Char.ofNat n :: done) rest

/-- A string behind its opening quote; `some none` if its escapes name no characters. -/
def string? (cs : List Char) : Option (Option String × List Char) :=
  (codePoints [] cs).map fun (ns, rest) => ((characters? [] ns).map String.ofList, rest)

/-! ### Numbers -/

/-- The digits at the front, and what follows them. -/
def digits (cs : List Char) : List Nat × List Char :=
  ((cs.takeWhile Char.isDigit).map fun c => c.toNat - '0'.toNat, cs.dropWhile Char.isDigit)

/-- One digit or more. -/
def someDigits? (cs : List Char) : Option (List Nat × List Char) :=
  let (ds, rest) := digits cs
  if ds.isEmpty then none else some (ds, rest)

/-- The digits before the point.  A zero in front stands alone. -/
def whole? : List Char → Option (List Nat × List Char)
  | '0' :: rest => some ([0], rest)
  | cs => someDigits? cs

/-- The digits behind a point, if one follows. -/
def fraction? : List Char → Option (Option (List Nat) × List Char)
  | '.' :: rest => (someDigits? rest).map fun (ds, rest) => (some ds, rest)
  | cs => some (none, cs)

/-- The exponent, if one follows. -/
def exponent? : List Char → Option (Option Int × List Char)
  | 'e' :: '-' :: rest | 'E' :: '-' :: rest =>
    (someDigits? rest).map fun (ds, rest) => (some (-(Numeral.digitsValue ds : Int)), rest)
  | 'e' :: '+' :: rest | 'E' :: '+' :: rest | 'e' :: rest | 'E' :: rest =>
    (someDigits? rest).map fun (ds, rest) => (some (Numeral.digitsValue ds : Int), rest)
  | cs => some (none, cs)

/-- An integer within 64 bits.  A negative zero is none. -/
def integer? (negative : Bool) (n : Nat) : Option Int :=
  if negative then
    if 0 < n && Int64.minValue.toInt ≤ -(n : Int) then some (-(n : Int)) else none
  else if n < UInt64.size then some n
  else none

section Values

variable (round? : Numeral → Option Double)

/-- The value of a numeral that is no integer within 64 bits. -/
def ofNumeral (n : Numeral) : Json :=
  match round? n with
  | some x => .float x
  | none => .unreadable

/-- A number without its sign. -/
def unsigned? (negative : Bool) (cs : List Char) : Option (Json × List Char) := do
  let (whole, rest) ← whole? cs
  let (places, rest) ← fraction? rest
  let (exponent, rest) ← exponent? rest
  let float := ofNumeral round? ⟨negative, whole, places.getD [], exponent.getD 0⟩
  if places.isNone && exponent.isNone then
    match integer? negative (Numeral.digitsValue whole) with
    | some n => return (.int n, rest)
    | none => return (float, rest)
  else return (float, rest)

/-- A number with its sign, and what is left behind it. -/
def number? : List Char → Option (Json × List Char)
  | '-' :: rest => unsigned? round? true rest
  | cs => unsigned? round? false cs

/-! ### Values -/

/-- The value of a string; one that cannot be decoded is not readable. -/
def ofString : Option String → Json
  | some s => .str s
  | none => .unreadable

/-- The object of the fields read so far, last one first, or none if one of their names could not
be read. -/
def ofFields : Option (List (String × Json)) → Json
  | some done => .obj done.reverse
  | none => .unreadable

/-- One more field, if its name and those before could be read. -/
def addField (done : Option (List (String × Json))) (name : Option String) (item : Json) :
    Option (List (String × Json)) := do
  let name ← name
  let done ← done
  return (name, item) :: done

mutual

/-- A value behind blanks. -/
def value? : Nat → List Char → Option (Json × List Char)
  | 0, _ => none
  | fuel + 1, cs =>
    match skipBlanks cs with
    | 'n' :: 'u' :: 'l' :: 'l' :: rest => some (.null, rest)
    | 't' :: 'r' :: 'u' :: 'e' :: rest => some (.bool true, rest)
    | 'f' :: 'a' :: 'l' :: 's' :: 'e' :: rest => some (.bool false, rest)
    | '"' :: rest => (string? rest).map fun (s, rest) => (ofString s, rest)
    | '[' :: rest =>
      match skipBlanks rest with
      | ']' :: rest => some (.arr [], rest)
      | rest => items? fuel [] rest
    | '\x7b' :: rest =>
      match skipBlanks rest with
      | '\x7d' :: rest => some (.obj [], rest)
      | rest => fields? fuel (some []) rest
    | cs => number? round? cs

/-- The items of an array from the next one on. -/
def items? : Nat → List Json → List Char → Option (Json × List Char)
  | 0, _, _ => none
  | fuel + 1, done, cs =>
    match value? fuel cs with
    | none => none
    | some (item, rest) =>
      match skipBlanks rest with
      | ',' :: rest => items? fuel (item :: done) rest
      | ']' :: rest => some (.arr (item :: done).reverse, rest)
      | _ => none

/-- The fields of an object from the next one on. -/
def fields? : Nat → Option (List (String × Json)) → List Char → Option (Json × List Char)
  | 0, _, _ => none
  | fuel + 1, done, cs =>
    match skipBlanks cs with
    | '"' :: rest =>
      match string? rest with
      | none => none
      | some (name, rest) =>
        match skipBlanks rest with
        | ':' :: rest =>
          match value? fuel rest with
          | none => none
          | some (item, rest) =>
            match skipBlanks rest with
            | ',' :: rest => fields? fuel (addField done name item) rest
            | '\x7d' :: rest => some (ofFields (addField done name item), rest)
            | _ => none
        | _ => none
    | _ => none

end

/-- The value a text holds, if it holds one and nothing else. -/
def parse? (text : String) : Option Json :=
  let cs := text.toList
  match value? round? (2 * cs.length + 2) cs with
  | some (j, rest) => if (skipBlanks rest).isEmpty then some j else none
  | none => none

end Values

/-- The value a text holds, if all of it can be read. -/
def ofText? (text : String) : Option Json := (parse? Numeral.nearest? text).filter isReadable

end StackScript.Json
