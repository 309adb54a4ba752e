import StackScript.Text.Digits
import StackScript.Toml.Value

/-!
# Reading TOML text

`Toml.ofText?` reads a configuration file.  A reader takes the characters left and returns those
behind what it read.  A file is read line by line; a value may go on over several lines, inside
brackets and in strings between three quotes.
-/

namespace StackScript.Toml

/-! ### Blanks, comments and line ends -/

/-- White space within a line. -/
def isBlank (c : Char) : Bool := c == ' ' || c == '\t'

/-- What is left behind the blanks. -/
def skipBlanks (cs : List Char) : List Char := cs.dropWhile isBlank

/-- A character that may stand in a comment or a string: any but the control characters. -/
def isText (c : Char) : Bool := c == '\t' || (0x20 ≤ c.toNat && c.toNat != 0x7f)

/-- What is left behind a line's end, if one comes next. -/
def newline? : List Char → Option (List Char)
  | '\n' :: rest => some rest
  | '\r' :: '\n' :: rest => some rest
  | _ => none

/-- What is left behind a comment, if one comes next. -/
def skipComment : List Char → List Char
  | '#' :: rest => rest.dropWhile isText
  | cs => cs

/-- The end of a line or of the file, with blanks and a comment before it. -/
def lineEnd? (cs : List Char) : Option (List Char) :=
  match skipComment (skipBlanks cs) with
  | [] => some []
  | cs => newline? cs

/-- What follows blanks, comments and line ends. -/
def skipLines : (fuel : Nat) → List Char → List Char
  | 0, cs => cs
  | fuel + 1, cs =>
    let cs := skipBlanks cs
    match newline? (skipComment cs) with
    | some rest => skipLines fuel rest
    | none => cs

/-! ### Strings -/

/-- The character of a code point. -/
def char? (n : Nat) : Option Char := if n.isValidChar then some (Char.ofNat n) else none

/-- The character whose code point the hexadecimal digits write. -/
def codePoint? (ds : List Char) : Option Char := (Text.number? 16 ds).bind char?

/-- The character that a backslash and one more character stand for. -/
def escaped? : Char → Option Char
  | 'b' => some '\x08'
  | 't' => some '\t'
  | 'n' => some '\n'
  | 'f' => some '\x0c'
  | 'r' => some '\r'
  | '"' => some '"'
  | '\\' => some '\\'
  | _ => none

/-- A run of closing quotes, the first of which is already taken: one closes a string on one line,
and three one between three quotes, where up to two more belong to the string. -/
def closing? (quote : Char) (multiline : Bool) (cs : List Char) : Option (List Char × List Char) :=
  if multiline then
    let quotes := min 5 ((cs.takeWhile (· == quote)).length + 1)
    if quotes < 3 then none else some (List.replicate (quotes - 3) quote, cs.drop (quotes - 1))
  else some ([], cs)

/-- The characters of a string with escapes up to its closing quotes, and what follows these.
`joining` holds behind a backslash that ends a line, until the next character that counts. -/
def quotedChars (multiline joining : Bool) (done : List Char) :
    List Char → Option (List Char × List Char)
  | '\\' :: 'u' :: a :: b :: c :: d :: rest =>
    match codePoint? [a, b, c, d] with
    | some x => quotedChars multiline false (x :: done) rest
    | none => none
  | '\\' :: 'U' :: a :: b :: c :: d :: e :: f :: g :: h :: rest =>
    match codePoint? [a, b, c, d, e, f, g, h] with
    | some x => quotedChars multiline false (x :: done) rest
    | none => none
  | '\\' :: c :: rest =>
    match escaped? c with
    | some x => quotedChars multiline false (x :: done) rest
    | none =>
      if multiline && (newline? (skipBlanks (c :: rest))).isSome then
        quotedChars multiline true done (c :: rest)
      else none
  | '"' :: rest =>
    match closing? '"' multiline rest with
    | some (more, rest) => some (done.reverse ++ more, rest)
    | none => quotedChars multiline false ('"' :: done) rest
  | '\r' :: '\n' :: rest =>
    if multiline then quotedChars multiline joining (if joining then done else '\n' :: done) rest
    else none
  | c :: rest =>
    if c == '\n' && !multiline then none
    else if c == '\n' || (isText c && c != '\\') then
      if joining && (c == '\n' || isBlank c) then quotedChars multiline true done rest
      else quotedChars multiline false (c :: done) rest
    else none
  | [] => none

/-- The characters of a string without escapes. -/
def literalChars (multiline : Bool) (done : List Char) : List Char → Option (List Char × List Char)
  | '\x27' :: rest =>
    match closing? '\x27' multiline rest with
    | some (more, rest) => some (done.reverse ++ more, rest)
    | none => literalChars multiline ('\x27' :: done) rest
  | '\r' :: '\n' :: rest => if multiline then literalChars multiline ('\n' :: done) rest else none
  | c :: rest =>
    if isText c || (multiline && c == '\n') then literalChars multiline (c :: done) rest else none
  | [] => none

/-- A string on one line. -/
def lineString? : List Char → Option (String × List Char)
  | '"' :: rest => (quotedChars false false [] rest).map fun (s, rest) => (String.ofList s, rest)
  | '\x27' :: rest => (literalChars false [] rest).map fun (s, rest) => (String.ofList s, rest)
  | _ => none

/-- Any string.  A line end right behind three opening quotes does not count. -/
def string? : List Char → Option (String × List Char)
  | '"' :: '"' :: '"' :: rest =>
    (quotedChars true false [] ((newline? rest).getD rest)).map fun (s, rest) =>
      (String.ofList s, rest)
  | '\x27' :: '\x27' :: '\x27' :: rest =>
    (literalChars true [] ((newline? rest).getD rest)).map fun (s, rest) => (String.ofList s, rest)
  | cs => lineString? cs

/-! ### Numbers -/

/-- Digits from the next one on, with single underscores between them. -/
def digitsFrom (base : Nat) (done : List Char) : List Char → Option (List Char × List Char)
  | '_' :: c :: rest =>
    if Text.isDigit base c then digitsFrom base (c :: done) rest else none
  | c :: rest =>
    if Text.isDigit base c then digitsFrom base (c :: done) rest
    else some (done.reverse, c :: rest)
  | [] => some (done.reverse, [])

/-- One digit or more. -/
def digits? (base : Nat) : List Char → Option (List Char × List Char)
  | c :: rest => if Text.isDigit base c then digitsFrom base [c] rest else none
  | [] => none

/-- An integer within 64 bits. -/
def integer? (negative : Bool) (base : Nat) (ds : List Char) : Option Toml := do
  let size : Int ← Text.number? base ds
  let n := if negative then -size else size
  if Int64.minValue.toInt ≤ n && n ≤ Int64.maxValue.toInt then some (.int n) else none

/-- An integer behind the mark of its base. -/
def basedInteger? (base : Nat) (cs : List Char) : Option (Toml × List Char) := do
  let (ds, rest) ← digits? base cs
  let n ← integer? false base ds
  return (n, rest)

/-- The digits behind a point, if one follows. -/
def fraction? : List Char → Option (Option (List Char) × List Char)
  | '.' :: rest => (digits? 10 rest).map fun (ds, rest) => (some ds, rest)
  | cs => some (none, cs)

/-- Whether a minus comes next, and what is left behind the sign. -/
def sign : List Char → Bool × List Char
  | '-' :: rest => (true, rest)
  | '+' :: rest => (false, rest)
  | cs => (false, cs)

/-- The exponent, if one follows. -/
def exponent? : List Char → Option (Option Int × List Char)
  | 'e' :: rest | 'E' :: rest => do
    let (negative, rest) := sign rest
    let (ds, rest) ← digits? 10 rest
    let n : Int ← Text.number? 10 ds
    return (some (if negative then -n else n), rest)
  | cs => some (none, cs)

/-- A float.  One above the largest finite number is refused, and one below the smallest is minus
infinity. -/
def float? (negative : Bool) (ds : List Char) (exponent : Int) : Option Toml := do
  let n ← Text.number? 10 ds
  match Double.ofDecimal? negative n exponent with
  | some x => some (.float x)
  | none => if negative then some (.float (.infinity true)) else none

/-- A decimal number without its sign. -/
def decimal? (negative : Bool) (cs : List Char) : Option (Toml × List Char) := do
  let (whole, rest) ← match cs with
    | '0' :: rest => some (['0'], rest)
    | cs => digits? 10 cs
  let (frac, rest) ← fraction? rest
  let (exponent, rest) ← exponent? rest
  let n ← match frac, exponent with
    | none, none => integer? negative 10 whole
    | _, _ =>
      let places := frac.getD []
      float? negative (whole ++ places) (exponent.getD 0 - places.length)
  return (n, rest)

/-- A number without its sign. -/
def unsigned? (negative : Bool) : List Char → Option (Toml × List Char)
  | 'i' :: 'n' :: 'f' :: rest => some (.float (.infinity negative), rest)
  | 'n' :: 'a' :: 'n' :: rest => some (.float (.nan negative), rest)
  | cs => decimal? negative cs

/-- A number, and what is left behind it. -/
def number? : List Char → Option (Toml × List Char)
  | '0' :: 'x' :: rest => basedInteger? 16 rest
  | '0' :: 'o' :: rest => basedInteger? 8 rest
  | '0' :: 'b' :: rest => basedInteger? 2 rest
  | cs =>
    let (negative, rest) := sign cs
    unsigned? negative rest

/-! ### Dates and times -/

/-- A number of two digits between two bounds. -/
def twoDigits? (least most : Nat) : List Char → Option (Nat × List Char)
  | a :: b :: rest => do
    let n ← Text.number? 10 [a, b]
    if least ≤ n && n ≤ most then some (n, rest) else none
  | _ => none

/-- February has 29 days. -/
def isLeapYear (year : Nat) : Bool := year % 4 == 0 && (year % 100 != 0 || year % 400 == 0)

/-- The days of a month, which is taken to exist. -/
def daysInMonth (year month : Nat) : Nat :=
  match month with
  | 2 => if isLeapYear year then 29 else 28
  | 4 | 6 | 9 | 11 => 30
  | _ => 31

/-- What is left behind the character, if it comes next. -/
def expect? (c : Char) : List Char → Option (List Char)
  | d :: rest => if d = c then some rest else none
  | [] => none

/-- What follows a date. -/
def date? : List Char → Option (List Char)
  | a :: b :: c :: d :: rest => do
    let year ← Text.number? 10 [a, b, c, d]
    let rest ← expect? '-' rest
    let (month, rest) ← twoDigits? 1 12 rest
    let rest ← expect? '-' rest
    let (_, rest) ← twoDigits? 1 (daysInMonth year month) rest
    return rest
  | _ => none

/-- What follows a time of day. -/
def timeOfDay? (cs : List Char) : Option (List Char) := do
  let (_, rest) ← twoDigits? 0 23 cs
  let rest ← expect? ':' rest
  let (_, rest) ← twoDigits? 0 59 rest
  let rest ← expect? ':' rest
  let (_, rest) ← twoDigits? 0 60 rest
  match rest with
  | '.' :: c :: more =>
    if Text.isDigit 10 c then return more.dropWhile (Text.isDigit 10) else return rest
  | _ => return rest

/-- What follows the distance from universal time. -/
def offset? : List Char → Option (List Char)
  | 'Z' :: rest | 'z' :: rest => some rest
  | '+' :: rest | '-' :: rest => do
    let (_, rest) ← twoDigits? 0 23 rest
    let rest ← expect? ':' rest
    let (_, rest) ← twoDigits? 0 59 rest
    return rest
  | _ => none

/-- What follows a date, with or without a time of day, or a time of day alone. -/
def afterTime? (cs : List Char) : Option (List Char) :=
  match date? cs with
  | some ('T' :: rest) | some ('t' :: rest) | some (' ' :: rest) =>
    match timeOfDay? rest with
    | some rest => some ((offset? rest).getD rest)
    | none => date? cs
  | some rest => some rest
  | none => timeOfDay? cs

/-- A date or a time, kept as it is written, and what is left behind it. -/
def time? (cs : List Char) : Option (Toml × List Char) :=
  (afterTime? cs).map fun rest =>
    (.time (String.ofList (cs.take (cs.length - rest.length))), rest)

/-! ### Keys -/

/-- A character of a key without quotes. -/
def isBare (c : Char) : Bool := c.isAlphanum || c == '_' || c == '-'

/-- One part of a key, quoted or bare, and what is left behind it. -/
def key? (cs : List Char) : Option (String × List Char) :=
  match lineString? cs with
  | some found => some found
  | none =>
    let name := cs.takeWhile isBare
    if name.isEmpty then none else some (String.ofList name, cs.dropWhile isBare)

/-- How deep arrays and tables may be nested, and how long a dotted key may be. -/
def nesting : Nat := 79

/-- The keys of a dotted key from the next one on, with blanks around them. -/
def keysFrom? : (fuel : Nat) → List Char → Option (List String × List Char)
  | 0, _ => none
  | fuel + 1, cs => do
    let (key, rest) ← key? (skipBlanks cs)
    match skipBlanks rest with
    | '.' :: rest =>
      let (keys, rest) ← keysFrom? fuel rest
      return (key :: keys, rest)
    | rest => return ([key], rest)

/-- A dotted key: its path and its last part. -/
def keyPath? (cs : List Char) : Option (List String × String × List Char) := do
  let (keys, rest) ← keysFrom? nesting cs
  let last ← keys.getLast?
  return (keys.dropLast, last, rest)

/-! ### Values -/

mutual

/-- A value inside fewer than `depth` more arrays and tables. -/
def value? : (fuel depth : Nat) → List Char → Option (Toml × List Char)
  | 0, _, _ => none
  | fuel + 1, depth, cs =>
    match cs with
    | '"' :: _ | '\x27' :: _ => (string? cs).map fun (s, rest) => (.str s, rest)
    | 't' :: 'r' :: 'u' :: 'e' :: rest => some (.bool true, rest)
    | 'f' :: 'a' :: 'l' :: 's' :: 'e' :: rest => some (.bool false, rest)
    | '[' :: rest => if depth = 0 then none else items? fuel (depth - 1) [] rest
    | '\x7b' :: rest =>
      if depth = 0 then none
      else
        match skipBlanks rest with
        | '\x7d' :: rest => some (.table .braces [], rest)
        | rest => fields? fuel (depth - 1) empty rest
    | _ => (time? cs).orElse fun _ => number? cs

/-- The items of an array from the next one on. -/
def items? : (fuel depth : Nat) → List Toml → List Char → Option (Toml × List Char)
  | 0, _, _, _ => none
  | fuel + 1, depth, done, cs =>
    match skipLines cs.length cs with
    | ']' :: rest => some (.array done.reverse, rest)
    | cs =>
      match value? fuel depth cs with
      | none => none
      | some (item, rest) =>
        match skipLines rest.length rest with
        | ',' :: rest => items? fuel depth (item :: done) rest
        | ']' :: rest => some (.array (item :: done).reverse, rest)
        | _ => none

/-- The fields of a table in braces from the next one on. -/
def fields? : (fuel depth : Nat) → Toml → List Char → Option (Toml × List Char)
  | 0, _, _, _ => none
  | fuel + 1, depth, done, cs =>
    match keyPath? cs with
    | some (path, key, '=' :: rest) =>
      match value? fuel depth (skipBlanks rest) with
      | none => none
      | some (value, rest) =>
        match assign path key value done, skipBlanks rest with
        | some done, ',' :: rest => fields? fuel depth done rest
        | some (.table _ fields), '\x7d' :: rest => some (.table .braces fields, rest)
        | _, _ => none
    | _ => none

end

/-! ### Files -/

/-- What the lines so far make, and the header the next line stands under. -/
structure Reading where
  root : Toml := empty
  header : List String := []

namespace Reading

/-- A line that gives a key its value, up to the line's end. -/
def assignment? (r : Reading) (cs : List Char) : Option (Reading × List Char) := do
  let (path, key, rest) ← keyPath? cs
  let rest ← expect? '=' rest
  let (value, rest) ← value? (2 * rest.length + 2) nesting (skipBlanks rest)
  let root ← alter .passed (assign path key value) r.header r.root
  return ({ r with root }, rest)

/-- A line that opens a table, up to the line's end. -/
def header? (r : Reading) (double : Bool) (cs : List Char) : Option (Reading × List Char) := do
  let (path, key, rest) ← keyPath? cs
  let rest ← expect? ']' rest
  let rest ← if double then expect? ']' rest else some rest
  let root ← alter .passed (if double then openNextTable key else openTable key) path r.root
  return (⟨root, path ++ [key]⟩, rest)

/-- A line that is not empty, up to its end. -/
def line? (r : Reading) : List Char → Option (Reading × List Char)
  | '[' :: '[' :: rest => r.header? true rest
  | '[' :: rest => r.header? false rest
  | cs => r.assignment? cs

/-- The lines from the next one on. -/
def lines? : (fuel : Nat) → Reading → List Char → Option Reading
  | 0, _, _ => none
  | fuel + 1, r, cs =>
    match skipBlanks cs with
    | [] => some r
    | cs =>
      match lineEnd? cs with
      | some rest => lines? fuel r rest
      | none =>
        match r.line? cs with
        | none => none
        | some (r, rest) =>
          match lineEnd? rest with
          | some rest => lines? fuel r rest
          | none => none

end Reading

/-- The table that a file holds.  A byte order mark in front does not count. -/
def ofText? (text : String) : Option Toml :=
  let cs := match text.toList with
    | '\ufeff' :: cs => cs
    | cs => cs
  (Reading.lines? (cs.length + 1) {} cs).map Reading.root

end StackScript.Toml
