import TexAnchor.Text.Coord

/-! # Reading JSON

`read?` reads a text that is exactly one JSON value, as strictly as the format says: no comments, no
trailing commas, no leading zeros, no raw control characters, nothing but white space around it.

Numbers are only told apart as far as they are used here: natural numbers written plainly, and all
others.  A string may contain an escaped surrogate without its partner and then stands for no text;
such a string is well formed, but whoever needs its text has to refuse it. -/

namespace TexAnchor.Json

/-- The text of a string; none if it contains half of a surrogate pair. -/
abbrev Content := Option (List Char)

/-- A JSON value. -/
inductive Value
  | null
  | bool (value : Bool)
  /-- A natural number written with digits only. -/
  | natural (value : Nat)
  /-- Any other number. -/
  | otherNumber
  | string (content : Content)
  | array (items : List Value)
  | object (members : List (Content × Value))
deriving Repr, Inhabited

/-! ### Strings -/

/-- What a string is written with: characters and escaped units of sixteen bits. -/
inductive Piece
  | char (c : Char)
  | unit (value : Nat)
deriving Repr

/-- The value of a digit in base sixteen. -/
def hexValue? (c : Char) : Option Nat :=
  let n := c.toNat
  if 48 ≤ n ∧ n ≤ 57 then some (n - 48)
  else if 97 ≤ n ∧ n ≤ 102 then some (n - 87)
  else if 65 ≤ n ∧ n ≤ 70 then some (n - 55)
  else none

/-- The unit that four digits in base sixteen stand for. -/
def unit? (a b c d : Char) : Option Piece := do
  let a ← hexValue? a
  let b ← hexValue? b
  let c ← hexValue? c
  let d ← hexValue? d
  return .unit (((a * 16 + b) * 16 + c) * 16 + d)

/-- The character that a backslash and one more character stand for. -/
def shortEscape? (c : Char) : Option Char :=
  match c with
  | '"' | '\\' | '/' => some c
  | 'b' => some '\x08'
  | 'f' => some '\x0c'
  | 'n' => some '\n'
  | 'r' => some '\r'
  | 't' => some '\t'
  | _ => none

/-- The pieces of a string up to its closing quote, and the text after that. -/
def pieces? : List Char → Option (List Piece × List Char)
  | [] => none
  | '"' :: rest => some ([], rest)
  | '\\' :: 'u' :: a :: b :: c :: d :: rest => do
    let first ← unit? a b c d
    let (later, rest) ← pieces? rest
    return (first :: later, rest)
  | '\\' :: c :: rest => do
    let first ← shortEscape? c
    let (later, rest) ← pieces? rest
    return (.char first :: later, rest)
  | c :: rest =>
    if c.toNat < 0x20 then none
    else (pieces? rest).map fun (later, rest) => (.char c :: later, rest)

/-- The unit is the first half of a surrogate pair. -/
def isHigh (unit : Nat) : Bool := 0xD800 ≤ unit && unit < 0xDC00

/-- The unit is the second half of a surrogate pair. -/
def isLow (unit : Nat) : Bool := 0xDC00 ≤ unit && unit < 0xE000

/-- The text that pieces stand for, if no half of a surrogate pair stands alone. -/
def content : List Piece → Content
  | [] => some []
  | .char c :: later => (content later).map (c :: ·)
  | .unit high :: .unit low :: later =>
    if isHigh high then
      if isLow low then
        let code := 0x10000 + (high - 0xD800) * 0x400 + (low - 0xDC00)
        (content later).map (Char.ofNat code :: ·)
      else none
    else if isLow high then none
    else (content (.unit low :: later)).map (Char.ofNat high :: ·)
  | .unit single :: later =>
    if isHigh single || isLow single then none
    else (content later).map (Char.ofNat single :: ·)

/-- A string after its opening quote, and the text after it. -/
def string? (text : List Char) : Option (Content × List Char) :=
  (pieces? text).map fun (pieces, rest) => (content pieces, rest)

/-! ### Numbers -/

/-- Some decimal digits, and the text after them. -/
def digits? (text : List Char) : Option (List Char × List Char) :=
  match text.takeWhile Char.isDigit with
  | [] => none
  | digits => some (digits, text.dropWhile Char.isDigit)

/-- The natural number that decimal digits stand for. -/
def ofDigits (digits : List Char) : Nat :=
  digits.foldl (fun n c => n * 10 + (c.toNat - 48)) 0

/-- The text after a fraction, and whether there is one; none if it has no digits. -/
def fraction? : List Char → Option (Bool × List Char)
  | '.' :: rest => (digits? rest).map fun (_, rest) => (true, rest)
  | text => some (false, text)

/-- The text after an exponent, and whether there is one; none if it has no digits. -/
def exponent? : List Char → Option (Bool × List Char)
  | c :: text =>
    if c = 'e' ∨ c = 'E' then
      let unsigned := match text with
        | '+' :: rest | '-' :: rest => rest
        | rest => rest
      (digits? unsigned).map fun (_, rest) => (true, rest)
    else some (false, c :: text)
  | [] => some (false, [])

/-- A number, and the text after it. -/
def number? (text : List Char) : Option (Value × List Char) := do
  let (negative, unsigned) := match text with
    | '-' :: rest => (true, rest)
    | rest => (false, rest)
  let (digits, rest) ← digits? unsigned
  if digits.head? = some '0' ∧ digits ≠ ['0'] then none
  else
    let (hasFraction, rest) ← fraction? rest
    let (hasExponent, rest) ← exponent? rest
    if negative || hasFraction || hasExponent then some (.otherNumber, rest)
    else some (.natural (ofDigits digits), rest)

/-! ### Values -/

/-- The text without leading white space. -/
def skip (text : List Char) : List Char :=
  text.dropWhile fun c => c == ' ' || c == '\t' || c == '\n' || c == '\r'

mutual

/-- A value, and the text after it; `depth` bounds the nesting of the reader's steps. -/
def value? : Nat → List Char → Option (Value × List Char)
  | 0, _ => none
  | depth + 1, text =>
    match skip text with
    | 'n' :: 'u' :: 'l' :: 'l' :: rest => some (.null, rest)
    | 't' :: 'r' :: 'u' :: 'e' :: rest => some (.bool true, rest)
    | 'f' :: 'a' :: 'l' :: 's' :: 'e' :: rest => some (.bool false, rest)
    | '"' :: rest => (string? rest).map fun (content, rest) => (.string content, rest)
    | '[' :: rest =>
      match skip rest with
      | ']' :: rest => some (.array [], rest)
      | rest => (items? depth rest).map fun (items, rest) => (.array items, rest)
    | '\x7b' :: rest =>
      match skip rest with
      | '\x7d' :: rest => some (.object [], rest)
      | rest => (members? depth rest).map fun (members, rest) => (.object members, rest)
    | rest => number? rest

/-- The items of an array up to its closing bracket. -/
def items? : Nat → List Char → Option (List Value × List Char)
  | 0, _ => none
  | depth + 1, text => do
    let (first, rest) ← value? depth text
    match skip rest with
    | ',' :: rest =>
      let (later, rest) ← items? depth rest
      return (first :: later, rest)
    | ']' :: rest => return ([first], rest)
    | _ => none

/-- The members of an object up to its closing brace. -/
def members? : Nat → List Char → Option (List (Content × Value) × List Char)
  | 0, _ => none
  | depth + 1, text =>
    match skip text with
    | '"' :: rest => do
      let (key, rest) ← string? rest
      match skip rest with
      | ':' :: rest =>
        let (value, rest) ← value? depth rest
        match skip rest with
        | ',' :: rest =>
          let (later, rest) ← members? depth rest
          return ((key, value) :: later, rest)
        | '\x7d' :: rest => return ([(key, value)], rest)
        | _ => none
      | _ => none
    | _ => none

end

/-- The value that a text is, if it is exactly one value.  Every second step of the reader takes a
character away, so twice the length bounds the nesting of its steps. -/
def read? (text : List Char) : Option Value :=
  match value? (2 * text.length + 2) text with
  | some (value, rest) => if skip rest = [] then some value else none
  | none => none

/-! ### Taking values apart -/

namespace Value

/-- The text of a string. -/
def text? : Value → Option String
  | string (some text) => some (String.ofList text)
  | _ => none

/-- A natural number of at most sixty-four bits. -/
def word? : Value → Option Nat
  | natural n => if n < UInt64.size then some n else none
  | _ => none

/-- The texts of an array of strings. -/
def texts? : Value → Option (List String)
  | array items => items.mapM text?
  | _ => none

/-- A value that may be left out by writing null. -/
def nullable? {α : Type} (read? : Value → Option α) : Value → Option (Option α)
  | null => some none
  | value => (read? value).map some

/-- The values of the named fields, in order.

A record is written as an object, with each field at most once, or as an array of its first fields
in order. An object may have other fields only if `lenient`. -/
def fields? (lenient : Bool) (names : List String) : Value → Option (List (Option Value))
  | object members =>
    let keys := members.map fun member => member.1.map String.ofList
    let named := keys.all fun key => match key with
      | some key => lenient || names.contains key
      | none => false
    if named && names.all fun name => keys.count (some name) ≤ 1 then
      some (names.map fun name => (members.find? fun m => m.1.map String.ofList == some name).map (·.2))
    else none
  | array items =>
    if items.length ≤ names.length then some (names.zipIdx.map fun (_, i) => items[i]?) else none
  | _ => none

end Value

end TexAnchor.Json
