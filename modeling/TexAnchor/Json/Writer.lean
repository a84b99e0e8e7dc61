import TexAnchor.Text.Coord

/-! # Writing JSON

`quote` writes a text as a JSON string and `renderNat` a natural number in decimal digits.  Only what
must be escaped is escaped: the quote, the backslash and the control characters, those that have a
short form by that form. -/

namespace TexAnchor.Json

/-- One of the sixteen digits, lower case. -/
def hexDigit (n : Nat) : Char :=
  if n < 10 then Char.ofNat (48 + n) else Char.ofNat (87 + n)

/-- One character as it is written inside quotes. -/
def escape (c : Char) : List Char :=
  match c with
  | '"' => ['\\', '"']
  | '\\' => ['\\', '\\']
  | '\x08' => ['\\', 'b']
  | '\x0c' => ['\\', 'f']
  | '\n' => ['\\', 'n']
  | '\r' => ['\\', 'r']
  | '\t' => ['\\', 't']
  | _ =>
    if c.toNat < 0x20 then ['\\', 'u', '0', '0', hexDigit (c.toNat / 16), hexDigit (c.toNat % 16)]
    else [c]

/-- A text as a JSON string. -/
def quote (text : List Char) : List Char :=
  '"' :: text.flatMap escape ++ ['"']

/-- A natural number in decimal digits. -/
def renderNat (n : Nat) : List Char :=
  Nat.toDigits 10 n

end TexAnchor.Json
