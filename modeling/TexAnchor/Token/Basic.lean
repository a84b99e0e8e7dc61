import TexAnchor.Text.Coord

/-! # Tokens

A `Token` is a smallest piece of markup: a run of spaces, a comment, a command name, a delimiter or
a run of plain text.  A `Placed` token also knows where it starts. -/

namespace TexAnchor

open Text (Coord)

/-- The kinds of tokens. -/
inductive TokenKind
  /-- A run of spaces and tabs. -/
  | whitespace
  /-- A line feed, alone or after a carriage return. -/
  | newline
  /-- A `%` and the rest of its line. -/
  | comment
  /-- A name after a backslash, `\name` or `\name*`. -/
  | command
  /-- The line break, `\\`. -/
  | lineBreak
  /-- A backslash and one character that has no other meaning there. -/
  | escapedChar
  /-- The delimiter `$$`. -/
  | doubleDollar
  /-- The delimiter `$`. -/
  | dollar
  /-- The delimiter `\(`. -/
  | inlineMathOpen
  /-- The delimiter `\)`. -/
  | inlineMathClose
  /-- The delimiter `\[`. -/
  | displayMathOpen
  /-- The delimiter `\]`. -/
  | displayMathClose
  | lBrace
  | rBrace
  | lBracket
  | rBracket
  | ampersand
  | tilde
  /-- A run of characters without a meaning of their own. -/
  | text
  /-- One character that starts no token: a carriage return or a backslash without its partner. -/
  | stray
deriving DecidableEq, Repr, Inhabited

namespace TokenKind

/-- Tokens that separate words without printing anything. -/
def isSpace : TokenKind → Bool
  | whitespace | newline => true
  | _ => false

/-- Tokens that carry no content: spaces and comments. -/
def isTrivia : TokenKind → Bool
  | whitespace | newline | comment => true
  | _ => false

end TokenKind

/-- A token: its kind and the text it was read from. -/
structure Token where
  kind : TokenKind
  text : List Char
deriving DecidableEq, Repr, Inhabited

/-- A token and the place where it starts. -/
structure Placed extends Token where
  start : Coord
deriving DecidableEq, Repr, Inhabited

/-- The place just after the token. -/
def Placed.stop (t : Placed) : Coord := t.start.advance t.text

/-- Tokens put one after another from a place on. -/
def Token.placeAll (here : Coord) : List Token → List Placed
  | [] => []
  | t :: tokens => ⟨t, here⟩ :: placeAll (here.advance t.text) tokens

/-- The text that a list of tokens was read from. -/
def Token.textOf (tokens : List Token) : List Char :=
  tokens.flatMap Token.text

end TexAnchor
