import TexAnchor.Token.Basic

/-! # Cutting a text into tokens

A token is started by its first character and grows while the next character continues it, so it
is the longest token that starts there; the character that does not continue it starts the next.

* `firstKind` — the kind of token that a character starts;
* `continuedKind?` — the kind of a token that grows by one more character, if it can;
* `tokenize` — all tokens of a text; `textOf_tokenize` says that nothing is lost. -/

namespace TexAnchor

/-- The characters of command names. -/
def isNameChar (c : Char) : Bool :=
  c.isAlpha || c == '@'

/-- The characters with a meaning of their own. -/
def specialChars : List Char :=
  ['\\', '\x7b', '\x7d', '[', ']', '$', '%', '&', '~', ' ', '\t', '\r', '\n']

/-- The characters of plain text: all without a meaning of their own. -/
def isPlain (c : Char) : Bool :=
  !specialChars.contains c

/-- The kind of token that a character starts. -/
def firstKind (c : Char) : TokenKind :=
  match c with
  | ' ' | '\t' => .whitespace
  | '\n' => .newline
  | '%' => .comment
  | '$' => .dollar
  | '\x7b' => .lBrace
  | '\x7d' => .rBrace
  | '[' => .lBracket
  | ']' => .rBracket
  | '&' => .ampersand
  | '~' => .tilde
  | '\\' | '\r' => .stray
  | _ => .text

/-- The kind of token that a backslash and one more character make, if they make one. -/
def escapeKind? (c : Char) : Option TokenKind :=
  match c with
  | '\\' => some .lineBreak
  | '(' => some .inlineMathOpen
  | ')' => some .inlineMathClose
  | '[' => some .displayMathOpen
  | ']' => some .displayMathClose
  | '\r' | '\n' => none
  | _ => if isNameChar c then some .command else some .escapedChar

/-- The kind of a token that ends in `last` after it has grown by one character, if it can.

A star ends a command's name, and a carriage return is only continued by a line feed. -/
def continuedKind? (kind : TokenKind) (last c : Char) : Option TokenKind :=
  match kind with
  | .whitespace => if c = ' ' ∨ c = '\t' then some .whitespace else none
  | .comment => if c = '\n' then none else some .comment
  | .dollar => if c = '$' then some .doubleDollar else none
  | .text => if isPlain c then some .text else none
  | .command => if last ≠ '*' ∧ (isNameChar c ∨ c = '*') then some .command else none
  | .stray => if last = '\r' then (if c = '\n' then some .newline else none) else escapeKind? c
  | _ => none

namespace Token

/-- The token that ends in `last`, with what comes before that, latest first. -/
def ending (kind : TokenKind) (last : Char) (before : List Char) : Token :=
  ⟨kind, (last :: before).reverse⟩

/-- The token that ends in `last` grown as far as the text continues it, and the tokens after it. -/
def grow (kind : TokenKind) (last : Char) (before : List Char) : List Char → List Token
  | [] => [ending kind last before]
  | c :: text =>
    match continuedKind? kind last c with
    | some longer => grow longer c (last :: before) text
    | none => ending kind last before :: grow (firstKind c) c [] text

theorem textOf_cons (t : Token) (tokens : List Token) :
    textOf (t :: tokens) = t.text ++ textOf tokens := rfl

theorem textOf_grow (kind : TokenKind) (last : Char) (before text : List Char) :
    textOf (grow kind last before text) = (last :: before).reverse ++ text := by
  induction text generalizing kind last before with
  | nil => simp [grow, ending, textOf]
  | cons c text ih =>
    unfold grow
    split
    · simp [ih]
    · simp [textOf_cons, ending, ih]

end Token

/-- All tokens of a text, in order. -/
def tokenize : List Char → List Token
  | [] => []
  | c :: text => Token.grow (firstKind c) c [] text

/-- The tokens of a text, put together, are the text. -/
theorem textOf_tokenize (text : List Char) : Token.textOf (tokenize text) = text := by
  cases text with
  | nil => rfl
  | cons c text => simp [tokenize, Token.textOf_grow]

end TexAnchor
