import TexAnchor.Grammar.Frame
import TexAnchor.Grammar.Parameters

/-! # Reading markup

Markup is read by a pushdown automaton, one token at a time.

* `step` — what one token does to the stack of open constructs;
* `State.finish` — what the end of the text makes of it;
* `readFrom` — the trees of a text that starts at a given place.

A content is a sequence of items: runs of spaces, comments, symbols, text, groups, mathematics,
commands with the parameter blocks next to them, and environments.  Inside a math environment
tokens are only collected, up to the first `\end` whose name is that of the environment. -/

namespace TexAnchor.Grammar

open Text (Coord)

/-- The environments whose content is mathematics. -/
def mathEnvironments : List String := [
  "equation", "equation*", "align", "align*", "alignat", "alignat*", "flalign", "flalign*",
  "gather", "gather*", "multline", "multline*", "eqnarray", "eqnarray*", "displaymath", "math"]

/-- The text of tokens that were collected latest first. -/
def collected (read : List Token) : List Char :=
  Token.textOf read.reverse

/-- The token is the command `\begin` or `\end`. -/
def markOf? (t : Token) : Option EnvironmentMark :=
  if t.kind = .command then
    if t.text = ['\\', 'b', 'e', 'g', 'i', 'n'] then some .opening
    else if t.text = ['\\', 'e', 'n', 'd'] then some .closing
    else none
  else none

/-- How a math opener delimits its mathematics, and the kind of token that closes it. -/
def mathDelimiter (opener : TokenKind) : TokenKind × MathDelimiter :=
  match opener with
  | .dollar => (.dollar, .dollar)
  | .doubleDollar => (.doubleDollar, .doubleDollar)
  | .inlineMathOpen => (.inlineMathClose, .parenthesis)
  | _ => (.displayMathClose, .bracket)

/-- The tokens are an opening brace and a text without closing brace that trims to `name`. -/
def isBracedName (name : List Char) : List Token → Bool
  | [] => false
  | brace :: inner =>
    brace.kind == .lBrace && inner.all (·.kind != .rBrace) && Text.trim (Token.textOf inner) == name

/-- The tokens before the first `\end` that, with a closing brace after the last token, is
followed by `name` in braces. -/
def contentBeforeEnd? (name : List Char) : List Token → Option (List Token)
  | [] => none
  | t :: tokens =>
    if markOf? t = some .closing ∧ isBracedName name tokens then some []
    else (contentBeforeEnd? name tokens).map (t :: ·)

namespace State

/-- The environment's name after `\begin` or `\end` is complete; `brace` closes it. -/
def named (s : State) (mark : EnvironmentMark) (command : Placed) (name : List Char)
    (brace : Placed) : Except Failure State :=
  match mark with
  | .opening =>
    if mathEnvironments.contains (String.ofList name) then
      .ok { s with reading := .mathEnvironment command name [] }
    else .ok (s.push ⟨.opening (String.ofList name), command.start, brace.stop, []⟩)
  | .closing =>
    match s.top.level, s.below with
    | .body expected count, parent :: below =>
      let found := String.ofList name
      if found = expected then
        .ok ⟨.content, parent.add (s.top.close (.environment expected count) brace.stop), below⟩
      else s.fail (.mismatchedEnvironment expected found command.start)
    | _, _ => s.fail (.unexpected (String.ofList command.text) command.start)

/-- A token of content; no head is on top of the stack. -/
def readItem (s : State) (t : Placed) : Except Failure State :=
  let word := String.ofList t.text
  let unexpected := s.fail (.unexpected word t.start)
  let leaf (kind : NodeKind) := .ok (s.add (Tree.leaf kind t.start t.stop))
  match t.kind with
  | .whitespace | .newline => .ok (s.addSpace t)
  | .comment => leaf (.comment (String.ofList t.text.tail))
  | .text | .lBracket | .rBracket | .stray => leaf (.text word)
  | .ampersand | .tilde | .lineBreak | .escapedChar => leaf (.specialSymbol word)
  | .dollar | .doubleDollar | .inlineMathOpen | .displayMathOpen =>
    .ok { s with reading := .math t [] }
  | .inlineMathClose | .displayMathClose => unexpected
  | .lBrace => .ok (s.push (.opened .group t))
  | .rBrace =>
    match s.top.level, s.below with
    | .group, parent :: below => .ok ⟨.content, parent.add (s.top.close .group t.stop), below⟩
    | .block, head :: below => .ok ⟨.content, head.add (s.top.close .curlyBlock t.stop), below⟩
    | _, _ => unexpected
  | .command =>
    match markOf? t.toToken with
    | some .opening => .ok { s with reading := .beforeName .opening t }
    | some .closing =>
      match s.top.level with
      | .body _ _ => .ok { s with reading := .beforeName .closing t }
      | _ => unexpected
    | none => .ok (s.push (.opened (.command (String.ofList t.text.tail)) t))

/-- A token of content: next to a head a brace or bracket opens a parameter block, and any other
token leaves the head behind. -/
def readContent (s : State) (t : Placed) : Except Failure State :=
  if s.top.level.isHead ∧ t.kind = .lBrace then .ok (s.push (.opened .block t))
  else if s.top.level.isHead ∧ t.kind = .lBracket then .ok { s with reading := .items t 0 [] }
  else s.closeHead.readItem t

end State

/-- A square block: the list of its items between the two brackets. -/
def squareBlock (opener : Placed) (text : List Char) (closer : Placed) : Tree :=
  let list := Tree.node .parameterList ⟨opener.stop, closer.start⟩
    (Parameters.items opener.stop text)
  .node .squareBlock ⟨opener.start, closer.stop⟩ [list]

/-- What one token does. -/
def step (s : State) (t : Placed) : Except Failure State :=
  match s.reading with
  | .content => s.readContent t
  | .math opener read =>
    let (closer, delimiter) := mathDelimiter opener.kind
    if t.kind = closer then
      let content := String.ofList (collected read)
      .ok (s.add (Tree.leaf (.math delimiter content) opener.start t.stop))
    else .ok { s with reading := .math opener (t.toToken :: read) }
  | .items opener depth read =>
    let next := t.toToken :: read
    match t.kind with
    | .lBrace => .ok { s with reading := .items opener (depth + 1) next }
    | .rBrace => .ok { s with reading := .items opener (depth - 1) next }
    | .rBracket =>
      if depth = 0 then .ok (s.add (squareBlock opener (collected read) t))
      else .ok { s with reading := .items opener depth next }
    | _ => .ok { s with reading := .items opener depth next }
  | .beforeName mark command =>
    if t.kind = .lBrace then .ok { s with reading := .name mark command t [] }
    else s.fail (.missingEnvironmentName mark command.start)
  | .name mark command brace read =>
    if t.kind = .rBrace then s.named mark command (Text.trim (collected read)) t
    else .ok { s with reading := .name mark command brace (t.toToken :: read) }
  | .mathEnvironment command name read =>
    let next := { s with reading := .mathEnvironment command name (t.toToken :: read) }
    if t.kind = .rBrace then
      match contentBeforeEnd? name read.reverse with
      | some content =>
        let delimiter := MathDelimiter.environment (String.ofList name)
        let kind := NodeKind.math delimiter (String.ofList (Token.textOf content))
        .ok (s.add (Tree.leaf kind command.start t.stop))
      | none => .ok next
    else .ok next

namespace State

/-- The end of the text: every construct must be closed. -/
def finish (s : State) : Except Failure (List Tree) :=
  match s.reading with
  | .math opener _ => s.fail (.unclosed .math opener.start)
  | .items opener _ _ => s.fail (.unclosed .parameterBlock opener.start)
  | .beforeName mark command => s.fail (.missingEnvironmentName mark command.start)
  | .name _ _ brace _ => s.fail (.unclosed .environmentName brace.start)
  | .mathEnvironment command _ _ => s.fail (.unclosed .mathEnvironment command.start)
  | .content =>
    let s := s.closeHead
    match s.top.level with
    | .root => .ok s.top.parts.reverse
    | .group | .block => s.fail (.unclosed .group s.top.start)
    | _ => s.fail (.unclosed .environment s.top.start)

end State

/-- The trees of a text that starts at `origin`. -/
def readFrom (origin : Coord) (text : List Char) : Except Failure (List Tree) := do
  let s ← (Token.placeAll origin (tokenize text)).foldlM step (State.initial origin)
  s.finish

end TexAnchor.Grammar
