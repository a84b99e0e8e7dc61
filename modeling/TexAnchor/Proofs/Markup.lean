import Mathlib.Data.List.Chain
import TexAnchor.Grammar.Reader

/-! # Markup with all its tokens

A `Markup` is a piece of markup that still has every token it was read from, and no coordinates.
Two things are defined on it:

* `Markup.trees`, `Markup.forest` — the trees that it is read as when it stands at a given place;
* `Grammar.Produces` — the grammar: which markup is an item of content, and which is a parameter
  block next to a head.  `Grammar.IsContent` is a sequence of items in which no item could have
  taken the first token of the next one.

As nothing in a `Markup` is a coordinate, a part of it can be exchanged without touching the
others. -/

namespace TexAnchor

open Text (Coord)

/-- A piece of markup with its tokens. -/
inductive Markup
  /-- Tokens that belong to no part of the construct around them: delimiters and raw material. -/
  | raw (tokens : List Token)
  /-- The content of a square block, which is divided without regard to its tokens. -/
  | items (tokens : List Token)
  /-- A construct and what it consists of. -/
  | node (kind : NodeKind) (parts : List Markup)
deriving Inhabited

namespace Markup

/-! ### Tokens and text -/

mutual

/-- The tokens of the piece in order. -/
def tokens : Markup → List Token
  | raw ts => ts
  | items ts => ts
  | node _ parts => tokensOf parts

/-- The tokens of some pieces one after another. -/
def tokensOf : List Markup → List Token
  | [] => []
  | m :: ms => m.tokens ++ tokensOf ms

end

/-- The text of the piece. -/
def text (m : Markup) : List Char := Token.textOf m.tokens

/-- The text of some pieces one after another. -/
def textOf (ms : List Markup) : List Char := Token.textOf (tokensOf ms)

/-- The kind of the piece's first token. -/
def firstKind? (m : Markup) : Option TokenKind := m.tokens.head?.map Token.kind

@[simp] theorem tokensOf_nil : tokensOf [] = [] := by simp [tokensOf]

@[simp] theorem tokensOf_cons (m : Markup) (ms : List Markup) :
    tokensOf (m :: ms) = m.tokens ++ tokensOf ms := by simp [tokensOf]

@[simp] theorem tokens_raw (ts : List Token) : (raw ts).tokens = ts := by simp [tokens]

@[simp] theorem tokens_items (ts : List Token) : (items ts).tokens = ts := by simp [tokens]

@[simp] theorem tokens_node (kind : NodeKind) (parts : List Markup) :
    (node kind parts).tokens = tokensOf parts := by simp [tokens]

@[simp] theorem tokensOf_append (a b : List Markup) :
    tokensOf (a ++ b) = tokensOf a ++ tokensOf b := by
  induction a with
  | nil => simp
  | cons m a ih => simp [ih]

theorem textOf_append (a b : List Markup) : textOf (a ++ b) = textOf a ++ textOf b := by
  simp [textOf, Token.textOf]

theorem textOf_cons (m : Markup) (ms : List Markup) : textOf (m :: ms) = m.text ++ textOf ms := by
  simp [textOf, text, Token.textOf]

@[simp] theorem textOf_nil : textOf [] = [] := by simp [textOf, Token.textOf]

@[simp] theorem text_node (kind : NodeKind) (parts : List Markup) :
    (node kind parts).text = textOf parts := by simp [text, textOf]

/-! ### The trees of markup at a place -/

/-- The list of parameters that a text is read as. -/
def parameterList (here : Coord) (text : List Char) : Tree :=
  .node .parameterList ⟨here, here.advance text⟩ (Parameters.items here text)

mutual

/-- The tree of the piece when it starts at `here`; tokens alone have none. -/
def trees (here : Coord) : Markup → List Tree
  | raw _ => []
  | items ts => [parameterList here (Token.textOf ts)]
  | node kind parts => [.node kind ⟨here, here.advance (textOf parts)⟩ (forest here parts)]

/-- The trees of some pieces one after another, the first of which starts at `here`. -/
def forest (here : Coord) : List Markup → List Tree
  | [] => []
  | m :: ms => m.trees here ++ forest (here.advance m.text) ms

end

@[simp] theorem forest_nil (here : Coord) : forest here [] = [] := by simp [forest]

@[simp] theorem forest_cons (here : Coord) (m : Markup) (ms : List Markup) :
    forest here (m :: ms) = m.trees here ++ forest (here.advance m.text) ms := by simp [forest]

@[simp] theorem trees_raw (here : Coord) (ts : List Token) : (raw ts).trees here = [] := by
  simp [trees]

@[simp] theorem trees_items (here : Coord) (ts : List Token) :
    (items ts).trees here = [parameterList here (Token.textOf ts)] := by
  simp [trees]

@[simp] theorem trees_node (here : Coord) (kind : NodeKind) (parts : List Markup) :
    (node kind parts).trees here =
      [.node kind ⟨here, here.advance (textOf parts)⟩ (forest here parts)] := by
  simp [trees]

theorem forest_append (here : Coord) (a b : List Markup) :
    forest here (a ++ b) = forest here a ++ forest (here.advance (textOf a)) b := by
  induction a generalizing here with
  | nil => simp
  | cons m a ih => simp [ih, textOf_cons]

end Markup

/-- The token kinds that open a parameter block next to a head. -/
def TokenKind.opensBlock : TokenKind → Bool
  | lBrace | lBracket => true
  | _ => false

/-- The construct would take a token of this kind if it came next: white space takes more space, and
a command takes parameter blocks. -/
def Markup.takes : Markup → TokenKind → Bool
  | .node (.whitespace _) _, kind => kind.isSpace
  | .node (.command _) _, kind => kind.opensBlock
  | _, _ => false

namespace Markup

variable {m : Markup} {kind : TokenKind}

theorem isSpace_or_opensBlock_of_takes (h : m.takes kind = true) :
    kind.isSpace = true ∨ kind.opensBlock = true := by
  unfold takes at h
  split at h
  exacts [.inl h, .inr h, by cases h]

theorem eq_whitespace_of_takes (hspace : kind.isSpace = true) (h : m.takes kind = true) :
    ∃ newlines parts, m = node (.whitespace newlines) parts := by
  unfold takes at h
  split at h
  · exact ⟨_, _, rfl⟩
  · cases kind <;> simp_all [TokenKind.isSpace, TokenKind.opensBlock]
  · cases h

theorem eq_command_of_takes (hopens : kind.opensBlock = true) (h : m.takes kind = true) :
    ∃ name parts, m = node (.command name) parts := by
  unfold takes at h
  split at h
  · cases kind <;> simp_all [TokenKind.isSpace, TokenKind.opensBlock]
  · exact ⟨_, _, rfl⟩
  · cases h

end Markup

namespace Grammar

/-! ### The grammar -/

/-- Where a construct may stand: on its own, in content, or next to a head. -/
inductive Role
  | document
  | item
  | block
deriving DecidableEq, Repr

/-- `\begin` or `\end` and a name in braces, the name trimmed. -/
inductive IsTag (mark : EnvironmentMark) (name : List Char) : List Token → Prop
  | intro {command opener closer : Token} {inner : List Token} :
    markOf? command = some mark → opener.kind = .lBrace → closer.kind = .rBrace →
    (∀ t ∈ inner, t.kind ≠ .rBrace) → Text.trim (Token.textOf inner) = name →
    IsTag mark name (command :: opener :: (inner ++ [closer]))

/-- The tag `tag` is the first in `content ++ tag` that closes an environment `name`. -/
def IsFirstEnd (name : List Char) (content tag : List Token) : Prop :=
  IsTag .closing name tag ∧ ∀ u w v, content ++ tag = u ++ w ++ v → IsTag .closing name w →
    content.length ≤ u.length

/-- The depth of braces after one more token; a closing brace without a partner leaves it at zero. -/
def depthAfter (depth : Nat) (t : Token) : Nat :=
  match t.kind with
  | .lBrace => depth + 1
  | .rBrace => depth - 1
  | _ => depth

/-- A square bracket behind the tokens, and none before it, is outside all braces; `depth` of them
are open at the start. -/
def EndsOutside (depth : Nat) : List Token → Prop
  | [] => depth = 0
  | t :: ts => (t.kind = .rBracket → depth ≠ 0) ∧ EndsOutside (depthAfter depth t) ts

/-- The token kinds that are symbols on their own. -/
def isSymbolKind : TokenKind → Bool
  | .ampersand | .tilde | .lineBreak | .escapedChar => true
  | _ => false

/-- The token kinds that are text in content. -/
def isTextKind : TokenKind → Bool
  | .text | .lBracket | .rBracket | .stray => true
  | _ => false

/-- The token kinds that open mathematics. -/
def isMathOpener : TokenKind → Bool
  | .dollar | .doubleDollar | .inlineMathOpen | .displayMathOpen => true
  | _ => false

/-- No construct could have taken the first token of the next one. -/
def Follows (m next : Markup) : Prop :=
  ∀ kind ∈ next.firstKind?, m.takes kind = false

/-- No construct of the list could have taken the first token of the next one. -/
def Chained (ms : List Markup) : Prop := ms.IsChain Follows

/-- The body of an environment does not begin with what would be a parameter block. -/
def BeginsBody (body : List Markup) : Prop :=
  ∀ m ∈ body.head?, ∀ kind ∈ m.firstKind?, kind.opensBlock = false

/-- The productions of the grammar. -/
inductive Produces : Role → Markup → Prop
  | document {body : List Markup} : (∀ m ∈ body, Produces .item m) → Chained body →
    Produces .document (.node .latex body)
  | space {run : List Token} : run ≠ [] → (∀ t ∈ run, t.kind.isSpace = true) →
    Produces .item (.node (.whitespace (run.countP (·.kind = .newline))) [.raw run])
  | comment {t : Token} : t.kind = .comment →
    Produces .item (.node (.comment (String.ofList t.text.tail)) [.raw [t]])
  | symbol {t : Token} : isSymbolKind t.kind = true →
    Produces .item (.node (.specialSymbol (String.ofList t.text)) [.raw [t]])
  | text {t : Token} : isTextKind t.kind = true →
    Produces .item (.node (.text (String.ofList t.text)) [.raw [t]])
  | group {opener closer : Token} {body : List Markup} : opener.kind = .lBrace →
    closer.kind = .rBrace → (∀ m ∈ body, Produces .item m) → Chained body →
    Produces .item (.node .group (.raw [opener] :: (body ++ [.raw [closer]])))
  | math {opener closer : Token} {inner : List Token} : isMathOpener opener.kind = true →
    closer.kind = (mathDelimiter opener.kind).1 → (∀ t ∈ inner, t.kind ≠ closer.kind) →
    Produces .item (.node (.math (mathDelimiter opener.kind).2
      (String.ofList (Token.textOf inner))) [.raw (opener :: (inner ++ [closer]))])
  | command {t : Token} {blocks : List Markup} : t.kind = .command → markOf? t = none →
    (∀ m ∈ blocks, Produces .block m) →
    Produces .item (.node (.command (String.ofList t.text.tail)) (.raw [t] :: blocks))
  | environment {name : List Char} {opening closing : List Token} {blocks body : List Markup} :
    IsTag .opening name opening → mathEnvironments.contains (String.ofList name) = false →
    (∀ m ∈ blocks, Produces .block m) → (∀ m ∈ body, Produces .item m) → Chained body →
    BeginsBody body → IsTag .closing name closing →
    Produces .item (.node (.environment (String.ofList name) blocks.length)
      (.raw opening :: (blocks ++ (body ++ [.raw closing]))))
  | mathEnvironment {name : List Char} {opening content closing : List Token} :
    IsTag .opening name opening → mathEnvironments.contains (String.ofList name) = true →
    IsFirstEnd name content closing →
    Produces .item (.node (.math (.environment (String.ofList name))
      (String.ofList (Token.textOf content))) [.raw (opening ++ (content ++ closing))])
  | curlyBlock {opener closer : Token} {body : List Markup} : opener.kind = .lBrace →
    closer.kind = .rBrace → (∀ m ∈ body, Produces .item m) → Chained body →
    Produces .block (.node .curlyBlock (.raw [opener] :: (body ++ [.raw [closer]])))
  | squareBlock {opener closer : Token} {inner : List Token} : opener.kind = .lBracket →
    closer.kind = .rBracket → EndsOutside 0 inner →
    Produces .block (.node .squareBlock [.raw [opener], .items inner, .raw [closer]])

/-- A sequence of items as long as possible each. -/
def IsContent (ms : List Markup) : Prop :=
  (∀ m ∈ ms, Produces .item m) ∧ Chained ms

theorem isContent_nil : IsContent [] := ⟨by simp, List.IsChain.nil⟩

end Grammar

end TexAnchor
