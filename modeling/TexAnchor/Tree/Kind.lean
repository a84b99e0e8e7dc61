import TexAnchor.Text.Quoted

/-! # Kinds of nodes

The closed set of things that markup consists of.  `NodeKind` carries what is particular to a node,
`KindTag` only says which kind it is; both have the names under which kinds are reported. -/

namespace TexAnchor

/-- Which kind a node is, without its particulars. -/
inductive KindTag
  | latex
  | text
  | whitespace
  | comment
  | specialSymbol
  | command
  | environment
  | group
  | math
  | curlyBlock
  | squareBlock
  | parameterList
  | parameter
  | assignment
deriving DecidableEq, Repr, Inhabited

/-- The reported name of a kind. -/
def KindTag.name : KindTag → String
  | latex => "latex"
  | text => "text"
  | whitespace => "whitespace"
  | comment => "comment"
  | specialSymbol => "special-symbol"
  | command => "command"
  | environment => "environment"
  | group => "group"
  | math => "math"
  | curlyBlock => "curly-braces-parameter-block"
  | squareBlock => "square-braces-parameter-block"
  | parameterList => "parameter-list"
  | parameter => "parameter"
  | assignment => "parameter-assignment"

/-- How a piece of mathematics is set off from the text. -/
inductive MathDelimiter
  | dollar
  | doubleDollar
  | parenthesis
  | bracket
  | environment (name : String)
deriving DecidableEq, Repr, Inhabited

namespace MathDelimiter

/-- Whether the mathematics stands on lines of its own. -/
def isDisplay : MathDelimiter → Bool
  | dollar | parenthesis => false
  | _ => true

/-- The delimiter's name in descriptions: an environment goes by its own name. -/
def describe : MathDelimiter → String
  | dollar => "Dollar"
  | doubleDollar => "DoubleDollar"
  | parenthesis => "Parenthesis"
  | bracket => "Bracket"
  | environment name => name

/-- The opening mark; an environment is marked by `env:` and its name. -/
def mark : MathDelimiter → String
  | dollar => "$"
  | doubleDollar => "$$"
  | parenthesis => "\\("
  | bracket => "\\["
  | environment name => "env:" ++ name

end MathDelimiter

/-- What a node is. -/
inductive NodeKind
  /-- The root of a document. -/
  | latex
  /-- A run of characters without spaces or special characters. -/
  | text (content : String)
  /-- Spaces, tabs and line ends, with the number of line ends. -/
  | whitespace (newlines : Nat)
  /-- A comment without its `%`. -/
  | comment (content : String)
  /-- One of `&`, `~`, `\\` or an escaped character such as `\%`. -/
  | specialSymbol (symbol : String)
  /-- A command; its children are the parameter blocks next to it. -/
  | command (name : String)
  /-- An environment; its first children are its parameter blocks, the others its body. -/
  | environment (name : String) (parameterCount : Nat)
  /-- A group in braces of its own. -/
  | group
  /-- Mathematics, kept as it was written. -/
  | math (delimiter : MathDelimiter) (content : String)
  /-- A parameter in braces. -/
  | curlyBlock
  /-- A parameter in square brackets; its only child is the list of what it holds. -/
  | squareBlock
  /-- The items of a square block, which commas separate. -/
  | parameterList
  /-- An item that is a value. -/
  | parameter (value : String)
  /-- An item that gives a value to a key. -/
  | assignment (key value : String)
deriving DecidableEq, Repr, Inhabited

namespace NodeKind

/-- Which kind this is. -/
def tag : NodeKind → KindTag
  | latex => .latex
  | text _ => .text
  | whitespace _ => .whitespace
  | comment _ => .comment
  | specialSymbol _ => .specialSymbol
  | command _ => .command
  | environment _ _ => .environment
  | group => .group
  | math _ _ => .math
  | curlyBlock => .curlyBlock
  | squareBlock => .squareBlock
  | parameterList => .parameterList
  | parameter _ => .parameter
  | assignment _ _ => .assignment

/-- Spaces and comments carry no content. -/
def isTrivia : NodeKind → Bool
  | whitespace _ | comment _ => true
  | _ => false

/-- The name of a command. -/
def commandName? : NodeKind → Option String
  | command name => some name
  | _ => none

/-- The name of an environment. -/
def environmentName? : NodeKind → Option String
  | environment name _ => some name
  | _ => none

/-- A short description for reports. -/
def describe : NodeKind → String
  | text content => "text " ++ Text.quote content
  | whitespace newlines => s!"whitespace ({newlines} newlines)"
  | comment content => "comment " ++ Text.quote content
  | specialSymbol symbol => "special-symbol " ++ symbol
  | command name => "command \\" ++ name
  | environment name _ => "environment " ++ name
  | math delimiter _ => "math (" ++ delimiter.describe ++ ")"
  | parameter value => "parameter " ++ Text.quote value
  | assignment key value => "parameter-assignment " ++ key ++ "=" ++ value
  | kind => kind.tag.name

end NodeKind

end TexAnchor
