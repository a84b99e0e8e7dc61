import TexAnchor.Text.Coord

/-! # Errors of the grammar

Each error names the token that is responsible: the opener that is never closed, or the token that
cannot stand where it does. -/

namespace TexAnchor

open Text (Coord)

/-- The constructs that can be left open. -/
inductive Construct
  | group
  | environment
  | parameterBlock
  | environmentName
  | mathEnvironment
  | math
deriving DecidableEq, Repr

/-- The construct's name in reports. -/
def Construct.name : Construct → String
  | group => "group"
  | environment => "environment"
  | parameterBlock => "parameter block"
  | environmentName => "environment name"
  | mathEnvironment => "math environment"
  | math => "math"

/-- The two commands that take the name of an environment. -/
inductive EnvironmentMark
  | opening
  | closing
deriving DecidableEq, Repr

/-- The command's name. -/
def EnvironmentMark.name : EnvironmentMark → String
  | opening => "begin"
  | closing => "end"

/-- Why a text is not markup. -/
inductive ParseError
  /-- A construct is opened at `place` and never closed. -/
  | unclosed (what : Construct) (place : Coord)
  /-- The environment `expected` is closed under the name `found`. -/
  | mismatchedEnvironment (expected found : String) (place : Coord)
  /-- A closing token has nothing to close. -/
  | unexpected (token : String) (place : Coord)
  /-- The command `\begin` or `\end` has no name after it. -/
  | missingEnvironmentName (mark : EnvironmentMark) (place : Coord)
deriving DecidableEq, Repr

namespace ParseError

/-- Where the responsible token starts. -/
def place : ParseError → Coord
  | unclosed _ place | mismatchedEnvironment _ _ place | unexpected _ place
  | missingEnvironmentName _ place => place

/-- The report of the error: its place and what is wrong. -/
def message : ParseError → String
  | unclosed what place => s!"{place.render}: unclosed {what.name}"
  | mismatchedEnvironment expected found place =>
    s!"{place.render}: \\end\x7b{found}\x7d does not match \\begin\x7b{expected}\x7d"
  | unexpected token place => s!"{place.render}: unexpected {token}"
  | missingEnvironmentName mark place =>
    s!"{place.render}: missing environment name after \\{mark.name}"

/-- The error with its place moved. -/
def map (f : Coord → Coord) : ParseError → ParseError
  | unclosed what place => unclosed what (f place)
  | mismatchedEnvironment expected found place => mismatchedEnvironment expected found (f place)
  | unexpected token place => unexpected token (f place)
  | missingEnvironmentName mark place => missingEnvironmentName mark (f place)

end ParseError

end TexAnchor
