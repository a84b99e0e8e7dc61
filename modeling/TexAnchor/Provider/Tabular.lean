import TexAnchor.Provider.Basic

/-! # Tables

The environments `tabular`, `tabular*` and `tabularx`.  In the body `\\` ends a row and `&` ends a
cell, where they are not nested in anything; horizontal rules belong to no cell. -/

namespace TexAnchor.Provider.Tabular

/-- The provider's name. -/
def name : String := "tabular"

/-- The environments that are tables. -/
def environments : List String := ["tabular", "tabular*", "tabularx"]

/-- The commands that draw lines between rows. -/
def rules : List String := ["hline", "cline", "toprule", "midrule", "bottomrule", "cmidrule"]

/-- What a node of the body does to the table. -/
inductive Mark
  | cellEnd
  | rowEnd
  | rule
  | content
deriving DecidableEq, Repr

/-- The part that a kind of node plays in the body. -/
def markOf (kind : NodeKind) : Mark :=
  match kind with
  | .specialSymbol symbol =>
    if symbol = "&" then .cellEnd else if symbol = "\\\\" then .rowEnd else .content
  | .command command => if rules.contains command then .rule else .content
  | _ => .content

/-- The text of a cell. -/
def cellText (s : Subject) (nodes : List View) : Except ProviderError String :=
  s.trimmedSpan name (trimTrivia nodes)

/-- The rows of a body, given the finished cells of the current row and the nodes of the current
cell.  What follows the last `\\` is a row only if it has a cell or its text is not blank. -/
def rowsFrom (s : Subject) (row : List String) (cell : List View) :
    List View → Except ProviderError (List (List String))
  | [] => do
    let last ← cellText s cell
    if row.isEmpty && last.isEmpty then return [] else return [row ++ [last]]
  | v :: body =>
    match markOf v.kind with
    | .cellEnd => do rowsFrom s (row ++ [← cellText s cell]) [] body
    | .rowEnd => do
      let last ← cellText s cell
      return (row ++ [last]) :: (← rowsFrom s [] [] body)
    | .rule => rowsFrom s row cell body
    | .content => rowsFrom s row (cell ++ [v]) body

/-- The columns are in the last block in braces; if there are more, the first is the width. -/
def build (s : Subject) : Except ProviderError (String × ModelContent) :=
  match s.view.kind.environmentName? with
  | none => .error (.unsupportedNode name s.view.kind.describe)
  | some environment =>
    let blocks := s.view.curlyBlocks
    match blocks.getLast? with
    | none => .error (.missingParameter name "column specification")
    | some columns => do
      let columnSpec ← s.argument name columns
      let width ← match blocks with
        | first :: _ :: _ => (s.argument name first).map some
        | _ => .ok none
      return (name, .tabular environment width columnSpec (← rowsFrom s [] [] s.view.body))

/-- Tables. -/
def provider : Provider where
  name := name
  acceptsMapping := ofKind name
  acceptsNode v := v.kind.environmentName?.any environments.contains
  build := build

end TexAnchor.Provider.Tabular
