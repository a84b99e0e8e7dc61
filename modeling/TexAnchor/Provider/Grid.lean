import TexAnchor.Provider.Basic

/-! # Grids

The environment `gridlayout`, made of `row` environments, which are made of `cell` environments.
The first parameter in braces is the height of a row and the width of a cell. -/

namespace TexAnchor.Provider.Grid

/-- The provider's name. -/
def name : String := "gridlayout"

/-- The environments of a name directly in the body of another one. -/
def parts (v : View) (part : String) : List View :=
  v.body.filter fun child => child.kind.environmentName? == some part

/-- The first parameter in braces, if there is one. -/
def size? (s : Subject) (v : View) : Except ProviderError (Option String) :=
  match v.curlyBlocks.head? with
  | some block => (s.argument name block).map some
  | none => .ok none

/-- A cell: its source without the spaces and comments at both ends. -/
def cell (s : Subject) (v : View) : Except ProviderError GridCell :=
  match s.spanText? (trimTrivia v.body) with
  | none => .error (.staleNode name)
  | some content => do return ⟨← size? s v, String.ofList content⟩

/-- A row and its cells. -/
def row (s : Subject) (v : View) : Except ProviderError GridRow := do
  let cells ← (parts v "cell").mapM (cell s)
  return ⟨← size? s v, cells⟩

/-- The rows of the grid. -/
def build (s : Subject) : Except ProviderError (String × ModelContent) :=
  if s.view.kind.environmentName? = some name then do
    return (name, .grid (← (parts s.view "row").mapM (row s)))
  else .error (.unsupportedNode name s.view.kind.describe)

/-- Grids. -/
def provider : Provider where
  name := name
  acceptsMapping := ofKind name
  acceptsNode v := v.kind.environmentName? == some name
  build := build

end TexAnchor.Provider.Grid
