import TexAnchor.Arena.Basic
import TexAnchor.Mapping.Basic

/-! # Models

A `Model` is what a renderer gets: the node and the mapping that belong together, and the content
that was read from the node's source. -/

namespace TexAnchor

/-- A cell of a grid: its width, if it has one, and its source. -/
structure GridCell where
  width : Option String
  content : String
deriving DecidableEq, Repr

/-- A row of a grid: its height, if it has one, and its cells. -/
structure GridRow where
  height : Option String
  cells : List GridCell
deriving DecidableEq, Repr

/-- What a model shows. -/
inductive ModelContent
  /-- An image file and its options; an option without value is a flag. -/
  | image (path : String) (options : List (String × Option String))
  /-- A table: its environment, its width if that is given, its columns and its cells by row. -/
  | tabular (environment : String) (width : Option String) (columnSpec : String)
      (rows : List (List String))
  /-- Cells arranged in rows. -/
  | grid (rows : List GridRow)
  /-- Mathematics as it was written, and whether it stands on lines of its own. -/
  | math (source : String) (display : Bool)
deriving DecidableEq, Repr

/-- A node and a mapping that belong together, with the content to show. -/
structure Model where
  kind : String
  sourceFile : Path
  node : NodeId
  /-- Where the node was when the model was made. -/
  range : Range
  mapping : Mapping
  content : ModelContent
deriving DecidableEq, Repr

end TexAnchor
