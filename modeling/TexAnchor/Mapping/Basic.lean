import TexAnchor.Path

/-! # Mappings

A `Mapping` says that a visualisation of some kind stems from a line of a source file.  Its identity
is the source file together with its number. -/

namespace TexAnchor

/-- A link from a visualisation to a line of a source file. -/
structure Mapping where
  kind : String
  id : Nat
  sourceFile : Path
  /-- The source line, counted from one. -/
  line : Nat
deriving DecidableEq, Repr, Inhabited

/-- The line on which the matching node starts, counted from zero. -/
def Mapping.nodeLine? (m : Mapping) : Option Nat :=
  if m.line = 0 then none else some (m.line - 1)

end TexAnchor
