import TexAnchor.Position.Range

/-! # Edits

An `Edit` replaces a range of a text by new text.  `Edit.mapPosition` says where a position lies
once the edit has been made: positions before the edit stay, positions inside the replaced text move
to the end of the new text, and later ones keep their distance from it.  `Edit.mapPosition?` does the
same on words. -/

namespace TexAnchor

open Text (Coord)

/-- The replacement of a range by a text. -/
structure Edit where
  range : Range
  text : List Char
deriving DecidableEq, Repr, Inhabited

namespace Edit

/-- The edit that puts a text in at a position. -/
def insert (place : Position) (text : List Char) : Edit := ⟨Range.empty place, text⟩

/-- Where the new text ends. -/
def newEnd (e : Edit) : Coord := e.range.start.coord.advance e.text

/-- Where a position lies after the edit.

The start of a replaced stretch still begins the new text, but a position where text is merely put
in moves behind it. -/
def mapPosition (e : Edit) (p : Position) : Position :=
  let start := e.range.start.coord
  let oldEnd := e.range.stop.coord
  let here := p.coord
  let lineDelta : Int := e.newEnd.line - oldEnd.line
  if here < start ∨ (here = start ∧ start < oldEnd) then p
  else if here < oldEnd then p.movedTo e.newEnd
  else if here.line = oldEnd.line then
    p.movedTo ⟨e.newEnd.line, e.newEnd.column + (here.column - oldEnd.column)⟩
  else if lineDelta = 0 then p
  else p.movedTo ⟨(here.line + lineDelta).toNat, here.column⟩

/-- Where a range lies after the edit. -/
def mapRange (e : Edit) (r : Range) : Range :=
  ⟨e.mapPosition r.start, e.mapPosition r.stop⟩

end Edit

end TexAnchor
