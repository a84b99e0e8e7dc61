import TexAnchor.Position.Shift
import TexAnchor.Text.Coord

/-! # Positions

A `Position` is a place that was recorded once and has drifted since: the initial coordinate never
changes, edits only add to its shift.  Its effective coordinate `Position.coord` is what counts when
positions are compared.

Coordinates have no bound here.  How a position is read and moved on words of 64 bits is said by
`Position.coord?` and the functions next to it, which agree with these where coordinates are less than
`Word.half`. -/

namespace TexAnchor

open Text (Coord)

/-- A recorded place and its drift since then. -/
structure Position where
  initialLine : Nat
  initialColumn : Nat
  shift : Shift
deriving DecidableEq, Repr, Inhabited

namespace Position

/-- The position recorded at a coordinate, without drift. -/
def ofCoord (place : Coord) : Position := ⟨place.line, place.column, Shift.zero⟩

/-- The effective line, at least zero. -/
def line (p : Position) : Nat := (p.initialLine + p.shift.lines).toNat

/-- The effective column, at least zero. -/
def column (p : Position) : Nat := (p.initialColumn + p.shift.columns).toNat

/-- The effective coordinate. -/
def coord (p : Position) : Coord := ⟨p.line, p.column⟩

/-- Positions are ordered by their effective coordinates. -/
instance : LE Position := ⟨fun p q => p.coord ≤ q.coord⟩

instance : LT Position := ⟨fun p q => p.coord < q.coord⟩

instance (p q : Position) : Decidable (p ≤ q) := inferInstanceAs (Decidable (p.coord ≤ q.coord))

instance (p q : Position) : Decidable (p < q) := inferInstanceAs (Decidable (p.coord < q.coord))

/-- The order of two positions, by line and then by column. -/
def compare (p q : Position) : Ordering :=
  if p < q then .lt else if q < p then .gt else .eq

/-- The position with one more shift on top of its drift. -/
def shiftedBy (p : Position) (s : Shift) : Position :=
  { p with shift := p.shift.andThen s }

/-- The shift that moves `p` onto a coordinate.

A shift to another line replaces the columns, so they count from the initial column there, and from
the effective column otherwise. -/
def shiftTo (p : Position) (target : Coord) : Shift :=
  let lines : Int := target.line - p.line
  if lines = 0 then Shift.drift 0 (target.column - p.column)
  else Shift.drift lines (target.column - p.initialColumn)

/-- The position moved onto a coordinate. -/
def movedTo (p : Position) (target : Coord) : Position :=
  p.shiftedBy (p.shiftTo target)

/-- The position recorded anew where it is now. -/
def rebased (p : Position) : Position := ofCoord p.coord

/-- The printed form, `line:column` of the effective coordinate. -/
def render (p : Position) : String := p.coord.render

@[simp] theorem coord_ofCoord (c : Coord) : (ofCoord c).coord = c := by
  simp [coord, line, column, ofCoord, Shift.zero]

end Position

end TexAnchor
