import TexAnchor.Position.Edit

/-! # Positions on words

`Coord`, `Shift`, `Position` and `Edit` calculate with all numbers.  The functions of this module
calculate with words of 64 bits: coordinates are unsigned words and drifts are signed ones.

* A sum or difference that its word cannot hold breaks the calculation off, and there is no result
  (`Word.signed?`, `Word.unsigned?`).
* A word that is taken for one of the other sign keeps its bits (`Word.asSigned`, `Word.asUnsigned`),
  so a coordinate from `Word.half` on counts as negative.

`Edit.mapPosition?` is the move of a position by an edit, `Position.ofByte?` the place of an offset in a
text that starts at a given place.  Where every coordinate is less than `Word.half` they are
`Edit.mapPosition` and `Text.coordAtByte?`. -/

namespace TexAnchor

open Text (Coord)

namespace Word

/-- The first number that a signed word cannot hold. -/
def half : Nat := 0x8000000000000000

/-- The number as a signed word; none if it overflows. -/
def signed? (x : Int) : Option Int := if -half ≤ x ∧ x < half then some x else none

/-- The number as an unsigned word; none if it overflows. -/
def unsigned? (n : Nat) : Option Nat := if n < 2 * half then some n else none

/-- An unsigned word taken for a signed one. -/
def asSigned (n : Nat) : Int := if n < half then n else n - 2 * half

/-- A signed word taken for an unsigned one. -/
def asUnsigned (x : Int) : Nat := if 0 ≤ x then x.toNat else (x + 2 * half).toNat

end Word

/-- `Shift.andThen` on words. -/
def Shift.andThen? (s next : Shift) : Option Shift := do
  let columns ← if next.crosses then some next.columns else Word.signed? (s.columns + next.columns)
  let lines ← Word.signed? (s.lines + next.lines)
  return ⟨lines, columns, s.crosses || next.crosses⟩

namespace Position

/-- The effective line on words. -/
def line? (p : Position) : Option Nat := do
  let line ← Word.signed? (Word.asSigned p.initialLine + p.shift.lines)
  return line.toNat

/-- The effective column on words. -/
def column? (p : Position) : Option Nat := do
  let column ← Word.signed? (Word.asSigned p.initialColumn + p.shift.columns)
  return column.toNat

/-- The effective coordinate on words. -/
def coord? (p : Position) : Option Coord := do
  return ⟨← p.line?, ← p.column?⟩

/-- `Position.compare` on words; the columns are only read on one line. -/
def compare? (p q : Position) : Option Ordering := do
  let line ← p.line?
  let other ← q.line?
  if line = other then
    let column ← p.column?
    let otherColumn ← q.column?
    return Ord.compare column otherColumn
  else return Ord.compare line other

/-- `Position.shiftedBy` on words. -/
def shiftedBy? (p : Position) (s : Shift) : Option Position := do
  let shift ← p.shift.andThen? s
  return { p with shift }

/-- `Position.shiftTo` on words. -/
def shiftTo? (p : Position) (target : Coord) : Option Shift := do
  let line ← p.line?
  let lines ← Word.signed? (Word.asSigned target.line - Word.asSigned line)
  if lines = 0 then
    let column ← p.column?
    let columns ← Word.signed? (Word.asSigned target.column - Word.asSigned column)
    return .drift 0 columns
  else
    let columns ← Word.signed? (Word.asSigned target.column - Word.asSigned p.initialColumn)
    return .drift lines columns

/-- `Position.movedTo` on words. -/
def movedTo? (p : Position) (target : Coord) : Option Position := do
  p.shiftedBy? (← p.shiftTo? target)

/-- `Position.rebased` on words. -/
def rebased? (p : Position) : Option Position := do
  return ofCoord (← p.coord?)

/-- The position of a byte offset in a text that starts at `origin`.

There is none if the offset is inside a character or the coordinate does not fit a word. -/
def ofByte? (origin : Coord) (text : List Char) (offset : Nat) : Option Position := do
  let place ← Text.coordAtByte? origin text offset
  let line ← Word.unsigned? place.line
  let column ← Word.unsigned? place.column
  return ofCoord ⟨line, column⟩

end Position

namespace Range

/-- `Range.new?` on words. -/
def make? (start stop : Position) : Option (Except InvalidRange Range) := do
  let order ← start.compare? stop
  return if order = .gt then .error ⟨start, stop⟩ else .ok ⟨start, stop⟩

/-- `Range.spanning` on words. -/
def spanning? (p q : Position) : Option Range := do
  let order ← p.compare? q
  return if order = .gt then ⟨q, p⟩ else ⟨p, q⟩

end Range

namespace Edit

/-- `Edit.newEnd` on words. -/
def newEnd? (e : Edit) : Option Coord := do
  let line ← e.range.start.line?
  if '\n' ∈ e.text then
    let line ← Word.unsigned? (line + e.text.count '\n')
    return ⟨line, (Coord.zero.advance e.text).column⟩
  else
    let column ← e.range.start.column?
    let column ← Word.unsigned? (column + e.text.length)
    return ⟨line, column⟩

/-- Whether the edit leaves the position where it is: before the edit, and at the start of a stretch
that is replaced. -/
def leaves? (e : Edit) (p : Position) : Option Bool := do
  match ← p.compare? e.range.start with
  | .lt => return true
  | .eq =>
    let order ← e.range.start.compare? e.range.stop
    return order = .lt
  | .gt => return false

/-- Where a position goes that is not before the end of what is replaced. -/
def moveBehind? (e : Edit) (newEnd : Coord) (p : Position) : Option Position := do
  let line ← p.line?
  let oldLine ← e.range.stop.line?
  let lineDelta ← Word.signed? (Word.asSigned newEnd.line - Word.asSigned oldLine)
  if line = oldLine then
    let column ← p.column?
    let oldColumn ← e.range.stop.column?
    let target ← Word.unsigned? (newEnd.column + (column - oldColumn))
    p.movedTo? ⟨newEnd.line, target⟩
  else if lineDelta = 0 then return p
  else
    let target ← Word.signed? (Word.asSigned line + lineDelta)
    let column ← p.column?
    p.movedTo? ⟨Word.asUnsigned target, column⟩

/-- `Edit.mapPosition` on words. -/
def mapPosition? (e : Edit) (p : Position) : Option Position := do
  let newEnd ← e.newEnd?
  if ← e.leaves? p then return p
  else
    let order ← p.compare? e.range.stop
    if order = .lt then p.movedTo? newEnd else e.moveBehind? newEnd p

/-- `Edit.mapRange` on words. -/
def mapRange? (e : Edit) (r : Range) : Option Range := do
  return ⟨← e.mapPosition? r.start, ← e.mapPosition? r.stop⟩

end Edit

end TexAnchor
