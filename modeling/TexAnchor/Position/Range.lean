import TexAnchor.Position.Basic

/-! # Ranges

A `Range` runs from one position to another.  `Range.new?` accepts ends in order only and
`Range.spanning` puts them in order; `Range.Ordered` says that they are. -/

namespace TexAnchor

/-- The stretch between two positions. -/
structure Range where
  start : Position
  stop : Position
deriving DecidableEq, Repr, Inhabited

/-- Two positions that were given as a range but are in the wrong order. -/
structure InvalidRange where
  start : Position
  stop : Position
deriving DecidableEq, Repr

/-- The report of a range whose ends are in the wrong order. -/
def InvalidRange.message (e : InvalidRange) : String :=
  s!"invalid range: {e.start.render} is after {e.stop.render}"

namespace Range

/-- The ends of the range are in order. -/
def Ordered (r : Range) : Prop := r.start ≤ r.stop

instance (r : Range) : Decidable r.Ordered := inferInstanceAs (Decidable (r.start ≤ r.stop))

/-- The range between two positions in order. -/
def new? (start stop : Position) : Except InvalidRange Range :=
  if stop < start then .error ⟨start, stop⟩ else .ok ⟨start, stop⟩

/-- The range that covers two positions, whichever comes first. -/
def spanning (p q : Position) : Range :=
  if p ≤ q then ⟨p, q⟩ else ⟨q, p⟩

/-- The empty range at a position. -/
def empty (p : Position) : Range := ⟨p, p⟩

/-- Whether a position lies in the range, both ends included. -/
def contains (r : Range) (p : Position) : Bool :=
  r.start ≤ p && p ≤ r.stop

/-- Whether another range lies in the range. -/
def containsRange (r other : Range) : Bool :=
  r.start ≤ other.start && other.stop ≤ r.stop

/-- Whether both ends are at one place. -/
def isEmpty (r : Range) : Bool :=
  r.start.coord == r.stop.coord

/-- Whether two ranges have the same effective ends. -/
def sameExtent (r other : Range) : Bool :=
  r.start.coord == other.start.coord && r.stop.coord == other.stop.coord

/-- The printed form, `start-stop`. -/
def render (r : Range) : String :=
  s!"{r.start.render}-{r.stop.render}"

theorem ordered_of_new? {p q : Position} {r : Range} (h : new? p q = .ok r) : r.Ordered := by
  unfold new? at h
  split at h
  · cases h
  · next hlt => cases h; exact Text.Coord.not_lt.1 hlt

theorem ordered_spanning (p q : Position) : (spanning p q).Ordered := by
  unfold spanning
  split
  · assumption
  · next h =>
    have h : ¬ p.coord ≤ q.coord := h
    have : q.coord ≤ p.coord := by simp only [Text.Coord.le_def] at *; omega
    exact this

end Range

end TexAnchor
