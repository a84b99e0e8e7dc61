import TexAnchor.Proofs.Changes

/-! # Positions under edits in order

An edit in order moves positions without exchanging them (`Edit.mapPosition_le_mapPosition`).  It only
adds to their drift: the recorded coordinate stays, and a settled position stays settled
(`Position.Keeps`).  So a range stays in order through any sequence of edits that are in order
themselves (`Range.Settled.ordered_through`), although `Edit.mapRange` does not look at the order of
its ends. -/

namespace TexAnchor

open Text (Coord)

namespace Position

/-- The other position is settled and was recorded where this one was. -/
structure Keeps (p other : Position) : Prop where
  initialLine_eq : other.initialLine = p.initialLine
  initialColumn_eq : other.initialColumn = p.initialColumn
  settled : other.Settled

theorem keeps_movedTo {p : Position} (h : p.Settled) (target : Coord) : p.Keeps (p.movedTo target) :=
  ⟨rfl, rfl, (movedTo_spec h target).1⟩

end Position

namespace Edit

variable {e : Edit} {p q : Position}

theorem keeps_mapPosition (e : Edit) (h : p.Settled) : p.Keeps (e.mapPosition p) := by
  have hsame : p.Keeps p := ⟨rfl, rfl, h⟩
  unfold mapPosition
  simp only
  split
  · exact hsame
  split
  · exact Position.keeps_movedTo h _
  split
  · exact Position.keeps_movedTo h _
  split
  · exact hsame
  · exact Position.keeps_movedTo h _

theorem mapPosition_le_mapPosition (he : e.range.Ordered) (hp : p.Settled) (hq : q.Settled)
    (hle : p ≤ q) : e.mapPosition p ≤ e.mapPosition q := by
  show (e.mapPosition p).coord ≤ (e.mapPosition q).coord
  rw [e.coord_mapPosition hp, e.coord_mapPosition hq]
  exact mapCoord_mono he hle

/-- Positions that are equal stay so, however they have come to be at one place. -/
theorem coord_mapPosition_eq (e : Edit) (hp : p.Settled) (hq : q.Settled) (h : p.coord = q.coord) :
    (e.mapPosition p).coord = (e.mapPosition q).coord := by
  rw [e.coord_mapPosition hp, e.coord_mapPosition hq, h]

end Edit

namespace Range

/-- Where a range lies after some edits, one after the other. -/
def through (r : Range) (edits : List Edit) : Range :=
  edits.foldl (fun r e => e.mapRange r) r

theorem Settled.ordered_through {r : Range} (h : r.Settled) (hordered : r.Ordered)
    {edits : List Edit} (hedits : ∀ e ∈ edits, e.range.Ordered) :
    (r.through edits).Settled ∧ (r.through edits).Ordered := by
  induction edits generalizing r with
  | nil => exact ⟨h, hordered⟩
  | cons e edits ih =>
    have hmapped : (e.mapRange r).Settled :=
      ⟨e.settled_mapPosition h.1, e.settled_mapPosition h.2⟩
    have hmapped_ordered : (e.mapRange r).Ordered :=
      Edit.mapPosition_le_mapPosition (hedits e (by simp)) h.1 h.2 hordered
    exact ih hmapped hmapped_ordered fun other hother => hedits other (by simp [hother])

end Range

end TexAnchor
