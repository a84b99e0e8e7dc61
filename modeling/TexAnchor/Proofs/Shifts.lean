import TexAnchor.Proofs.EditMapping

/-! # Shifts one after another

`Shift.andThen` is associative although it is no addition: a shift that crosses lines discards the
columns before it, and that some line was crossed is remembered when the lines cancel out.  What it
looks at in a shift are the lines, the columns and whether the shift crosses lines (`Shift.Alike`); up
to that, `Shift.zero` is neutral.  So a sequence of shifts moves a position to one place however it is
grouped (`Shift.andThen_assoc_and_acts`).

A position may drift to a place before the first line or column, which it then shows as zero.  A move
is measured from the place that is shown and made on the drift, so it falls short by what was cut off
(`Position.linesCut`, `Position.columnsCut`), unless it leaves the line, which discards the columns.
It lands on every target exactly from settled positions (`Position.movedTo_lands_iff`). -/

namespace TexAnchor

open Text (Coord)

namespace Shift

/-! ### Composition -/

/-- The two shifts cannot be told apart by shifting: they have the same lines and columns and cross
lines both or not at all, though only one of them may have it on record. -/
structure Alike (s t : Shift) : Prop where
  lines_eq : s.lines = t.lines
  columns_eq : s.columns = t.columns
  crosses_eq : s.crosses = t.crosses

variable {a a' b b' s t : Shift}

theorem Alike.refl (s : Shift) : s.Alike s := ⟨rfl, rfl, rfl⟩

theorem Alike.symm (h : s.Alike t) : t.Alike s :=
  ⟨h.lines_eq.symm, h.columns_eq.symm, h.crosses_eq.symm⟩

theorem Alike.andThen_eq (ha : a.Alike a') (hb : b.Alike b') : a.andThen b = a'.andThen b' := by
  simp only [andThen, ha.lines_eq, ha.columns_eq, ha.crosses_eq, hb.lines_eq, hb.columns_eq,
    hb.crosses_eq]

theorem andThen_assoc (a b c : Shift) : (a.andThen b).andThen c = a.andThen (b.andThen c) := by
  have hcrosses : ((a.andThen b).crosses || c.crosses) = (a.crosses || (b.andThen c).crosses) := by
    rw [crosses_andThen, crosses_andThen, Bool.or_assoc]
  have hcolumns : (if c.crosses then c.columns else (a.andThen b).columns + c.columns) =
      if (b.andThen c).crosses then (b.andThen c).columns else a.columns + (b.andThen c).columns := by
    rw [crosses_andThen]
    -- The last of the shifts that crosses lines discards the columns before it.
    by_cases hc : c.crosses
    · simp [andThen, hc]
    · by_cases hb : b.crosses
      · simp [andThen, hb, hc]
      · simp [andThen, hb, hc, Int.add_assoc]
  rw [andThen, andThen, Shift.mk.injEq]
  exact ⟨Int.add_assoc _ _ _, hcolumns, hcrosses⟩

theorem zero_andThen (s : Shift) : (zero.andThen s).Alike s := by
  refine ⟨Int.zero_add _, ?_, ?_⟩
  · simp [andThen, zero]
  · rw [crosses_andThen]
    rfl

theorem andThen_zero (s : Shift) : (s.andThen zero).Alike s := by
  refine ⟨Int.add_zero _, Int.add_zero _, ?_⟩
  rw [crosses_andThen]
  exact Bool.or_false _

/-! ### Sequences of shifts -/

/-- The shift equivalent to some shifts, taken one after another. -/
def inSequence (shifts : List Shift) : Shift := shifts.foldl andThen zero

/-- A sequence of shifts, put together in some order of composition. -/
inductive Grouping
  | none
  | one (s : Shift)
  | join (earlier later : Grouping)

namespace Grouping

/-- The shifts of the sequence. -/
def shifts : Grouping → List Shift
  | none => []
  | one s => [s]
  | join earlier later => earlier.shifts ++ later.shifts

/-- The single shift that the grouping comes to. -/
def total : Grouping → Shift
  | none => zero
  | one s => s
  | join earlier later => earlier.total.andThen later.total

end Grouping

theorem alike_foldl (s : Shift) (shifts : List Shift) :
    (shifts.foldl andThen s).Alike (s.andThen (inSequence shifts)) := by
  induction shifts generalizing s with
  | nil => exact (andThen_zero s).symm
  | cons t shifts ih =>
    have hrest : s.andThen (inSequence (t :: shifts)) = (s.andThen t).andThen (inSequence shifts) :=
      calc s.andThen (inSequence (t :: shifts))
        _ = s.andThen ((zero.andThen t).andThen (inSequence shifts)) :=
          (Alike.refl s).andThen_eq (ih (zero.andThen t))
        _ = s.andThen (t.andThen (inSequence shifts)) := by
          rw [(zero_andThen t).andThen_eq (Alike.refl _)]
        _ = (s.andThen t).andThen (inSequence shifts) := (andThen_assoc _ _ _).symm
    rw [List.foldl_cons, hrest]
    exact ih (s.andThen t)

theorem Grouping.alike_total (g : Grouping) : g.total.Alike (inSequence g.shifts) := by
  induction g with
  | none => exact Alike.refl zero
  | one s => exact (zero_andThen s).symm
  | join earlier later hearlier hlater =>
    have hshifts : inSequence (earlier.join later).shifts =
        later.shifts.foldl andThen (inSequence earlier.shifts) := List.foldl_append
    have hjoined := alike_foldl (inSequence earlier.shifts) later.shifts
    rw [← hearlier.andThen_eq hlater] at hjoined
    rw [hshifts]
    exact hjoined.symm

end Shift

namespace Position

/-- The two positions were recorded at one place and have drifted alike. -/
structure Alike (p q : Position) : Prop where
  initialLine_eq : p.initialLine = q.initialLine
  initialColumn_eq : p.initialColumn = q.initialColumn
  shift_alike : p.shift.Alike q.shift

theorem Alike.coord_eq {p q : Position} (h : p.Alike q) : p.coord = q.coord := by
  simp only [coord, line, column, h.initialLine_eq, h.initialColumn_eq, h.shift_alike.lines_eq,
    h.shift_alike.columns_eq]

theorem shiftedBy_shiftedBy (p : Position) (a b : Shift) :
    (p.shiftedBy a).shiftedBy b = p.shiftedBy (a.andThen b) := by
  simp only [shiftedBy, Shift.andThen_assoc]

theorem shiftedBy_eq_of_alike (p : Position) {a b : Shift} (h : a.Alike b) :
    p.shiftedBy a = p.shiftedBy b := by
  simp only [shiftedBy, (Shift.Alike.refl p.shift).andThen_eq h]

theorem foldl_shiftedBy (p : Position) (shifts : List Shift) :
    shifts.foldl shiftedBy p = { p with shift := shifts.foldl Shift.andThen p.shift } := by
  induction shifts generalizing p with
  | nil => rfl
  | cons s shifts ih => exact ih (p.shiftedBy s)

/-- Shifting by some shifts one after another is shifting by the shift that they come to. -/
theorem alike_foldl_shiftedBy (p : Position) (shifts : List Shift) :
    (shifts.foldl shiftedBy p).Alike (p.shiftedBy (Shift.inSequence shifts)) := by
  rw [foldl_shiftedBy]
  exact ⟨rfl, rfl, Shift.alike_foldl p.shift shifts⟩

end Position

/-- Composition of shifts is associative, and shifting by a composition is shifting by its parts one
after another; no shift is neutral on both sides.  Hence every grouping of a sequence of shifts moves
a position to one place, with one drift. -/
theorem Shift.andThen_assoc_and_acts :
    (∀ a b c : Shift, (a.andThen b).andThen c = a.andThen (b.andThen c)) ∧
    (∀ (p : Position) (a b : Shift), (p.shiftedBy a).shiftedBy b = p.shiftedBy (a.andThen b)) ∧
    (∀ s : Shift, (zero.andThen s).Alike s ∧ (s.andThen zero).Alike s) ∧
    ∀ (g : Grouping) (p : Position), p.shiftedBy g.total = p.shiftedBy (inSequence g.shifts) ∧
      (g.shifts.foldl Position.shiftedBy p).Alike (p.shiftedBy g.total) ∧
      (g.shifts.foldl Position.shiftedBy p).coord = (p.shiftedBy g.total).coord := by
  refine ⟨andThen_assoc, Position.shiftedBy_shiftedBy,
    fun s => ⟨zero_andThen s, andThen_zero s⟩, fun g p => ?_⟩
  have htotal := p.shiftedBy_eq_of_alike g.alike_total
  have hfolded := p.alike_foldl_shiftedBy g.shifts
  rw [← htotal] at hfolded
  exact ⟨htotal, hfolded, hfolded.coord_eq⟩

/-- Two shifts whose lines cancel out still discard the columns before them. -/
example : (Position.mk 4 7 ⟨0, 3, false⟩).shiftedBy
    (Shift.Grouping.join (.one (.drift 2 5)) (.one (.drift (-2) 1))).total = ⟨4, 7, ⟨0, 1, true⟩⟩ := by
  decide

/-! ### Moving onto a coordinate -/

namespace Position

/-- The position recorded at a place that has drifted by some shifts since. -/
def drifted (place : Coord) (shifts : List Shift) : Position :=
  shifts.foldl shiftedBy (ofCoord place)

/-- By how many lines the position has drifted to before the first one. -/
def linesCut (p : Position) : Nat := (-(p.initialLine + p.shift.lines)).toNat

/-- By how many columns the position has drifted to before the first one. -/
def columnsCut (p : Position) : Nat := (-(p.initialColumn + p.shift.columns)).toNat

theorem settled_iff {p : Position} : p.Settled ↔ p.linesCut = 0 ∧ p.columnsCut = 0 := by
  unfold Settled linesCut columnsCut
  omega

/-- A move falls short of the line by what was cut off. -/
theorem line_movedTo (p : Position) (target : Coord) :
    (p.movedTo target).line = target.line - p.linesCut := by
  have hshown : (p.line : Int) = p.initialLine + p.shift.lines + p.linesCut := by
    unfold line linesCut
    omega
  have hlines : (p.shiftTo target).lines = target.line - p.line := by
    unfold shiftTo
    simp only
    split
    · next hsame => exact hsame.symm
    · rfl
  show (p.initialLine + (p.shift.lines + (p.shiftTo target).lines)).toNat = _
  rw [hlines]
  omega

/-- A move along the line falls short of the column by what was cut off; a move to another line
discards the columns. -/
theorem column_movedTo (p : Position) (target : Coord) :
    (p.movedTo target).column =
      if target.line = p.line then target.column - p.columnsCut else target.column := by
  have hshown : (p.column : Int) = p.initialColumn + p.shift.columns + p.columnsCut := by
    unfold column columnsCut
    omega
  unfold column movedTo shiftedBy shiftTo
  simp only
  by_cases hline : target.line = p.line
  · have hzero : (target.line : Int) - p.line = 0 := by omega
    rw [if_pos hzero, if_pos hline]
    simp only [Shift.andThen, Shift.drift, Shift.crosses, bne_self_eq_false, Bool.or_self,
      Bool.false_eq_true, if_false]
    omega
  · have hne : (target.line : Int) - p.line ≠ 0 := by omega
    have hcrosses : ((target.line : Int) - p.line != 0) = true := bne_iff_ne.mpr hne
    rw [if_neg hne, if_neg hline]
    simp only [Shift.andThen, Shift.drift, Shift.crosses, hcrosses, Bool.true_or, if_true]
    omega

theorem coord_movedTo (p : Position) (target : Coord) :
    (p.movedTo target).coord = ⟨target.line - p.linesCut,
      if target.line = p.line then target.column - p.columnsCut else target.column⟩ := by
  rw [coord, line_movedTo, column_movedTo]

theorem coord_movedTo_eq_iff (p : Position) (target : Coord) : (p.movedTo target).coord = target ↔
    (p.linesCut = 0 ∨ target.line = 0) ∧
      (p.columnsCut = 0 ∨ target.line ≠ p.line ∨ target.column = 0) := by
  obtain ⟨line, column⟩ := target
  rw [coord_movedTo, Coord.mk.injEq]
  refine and_congr (by simp only; omega) ?_
  simp only
  split <;> omega

theorem forall_coord_movedTo_eq_iff (p : Position) :
    (∀ target, (p.movedTo target).coord = target) ↔ p.Settled := by
  refine ⟨fun h => ?_, fun h target => (movedTo_spec h target).2⟩
  have hline := ((coord_movedTo_eq_iff p ⟨1, 0⟩).mp (h _)).1
  have hcolumn := ((coord_movedTo_eq_iff p ⟨p.line, 1⟩).mp (h _)).2
  refine settled_iff.mpr ⟨?_, ?_⟩
  · simpa using hline
  · simpa using hcolumn

/-- Moving a position that has drifted keeps the place where it was recorded.  It lands on its target
but for the lines, and on the same line the columns, that the drift was cut off by; so it lands on
every target exactly if the position is settled. -/
theorem movedTo_lands_iff (place : Coord) (shifts : List Shift) :
    let p := drifted place shifts
    (∀ target,
      let moved := p.movedTo target
      moved.initialLine = place.line ∧ moved.initialColumn = place.column ∧
      moved.coord = ⟨target.line - p.linesCut,
        if target.line = p.line then target.column - p.columnsCut else target.column⟩ ∧
      (moved.coord = target ↔ (p.linesCut = 0 ∨ target.line = 0) ∧
        (p.columnsCut = 0 ∨ target.line ≠ p.line ∨ target.column = 0))) ∧
    ((∀ target, (p.movedTo target).coord = target) ↔ p.Settled) := by
  intro p
  have hplace : p = { ofCoord place with shift := shifts.foldl Shift.andThen Shift.zero } :=
    foldl_shiftedBy _ _
  refine ⟨fun target => ⟨?_, ?_, p.coord_movedTo target, p.coord_movedTo_eq_iff target⟩,
    p.forall_coord_movedTo_eq_iff⟩
  · exact congrArg initialLine hplace
  · exact congrArg initialColumn hplace

/-- A position that has drifted to two columns before its line is moved along that line, and stops two
columns before its target. -/
theorem movedTo_short_of_column :
    let p := drifted ⟨0, 0⟩ [.drift 1 (-2)]
    p.coord = ⟨1, 0⟩ ∧ (p.movedTo ⟨1, 5⟩).coord = ⟨1, 3⟩ ∧ (p.movedTo ⟨1, 5⟩).coord ≠ ⟨1, 5⟩ := by
  decide

end Position

end TexAnchor
