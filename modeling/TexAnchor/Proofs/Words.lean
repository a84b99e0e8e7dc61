import TexAnchor.Document.Word
import TexAnchor.Proofs.Drift
import TexAnchor.Proofs.Lookup

/-! # Positions within a word

Where every coordinate is less than `Word.half`, words are calculated with as all numbers are.
A settled position that was recorded at such a place and has drifted to such a place
(`Position.Fits`) is read where it is, it is moved to such places as `Position.movedTo` says, and an edit
whose ends are read where they are (`Edit.Legible`) moves it as `Edit.mapPosition` says
(`Edit.mapPosition?_eq`).  So there the edit mapping is monotone (`Edit.mapPosition?_monotone`).

Nothing keeps the coordinates of an edit so small: one that starts far behind the end of its line moves
positions behind it to columns that count as negative, and exchanges them
(`Edit.mapPosition?_farColumn`). -/

namespace TexAnchor

open Text (Coord)

/-! ### Words -/

namespace Word

variable {x : Int} {n : Nat}

theorem signed?_eq_some_iff {y : Int} : signed? x = some y ↔ (-half ≤ x ∧ x < half) ∧ x = y := by
  unfold signed?
  split
  · next h => simp [h]
  · next h => simp [h]

theorem signed?_eq (hlower : -half ≤ x) (hupper : x < half) : signed? x = some x :=
  if_pos ⟨hlower, hupper⟩

theorem unsigned?_eq (h : n < half) : unsigned? n = some n :=
  if_pos (by omega)

theorem asSigned_eq (h : n < half) : asSigned n = n :=
  if_pos h

theorem asUnsigned_eq (h : 0 ≤ x) : asUnsigned x = x.toNat :=
  if_pos h

theorem signed?_add {drift : Int} (hn : n < half) (hnonneg : 0 ≤ n + drift)
    (hfits : (n + drift).toNat < half) : signed? (asSigned n + drift) = some (n + drift) := by
  rw [asSigned_eq hn]
  exact signed?_eq (by omega) (by omega)

theorem signed?_sub {m : Nat} (hn : n < half) (hm : m < half) :
    signed? (asSigned n - asSigned m) = some ((n : Int) - m) := by
  rw [asSigned_eq hn, asSigned_eq hm]
  exact signed?_eq (by omega) (by omega)

end Word

open Word (half)

/-- Line and column are less than `half`. -/
def Text.Coord.Fits (c : Coord) : Prop := c.line < half ∧ c.column < half

instance (c : Coord) : Decidable c.Fits := inferInstanceAs (Decidable (_ ∧ _))

namespace Position

variable {p q : Position} {target : Coord}

/-- The position is settled, and the places where it was recorded and where it has drifted to fit. -/
structure Fits (p : Position) : Prop where
  settled : p.Settled
  recorded : Coord.Fits ⟨p.initialLine, p.initialColumn⟩
  coord : p.coord.Fits

instance (p : Position) : Decidable p.Settled := inferInstanceAs (Decidable (_ ∧ _))

instance (p : Position) : Decidable p.Fits :=
  decidable_of_iff (p.Settled ∧ Coord.Fits ⟨p.initialLine, p.initialColumn⟩ ∧ p.coord.Fits)
    ⟨fun ⟨hsettled, hinitial, hcoord⟩ => ⟨hsettled, hinitial, hcoord⟩,
      fun ⟨hsettled, hinitial, hcoord⟩ => ⟨hsettled, hinitial, hcoord⟩⟩

/-- On words the position is read where it is. -/
def Legible (p : Position) : Prop := p.coord? = some p.coord

instance (p : Position) : Decidable p.Legible := inferInstanceAs (Decidable (_ = _))

theorem fits_ofCoord (h : target.Fits) : (ofCoord target).Fits :=
  ⟨settled_ofCoord target, h, by rwa [coord_ofCoord]⟩

theorem coord?_eq_some_iff {c : Coord} :
    p.coord? = some c ↔ p.line? = some c.line ∧ p.column? = some c.column := by
  obtain ⟨line, column⟩ := c
  unfold coord?
  cases hline : p.line? with
  | none => simp
  | some line =>
    cases hcolumn : p.column? with
    | none => simp
    | some column => simp

theorem legible_iff : p.Legible ↔ p.line? = some p.line ∧ p.column? = some p.column :=
  coord?_eq_some_iff

theorem Fits.legible (h : p.Fits) : p.Legible := by
  obtain ⟨⟨hline, hcolumn⟩, ⟨hrecordedLine, hrecordedColumn⟩, hlineFits, hcolumnFits⟩ := h
  rw [legible_iff, line?, column?, Word.signed?_add hrecordedLine hline hlineFits,
    Word.signed?_add hrecordedColumn hcolumn hcolumnFits]
  exact ⟨rfl, rfl⟩

theorem compare?_of_coord? {c d : Coord} (hp : p.coord? = some c) (hq : q.coord? = some d) :
    p.compare? q = some (if c < d then .lt else if d < c then .gt else .eq) := by
  obtain ⟨hpline, hpcolumn⟩ := coord?_eq_some_iff.mp hp
  obtain ⟨hqline, hqcolumn⟩ := coord?_eq_some_iff.mp hq
  simp only [compare?, hpline, hqline, hpcolumn, hqcolumn, Option.bind_eq_bind, Option.bind_some,
    Coord.lt_def]
  split
  · next hline =>
    simp only [hline, Nat.compare_eq_ite_lt, Nat.lt_irrefl, true_and, false_or]
    rfl
  · next hline =>
    have hline' : d.line ≠ c.line := Ne.symm hline
    simp only [hline, hline', Nat.compare_eq_ite_lt, false_and, or_false]
    rfl

theorem compare?_eq (hp : p.Legible) (hq : q.Legible) : p.compare? q = some (p.compare q) :=
  compare?_of_coord? hp hq

theorem compare_eq_lt_iff : p.compare q = .lt ↔ p.coord < q.coord := by
  unfold Position.compare
  split
  · next h => exact iff_of_true rfl h
  · next h => exact iff_of_false (by split <;> simp) h

theorem compare_eq_eq_iff : p.compare q = .eq ↔ p.coord = q.coord := by
  unfold Position.compare
  show (if p.coord < q.coord then _ else if q.coord < p.coord then _ else _) = _ ↔ _
  split
  · next h => exact iff_of_false (by simp) (Coord.ne_of_lt h)
  · split
    · next h => exact iff_of_false (by simp) (Coord.ne_of_lt h).symm
    · next h h' => exact iff_of_true rfl (Coord.le_antisymm (Coord.not_lt.mp h') (Coord.not_lt.mp h))

theorem compare_eq_gt_iff : p.compare q = .gt ↔ q.coord < p.coord := by
  unfold Position.compare
  show (if p.coord < q.coord then _ else if q.coord < p.coord then _ else _) = _ ↔ _
  split
  · next h => exact iff_of_false (by simp) fun h' => Coord.not_lt.mpr (Coord.le_of_lt h) h'
  · split
    · next h => exact iff_of_true rfl h
    · next h => exact iff_of_false (by simp) h

/-- A drift to a place that fits, on top of the drift so far, is measured and added without
overflow. -/
theorem movedTo?_eq (hp : p.Fits) (htarget : target.Fits) :
    p.movedTo? target = some (p.movedTo target) := by
  obtain ⟨hline?, hcolumn?⟩ := legible_iff.mp hp.legible
  obtain ⟨⟨hline, hcolumn⟩, ⟨hinitialLine, hinitialColumn⟩, hcurrentLine, hcurrentColumn⟩ := hp
  obtain ⟨htargetLine, htargetColumn⟩ := htarget
  change p.initialLine < half at hinitialLine
  change p.initialColumn < half at hinitialColumn
  change p.line < half at hcurrentLine
  change p.column < half at hcurrentColumn
  have hdrift : (p.line : Int) = p.initialLine + p.shift.lines := Int.toNat_of_nonneg hline
  have hdrift' : (p.column : Int) = p.initialColumn + p.shift.columns := Int.toNat_of_nonneg hcolumn
  have hlines : Word.signed? (p.shift.lines + ((target.line : Int) - p.line)) =
      some (p.shift.lines + ((target.line : Int) - p.line)) := Word.signed?_eq (by omega) (by omega)
  have hcolumns : Word.signed? (p.shift.columns + ((target.column : Int) - p.column)) =
      some (p.shift.columns + ((target.column : Int) - p.column)) :=
    Word.signed?_eq (by omega) (by omega)
  have hzero : Word.signed? (p.shift.lines + 0) = some (p.shift.lines + 0) :=
    Word.signed?_eq (by omega) (by omega)
  simp only [movedTo?, shiftTo?, hline?, hcolumn?, Word.signed?_sub htargetLine hcurrentLine,
    Word.signed?_sub htargetColumn hcurrentColumn, Word.signed?_sub htargetColumn hinitialColumn,
    movedTo, shiftTo, Option.bind_eq_bind, Option.bind_some]
  by_cases hsame : (target.line : Int) - p.line = 0
  · simp only [hsame, if_true, Option.pure_def, Option.bind_some, shiftedBy?, Shift.andThen?,
      Shift.drift, Shift.crosses, bne_self_eq_false, Bool.or_self, Bool.false_eq_true, if_false, hzero,
      hcolumns, Option.bind_eq_bind, shiftedBy, Shift.andThen]
  · have hcrosses : ((target.line : Int) - p.line != 0) = true := bne_iff_ne.mpr hsame
    simp only [hsame, if_false, Option.pure_def, Option.bind_some, shiftedBy?, Shift.andThen?,
      Shift.drift, Shift.crosses, hcrosses, Bool.true_or, if_true, hlines, Option.bind_eq_bind,
      shiftedBy, Shift.andThen]

end Position

/-! ### Edits -/

/-- Both ends fit. -/
def Range.Fits (r : Range) : Prop := r.start.Fits ∧ r.stop.Fits

instance (r : Range) : Decidable r.Fits := inferInstanceAs (Decidable (_ ∧ _))

namespace Edit

variable {e : Edit} {p q : Position}

/-- The ends of the edit are read where they are, and the place where the new text ends fits. -/
structure Fits (e : Edit) : Prop where
  start : e.range.start.Legible
  stop : e.range.stop.Legible
  newEnd : e.newEnd.Fits

theorem newEnd?_eq (he : e.Fits) : e.newEnd? = some e.newEnd := by
  obtain ⟨hline?, hcolumn?⟩ := Position.legible_iff.mp he.start
  have hline : e.newEnd.line = e.range.start.line + e.text.count '\n' :=
    Coord.line_advance e.range.start.coord e.text
  have hlineFits := he.newEnd.1
  have hcolumnFits := he.newEnd.2
  rw [newEnd?, hline?, hcolumn?]
  simp only [Option.bind_eq_bind, Option.bind_some, Option.pure_def]
  split
  · next hfeed =>
    have hcolumn : (Coord.zero.advance e.text).column = e.newEnd.column :=
      (Coord.column_advance_eq_iff e.text).mpr (.inl hfeed)
    rw [← hline, Word.unsigned?_eq hlineFits, Option.bind_some, hcolumn]
  · next hfeed =>
    have hcoord : e.newEnd = ⟨e.range.start.line, e.range.start.column + e.text.length⟩ :=
      Text.advance_of_not_mem hfeed e.range.start.coord
    rw [hcoord] at hcolumnFits ⊢
    rw [Word.unsigned?_eq hcolumnFits, Option.bind_some]

theorem leaves?_eq (he : e.Fits) (hp : p.Legible) :
    e.leaves? p = some (decide (p.coord < e.range.start.coord ∨
      p.coord = e.range.start.coord ∧ e.range.start.coord < e.range.stop.coord)) := by
  rw [leaves?, Position.compare?_eq hp he.start, Position.compare?_eq he.start he.stop]
  simp only [Option.bind_eq_bind, Option.bind_some, Option.pure_def]
  cases horder : p.compare e.range.start with
  | lt => simp [Position.compare_eq_lt_iff.mp horder]
  | eq => simp [Position.compare_eq_eq_iff.mp horder, Coord.lt_irrefl, Position.compare_eq_lt_iff]
  | gt =>
    have hgt := Position.compare_eq_gt_iff.mp horder
    simp [Coord.not_lt.mpr (Coord.le_of_lt hgt), (Coord.ne_of_lt hgt).symm]

theorem moveBehind?_of_line_eq (he : e.Fits) (hp : p.Fits) (hline : p.line = e.range.stop.line)
    (htarget : Coord.Fits ⟨e.newEnd.line, e.newEnd.column + (p.column - e.range.stop.column)⟩) :
    e.moveBehind? e.newEnd p =
      some (p.movedTo ⟨e.newEnd.line, e.newEnd.column + (p.column - e.range.stop.column)⟩) := by
  obtain ⟨hline?, hcolumn?⟩ := Position.legible_iff.mp hp.legible
  obtain ⟨hstopLine?, hstopColumn?⟩ := Position.legible_iff.mp he.stop
  have hstopLine : e.range.stop.line < half := hline ▸ hp.coord.1
  rw [moveBehind?, hline?, hstopLine?, hcolumn?, hstopColumn?]
  simp only [Option.bind_eq_bind, Option.bind_some, Word.signed?_sub he.newEnd.1 hstopLine, hline,
    if_true, Word.unsigned?_eq htarget.2]
  exact Position.movedTo?_eq hp htarget

theorem moveBehind?_of_line_lt (he : e.Fits) (hp : p.Fits) (hline : e.range.stop.line < p.line)
    (htarget : Coord.Fits ⟨p.line + e.newEnd.line - e.range.stop.line, p.column⟩) :
    e.moveBehind? e.newEnd p =
      some (if (e.newEnd.line : Int) - e.range.stop.line = 0 then p
        else p.movedTo ⟨p.line + e.newEnd.line - e.range.stop.line, p.column⟩) := by
  obtain ⟨hline?, hcolumn?⟩ := Position.legible_iff.mp hp.legible
  obtain ⟨hstopLine?, -⟩ := Position.legible_iff.mp he.stop
  have hpLine : p.line < half := hp.coord.1
  have htargetLine : p.line + e.newEnd.line - e.range.stop.line < half := htarget.1
  have hsum : (p.line : Int) + (e.newEnd.line - e.range.stop.line) =
      (p.line + e.newEnd.line - e.range.stop.line : Nat) := by omega
  rw [moveBehind?, hline?, hstopLine?, hcolumn?]
  simp only [Option.bind_eq_bind, Option.bind_some, Nat.ne_of_gt hline, if_false,
    Word.signed?_sub he.newEnd.1 (Nat.lt_trans hline hpLine), Word.asSigned_eq hpLine, hsum,
    Word.signed?_eq (Int.le_trans (by omega) (Int.natCast_nonneg _)) (Int.ofNat_lt.mpr htargetLine),
    Word.asUnsigned_eq (Int.natCast_nonneg _), Int.toNat_natCast, Position.movedTo?_eq hp htarget]
  split
  · rfl
  · rfl

/-- Where its coordinates fit, an edit moves a position as with all numbers. -/
theorem mapPosition?_eq (he : e.Fits) (hp : p.Fits) (hmoved : (e.mapPosition p).coord.Fits) :
    e.mapPosition? p = some (e.mapPosition p) := by
  rw [e.coord_mapPosition hp.settled, mapCoord] at hmoved
  rw [mapPosition?, newEnd?_eq he, leaves?_eq he hp.legible,
    Position.compare?_eq hp.legible he.stop, mapPosition]
  simp only [Option.bind_eq_bind, Option.bind_some, decide_eq_true_eq, Position.compare_eq_lt_iff]
    at hmoved ⊢
  split
  · rfl
  next hstays =>
  split
  · exact Position.movedTo?_eq hp he.newEnd
  next hinside =>
  rw [if_neg hstays, if_neg hinside] at hmoved
  have hbehind : e.range.stop.coord ≤ p.coord := Coord.not_lt.mp hinside
  by_cases hline : p.coord.line = e.range.stop.coord.line
  · rw [if_pos hline] at hmoved
    rw [if_pos hline]
    exact moveBehind?_of_line_eq he hp hline hmoved
  · rw [if_neg hline] at hmoved
    rw [if_neg hline]
    have hlt : e.range.stop.coord.line < p.coord.line :=
      (Coord.le_def.mp hbehind).resolve_right fun hsame => hline hsame.1.symm
    have htarget : ((p.coord.line : Int) + (e.newEnd.line - e.range.stop.coord.line)).toNat =
        p.coord.line + e.newEnd.line - e.range.stop.coord.line := by omega
    rw [htarget]
    exact moveBehind?_of_line_lt he hp hlt hmoved

theorem fits_mapPosition (hp : p.Fits) (hmoved : (e.mapPosition p).coord.Fits) :
    (e.mapPosition p).Fits := by
  obtain ⟨hline, hcolumn, hsettled⟩ := e.keeps_mapPosition hp.settled
  exact ⟨hsettled, by rw [hline, hcolumn]; exact hp.recorded, hmoved⟩

/-- A position before the edit is not moved, wherever the edit stops. -/
theorem mapPosition?_of_lt {newEnd : Coord} (hnew : e.newEnd? = some newEnd)
    (hbefore : p.compare? e.range.start = some .lt) : e.mapPosition? p = some p := by
  rw [mapPosition?, hnew, leaves?, hbefore]
  rfl

end Edit

namespace Position

theorem rebased?_eq {p : Position} (hp : p.Fits) : p.rebased? = some p.rebased := by
  rw [rebased?, hp.legible]
  rfl

/-- The ways in which positions come about: they are recorded at a coordinate that fits, recorded anew
where they have drifted to, and moved to places that fit. -/
inductive Arises : Position → Prop
  | recorded {c : Coord} : c.Fits → Arises (ofCoord c)
  | rebased {p q : Position} : Arises p → p.rebased? = some q → Arises q
  | moved {p q : Position} {e : Edit} : Arises p → e.Fits → (e.mapPosition p).coord.Fits →
      e.mapPosition? p = some q → Arises q

theorem Arises.fits {p : Position} (h : p.Arises) : p.Fits := by
  induction h with
  | recorded hc => exact fits_ofCoord hc
  | rebased _ hrebased hfits =>
    cases (rebased?_eq hfits).symm.trans hrebased
    exact fits_ofCoord hfits.coord
  | moved _ he hmoved hmap hfits =>
    cases (Edit.mapPosition?_eq he hfits hmoved).symm.trans hmap
    exact Edit.fits_mapPosition hfits hmoved

end Position

/-! ### Ranges -/

namespace Range

/-- The places where a range lies after each of some edits fit, and so do the edits. -/
def FitsThrough : Range → List Edit → Prop
  | _, [] => True
  | r, e :: edits =>
    e.Fits ∧ ((e.mapRange r).start.coord.Fits ∧ (e.mapRange r).stop.coord.Fits) ∧
      (e.mapRange r).FitsThrough edits

/-- `Range.through` on words. -/
def through? (r : Range) (edits : List Edit) : Option Range :=
  edits.foldlM (fun r e => e.mapRange? r) r

theorem mapRange?_eq {e : Edit} {r : Range} (he : e.Fits) (hr : r.Fits)
    (hstart : (e.mapRange r).start.coord.Fits) (hstop : (e.mapRange r).stop.coord.Fits) :
    e.mapRange? r = some (e.mapRange r) ∧ (e.mapRange r).Fits := by
  refine ⟨?_, Edit.fits_mapPosition hr.1 hstart, Edit.fits_mapPosition hr.2 hstop⟩
  rw [Edit.mapRange?, Edit.mapPosition?_eq he hr.1 hstart, Edit.mapPosition?_eq he hr.2 hstop]
  rfl

theorem through?_eq {r : Range} {edits : List Edit} (hr : r.Fits) (h : r.FitsThrough edits) :
    r.through? edits = some (r.through edits) ∧ (r.through edits).Fits := by
  induction edits generalizing r with
  | nil => exact ⟨rfl, hr⟩
  | cons e edits ih =>
    obtain ⟨he, ⟨hstart, hstop⟩, hrest⟩ := h
    obtain ⟨hmapped, hfits⟩ := mapRange?_eq he hr hstart hstop
    obtain ⟨hthrough, hfits'⟩ := ih hfits hrest
    refine ⟨?_, hfits'⟩
    rw [through?, List.foldlM_cons, hmapped]
    exact hthrough

end Range

namespace Edit

/-- Where the coordinates fit, an edit whose range is in order moves positions on words, keeps their
order, moves equal ones to one place, and keeps them settled and where they were recorded; positions
before an edit it leaves as they are.  So it is with all positions that arise, and a range stays in
order through any sequence of such edits. -/
theorem mapPosition?_monotone (e : Edit) :
    (e.Fits → e.range.Ordered → ∀ p q : Position, p.Fits → q.Fits → p ≤ q →
      (e.mapPosition p).coord.Fits → (e.mapPosition q).coord.Fits →
      ∃ p' q', e.mapPosition? p = some p' ∧ e.mapPosition? q = some q' ∧ p' ≤ q' ∧
        p.Keeps p' ∧ q.Keeps q' ∧ p'.Fits ∧ q'.Fits ∧ (p.coord = q.coord → p'.coord = q'.coord)) ∧
    (∀ (p : Position) (newEnd : Coord), e.newEnd? = some newEnd →
      p.compare? e.range.start = some .lt → e.mapPosition? p = some p) ∧
    (∀ p : Position, p.Arises → p.Fits) ∧
    ∀ edits : List Edit, (∀ e ∈ edits, e.range.Ordered) → ∀ r : Range, r.Fits → r.Ordered →
      r.FitsThrough edits → ∃ r', r.through? edits = some r' ∧ r'.Fits ∧ r'.Ordered := by
  refine ⟨fun he hordered p q hp hq hle hmovedp hmovedq => ?_,
    fun p newEnd hnew hbefore => mapPosition?_of_lt hnew hbefore, fun p hp => hp.fits,
    fun edits hedits r hr hordered hthrough => ?_⟩
  · exact ⟨_, _, mapPosition?_eq he hp hmovedp, mapPosition?_eq he hq hmovedq,
      mapPosition_le_mapPosition hordered hp.settled hq.settled hle,
      e.keeps_mapPosition hp.settled, e.keeps_mapPosition hq.settled,
      fits_mapPosition hp hmovedp, fits_mapPosition hq hmovedq,
      e.coord_mapPosition_eq hp.settled hq.settled⟩
  · obtain ⟨hmoved, hfits⟩ := Range.through?_eq hr hthrough
    have hsettled : r.Settled := ⟨hr.1.settled, hr.2.settled⟩
    exact ⟨_, hmoved, hfits, (hsettled.ordered_through hordered hedits).2⟩

/-- A range that has drifted onto the last of three lines is moved by an edit that joins the lines
above it, with ends that have drifted too, and by an edit that splits the line again. -/
theorem mapPosition?_monotone_joinedLines :
    let join : Edit := ⟨⟨⟨3, 4, ⟨-3, -2, true⟩⟩, .ofCoord ⟨2, 1⟩⟩, ['x']⟩
    let split : Edit := ⟨⟨.ofCoord ⟨0, 3⟩, .ofCoord ⟨0, 3⟩⟩, ['\n', 'y']⟩
    let r : Range := ⟨⟨1, 0, ⟨1, 1, true⟩⟩, ⟨7, 2, ⟨-5, 3, true⟩⟩⟩
    (join.Fits ∧ r.Fits ∧ r.Ordered ∧ r.FitsThrough [join, split]) ∧
      (∃ p q, join.mapPosition? r.start = some p ∧ join.mapPosition? r.stop = some q ∧ p ≤ q) ∧
      (∃ r', r.through? [join, split] = some r' ∧ r'.Fits ∧ r'.Ordered) ∧
      (r.through? [join, split]).map Range.span = some ⟨⟨1, 1⟩, ⟨1, 5⟩⟩ ∧
      split.mapPosition? (.ofCoord ⟨0, 2⟩) = some (.ofCoord ⟨0, 2⟩) := by
  intro join split r
  obtain ⟨hmono, -, -, hthrough⟩ := mapPosition?_monotone join
  obtain ⟨-, hbefore, -⟩ := mapPosition?_monotone split
  have hjoin : join.Fits := ⟨by decide, by decide, by decide⟩
  have hsplit : split.Fits := ⟨by decide, by decide, by decide⟩
  have hr : r.Fits := ⟨by decide, by decide⟩
  have hordered : r.Ordered := by decide
  have hfits : r.FitsThrough [join, split] :=
    ⟨hjoin, ⟨by decide, by decide⟩, hsplit, ⟨by decide, by decide⟩, trivial⟩
  obtain ⟨p, q, hp, hq, hle, -⟩ :=
    hmono hjoin (by decide) r.start r.stop hr.1 hr.2 hordered (by decide) (by decide)
  exact ⟨⟨hjoin, hr, hordered, hfits⟩, ⟨p, q, hp, hq, hle⟩,
    hthrough [join, split] (by decide) r hr hordered hfits, by decide,
    hbefore _ ⟨1, 1⟩ (by decide) (by decide)⟩

/-- An edit from far behind the end of a line to the start of the next one, where the column of the
second position counts as negative. -/
theorem mapPosition?_farColumn :
    let e : Edit := ⟨⟨.ofCoord ⟨0, half - 1⟩, .ofCoord ⟨1, 0⟩⟩, []⟩
    let p : Position := .ofCoord ⟨1, 0⟩
    let q : Position := ⟨1, 1, ⟨0, 1, false⟩⟩
    e.Fits ∧ e.range.Ordered ∧ p.Fits ∧ q.Fits ∧ p ≤ q ∧
      e.mapPosition? p = some ⟨1, 0, ⟨-1, half - 1, true⟩⟩ ∧
      e.mapPosition? q = some ⟨1, 1, ⟨-1, -half, true⟩⟩ ∧
      (⟨1, 1, ⟨-1, -half, true⟩⟩ : Position).compare? ⟨1, 0, ⟨-1, half - 1, true⟩⟩ = some .lt :=
  ⟨⟨by decide, by decide, by decide⟩, by decide, by decide, by decide, by decide, by decide,
    by decide, by decide⟩

end Edit

end TexAnchor
