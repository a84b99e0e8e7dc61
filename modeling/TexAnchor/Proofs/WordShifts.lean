import Mathlib.Algebra.GroupWithZero.Nat
import TexAnchor.Proofs.Shifts
import TexAnchor.Proofs.Words

/-! # Shifts on words

On words a composition of shifts may overflow, and then one grouping of some shifts comes to a shift
while another one breaks off (`Shift.andThen?_not_assoc`).  Where a composition comes to a shift
it is the one with all numbers (`Shift.andThen?_eq_some_iff`), so groupings that come to one agree.
All of them do so if the lines and the columns of the shifts sum up to words, whatever their signs
(`Shift.Grouping.exists_total?`). -/

namespace TexAnchor

open Word (half)

namespace Shift

variable {s next t : Shift}

/-- Lines and columns are signed words. -/
def IsWord (s : Shift) : Prop :=
  (-half ≤ s.lines ∧ s.lines < half) ∧ (-half ≤ s.columns ∧ s.columns < half)

instance (s : Shift) : Decidable s.IsWord := inferInstanceAs (Decidable (_ ∧ _))

theorem andThen?_eq_some_iff : s.andThen? next = some t ↔ s.andThen next = t ∧
    (-half ≤ s.lines + next.lines ∧ s.lines + next.lines < half) ∧
    (next.crosses = true ∨
      -half ≤ s.columns + next.columns ∧ s.columns + next.columns < half) := by
  unfold andThen? andThen
  by_cases hcrosses : next.crosses = true
  · simp only [hcrosses, if_true, Option.bind_eq_bind, Option.bind_some, Option.bind_eq_some_iff,
      Word.signed?_eq_some_iff, Option.pure_def, Option.some.injEq, true_or, and_true]
    constructor
    · rintro ⟨lines, ⟨hlines, rfl⟩, ht⟩
      exact ⟨ht, hlines⟩
    · rintro ⟨ht, hlines⟩
      exact ⟨_, ⟨hlines, rfl⟩, ht⟩
  · simp only [hcrosses, if_false, Option.bind_eq_bind, Option.bind_eq_some_iff,
      Word.signed?_eq_some_iff, Option.pure_def, Option.some.injEq, Bool.false_eq_true, false_or]
    constructor
    · rintro ⟨columns, ⟨hcolumns, rfl⟩, lines, ⟨hlines, rfl⟩, ht⟩
      exact ⟨ht, hlines, hcolumns⟩
    · rintro ⟨ht, hlines, hcolumns⟩
      exact ⟨_, ⟨hcolumns, rfl⟩, _, ⟨hlines, rfl⟩, ht⟩

theorem andThen_eq (h : s.andThen? next = some t) : s.andThen next = t :=
  (andThen?_eq_some_iff.mp h).1

theorem IsWord.exists_zero (h : s.IsWord) :
    ∃ before behind, zero.andThen? s = some before ∧ before.Alike s ∧
      s.andThen? zero = some behind ∧ behind.Alike s := by
  obtain ⟨hlines, hcolumns⟩ := h
  refine ⟨_, _, andThen?_eq_some_iff.mpr ⟨rfl, ?_, .inr ?_⟩, zero_andThen s,
    andThen?_eq_some_iff.mpr ⟨rfl, ?_, .inr ?_⟩, andThen_zero s⟩
  · rwa [show zero.lines + s.lines = s.lines from Int.zero_add _]
  · rwa [show zero.columns + s.columns = s.columns from Int.zero_add _]
  · rwa [show s.lines + zero.lines = s.lines from Int.add_zero _]
  · rwa [show s.columns + zero.columns = s.columns from Int.add_zero _]

namespace Grouping

/-- `Grouping.total` on words. -/
def total? : Grouping → Option Shift
  | none => some zero
  | one s => some s
  | join earlier later => do (← earlier.total?).andThen? (← later.total?)

theorem total_eq {g : Grouping} (h : g.total? = some t) : g.total = t := by
  induction g generalizing t with
  | none => exact Option.some.inj h
  | one s => exact Option.some.inj h
  | join earlier later hearlier hlater =>
    obtain ⟨a, ha, h⟩ := Option.bind_eq_some_iff.mp h
    obtain ⟨b, hb, h⟩ := Option.bind_eq_some_iff.mp h
    rw [total, hearlier ha, hlater hb]
    exact andThen_eq h

/-- How many lines some shifts move at most. -/
def lineReach (shifts : List Shift) : Nat := (shifts.map fun s => s.lines.natAbs).sum

/-- How many columns some shifts move at most. -/
def columnReach (shifts : List Shift) : Nat := (shifts.map fun s => s.columns.natAbs).sum

/-- A grouping comes to a shift if the reach of its shifts is a word, and that shift reaches no
further. -/
theorem exists_total? (g : Grouping) (hlines : lineReach g.shifts < half)
    (hcolumns : columnReach g.shifts < half) :
    ∃ t, g.total? = some t ∧ t.lines.natAbs ≤ lineReach g.shifts ∧
      t.columns.natAbs ≤ columnReach g.shifts := by
  induction g with
  | none => exact ⟨zero, rfl, Nat.zero_le _, Nat.zero_le _⟩
  | one s =>
    exact ⟨s, rfl, by simp [lineReach, shifts], by simp [columnReach, shifts]⟩
  | join earlier later hearlier hlater =>
    have hlineSum : lineReach (join earlier later).shifts =
        lineReach earlier.shifts + lineReach later.shifts := by
      simp only [lineReach, shifts, List.map_append, List.sum_append]
    have hcolumnSum : columnReach (join earlier later).shifts =
        columnReach earlier.shifts + columnReach later.shifts := by
      simp only [columnReach, shifts, List.map_append, List.sum_append]
    rw [hlineSum] at hlines ⊢
    rw [hcolumnSum] at hcolumns ⊢
    obtain ⟨a, ha, haLines, haColumns⟩ := hearlier (by omega) (by omega)
    obtain ⟨b, hb, hbLines, hbColumns⟩ := hlater (by omega) (by omega)
    have hjoined : a.andThen? b = some (a.andThen b) :=
      andThen?_eq_some_iff.mpr ⟨rfl, by omega, .inr (by omega)⟩
    refine ⟨a.andThen b, ?_, ?_, ?_⟩
    · rw [total?, ha, hb]
      exact hjoined
    · simp only [andThen]
      omega
    · simp only [andThen]
      split <;> omega

end Grouping

end Shift

namespace Position

theorem shiftedBy_eq {p q : Position} {s : Shift} (h : p.shiftedBy? s = some q) :
    p.shiftedBy s = q := by
  obtain ⟨t, ht, hq⟩ := Option.bind_eq_some_iff.mp h
  rw [shiftedBy, Shift.andThen_eq ht]
  exact Option.some.inj hq

theorem foldl_shiftedBy_eq {p q : Position} {shifts : List Shift}
    (h : shifts.foldlM shiftedBy? p = some q) : shifts.foldl shiftedBy p = q := by
  induction shifts generalizing p with
  | nil => exact Option.some.inj h
  | cons s shifts ih =>
    rw [List.foldlM_cons] at h
    obtain ⟨r, hr, hq⟩ := Option.bind_eq_some_iff.mp h
    rw [List.foldl_cons, shiftedBy_eq hr]
    exact ih hq

theorem Alike.coord?_eq {p q : Position} (h : p.Alike q) : p.coord? = q.coord? := by
  simp only [coord?, line?, column?, h.initialLine_eq, h.initialColumn_eq, h.shift_alike.lines_eq,
    h.shift_alike.columns_eq]

end Position

/-- On words, the compositions of three shifts that both come to a shift come to the same one, and
shifting by a composition is shifting by its parts one after another; no shift is neutral on both
sides.  Hence all groupings of a sequence of shifts that come to one move a position to one place, with
one drift, and so do the shifts one by one.  Every grouping comes to a shift if the lines and the columns
of the shifts add up to words, whatever their signs. -/
theorem Shift.andThen?_assoc_and_acts (p : Position) :
    (∀ a b c ab bc s t : Shift, a.andThen? b = some ab → ab.andThen? c = some s →
      b.andThen? c = some bc → a.andThen? bc = some t → s = t) ∧
    (∀ (q r r' : Position) (a b ab : Shift), p.shiftedBy? a = some q → q.shiftedBy? b = some r →
      a.andThen? b = some ab → p.shiftedBy? ab = some r' → r = r') ∧
    (∀ s : Shift, s.IsWord → ∃ before behind, zero.andThen? s = some before ∧ before.Alike s ∧
      s.andThen? zero = some behind ∧ behind.Alike s) ∧
    (∀ (g g' : Grouping) (t t' : Shift), g.shifts = g'.shifts → g.total? = some t →
      g'.total? = some t' → t.Alike t' ∧ p.shiftedBy? t = p.shiftedBy? t') ∧
    (∀ (g : Grouping) (t : Shift) (q q' : Position), g.total? = some t →
      p.shiftedBy? t = some q → g.shifts.foldlM Position.shiftedBy? p = some q' →
      q'.Alike q ∧ q'.coord? = q.coord?) ∧
    ∀ g : Grouping, Grouping.lineReach g.shifts < half → Grouping.columnReach g.shifts < half →
      ∃ t, g.total? = some t := by
  obtain ⟨hassoc, hacts, -, hgrouping⟩ := andThen_assoc_and_acts
  refine ⟨fun a b c ab bc s t hab hs hbc ht => ?_, fun q r r' a b ab hq hr hab hr' => ?_,
    fun s hs => hs.exists_zero, fun g g' t t' hshifts ht ht' => ?_,
    fun g t q q' ht hq hq' => ?_, fun g hlines hcolumns => ?_⟩
  · rw [← andThen_eq hs, ← andThen_eq ht, ← andThen_eq hab, ← andThen_eq hbc]
    exact hassoc a b c
  · rw [← Position.shiftedBy_eq hr, ← Position.shiftedBy_eq hr', ← Position.shiftedBy_eq hq,
      ← andThen_eq hab]
    exact hacts p a b
  · have halike : t.Alike t' := by
      rw [← Grouping.total_eq ht, ← Grouping.total_eq ht']
      have hsame := g'.alike_total
      rw [← hshifts] at hsame
      exact ⟨g.alike_total.lines_eq.trans hsame.lines_eq.symm,
        g.alike_total.columns_eq.trans hsame.columns_eq.symm,
        g.alike_total.crosses_eq.trans hsame.crosses_eq.symm⟩
    refine ⟨halike, ?_⟩
    simp only [Position.shiftedBy?, andThen?, halike.lines_eq, halike.columns_eq, halike.crosses_eq]
  · obtain ⟨-, halike, -⟩ := hgrouping g p
    rw [Grouping.total_eq ht, Position.shiftedBy_eq hq, Position.foldl_shiftedBy_eq hq'] at halike
    exact ⟨halike, halike.coord?_eq⟩
  · obtain ⟨t, ht, -⟩ := g.exists_total? hlines hcolumns
    exact ⟨t, ht⟩

/-- Down two lines, up again and along the line, in both groupings, from the middle of a line. -/
theorem Shift.andThen?_assoc_and_acts_downAndUp :
    let down : Shift := .drift 2 5
    let up : Shift := .drift (-2) 1
    let along : Shift := .drift 0 3
    let back : Shift := ⟨0, 4, true⟩
    let g : Grouping := .join (.join (.one down) (.one up)) (.one along)
    let g' : Grouping := .join (.one down) (.join (.one up) (.one along))
    let p : Position := ⟨4, 7, ⟨0, 3, false⟩⟩
    let q : Position := ⟨4, 7, back⟩
    (g.total? = some back ∧ g'.total? = some back ∧ p.shiftedBy? back = some q ∧
        [down, up, along].foldlM Position.shiftedBy? p = some q) ∧
      (∀ s t, (Shift.mk 0 1 true).andThen? along = some s →
        down.andThen? (Shift.mk (-2) 4 true) = some t → s = t) ∧
      (∀ r r', (Position.mk 4 7 ⟨2, 5, true⟩).shiftedBy? up = some r →
        p.shiftedBy? ⟨0, 1, true⟩ = some r' → r = r') ∧
      (∃ before behind, zero.andThen? down = some before ∧ before.Alike down ∧
        down.andThen? zero = some behind ∧ behind.Alike down) ∧
      back.Alike back ∧ q.Alike q ∧ (∃ t, g.total? = some t) := by
  intro down up along back g g' p q
  obtain ⟨hassoc, hacts, hzero, hagree, hfolded, htotal⟩ := andThen?_assoc_and_acts p
  have hg : g.total? = some back := by decide
  have hg' : g'.total? = some back := by decide
  have hq : p.shiftedBy? back = some q := by decide
  have hq' : g.shifts.foldlM Position.shiftedBy? p = some q := by decide
  exact ⟨⟨hg, hg', hq, hq'⟩,
    fun s t hs => hassoc down up along _ _ s t (by decide) hs (by decide),
    fun r r' hr => hacts _ r r' down up _ (by decide) hr (by decide),
    hzero down (by decide), (hagree g g' back back rfl hg hg').1,
    (hfolded g back q q hg hq hq').1, htotal g (by decide) (by decide)⟩

/-- The sum of the first two shifts overflows, and that of the last two does not. -/
theorem Shift.andThen?_not_assoc :
    let a : Shift := .drift (half - 1) 0
    let b : Shift := .drift 1 0
    let c : Shift := .drift (-1) 0
    a.IsWord ∧ b.IsWord ∧ c.IsWord ∧
      (a.andThen? b).bind (·.andThen? c) ≠ (b.andThen? c).bind (a.andThen? ·) := by
  decide

end TexAnchor
