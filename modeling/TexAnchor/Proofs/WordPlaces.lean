import TexAnchor.Proofs.Words

/-! # Places on words

A text may start at any place that words can hold, also at one behind which no place fits.  What is
found from a place that does not fit lies before the text, so an offset between two characters is found
again from its place exactly if the place fits, or if it is the offset zero
(`Text.readBack?_eq_iff`).  All places of a text fit if it starts far enough from `Word.half`
(`Text.Coord.fitsAlong_of_le`), as every text in memory does that starts at zero. -/

namespace TexAnchor

open Text (Coord)
open Word (half)

namespace Text

namespace Coord

variable {here origin c : Coord} {text : List Char}

/-- Line and column are unsigned words. -/
def IsWord (c : Coord) : Prop := c.line < 2 * half ∧ c.column < 2 * half

instance (c : Coord) : Decidable c.IsWord := inferInstanceAs (Decidable (_ ∧ _))

theorem asRead_eq (h : c.Fits) : c.asRead = c := by
  rw [asRead, Word.asSigned_eq h.1, Word.asSigned_eq h.2]
  rfl

/-- The places of a text that starts here fit. -/
def FitsAlong (here : Coord) (text : List Char) : Prop :=
  ∀ part, part <+: text → (here.advance part).Fits

theorem FitsAlong.fits (h : here.FitsAlong text) : here.Fits :=
  h [] List.nil_prefix

theorem column_advance_le (here : Coord) (text : List Char) :
    (here.advance text).column ≤ here.column + text.length := by
  induction text generalizing here with
  | nil => exact Nat.le_refl _
  | cons c text ih =>
    have hrest := ih (here.next c)
    have hnext : (here.next c).column ≤ here.column + 1 := by
      unfold next
      split
      · exact Nat.zero_le _
      · exact Nat.le_refl _
    rw [advance_cons, List.length_cons]
    omega

end Coord

open Coord

variable {origin c : Coord} {text : List Char} {o : Nat}

theorem length_le_byteLength (text : List Char) : text.length ≤ byteLength text := by
  induction text with
  | nil => exact Nat.le_refl _
  | cons c text ih =>
    have := c.utf8Size_pos
    rw [byteLength, List.length_cons]
    omega

theorem byteLength_le_of_prefix {part : List Char} (h : part <+: text) :
    byteLength part ≤ byteLength text := by
  obtain ⟨rest, rfl⟩ := h
  rw [byteLength_append]
  exact Nat.le_add_right _ _

/-- The places of a text fit that starts far enough from the first number that does not. -/
theorem Coord.fitsAlong_of_le (hline : origin.line + byteLength text < half)
    (hcolumn : origin.column + byteLength text < half) : origin.FitsAlong text := by
  intro part hpart
  have hcount : part.count '\n' ≤ part.length := List.count_le_length
  have hlength := length_le_byteLength part
  have hbytes := byteLength_le_of_prefix hpart
  have hwidth := column_advance_le origin part
  refine ⟨?_, by omega⟩
  rw [line_advance]
  omega

/-! ### There and back on words -/

/-- The offset as which the position of an offset is looked up again. -/
def readBack? (origin : Coord) (text : List Char) (o : Nat) : Option Nat := do
  let position ← Position.ofByte? origin text o
  let place ← position.coord?
  byteOffsetFrom? origin text place

theorem ofByte?_eq (hplace : coordAtByte? origin text o = some c) :
    Position.ofByte? origin text o = if c.IsWord then some (.ofCoord c) else none := by
  rw [Position.ofByte?, hplace]
  by_cases hline : c.line < 2 * half
  · by_cases hcolumn : c.column < 2 * half
    · simp [Word.unsigned?, IsWord, hline, hcolumn]
    · simp [Word.unsigned?, IsWord, hline, hcolumn]
  · simp [Word.unsigned?, IsWord, hline]

theorem Coord.Fits.isWord (h : c.Fits) : c.IsWord :=
  ⟨Nat.lt_of_lt_of_le h.1 (by omega), Nat.lt_of_lt_of_le h.2 (by omega)⟩

theorem coord?_ofCoord (hc : c.IsWord) : (Position.ofCoord c).coord? = some c.asRead := by
  have hread {n : Nat} (hn : n < 2 * half) :
      Word.signed? (Word.asSigned n + 0) = some (Word.asSigned n) := by
    rw [Int.add_zero]
    unfold Word.asSigned
    split
    · exact Word.signed?_eq (by omega) (by omega)
    · exact Word.signed?_eq (by omega) (by omega)
  simp only [Position.coord?, Position.line?, Position.column?, Position.ofCoord, Shift.zero,
    hread hc.1, hread hc.2, Option.bind_eq_bind, Option.bind_some, Option.pure_def, asRead]

theorem readBack?_of_isWord (hplace : coordAtByte? origin text o = some c) (hc : c.IsWord) :
    readBack? origin text o = some (byteOfFrom origin text c.asRead) := by
  rw [readBack?, ofByte?_eq hplace, if_pos hc]
  simp only [Option.bind_eq_bind, Option.bind_some, coord?_ofCoord hc, byteOffsetFrom?_eq]

theorem byteOfFrom_of_le (h : c ≤ origin) (text : List Char) : byteOfFrom origin text c = 0 := by
  have hstart : offsetOf origin c text = 0 := by
    cases text with
    | nil => rfl
    | cons d text => rw [offsetOf, if_pos (.inl h)]
  rw [byteOfFrom, hstart]
  rfl

theorem asSigned_toNat_of_half_le {n : Nat} (hhalf : half ≤ n) (hword : n < 2 * half) :
    (Word.asSigned n).toNat = 0 := by
  rw [Word.asSigned, if_neg (by omega)]
  omega

/-- A place of a text in memory that does not fit is read as one before the text. -/
theorem asRead_le_of_not_fits {a : List Char} (hmemory : byteLength a < half)
    (hword : (origin.advance a).IsWord) (hfits : ¬ (origin.advance a).Fits) :
    (origin.advance a).asRead ≤ origin := by
  have hlength := length_le_byteLength a
  by_cases hline : (origin.advance a).line < half
  · have hcolumn : half ≤ (origin.advance a).column := Nat.not_lt.mp fun h => hfits ⟨hline, h⟩
    have hfeed : '\n' ∉ a := fun hfeed => by
      have hsame : (origin.advance a).column = (zero.advance a).column :=
        (column_advance_eq_iff a).mpr (.inl hfeed)
      have hwidth := column_advance_le zero a
      simp only [zero] at hsame hwidth
      omega
    have hread : (origin.advance a).asRead = ⟨origin.line, 0⟩ := by
      rw [asRead, Word.asSigned_eq hline, asSigned_toNat_of_half_le hcolumn hword.2,
        advance_of_not_mem hfeed]
      rfl
    rw [hread]
    exact .inr ⟨rfl, Nat.zero_le _⟩
  · have hread : (origin.advance a).asRead.line = 0 :=
      asSigned_toNat_of_half_le (Nat.not_lt.mp hline) hword.1
    have hcount : a.count '\n' ≤ a.length := List.count_le_length
    rw [line_advance] at hline
    refine .inl ?_
    omega

/-- The offset of a place between two characters is found again from its position exactly if the place
fits; offset zero is always found. -/
theorem readBack?_eq_iff (horigin : origin.IsWord) (hmemory : byteLength text < half)
    (ho : IsBoundary text o) (hplace : coordAtByte? origin text o = some c) :
    readBack? origin text o = some o ↔ o = 0 ∨ c.Fits := by
  obtain ⟨a, b, rfl, rfl⟩ := ho
  obtain rfl : origin.advance a = c :=
    Option.some.inj ((coordAtByte?_append origin a b).symm.trans hplace)
  have hbytes := byteLength_le_of_prefix (List.prefix_append a b)
  have hfound : byteOfFrom origin (a ++ b) (origin.advance a) = byteLength a := by
    rw [byteOfFrom, offsetOf_advance, List.take_left]
  by_cases hfits : (origin.advance a).Fits
  · refine iff_of_true ?_ (.inr hfits)
    rw [readBack?_of_isWord hplace hfits.isWord, asRead_eq hfits, hfound]
  · by_cases hword : (origin.advance a).IsWord
    · have hle := asRead_le_of_not_fits (Nat.lt_of_le_of_lt hbytes hmemory) hword hfits
      rw [readBack?_of_isWord hplace hword, byteOfFrom_of_le hle, Option.some.injEq]
      simp only [hfits, or_false, eq_comm]
    · have hnone : readBack? origin (a ++ b) (byteLength a) = none := by
        rw [readBack?, ofByte?_eq hplace, if_neg hword]
        rfl
      have hne : byteLength a ≠ 0 := fun hzero => by
        obtain rfl : a = [] := List.length_eq_zero_iff.mp (by have := length_le_byteLength a; omega)
        exact hword horigin
      rw [hnone]
      simp [hne, hfits]

/-- Offsets and positions on words are converted both ways without loss where places fit.

An offset between two characters has a place that the text has, and it is found again from its position
exactly if the place fits or the offset is zero.  What a coordinate is looked up as is an offset between
two characters, and the nearest place, which is the coordinate itself if the text has it, is the
position of that offset.  Looking up keeps the order, and of two offsets the later one has the later
position.  Every place fits if the text starts far enough from the first number that does not. -/
theorem readBack?_eq_iff_and_nearest (origin : Coord) (text : List Char) :
    (∀ o, IsBoundary text o → ∃ c, coordAtByte? origin text o = some c ∧
      HasCoordFrom origin text c ∧
      (c.Fits → Position.ofByte? origin text o = some (.ofCoord c) ∧ (Position.ofCoord c).Legible) ∧
      (origin.IsWord → byteLength text < half →
        (readBack? origin text o = some o ↔ o = 0 ∨ c.Fits))) ∧
    (∀ c, ∃ o, byteOffsetFrom? origin text c = some o ∧ IsBoundary text o ∧ o ≤ byteLength text ∧
      ((nearestCoord origin text c).Fits →
        Position.ofByte? origin text o = some (.ofCoord (nearestCoord origin text c))) ∧
      (nearestCoord origin text c = c ↔ HasCoordFrom origin text c)) ∧
    (∀ c c' o o', c ≤ c' → byteOffsetFrom? origin text c = some o →
      byteOffsetFrom? origin text c' = some o' → o ≤ o') ∧
    (∀ o o' c c', IsBoundary text o → IsBoundary text o' → o < o' → c.Fits → c'.Fits →
      coordAtByte? origin text o = some c → coordAtByte? origin text o' = some c' →
      ∃ p p', Position.ofByte? origin text o = some p ∧ Position.ofByte? origin text o' = some p' ∧
        p < p') ∧
    (∀ o, placeOfByte? origin text o = coordAtByte? origin text o) ∧
    (origin.line + byteLength text < half → origin.column + byteLength text < half →
      ∀ o, IsBoundary text o → readBack? origin text o = some o) := by
  obtain ⟨hthere, hback, hmono, hstrict, htable, htable'⟩ := byteOfFrom_coordAtByte?_inverse origin text
  have hposition {o : Nat} {c : Coord} (hplace : coordAtByte? origin text o = some c)
      (hc : c.Fits) : Position.ofByte? origin text o = some (.ofCoord c) := by
    rw [ofByte?_eq hplace, if_pos hc.isWord]
  refine ⟨fun o ho => ?_, fun c => ?_, fun c c' o o' hle ho ho' => ?_,
    fun o o' c c' ho ho' hlt hc hc' hplace hplace' => ?_, htable, fun hline hcolumn o ho => ?_⟩
  · obtain ⟨c, hplace, hhas, -⟩ := hthere o ho
    exact ⟨c, hplace, hhas, fun hc => ⟨hposition hplace hc, (Position.fits_ofCoord hc).legible⟩,
      fun horigin hmemory => readBack?_eq_iff horigin hmemory ho hplace⟩
  · obtain ⟨hboundary, hle, hplace, hnearest⟩ := hback c
    exact ⟨_, htable' c, hboundary, hle, hposition hplace, hnearest⟩
  · rw [htable', Option.some_inj] at ho ho'
    rw [← ho, ← ho']
    exact hmono c c' hle
  · have hplaces := hstrict o o' c c' ho ho' hlt hplace hplace'
    refine ⟨_, _, hposition hplace hc, hposition hplace' hc', ?_⟩
    show (Position.ofCoord c).coord < (Position.ofCoord c').coord
    rwa [Position.coord_ofCoord, Position.coord_ofCoord]
  · obtain ⟨c, hplace, -⟩ := hthere o ho
    have hfits : origin.FitsAlong text := fitsAlong_of_le hline hcolumn
    refine (readBack?_eq_iff hfits.fits.isWord (by omega) ho hplace).mpr (.inr ?_)
    obtain ⟨a, b, rfl, rfl⟩ := ho
    obtain rfl := Option.some.inj ((coordAtByte?_append origin a b).symm.trans hplace)
    exact hfits a (List.prefix_append a b)

/-- Two lines, the first of which starts in the middle of a line and has a character of two bytes; a
place before it, one past its end, and one behind the text. -/
theorem readBack?_eq_iff_and_nearest_secondLine :
    let origin : Coord := ⟨3, 5⟩
    let text := ['a', 'é', '\r', '\n', 'b']
    IsBoundary text 3 ∧ readBack? origin text 3 = some 3 ∧
      (∃ o, byteOffsetFrom? origin text ⟨3, 9⟩ = some o ∧
        Position.ofByte? origin text o = some (.ofCoord ⟨3, 8⟩)) ∧
      (∀ o o', byteOffsetFrom? origin text ⟨3, 2⟩ = some o →
        byteOffsetFrom? origin text ⟨5, 0⟩ = some o' → o ≤ o') ∧
      ∃ p p', Position.ofByte? origin text 3 = some p ∧ Position.ofByte? origin text 5 = some p' ∧
        p < p' := by
  intro origin text
  obtain ⟨-, hback, hmono, hstrict, -, hinverse⟩ := readBack?_eq_iff_and_nearest origin text
  have hboundary : IsBoundary text 3 := ⟨['a', 'é'], ['\r', '\n', 'b'], rfl, rfl⟩
  have hboundary' : IsBoundary text 5 := ⟨['a', 'é', '\r', '\n'], ['b'], rfl, rfl⟩
  obtain ⟨o, ho, -, -, hposition, -⟩ := hback ⟨3, 9⟩
  exact ⟨hboundary, hinverse (by decide) (by decide) 3 hboundary, ⟨o, ho, hposition (by decide)⟩,
    fun o o' => hmono ⟨3, 2⟩ ⟨5, 0⟩ o o' (by decide),
    hstrict 3 5 ⟨3, 7⟩ ⟨4, 0⟩ hboundary hboundary' (by decide) (by decide) (by decide) (by decide)
      (by decide)⟩

/-- Behind the first letter of a text that starts at the last column that fits, the column is read as
zero. -/
theorem readBack?_farOrigin :
    let origin : Coord := ⟨0, half - 1⟩
    IsBoundary ['a', 'b'] 1 ∧ readBack? origin ['a', 'b'] 1 = some 0 ∧
      readBack? origin ['a', 'b'] 1 ≠ some 1 :=
  ⟨⟨['a'], ['b'], rfl, rfl⟩, by decide, by decide⟩

end Text

end TexAnchor
