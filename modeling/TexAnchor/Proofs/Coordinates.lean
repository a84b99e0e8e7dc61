import TexAnchor.Text.Coord

/-! # Coordinates and stretches of text

A coordinate of a text is the place reached after a stretch of it from the start.  Such places are
told apart by the length of the stretch (`advance_inj`), found again by `offsetOf`
(`offsetOf_advance`) and by `coordAtByte?` (`coordAtByte?_append`), and they are exactly the
coordinates whose line exists and whose column is at most that line's length (`hasCoord_iff`).

The place reached from an origin is the one reached from zero, counted from the origin
(`advance_eq_translate`); this is what an edit relies on when it moves the text behind it.  A place
that the text does not have is looked up as one that it has (`clamp`). -/

namespace TexAnchor.Text

namespace Coord

/-! ### The order of places -/

theorem lt_irrefl (a : Coord) : ¬ a < a := by
  simp only [lt_def]; omega

theorem le_of_lt {a b : Coord} (h : a < b) : a ≤ b := by
  simp only [lt_def, le_def] at *; omega

theorem lt_of_lt_of_le {a b c : Coord} (hab : a < b) (hbc : b ≤ c) : a < c := by
  simp only [lt_def, le_def] at *; omega

theorem not_le {a b : Coord} : ¬ a ≤ b ↔ b < a := by
  simp only [lt_def, le_def]; omega

theorem ne_of_lt {a b : Coord} (h : a < b) : a ≠ b := by
  rintro rfl
  exact lt_irrefl a h

theorem lt_or_eq_of_le {a b : Coord} (h : a ≤ b) : a < b ∨ a = b := by
  obtain ⟨line, column⟩ := a
  obtain ⟨line', column'⟩ := b
  simp only [le_def, lt_def, Coord.mk.injEq] at h ⊢
  omega

theorem lt_advance (here : Coord) {text : List Char} (h : text ≠ []) : here < here.advance text := by
  cases text with
  | nil => exact absurd rfl h
  | cons c text => exact lt_of_lt_of_le (lt_next here c) (le_advance _ text)

theorem advance_lt_advance_iff (here : Coord) {a b text : List Char} (ha : a <+: text)
    (hb : b <+: text) : here.advance a < here.advance b ↔ a.length < b.length := by
  rcases Nat.lt_or_ge a.length b.length with h | h
  · obtain ⟨rest, rfl⟩ := List.prefix_of_prefix_length_le ha hb (Nat.le_of_lt h)
    have hrest : rest ≠ [] := by
      rintro rfl
      simp at h
    rw [advance_append]
    exact iff_of_true (lt_advance _ hrest) h
  · obtain ⟨rest, rfl⟩ := List.prefix_of_prefix_length_le hb ha h
    rw [advance_append]
    refine iff_of_false (fun hlt => ?_) (Nat.not_lt.mpr h)
    exact lt_irrefl _ (lt_of_lt_of_le hlt (le_advance _ rest))

theorem advance_inj (here : Coord) {a b text : List Char} (ha : a <+: text) (hb : b <+: text)
    (h : here.advance a = here.advance b) : a = b := by
  have hab := advance_lt_advance_iff here ha hb
  have hba := advance_lt_advance_iff here hb ha
  rw [h] at hab hba
  have hlength : a.length = b.length := by
    have := mt hab.mpr (lt_irrefl _)
    have := mt hba.mpr (lt_irrefl _)
    omega
  have hprefix : a <+: b := List.prefix_of_prefix_length_le ha hb (Nat.le_of_eq hlength)
  exact hprefix.eq_of_length hlength

/-! ### Counting from an origin -/

/-- The coordinate `c` counted from an origin: only the first line starts at the origin's column. -/
def translate (origin c : Coord) : Coord :=
  ⟨origin.line + c.line, if c.line = 0 then origin.column + c.column else c.column⟩

theorem next_translate (here z : Coord) (c : Char) :
    (here.next c).translate z = here.translate ((zero.next c).translate z) := by
  unfold next Coord.translate zero
  by_cases hc : c = '\n'
  · simp [hc, Nat.add_assoc]
  · by_cases hz : z.line = 0 <;> simp [hc, hz, Nat.add_assoc]

theorem advance_eq_translate (here : Coord) (text : List Char) :
    here.advance text = here.translate (zero.advance text) := by
  induction text generalizing here with
  | nil => simp [Coord.translate, zero]
  | cons c text ih =>
    rw [advance_cons, advance_cons, ih (here.next c), ih (zero.next c), next_translate]

theorem line_advance (here : Coord) (text : List Char) :
    (here.advance text).line = here.line + text.count '\n' := by
  induction text generalizing here with
  | nil => rfl
  | cons c text ih =>
    rw [advance_cons, ih, next]
    by_cases hc : c = '\n'
    · simp only [hc, if_true, List.count_cons_self]
      omega
    · simp only [hc, if_false, List.count_cons_of_ne hc]

/-- The column behind a text with a line feed does not depend on where the text starts. -/
theorem column_advance_eq_iff {here there : Coord} (text : List Char) :
    (here.advance text).column = (there.advance text).column ↔
      '\n' ∈ text ∨ here.column = there.column := by
  have hline := line_advance zero text
  rw [advance_eq_translate here, advance_eq_translate there, Coord.translate, Coord.translate, hline]
  by_cases hmem : '\n' ∈ text
  · have hpos : 0 < text.count '\n' := List.count_pos_iff.mpr hmem
    have hne : ¬ zero.line + text.count '\n' = 0 := by omega
    rw [if_neg hne, if_neg hne]
    simp [hmem]
  · have hzero : zero.line + text.count '\n' = 0 := by
      rw [List.count_eq_zero.mpr hmem]
      rfl
    rw [if_pos hzero, if_pos hzero]
    simp [hmem]

end Coord

open Coord

/-! ### Offsets in characters -/

theorem offsetOf_advance (here : Coord) (a b : List Char) :
    offsetOf here (here.advance a) (a ++ b) = a.length := by
  induction a generalizing here with
  | nil =>
    cases b with
    | nil => rfl
    | cons c b => simp [offsetOf, le_refl]
  | cons c a ih =>
    have hlt : here < (here.next c).advance a := lt_of_lt_of_le (lt_next here c) (le_advance _ a)
    have hline : ¬ (c = '\n' ∧ here.line = ((here.next c).advance a).line) := by
      rintro ⟨rfl, hline⟩
      have := le_advance (here.next '\n') a
      simp only [next, le_def, ite_true] at this hline
      omega
    simp only [List.cons_append, offsetOf, advance_cons, not_le.mpr hlt, hline, or_self, ite_false,
      ih, List.length_cons]

/-- A stretch of a text is found again by the places where it starts and stops. -/
theorem between?_advance (a b c : List Char) :
    between? (a ++ b ++ c) (zero.advance a) (zero.advance (a ++ b)) = some b := by
  have hstart : offsetOf zero (zero.advance a) (a ++ b ++ c) = a.length := by
    rw [List.append_assoc, offsetOf_advance]
  have hstop : offsetOf zero (zero.advance (a ++ b)) (a ++ b ++ c) = (a ++ b).length :=
    offsetOf_advance zero (a ++ b) c
  unfold between?
  simp only [hstart, hstop]
  rw [if_pos (by simp), List.take_left, List.drop_left]

/-! ### Offsets in bytes -/

@[simp] theorem byteLength_append (a b : List Char) :
    byteLength (a ++ b) = byteLength a + byteLength b := by
  induction a with
  | nil => simp [byteLength]
  | cons c a ih => simp only [List.cons_append, byteLength, ih, Nat.add_assoc]

theorem coordAtByte?_append (here : Coord) (a b : List Char) :
    coordAtByte? here (a ++ b) (byteLength a) = some (here.advance a) := by
  induction a generalizing here with
  | nil => cases b <;> rfl
  | cons c a ih =>
    have hpos : 0 < c.utf8Size := c.utf8Size_pos
    obtain ⟨k, hk⟩ : ∃ k, byteLength (c :: a) = k + 1 :=
      ⟨c.utf8Size + byteLength a - 1, by simp only [byteLength]; omega⟩
    have hrest : k + 1 - c.utf8Size = byteLength a := by
      simp only [byteLength] at hk; omega
    have hnot : ¬ k + 1 < c.utf8Size := by
      simp only [byteLength] at hk; omega
    rw [hk, List.cons_append]
    simp only [coordAtByte?, hnot, ite_false, hrest, ih, advance_cons]

theorem exists_of_coordAtByte? {here c : Coord} {text : List Char} {o : Nat}
    (ho : o ≤ byteLength text) (h : coordAtByte? here text o = some c) :
    ∃ a b, text = a ++ b ∧ byteLength a = o ∧ here.advance a = c := by
  induction text generalizing here o with
  | nil =>
    obtain rfl : o = 0 := Nat.le_zero.mp ho
    exact ⟨[], [], rfl, rfl, Option.some.inj h⟩
  | cons d text ih =>
    cases o with
    | zero => exact ⟨[], d :: text, rfl, rfl, Option.some.inj h⟩
    | succ o =>
      simp only [coordAtByte?] at h
      split at h
      · cases h
      · next hnot =>
        have hle : o + 1 - d.utf8Size ≤ byteLength text := by
          simp only [byteLength] at ho; omega
        obtain ⟨a, b, rfl, ha, hc⟩ := ih hle h
        refine ⟨d :: a, b, rfl, ?_, hc⟩
        simp only [byteLength, ha]
        omega

theorem prefix_of_byteLength_le {a b text : List Char} (ha : a <+: text) (hb : b <+: text)
    (h : byteLength a ≤ byteLength b) : a <+: b := by
  rcases Nat.le_total a.length b.length with hle | hle
  · exact List.prefix_of_prefix_length_le ha hb hle
  · obtain ⟨rest, rfl⟩ := List.prefix_of_prefix_length_le hb ha hle
    cases rest with
    | nil => simp
    | cons c rest =>
      have hpos := c.utf8Size_pos
      simp only [byteLength_append, byteLength] at h
      omega

theorem length_lt_of_byteLength_lt {a b : List Char} (hab : a <+: b)
    (h : byteLength a < byteLength b) : a.length < b.length := by
  obtain ⟨rest, rfl⟩ := hab
  cases rest with
  | nil => simp at h
  | cons c rest => simp

/-- The offset of a coordinate in bytes of UTF-8. -/
def byteOf (text : List Char) (c : Coord) : Nat :=
  byteLength (text.take (offsetOf .zero c text))

theorem byteOf_advance (a b : List Char) : byteOf (a ++ b) (zero.advance a) = byteLength a := by
  rw [byteOf, offsetOf_advance, List.take_left]

/-! ### The coordinates that a text has -/

/-- The lines of a text, without the line feeds that end them. -/
def lines : List Char → List (List Char)
  | [] => [[]]
  | c :: text =>
    if c = '\n' then [] :: lines text
    else match lines text with
      | [] => [[c]]
      | line :: later => (c :: line) :: later

/-- The coordinate's line is one of the text, and its column is at most that line's length. -/
def HasCoord (text : List Char) (c : Coord) : Prop :=
  ∃ line, (lines text)[c.line]? = some line ∧ c.column ≤ line.length

theorem lines_ne_nil (text : List Char) : lines text ≠ [] := by
  cases text with
  | nil => simp [lines]
  | cons c text =>
    unfold lines
    split
    · simp
    · split <;> simp

theorem length_lines (text : List Char) : (lines text).length = lineCount text := by
  induction text with
  | nil => rfl
  | cons c text ih =>
    unfold lineCount at ih ⊢
    by_cases hc : c = '\n'
    · simp [lines, hc, ih]
    · rw [List.count_cons_of_ne (by simpa using hc), ← ih]
      simp only [lines, hc, ite_false]
      cases hlines : lines text with
      | nil => exact absurd hlines (lines_ne_nil text)
      | cons line later => rfl

/-- A coordinate of `c :: text` other than zero is one of `text`, counted from behind `c`. -/
theorem hasCoord_cons {c : Char} {text : List Char} {k : Coord} :
    HasCoord (c :: text) k ↔ k = zero ∨ ∃ z, HasCoord text z ∧ k = (zero.next c).translate z := by
  obtain ⟨first, later, hlines⟩ := List.exists_cons_of_ne_nil (lines_ne_nil text)
  obtain ⟨line, column⟩ := k
  unfold HasCoord
  by_cases hc : c = '\n'
  · subst hc
    simp only [lines, ite_true, next, Coord.translate, zero, Coord.mk.injEq]
    constructor
    · rintro ⟨l, hl, hcol⟩
      cases line with
      | zero =>
        obtain rfl : [] = l := by simpa using hl
        exact .inl ⟨rfl, Nat.le_zero.mp hcol⟩
      | succ line =>
        refine .inr ⟨⟨line, column⟩, ⟨l, by simpa using hl, hcol⟩, by simp; omega, by simp⟩
    · rintro (⟨rfl, rfl⟩ | ⟨⟨zl, zc⟩, ⟨l, hl, hcol⟩, rfl, rfl⟩)
      · exact ⟨[], by simp, Nat.le_refl _⟩
      · exact ⟨l, by simpa [Nat.add_comm] using hl, by simpa using hcol⟩
  · simp only [lines, hc, ite_false, hlines, next, Coord.translate, zero, Coord.mk.injEq]
    constructor
    · rintro ⟨l, hl, hcol⟩
      cases line with
      | zero =>
        obtain rfl : c :: first = l := by simpa using hl
        cases column with
        | zero => exact .inl ⟨rfl, rfl⟩
        | succ column =>
          refine .inr ⟨⟨0, column⟩, ⟨first, rfl, by simpa using hcol⟩, by simp, by simp; omega⟩
      | succ line =>
        exact .inr ⟨⟨line + 1, column⟩, ⟨l, by simpa using hl, hcol⟩, by simp, by simp⟩
    · rintro (⟨rfl, rfl⟩ | ⟨⟨zl, zc⟩, ⟨l, hl, hcol⟩, rfl, rfl⟩)
      · exact ⟨c :: first, rfl, Nat.zero_le _⟩
      · cases zl with
        | zero =>
          obtain rfl : first = l := by simpa using hl
          exact ⟨c :: first, rfl, by simp at hcol ⊢; omega⟩
        | succ zl => exact ⟨l, by simpa using hl, by simpa using hcol⟩

/-- The coordinates of a text are the places reached after a stretch of it. -/
theorem hasCoord_iff {text : List Char} {k : Coord} :
    HasCoord text k ↔ ∃ a b, text = a ++ b ∧ zero.advance a = k := by
  induction text generalizing k with
  | nil =>
    obtain ⟨line, column⟩ := k
    simp only [HasCoord, lines]
    constructor
    · rintro ⟨l, hl, hcol⟩
      cases line with
      | zero =>
        obtain rfl : [] = l := by simpa using hl
        obtain rfl : column = 0 := Nat.le_zero.mp hcol
        exact ⟨[], [], rfl, rfl⟩
      | succ line => simp at hl
    · rintro ⟨a, b, hab, hk⟩
      obtain ⟨rfl, rfl⟩ := List.append_eq_nil_iff.mp hab.symm
      cases hk
      exact ⟨[], rfl, Nat.le_refl _⟩
  | cons c text ih =>
    rw [hasCoord_cons]
    constructor
    · rintro (rfl | ⟨z, hz, rfl⟩)
      · exact ⟨[], c :: text, rfl, rfl⟩
      · obtain ⟨a, b, rfl, rfl⟩ := ih.mp hz
        exact ⟨c :: a, b, rfl, by rw [advance_cons, advance_eq_translate]⟩
    · rintro ⟨a, b, hab, rfl⟩
      cases a with
      | nil => exact .inl rfl
      | cons d a =>
        obtain ⟨rfl, rfl⟩ := List.cons.inj hab
        refine .inr ⟨zero.advance a, ih.mpr ⟨a, b, rfl, rfl⟩, ?_⟩
        rw [advance_cons, advance_eq_translate]

theorem HasCoord.of_le {text : List Char} {c k : Coord} (h : HasCoord text k) (hline : c.line = k.line)
    (hcolumn : c.column ≤ k.column) : HasCoord text c := by
  obtain ⟨line, hget, hle⟩ := h
  exact ⟨line, hline ▸ hget, Nat.le_trans hcolumn hle⟩

/-! ### Coordinates that a text does not have -/

/-- The coordinate of the offset that a coordinate is looked up as: a column past the end of its line
is that of the end. -/
def clamp (text : List Char) (c : Coord) : Coord :=
  zero.advance (text.take (offsetOf zero c text))

theorem offsetOf_le_offsetOf {c k : Coord} (hle : c ≤ k) (here : Coord) (text : List Char) :
    offsetOf here c text ≤ offsetOf here k text := by
  induction text generalizing here with
  | nil => exact Nat.le_refl _
  | cons d text ih =>
    rw [offsetOf, offsetOf]
    by_cases hk : k ≤ here ∨ d = '\n' ∧ here.line = k.line
    · have hc : c ≤ here ∨ d = '\n' ∧ here.line = c.line := by
        rw [le_def] at hk hle ⊢
        rcases hk with hk | ⟨hd, hline⟩
        · exact .inl (by omega)
        · rcases hle with hlt | ⟨heq, -⟩
          · exact .inl (.inl (by omega))
          · exact .inr ⟨hd, by omega⟩
      rw [if_pos hc]
      exact Nat.zero_le _
    · rw [if_neg hk]
      split
      · exact Nat.zero_le _
      · exact Nat.succ_le_succ (ih _)

theorem offsetOf_clamp (text : List Char) (c : Coord) :
    offsetOf zero (clamp text c) text = offsetOf zero c text := by
  have hfound := offsetOf_advance zero (text.take (offsetOf zero c text))
    (text.drop (offsetOf zero c text))
  rwa [List.take_append_drop, List.length_take, Nat.min_eq_left (offsetOf_le_length _ _ _)] at hfound

theorem hasCoord_clamp (text : List Char) (c : Coord) : HasCoord text (clamp text c) :=
  hasCoord_iff.mpr ⟨_, _, (List.take_append_drop _ text).symm, rfl⟩

theorem clamp_eq_self_iff {text : List Char} {c : Coord} : clamp text c = c ↔ HasCoord text c := by
  refine ⟨fun h => h ▸ hasCoord_clamp text c, fun h => ?_⟩
  obtain ⟨a, b, rfl, rfl⟩ := hasCoord_iff.mp h
  rw [clamp, offsetOf_advance, List.take_left]

theorem take_offsetOf_prefix {c k : Coord} (hle : c ≤ k) (text : List Char) :
    text.take (offsetOf zero c text) <+: text.take (offsetOf zero k text) := by
  refine List.prefix_of_prefix_length_le (List.take_prefix _ _) (List.take_prefix _ _) ?_
  have hoffset := offsetOf_le_offsetOf hle zero text
  simp only [List.length_take]
  omega

theorem clamp_le_clamp {c k : Coord} (hle : c ≤ k) (text : List Char) :
    clamp text c ≤ clamp text k := by
  obtain ⟨rest, hrest⟩ := take_offsetOf_prefix hle text
  rw [clamp, clamp, ← hrest, advance_append]
  exact le_advance _ rest

theorem line_advance_take_offsetOf {text : List Char} {here c : Coord} (hle : here ≤ c)
    (hbound : c.line < here.line + lineCount text) :
    (here.advance (text.take (offsetOf here c text))).line = c.line := by
  induction text generalizing here with
  | nil =>
    simp only [lineCount, List.count_nil, le_def] at hbound hle
    simp only [List.take_nil, advance_nil]
    omega
  | cons d text ih =>
    rw [offsetOf]
    split
    · next hstop =>
      simp only [List.take_zero, advance_nil]
      rw [le_def] at hstop hle
      omega
    · next hgo =>
      rw [List.take_succ_cons, advance_cons]
      rw [not_or, not_le, lt_def] at hgo
      unfold lineCount at hbound ih
      by_cases hd : d = '\n'
      · have hnext : here.next d = ⟨here.line + 1, 0⟩ := if_pos hd
        have hother : here.line ≠ c.line := fun heq => hgo.2 ⟨hd, heq⟩
        rw [hd, List.count_cons_self] at hbound
        rw [hnext]
        apply ih
        · simp only [le_def]
          omega
        · simp only
          omega
      · have hnext : here.next d = ⟨here.line, here.column + 1⟩ := if_neg hd
        rw [List.count_cons_of_ne hd] at hbound
        rw [hnext]
        apply ih
        · simp only [le_def]
          omega
        · simpa using hbound

theorem line_clamp {text : List Char} {c : Coord} (h : c.line < lineCount text) :
    (clamp text c).line = c.line := by
  refine line_advance_take_offsetOf ?_ (by simpa [zero] using h)
  simp only [le_def, zero]
  omega

end TexAnchor.Text
