/-! # Line and column coordinates

A `Coord` is a place in a text: a line and a column, both counted from zero, columns in characters.
Only a line feed ends a line.

* `Coord.advance` — the coordinate reached after a stretch of text;
* `offsetOf` — the number of characters before a coordinate, clamped to its line and to the text;
* `coordAtByte?` — the coordinate of an offset given in bytes of UTF-8.

A text may start at any coordinate, so a fragment is read as if it sat inside a larger text.  There is
no greatest coordinate; what becomes of coordinates in words is said by `Position.ofByte?`. -/

namespace TexAnchor.Text

/-- A place in a text: line and column, counted from zero. -/
structure Coord where
  line : Nat
  column : Nat
deriving DecidableEq, Repr, Inhabited

namespace Coord

/-- The first place of a text. -/
def zero : Coord := ⟨0, 0⟩

/-- Coordinates are ordered by line, then by column. -/
instance : LE Coord := ⟨fun a b => a.line < b.line ∨ a.line = b.line ∧ a.column ≤ b.column⟩

instance : LT Coord := ⟨fun a b => a.line < b.line ∨ a.line = b.line ∧ a.column < b.column⟩

instance (a b : Coord) : Decidable (a ≤ b) :=
  inferInstanceAs (Decidable (a.line < b.line ∨ a.line = b.line ∧ a.column ≤ b.column))

instance (a b : Coord) : Decidable (a < b) :=
  inferInstanceAs (Decidable (a.line < b.line ∨ a.line = b.line ∧ a.column < b.column))

theorem le_def {a b : Coord} :
    a ≤ b ↔ a.line < b.line ∨ a.line = b.line ∧ a.column ≤ b.column := Iff.rfl

theorem lt_def {a b : Coord} :
    a < b ↔ a.line < b.line ∨ a.line = b.line ∧ a.column < b.column := Iff.rfl

theorem not_lt {a b : Coord} : ¬ a < b ↔ b ≤ a := by
  simp only [lt_def, le_def]; omega

theorem le_refl (a : Coord) : a ≤ a := by
  simp [le_def]

theorem le_trans {a b c : Coord} (hab : a ≤ b) (hbc : b ≤ c) : a ≤ c := by
  simp only [le_def] at *; omega

theorem le_antisymm {a b : Coord} (hab : a ≤ b) (hba : b ≤ a) : a = b := by
  obtain ⟨line, column⟩ := a
  obtain ⟨line', column'⟩ := b
  simp only [le_def] at hab hba
  rw [Coord.mk.injEq]; omega

theorem le_total (a b : Coord) : a ≤ b ∨ b ≤ a := by
  simp only [le_def]; omega

/-- The place after one character: a line feed starts the next line. -/
def next (here : Coord) (c : Char) : Coord :=
  if c = '\n' then ⟨here.line + 1, 0⟩ else ⟨here.line, here.column + 1⟩

/-- The place reached after a stretch of text. -/
def advance (here : Coord) (text : List Char) : Coord :=
  text.foldl next here

@[simp] theorem advance_nil (here : Coord) : here.advance [] = here := rfl

@[simp] theorem advance_cons (here : Coord) (c : Char) (text : List Char) :
    here.advance (c :: text) = (here.next c).advance text := rfl

@[simp] theorem advance_append (here : Coord) (a b : List Char) :
    here.advance (a ++ b) = (here.advance a).advance b :=
  List.foldl_append

theorem lt_next (here : Coord) (c : Char) : here < here.next c := by
  unfold next; split <;> simp [lt_def]

theorem le_advance (here : Coord) (text : List Char) : here ≤ here.advance text := by
  induction text generalizing here with
  | nil => exact le_refl here
  | cons c text ih =>
    have step := lt_next here c
    have rest := ih (here.next c)
    simp only [lt_def, le_def, advance_cons] at *
    omega

/-- The printed form, `line:column`. -/
def render (here : Coord) : String :=
  s!"{here.line}:{here.column}"

end Coord

/-- The number of lines: one more than the number of line feeds. -/
def lineCount (text : List Char) : Nat :=
  text.count '\n' + 1

/-- How many characters of the text, which starts at `here`, lie before `target`.

A column past the end of its line counts as the end of that line; a place before the text counts
as its start, and one after the text as its end. -/
def offsetOf (here target : Coord) : List Char → Nat
  | [] => 0
  | c :: text =>
    if target ≤ here ∨ (c = '\n' ∧ here.line = target.line) then 0
    else offsetOf (here.next c) target text + 1

theorem offsetOf_le_length (here target : Coord) (text : List Char) :
    offsetOf here target text ≤ text.length := by
  induction text generalizing here with
  | nil => simp [offsetOf]
  | cons c text ih =>
    simp only [offsetOf, List.length_cons]
    split
    · omega
    · exact Nat.succ_le_succ (ih (here.next c))

/-- The length of a text in bytes of UTF-8. -/
def byteLength : List Char → Nat
  | [] => 0
  | c :: text => c.utf8Size + byteLength text

/-- The place of a byte offset in the text, which starts at `here`.

An offset past the end counts as the end; an offset inside a character has no place. -/
def coordAtByte? (here : Coord) : List Char → Nat → Option Coord
  | _, 0 => some here
  | [], _ + 1 => some here
  | c :: text, offset + 1 =>
    if offset + 1 < c.utf8Size then none
    else coordAtByte? (here.next c) text (offset + 1 - c.utf8Size)

/-- The stretch of a text, which starts at `zero`, between two places; none if they are reversed. -/
def between? (text : List Char) (start stop : Coord) : Option (List Char) :=
  let a := offsetOf Coord.zero start text
  let b := offsetOf Coord.zero stop text
  if a ≤ b then some ((text.take b).drop a) else none

end TexAnchor.Text
