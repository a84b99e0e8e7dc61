import TexAnchor.Document.Basic
import TexAnchor.Proofs.EditMapping

/-! # Places of a text in bytes

A place is looked up in a table of the bytes at which lines start, and then among the characters of
its line (`byteOffset?`).  Between two offsets stands a stretch of the text only if they are in order,
not past the end, and not inside a character (`slice?`, `slice?_eq_some_iff`).

Looking up always leads to a place between two characters, which is the one that `offsetOf` counts in
characters (`byteOffset?_eq`).  So `between?` is a stretch between bytes (`between?_eq_slice?`), and an
edit in order cuts the text between characters, before and after the new text stands in it
(`Document.splices_of_ordered`). -/

namespace TexAnchor

namespace Text

/-! ### Stretches between bytes -/

/-- The text behind some bytes; none if they end inside a character or past the end. -/
def dropBytes? : List Char → Nat → Option (List Char)
  | text, 0 => some text
  | [], _ + 1 => none
  | c :: text, count + 1 =>
    if count + 1 < c.utf8Size then none else dropBytes? text (count + 1 - c.utf8Size)

/-- The first bytes of a text; none if they end inside a character or past the end. -/
def takeBytes? : List Char → Nat → Option (List Char)
  | _, 0 => some []
  | [], _ + 1 => none
  | c :: text, count + 1 =>
    if count + 1 < c.utf8Size then none
    else (takeBytes? text (count + 1 - c.utf8Size)).map (c :: ·)

/-- The stretch of a text between two offsets in bytes. -/
def slice? (text : List Char) (start stop : Nat) : Option (List Char) :=
  if start ≤ stop then (dropBytes? text start).bind fun rest => takeBytes? rest (stop - start)
  else none

theorem byteLength_cons (c : Char) (text : List Char) :
    byteLength (c :: text) = c.utf8Size + byteLength text := rfl

theorem dropBytes?_byteLength (before rest : List Char) :
    dropBytes? (before ++ rest) (byteLength before) = some rest := by
  induction before with
  | nil => cases rest <;> rfl
  | cons c before ih =>
    have hpos : 0 < c.utf8Size := c.utf8Size_pos
    obtain ⟨count, hcount⟩ : ∃ count, byteLength (c :: before) = count + 1 :=
      ⟨byteLength (c :: before) - 1, by rw [byteLength_cons]; omega⟩
    have hrest : count + 1 - c.utf8Size = byteLength before := by
      rw [byteLength_cons] at hcount; omega
    rw [hcount, List.cons_append, dropBytes?, if_neg, hrest, ih]
    rw [byteLength_cons] at hcount; omega

theorem takeBytes?_byteLength (source rest : List Char) :
    takeBytes? (source ++ rest) (byteLength source) = some source := by
  induction source with
  | nil => cases rest <;> rfl
  | cons c source ih =>
    have hpos : 0 < c.utf8Size := c.utf8Size_pos
    obtain ⟨count, hcount⟩ : ∃ count, byteLength (c :: source) = count + 1 :=
      ⟨byteLength (c :: source) - 1, by rw [byteLength_cons]; omega⟩
    have hrest : count + 1 - c.utf8Size = byteLength source := by
      rw [byteLength_cons] at hcount; omega
    rw [hcount, List.cons_append, takeBytes?, if_neg, hrest, ih]
    · rfl
    · rw [byteLength_cons] at hcount; omega

theorem exists_of_dropBytes? {text rest : List Char} {count : Nat}
    (h : dropBytes? text count = some rest) :
    ∃ before, text = before ++ rest ∧ byteLength before = count := by
  induction text generalizing count with
  | nil =>
    cases count with
    | zero =>
      obtain rfl := Option.some.inj h
      exact ⟨[], rfl, rfl⟩
    | succ count => cases h
  | cons c text ih =>
    cases count with
    | zero =>
      obtain rfl := Option.some.inj h
      exact ⟨[], rfl, rfl⟩
    | succ count =>
      rw [dropBytes?] at h
      split at h
      · cases h
      · next hle =>
        obtain ⟨before, rfl, hbefore⟩ := ih h
        refine ⟨c :: before, rfl, ?_⟩
        rw [byteLength_cons, hbefore]; omega

theorem exists_of_takeBytes? {text source : List Char} {count : Nat}
    (h : takeBytes? text count = some source) :
    ∃ after, text = source ++ after ∧ byteLength source = count := by
  induction text generalizing count source with
  | nil =>
    cases count with
    | zero =>
      obtain rfl := Option.some.inj h
      exact ⟨[], rfl, rfl⟩
    | succ count => cases h
  | cons c text ih =>
    cases count with
    | zero =>
      obtain rfl := Option.some.inj h
      exact ⟨c :: text, rfl, rfl⟩
    | succ count =>
      rw [takeBytes?] at h
      split at h
      · cases h
      · next hle =>
        obtain ⟨first, hfirst, rfl⟩ := Option.map_eq_some_iff.mp h
        obtain ⟨after, rfl, hlength⟩ := ih hfirst
        refine ⟨after, rfl, ?_⟩
        rw [byteLength_cons, hlength]; omega

/-- A stretch between bytes is a stretch of characters: the offsets are in order and neither past the
end nor inside a character. -/
theorem slice?_eq_some_iff {text source : List Char} {start stop : Nat} :
    slice? text start stop = some source ↔ ∃ before after, text = before ++ source ++ after ∧
      byteLength before = start ∧ byteLength (before ++ source) = stop := by
  unfold slice?
  constructor
  · intro h
    split at h
    · next hle =>
      obtain ⟨rest, hrest, hsource⟩ := Option.bind_eq_some_iff.mp h
      obtain ⟨before, rfl, hbefore⟩ := exists_of_dropBytes? hrest
      obtain ⟨after, rfl, hlength⟩ := exists_of_takeBytes? hsource
      refine ⟨before, after, by rw [List.append_assoc], hbefore, ?_⟩
      rw [byteLength_append]; omega
    · cases h
  · rintro ⟨before, after, rfl, rfl, rfl⟩
    have hcount : byteLength (before ++ source) - byteLength before = byteLength source := by
      rw [byteLength_append]; omega
    rw [if_pos (by rw [byteLength_append]; omega), List.append_assoc, dropBytes?_byteLength,
      Option.bind_some, hcount, takeBytes?_byteLength]

theorem slice?_behind (before text : List Char) (start stop : Nat) :
    slice? (before ++ text) (byteLength before + start) (byteLength before + stop) =
      slice? text start stop := by
  apply Option.ext
  intro source
  rw [slice?_eq_some_iff, slice?_eq_some_iff]
  constructor
  · rintro ⟨left, right, htext, hstart, hstop⟩
    have hprefix : before <+: left :=
      prefix_of_byteLength_le ⟨text, rfl⟩ ⟨source ++ right, by rw [htext, List.append_assoc]⟩
        (by omega)
    obtain ⟨left, rfl⟩ := hprefix
    rw [List.append_assoc, List.append_assoc, List.append_cancel_left_eq] at htext
    refine ⟨left, right, by rw [htext, List.append_assoc], ?_, ?_⟩
    · rw [byteLength_append] at hstart; omega
    · rw [List.append_assoc, byteLength_append] at hstop; omega
  · rintro ⟨left, right, rfl, rfl, rfl⟩
    refine ⟨before ++ left, right, by simp, byteLength_append before left, ?_⟩
    rw [List.append_assoc, byteLength_append]

/-! ### The table of lines -/

/-- Where the lines behind the line feeds of a text start, which itself starts at an offset. -/
def lineStartsFrom (offset : Nat) : List Char → List Nat
  | [] => []
  | c :: text =>
    if c = '\n' then (offset + c.utf8Size) :: lineStartsFrom (offset + c.utf8Size) text
    else lineStartsFrom (offset + c.utf8Size) text

/-- Where the lines of a text start, in bytes. -/
def lineStarts (text : List Char) : List Nat := 0 :: lineStartsFrom 0 text

/-- Where the characters of a text start, which itself starts at an offset. -/
def charStarts (offset : Nat) : List Char → List Nat
  | [] => []
  | c :: text => offset :: charStarts (offset + c.utf8Size) text

/-- The offset of a place in bytes: a column past the end of its line is looked up as the end of the
line, and a line past the end of the text as the end of the text.  None if the line could not be cut
out of the text. -/
def byteOffset? (text : List Char) (place : Coord) : Option Nat :=
  match (lineStarts text)[place.line]? with
  | none => some (byteLength text)
  | some lineStart =>
    let lineEnd := ((lineStarts text)[place.line + 1]?).elim (byteLength text) (· - 1)
    (slice? text lineStart lineEnd).map fun line =>
      ((charStarts lineStart line)[place.column]?).getD lineEnd

theorem lineStartsFrom_eq_map (offset : Nat) (text : List Char) :
    lineStartsFrom offset text = (lineStartsFrom 0 text).map (offset + ·) := by
  induction text generalizing offset with
  | nil => rfl
  | cons c text ih =>
    rw [lineStartsFrom, lineStartsFrom, ih (offset + c.utf8Size), ih (0 + c.utf8Size)]
    split <;> simp [Nat.add_assoc, Function.comp_def]

theorem pos_of_mem_lineStartsFrom {text : List Char} {offset start : Nat}
    (h : start ∈ lineStartsFrom offset text) : 0 < start := by
  induction text generalizing offset with
  | nil => cases h
  | cons c text ih =>
    have hpos : 0 < c.utf8Size := c.utf8Size_pos
    rw [lineStartsFrom] at h
    split at h
    · rcases List.mem_cons.mp h with rfl | h
      · omega
      · exact ih h
    · exact ih h

theorem lineStartsFrom_of_not_mem {line : List Char} (h : '\n' ∉ line) (offset : Nat)
    (text : List Char) : lineStartsFrom offset (line ++ text) =
      lineStartsFrom (offset + byteLength line) text := by
  induction line generalizing offset with
  | nil => rfl
  | cons c line ih =>
    rw [List.mem_cons, not_or] at h
    rw [List.cons_append, lineStartsFrom, if_neg (Ne.symm h.1), ih h.2, byteLength_cons,
      Nat.add_assoc]

theorem lineStarts_of_not_mem {line : List Char} (h : '\n' ∉ line) : lineStarts line = [0] := by
  have hrest := lineStartsFrom_of_not_mem h 0 []
  rw [List.append_nil] at hrest
  rw [lineStarts, hrest]
  rfl

theorem lineStarts_append {line : List Char} (h : '\n' ∉ line) (rest : List Char) :
    lineStarts (line ++ '\n' :: rest) =
      0 :: (lineStarts rest).map (byteLength (line ++ ['\n']) + ·) := by
  have hlength : byteLength (line ++ ['\n']) = 0 + byteLength line + Char.utf8Size '\n' := by
    rw [byteLength_append, Nat.zero_add]
    rfl
  rw [lineStarts, lineStartsFrom_of_not_mem h, lineStartsFrom, if_pos rfl, ← hlength,
    lineStartsFrom_eq_map, lineStarts, List.map_cons, Nat.add_zero]

theorem getElem?_charStarts (offset : Nat) (line : List Char) (column : Nat) :
    ((charStarts offset line)[column]?).getD (offset + byteLength line) =
      offset + byteLength (line.take column) := by
  induction line generalizing offset column with
  | nil => simp [charStarts]
  | cons c line ih =>
    cases column with
    | zero => simp [charStarts, byteLength]
    | succ column =>
      have hlater := ih (offset + c.utf8Size) column
      rw [charStarts, List.getElem?_cons_succ, List.take_succ_cons, byteLength_cons, byteLength_cons,
        ← Nat.add_assoc, ← Nat.add_assoc]
      exact hlater

theorem charStarts_add (shift offset : Nat) (line : List Char) :
    charStarts (shift + offset) line = (charStarts offset line).map (shift + ·) := by
  induction line generalizing offset with
  | nil => rfl
  | cons c line ih => rw [charStarts, charStarts, List.map_cons, Nat.add_assoc, ih]

/-! ### Characters on the first line and behind it -/

theorem take_offsetOf_line {line rest : List Char} (h : '\n' ∉ line)
    (hrest : ∀ c ∈ rest.head?, c = '\n') (here : Coord) (column : Nat) :
    (line ++ rest).take (offsetOf here ⟨here.line, here.column + column⟩ (line ++ rest)) =
      line.take column := by
  induction line generalizing here column with
  | nil =>
    cases rest with
    | nil => simp
    | cons c rest =>
      rw [List.nil_append, offsetOf, if_pos (.inr ⟨hrest c rfl, rfl⟩), List.take_zero, List.take_nil]
  | cons c line ih =>
    rw [List.mem_cons, not_or] at h
    have hnext : here.next c = ⟨here.line, here.column + 1⟩ := if_neg (Ne.symm h.1)
    rw [List.cons_append, offsetOf]
    cases column with
    | zero =>
      rw [if_pos (.inl (Coord.le_refl _))]
      rfl
    | succ column =>
      have hgo : ¬ ((⟨here.line, here.column + (column + 1)⟩ : Coord) ≤ here ∨
          c = '\n' ∧ here.line = here.line) := by
        rw [Coord.le_def]
        rintro (hle | ⟨hfeed, -⟩)
        · simp only at hle; omega
        · exact h.1 hfeed.symm
      have hlater := ih h.2 (here.next c) column
      rw [if_neg hgo, List.take_succ_cons, List.take_succ_cons]
      rw [hnext] at hlater ⊢
      rw [Nat.add_assoc, Nat.add_comm 1 column] at hlater
      rw [hlater]

theorem not_found_before {here target : Coord} (hline : here.line < target.line) (c : Char) :
    ¬ (target ≤ here ∨ c = '\n' ∧ here.line = target.line) := by
  rw [Coord.le_def]
  omega

theorem offsetOf_behind {line : List Char} (h : '\n' ∉ line) {here target : Coord}
    (hline : here.line < target.line) (rest : List Char) :
    offsetOf here target (line ++ '\n' :: rest) =
      (line ++ ['\n']).length + offsetOf ⟨here.line + 1, 0⟩ target rest := by
  induction line generalizing here with
  | nil =>
    rw [List.nil_append, offsetOf, if_neg (not_found_before hline _), Nat.add_comm]
    rfl
  | cons c line ih =>
    rw [List.mem_cons, not_or] at h
    have hnext : here.next c = ⟨here.line, here.column + 1⟩ := if_neg (Ne.symm h.1)
    have hlater : offsetOf (here.next c) target (line ++ '\n' :: rest) =
        (line ++ ['\n']).length + offsetOf ⟨here.line + 1, 0⟩ target rest := by
      rw [hnext]
      exact ih h.2 hline
    rw [List.cons_append, offsetOf, if_neg (not_found_before hline _), hlater, List.cons_append,
      List.length_cons]
    omega

theorem offsetOf_eq_length {text : List Char} (h : '\n' ∉ text) {here target : Coord}
    (hline : here.line < target.line) : offsetOf here target text = text.length := by
  induction text generalizing here with
  | nil => rfl
  | cons c text ih =>
    rw [List.mem_cons, not_or] at h
    have hnext : (here.next c).line = here.line := by rw [Coord.next, if_neg (Ne.symm h.1)]
    rw [offsetOf, if_neg (not_found_before hline _), ih h.2 (hnext ▸ hline), List.length_cons]

/-! ### Looking up -/

theorem byteOffset?_first {line rest : List Char} (h : '\n' ∉ line)
    (hrest : rest = [] ∨ ∃ later, rest = '\n' :: later) (column : Nat) :
    byteOffset? (line ++ rest) ⟨0, column⟩ = some (byteLength (line.take column)) := by
  have hcolumn := getElem?_charStarts 0 line column
  rw [Nat.zero_add, Nat.zero_add] at hcolumn
  have hslice : slice? (line ++ rest) 0 (byteLength line) = some line :=
    slice?_eq_some_iff.mpr ⟨[], rest, rfl, rfl, rfl⟩
  have hend : ((lineStarts (line ++ rest))[0 + 1]?).elim (byteLength (line ++ rest)) (· - 1) =
      byteLength line := by
    rcases hrest with rfl | ⟨later, rfl⟩
    · rw [List.append_nil, lineStarts_of_not_mem h]
      rfl
    · rw [lineStarts_append h, List.getElem?_cons_succ, lineStarts, List.map_cons,
        List.getElem?_cons_zero, Option.elim_some, byteLength_append]
      rfl
  have hfirst : (lineStarts (line ++ rest))[0]? = some 0 := rfl
  simp only [byteOffset?, hfirst, hend, hslice, Option.map_some, hcolumn]

theorem byteOffset?_behind {line : List Char} (h : '\n' ∉ line) (rest : List Char) (k column : Nat) :
    byteOffset? (line ++ '\n' :: rest) ⟨k + 1, column⟩ =
      (byteOffset? rest ⟨k, column⟩).map (byteLength (line ++ ['\n']) + ·) := by
  have hsplit : line ++ '\n' :: rest = (line ++ ['\n']) ++ rest := by simp
  have hlength : byteLength (line ++ '\n' :: rest) =
      byteLength (line ++ ['\n']) + byteLength rest := by
    rw [hsplit, byteLength_append]
  generalize hcount : byteLength (line ++ ['\n']) = count at hlength ⊢
  simp only [byteOffset?, lineStarts_append h, List.getElem?_cons_succ, List.getElem?_map, hcount]
  cases hstart : (lineStarts rest)[k]? with
  | none => simp [hlength]
  | some start =>
    have hend : (((lineStarts rest)[k + 1]?).map (count + ·)).elim
        (byteLength (line ++ '\n' :: rest)) (· - 1) =
        count + ((lineStarts rest)[k + 1]?).elim (byteLength rest) (· - 1) := by
      cases hnext : (lineStarts rest)[k + 1]? with
      | none => exact hlength
      | some next =>
        have hpos : 0 < next := by
          rw [lineStarts, List.getElem?_cons_succ] at hnext
          exact pos_of_mem_lineStartsFrom (List.mem_of_getElem? hnext)
        simp only [Option.map_some, Option.elim_some]
        omega
    simp only [Option.map_some]
    rw [hend, hsplit, ← hcount, slice?_behind, Option.map_map]
    congr 1
    funext found
    simp only [Function.comp_apply, charStarts_add, List.getElem?_map]
    cases (charStarts start found)[column]? <;> rfl

/-- Looking up by bytes leads to the place that is looked up by characters. -/
theorem byteOffset?_eq (text : List Char) (place : Coord) :
    byteOffset? text place = some (byteOf text place) := by
  obtain ⟨k, column⟩ := place
  suffices h : ∀ l, byteOffset? text ⟨k, column⟩ =
      some (byteLength (text.take (offsetOf ⟨l, 0⟩ ⟨l + k, column⟩ text))) by
    have hzero := h 0
    rwa [Nat.zero_add] at hzero
  induction k generalizing text with
  | zero =>
    intro l
    obtain ⟨line, rest, rfl, hline, hrest⟩ : ∃ line rest, text = line ++ rest ∧ '\n' ∉ line ∧
        (rest = [] ∨ ∃ later, rest = '\n' :: later) := by
      by_cases hmem : '\n' ∈ text
      · obtain ⟨line, later, rfl, hline⟩ := List.eq_append_cons_of_mem hmem
        exact ⟨line, _, rfl, hline, .inr ⟨later, rfl⟩⟩
      · exact ⟨text, [], (List.append_nil text).symm, hmem, .inl rfl⟩
    have hfeed : ∀ c ∈ rest.head?, c = '\n' := by
      rcases hrest with rfl | ⟨later, rfl⟩ <;> simp
    have htake := take_offsetOf_line hline hfeed ⟨l, 0⟩ column
    rw [Nat.zero_add] at htake
    rw [byteOffset?_first hline hrest, Nat.add_zero, htake]
  | succ k ih =>
    intro l
    by_cases hmem : '\n' ∈ text
    · obtain ⟨line, rest, rfl, hline⟩ := List.eq_append_cons_of_mem hmem
      have hlater : (⟨l + (k + 1), column⟩ : Coord) = ⟨l + 1 + k, column⟩ := by
        rw [Nat.add_right_comm l 1 k]
        rfl
      have hsplit : line ++ '\n' :: rest = (line ++ ['\n']) ++ rest := by simp
      rw [byteOffset?_behind hline, ih rest (l + 1), offsetOf_behind hline (by simp only; omega),
        hlater, hsplit, List.take_length_add_append, Option.map_some, byteLength_append _ (rest.take _)]
    · have hstart : (lineStarts text)[k + 1]? = none := by
        rw [lineStarts_of_not_mem hmem]
        rfl
      rw [offsetOf_eq_length hmem (by simp only; omega), List.take_length, byteOffset?]
      simp only [hstart]

theorem byteLength_take_lt {text : List Char} {m n : Nat} (hlt : m < n) (hn : n ≤ text.length) :
    byteLength (text.take m) < byteLength (text.take n) := by
  obtain ⟨rest, hrest⟩ : text.take m <+: text.take n :=
    List.take_prefix_take_left (Nat.le_of_lt hlt)
  have hlength := congrArg List.length hrest
  rw [List.length_append, List.length_take, List.length_take] at hlength
  cases rest with
  | nil =>
    rw [List.length_nil] at hlength
    omega
  | cons c rest =>
    have hpos : 0 < c.utf8Size := c.utf8Size_pos
    rw [← hrest, byteLength_append, byteLength_cons]
    omega

theorem slice?_take {text : List Char} {m n : Nat} (hle : m ≤ n) :
    slice? text (byteLength (text.take m)) (byteLength (text.take n)) =
      some ((text.take n).drop m) := by
  have htake : text.take m = (text.take n).take m := by rw [List.take_take, Nat.min_eq_left hle]
  refine slice?_eq_some_iff.mpr ⟨text.take m, text.drop n, ?_, rfl, ?_⟩
  · rw [htake, List.take_append_drop, List.take_append_drop]
  · rw [htake, List.take_append_drop]

/-- The stretch between two places is the one between their offsets in bytes. -/
theorem between?_eq_slice? (text : List Char) (start stop : Coord) :
    between? text start stop = slice? text (byteOf text start) (byteOf text stop) := by
  unfold between?
  simp only
  split
  · next hle => exact (slice?_take hle).symm
  · next hgt =>
    have hlt := byteLength_take_lt (Nat.not_le.mp hgt) (offsetOf_le_length .zero start text)
    exact (if_neg (Nat.not_le.mpr hlt)).symm

end Text

/-! ### Edits -/

namespace Document

open Text (byteLength byteOffset? slice?)

/-- The edit can be made in the text of the document: its ends are looked up, what it takes away lies
between characters, and so do, in the edited text, what is before the new text and what is behind
it. -/
def Splices (d : Document) (e : Edit) : Prop :=
  ∃ start stop removed, byteOffset? d.text e.range.start.coord = some start ∧
    byteOffset? d.text e.range.stop.coord = some stop ∧ slice? d.text start stop = some removed ∧
    d.text = (d.around e.range).1 ++ removed ++ (d.around e.range).2 ∧
    e.applyTo d.text = (d.around e.range).1 ++ e.text ++ (d.around e.range).2 ∧
    slice? (e.applyTo d.text) 0 start = some (d.around e.range).1 ∧
    slice? (e.applyTo d.text) (start + byteLength e.text) (byteLength (e.applyTo d.text)) =
      some (d.around e.range).2

/-- An edit in order can be made, whatever lines and columns it names. -/
theorem splices_of_ordered {e : Edit} (h : e.range.Ordered) (d : Document) : d.Splices e := by
  have hle := Text.offsetOf_le_offsetOf h .zero d.text
  have htake : d.text.take (Text.offsetOf .zero e.range.start.coord d.text) =
      (d.text.take (Text.offsetOf .zero e.range.stop.coord d.text)).take
        (Text.offsetOf .zero e.range.start.coord d.text) := by
    rw [List.take_take, Nat.min_eq_left hle]
  refine ⟨_, _, _, Text.byteOffset?_eq d.text _, Text.byteOffset?_eq d.text _, Text.slice?_take hle,
    ?_, rfl, ?_, ?_⟩
  · rw [around, htake, List.take_append_drop, List.take_append_drop]
  · exact Text.slice?_eq_some_iff.mpr
      ⟨[], _, by rw [List.nil_append, Edit.applyTo, List.append_assoc]; rfl, rfl, rfl⟩
  · refine Text.slice?_eq_some_iff.mpr ⟨_, [], (List.append_nil _).symm, ?_, rfl⟩
    rw [Text.byteLength_append]
    rfl

end Document

end TexAnchor
