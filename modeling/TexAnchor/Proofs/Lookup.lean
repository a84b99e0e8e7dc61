import TexAnchor.Proofs.Bytes

/-! # Looking up places in both directions

A text that starts at an origin has a place for every offset between two of its characters
(`IsBoundary`, `coordAtByte?`), and every place is looked up as such an offset (`byteOfFrom`).  There and
back again an offset is the same.  A place is the one nearest to it that the text has
(`nearestCoord`), which is the place itself if the text has it (`HasCoordFrom`).  Both directions
keep the order (`byteOfFrom_coordAtByte?_inverse`).

Nothing changes if places and offsets are found in a table of the bytes at which lines start
(`placeOfByte?_eq`, `byteOffsetFrom?_eq`). -/

namespace TexAnchor.Text

open Coord

/-! ### The places of a text that starts at an origin -/

/-- The line `k` of a text that starts at the origin. -/
def lineAt? (origin : Coord) (text : List Char) (k : Nat) : Option (List Char) :=
  if k < origin.line then none else (lines text)[k - origin.line]?

/-- The column at which the line `k` starts: only the first one starts at the origin's column. -/
def firstColumn (origin : Coord) (k : Nat) : Nat :=
  if k = origin.line then origin.column else 0

/-- The coordinate is on a line of the text that starts at the origin, between the start and the end of
that line. -/
def HasCoordFrom (origin : Coord) (text : List Char) (c : Coord) : Prop :=
  ∃ line, lineAt? origin text c.line = some line ∧ firstColumn origin c.line ≤ c.column ∧
    c.column ≤ firstColumn origin c.line + line.length

/-- The nearest coordinate that the text has: on the same line its start or end, and outside its lines
the start or end of the text. -/
def nearestCoord (origin : Coord) (text : List Char) (c : Coord) : Coord :=
  match lineAt? origin text c.line with
  | some line =>
    ⟨c.line, min (max c.column (firstColumn origin c.line)) (firstColumn origin c.line + line.length)⟩
  | none => if c.line < origin.line then origin else origin.advance text

/-- The offset stands between two characters of the text, or at its start or end. -/
def IsBoundary (text : List Char) (o : Nat) : Prop :=
  ∃ a b, text = a ++ b ∧ byteLength a = o

/-- The offset in bytes as which a coordinate is looked up in a text that starts at the origin. -/
def byteOfFrom (origin : Coord) (text : List Char) (c : Coord) : Nat :=
  byteLength (text.take (offsetOf origin c text))

variable {origin c : Coord} {text : List Char} {k : Nat}

/-! ### The nearest place -/

theorem lineAt?_cons_behind (hk : origin.line < k) (d : Char) :
    lineAt? origin (d :: text) k = lineAt? (origin.next d) text k := by
  obtain ⟨j, rfl⟩ : ∃ j, k = origin.line + 1 + j := ⟨k - (origin.line + 1), by omega⟩
  obtain ⟨first, later, hlines⟩ := List.exists_cons_of_ne_nil (lines_ne_nil text)
  have hbehind : origin.line + 1 + j - origin.line = j + 1 := by omega
  unfold lineAt?
  by_cases hd : d = '\n'
  · have hnext : origin.next d = ⟨origin.line + 1, 0⟩ := if_pos hd
    rw [hnext, if_neg (by omega), if_neg (by simp only; omega), hbehind, Nat.add_sub_cancel_left]
    simp [lines, hd]
  · have hnext : origin.next d = ⟨origin.line, origin.column + 1⟩ := if_neg hd
    rw [hnext, if_neg (by omega), if_neg (by simp only; omega), hbehind]
    simp [lines, hd, hlines]

theorem lineAt?_first (origin : Coord) (text : List Char) :
    lineAt? origin text origin.line = (lines text)[0]? := by
  rw [lineAt?, if_neg (Nat.lt_irrefl _), Nat.sub_self]

theorem nearestCoord_of_le (h : c ≤ origin) : nearestCoord origin text c = origin := by
  unfold nearestCoord
  rcases h with hlt | ⟨hline, hcolumn⟩
  · rw [lineAt?, if_pos hlt]
    exact if_pos hlt
  · obtain ⟨first, later, hlines⟩ := List.exists_cons_of_ne_nil (lines_ne_nil text)
    have hfirst : lineAt? origin text c.line = some first := by
      rw [hline, lineAt?_first, hlines]
      rfl
    rw [hfirst, firstColumn, if_pos hline]
    simp only
    rw [Nat.max_eq_right hcolumn, Nat.min_eq_left (Nat.le_add_right _ _), hline]

theorem lines_lineFeed (text : List Char) : lines ('\n' :: text) = [] :: lines text := if_pos rfl

theorem nearestCoord_of_empty {later : List (List Char)} (hlines : lines text = [] :: later)
    (hline : c.line = origin.line) : nearestCoord origin text c = origin := by
  have hfirst : lineAt? origin text c.line = some [] := by
    rw [hline, lineAt?_first, hlines]
    rfl
  unfold nearestCoord
  rw [hfirst, firstColumn, if_pos hline]
  simp only [List.length_nil, Nat.add_zero]
  rw [Nat.min_eq_right (Nat.le_max_right _ _), hline]

theorem nearestCoord_nil (origin c : Coord) : nearestCoord origin [] c = origin := by
  rcases Nat.lt_trichotomy c.line origin.line with hlt | hline | hlt
  · exact nearestCoord_of_le (.inl hlt)
  · exact nearestCoord_of_empty rfl hline
  · have hnone : lineAt? origin [] c.line = none := by
      rw [lineAt?, if_neg (by omega)]
      exact List.getElem?_eq_none (by simp only [lines, List.length_singleton]; omega)
    unfold nearestCoord
    rw [hnone]
    exact if_neg (by omega)

theorem nearestCoord_cons {d : Char} (h : ¬ (c ≤ origin ∨ d = '\n' ∧ origin.line = c.line)) :
    nearestCoord origin (d :: text) c = nearestCoord (origin.next d) text c := by
  rw [not_or, not_le, lt_def] at h
  obtain ⟨hbehind, hgo⟩ := h
  unfold nearestCoord
  rcases hbehind with hlt | ⟨hline, hcolumn⟩
  · have hcolumn : firstColumn (origin.next d) c.line = firstColumn origin c.line := by
      unfold firstColumn next
      split <;> simp only [if_neg (Nat.ne_of_gt hlt)]
      split <;> rfl
    have hnext : ¬ c.line < (origin.next d).line := by
      unfold next
      split <;> simp only <;> omega
    rw [lineAt?_cons_behind hlt, hcolumn, if_neg hnext, if_neg (by omega), advance_cons]
  · have hd : d ≠ '\n' := fun hd => hgo ⟨hd, hline⟩
    have hnext : origin.next d = ⟨origin.line, origin.column + 1⟩ := if_neg hd
    obtain ⟨first, later, hlines⟩ := List.exists_cons_of_ne_nil (lines_ne_nil text)
    have hfirst : lineAt? origin (d :: text) c.line = some (d :: first) := by
      rw [← hline, lineAt?_first]
      simp [lines, hd, hlines]
    have hfirst' : lineAt? (origin.next d) text c.line = some first := by
      rw [hnext, ← hline, lineAt?, if_neg (Nat.lt_irrefl _), Nat.sub_self, hlines]
      rfl
    rw [hfirst, hfirst', hnext, firstColumn, firstColumn, if_pos hline.symm, if_pos hline.symm]
    simp only [List.length_cons, Coord.mk.injEq, true_and]
    omega

/-- A place is looked up as the nearest one. -/
theorem advance_take_offsetOf (origin c : Coord) (text : List Char) :
    origin.advance (text.take (offsetOf origin c text)) = nearestCoord origin text c := by
  induction text generalizing origin with
  | nil => exact (nearestCoord_nil origin c).symm
  | cons d text ih =>
    rw [offsetOf]
    split
    · next hfound =>
      rcases hfound with hle | ⟨rfl, hline⟩
      · exact (nearestCoord_of_le hle).symm
      · exact (nearestCoord_of_empty (lines_lineFeed text) hline.symm).symm
    · next hgo =>
      rw [nearestCoord_cons hgo, ← ih, List.take_succ_cons, advance_cons]

/-- The nearest place is the place itself exactly if the text has it. -/
theorem nearestCoord_eq_self_iff : nearestCoord origin text c = c ↔ HasCoordFrom origin text c := by
  obtain ⟨line, column⟩ := c
  unfold nearestCoord HasCoordFrom
  simp only
  cases hfound : lineAt? origin text line with
  | some found =>
    simp only [Coord.mk.injEq, true_and, Option.some.injEq, exists_eq_left']
    omega
  | none =>
    refine iff_of_false (fun heq => ?_) (by simp)
    simp only at heq
    unfold lineAt? at hfound
    split at heq
    · have := congrArg Coord.line heq
      simp only at this
      omega
    · next hline =>
      rw [if_neg hline, List.getElem?_eq_none_iff, length_lines, lineCount] at hfound
      have := congrArg Coord.line heq
      rw [line_advance] at this
      simp only at this
      omega

/-! ### The table of lines -/

/-- The coordinate counted from the origin: on the first line columns count from the origin's. -/
def relativeTo (origin c : Coord) : Coord :=
  ⟨c.line - origin.line, if c.line = origin.line then c.column - origin.column else c.column⟩

/-- The offset as which a coordinate is found in the table of lines. -/
def byteOffsetFrom? (origin : Coord) (text : List Char) (c : Coord) : Option Nat :=
  if c.line < origin.line then some 0 else byteOffset? text (relativeTo origin c)

/-- The line that an offset is on, the last one in the table that starts at or before it. -/
def lineOfByte (text : List Char) (o : Nat) : Nat := (lineStarts text).countP (· ≤ o) - 1

/-- The place of an offset as it is found in the table of lines; none inside a character. -/
def placeOfByte? (origin : Coord) (text : List Char) (o : Nat) : Option Coord :=
  let offset := min o (byteLength text)
  let line := lineOfByte text offset
  ((lineStarts text)[line]?).bind fun lineStart =>
    (slice? text lineStart offset).map fun before =>
      ⟨origin.line + line, if line = 0 then before.length + origin.column else before.length⟩

theorem advance_of_not_mem (h : '\n' ∉ text) (here : Coord) :
    here.advance text = ⟨here.line, here.column + text.length⟩ := by
  induction text generalizing here with
  | nil => rfl
  | cons c text ih =>
    rw [List.mem_cons, not_or] at h
    rw [advance_cons, ih h.2, next, if_neg (Ne.symm h.1), List.length_cons, Nat.add_assoc,
      Nat.add_comm 1]

theorem lt_of_mem_lineStartsFrom {start lineStart : Nat} (h : lineStart ∈ lineStartsFrom start text) :
    start < lineStart := by
  rw [lineStartsFrom_eq_map] at h
  obtain ⟨offset, hoffset, rfl⟩ := List.mem_map.mp h
  have hpos := pos_of_mem_lineStartsFrom hoffset
  omega

theorem getElem?_lineStartsFrom (start : Nat) (before rest : List Char) :
    (start :: lineStartsFrom start (before ++ '\n' :: rest))[before.count '\n' + 1]? =
      some (start + byteLength (before ++ ['\n'])) := by
  induction before generalizing start with
  | nil => rfl
  | cons c before ih =>
    have hlater := ih (start + c.utf8Size)
    rw [List.cons_append, List.getElem?_cons_succ, lineStartsFrom, List.cons_append, byteLength_cons,
      ← Nat.add_assoc]
    by_cases hc : c = '\n'
    · subst hc
      rwa [if_pos rfl, List.count_cons_self]
    · rw [if_neg hc, List.count_cons_of_ne hc]
      rwa [List.getElem?_cons_succ] at hlater

/-- Of the lines behind the first one as many start at or before an offset as there are line feeds
before it. -/
theorem countP_lineStartsFrom (start : Nat) (a b : List Char) :
    (lineStartsFrom start (a ++ b)).countP (· ≤ start + byteLength a) = a.count '\n' := by
  induction a generalizing start with
  | nil =>
    refine List.countP_eq_zero.mpr fun lineStart hmem => ?_
    have hlt := lt_of_mem_lineStartsFrom hmem
    rw [decide_eq_true_eq]
    exact Nat.not_le.mpr hlt
  | cons c a ih =>
    rw [List.cons_append, lineStartsFrom, byteLength_cons, ← Nat.add_assoc]
    by_cases hc : c = '\n'
    · subst hc
      rw [if_pos rfl, List.count_cons_self, List.countP_cons_of_pos (by simp), ih]
    · rw [if_neg hc, List.count_cons_of_ne hc, ih]

theorem lineOfByte_append (a b : List Char) :
    lineOfByte (a ++ b) (byteLength a) = a.count '\n' := by
  have hcount := countP_lineStartsFrom 0 a b
  rw [Nat.zero_add] at hcount
  rw [lineOfByte, lineStarts, List.countP_cons_of_pos (by simp), hcount, Nat.add_sub_cancel]

theorem exists_lastLine (a : List Char) : ∃ before line, a = before ++ line ∧ '\n' ∉ line ∧
    (before = [] ∨ ∃ earlier, before = earlier ++ ['\n']) := by
  by_cases hmem : '\n' ∈ a
  · obtain ⟨line, earlier, hsplit, hline⟩ := List.eq_append_cons_of_mem (List.mem_reverse.mpr hmem)
    refine ⟨earlier.reverse ++ ['\n'], line.reverse, ?_, by simpa using hline, .inr ⟨_, rfl⟩⟩
    rw [← List.reverse_reverse a, hsplit]
    simp
  · exact ⟨[], a, rfl, hmem, .inl rfl⟩

theorem placeOfByte?_append (origin : Coord) (a b : List Char) :
    placeOfByte? origin (a ++ b) (byteLength a) = some (origin.advance a) := by
  have hmin : min (byteLength a) (byteLength (a ++ b)) = byteLength a := by
    rw [byteLength_append]
    omega
  unfold placeOfByte?
  simp only [hmin, lineOfByte_append]
  obtain ⟨before, line, rfl, hline, hbefore⟩ := exists_lastLine a
  have hslice : slice? (before ++ line ++ b) (byteLength before) (byteLength (before ++ line)) =
      some line := slice?_eq_some_iff.mpr ⟨before, b, rfl, rfl, rfl⟩
  rw [List.count_append, List.count_eq_zero.mpr hline, Nat.add_zero, advance_append,
    advance_of_not_mem hline]
  rcases hbefore with rfl | ⟨earlier, rfl⟩
  · have hstart : (lineStarts ([] ++ line ++ b))[([] : List Char).count '\n']? = some 0 := rfl
    rw [hstart, Option.bind_some]
    have hfirst : slice? ([] ++ line ++ b) 0 (byteLength ([] ++ line)) = some line := hslice
    rw [hfirst]
    simp [Nat.add_comm]
  · have hstart : (lineStarts (earlier ++ ['\n'] ++ line ++ b))[(earlier ++ ['\n']).count '\n']? =
        some (byteLength (earlier ++ ['\n'])) := by
      have hfound := getElem?_lineStartsFrom 0 earlier (line ++ b)
      rw [Nat.zero_add] at hfound
      simpa [lineStarts] using hfound
    rw [hstart, Option.bind_some, hslice]
    simp [next, line_advance, Nat.add_assoc]

theorem coordAtByte?_of_le {o : Nat} (h : byteLength text ≤ o) (here : Coord) :
    coordAtByte? here text o = some (here.advance text) := by
  induction text generalizing here o with
  | nil => cases o <;> rfl
  | cons c text ih =>
    rw [byteLength_cons] at h
    have hpos := c.utf8Size_pos
    obtain ⟨n, rfl⟩ : ∃ n, o = n + 1 := ⟨o - 1, by omega⟩
    rw [coordAtByte?, if_neg (by omega), ih (by omega), advance_cons]

/-- The table leads to the place of every offset. -/
theorem placeOfByte?_eq (origin : Coord) (text : List Char) (o : Nat) :
    placeOfByte? origin text o = coordAtByte? origin text o := by
  rcases Nat.le_total (byteLength text) o with hle | hle
  · have hend := placeOfByte?_append origin text []
    rw [List.append_nil] at hend
    rw [coordAtByte?_of_le hle, ← hend, placeOfByte?, placeOfByte?, Nat.min_eq_right hle, Nat.min_self]
  · by_cases hboundary : IsBoundary text o
    · obtain ⟨a, b, rfl, rfl⟩ := hboundary
      rw [placeOfByte?_append, coordAtByte?_append]
    · have hplace : placeOfByte? origin text o = none := by
        rw [placeOfByte?, Nat.min_eq_left hle, Option.eq_none_iff_forall_ne_some]
        intro c hc
        obtain ⟨lineStart, -, hslice⟩ := Option.bind_eq_some_iff.mp hc
        obtain ⟨before, hbefore, -⟩ := Option.map_eq_some_iff.mp hslice
        obtain ⟨left, right, htext, -, hlength⟩ := slice?_eq_some_iff.mp hbefore
        exact hboundary ⟨_, right, htext, hlength⟩
      rw [hplace, eq_comm, Option.eq_none_iff_forall_ne_some]
      intro c hc
      obtain ⟨a, b, htext, ha, -⟩ := exists_of_coordAtByte? hle hc
      exact hboundary ⟨a, b, htext, ha⟩

/-- A coordinate is looked up alike from two places if it is as many lines behind each of them and, on
the line of the place, as many columns. -/
theorem offsetOf_congr {here here' c c' : Coord} (hle : here.line ≤ c.line)
    (hlines : c.line + here'.line = c'.line + here.line)
    (hfirst : c.line = here.line → c.column - here.column = c'.column - here'.column)
    (hlater : c.line ≠ here.line → c.column = c'.column) (text : List Char) :
    offsetOf here c text = offsetOf here' c' text := by
  induction text generalizing here here' with
  | nil => rfl
  | cons d text ih =>
    have hfound : (c ≤ here ∨ d = '\n' ∧ here.line = c.line) ↔
        (c' ≤ here' ∨ d = '\n' ∧ here'.line = c'.line) := by
      have hline : here.line = c.line ↔ here'.line = c'.line := by omega
      have hbefore : c ≤ here ↔ c' ≤ here' := by
        rw [le_def, le_def]
        by_cases h : c.line = here.line
        · have := hfirst h
          omega
        · omega
      rw [hline, hbefore]
    have hnext : ¬ (c ≤ here ∨ d = '\n' ∧ here.line = c.line) →
        offsetOf (here.next d) c text = offsetOf (here'.next d) c' text := by
      intro hgo
      have hstay : d = '\n' → here.line ≠ c.line := fun hd hline => hgo (.inr ⟨hd, hline⟩)
      unfold next
      split
      · next hd =>
        have hbehind := hlater (hstay hd).symm
        have hne := hstay hd
        refine ih ?_ ?_ (fun _ => ?_) fun _ => hbehind
        · simp only; omega
        · simp only; omega
        · rw [hbehind]
      · refine ih hle hlines (fun hline => ?_) hlater
        have := hfirst hline
        simp only; omega
    rw [offsetOf, offsetOf]
    simp only [← hfound]
    split
    · rfl
    · next hgo => rw [hnext hgo]

theorem byteOffsetFrom?_eq (origin : Coord) (text : List Char) (c : Coord) :
    byteOffsetFrom? origin text c = some (byteOfFrom origin text c) := by
  unfold byteOffsetFrom?
  split
  · next hlt =>
    have hzero : offsetOf origin c text = 0 := by
      cases text with
      | nil => rfl
      | cons d text => rw [offsetOf, if_pos (.inl (.inl hlt))]
    rw [byteOfFrom, hzero]
    rfl
  · next hle =>
    have hoffset : offsetOf origin c text = offsetOf .zero (relativeTo origin c) text := by
      refine offsetOf_congr (Nat.not_lt.mp hle) ?_ (fun hline => ?_) (fun hline => ?_) text
      · simp only [relativeTo, zero]; omega
      · simp [relativeTo, zero, hline]
      · simp [relativeTo, hline]
    rw [byteOffset?_eq, byteOf, byteOfFrom, hoffset]

/-! ### There and back -/

theorem isBoundary_byteOfFrom (origin : Coord) (text : List Char) (c : Coord) :
    IsBoundary text (byteOfFrom origin text c) :=
  ⟨_, _, (List.take_append_drop _ text).symm, rfl⟩

/-- What is looked up is at the nearest place. -/
theorem coordAtByte?_byteOfFrom (origin : Coord) (text : List Char) (c : Coord) :
    coordAtByte? origin text (byteOfFrom origin text c) = some (nearestCoord origin text c) := by
  have hat := coordAtByte?_append origin (text.take (offsetOf origin c text))
    (text.drop (offsetOf origin c text))
  rwa [List.take_append_drop, advance_take_offsetOf] at hat

/-- The place of an offset between two characters is one that the text has, and it is looked up as that
offset. -/
theorem IsBoundary.exists_coord {o : Nat} (h : IsBoundary text o) (origin : Coord) :
    ∃ c, coordAtByte? origin text o = some c ∧ HasCoordFrom origin text c ∧
      byteOfFrom origin text c = o := by
  obtain ⟨a, b, rfl, rfl⟩ := h
  have hfound : (a ++ b).take (offsetOf origin (origin.advance a) (a ++ b)) = a := by
    rw [offsetOf_advance, List.take_left]
  refine ⟨origin.advance a, coordAtByte?_append origin a b, nearestCoord_eq_self_iff.mp ?_, ?_⟩
  · rw [← advance_take_offsetOf, hfound]
  · rw [byteOfFrom, hfound]

theorem byteOfFrom_mono {c c' : Coord} (hle : c ≤ c') (origin : Coord) (text : List Char) :
    byteOfFrom origin text c ≤ byteOfFrom origin text c' := by
  obtain ⟨rest, hrest⟩ : text.take (offsetOf origin c text) <+: text.take (offsetOf origin c' text) :=
    List.take_prefix_take_left (offsetOf_le_offsetOf hle origin text)
  rw [byteOfFrom, byteOfFrom, ← hrest, byteLength_append]
  exact Nat.le_add_right _ _

theorem lt_of_coordAtByte? {o o' : Nat} {c c' : Coord} (ho' : o' ≤ byteLength text) (hlt : o < o')
    (hc : coordAtByte? origin text o = some c) (hc' : coordAtByte? origin text o' = some c') :
    c < c' := by
  obtain ⟨a, b, htext, rfl, rfl⟩ := exists_of_coordAtByte? (by omega) hc
  obtain ⟨a', b', htext', rfl, rfl⟩ := exists_of_coordAtByte? ho' hc'
  have ha : a <+: text := ⟨b, htext.symm⟩
  have ha' : a' <+: text := ⟨b', htext'.symm⟩
  have hprefix := prefix_of_byteLength_le ha ha' (Nat.le_of_lt hlt)
  exact (advance_lt_advance_iff origin ha ha').mpr (length_lt_of_byteLength_lt hprefix hlt)

/-- Offsets and places are converted both ways without loss: the place of an offset between two
characters is looked up as that offset, and what a coordinate is looked up as is the offset of the
nearest place, which is the coordinate itself if the text has it.  Looking up keeps the order, and of
two offsets the later one has the later place.  All this is so for the table of lines. -/
theorem byteOfFrom_coordAtByte?_inverse (origin : Coord) (text : List Char) :
    (∀ o, IsBoundary text o → ∃ c, coordAtByte? origin text o = some c ∧
      HasCoordFrom origin text c ∧ byteOfFrom origin text c = o) ∧
    (∀ c, IsBoundary text (byteOfFrom origin text c) ∧
      byteOfFrom origin text c ≤ byteLength text ∧
      coordAtByte? origin text (byteOfFrom origin text c) = some (nearestCoord origin text c) ∧
      (nearestCoord origin text c = c ↔ HasCoordFrom origin text c)) ∧
    (∀ c c', c ≤ c' → byteOfFrom origin text c ≤ byteOfFrom origin text c') ∧
    (∀ o o' c c', IsBoundary text o → IsBoundary text o' → o < o' →
      coordAtByte? origin text o = some c → coordAtByte? origin text o' = some c' → c < c') ∧
    (∀ o, placeOfByte? origin text o = coordAtByte? origin text o) ∧
    ∀ c, byteOffsetFrom? origin text c = some (byteOfFrom origin text c) := by
  have hbounded {o : Nat} (h : IsBoundary text o) : o ≤ byteLength text := by
    obtain ⟨a, b, rfl, rfl⟩ := h
    rw [byteLength_append]
    exact Nat.le_add_right _ _
  refine ⟨fun o ho => ho.exists_coord origin, fun c => ?_,
    fun c c' hle => byteOfFrom_mono hle origin text,
    fun o o' c c' _ ho' hlt hc hc' => lt_of_coordAtByte? (hbounded ho') hlt hc hc',
    placeOfByte?_eq origin text, byteOffsetFrom?_eq origin text⟩
  have hboundary := isBoundary_byteOfFrom origin text c
  exact ⟨hboundary, hbounded hboundary, coordAtByte?_byteOfFrom origin text c,
    nearestCoord_eq_self_iff⟩

end TexAnchor.Text
