import Mathlib.Data.List.Flatten
import Mathlib.Data.List.TakeWhile
import TexAnchor.Proofs.Building
import TexAnchor.Proofs.Excerpts

/-! # How a table lies in its body

The body of a table is cut at its row ends into `parts`, and a part is cut at its cell ends into `cells`.
Only nodes of the body itself cut, so what is nested in a node never does.  The `core` of a cell goes
from the first to the last of its nodes that are content.

`Tabular.rowsFrom` goes through the body once and carries the row and the cell that it has begun; what it
has carried to the end of a part are the cells of the part (`exists_rowsFrom_append`), and so the rows are
the parts, but for the last one if that has nothing in it (`exists_rowsFrom_eq`).  `Laid` says what this
means for the document, `build_laid_of_parse` that it holds of every table that was just parsed. -/

namespace TexAnchor

/-! ### Lists cut at separators -/

section Separators

variable {α : Type} {p : α → Bool} {l piece : List α}

/-- A list has no separator, or it goes on behind its first one. -/
theorem splitOnP_induction {motive : List α → Prop}
    (whole : ∀ l, (∀ a ∈ l, p a = false) → motive l)
    (cut : ∀ front a back, (∀ b ∈ front, p b = false) → p a = true → motive back →
      motive (front ++ a :: back)) (l : List α) : motive l := by
  suffices h : ∀ l front, (∀ a ∈ front, p a = false) → motive (front ++ l) from h l [] nofun
  intro l
  induction l with
  | nil =>
    intro front hfront
    rw [List.append_nil]
    exact whole front hfront
  | cons a l ih =>
    intro front hfront
    cases ha : p a with
    | true => exact cut front a l hfront ha (ih [] nofun)
    | false =>
      rw [List.append_cons]
      refine ih _ fun b hb => ?_
      rcases List.mem_append.mp hb with hb | hb
      · exact hfront b hb
      · rwa [List.mem_singleton.mp hb]

theorem length_splitOnP (p : α → Bool) (l : List α) : (l.splitOnP p).length = l.countP p + 1 := by
  induction l using splitOnP_induction (p := p) with
  | whole l h =>
    rw [List.splitOnP_eq_singleton h, List.countP_eq_zero.mpr (by simpa using h)]
    rfl
  | cut front a back hfront ha ih =>
    have hnone : front.countP p = 0 := List.countP_eq_zero.mpr (by simpa using hfront)
    rw [List.splitOnP_append_cons_of_forall_mem hfront a ha, List.length_cons, ih, List.countP_append,
      List.countP_cons_of_pos ha, hnone, Nat.zero_add]

theorem flatten_splitOnP (p : α → Bool) (l : List α) : (l.splitOnP p).flatten = l.filter (!p ·) := by
  induction l using splitOnP_induction (p := p) with
  | whole l h =>
    rw [List.splitOnP_eq_singleton h, List.flatten_singleton, List.filter_eq_self.mpr (by simpa using h)]
  | cut front a back hfront ha ih =>
    have hall : front.filter (!p ·) = front := List.filter_eq_self.mpr (by simpa using hfront)
    rw [List.splitOnP_append_cons_of_forall_mem hfront a ha, List.flatten_cons, ih, List.filter_append,
      hall, List.filter_cons_of_neg (by simp [ha])]

theorem isInfix_of_mem_splitOnP (h : piece ∈ l.splitOnP p) : piece <:+: l := by
  induction l using splitOnP_induction (p := p) with
  | whole l hl =>
    rw [List.splitOnP_eq_singleton hl, List.mem_singleton] at h
    subst h
    exact List.infix_rfl
  | cut front a back hfront ha ih =>
    rw [List.splitOnP_append_cons_of_forall_mem hfront a ha] at h
    rcases List.mem_cons.mp h with rfl | h
    · exact (List.prefix_append _ _).isInfix
    · exact (ih h).trans ((List.suffix_cons a back).trans (List.suffix_append _ _)).isInfix

theorem flatMap_splitOnP_sublist {f : List α → List α}
    (hf : ∀ piece ∈ l.splitOnP p, (f piece).Sublist piece) : ((l.splitOnP p).flatMap f).Sublist l := by
  have hpieces := List.Sublist.flatMap_right (l.splitOnP p) hf
  rw [List.flatMap_id', flatten_splitOnP] at hpieces
  exact hpieces.trans List.filter_sublist

theorem index_unique {pieces : List (List α)} (hnodup : pieces.flatten.Nodup) {i j : Nat}
    {piece' : List α} {a : α} (hi : pieces[i]? = some piece) (hj : pieces[j]? = some piece')
    (ha : a ∈ piece) (ha' : a ∈ piece') : i = j := by
  have hdisjoint := List.pairwise_iff_getElem.mp (List.nodup_flatten.mp hnodup).2
  obtain ⟨hilt, rfl⟩ := List.getElem?_eq_some_iff.mp hi
  obtain ⟨hjlt, rfl⟩ := List.getElem?_eq_some_iff.mp hj
  rcases Nat.lt_trichotomy i j with hlt | heq | hlt
  · exact absurd ha' (hdisjoint i j hilt hjlt hlt ha)
  · exact heq
  · exact absurd ha (hdisjoint j i hjlt hilt hlt ha')

end Separators

/-! ### Lists cut at both ends -/

section Ends

variable {α : Type} {p : α → Bool} {l l' : List α} {a : α}

/-- The list from its first to its last item without the property. -/
def cutEnds (p : α → Bool) (l : List α) : List α :=
  ((l.dropWhile p).reverse.dropWhile p).reverse

theorem cutEnds_isPrefix (p : α → Bool) (l : List α) : cutEnds p l <+: l.dropWhile p := by
  rw [← List.reverse_suffix, cutEnds, List.reverse_reverse]
  exact List.dropWhile_suffix p

theorem cutEnds_isInfix (p : α → Bool) (l : List α) : cutEnds p l <:+: l :=
  (cutEnds_isPrefix p l).isInfix.trans (List.dropWhile_suffix p).isInfix

theorem filter_dropWhile (p : α → Bool) (l : List α) :
    (l.dropWhile p).filter (!p ·) = l.filter (!p ·) := by
  induction l with
  | nil => rfl
  | cons a l ih =>
    cases ha : p a with
    | true => rw [List.dropWhile_cons_of_pos ha, ih, List.filter_cons_of_neg (by simp [ha])]
    | false => rw [List.dropWhile_cons_of_neg (by simp [ha])]

theorem filter_cutEnds (p : α → Bool) (l : List α) :
    (cutEnds p l).filter (!p ·) = l.filter (!p ·) := by
  rw [cutEnds, List.filter_reverse, filter_dropWhile, List.filter_reverse, List.reverse_reverse,
    filter_dropWhile]

theorem mem_cutEnds (hmem : a ∈ l) (ha : p a = false) : a ∈ cutEnds p l := by
  have h : a ∈ (cutEnds p l).filter (!p ·) := by
    rw [filter_cutEnds]
    exact List.mem_filter.mpr ⟨hmem, by simp [ha]⟩
  exact (List.mem_filter.mp h).1

theorem getLast?_cutEnds (p : α → Bool) (l : List α) :
    (cutEnds p l).getLast? = (l.filter (!p ·)).getLast? := by
  rw [cutEnds, List.getLast?_reverse, ← List.find?_not_eq_head?_dropWhile, ← List.getLast?_filter,
    filter_dropWhile]

theorem head?_cutEnds (p : α → Bool) (l : List α) :
    (cutEnds p l).head? = (l.filter (!p ·)).head? := by
  rw [← filter_cutEnds]
  cases hcut : cutEnds p l with
  | nil => rfl
  | cons a rest =>
    obtain ⟨back, hback⟩ := cutEnds_isPrefix p l
    have hhead := List.head?_dropWhile_not p l
    rw [← hback, hcut, List.cons_append, List.head?_cons] at hhead
    rw [List.filter_cons_of_pos (by simpa using hhead), List.head?_cons, List.head?_cons]

theorem cutEnds_eq_nil_iff : cutEnds p l = [] ↔ ∀ a ∈ l, p a = true := by
  rw [← List.head?_eq_none_iff, head?_cutEnds, List.head?_eq_none_iff, List.filter_eq_nil_iff]
  simp

theorem dropWhile_isInfix (h : l <:+: l') : l.dropWhile p <:+: l'.dropWhile p := by
  obtain ⟨before, after, rfl⟩ := h
  have hfront : l.dropWhile p <+: (l ++ after).dropWhile p := by
    rw [List.dropWhile_append]
    split
    next hempty =>
      rw [List.isEmpty_iff.mp hempty]
      exact List.nil_prefix
    · exact List.prefix_append _ _
  have hback (rest : List α) : rest.dropWhile p <:+ (before ++ rest).dropWhile p := by
    rw [List.dropWhile_append]
    split
    · exact List.suffix_rfl
    · exact (List.dropWhile_suffix p).trans (List.suffix_append _ _)
  rw [List.append_assoc]
  exact hfront.isInfix.trans (hback _).isInfix

theorem cutEnds_isInfix_cutEnds (h : l <:+: l') : cutEnds p l <:+: cutEnds p l' :=
  (dropWhile_isInfix (dropWhile_isInfix h).reverse).reverse

end Ends

namespace Provider.Tabular

variable {s : Subject} {v : View} {row : List String} {cell part body : List View}

/-! ### Rows and cells -/

/-- The node ends a cell. -/
def isCellEnd (v : View) : Bool :=
  v.kind = .specialSymbol "&"

/-- The node ends a row. -/
def isRowEnd (v : View) : Bool :=
  v.kind = .specialSymbol "\\\\"

/-- The node draws a line between rows. -/
def isRule (v : View) : Bool :=
  v.kind.commandName?.any rules.contains

/-- The node is neither white space nor a comment nor a rule. -/
def isContent (v : View) : Bool :=
  !v.kind.isTrivia && !isRule v

/-- The parts of a body between its row ends. -/
def parts (body : List View) : List (List View) :=
  body.splitOnP isRowEnd

/-- The cells of a part between its cell ends. -/
def cells (part : List View) : List (List View) :=
  part.splitOnP isCellEnd

/-- The nodes of a cell from the first to the last that is content. -/
def core (cell : List View) : List View :=
  cutEnds (!isContent ·) cell

/-- The core of the cell with a number in the part with a number. -/
def nodesAt (body : List View) (i j : Nat) : List View :=
  (((parts body)[i]?.bind fun part => (cells part)[j]?).map core).getD []

/-- There is a cell end in the part, or the text of its only cell is not blank. -/
def makesRow (d : Document) (part : List View) : Bool :=
  part.any isCellEnd || (d.textOf? (core part)).any fun source => !Text.isBlankText source

/-- The parts that are rows: all but the last, and the last if it makes one. -/
def rowParts (d : Document) (body : List View) : List (List View) :=
  (parts body).dropLast ++ (parts body).getLast?.toList.filter (makesRow d)

/-- How the rows of a table lie in its body. -/
structure Laid (d : Document) (body : List View) (rows : List (List String)) : Prop where
  /-- There is a row for each row end, and one for what follows the last if that makes one. -/
  length_rows : rows.length =
    body.countP isRowEnd + if (parts body).getLast?.any (makesRow d) then 1 else 0
  /-- A row has one cell more than its part has cell ends. -/
  length_row (i : Nat) (row : List String) : rows[i]? = some row →
    ∃ part, (parts body)[i]? = some part ∧ row.length = part.countP isCellEnd + 1
  /-- A cell has the trimmed source of its core. -/
  text_eq (i j : Nat) (row : List String) (text : String) : rows[i]? = some row →
    row[j]? = some text → ∃ source, d.textOf? (nodesAt body i j) = some source ∧
      text = String.ofList (Text.trim source)
  /-- Every node of the body that is content and not blank is in the core of one cell, and the text of
  that cell has its source. -/
  covers (v : View) (source : List Char) : v ∈ body → isContent v = true → isCellEnd v = false →
    isRowEnd v = false → d.nodeText? v.id = some source → Text.isBlankText source = false →
    ∃ i j row text, rows[i]? = some row ∧ row[j]? = some text ∧ v ∈ nodesAt body i j ∧
      Text.trim source <:+: text.toList ∧ ∀ i' j', v ∈ nodesAt body i' j' → i' = i ∧ j' = j
  /-- The cells follow one another as their nodes do. -/
  ordered : ((parts body).flatMap fun part => (cells part).flatMap core).Sublist body

theorem markOf_eq (v : View) : markOf v.kind =
    if isCellEnd v then .cellEnd else if isRowEnd v then .rowEnd
    else if isRule v then .rule else .content := by
  unfold markOf isCellEnd isRowEnd isRule
  cases v.kind <;> simp [NodeKind.commandName?]

/-! ### The text of a cell -/

/-- The text that is looked up for a cell. -/
def textOfCell (s : Subject) (cell : List View) : String :=
  String.ofList (Text.trim ((s.spanText? (core cell)).getD []))

/-- The texts that are looked up for the cells of a body, row by row. -/
def rowTexts (s : Subject) (body : List View) : List (List String) :=
  (rowParts s.document body).map fun part => (cells part).map (textOfCell s)

theorem spanText?_congr {nodes nodes' : List View} (hfirst : nodes.head? = nodes'.head?)
    (hlast : nodes.getLast? = nodes'.getLast?) : s.spanText? nodes = s.spanText? nodes' := by
  rw [Subject.spanText?, hfirst, hlast]
  rfl

/-- The rules at the ends of a cell do not matter to its text. -/
theorem cellText_eq (s : Subject) (cell : List View) :
    cellText s (cell.filter (!isRule ·)) = .ok (textOfCell s cell) := by
  have hfilter : (cell.filter (!isRule ·)).filter (!·.kind.isTrivia) =
      cell.filter (!(!isContent ·) ·) := by
    rw [List.filter_filter]
    refine List.filter_congr fun v _ => ?_
    rw [Bool.not_not, isContent]
  have htrim : trimTrivia (cell.filter (!isRule ·)) =
      cutEnds (·.kind.isTrivia) (cell.filter (!isRule ·)) := rfl
  have hspan : s.spanText? (trimTrivia (cell.filter (!isRule ·))) = s.spanText? (core cell) := by
    rw [htrim, core]
    apply spanText?_congr
    · rw [head?_cutEnds, head?_cutEnds, hfilter]
    · rw [getLast?_cutEnds, getLast?_cutEnds, hfilter]
  obtain ⟨text, htext⟩ := s.exists_spanText? (core cell)
  rw [cellText, Subject.trimmedSpan, hspan, htext, textOfCell, htext]
  rfl

/-! ### Going through the body -/

theorem rowsFrom_cellEnd (row : List String) (cell : List View) (hv : isCellEnd v = true) :
    rowsFrom s row (cell.filter (!isRule ·)) (v :: body) =
      rowsFrom s (row ++ [textOfCell s cell]) [] body := by
  rw [rowsFrom, markOf_eq, if_pos hv]
  simp only [cellText_eq]
  rfl

theorem rowsFrom_rowEnd (row : List String) (cell : List View) (hcell : isCellEnd v = false)
    (hv : isRowEnd v = true) : rowsFrom s row (cell.filter (!isRule ·)) (v :: body) =
      (rowsFrom s [] [] body).map ((row ++ [textOfCell s cell]) :: ·) := by
  rw [rowsFrom, markOf_eq, if_neg (by simp [hcell]), if_pos hv]
  simp only [cellText_eq]
  cases rowsFrom s [] [] body <;> rfl

theorem rowsFrom_content (row : List String) (cell : List View) (hcell : isCellEnd v = false)
    (hrow : isRowEnd v = false) : rowsFrom s row (cell.filter (!isRule ·)) (v :: body) =
      rowsFrom s row ((cell ++ [v]).filter (!isRule ·)) body := by
  rw [rowsFrom, markOf_eq, if_neg (by simp [hcell]), if_neg (by simp [hrow]), List.filter_append]
  cases hrule : isRule v with
  | true => simp [hrule]
  | false => simp [hrule]

theorem rowsFrom_nil (row : List String) (cell : List View) :
    rowsFrom s row (cell.filter (!isRule ·)) [] =
      .ok (if row.isEmpty && (textOfCell s cell).isEmpty then [] else [row ++ [textOfCell s cell]]) := by
  rw [rowsFrom, cellText_eq]
  show (if _ then _ else _) = _
  split <;> rfl

theorem modifyHead_nil_append (pieces : List (List View)) : pieces.modifyHead ([] ++ ·) = pieces := by
  cases pieces <;> rfl

/-- Going through a part finishes its cells but the last one, the first of which was begun before. -/
theorem exists_rowsFrom_append (s : Subject) (hpart : ∀ v ∈ part, isRowEnd v = false)
    (cell : List View) : ∃ finished begun,
      (cells part).modifyHead (cell ++ ·) = finished ++ [begun] ∧
      ∀ row rest, rowsFrom s row (cell.filter (!isRule ·)) (part ++ rest) =
        rowsFrom s (row ++ finished.map (textOfCell s)) (begun.filter (!isRule ·)) rest := by
  induction part generalizing cell with
  | nil => exact ⟨[], cell, by simp [cells], by simp⟩
  | cons v part ih =>
    rw [List.forall_mem_cons] at hpart
    rw [cells, List.splitOnP_cons_eq_if_modifyHead]
    cases hv : isCellEnd v with
    | true =>
      obtain ⟨finished, begun, hcells, hrest⟩ := ih hpart.2 []
      refine ⟨cell :: finished, begun, ?_, fun row rest => ?_⟩
      · rw [modifyHead_nil_append, cells] at hcells
        simp [hcells]
      · have hrest := hrest (row ++ [textOfCell s cell]) rest
        rw [List.filter_nil] at hrest
        rw [List.cons_append, rowsFrom_cellEnd row cell hv, hrest, List.map_cons,
          List.append_assoc row, List.singleton_append]
    | false =>
      obtain ⟨finished, begun, hcells, hrest⟩ := ih hpart.2 (cell ++ [v])
      refine ⟨finished, begun, ?_, fun row rest => ?_⟩
      · rw [cells] at hcells
        rw [if_neg (by simp), List.modifyHead_modifyHead, ← hcells]
        congr 1
        funext first
        simp
      · rw [List.cons_append, rowsFrom_content row cell hv hpart.1, hrest]

/-- A body is cut into rows at its row ends. -/
theorem exists_rowsFrom_eq (s : Subject) (body : List View) : ∃ done last,
    parts body = done ++ [last] ∧ rowsFrom s [] [] body = .ok
      ((done ++ if last.any isCellEnd || !(textOfCell s last).isEmpty then [last] else []).map
        fun part => (cells part).map (textOfCell s)) := by
  induction body using splitOnP_induction (p := isRowEnd) with
  | whole last hlast =>
    refine ⟨[], last, List.splitOnP_eq_singleton hlast, ?_⟩
    obtain ⟨finished, begun, hcells, hrest⟩ := exists_rowsFrom_append s hlast []
    rw [modifyHead_nil_append] at hcells
    have hrest := hrest [] []
    rw [List.append_nil, List.filter_nil, List.nil_append, rowsFrom_nil] at hrest
    rw [hrest, List.nil_append]
    cases hany : last.any isCellEnd with
    | true =>
      have hne : finished ≠ [] := by
        rintro rfl
        have hlength := length_splitOnP isCellEnd last
        rw [← cells, hcells] at hlength
        have hnone : last.countP isCellEnd = 0 := by simpa using hlength.symm
        rw [List.countP_eq_zero] at hnone
        obtain ⟨v, hv, hend⟩ := List.any_eq_true.mp hany
        exact hnone v hv hend
      simp [hcells, hne]
    | false =>
      have hwhole : cells last = [last] := List.splitOnP_eq_singleton (by simpa using hany)
      obtain ⟨rfl, rfl⟩ : finished = [] ∧ begun = last := by
        simpa [List.cons_eq_append_iff] using hwhole.symm.trans hcells
      cases (textOfCell s begun).isEmpty <;> simp [hwhole]
  | cut front v back hfront hv ih =>
    obtain ⟨done, last, hparts, hrows⟩ := ih
    obtain ⟨finished, begun, hcells, hrest⟩ := exists_rowsFrom_append s hfront []
    rw [modifyHead_nil_append] at hcells
    refine ⟨front :: done, last, ?_, ?_⟩
    · rw [parts, List.splitOnP_append_cons_of_forall_mem hfront v hv, ← parts, hparts]
      rfl
    · have hcell : isCellEnd v = false := by
        simp_all [isRowEnd, isCellEnd]
      have hrest := hrest [] (v :: back)
      rw [List.filter_nil, List.nil_append, rowsFrom_rowEnd _ _ hcell hv, hrows] at hrest
      rw [hrest]
      simp [hcells, Except.map]


/-! ### Where the nodes of the body are -/

theorem rowParts_isPrefix (d : Document) (body : List View) : rowParts d body <+: parts body := by
  have hne : parts body ≠ [] := List.splitOnP_ne_nil isRowEnd body
  have hparts := List.dropLast_append_getLast hne
  rw [rowParts, List.getLast?_eq_some_getLast hne, Option.toList_some, List.filter_singleton]
  cases makesRow d ((parts body).getLast hne) with
  | true =>
    rw [cond_true]
    exact ⟨[], by rw [List.append_nil, hparts]⟩
  | false =>
    rw [cond_false, List.append_nil]
    exact List.dropLast_prefix _

theorem length_rowParts (d : Document) (body : List View) : (rowParts d body).length =
    body.countP isRowEnd + if (parts body).getLast?.any (makesRow d) then 1 else 0 := by
  have hne : parts body ≠ [] := List.splitOnP_ne_nil isRowEnd body
  rw [rowParts, List.length_append, List.length_dropLast, parts, length_splitOnP, Nat.add_sub_cancel,
    ← parts, List.getLast?_eq_some_getLast hne, Option.toList_some, List.filter_singleton,
    Option.any_some]
  cases makesRow d ((parts body).getLast hne) <;> rfl

theorem getElem?_rowParts {d : Document} {i : Nat} (hpart : (parts body)[i]? = some part)
    (hrow : makesRow d part = true) : (rowParts d body)[i]? = some part := by
  have hne : parts body ≠ [] := List.splitOnP_ne_nil isRowEnd body
  have hparts := List.dropLast_append_getLast hne
  rw [← hparts] at hpart
  rw [rowParts, List.getLast?_eq_some_getLast hne, Option.toList_some, List.filter_singleton]
  rcases Nat.lt_or_ge i (parts body).dropLast.length with hlt | hge
  · rw [List.getElem?_append_left hlt] at hpart ⊢
    exact hpart
  · rw [List.getElem?_append_right hge] at hpart ⊢
    have hlast := List.mem_singleton.mp (List.mem_of_getElem? hpart)
    rw [← hlast] at hpart ⊢
    rw [hrow]
    exact hpart

theorem mem_nodesAt {i j : Nat} : v ∈ nodesAt body i j ↔
    ∃ part cell, (parts body)[i]? = some part ∧ (cells part)[j]? = some cell ∧ v ∈ core cell := by
  unfold nodesAt
  cases hpart : (parts body)[i]? with
  | none => simp
  | some part => cases hcell : (cells part)[j]? <;> simp [hcell]

theorem isInfix_of_cell {i j : Nat} (hpart : (parts body)[i]? = some part)
    (hcell : (cells part)[j]? = some cell) : cell <:+: body :=
  (isInfix_of_mem_splitOnP (List.mem_of_getElem? hcell)).trans
    (isInfix_of_mem_splitOnP (List.mem_of_getElem? hpart))

theorem nodesAt_eq {i j : Nat} (hpart : (parts body)[i]? = some part)
    (hcell : (cells part)[j]? = some cell) : nodesAt body i j = core cell := by
  rw [nodesAt, hpart, Option.bind_some, hcell]
  rfl

theorem exists_nodesAt (hmem : v ∈ body) (hcontent : isContent v = true) (hcell : isCellEnd v = false)
    (hrow : isRowEnd v = false) : ∃ i j, v ∈ nodesAt body i j := by
  have hparts : v ∈ (parts body).flatten := by
    rw [parts, flatten_splitOnP]
    exact List.mem_filter.mpr ⟨hmem, by simp [hrow]⟩
  obtain ⟨part, hpart, hmem⟩ := List.mem_flatten.mp hparts
  have hcells : v ∈ (cells part).flatten := by
    rw [cells, flatten_splitOnP]
    exact List.mem_filter.mpr ⟨hmem, by simp [hcell]⟩
  obtain ⟨cell, hcell, hmem⟩ := List.mem_flatten.mp hcells
  obtain ⟨i, hi⟩ := List.mem_iff_getElem?.mp hpart
  obtain ⟨j, hj⟩ := List.mem_iff_getElem?.mp hcell
  exact ⟨i, j, mem_nodesAt.mpr ⟨part, cell, hi, hj, mem_cutEnds hmem (by simp [hcontent])⟩⟩

theorem nodesAt_unique (hnodup : body.Nodup) {i j i' j' : Nat} (h : v ∈ nodesAt body i j)
    (h' : v ∈ nodesAt body i' j') : i' = i ∧ j' = j := by
  obtain ⟨part, cell, hi, hj, hcore⟩ := mem_nodesAt.mp h
  obtain ⟨part', cell', hi', hj', hcore'⟩ := mem_nodesAt.mp h'
  have hmem := (cutEnds_isInfix _ _).subset hcore
  have hmem' := (cutEnds_isInfix _ _).subset hcore'
  have hpart := (isInfix_of_mem_splitOnP (List.mem_of_getElem? hj)).subset hmem
  have hpart' := (isInfix_of_mem_splitOnP (List.mem_of_getElem? hj')).subset hmem'
  have hparts : (parts body).flatten.Nodup := by
    rw [parts, flatten_splitOnP]
    exact hnodup.filter _
  obtain rfl := index_unique hparts hi' hi hpart' hpart
  obtain rfl := Option.some.inj (hi'.symm.trans hi)
  have hcells : (cells part').flatten.Nodup := by
    rw [cells, flatten_splitOnP]
    exact (hnodup.sublist (isInfix_of_mem_splitOnP (List.mem_of_getElem? hi)).sublist).filter _
  exact ⟨rfl, index_unique hcells hj' hj hmem' hmem⟩

/-- A part with something in one of its cells makes a row. -/
theorem makesRow_of_core {d : Document} {j : Nat} {source whole : List Char}
    (hcell : (cells part)[j]? = some cell) (hwhole : d.textOf? (core cell) = some whole)
    (hblank : Text.isBlankText source = false) (hwithin : source <:+: whole) :
    makesRow d part = true := by
  rw [makesRow, Bool.or_eq_true]
  refine or_iff_not_imp_left.mpr fun hany => ?_
  have hone : cells part = [part] := List.splitOnP_eq_singleton (by simpa using hany)
  have hmem := List.mem_of_getElem? hcell
  rw [hone, List.mem_singleton] at hmem
  obtain ⟨c, hc, hink⟩ := List.all_eq_false.mp hblank
  rw [← hmem, hwhole, Option.any_some, Bool.not_eq_true', Text.isBlankText, List.all_eq_false]
  exact ⟨c, hwithin.subset hc, hink⟩

/-! ### Tables that were just parsed -/

section Parsed

variable {path : Path} {text : List Char} {id : NodeId}

theorem nodup_body (h : Document.parse path text = .ok s.document)
    (hv : s.document.arena.view? id = some v) (hkind : v.kind.tag.isFilled = true) :
    v.body.Nodup := by
  have hnode := Arena.get?_of_view? hv
  obtain ⟨p, hp, -⟩ := Document.exists_consists_of_parse h
  obtain ⟨first, last, htiles⟩ :=
    (Document.tiled_of_construct h hnode (.inl hkind)).exists_tiles hkind
  have hchildren : v.children.Nodup := by
    apply List.Nodup.of_map View.id
    rw [htiles.map_id_children hv]
    exact hp.nodup_children hnode
  unfold View.body
  split
  · exact hchildren.sublist (List.drop_sublist _ _)
  · exact List.nodup_nil

theorem body_isSuffix (v : View) : v.body <:+ v.children := by
  unfold View.body
  split
  · exact List.drop_suffix _ _
  · exact List.nil_suffix

theorem exists_textOf?_core (h : Document.parse path text = .ok s.document)
    (hv : s.document.arena.view? id = some v) (hkind : v.kind.tag.isFilled = true)
    (hcell : cell <:+: v.body) : ∃ source, s.document.textOf? (core cell) = some source ∧
      textOfCell s cell = String.ofList (Text.trim source) := by
  unfold textOfCell
  by_cases hne : core cell = []
  · rw [hne]
    exact ⟨[], rfl, rfl⟩
  · have hrun : core cell <:+: v.children :=
      (cutEnds_isInfix _ _).trans (hcell.trans (body_isSuffix v).isInfix)
    obtain ⟨source, hsource, hspan⟩ := Document.exists_spanText?_of_infix h hv hkind hrun hne
    exact ⟨source, hsource, by rw [hspan, Option.getD_some]⟩

theorem isEmpty_trim (source : List Char) :
    (String.ofList (Text.trim source)).isEmpty = Text.isBlankText source := by
  have htrim : Text.trim source = cutEnds Text.isBlank source := rfl
  rw [Bool.eq_iff_iff, Text.isBlankText, List.all_eq_true, String.isEmpty_iff, String.ofList_eq_empty_iff,
    htrim, cutEnds_eq_nil_iff]

theorem makesRow_eq (h : Document.parse path text = .ok s.document)
    (hv : s.document.arena.view? id = some v) (hkind : v.kind.tag.isFilled = true)
    (hpart : part ∈ parts v.body) :
    makesRow s.document part = (part.any isCellEnd || !(textOfCell s part).isEmpty) := by
  obtain ⟨source, hsource, htext⟩ := exists_textOf?_core h hv hkind (isInfix_of_mem_splitOnP hpart)
  rw [makesRow, hsource, htext, isEmpty_trim, Option.any_some]

theorem rowsFrom_body (h : Document.parse path text = .ok s.document)
    (hv : s.document.arena.view? id = some v) (hkind : v.kind.tag.isFilled = true) :
    rowsFrom s [] [] v.body = .ok (rowTexts s v.body) := by
  obtain ⟨done, last, hparts, hrows⟩ := exists_rowsFrom_eq s v.body
  rw [hrows, ← makesRow_eq h hv hkind (by simp [hparts]), rowTexts, rowParts, hparts,
    List.dropLast_concat, List.getLast?_concat, Option.toList_some, List.filter_singleton,
    Bool.cond_eq_ite]

theorem exists_part_of_row {i : Nat} (hi : (rowTexts s body)[i]? = some row) :
    ∃ part, (parts body)[i]? = some part ∧ row = (cells part).map (textOfCell s) := by
  rw [rowTexts, List.getElem?_map] at hi
  obtain ⟨part, hpart, rfl⟩ := Option.map_eq_some_iff.mp hi
  obtain ⟨hlt, rfl⟩ := List.getElem?_eq_some_iff.mp hpart
  exact ⟨_, List.prefix_iff_getElem?.mp (rowParts_isPrefix _ _) i hlt, rfl⟩

/-- The texts that are looked up for a table lie in its body. -/
theorem laid_rowTexts (h : Document.parse path text = .ok s.document)
    (hv : s.document.arena.view? id = some v) (hkind : v.kind.tag.isFilled = true) :
    Laid s.document v.body (rowTexts s v.body) where
  length_rows := by rw [rowTexts, List.length_map, length_rowParts]
  length_row i row hi := by
    obtain ⟨part, hpart, rfl⟩ := exists_part_of_row hi
    exact ⟨part, hpart, by rw [List.length_map, cells, length_splitOnP]⟩
  text_eq i j row text hi hj := by
    obtain ⟨part, hpart, rfl⟩ := exists_part_of_row hi
    rw [List.getElem?_map] at hj
    obtain ⟨cell, hcell, rfl⟩ := Option.map_eq_some_iff.mp hj
    rw [nodesAt_eq hpart hcell]
    exact exists_textOf?_core h hv hkind (isInfix_of_cell hpart hcell)
  covers c source hmem hcontent hcell hrow hsource hblank := by
    obtain ⟨i, j, hat⟩ := exists_nodesAt hmem hcontent hcell hrow
    obtain ⟨part, cell, hi, hj, hcore⟩ := mem_nodesAt.mp hat
    obtain ⟨whole, hwhole, htext⟩ := exists_textOf?_core h hv hkind (isInfix_of_cell hi hj)
    have hwithin := Document.isInfix_of_textOf? hcore hsource hwhole
    have hmakes : makesRow s.document part = true := makesRow_of_core hj hwhole hblank hwithin
    refine ⟨i, j, (cells part).map (textOfCell s), textOfCell s cell, ?_, ?_, hat, ?_,
      fun i' j' hat' => nodesAt_unique (nodup_body h hv hkind) hat hat'⟩
    · rw [rowTexts, List.getElem?_map, getElem?_rowParts hi hmakes, Option.map_some]
    · rw [List.getElem?_map, hj, Option.map_some]
    · rw [htext, String.toList_ofList]
      exact cutEnds_isInfix_cutEnds hwithin
  ordered := flatMap_splitOnP_sublist fun part _ => flatMap_splitOnP_sublist fun cell _ =>
    (cutEnds_isInfix _ cell).sublist

/-- A table that was just parsed and has a parameter in braces is built, and its rows lie in its body. -/
theorem build_laid_of_parse {d : Document} (h : Document.parse path text = .ok d)
    (hv : d.arena.view? id = some v)
    (henvironment : v.kind.environmentName?.any environments.contains = true)
    (hblocks : v.curlyBlocks ≠ []) (mapping : Mapping) :
    ∃ environment width columnSpec rows,
      build ⟨d, v, mapping⟩ = .ok (name, .tabular environment width columnSpec rows) ∧
      Laid d v.body rows := by
  obtain ⟨environment, hname, -⟩ := (Option.any_eq_true _ _).mp henvironment
  have hkind : v.kind.tag.isFilled = true := by
    cases hkind : v.kind <;> simp_all [NodeKind.environmentName?, NodeKind.tag, KindTag.isFilled]
  let s : Subject := ⟨d, v, mapping⟩
  obtain ⟨columnSpec, hspec⟩ := s.succeeds_argument name (v.curlyBlocks.getLast hblocks)
  have hrows : rowsFrom s [] [] v.body = .ok (rowTexts s v.body) := rowsFrom_body (s := s) h hv hkind
  have hbuild : ∃ width,
      build s = .ok (name, .tabular environment width columnSpec (rowTexts s v.body)) := by
    rw [build, hname]
    simp only [s, List.getLast?_eq_some_getLast hblocks]
    rw [hspec]
    split
    next first _ _ _ =>
      obtain ⟨width, hwidth⟩ := s.succeeds_argument name first
      exact ⟨some width, by rw [hwidth, hrows]; rfl⟩
    · exact ⟨none, by rw [hrows]; rfl⟩
  obtain ⟨width, hbuild⟩ := hbuild
  exact ⟨environment, width, columnSpec, _, hbuild, laid_rowTexts (s := s) h hv hkind⟩

/-- A table with two rows: a rule stands in the second cell of the first, and the `&` of the second row is
in a group. -/
def twoRowTable : Document where
  path := ⟨"a.tex"⟩
  text := ['\\', 'b', 'e', 'g', 'i', 'n', '\x7b', 't', 'a', 'b', 'u', 'l', 'a', 'r', '\x7d',
    '\x7b', 'c', '\x7d', 'a', '&', '\\', 'h', 'l', 'i', 'n', 'e', ' ', 'b', '\\', '\\', '\x7b', '&', '\x7d',
    '\\', 'e', 'n', 'd', '\x7b', 't', 'a', 'b', 'u', 'l', 'a', 'r', '\x7d']
  arena := .ofForest ⟨0, 46⟩
    [.node (.environment "tabular" 1) ⟨⟨0, 0⟩, ⟨0, 46⟩⟩
      [.node .curlyBlock ⟨⟨0, 15⟩, ⟨0, 18⟩⟩ [.leaf (.text "c") ⟨0, 16⟩ ⟨0, 17⟩],
        .leaf (.text "a") ⟨0, 18⟩ ⟨0, 19⟩, .leaf (.specialSymbol "&") ⟨0, 19⟩ ⟨0, 20⟩,
        .leaf (.command "hline") ⟨0, 20⟩ ⟨0, 26⟩, .leaf (.whitespace 0) ⟨0, 26⟩ ⟨0, 27⟩,
        .leaf (.text "b") ⟨0, 27⟩ ⟨0, 28⟩, .leaf (.specialSymbol "\\\\") ⟨0, 28⟩ ⟨0, 30⟩,
        .node .group ⟨⟨0, 30⟩, ⟨0, 33⟩⟩ [.leaf (.specialSymbol "&") ⟨0, 31⟩ ⟨0, 32⟩]]]

theorem build_laid_of_parse_twoRows : ∃ v,
    Document.parse twoRowTable.path twoRowTable.text = .ok twoRowTable ∧
      twoRowTable.arena.view? ⟨11⟩ = some v ∧
      v.kind.environmentName?.any environments.contains = true ∧ v.curlyBlocks ≠ [] ∧
      build ⟨twoRowTable, v, default⟩ =
        .ok ("tabular", .tabular "tabular" none "c" [["a", "b"], ["\x7b&\x7d"]]) ∧
      Laid twoRowTable v.body [["a", "b"], ["\x7b&\x7d"]] := by
  have harena : Arena.parse twoRowTable.text = .ok twoRowTable.arena := by decide +kernel
  have hparse : Document.parse twoRowTable.path twoRowTable.text = .ok twoRowTable := by
    rw [Document.parse, harena, Except.map]
  have hnode : twoRowTable.arena.get? ⟨11⟩ = some ⟨.environment "tabular" 1,
      Arena.rangeOf ⟨⟨0, 0⟩, ⟨0, 46⟩⟩, [⟨2⟩, ⟨3⟩, ⟨4⟩, ⟨5⟩, ⟨6⟩, ⟨7⟩, ⟨8⟩, ⟨10⟩], some ⟨0⟩⟩ := by
    decide +kernel
  obtain ⟨v, hview, hv⟩ : ∃ v, twoRowTable.arena.view? ⟨11⟩ = some v ∧ v = ⟨_, _, _⟩ :=
    ⟨_, congrArg (Option.map (View.mk twoRowTable.arena ⟨11⟩)) hnode, rfl⟩
  have henvironment : v.kind.environmentName?.any environments.contains = true := by
    rw [hv]
    rfl
  have hblocks : v.curlyBlocks ≠ [] := by
    rw [hv]
    decide +kernel
  have hbuild : build ⟨twoRowTable, v, default⟩ =
      .ok ("tabular", .tabular "tabular" none "c" [["a", "b"], ["\x7b&\x7d"]]) := by
    rw [hv]
    decide +kernel
  obtain ⟨environment, width, columnSpec, rows, hrows, hlaid⟩ :=
    build_laid_of_parse hparse hview henvironment hblocks default
  obtain ⟨-, hcontent⟩ := Prod.mk.inj (Except.ok.inj (hbuild.symm.trans hrows))
  obtain ⟨-, -, -, rfl⟩ := ModelContent.tabular.inj hcontent
  exact ⟨v, hparse, hview, henvironment, hblocks, hbuild, hlaid⟩

end Parsed

end Provider.Tabular

end TexAnchor
