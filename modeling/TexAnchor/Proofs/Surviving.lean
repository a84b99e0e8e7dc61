import TexAnchor.Proofs.Stretches

/-! # Nodes that edits do not touch

A node is anchored to a stretch of the text.  An edit before or behind that stretch moves the node's
range by coordinates and the text by offsets, and where a coordinate lies past the end of its line the
two do not agree: the offset is that of the end of the line, and the range moves by the column that
was given.

`Edit.Spares` says that an edit does not touch a range, and `Edit.Misplaces` that it moves the range
to a wrong place all the same: it begins past the end of a line, takes away the end of that line and
puts no line feed there, and the range starts on the last line of what it takes away.  These are the
only edits that lose a node they spare (`Document.Covers.exists_edited`).  So a node keeps its text
along a run of edits that spare it and do not misplace it
(`Document.nodeText?_eq_and_covers_iff`). -/

namespace TexAnchor

open Text (Coord HasCoord clamp offsetOf lineCount)

namespace Edit

variable {e : Edit} {text : List Char} {c : Coord}

/-! ### Ends that the text does not have -/

/-- The edit at the coordinates that its ends are looked up as. -/
def clamped (e : Edit) (text : List Char) : Edit :=
  ⟨⟨.ofCoord (clamp text e.range.start.coord), .ofCoord (clamp text e.range.stop.coord)⟩, e.text⟩

theorem mapCoord_of_le (hordered : e.range.Ordered) (hle : e.range.stop.coord ≤ c) :
    e.mapCoord c =
      if c.line = e.range.stop.coord.line then
        ⟨e.newEnd.line, e.newEnd.column + (c.column - e.range.stop.coord.column)⟩
      else ⟨c.line + e.newEnd.line - e.range.stop.coord.line, c.column⟩ := by
  have hordered : e.range.start.coord ≤ e.range.stop.coord := hordered
  have hfirst : ¬ (c < e.range.start.coord ∨
      c = e.range.start.coord ∧ e.range.start.coord < e.range.stop.coord) := by
    rintro (hlt | ⟨rfl, hlt⟩)
    · exact Coord.not_lt.mpr (Coord.le_trans hordered hle) hlt
    · exact Coord.not_lt.mpr hle hlt
  unfold mapCoord
  simp only [hfirst, Coord.not_lt.mpr hle, if_false]

/-- Looking up the ends of an edit keeps the line where the new text ends; the column is kept as well
if there is a line feed in the new text or the text has the place where the edit starts. -/
theorem newEnd_clamped (hline : e.range.start.coord.line < lineCount text) :
    (e.clamped text).newEnd.line = e.newEnd.line ∧
      ((e.clamped text).newEnd.column = e.newEnd.column ↔
        '\n' ∈ e.text ∨ HasCoord text e.range.start.coord) := by
  have hsame := Text.line_clamp hline
  simp only [newEnd, clamped, Position.coord_ofCoord]
  refine ⟨by rw [Coord.line_advance, Coord.line_advance, hsame], ?_⟩
  rw [Coord.column_advance_eq_iff, ← Text.clamp_eq_self_iff]
  refine or_congr_right ⟨fun hcolumn => ?_, fun heq => by rw [heq]⟩
  cases hclamp : clamp text e.range.start.coord
  simp_all

/-- Behind an edit, moving by the ends that were given is moving by the ends that were looked up,
except on the last line of what is replaced. -/
theorem mapCoord_eq_clamped_iff (hordered : e.range.Ordered)
    (hbound : e.range.stop.coord.line < lineCount text) (hle : e.range.stop.coord ≤ c)
    (hc : HasCoord text c) : e.mapCoord c = (e.clamped text).mapCoord c ↔
      (c.line = e.range.stop.coord.line →
        '\n' ∈ e.text ∨ HasCoord text e.range.start.coord) := by
  have hordered' : e.range.start.coord ≤ e.range.stop.coord := hordered
  have hstart : e.range.start.coord.line < lineCount text := by
    rw [Coord.le_def] at hordered'
    omega
  obtain ⟨hline, hcolumn⟩ := newEnd_clamped hstart
  have hstop : (e.clamped text).range.stop.coord = clamp text e.range.stop.coord :=
    Position.coord_ofCoord _
  have hordered_clamped : (e.clamped text).range.Ordered := by
    have hle := Text.clamp_le_clamp hordered' text
    rwa [← Position.coord_ofCoord (clamp text e.range.start.coord), ← hstop] at hle
  have hle_clamped : (e.clamped text).range.stop.coord ≤ c := by
    rw [hstop, ← Text.clamp_eq_self_iff.mpr hc]
    exact Text.clamp_le_clamp hle text
  rw [mapCoord_of_le hordered hle, mapCoord_of_le hordered_clamped hle_clamped, hstop,
    Text.line_clamp hbound, hline, ← hcolumn]
  by_cases hlast : c.line = e.range.stop.coord.line
  · have hhas : HasCoord text e.range.stop.coord := by
      refine hc.of_le hlast.symm ?_
      rw [Coord.le_def] at hle
      omega
    rw [if_pos hlast, if_pos hlast, Text.clamp_eq_self_iff.mpr hhas, Coord.mk.injEq]
    constructor
    · intro heq _
      omega
    · intro heq
      have := heq hlast
      omega
  · rw [if_neg hlast, if_neg hlast]
    simp [hlast]

theorem applyTo_clamped (e : Edit) (text : List Char) :
    (e.clamped text).applyTo text = e.applyTo text := by
  simp only [applyTo, clamped, Position.coord_ofCoord, Text.offsetOf_clamp]

/-- What stands behind an edit stays in the text, and the ends that were looked up move its places to
where it then stands. -/
theorem exists_moved (hordered : e.range.Ordered) {before : List Char}
    (hle : e.range.stop.coord ≤ Coord.zero.advance before) (rest : List Char) :
    ∃ moved, e.applyTo (before ++ rest) = moved ++ rest ∧ ∀ b,
      (e.clamped (before ++ rest)).mapCoord (Coord.zero.advance (before ++ b)) =
        Coord.zero.advance (moved ++ b) := by
  have hordered : e.range.start.coord ≤ e.range.stop.coord := hordered
  obtain ⟨x, hx⟩ := Text.take_offsetOf_prefix hordered (before ++ rest)
  obtain ⟨between, hbetween⟩ := Text.take_offsetOf_prefix hle (before ++ rest)
  rw [Text.offsetOf_advance, List.take_left, ← hx] at hbetween
  generalize ha : (before ++ rest).take (offsetOf .zero e.range.start.coord (before ++ rest)) = a
    at hx hbetween
  have hstart : (e.clamped (before ++ rest)).range.start.coord = Coord.zero.advance a := by
    rw [← ha]
    exact Position.coord_ofCoord _
  have hstop : (e.clamped (before ++ rest)).range.stop.coord = Coord.zero.advance (a ++ x) := by
    rw [hx]
    exact Position.coord_ofCoord _
  refine ⟨a ++ e.text ++ between, ?_, fun b => ?_⟩
  · have hedited := (e.clamped (before ++ rest)).applyTo_append (b := between ++ rest) hstart hstop
    rw [← List.append_assoc (a ++ x), hbetween, applyTo_clamped] at hedited
    rw [hedited, List.append_assoc (a ++ e.text)]
    rfl
  · have hmoved := (e.clamped (before ++ rest)).mapCoord_behind hstart hstop (between ++ b)
    rw [← List.append_assoc (a ++ x), hbetween] at hmoved
    rw [hmoved, List.append_assoc (a ++ e.text)]
    rfl

/-! ### Edits that spare a range -/

/-- The edit does not touch the range: it stops before it or where it starts, or it starts behind it,
or what it replaces begins where the range stops. -/
def Spares (e : Edit) (r : Range) : Prop :=
  e.range.stop.coord ≤ r.start.coord ∨ r.stop.coord < e.range.start.coord ∨
    r.stop.coord = e.range.start.coord ∧ e.range.start.coord ≠ e.range.stop.coord

/-- The edit starts past the end of a line and joins that line to the one on which the range starts:
what follows on the joined line is moved too far. -/
structure Misplaces (e : Edit) (text : List Char) (r : Range) : Prop where
  before : e.range.stop.coord ≤ r.start.coord
  last_line : r.start.coord.line = e.range.stop.coord.line
  crosses : e.range.start.coord.line < e.range.stop.coord.line
  past_end : ¬ HasCoord text e.range.start.coord
  no_line_feed : '\n' ∉ e.text

/-- A range behind an edit is not misplaced if, where it starts on the last line of the edit, the text
has the place where the edit starts or a line feed is put there. -/
theorem not_misplaces_iff {r : Range} (hordered : e.range.Ordered)
    (hbefore : e.range.stop.coord ≤ r.start.coord) (hhas : HasCoord text r.start.coord) :
    ¬ e.Misplaces text r ↔ (r.start.coord.line = e.range.stop.coord.line →
      '\n' ∈ e.text ∨ HasCoord text e.range.start.coord) := by
  have hordered : e.range.start.coord ≤ e.range.stop.coord := hordered
  constructor
  · intro hplaced hlast
    by_contra hlost
    rw [not_or] at hlost
    obtain ⟨hfeed, hpast⟩ := hlost
    refine hplaced ⟨hbefore, hlast, ?_, hpast, hfeed⟩
    by_contra hsame
    rw [Coord.le_def] at hordered hbefore
    exact hpast (hhas.of_le (by omega) (by omega))
  · rintro hplaced hlost
    rcases hplaced hlost.last_line with hfeed | hin
    exacts [hlost.no_line_feed hfeed, hlost.past_end hin]

theorem mapCoord_of_lt (hordered : e.range.Ordered)
    (h : c < e.range.start.coord ∨ c = e.range.start.coord ∧
      e.range.start.coord ≠ e.range.stop.coord) : e.mapCoord c = c := by
  have hordered : e.range.start.coord ≤ e.range.stop.coord := hordered
  unfold mapCoord
  apply if_pos
  refine h.imp_right fun ⟨heq, hne⟩ => ⟨heq, ?_⟩
  exact Coord.not_le.mp fun hle => hne (Coord.le_antisymm hordered hle)

end Edit

namespace Document

variable {d d' : Document} {range : Range} {before source after : List Char} {e : Edit}

theorem Covers.start_le_stop (h : d.Covers range before source after) :
    range.start.coord ≤ range.stop.coord := by
  rw [h.start_eq, h.stop_eq, Coord.advance_append]
  exact Coord.le_advance _ source

theorem Covers.hasCoord (h : d.Covers range before source after) :
    HasCoord d.text range.start.coord ∧ HasCoord d.text range.stop.coord := by
  rw [h.start_eq, h.stop_eq, h.text_eq]
  exact ⟨Text.hasCoord_iff.mpr ⟨before, source ++ after, by simp, rfl⟩,
    Text.hasCoord_iff.mpr ⟨before ++ source, after, rfl, rfl⟩⟩

theorem Covers.take_offsetOf (h : d.Covers range before source after) :
    d.text.take (offsetOf .zero range.start.coord d.text) = before ∧
      d.text.take (offsetOf .zero range.stop.coord d.text) = before ++ source := by
  rw [h.start_eq, h.stop_eq, h.text_eq, Text.offsetOf_advance, List.append_assoc,
    Text.offsetOf_advance]
  exact ⟨List.take_left, by rw [← List.append_assoc, List.take_left]⟩

theorem Covers.textIn? (h : d.Covers range before source after) : d.textIn? range = some source := by
  rw [Document.textIn?, h.text_eq, h.start_eq, h.stop_eq]
  exact Text.between?_advance before source after

section Spared

variable (h : d.Covers range before source after) (hrange : range.Settled)
  (hordered : e.range.Ordered) (htext : d'.text = e.applyTo d.text)

include h hrange hordered htext

theorem Covers.exists_before (hbefore : range.stop.coord < e.range.start.coord ∨
    range.stop.coord = e.range.start.coord ∧ e.range.start.coord ≠ e.range.stop.coord) :
    ∃ after', d'.Covers (e.mapRange range) before source after' := by
  have hle : range.stop.coord ≤ e.range.start.coord := by
    rcases hbefore with hlt | ⟨heq, -⟩
    exacts [Coord.le_of_lt hlt, heq ▸ Coord.le_refl _]
  obtain ⟨between, hbetween⟩ := Text.take_offsetOf_prefix hle d.text
  rw [h.take_offsetOf.2] at hbetween
  have hspan := hrange.span_mapRange e
  have hstart : range.start.coord < e.range.start.coord ∨
      range.start.coord = e.range.start.coord ∧ e.range.start.coord ≠ e.range.stop.coord := by
    have hordered_range := h.start_le_stop
    by_cases heq : range.start.coord = range.stop.coord
    · rwa [heq]
    · refine .inl (Coord.not_le.mp fun hge => heq ?_)
      exact Coord.le_antisymm hordered_range (Coord.le_trans hle hge)
  rw [Edit.mapCoord_of_lt hordered hbefore, Edit.mapCoord_of_lt hordered hstart] at hspan
  refine ⟨between ++ (e.text ++ d.text.drop (offsetOf .zero e.range.stop.coord d.text)), ?_,
    (congrArg Span.start hspan).trans h.start_eq, (congrArg Span.stop hspan).trans h.stop_eq⟩
  rw [htext, Edit.applyTo, ← hbetween]
  simp only [List.append_assoc]

/-- A range behind an edit keeps its stretch, unless the edit misplaces it. -/
theorem Covers.exists_behind (hbound : e.range.stop.coord.line < lineCount d.text)
    (hbehind : e.range.stop.coord ≤ range.start.coord) :
    ∃ before', d'.text = before' ++ source ++ after ∧
      (d'.Covers (e.mapRange range) before' source after ↔ ¬ e.Misplaces d.text range) := by
  have htext_eq : d.text = before ++ (source ++ after) := by rw [h.text_eq, List.append_assoc]
  obtain ⟨moved, hedited, hmoved⟩ := e.exists_moved hordered (h.start_eq ▸ hbehind) (source ++ after)
  rw [← htext_eq] at hedited hmoved
  rw [← htext, ← List.append_assoc] at hedited
  have hmoved_start : (e.clamped d.text).mapCoord range.start.coord = Coord.zero.advance moved := by
    have hmoved := hmoved []
    rwa [List.append_nil, List.append_nil, ← h.start_eq] at hmoved
  have hmoved_stop :
      (e.clamped d.text).mapCoord range.stop.coord = Coord.zero.advance (moved ++ source) := by
    rw [h.stop_eq, hmoved]
  have hspan := hrange.span_mapRange e
  have hstart_iff := Edit.mapCoord_eq_clamped_iff hordered hbound hbehind h.hasCoord.1
  have hstop_iff := Edit.mapCoord_eq_clamped_iff hordered hbound
    (Coord.le_trans hbehind h.start_le_stop) h.hasCoord.2
  rw [hmoved_start] at hstart_iff
  rw [hmoved_stop] at hstop_iff
  refine ⟨moved, hedited, ?_⟩
  rw [Edit.not_misplaces_iff hordered hbehind h.hasCoord.1]
  constructor
  · intro hcovers
    rw [← hstart_iff, ← hcovers.start_eq]
    exact (congrArg Span.start hspan).symm
  · intro hplaced
    refine ⟨hedited, (congrArg Span.start hspan).trans (hstart_iff.mpr hplaced),
      (congrArg Span.stop hspan).trans (hstop_iff.mpr fun hline => hplaced ?_)⟩
    have hle := h.start_le_stop
    rw [Coord.le_def] at hbehind hle
    omega

/-- After an edit that spares a range its stretch still stands in the text, and what is before it or
what is behind it is as it was.  The moved range covers it unless the edit misplaces the range. -/
theorem Covers.exists_edited (hspares : e.Spares range)
    (hbound : e.range.stop.coord.line < lineCount d.text) :
    ∃ before' after', d'.text = before' ++ source ++ after' ∧
      (before' = before ∨ after' = after) ∧
      (d'.Covers (e.mapRange range) before' source after' ↔ ¬ e.Misplaces d.text range) := by
  by_cases hbehind : e.range.stop.coord ≤ range.start.coord
  · obtain ⟨before', hedited, hiff⟩ := h.exists_behind hrange hordered htext hbound hbehind
    exact ⟨before', after, hedited, .inr rfl, hiff⟩
  · obtain ⟨after', hcovers⟩ :=
      h.exists_before hrange hordered htext (hspares.resolve_left hbehind)
    exact ⟨before, after', hcovers.text_eq, .inl rfl,
      iff_of_true hcovers fun hlost => hbehind hlost.before⟩

end Spared

/-! ### Runs of edits -/

/-- The tree of the document has the node `id`, and the node's range covers `source`. -/
def Anchors (d : Document) (id : NodeId) (source : List Char) : Prop :=
  ∃ p node before after, d.arena.Carries p ∧ id ∈ p.ids ∧ d.arena.get? id = some node ∧
    d.Covers node.range before source after

/-- `d'` is `d` after accepted edits that each spare the node `id` and do not misplace it. -/
inductive Spared (id : NodeId) (d : Document) : Document → Prop
  | refl : Spared id d d
  | edit {d' d'' : Document} {node : Node} {e : Edit} : Spared id d d' →
    d'.arena.get? id = some node → e.range.Ordered → e.Spares node.range →
    ¬ e.Misplaces d'.text node.range → d'.applyEdit e = .ok d'' → Spared id d d''

variable {d'' : Document} {id : NodeId} {node : Node}

theorem line_lt_of_applyEdit (h : d.applyEdit e = .ok d') :
    e.range.stop.coord.line < lineCount d.text := by
  unfold applyEdit at h
  simp only at h
  split at h
  · cases h
  · next hline => exact Nat.not_le.mp hline

/-- An accepted edit that spares a node of the tree leaves the node's stretch in the text, and the
node's range still covers it unless the edit misplaces it. -/
theorem Covers.exists_applyEdit {p : Planted} (h : d.Covers node.range before source after)
    (hp : d.arena.Carries p) (hid : id ∈ p.ids) (hnode : d.arena.get? id = some node)
    (hordered : e.range.Ordered) (hspares : e.Spares node.range) (hedit : d.applyEdit e = .ok d') :
    ∃ node' before' after', d'.arena.get? id = some node' ∧
      d'.text = before' ++ source ++ after' ∧ (before' = before ∨ after' = after) ∧
      (d'.Covers node'.range before' source after' ↔ ¬ e.Misplaces d.text node.range) := by
  have hedited := applyEdit_eq_ok hedit
  obtain ⟨before', after', hstretch⟩ :=
    h.exists_edited (hp.settled_range hid hnode) hordered (congrArg Document.text hedited)
      hspares (line_lt_of_applyEdit hedit)
  refine ⟨{ node with range := e.mapRange node.range }, before', after', ?_, hstretch⟩
  rw [hedited, Arena.get?_applyEdit, hnode]
  rfl

theorem anchors_of_parse {path : Path} {text : List Char} (h : parse path text = .ok d)
    (hattached : d.arena.isAttached id = true) : ∃ source, d.Anchors id source := by
  obtain ⟨p, hp, hcovers⟩ := exists_covers_of_parse h
  have hid := hp.mem_of_isAttached hattached
  obtain ⟨node, hnode⟩ := Option.isSome_iff_exists.mp (hp.holds.isSome hid)
  obtain ⟨before, source, after, hcut⟩ := hcovers id hid node hnode
  exact ⟨source, p, node, before, after, hp, hid, hnode, hcut⟩

theorem Anchors.nodeText? (h : d.Anchors id source) : d.nodeText? id = some source := by
  obtain ⟨p, node, before, after, -, -, hnode, hcovers⟩ := h
  rw [Document.nodeText?, hnode, Option.bind_some, hcovers.textIn?]

theorem Anchors.applyEdit (h : d.Anchors id source) (hnode : d.arena.get? id = some node)
    (hordered : e.range.Ordered) (hspares : e.Spares node.range)
    (hplaced : ¬ e.Misplaces d.text node.range) (hedit : d.applyEdit e = .ok d') :
    d'.Anchors id source := by
  obtain ⟨p, node', before, after, hp, hid, hnode', hcovers⟩ := h
  obtain rfl := Option.some.inj (hnode.symm.trans hnode')
  obtain ⟨moved, before', after', hmoved, -, -, hiff⟩ :=
    hcovers.exists_applyEdit hp hid hnode hordered hspares hedit
  refine ⟨p.mapRange e.mapRange, moved, before', after', ?_, ?_, hmoved, hiff.mpr hplaced⟩
  · rw [applyEdit_eq_ok hedit]
    exact hp.applyEdit e
  · rwa [Planted.ids_mapRange]

theorem Anchors.spared (h : d.Anchors id source) (hrun : Spared id d d') :
    d'.Anchors id source := by
  induction hrun with
  | refl => exact h
  | edit _ hnode hordered hspares hplaced hedit ih =>
    exact ih.applyEdit hnode hordered hspares hplaced hedit

/-- A node of a parsed text keeps its text along every run of accepted edits that spare it and do not
misplace it.  The next edit that spares it leaves its source in the text, but the range of the node
covers that source exactly if the edit does not misplace the node. -/
theorem nodeText?_eq_and_covers_iff {path : Path} {text : List Char}
    (hparse : parse path text = .ok d) (hattached : d.arena.isAttached id = true)
    (hrun : Spared id d d') :
    ∃ source node before after, d.nodeText? id = some source ∧ d'.nodeText? id = some source ∧
      d'.arena.isAttached id = true ∧ d'.arena.get? id = some node ∧
      d'.Covers node.range before source after ∧
      ∀ e d'', e.range.Ordered → e.Spares node.range → d'.applyEdit e = .ok d'' →
        ∃ node' before' after', d''.arena.get? id = some node' ∧
          d''.text = before' ++ source ++ after' ∧ (before' = before ∨ after' = after) ∧
          (d''.Covers node'.range before' source after' ↔ ¬ e.Misplaces d'.text node.range) := by
  obtain ⟨source, hanchors⟩ := anchors_of_parse hparse hattached
  have hkept := hanchors.spared hrun
  have ⟨p, node, before, after, hp, hid, hnode, hcovers⟩ := hkept
  refine ⟨source, node, before, after, hanchors.nodeText?, hkept.nodeText?,
    hp.isAttached_iff.mpr hid, hnode, hcovers, ?_⟩
  intro e d'' hordered hspares hedit
  exact hcovers.exists_applyEdit hp hid hnode hordered hspares hedit

/-- Two words on two lines. -/
def twoLines : Document where
  path := ⟨"a.tex"⟩
  text := ['a', 'b', '\n', 'c', 'd']
  arena := .ofForest ⟨1, 2⟩
    [.leaf (.text "ab") ⟨0, 0⟩ ⟨0, 2⟩, .leaf (.whitespace 1) ⟨0, 2⟩ ⟨1, 0⟩,
      .leaf (.text "cd") ⟨1, 0⟩ ⟨1, 2⟩]

/-- Text in the place of all that stands from one column past the end of the first line of two to the
start of the second. -/
def acrossLines (text : List Char) : Edit :=
  ⟨⟨.ofCoord ⟨0, 3⟩, .ofCoord ⟨1, 0⟩⟩, text⟩

theorem nodeText?_eq_and_covers_iff_blankLine :
    ∃ d', twoLines.applyEdit (acrossLines ['\n', '\n']) = .ok d' ∧
      d'.text = ['a', 'b', '\n', '\n', 'c', 'd'] ∧ d'.nodeText? ⟨3⟩ = some ['c', 'd'] := by
  have hparse : parse twoLines.path twoLines.text = .ok twoLines := by rfl
  have hnode : twoLines.arena.get? ⟨3⟩ =
      some ⟨.text "cd", Arena.rangeOf ⟨⟨1, 0⟩, ⟨1, 2⟩⟩, [], some Arena.root⟩ := rfl
  have hedit : twoLines.applyEdit (acrossLines ['\n', '\n']) = .ok _ := rfl
  have hplaced : ¬ (acrossLines ['\n', '\n']).Misplaces twoLines.text
      (Arena.rangeOf ⟨⟨1, 0⟩, ⟨1, 2⟩⟩) := fun hlost => hlost.no_line_feed (by decide)
  have hrun := (Spared.refl (d := twoLines)).edit hnode (by decide) (.inl (by decide)) hplaced hedit
  obtain ⟨source, _, _, _, hsource, hkept, -⟩ :=
    nodeText?_eq_and_covers_iff hparse rfl hrun
  have htext : twoLines.nodeText? ⟨3⟩ = some ['c', 'd'] := rfl
  exact ⟨_, hedit, rfl, hkept.trans (hsource.symm.trans htext)⟩

/-- An edit that begins past the end of the first line and joins the second line to it misplaces the
second word, though it stops where the word starts. -/
theorem nodeText?_ne_joined :
    ∃ d' node, parse twoLines.path twoLines.text = .ok twoLines ∧
      twoLines.arena.isAttached ⟨3⟩ = true ∧ twoLines.arena.get? ⟨3⟩ = some node ∧
      (acrossLines []).range.Ordered ∧ (acrossLines []).Spares node.range ∧
      twoLines.applyEdit (acrossLines []) = .ok d' ∧ d'.text = ['a', 'b', 'c', 'd'] ∧
      twoLines.nodeText? ⟨3⟩ = some ['c', 'd'] ∧ d'.nodeText? ⟨3⟩ = some ['d'] :=
  ⟨_, _, by rfl, rfl, rfl, by decide, .inl (by decide), rfl, rfl, rfl, by decide +kernel⟩

end Document

end TexAnchor
