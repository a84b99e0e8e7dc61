import TexAnchor.Proofs.Surviving

/-! # The lines that nodes stand on

An edit is refused if it ends on a line that the text does not have.  The nodes of a document's tree
never do: what a parse reads stands on lines of the text, an accepted edit moves lines of the text to
lines of the edited text (`Edit.line_mapCoord_lt`), and a fragment stands where the new text does.  So
in every reachable document all nodes of the tree start and stop on lines of the text
(`Document.Reachable.lined`), and a text that is put in the place of a node of the tree is refused only
if the file cannot be read any more (`Document.Reachable.parse_of_replaceNode`). -/

namespace TexAnchor

open Text (Coord offsetOf clamp lineCount)

/-! ### The lines of an edited text -/

theorem Text.count_take_offsetOf {text : List Char} {c : Coord} (h : c.line < lineCount text) :
    (text.take (offsetOf .zero c text)).count '\n' = c.line := by
  have hline := Coord.line_advance .zero (text.take (offsetOf .zero c text))
  rw [← clamp, Text.line_clamp h] at hline
  simpa [Coord.zero] using hline.symm

namespace Edit

variable {e : Edit} {text : List Char} {c : Coord}

theorem lineCount_applyTo (hstop : e.range.stop.coord.line < lineCount text) :
    lineCount (e.applyTo text) + e.range.stop.coord.line =
      (text.take (offsetOf .zero e.range.start.coord text)).count '\n' + e.text.count '\n' +
        lineCount text := by
  have hcut : (text.take (offsetOf .zero e.range.stop.coord text)).count '\n' +
      (text.drop (offsetOf .zero e.range.stop.coord text)).count '\n' = text.count '\n' := by
    rw [← List.count_append, List.take_append_drop]
  rw [Text.count_take_offsetOf hstop] at hcut
  simp only [lineCount, applyTo, List.count_append]
  omega

/-- An edit that ends on a line of the text moves lines of the text to lines of the edited text. -/
theorem line_mapCoord_lt (hstop : e.range.stop.coord.line < lineCount text)
    (hc : c.line < lineCount text) : (e.mapCoord c).line < lineCount (e.applyTo text) := by
  have hlines := lineCount_applyTo hstop
  have hnewEnd : e.newEnd.line = e.range.start.coord.line + e.text.count '\n' :=
    Coord.line_advance _ _
  unfold mapCoord
  simp only
  split
  · next hbefore =>
    have hle : c ≤ e.range.start.coord := by
      rcases hbefore with hlt | ⟨rfl, -⟩
      exacts [Coord.le_of_lt hlt, Coord.le_refl _]
    have hcount := (Text.take_offsetOf_prefix hle text).sublist.count_le '\n'
    rw [Text.count_take_offsetOf hc] at hcount
    omega
  · next hbehind =>
    have hle : e.range.start.coord ≤ c := Coord.not_lt.mp fun hlt => hbehind (.inl hlt)
    have hstart : e.range.start.coord.line ≤ c.line := by
      rw [Coord.le_def] at hle
      omega
    rw [Text.count_take_offsetOf (by omega)] at hlines
    split
    · omega
    · split
      · simp only
        omega
      · simp only
        omega

theorem line_newEnd_lt (hstop : e.range.stop.coord.line < lineCount text)
    (hstart : e.range.start.coord.line < lineCount text) :
    e.newEnd.line < lineCount (e.applyTo text) := by
  have hlines := lineCount_applyTo hstop
  have hnewEnd : e.newEnd.line = e.range.start.coord.line + e.text.count '\n' :=
    Coord.line_advance _ _
  rw [Text.count_take_offsetOf hstart] at hlines
  omega

end Edit

/-! ### Spans of moved and regrown trees -/

namespace Tree

variable {f : Coord → Coord}

mutual

theorem spans_map (f : Coord → Coord) :
    (t : Tree) → (t.map f).spans = t.spans.map fun s => ⟨f s.start, f s.stop⟩
  | node kind span children => by
    rw [map, spans, spans, forestSpans_mapForest f children, List.map_cons]

theorem forestSpans_mapForest (f : Coord → Coord) : (forest : List Tree) →
    forestSpans (mapForest f forest) = (forestSpans forest).map fun s => ⟨f s.start, f s.stop⟩
  | [] => rfl
  | t :: forest => by
    rw [mapForest, forestSpans, forestSpans, spans_map f t, forestSpans_mapForest f forest,
      List.map_append]

end

/-- What is true of the spans of the new tree, and of the moved spans of the old ones, is true of those
of the regrown tree. -/
theorem Regrown.forall_spans {old new t t' : Tree} (h : Regrown f old new t t') {P : Span → Prop}
    (hnew : ∀ s ∈ new.spans, P s) (hmoved : ∀ s ∈ t.spans, P ⟨f s.start, f s.stop⟩) :
    ∀ s ∈ t'.spans, P s := by
  induction h with
  | here => exact hnew
  | inside kind span before after _ ih =>
    simp only [spans_node, List.flatMap_append, List.flatMap_cons, List.mem_cons, List.mem_append,
      forall_eq_or_imp] at hmoved ⊢
    have houtside {l : List Tree} (hl : ∀ s ∈ l.flatMap spans, P ⟨f s.start, f s.stop⟩) :
        ∀ s ∈ (l.map (map f)).flatMap spans, P s := by
      intro s hs
      rw [List.flatMap_map] at hs
      obtain ⟨t, ht, hs⟩ := List.mem_flatMap.mp hs
      rw [spans_map] at hs
      obtain ⟨r, hr, rfl⟩ := List.mem_map.mp hs
      exact hl r (List.mem_flatMap.mpr ⟨t, ht, hr⟩)
    refine ⟨hmoved.1, fun s hs => ?_⟩
    rcases hs with hs | hs | hs
    · exact houtside (fun r hr => hmoved.2 r (.inl hr)) s hs
    · exact ih (fun r hr => hmoved.2 r (.inr (.inl hr))) s hs
    · exact houtside (fun r hr => hmoved.2 r (.inr (.inr hr))) s hs

end Tree

/-! ### The lines of a document -/

/-- The span starts and stops on the first `count` lines. -/
def Span.OnLines (s : Span) (count : Nat) : Prop :=
  s.start.line < count ∧ s.stop.line < count

theorem Span.Cuts.lines_le {s : Span} {here : Coord} {text : List Char} (h : s.Cuts here text) :
    s.start.line ≤ (here.advance text).line ∧ s.stop.line ≤ (here.advance text).line := by
  obtain ⟨before, source, after, rfl, rfl⟩ := h
  simp only [Coord.line_advance, List.count_append]
  omega

namespace Document

variable {d d' : Document} {p : Planted} {id : NodeId} {node : Node} {path : Path}
  {text : List Char}

/-- The nodes of the tree start and stop on lines of the text. -/
def Lined (d : Document) : Prop :=
  ∀ t ∈ d.tree?, ∀ s ∈ t.spans, s.OnLines (lineCount d.text)

theorem lined_iff (h : d.arena.Carries p) :
    d.Lined ↔ ∀ s ∈ p.tree.spans, s.OnLines (lineCount d.text) := by
  simp [Lined, tree?, h.tree?]

theorem lined_of_parse (h : parse path text = .ok d) : d.Lined := by
  obtain ⟨p, m, hp, -, htokens, htree⟩ := exists_markup_of_parse h
  refine (lined_iff hp).mpr fun s hs => ?_
  have hmem : p.tree ∈ m.trees .zero := by simp [htree]
  have hcuts := Markup.cuts_of_mem_trees hs m hmem
  rw [Markup.text, htokens, textOf_tokenize] at hcuts
  have hlines := hcuts.lines_le
  rw [Coord.line_advance] at hlines
  rw [text_of_parse h, Span.OnLines, lineCount]
  simp only [Coord.zero] at hlines
  omega

theorem Lined.onLines (h : d.Lined) (hp : d.arena.Carries p) (hid : id ∈ p.ids)
    (hnode : d.arena.get? id = some node) : node.range.span.OnLines (lineCount d.text) := by
  obtain ⟨old, hocc, -, -, hrange⟩ := hp.exists_occurs hid hnode
  exact hrange ▸ (lined_iff hp).mp h _ hocc.span_mem

theorem Lined.mapCoord (h : d.Lined) (hp : d.arena.Carries p) {e : Edit}
    (hstop : e.range.stop.coord.line < lineCount d.text) :
    ∀ s ∈ p.tree.spans,
      Span.OnLines ⟨e.mapCoord s.start, e.mapCoord s.stop⟩ (lineCount (e.applyTo d.text)) := by
  intro s hs
  obtain ⟨hfirst, hlast⟩ := (lined_iff hp).mp h s hs
  exact ⟨Edit.line_mapCoord_lt hstop hfirst, Edit.line_mapCoord_lt hstop hlast⟩

theorem Lined.applyEdit (h : d.Lined) (hp : d.arena.Carries p) {e : Edit}
    (hedit : d.applyEdit e = .ok d') : d'.Lined := by
  have hstop := line_lt_of_applyEdit hedit
  rw [applyEdit_eq_ok hedit]
  refine (lined_iff (hp.applyEdit e)).mpr fun s hs => ?_
  rw [hp.settled.tree_mapRange, Tree.spans_map] at hs
  obtain ⟨r, hr, rfl⟩ := List.mem_map.mp hs
  exact h.mapCoord hp hstop r hr

theorem Lined.regrown (h : d.Lined) (hp : d.arena.Carries p) {new : NodeId}
    (hreplace : d.replaceNode id text = (d', .ok (.incremental new))) : d'.Lined := by
  obtain ⟨node, old, t, p', -, hocc, -, hrange, -, hread, -, -, htext, hp', hregrown⟩ :=
    exists_regrown hp hreplace
  obtain ⟨hstart, hstop⟩ := (lined_iff hp).mp h _ (hrange ▸ hocc.span_mem)
  obtain ⟨y, -, htokens, htree⟩ := Grammar.exists_item_of_readFrom hread
  refine (lined_iff hp').mpr (hregrown.forall_spans (fun s hs => ?_) ?_)
  · have hmem : t ∈ y.trees node.range.start.coord := by simp [htree]
    have hcuts := Markup.cuts_of_mem_trees hs y hmem
    rw [Markup.text, htokens, textOf_tokenize] at hcuts
    have hlines := hcuts.lines_le
    have hnewEnd := Edit.line_newEnd_lt (e := ⟨node.range, text⟩) hstop hstart
    rw [htext]
    exact ⟨Nat.lt_of_le_of_lt hlines.1 hnewEnd, Nat.lt_of_le_of_lt hlines.2 hnewEnd⟩
  · rw [htext]
    exact h.mapCoord hp hstop

theorem Lined.replaceNode (h : d.Lined) (hp : d.arena.Carries p) (id : NodeId)
    (text : List Char) : (d.replaceNode id text).1.Lined := by
  rcases hreplaced : d.replaceNode id text with ⟨d', outcome⟩
  cases replaces_of_replaceNode hreplaced with
  | unreadRoot | unknown | outside => exact h
  | readRoot _ hfresh | reread _ _ _ _ hfresh => exact lined_of_parse hfresh
  | exchanged => exact h.regrown hp hreplaced
  | @unread node edited _ _ _ _ hedited =>
    have hcarries := carries_applyEdit hp hedited
    exact (lined_iff (carries_addFragment hcarries _ _)).mpr
      ((lined_iff hcarries).mp (h.applyEdit hp hedited))

/-- In a reachable document every node of the tree starts and stops on a line of the text. -/
theorem Reachable.lined (h : d.Reachable) : d.Lined := by
  induction h with
  | parse hparse => exact lined_of_parse hparse
  | setText _ hparse => exact lined_of_parse hparse
  | reparse _ hparse => exact lined_of_parse hparse
  | applyEdit hd hedit ih =>
    obtain ⟨p, hp⟩ := hd.exists_carries
    exact ih.applyEdit hp hedit
  | replaceNode id text hd ih =>
    obtain ⟨p, hp⟩ := hd.exists_carries
    exact ih.replaceNode hp id text
  | freeDetached hd ih =>
    obtain ⟨p, hp⟩ := hd.exists_carries
    exact (lined_iff hp.freeDetached).mpr ((lined_iff hp).mp ih)

end Document

end TexAnchor
