import TexAnchor.Proofs.Bytes
import TexAnchor.Proofs.Lines
import TexAnchor.Proofs.Numbering
import TexAnchor.Proofs.Unfinished

/-! # Documents along their changes

`Document.perform` is what an attempt to change a document leaves behind, and `Document.Made allowed`
are the documents that texts and allowed changes lead to.

A range sits in a text if its ends are in order and on lines of the text (`Range.Sits`).  Edits in
order keep the order of places (`Edit.mapCoord_mono`), and new nodes stand on stretches of what they
are read from, also those of a text that cannot be read to its end.  So every live node sits in the
text, in the tree or not (`Document.Made.sits`), and its source is found between two characters
(`Document.Sits.exists_source`). -/

namespace TexAnchor

open Text (Coord byteOffset? lineCount slice?)

namespace Edit

variable {e : Edit} {c k : Coord}

/-! ### The order of places -/

/-- The edit leaves the place where it is: it is before the edit or the start of what is replaced. -/
def Leaves (e : Edit) (c : Coord) : Prop :=
  c < e.range.start.coord ∨ c = e.range.start.coord ∧ e.range.start.coord < e.range.stop.coord

theorem mapCoord_of_leaves (h : e.Leaves c) : e.mapCoord c = c := if_pos h

theorem newEnd_le_mapCoord (h : ¬ e.Leaves c) : e.newEnd ≤ e.mapCoord c := by
  unfold Leaves at h
  unfold mapCoord
  simp only [if_neg h]
  split
  · exact Coord.le_refl _
  · next hge =>
    rw [Coord.not_lt, Coord.le_def] at hge
    split
    · exact .inr ⟨rfl, Nat.le_add_right _ _⟩
    · rw [Coord.le_def]
      simp only
      omega

theorem leaves_of_le (hle : c ≤ k) (h : e.Leaves k) : e.Leaves c := by
  unfold Leaves at h ⊢
  obtain hlt | rfl := Coord.lt_or_eq_of_le hle
  · refine .inl (Coord.lt_of_lt_of_le hlt ?_)
    obtain h | ⟨rfl, -⟩ := h
    exacts [Coord.le_of_lt h, Coord.le_refl _]
  · exact h

/-- An edit in order keeps the order of places. -/
theorem mapCoord_mono (h : e.range.Ordered) (hle : c ≤ k) : e.mapCoord c ≤ e.mapCoord k := by
  by_cases hc : e.Leaves c
  · rw [mapCoord_of_leaves hc]
    by_cases hk : e.Leaves k
    · rwa [mapCoord_of_leaves hk]
    · have hstart : c ≤ e.range.start.coord := by
        obtain hlt | ⟨rfl, -⟩ := hc
        exacts [Coord.le_of_lt hlt, Coord.le_refl _]
      have hnew : e.range.start.coord ≤ e.newEnd := Coord.le_advance _ _
      exact Coord.le_trans (Coord.le_trans hstart hnew) (newEnd_le_mapCoord hk)
  · by_cases hinside : c < e.range.stop.coord
    · have hmoved : e.mapCoord c = e.newEnd := by
        unfold Leaves at hc
        unfold mapCoord
        simp only [if_neg hc, if_pos hinside]
      rw [hmoved]
      exact newEnd_le_mapCoord fun hk => hc (leaves_of_le hle hk)
    · rw [Coord.not_lt] at hinside
      rw [mapCoord_of_le h hinside, mapCoord_of_le h (Coord.le_trans hinside hle)]
      rw [Coord.le_def] at hle hinside
      split
      · split
        · exact .inr ⟨rfl, Nat.add_le_add_left (by omega) _⟩
        · exact .inl (by simp only; omega)
      · split
        · omega
        · rw [Coord.le_def]
          simp only
          omega

end Edit

/-! ### Ranges that sit in a text -/

/-- The ends of the range are in order, and both are on lines of the text. -/
structure Range.Sits (r : Range) (text : List Char) : Prop where
  settled : r.Settled
  ordered : r.Ordered
  onLines : r.span.OnLines (lineCount text)

theorem Range.Sits.mapRange {r : Range} {text : List Char} {e : Edit} (h : r.Sits text)
    (hordered : e.range.Ordered) (hstop : e.range.stop.coord.line < lineCount text) :
    (e.mapRange r).Sits (e.applyTo text) := by
  have hspan := h.settled.span_mapRange e
  refine ⟨⟨e.settled_mapPosition h.settled.1, e.settled_mapPosition h.settled.2⟩, ?_, ?_⟩
  · show (e.mapRange r).span.start ≤ (e.mapRange r).span.stop
    rw [hspan]
    exact Edit.mapCoord_mono hordered h.ordered
  · rw [hspan]
    exact ⟨Edit.line_mapCoord_lt hstop h.onLines.1, Edit.line_mapCoord_lt hstop h.onLines.2⟩

theorem Span.Cuts.sits {s : Span} {here : Coord} {text whole : List Char} (h : s.Cuts here text)
    (hlines : (here.advance text).line < lineCount whole) : (Arena.rangeOf s).Sits whole := by
  have hle := h.lines_le
  have hspan : (Arena.rangeOf s).span = s := by simp [Range.span, Arena.rangeOf]
  refine ⟨Arena.settled_rangeOf s, ?_, by rw [hspan]; exact ⟨by omega, by omega⟩⟩
  show (Arena.rangeOf s).span.start ≤ (Arena.rangeOf s).span.stop
  obtain ⟨before, source, after, -, hs⟩ := h
  rw [hspan, hs, Coord.advance_append]
  exact Coord.le_advance _ source

namespace Arena

variable {a b : Arena} {P : Range → Prop} {forest : List Tree} {text whole : List Char}

/-- The range of every live node has the property. -/
def Everywhere (a : Arena) (P : Range → Prop) : Prop :=
  ∀ id node, a.get? id = some node → P node.range

theorem Everywhere.congr (h : a.Everywhere P) (hsame : ∀ id, b.referent? id = a.referent? id) :
    b.Everywhere P := by
  intro id node hnode
  have hreferent := hsame id
  rw [referent?, hnode, Option.map_some] at hreferent
  obtain ⟨old, hold, heq⟩ := Option.map_eq_some_iff.mp hreferent.symm
  obtain ⟨-, hrange⟩ := Referent.mk.inj heq
  exact hrange ▸ h id old hold

theorem Everywhere.place {node : Node} (h : a.Everywhere P) (hnode : P node.range) :
    (a.place node).1.Everywhere P := by
  intro id found hfound
  unfold Arena.place at hfound
  split at hfound
  · simp only [get?, Array.getElem?_setIfInBounds] at hfound
    split at hfound
    · split at hfound
      · obtain rfl := Option.some.inj hfound
        exact hnode
      · cases hfound
    · exact h id found hfound
  · simp only [get?, Array.getElem?_push] at hfound
    split at hfound
    · obtain rfl := Option.some.inj hfound
      exact hnode
    · exact h id found hfound

theorem Everywhere.alloc {range : Range} (h : a.Everywhere P) (hrange : P range) (kind : NodeKind)
    (ids : List NodeId) : (a.alloc kind range ids).1.Everywhere P :=
  (h.place hrange).congr fun id => referent?_adopt _ _ _ id

mutual

theorem Everywhere.addTree : (t : Tree) → ∀ {a : Arena}, a.Everywhere P →
    (∀ s ∈ t.spans, P (rangeOf s)) → (a.addTree t).1.Everywhere P
  | .node kind span children, a, h, hspans => by
    rw [Tree.spans_node] at hspans
    refine (Everywhere.addForest children h fun t ht s hs => ?_).alloc (hspans span (by simp)) kind _
    exact hspans s (List.mem_cons_of_mem _ (List.mem_flatMap.mpr ⟨t, ht, hs⟩))

theorem Everywhere.addForest : (forest : List Tree) → ∀ {a : Arena}, a.Everywhere P →
    (∀ t ∈ forest, ∀ s ∈ t.spans, P (rangeOf s)) → (a.addForest forest).1.Everywhere P
  | [], _, h, _ => h
  | t :: forest, _, h, hspans =>
    Everywhere.addForest forest (Everywhere.addTree t h (hspans t (by simp)))
      fun u hu => hspans u (by simp [hu])

end

/-- What is read from a text that starts at `origin` has the ranges of stretches of it, whether it is
markup or not. -/
theorem Everywhere.addFragment (h : a.Everywhere P) {origin : Coord}
    (hnew : ∀ s : Span, s.Cuts origin text → P (rangeOf s)) :
    (a.addFragment origin text).1.Everywhere P := by
  unfold Arena.addFragment
  split
  · next forest hread =>
    exact h.addForest forest fun t ht s hs => hnew s (Grammar.cuts_of_readFrom_eq_ok hread ht hs)
  · next failure hread =>
    exact h.addForest _ fun t ht s hs => hnew s (Grammar.cuts_of_readFrom_eq_error hread ht hs)

theorem Everywhere.applyEdit {e : Edit} (h : a.Everywhere fun r => P (e.mapRange r)) :
    (a.applyEdit e).Everywhere P := by
  intro id node hnode
  rw [get?_applyEdit] at hnode
  obtain ⟨old, hold, rfl⟩ := Option.map_eq_some_iff.mp hnode
  exact h id old hold

theorem Everywhere.freeDetached (h : a.Everywhere P) : a.freeDetached.Everywhere P := by
  intro id node hnode
  rw [get?_freeDetached] at hnode
  split at hnode
  · cases hnode
  · exact h id node hnode

end Arena

namespace Document

variable {d d' : Document} {p : Planted} {id : NodeId} {node : Node} {path : Path}
  {text : List Char} {e : Edit}

/-! ### Every live node sits in the text -/

/-- The range of every live node sits in the text. -/
def Sits (d : Document) : Prop :=
  d.arena.Everywhere (·.Sits d.text)

theorem everywhere_of_parse {P : Range → Prop} (h : parse path text = .ok d)
    (hnew : ∀ s : Span, s.Cuts .zero text → P (Arena.rangeOf s)) : d.arena.Everywhere P := by
  obtain ⟨forest, hread, rfl⟩ := parse_eq_ok_iff.mp h
  have hrooted : (Arena.rooted (Arena.rangeOf ⟨.zero, Coord.zero.advance text⟩)).Everywhere P := by
    intro id node hnode
    rw [Arena.get?_rooted] at hnode
    split at hnode
    · obtain rfl := Option.some.inj hnode
      exact hnew _ (Span.cuts_whole .zero text)
    · cases hnode
  refine (hrooted.addForest forest fun t ht s hs => ?_).congr fun id => ?_
  · exact hnew s (Grammar.cuts_of_readFrom_eq_ok hread ht hs)
  · simp only [Arena.ofForest, Arena.attachToRoot, Arena.referent?_update, Arena.referent?_adopt,
      implies_true]

theorem sits_of_parse (h : parse path text = .ok d) : d.Sits := by
  have hlines : (Coord.zero.advance text).line < lineCount text := by
    simp only [Coord.line_advance, lineCount, Coord.zero]
    omega
  have hsits : d.arena.Everywhere (·.Sits text) := everywhere_of_parse h fun s hs => hs.sits hlines
  rwa [← text_of_parse h] at hsits

theorem Sits.applyEdit (h : d.Sits) (hordered : e.range.Ordered) (hedit : d.applyEdit e = .ok d') :
    d'.Sits := by
  have hstop := line_lt_of_applyEdit hedit
  rw [applyEdit_eq_ok hedit]
  exact Arena.Everywhere.applyEdit fun id node hnode => (h id node hnode).mapRange hordered hstop

theorem Sits.addFragment (h : d.Sits) (hnode : d.arena.get? id = some node)
    (hedit : d.applyEdit ⟨node.range, text⟩ = .ok d') :
    (d'.arena.addFragment node.range.start.coord text).1.Everywhere (·.Sits d'.text) := by
  obtain ⟨-, hordered, hstart, hstop⟩ := h id node hnode
  have hmoved := h.applyEdit (e := ⟨node.range, text⟩) hordered hedit
  rw [applyEdit_eq_ok hedit] at hmoved ⊢
  exact Arena.Everywhere.addFragment hmoved fun s hs =>
    hs.sits (Edit.line_newEnd_lt (e := ⟨node.range, text⟩) hstop hstart)

theorem Sits.replaceNode (h : d.Sits) (id : NodeId) (text : List Char) :
    (d.replaceNode id text).1.Sits := by
  rcases hreplaced : d.replaceNode id text with ⟨d', outcome⟩
  cases replaces_of_replaceNode hreplaced with
  | unreadRoot | unknown | outside => exact h
  | readRoot _ hfresh | reread _ _ _ _ hfresh => exact sits_of_parse hfresh
  | exchanged _ _ hnode _ hedited _ hread _ _ hreplace =>
    have hgrown := h.addFragment hnode hedited
    rw [Arena.addFragment_eq hread] at hgrown
    exact hgrown.congr (Arena.referent?_replaceChild? hreplace)
  | unread _ _ hnode hedited => exact h.addFragment hnode hedited

/-! ### Changes -/

/-- What is done to a document. -/
inductive Change
  | setText (text : List Char)
  | reparse
  | applyEdit (e : Edit)
  | replaceNode (id : NodeId) (text : List Char)
  | freeDetached

/-- The range of an edit is in order. -/
def Change.Ordered : Change → Prop
  | applyEdit e => e.range.Ordered
  | _ => True

/-- The document that an attempt leaves, whether it succeeds or not. -/
def perform (d : Document) : Change → Document
  | .setText text => (d.setText text).toOption.getD d
  | .reparse => d.reparse.toOption.getD d
  | .applyEdit e => (d.applyEdit e).toOption.getD d
  | .replaceNode id text => (d.replaceNode id text).1
  | .freeDetached => d.freeDetached

/-- The documents that allowed changes lead to from texts. -/
inductive Made (allowed : Document → Change → Prop) : Document → Prop
  | parse {path : Path} {text : List Char} {d : Document} :
    parse path text = .ok d → Made allowed d
  | perform {d : Document} {change : Change} :
    Made allowed d → allowed d change → Made allowed (d.perform change)

/-- A property of documents is kept by a change if it is true of what is read, and kept by accepted
edits, replacements and freeing. -/
theorem perform_of {P : Document → Prop} {change : Change} (h : P d)
    (hparse : ∀ {path text fresh}, Document.parse path text = .ok fresh → P fresh)
    (hedit : ∀ {e d'}, change = .applyEdit e → d.applyEdit e = .ok d' → P d')
    (hreplace : ∀ {id text}, change = .replaceNode id text → P (d.replaceNode id text).1)
    (hfree : P d.freeDetached) : P (d.perform change) := by
  cases change with
  | setText text =>
    show P ((d.setText text).toOption.getD d)
    cases hread : d.setText text with
    | ok fresh => exact hparse hread
    | error error => exact h
  | reparse =>
    show P (d.reparse.toOption.getD d)
    cases hread : d.reparse with
    | ok fresh => exact hparse hread
    | error error => exact h
  | applyEdit e =>
    show P ((d.applyEdit e).toOption.getD d)
    cases hedited : d.applyEdit e with
    | ok edited => exact hedit rfl hedited
    | error error => exact h
  | replaceNode id text => exact hreplace rfl
  | freeDetached => exact hfree

variable {allowed : Document → Change → Prop}

theorem Reachable.perform (h : d.Reachable) (change : Change) : (d.perform change).Reachable :=
  perform_of h .parse (fun _ hedit => .applyEdit h hedit) (fun _ => .replaceNode _ _ h)
    (.freeDetached h)

theorem Made.reachable (h : d.Made allowed) : d.Reachable := by
  induction h with
  | parse hparse => exact .parse hparse
  | perform _ _ ih => exact ih.perform _

theorem Sits.perform {change : Change} (h : d.Sits) (hordered : change.Ordered) :
    (d.perform change).Sits := by
  refine perform_of h sits_of_parse (fun heq hedit => ?_) (fun _ => h.replaceNode _ _)
    (Arena.Everywhere.freeDetached h)
  subst heq
  exact h.applyEdit hordered hedit

/-- Where edits are in order every live node sits in the text, in the tree or not. -/
theorem Made.sits (h : d.Made allowed) (hordered : ∀ d change, allowed d change → change.Ordered) :
    d.Sits := by
  induction h with
  | parse hparse => exact sits_of_parse hparse
  | perform _ hallowed ih => exact ih.perform (hordered _ _ hallowed)

/-! ### Nothing is lost -/

theorem Sits.exists_source (h : d.Sits) (hnode : d.arena.get? id = some node) :
    ∃ start stop source, byteOffset? d.text node.range.start.coord = some start ∧
      byteOffset? d.text node.range.stop.coord = some stop ∧
      slice? d.text start stop = some source ∧ d.textIn? node.range = some source ∧
      d.nodeText? id = some source := by
  obtain ⟨start, stop, source, hstart, hstop, hslice, -⟩ :=
    splices_of_ordered (e := ⟨node.range, []⟩) (h id node hnode).ordered d
  have htext : d.textIn? node.range = some source := by
    rw [Text.byteOffset?_eq, Option.some_inj] at hstart hstop
    rw [textIn?, Text.between?_eq_slice?, hstart, hstop, hslice]
  refine ⟨start, stop, source, hstart, hstop, hslice, htext, ?_⟩
  rw [nodeText?, hnode]
  exact htext

end Document

end TexAnchor
