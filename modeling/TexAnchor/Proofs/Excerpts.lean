import TexAnchor.Proofs.Accounting
import TexAnchor.Proofs.Payloads
import TexAnchor.Proofs.Tiling

/-! # The text between nodes

Providers look up the text from the start of one node to the end of another (`Subject.spanText?`), and the
text inside a parameter block from its first child to its last (`Subject.blockText?`).

Where nodes stand one behind another, the text from the first to the last is what their own texts are one
after another (`Subject.exists_spanText?_eq`).  In a document that was just parsed this holds of any
consecutive children of a construct that its children fill, and the text inside a parameter block is what
stands between its delimiters (`Document.slice?_eq_and_textOf?_eq_of_parse`). -/

namespace TexAnchor

open Text (Coord byteLength slice?)
open Token (textOf)

theorem Arena.map_id_filterMap_view? {a : Arena} {ids : List NodeId}
    (h : ∀ id ∈ ids, (a.get? id).isSome = true) : (ids.filterMap a.view?).map View.id = ids := by
  induction ids with
  | nil => rfl
  | cons id ids ih =>
    rw [List.forall_mem_cons] at h
    obtain ⟨node, hnode⟩ := Option.isSome_iff_exists.mp h.1
    have hview : a.view? id = some ⟨a, id, node⟩ := by rw [view?, hnode, Option.map_some]
    rw [List.filterMap_cons_some hview, List.map_cons, ih h.2]

/-- The children of such a node fill the place between the marks of the node. -/
def KindTag.isFilled : KindTag → Bool
  | latex | group | curlyBlock | command | environment => true
  | _ => false

namespace Document

variable {d : Document} {path : Path} {text : List Char} {id : NodeId} {node : Node} {v : View}
  {run : List View} {start stop : Nat}

/-- The texts of some nodes one after another; none if one of them has no text. -/
def textOf? (d : Document) (nodes : List View) : Option (List Char) :=
  (nodes.mapM fun v => d.nodeText? v.id).map List.flatten

theorem textOf?_cons {source later : List Char} (hsource : d.nodeText? v.id = some source)
    (hlater : d.textOf? run = some later) : d.textOf? (v :: run) = some (source ++ later) := by
  obtain ⟨sources, hsources, rfl⟩ := Option.map_eq_some_iff.mp hlater
  rw [textOf?, List.mapM_cons, hsource, hsources]
  rfl

theorem exists_of_textOf?_cons {whole : List Char} (h : d.textOf? (v :: run) = some whole) :
    ∃ source later, d.nodeText? v.id = some source ∧ d.textOf? run = some later ∧
      whole = source ++ later := by
  obtain ⟨sources, hsources, rfl⟩ := Option.map_eq_some_iff.mp h
  rw [List.mapM_cons, Option.bind_eq_bind, Option.bind_eq_some_iff] at hsources
  obtain ⟨source, hsource, hsources⟩ := hsources
  obtain ⟨later, hlater, heq⟩ := Option.bind_eq_some_iff.mp hsources
  obtain rfl := Option.some.inj heq
  exact ⟨source, later.flatten, hsource, by rw [textOf?, hlater, Option.map_some], rfl⟩

theorem isInfix_of_textOf? {source whole : List Char} (hmem : v ∈ run)
    (hsource : d.nodeText? v.id = some source) (hwhole : d.textOf? run = some whole) :
    source <:+: whole := by
  induction run generalizing whole with
  | nil => cases hmem
  | cons c run ih =>
    obtain ⟨first, later, hfirst, hlater, rfl⟩ := exists_of_textOf?_cons hwhole
    rcases List.mem_cons.mp hmem with rfl | hmem
    · rw [Option.some.inj (hsource.symm.trans hfirst)]
      exact (List.prefix_append _ _).isInfix
    · exact (ih hmem hlater).trans (List.suffix_append _ _).isInfix

/-! ### Nodes that tile a stretch -/

theorem tiles_append {ids ids' : List NodeId} : d.Tiles start stop (ids ++ ids') ↔
    ∃ mid, d.Tiles start mid ids ∧ d.Tiles mid stop ids' := by
  induction ids generalizing start with
  | nil =>
    constructor
    · exact fun h => ⟨start, rfl, h⟩
    · rintro ⟨mid, rfl, h⟩
      exact h
  | cons id ids ih =>
    constructor
    · rintro ⟨next, hfirst, hlater⟩
      obtain ⟨mid, hids, hids'⟩ := ih.mp hlater
      exact ⟨mid, ⟨next, hfirst, hids⟩, hids'⟩
    · rintro ⟨mid, ⟨next, hfirst, hids⟩, hids'⟩
      exact ⟨next, hfirst, ih.mpr ⟨mid, hids, hids'⟩⟩

theorem Tiles.isSome {ids : List NodeId} (h : d.Tiles start stop ids) :
    ∀ id ∈ ids, (d.arena.get? id).isSome = true := by
  induction ids generalizing start with
  | nil => nofun
  | cons id ids ih =>
    obtain ⟨next, ⟨-, -, node, hnode, -⟩, hlater⟩ := h
    rw [List.forall_mem_cons]
    exact ⟨by rw [hnode, Option.isSome_some], ih hlater⟩

theorem eq_of_byteLength_eq {a b : List Char} (ha : a <+: text) (hb : b <+: text)
    (h : byteLength a = byteLength b) : a = b := by
  have hab := Text.prefix_of_byteLength_le ha hb (Nat.le_of_eq h)
  have hba := Text.prefix_of_byteLength_le hb ha (Nat.le_of_eq h.symm)
  exact hab.eq_of_length (Nat.le_antisymm hab.length_le hba.length_le)

theorem Tiles.exists_covers {first last : View} (h : d.Tiles start stop (run.map View.id))
    (hviews : ∀ v ∈ run, d.arena.get? v.id = some v.node) (hfirst : run.head? = some first)
    (hlast : run.getLast? = some last) : ∃ before source after, d.textOf? run = some source ∧
      d.Covers ⟨first.range.start, last.range.stop⟩ before source after ∧
      byteLength before = start ∧ byteLength (before ++ source) = stop := by
  induction run generalizing start first with
  | nil => cases hfirst
  | cons v run ih =>
    obtain rfl : v = first := Option.some.inj hfirst
    obtain ⟨next, hv, hlater⟩ := h
    rw [List.forall_mem_cons] at hviews
    obtain ⟨node, before, source, after, hnode, hcovers, rfl, rfl⟩ := extends_iff.mp hv
    obtain rfl := Option.some.inj (hviews.1.symm.trans hnode)
    have hsource := nodeText?_of_covers hnode hcovers
    cases run with
    | nil =>
      obtain rfl : v = last := Option.some.inj hlast
      refine ⟨before, source, after, ?_, hcovers, rfl, hlater⟩
      have hnil : d.textOf? [] = some [] := rfl
      rw [textOf?_cons hsource hnil, List.append_nil]
    | cons second run =>
      rw [List.getLast?_cons_cons] at hlast
      obtain ⟨before', source', after', htext, hcovers', hbefore, hstop⟩ :=
        ih hlater hviews.2 rfl hlast
      obtain rfl : before' = before ++ source :=
        eq_of_byteLength_eq hcovers'.prefixes.1 hcovers.prefixes.2 hbefore
      refine ⟨before, source ++ source', after', textOf?_cons hsource htext, ⟨?_, ?_, ?_⟩, rfl, ?_⟩
      · rw [hcovers'.text_eq, List.append_assoc before]
      · exact hcovers.start_eq
      · rw [hcovers'.stop_eq, List.append_assoc]
      · rw [← List.append_assoc, hstop]

end Document

namespace Subject

variable {s : Subject} {run : List View} {start stop : Nat}

/-- The text from the first to the last of nodes that stand one behind another is what these have. -/
theorem exists_spanText?_eq (h : s.document.Tiles start stop (run.map View.id))
    (hviews : ∀ v ∈ run, s.document.arena.get? v.id = some v.node) (hne : run ≠ []) :
    ∃ source, s.document.textOf? run = some source ∧ s.spanText? run = some source ∧
      slice? s.document.text start stop = some source := by
  have hfirst := List.head?_eq_some_head hne
  have hlast := List.getLast?_eq_some_getLast hne
  obtain ⟨before, source, after, htext, hcovers, hstart, hstop⟩ :=
    h.exists_covers hviews hfirst hlast
  refine ⟨source, htext, ?_, ?_⟩
  · have hle : (run.head hne).range.start ≤ (run.getLast hne).range.stop := hcovers.start_le_stop
    rw [spanText?, hfirst, hlast]
    simp only
    rw [Range.spanning, if_pos hle, hcovers.textIn?]
  · exact Text.slice?_eq_some_iff.mpr ⟨before, after, hcovers.text_eq, hstart, hstop⟩

end Subject

namespace Document

variable {d : Document} {path : Path} {text : List Char} {id : NodeId} {node : Node} {v : View}
  {run : List View} {start stop : Nat} {s : Subject}

/-! ### Documents that were just parsed -/

/-- The nodes of a parse but the lists in square blocks and the items of these are constructs of the
grammar. -/
theorem tiled_of_construct (h : parse path text = .ok d) (hnode : d.arena.get? id = some node)
    (hkind : node.kind.tag.isFilled = true ∨ isBlock node.kind.tag = true) : d.Tiled id node := by
  obtain ⟨children, hids, hholds, -, horigin⟩ := exists_origin_of_parse h hnode
  cases horigin with
  | construct hpiece hm hwhole => exact tiled_of_produces hnode hids hholds hpiece hm hwhole
  | list hpiece =>
    rw [(Tree.node.inj hpiece.list_eq).1] at hkind
    simp [NodeKind.tag, KindTag.isFilled, isBlock] at hkind
  | item hpiece hmem =>
    obtain ⟨-, before, item, after, -, hitem, -⟩ := hpiece.item_eq hmem
    rw [hitem, Parameters.kindOf] at hkind
    cases hcut : Parameters.cutAt? '=' 0 item <;>
      simp [hcut, NodeKind.tag, KindTag.isFilled, isBlock] at hkind

theorem Tiled.exists_tiles (h : d.Tiled id node) (hkind : node.kind.tag.isFilled = true) :
    ∃ first last, d.Tiles first last node.children := by
  obtain ⟨start, stop, -, hinside⟩ := h
  cases htag : node.kind with
  | latex =>
    rw [htag] at hinside
    exact ⟨start, stop, hinside.2.2⟩
  | group | curlyBlock | command =>
    rw [htag] at hinside
    obtain ⟨-, -, first, last, -, -, -, -, htiles⟩ := hinside
    exact ⟨first, last, htiles⟩
  | environment =>
    rw [htag] at hinside
    obtain ⟨⟨-, -, first, last, -, -, -, -, htiles⟩, -⟩ := hinside
    exact ⟨first, last, htiles⟩
  | _ => simp [htag, NodeKind.tag, KindTag.isFilled] at hkind

theorem get?_of_mem_children (hv : d.arena.view? id = some v) {c : View} (hc : c ∈ v.children) :
    d.arena.get? c.id = some c.node := by
  obtain ⟨node, -, rfl⟩ := Option.map_eq_some_iff.mp hv
  obtain ⟨i, -, hview⟩ := List.mem_filterMap.mp hc
  obtain ⟨child, hchild, rfl⟩ := Option.map_eq_some_iff.mp hview
  exact hchild

theorem Tiles.map_id_children {first last : Nat} (h : d.Tiles first last v.node.children)
    (hv : d.arena.view? id = some v) : v.children.map View.id = v.node.children := by
  obtain ⟨node, -, rfl⟩ := Option.map_eq_some_iff.mp hv
  exact Arena.map_id_filterMap_view? h.isSome

/-- Consecutive children of a node that its children fill stand one behind another. -/
theorem exists_tiles_of_infix (h : parse path text = .ok d) (hv : d.arena.view? id = some v)
    (hkind : v.kind.tag.isFilled = true) (hrun : run <:+: v.children) :
    ∃ start stop, d.Tiles start stop (run.map View.id) := by
  have hnode := Arena.get?_of_view? hv
  obtain ⟨first, last, htiles⟩ := (tiled_of_construct h hnode (.inl hkind)).exists_tiles hkind
  obtain ⟨before, after, hchildren⟩ := hrun
  rw [← htiles.map_id_children hv, ← hchildren, List.map_append, List.map_append] at htiles
  obtain ⟨stop, hfront, -⟩ := tiles_append.mp htiles
  obtain ⟨start, -, hmiddle⟩ := tiles_append.mp hfront
  exact ⟨start, stop, hmiddle⟩

theorem exists_spanText?_of_infix (h : parse path text = .ok s.document)
    (hv : s.document.arena.view? id = some v) (hkind : v.kind.tag.isFilled = true)
    (hrun : run <:+: v.children) (hne : run ≠ []) :
    ∃ source, s.document.textOf? run = some source ∧ s.spanText? run = some source := by
  obtain ⟨start, stop, htiles⟩ := exists_tiles_of_infix h hv hkind hrun
  obtain ⟨source, htext, hspan, -⟩ := s.exists_spanText?_eq htiles
    (fun c hc => get?_of_mem_children hv (hrun.subset hc)) hne
  exact ⟨source, htext, hspan⟩

theorem HasTokens.slice?_self {tokens : List Token} (h : d.HasTokens start tokens stop) :
    slice? d.text stop stop = some [] := by
  obtain ⟨left, right, htokens, -, rfl⟩ := h
  refine Text.slice?_eq_some_iff.mpr ⟨textOf (left ++ tokens), textOf right, ?_, rfl, ?_⟩
  · rw [List.append_nil, ← Token.textOf_append, ← htokens, textOf_tokenize]
  · rw [List.append_nil]

theorem exists_blockText?_of_tiles {first last : Nat} {opening : List Token}
    (hv : s.document.arena.view? id = some v) (hopening : s.document.HasTokens start opening first)
    (htiles : s.document.Tiles first last v.node.children) :
    ∃ inner, slice? s.document.text first last = some inner ∧ s.blockText? v = some inner := by
  have hids := htiles.map_id_children hv
  rw [← hids] at htiles
  by_cases hne : v.children = []
  · rw [hne] at htiles
    obtain rfl : first = last := htiles
    refine ⟨[], hopening.slice?_self, ?_⟩
    rw [Subject.blockText?, hne]
    rfl
  · obtain ⟨inner, -, hspan, hslice⟩ := s.exists_spanText?_eq htiles
      (fun c hc => get?_of_mem_children hv hc) hne
    exact ⟨inner, hslice, hspan⟩

/-- Between the brackets of a block stands its list, which has all that is looked up inside it. -/
theorem exists_blockText?_of_list {first last : Nat} {list : NodeId}
    (hv : s.document.arena.view? id = some v) (hchildren : v.node.children = [list])
    (hlist : s.document.Extends list first last) :
    ∃ inner, slice? s.document.text first last = some inner ∧ s.blockText? v = some inner := by
  have htiles : s.document.Tiles first last v.node.children := by
    rw [hchildren]
    exact ⟨last, hlist, rfl⟩
  have hne : v.children ≠ [] := by
    intro hnil
    have hids := htiles.map_id_children hv
    rw [hnil, hchildren] at hids
    cases hids
  rw [← htiles.map_id_children hv] at htiles
  obtain ⟨inner, -, hspan, hslice⟩ := s.exists_spanText?_eq htiles
    (fun c hc => get?_of_mem_children hv hc) hne
  exact ⟨inner, hslice, hspan⟩

theorem Framed.imp {opens closes : List Token → Prop} {inside inside' : Nat → Nat → Prop}
    (h : d.Framed start stop opens closes inside)
    (himp : ∀ opening first last, d.HasTokens start opening first → inside first last →
      inside' first last) : d.Framed start stop opens closes inside' := by
  obtain ⟨opening, closing, first, last, hopens, hcloses, hopening, hclosing, hinside⟩ := h
  exact ⟨opening, closing, first, last, hopens, hcloses, hopening, hclosing,
    himp opening first last hopening hinside⟩

/-- In a document that was just parsed the text inside a parameter block is what stands between its
braces or brackets, and the text from the first to the last of consecutive children of a node that its
children fill is what these have one after another. -/
theorem slice?_eq_and_textOf?_eq_of_parse (h : parse path text = .ok d) (hs : s.document = d)
    (hv : d.arena.view? id = some v) :
    (v.kind = .curlyBlock → ∃ start stop, d.Extends id start stop ∧
      d.Framed start stop (· = [⟨.lBrace, ['\x7b']⟩]) (· = [⟨.rBrace, ['\x7d']⟩]) fun first last =>
        ∃ inner, slice? d.text first last = some inner ∧ s.blockText? v = some inner) ∧
    (v.kind = .squareBlock → ∃ start stop, d.Extends id start stop ∧
      d.Framed start stop (· = [⟨.lBracket, ['[']⟩]) (· = [⟨.rBracket, [']']⟩]) fun first last =>
        ∃ inner, slice? d.text first last = some inner ∧ s.blockText? v = some inner) ∧
    (v.kind.tag.isFilled = true → ∀ run, run <:+: v.children → run ≠ [] →
      ∃ source, d.textOf? run = some source ∧ s.spanText? run = some source) := by
  subst hs
  have hnode := Arena.get?_of_view? hv
  refine ⟨fun hkind => ?_, fun hkind => ?_, fun hkind run hrun hne =>
    exists_spanText?_of_infix h hv hkind hrun hne⟩
  · have hkind : v.node.kind = .curlyBlock := hkind
    obtain ⟨start, stop, hextends, hinside⟩ :=
      tiled_of_construct h hnode (.inr (by rw [hkind]; rfl))
    rw [hkind] at hinside
    refine ⟨start, stop, hextends, hinside.imp fun opening first last hopening htiles => ?_⟩
    exact exists_blockText?_of_tiles hv hopening htiles
  · have hkind : v.node.kind = .squareBlock := hkind
    obtain ⟨start, stop, hextends, hinside⟩ :=
      tiled_of_construct h hnode (.inr (by rw [hkind]; rfl))
    rw [hkind] at hinside
    refine ⟨start, stop, hextends, hinside.imp fun opening first last _ hlist => ?_⟩
    obtain ⟨list, hchildren, hlist, -⟩ := hlist
    exact exists_blockText?_of_list hv hchildren hlist

/-- A command with a parameter on two lines, in which a letter of two bytes and an empty group stand, and
an empty list. -/
def twoLineCommand : Document where
  path := ⟨"a.tex"⟩
  text := ['\\', 'x', '\x7b', 'é', '\x7b', '\x7d', '\n', '\x7d', '[', ']']
  arena := .ofForest ⟨1, 3⟩
    [.node (.command "x") ⟨⟨0, 0⟩, ⟨1, 3⟩⟩
      [.node .curlyBlock ⟨⟨0, 2⟩, ⟨1, 1⟩⟩
        [.leaf (.text "é") ⟨0, 3⟩ ⟨0, 4⟩, .leaf .group ⟨0, 4⟩ ⟨0, 6⟩,
          .leaf (.whitespace 1) ⟨0, 6⟩ ⟨1, 0⟩],
        .node .squareBlock ⟨⟨1, 1⟩, ⟨1, 3⟩⟩ [.leaf .parameterList ⟨1, 2⟩ ⟨1, 2⟩]]]

theorem slice?_eq_and_textOf?_eq_of_parse_twoLines : ∃ v, ∃ s : Subject,
    parse ⟨"a.tex"⟩ twoLineCommand.text = .ok twoLineCommand ∧ s.document = twoLineCommand ∧
      twoLineCommand.arena.view? ⟨4⟩ = some v ∧ v.kind = .curlyBlock ∧
      (∃ start stop, twoLineCommand.Extends ⟨4⟩ start stop ∧
        twoLineCommand.Framed start stop (· = [⟨.lBrace, ['\x7b']⟩]) (· = [⟨.rBrace, ['\x7d']⟩])
          fun first last => ∃ inner, slice? twoLineCommand.text first last = some inner ∧
            s.blockText? v = some inner) ∧
      s.blockText? v = some ['é', '\x7b', '\x7d', '\n'] ∧
      (∃ source, twoLineCommand.textOf? (v.children.take 2) = some source ∧
        s.spanText? (v.children.take 2) = some source) := by
  have hparse : parse ⟨"a.tex"⟩ twoLineCommand.text = .ok twoLineCommand := by rfl
  have hview : twoLineCommand.arena.view? ⟨4⟩ = some ⟨twoLineCommand.arena, ⟨4⟩,
    ⟨.curlyBlock, Arena.rangeOf ⟨⟨0, 2⟩, ⟨1, 1⟩⟩, [⟨1⟩, ⟨2⟩, ⟨3⟩], some ⟨7⟩⟩⟩ := rfl
  let s : Subject := ⟨twoLineCommand, default, default⟩
  have hs : s.document = twoLineCommand := rfl
  obtain ⟨hblock, -, hruns⟩ := slice?_eq_and_textOf?_eq_of_parse hparse hs hview
  exact ⟨_, s, hparse, hs, hview, rfl, hblock rfl, rfl,
    hruns rfl _ (List.take_prefix 2 _).isInfix (by decide)⟩

end Document

end TexAnchor
