import TexAnchor.Proofs.Sources

/-! # The stretches of the nodes of a parse

Where a text is read, every node is given the ends of a stretch of it: a construct those of its
tokens, a list of parameters those of its block, and an item of such a list those of its segment
without the blanks around it.  So each node of a document that was just parsed covers a stretch of its
text (`Document.exists_covers_of_parse`). -/

namespace TexAnchor

open Text (Coord)
open Token (textOf)

/-! ### Spans of stretches -/

/-- The span is that of a stretch of a text which starts at `here`. -/
def Span.Cuts (s : Span) (here : Coord) (text : List Char) : Prop :=
  ∃ before source after, text = before ++ source ++ after ∧
    s = ⟨here.advance before, here.advance (before ++ source)⟩

namespace Span

variable {s : Span} {here : Coord} {text : List Char}

theorem cuts_whole (here : Coord) (text : List Char) :
    Cuts ⟨here, here.advance text⟩ here text :=
  ⟨[], text, [], by simp, rfl⟩

theorem Cuts.behind {before : List Char} (h : s.Cuts (here.advance before) text) :
    s.Cuts here (before ++ text) := by
  obtain ⟨left, source, right, rfl, rfl⟩ := h
  exact ⟨before ++ left, source, right, by simp, by simp⟩

theorem Cuts.append (h : s.Cuts here text) (after : List Char) : s.Cuts here (text ++ after) := by
  obtain ⟨left, source, right, rfl, rfl⟩ := h
  exact ⟨left, source, right ++ after, by simp, rfl⟩

end Span

namespace Tree

mutual

/-- Where the nodes of a tree start and stop, parents before children. -/
def spans : Tree → List Span
  | node _ span children => span :: forestSpans children

/-- Where the nodes of some trees start and stop. -/
def forestSpans : List Tree → List Span
  | [] => []
  | t :: forest => t.spans ++ forestSpans forest

end

theorem forestSpans_eq (forest : List Tree) : forestSpans forest = forest.flatMap spans := by
  induction forest with
  | nil => rfl
  | cons t forest ih => rw [forestSpans, ih, List.flatMap_cons]

@[simp] theorem spans_node (kind : NodeKind) (span : Span) (children : List Tree) :
    (node kind span children).spans = span :: children.flatMap spans := by
  rw [spans, forestSpans_eq]

end Tree

theorem Planted.Occurs.span_mem {p q : Planted} (h : q.Occurs p) : q.range.span ∈ p.tree.spans := by
  induction h with
  | top =>
    cases q
    simp [Planted.range, Range.span]
  | deeper hmem _ ih =>
    rw [Planted.tree_node, Tree.spans_node, List.flatMap_map]
    exact List.mem_cons_of_mem _ (List.mem_flatMap.mpr ⟨_, hmem, ih⟩)

/-! ### Markup -/

namespace Parameters

theorem exists_of_mem_placeItems {here : Coord} {segments : List (List Char)} {t : Tree}
    (ht : t ∈ placeItems here segments) :
    ∃ before item after, joined segments = before ++ item ++ after ∧
      t = Tree.leaf (kindOf item) (here.advance before) (here.advance (before ++ item)) := by
  induction segments generalizing here with
  | nil => cases ht
  | cons segment later ih =>
    simp only [placeItems] at ht
    have hlater (ht : t ∈ placeItems ((here.advance segment).next ',') later) :
        ∃ before item after, joined (segment :: later) = before ++ item ++ after ∧
          t = Tree.leaf (kindOf item) (here.advance before) (here.advance (before ++ item)) := by
      cases later with
      | nil => cases ht
      | cons second later =>
        obtain ⟨before, item, after, htext, rfl⟩ := ih ht
        refine ⟨segment ++ ',' :: before, item, after, ?_, by simp⟩
        rw [joined_cons_cons, htext]
        simp
    split at ht
    · exact hlater ht
    · rcases List.mem_cons.mp ht with rfl | ht
      · obtain ⟨blanks, hblanks⟩ := trim_isPrefix segment
        have hsegment : segment <+: joined (segment :: later) := by
          cases later <;> simp [joined]
        obtain ⟨rest, hrest⟩ := hsegment
        refine ⟨segment.takeWhile Text.isBlank, Text.trim segment, blanks ++ rest, ?_, by simp⟩
        rw [← List.append_assoc, hblanks, hrest]
      · exact hlater ht

theorem cuts_of_mem_placeItems {here : Coord} {segments : List (List Char)} {t : Tree} {s : Span}
    (ht : t ∈ placeItems here segments) (hs : s ∈ t.spans) : s.Cuts here (joined segments) := by
  obtain ⟨before, item, after, htext, rfl⟩ := exists_of_mem_placeItems ht
  rw [Tree.leaf, Tree.spans_node, List.flatMap_nil, List.mem_singleton] at hs
  exact ⟨before, item, after, htext, hs⟩

end Parameters

namespace Markup

mutual

/-- The nodes of the trees of markup have the spans of stretches of its text. -/
theorem cuts_of_mem_trees {here : Coord} {t : Tree} {s : Span} (hs : s ∈ t.spans) :
    (m : Markup) → t ∈ m.trees here → s.Cuts here m.text
  | raw ts, ht => by simp at ht
  | items ts, ht => by
    rw [trees_items, List.mem_singleton] at ht
    rw [ht, parameterList, Tree.spans_node, List.mem_cons, List.mem_flatMap] at hs
    rcases hs with rfl | ⟨item, hitem, hs⟩
    · exact Span.cuts_whole here _
    · have hcut := Parameters.cuts_of_mem_placeItems hitem hs
      rw [Parameters.joined_segments] at hcut
      rwa [text, tokens_items]
  | node kind parts, ht => by
    rw [trees_node, List.mem_singleton] at ht
    rw [ht, Tree.spans_node, List.mem_cons, List.mem_flatMap] at hs
    rw [text_node]
    rcases hs with rfl | ⟨part, hpart, hs⟩
    · exact Span.cuts_whole here _
    · exact cuts_of_mem_forest hs parts hpart

theorem cuts_of_mem_forest {here : Coord} {t : Tree} {s : Span} (hs : s ∈ t.spans) :
    (ms : List Markup) → t ∈ forest here ms → s.Cuts here (Markup.textOf ms)
  | [], ht => by simp at ht
  | m :: ms, ht => by
    rw [forest_cons, List.mem_append] at ht
    rw [textOf_cons]
    rcases ht with ht | ht
    · exact (cuts_of_mem_trees hs m ht).append _
    · exact (cuts_of_mem_forest hs ms ht).behind

end

end Markup

/-! ### Documents that were just parsed -/

/-- Every node of the tree of a parse covers a stretch of the text. -/
theorem Document.exists_covers_of_parse {d : Document} {path : Path} {text : List Char}
    (h : Document.parse path text = .ok d) :
    ∃ p, d.arena.Carries p ∧ ∀ id ∈ p.ids, ∀ node, d.arena.get? id = some node →
      ∃ before source after, d.Covers node.range before source after := by
  obtain ⟨p, m, hp, -, htokens, htree⟩ := exists_markup_of_parse h
  refine ⟨p, hp, fun id hid node hnode => ?_⟩
  obtain ⟨old, hocc, -, -, hrange⟩ := hp.exists_occurs hid hnode
  have hmem : p.tree ∈ m.trees .zero := by simp [htree]
  obtain ⟨before, source, after, htext, hspan⟩ := Markup.cuts_of_mem_trees hocc.span_mem m hmem
  rw [hrange] at hspan
  refine ⟨before, source, after, ?_, congrArg Span.start hspan, congrArg Span.stop hspan⟩
  rw [← htext, text_of_parse h, Markup.text, htokens, textOf_tokenize]

end TexAnchor
