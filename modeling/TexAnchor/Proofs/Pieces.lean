import TexAnchor.Proofs.Groves
import TexAnchor.Proofs.Stretches

/-! # What the nodes of a parse were read from

A `Grammar.Piece` is a part of the markup of a text, with the tokens of the text before it and behind
it, and the tree that it is read as.  `Grammar.Origin` says which piece a tree was read from: a
construct of the grammar, the list in a square block, or one of the items of such a list.

In a document that was just parsed every node has an origin, and its children are read from the parts
of what it was read from (`Document.exists_origin_of_parse`). -/

namespace TexAnchor

open Text (Coord)
open Token (textOf)

namespace Grammar

variable {text : List Char} {left right : List Token} {m : Markup} {t c : Tree} {kind : NodeKind}
  {parts : List Markup}

/-- The piece `m` of the text, which has the tokens `left` before it and `right` behind it, is read as
the tree. -/
structure Piece (text : List Char) (left right : List Token) (m : Markup) (t : Tree) : Prop where
  tokens_eq : tokenize text = left ++ m.tokens ++ right
  trees_eq : m.trees (Coord.zero.advance (textOf left)) = [t]

/-- What a tree of a text was read from. -/
inductive Origin (text : List Char) (t : Tree) : Prop
  /-- A construct of the grammar; a document is the whole text. -/
  | construct {left right : List Token} {m : Markup} {role : Role} :
    Piece text left right m t → Produces role m → (role = .document → left = [] ∧ right = []) →
    Origin text t
  /-- The content of a square block. -/
  | list {left right inner : List Token} : Piece text left right (.items inner) t → Origin text t
  /-- An item of the content of a square block. -/
  | item {left right inner : List Token} {list : Tree} :
    Piece text left right (.items inner) list → t ∈ list.children → Origin text t

/-! ### Pieces -/

theorem Piece.text_eq (h : Piece text left right m t) :
    text = textOf left ++ m.text ++ textOf right := by
  rw [← textOf_tokenize text, h.tokens_eq]
  simp [Markup.text]

theorem Piece.lexical (h : Piece text left right m t) : ∀ t ∈ m.tokens, t.Lexical := by
  intro t ht
  have hmem : t ∈ tokenize text := by simp [h.tokens_eq, ht]
  exact lexical_of_mem_tokenize hmem

theorem Piece.tree_eq (h : Piece text left right (.node kind parts) t) :
    t = .node kind ⟨Coord.zero.advance (textOf left),
      Coord.zero.advance (textOf left ++ Markup.textOf parts)⟩
      (Markup.forest (Coord.zero.advance (textOf left)) parts) := by
  have h := h.trees_eq
  rw [Markup.trees_node, List.singleton_inj] at h
  rw [← h, Coord.advance_append]

theorem Piece.list_eq {inner : List Token} (h : Piece text left right (.items inner) t) :
    t = Markup.parameterList (Coord.zero.advance (textOf left)) (textOf inner) := by
  have h := h.trees_eq
  rw [Markup.trees_items, List.singleton_inj] at h
  exact h.symm

theorem Piece.span_eq (h : Piece text left right m t) :
    t.span = ⟨Coord.zero.advance (textOf left), Coord.zero.advance (textOf (left ++ m.tokens))⟩ := by
  cases m with
  | raw ts => cases h.trees_eq.symm.trans (Markup.trees_raw _ ts)
  | items ts => simp [h.list_eq, Markup.parameterList, Tree.span]
  | node kind parts => simp [h.tree_eq, Tree.span, Markup.textOf]

theorem Piece.exists_item {inner : List Token} {list : Tree}
    (h : Piece text left right (.items inner) list) (ht : t ∈ list.children) :
    ∃ before item after, text = before ++ item ++ after ∧
      t = Tree.leaf (Parameters.kindOf item) (Coord.zero.advance before)
        (Coord.zero.advance (before ++ item)) := by
  rw [h.list_eq] at ht
  obtain ⟨before, item, after, hinner, rfl⟩ := Parameters.exists_of_mem_placeItems ht
  rw [Parameters.joined_segments] at hinner
  refine ⟨textOf left ++ before, item, after ++ textOf right, ?_, by simp⟩
  rw [h.text_eq, Markup.text, Markup.tokens_items, hinner]
  simp

theorem Piece.item_eq {inner : List Token} {list : Tree} {span : Span} {children : List Planted}
    (h : Piece text left right (.items inner) list)
    (hmem : .node kind span (children.map Planted.tree) ∈ list.children) :
    children = [] ∧ ∃ before item after, text = before ++ item ++ after ∧
      kind = Parameters.kindOf item ∧
      span = ⟨Coord.zero.advance before, Coord.zero.advance (before ++ item)⟩ := by
  obtain ⟨before, item, after, htext, heq⟩ := h.exists_item hmem
  obtain ⟨hkind, hspan, hnil⟩ := Tree.node.inj heq
  exact ⟨List.map_eq_nil_iff.mp hnil, before, item, after, htext, hkind, hspan⟩

/-- The trees of markup in a text are read from pieces of it. -/
theorem exists_piece {ms : List Markup} (htokens : tokenize text = left ++ Markup.tokensOf ms ++ right)
    (hc : c ∈ Markup.forest (Coord.zero.advance (textOf left)) ms) :
    ∃ before m after, ms = before ++ m :: after ∧
      Piece text (left ++ Markup.tokensOf before) (Markup.tokensOf after ++ right) m c := by
  obtain ⟨trees, trees', hforest⟩ := List.append_of_mem hc
  obtain ⟨before, m, after, rfl, -, hm, -⟩ := Markup.exists_of_forest_eq hforest
  refine ⟨before, m, after, rfl, by simp [htokens], ?_⟩
  rw [← hm, Token.textOf_append, Coord.advance_append]
  rfl

/-- The children of a tree are read from parts of what it is read from. -/
theorem Piece.exists_part (h : Piece text left right (.node kind parts) t) (hc : c ∈ t.children) :
    ∃ before m after, parts = before ++ m :: after ∧
      Piece text (left ++ Markup.tokensOf before) (Markup.tokensOf after ++ right) m c := by
  rw [h.tree_eq] at hc
  exact exists_piece h.tokens_eq hc

/-- The children of a tree behind those of the `front` parts are read from the `body` parts. -/
theorem Piece.exists_body_part {front body back : List Markup}
    (h : Piece text left right (.node kind (front ++ (body ++ back))) t)
    (hback : ∀ here, Markup.forest here back = []) {count : Nat}
    (hcount : ∀ here, (Markup.forest here front).length = count) (hc : c ∈ t.children.drop count) :
    ∃ before m after, m ∈ body ∧ Piece text before after m c := by
  rw [h.tree_eq, Tree.children, Markup.forest_append, List.drop_left' (hcount _),
    Markup.forest_append, hback, List.append_nil, Markup.textOf, ← Coord.advance_append,
    ← Token.textOf_append] at hc
  have htokens : tokenize text =
      left ++ Markup.tokensOf front ++ Markup.tokensOf body ++ (Markup.tokensOf back ++ right) := by
    simp [h.tokens_eq]
  obtain ⟨before, m, after, rfl, hpiece⟩ := exists_piece htokens hc
  exact ⟨_, m, _, by simp, hpiece⟩

/-! ### Origins -/

theorem Origin.child (h : Origin text t) (hc : c ∈ t.children) : Origin text c := by
  cases h with
  | construct hpiece hm =>
    obtain ⟨kind, parts, rfl⟩ := hm.exists_eq_node
    obtain ⟨before, m, after, rfl, hpart⟩ := hpiece.exists_part hc
    cases m with
    | raw ts => cases hpart.trees_eq.symm.trans (Markup.trees_raw _ ts)
    | items ts => exact .list hpart
    | node kind' parts' =>
      obtain ⟨role, hpart', hrole⟩ := hm.of_mem_parts (m := .node kind' parts') (by simp) ⟨_, _, rfl⟩
      exact .construct hpart hpart' (absurd · hrole)
  | list hpiece => exact .item hpiece hc
  | item hpiece ht =>
    rw [hpiece.list_eq] at ht
    rw [(Parameters.of_mem_placeItems ht).1] at hc
    cases hc

theorem Origin.occurs {p q : Planted} (hp : Origin text p.tree) (h : q.Occurs p) :
    Origin text q.tree := by
  induction h with
  | top => exact hp
  | deeper hmem _ ih =>
    rw [Planted.tree_node] at hp
    exact ih (hp.child (List.mem_map_of_mem hmem))

end Grammar

namespace Document

open Grammar

variable {d : Document} {path : Path} {text : List Char} {id : NodeId} {node : Node} {range : Range}

theorem covers_of_span {before source after : List Char} (htext : d.text = before ++ source ++ after)
    (hspan : range.span = ⟨Coord.zero.advance before, Coord.zero.advance (before ++ source)⟩) :
    d.Covers range before source after :=
  ⟨htext, congrArg Span.start hspan, congrArg Span.stop hspan⟩

/-- The range of the tree of a piece covers the text of the piece. -/
theorem covers_of_piece {left right : List Token} {m : Markup} {t : Tree}
    (hpiece : Piece d.text left right m t) (hspan : range.span = t.span) :
    d.Covers range (textOf left) m.text (textOf right) := by
  rw [hpiece.span_eq, Token.textOf_append] at hspan
  exact covers_of_span hpiece.text_eq hspan

/-- The arena of a parse has the nodes of one tree and no others. -/
theorem exists_consists_of_parse (h : parse path text = .ok d) :
    ∃ p, d.arena.Consists [p] ∧ Origin d.text p.tree := by
  obtain ⟨q, m, hq, hm, htokens, htree⟩ := exists_markup_of_parse h
  obtain ⟨forest, -, rfl⟩ := parse_eq_ok_iff.mp h
  obtain ⟨⟨p, hp⟩, -⟩ := Arena.consists_ofForest (Coord.zero.advance text) forest
  obtain ⟨p', hp', hcarries⟩ := hp.exists_carries
  obtain rfl := List.mem_singleton.mp hp'
  rw [← Option.some.inj (hcarries.tree?.symm.trans hq.tree?)] at htree
  have hpiece : Piece text [] [] m _ := ⟨by simpa using htokens.symm, htree⟩
  exact ⟨_, hp, .construct hpiece hm fun _ => ⟨rfl, rfl⟩⟩

/-- Every node of a parse and its children are the tops of trees that were read from the text. -/
theorem exists_origin_of_parse (h : parse path text = .ok d) (hnode : d.arena.get? id = some node) :
    ∃ children : List Planted, node.children = children.map Planted.id ∧
      (∀ c ∈ children, d.arena.Holds (some id) c) ∧ (children.flatMap Planted.ids).Nodup ∧
      Origin d.text (.node node.kind node.range.span (children.map Planted.tree)) := by
  obtain ⟨p, hp, horigin⟩ := exists_consists_of_parse h
  obtain ⟨p', hp', hholds, hid⟩ := hp.exists_mem hnode
  obtain rfl := List.mem_singleton.mp hp'
  obtain ⟨children, hocc, heq, hchildren⟩ := hholds.exists_children hid hnode
  have hnodup := hocc.nodup (Arena.nodup_ids_of_mem hp.nodup hp')
  rw [Planted.ids_node, List.nodup_cons] at hnodup
  refine ⟨children, heq, hchildren, hnodup.2, ?_⟩
  have h := horigin.occurs hocc
  rwa [Planted.tree_node] at h

end Document

end TexAnchor
