import TexAnchor.Proofs.WordChanges

/-! # Nested ranges

The nodes of a tree are nested if the children of every node stand inside it, one behind the other
(`Tree.Nested`, `Span.Fit`).  The trees that are read are nested, and since edits in order keep the
order of places, moving a tree keeps it nested.

A node that is exchanged is the one whose range is not moved: it starts where the old node started.
That is in place unless the old node covered nothing and what stands before it, the start of its
parent or the end of the child before it, was at the same place, for then the new text is put in
there and moves that place behind itself (`Document.Crowds`).  So ranges are nested exactly as long as
no node is crowded (`Document.Made.nested_and_perform_iff`). -/

namespace TexAnchor

open Text (Coord)

/-! ### What is before an edit -/

/-- A place up to the start of an edit is moved behind that start only if the edit puts text in there
without taking any away. -/
theorem Edit.mapCoord_le_start_iff {e : Edit} {c : Coord} (hordered : e.range.Ordered)
    (hne : e.text ≠ []) (hle : c ≤ e.range.start.coord) :
    e.mapCoord c ≤ e.range.start.coord ↔
      ¬ (e.range.start.coord = e.range.stop.coord ∧ c = e.range.start.coord) := by
  by_cases hleaves : e.Leaves c
  · rw [mapCoord_of_leaves hleaves]
    refine iff_of_true hle fun ⟨hempty, heq⟩ => ?_
    obtain hlt | ⟨-, hlt⟩ := hleaves
    exacts [Coord.ne_of_lt hlt heq, Coord.ne_of_lt hlt hempty]
  · have heq : c = e.range.start.coord :=
      (Coord.lt_or_eq_of_le hle).resolve_left fun hlt => hleaves (.inl hlt)
    have hempty : e.range.start.coord = e.range.stop.coord :=
      (Coord.lt_or_eq_of_le hordered).resolve_left fun hlt => hleaves (.inr ⟨heq, hlt⟩)
    have hbehind : e.range.start.coord < e.mapCoord c :=
      Coord.lt_of_lt_of_le (Coord.lt_advance _ hne) (newEnd_le_mapCoord hleaves)
    exact iff_of_false (Coord.not_le.mpr hbehind) fun hne => hne ⟨hempty, heq⟩

theorem Edit.mapCoord_stop {e : Edit} (hordered : e.range.Ordered) :
    e.mapCoord e.range.stop.coord = e.newEnd := by
  rw [mapCoord_of_le hordered (Coord.le_refl _), if_pos rfl, Nat.sub_self]
  rfl

/-! ### Spans in a row -/

/-- The spans stand between two places, one behind the other. -/
structure Span.Fit (lo hi : Coord) (ss : List Span) : Prop where
  ordered : lo ≤ hi
  inside : ∀ s ∈ ss, lo ≤ s.start ∧ s.start ≤ s.stop ∧ s.stop ≤ hi
  apart : ss.IsChain fun s s' => s.stop ≤ s'.start

namespace Span

variable {lo mid hi : Coord} {s s' : Span} {ss ss' before after : List Span}

theorem fit_nil (h : lo ≤ hi) : Fit lo hi [] :=
  ⟨h, by simp, .nil⟩

theorem fit_singleton (hlo : lo ≤ s.start) (hs : s.start ≤ s.stop) (hhi : s.stop ≤ hi) :
    Fit lo hi [s] :=
  ⟨Coord.le_trans hlo (Coord.le_trans hs hhi), by simpa using ⟨hlo, hs, hhi⟩, .singleton s⟩

theorem Fit.append (h : Fit lo mid ss) (h' : Fit mid hi ss') : Fit lo hi (ss ++ ss') := by
  refine ⟨Coord.le_trans h.ordered h'.ordered, fun s hs => ?_, ?_⟩
  · obtain hs | hs := List.mem_append.mp hs
    · obtain ⟨hlo, hs, hmid⟩ := h.inside s hs
      exact ⟨hlo, hs, Coord.le_trans hmid h'.ordered⟩
    · obtain ⟨hmid, hs, hhi⟩ := h'.inside s hs
      exact ⟨Coord.le_trans h.ordered hmid, hs, hhi⟩
  · refine List.isChain_append.mpr ⟨h.apart, h'.apart, fun s hs s' hs' => ?_⟩
    obtain ⟨-, -, hmid⟩ := h.inside s (List.mem_of_getLast? hs)
    obtain ⟨hmid', -⟩ := h'.inside s' (List.mem_of_head? hs')
    exact Coord.le_trans hmid hmid'

theorem Fit.map {f : Coord → Coord} (hf : ∀ {a b : Coord}, a ≤ b → f a ≤ f b) (h : Fit lo hi ss) :
    Fit (f lo) (f hi) (ss.map fun s => ⟨f s.start, f s.stop⟩) := by
  refine ⟨hf h.ordered, fun r hr => ?_, ?_⟩
  · obtain ⟨s, hs, rfl⟩ := List.mem_map.mp hr
    obtain ⟨hlo, hs, hhi⟩ := h.inside s hs
    exact ⟨hf hlo, hf hs, hf hhi⟩
  · rw [List.isChain_map]
    exact h.apart.imp fun _ _ hle => hf hle

/-- A span can be exchanged for one that stops at the same place and starts where there is room. -/
theorem Fit.exchange (h : Fit lo hi (before ++ s :: after)) (hstop : s'.stop = s.stop)
    (hs' : s'.start ≤ s'.stop) (hlo : lo ≤ s'.start)
    (hbefore : ∀ r ∈ before.getLast?, r.stop ≤ s'.start) : Fit lo hi (before ++ s' :: after) := by
  refine ⟨h.ordered, fun r hr => ?_, ?_⟩
  · obtain hr | hr := List.mem_append.mp hr
    · exact h.inside r (by simp [hr])
    · obtain rfl | hr := List.mem_cons.mp hr
      · obtain ⟨-, -, hhi⟩ := h.inside s (by simp)
        exact ⟨hlo, hs', hstop ▸ hhi⟩
      · exact h.inside r (by simp [hr])
  · have hapart := h.apart
    rw [List.isChain_append, List.isChain_cons] at hapart ⊢
    obtain ⟨hfirst, ⟨hnext, hrest⟩, -⟩ := hapart
    refine ⟨hfirst, ⟨fun r hr => hstop ▸ hnext r hr, hrest⟩, fun r hr r' hr' => ?_⟩
    obtain rfl := Option.some.inj hr'
    exact hbefore r hr

end Span

/-! ### Nested trees -/

/-- The children of every node stand inside it, one behind the other. -/
inductive Tree.Nested : Tree → Prop
  | node {kind : NodeKind} {span : Span} {children : List Tree} :
    Span.Fit span.start span.stop (children.map Tree.span) → (∀ c ∈ children, Nested c) →
    Nested (.node kind span children)

namespace Tree

theorem Nested.ordered {t : Tree} (h : t.Nested) : t.span.start ≤ t.span.stop := by
  cases h with
  | node hfit _ => exact hfit.ordered

theorem span_map (f : Coord → Coord) (t : Tree) : (t.map f).span = ⟨f t.span.start, f t.span.stop⟩ := by
  cases t
  rfl

theorem Nested.map {f : Coord → Coord} (hf : ∀ {a b : Coord}, a ≤ b → f a ≤ f b) {t : Tree}
    (h : t.Nested) : (t.map f).Nested := by
  induction h with
  | node hfit _ ih =>
    rw [Tree.map, mapForest_eq]
    refine .node ?_ fun t ht => ?_
    · have hmoved := hfit.map hf
      rw [List.map_map] at hmoved ⊢
      simpa only [Function.comp_def, span_map] using hmoved
    · obtain ⟨c, hc, rfl⟩ := List.mem_map.mp ht
      exact ih c hc

end Tree

/-! ### What is read is nested -/

namespace Parameters

theorem fit_placeItems (here : Coord) (segments : List (List Char)) :
    Span.Fit here (here.advance (joined segments)) ((placeItems here segments).map Tree.span) := by
  induction segments generalizing here with
  | nil => exact Span.fit_nil (Coord.le_refl _)
  | cons segment later ih =>
    have hothers : Span.Fit (here.advance segment) (here.advance (joined (segment :: later)))
        ((placeItems ((here.advance segment).next ',') later).map Tree.span) := by
      cases later with
      | nil => exact Span.fit_nil (Coord.le_refl _)
      | cons second later =>
        rw [joined_cons_cons, Coord.advance_append, Coord.advance_cons]
        exact (Span.fit_nil (Coord.le_of_lt (Coord.lt_next _ ','))).append (ih _)
    simp only [placeItems]
    split
    · exact (Span.fit_nil (Coord.le_advance here segment)).append hothers
    · obtain ⟨blanks, hblanks⟩ := trim_isPrefix segment
      have hstop := Coord.le_advance
        (here.advance (segment.takeWhile Text.isBlank ++ Text.trim segment)) blanks
      rw [← Coord.advance_append, hblanks, Coord.advance_append] at hstop
      exact (Span.fit_singleton (Coord.le_advance here _) (Coord.le_advance _ _) hstop).append hothers

theorem nested_of_mem_placeItems {here : Coord} {segments : List (List Char)} {t : Tree}
    (h : t ∈ placeItems here segments) : t.Nested := by
  induction segments generalizing here with
  | nil => cases h
  | cons segment later ih =>
    simp only [placeItems] at h
    split at h
    · exact ih h
    · obtain rfl | h := List.mem_cons.mp h
      · exact .node (Span.fit_nil (Coord.le_advance _ _)) (by simp)
      · exact ih h

end Parameters

namespace Markup

theorem fit_trees (here : Coord) (m : Markup) :
    Span.Fit here (here.advance m.text) ((m.trees here).map Tree.span) := by
  have hle := Coord.le_advance here m.text
  cases m with
  | raw ts =>
    rw [trees_raw]
    exact Span.fit_nil hle
  | items ts =>
    rw [trees_items]
    exact Span.fit_singleton (Coord.le_refl _) hle (Coord.le_refl _)
  | node kind parts =>
    rw [trees_node, ← text_node kind]
    exact Span.fit_singleton (Coord.le_refl _) hle (Coord.le_refl _)

theorem fit_forest (here : Coord) (ms : List Markup) :
    Span.Fit here (here.advance (textOf ms)) ((forest here ms).map Tree.span) := by
  induction ms generalizing here with
  | nil =>
    rw [forest_nil]
    exact Span.fit_nil (Coord.le_advance _ _)
  | cons m ms ih =>
    rw [forest_cons, List.map_append, textOf_cons, Coord.advance_append]
    exact (fit_trees here m).append (ih _)

mutual

theorem nested_of_mem_trees {here : Coord} {t : Tree} :
    (m : Markup) → t ∈ m.trees here → t.Nested
  | raw ts, ht => by simp at ht
  | items ts, ht => by
    rw [trees_items, List.mem_singleton] at ht
    rw [ht, parameterList]
    refine .node ?_ fun item hitem => Parameters.nested_of_mem_placeItems hitem
    have hfit := Parameters.fit_placeItems here (Parameters.segments 0 (Token.textOf ts))
    rwa [Parameters.joined_segments] at hfit
  | node kind parts, ht => by
    rw [trees_node, List.mem_singleton] at ht
    rw [ht]
    exact .node (fit_forest here parts) fun part hpart => nested_of_mem_forest parts hpart

theorem nested_of_mem_forest {here : Coord} {t : Tree} :
    (ms : List Markup) → t ∈ forest here ms → t.Nested
  | [], ht => by simp at ht
  | m :: ms, ht => by
    rw [forest_cons, List.mem_append] at ht
    obtain ht | ht := ht
    · exact nested_of_mem_trees m ht
    · exact nested_of_mem_forest ms ht

end

end Markup

theorem Grammar.nested_of_readFrom {origin : Coord} {text : List Char} {t : Tree}
    (h : readFrom origin text = .ok [t]) : t.Nested := by
  obtain ⟨y, -, -, htree⟩ := exists_item_of_readFrom h
  exact Markup.nested_of_mem_trees y (htree ▸ List.mem_singleton_self t)

/-! ### Exchanges -/

namespace Planted

variable {old new p p' q : Planted}

theorem Occurs.nested (h : q.Occurs p) (hp : p.tree.Nested) : q.tree.Nested := by
  induction h with
  | top => exact hp
  | deeper hmem _ ih =>
    rw [tree_node] at hp
    cases hp with
    | node _ hchildren => exact ih (hchildren _ (List.mem_map_of_mem hmem))

theorem fit_of_nested {id : NodeId} {kind : NodeKind} {range : Range} {children : List Planted}
    (h : (node id kind range children).tree.Nested) :
    Span.Fit range.start.coord range.stop.coord (children.map fun c => c.range.span) := by
  rw [tree_node] at h
  cases h with
  | node hfit _ =>
    rw [List.map_map] at hfit
    simpa only [Function.comp_def, span_tree] using hfit

/-- A tree stays nested when a tree in it is exchanged for one that stops at the same place and starts
where there is room for it. -/
theorem Grafted.nested (h : Grafted old new p p') (hp : p.tree.Nested) (hnew : new.tree.Nested)
    (hstop : new.range.span.stop = old.range.span.stop)
    (hroom : ∀ id kind range before after,
      (node id kind range (before ++ old :: after)).Occurs p →
      range.start.coord ≤ new.range.span.start ∧
        ∀ c ∈ before.getLast?, c.range.span.stop ≤ new.range.span.start) : p'.tree.Nested := by
  induction h with
  | here => exact hnew
  | @inside c c' id kind range before after hgraft ih =>
    have hfit := fit_of_nested hp
    have hchildren : ∀ t ∈ before ++ c :: after, t.tree.Nested := fun t ht =>
      (Occurs.deeper ht .top).nested hp
    have hc' : c'.tree.Nested := ih (hchildren c (by simp)) fun id kind range before after hocc =>
      hroom id kind range before after (.deeper (by simp) hocc)
    rw [tree_node]
    refine .node ?_ fun t ht => ?_
    · rw [List.map_append, List.map_cons] at hfit
      simp only [List.map_append, List.map_cons, List.map_map, Function.comp_def, span_tree]
      cases hgraft with
      | here =>
        obtain ⟨hstart, hbefore⟩ := hroom id kind range before after .top
        refine hfit.exchange hstop (span_tree new ▸ hnew.ordered) hstart fun r hr => ?_
        rw [List.getLast?_map] at hr
        obtain ⟨b, hb, rfl⟩ := Option.map_eq_some_iff.mp hr
        exact hbefore b hb
      | inside => exact hfit
    · obtain ⟨q, hq, rfl⟩ := List.mem_map.mp ht
      obtain hq | hq := List.mem_append.mp hq
      · exact hchildren q (by simp [hq])
      · obtain rfl | hq := List.mem_cons.mp hq
        exacts [hc', hchildren q (by simp [hq])]

theorem range_mapRange (f : Range → Range) (p : Planted) : (p.mapRange f).range = f p.range := by
  obtain ⟨id, kind, range, children⟩ := p
  rw [mapRange_node]
  rfl

theorem Grafted.exists_children (h : Grafted old new p p') : (p = old ∧ p' = new) ∨
    ∃ id kind range before after, (node id kind range (before ++ old :: after)).Occurs p ∧
      (node id kind range (before ++ new :: after)).Occurs p' := by
  induction h with
  | here => exact .inl ⟨rfl, rfl⟩
  | inside id kind range before after _ ih =>
    refine .inr ?_
    obtain ⟨rfl, rfl⟩ | ⟨id', kind', range', before', after', hocc, hocc'⟩ := ih
    · exact ⟨id, kind, range, before, after, .top, .top⟩
    · exact ⟨id', kind', range', before', after', .deeper (by simp) hocc, .deeper (by simp) hocc'⟩

end Planted

/-! ### Nested documents -/

namespace Document

variable {d d' : Document} {p : Planted} {id new up : NodeId} {node : Node} {path : Path}
  {text : List Char} {e : Edit} {place : Position}

/-- Every attached node is inside its parent, and no child ends after the start of the next one. -/
structure Nested (d : Document) : Prop where
  inside : ∀ id node up parent, d.arena.isAttached id = true → d.arena.get? id = some node →
    node.parent = some up → d.arena.get? up = some parent →
    parent.range.containsRange node.range = true
  apart : ∀ up parent before first second after left right, d.arena.isAttached up = true →
    d.arena.get? up = some parent → parent.children = before ++ first :: second :: after →
    d.arena.get? first = some left → d.arena.get? second = some right →
    left.range.stop ≤ right.range.start

/-- The tree of the document is nested. -/
def Nests (d : Document) : Prop :=
  ∀ t ∈ d.tree?, t.Nested

theorem nests_iff (h : d.arena.Carries p) : d.Nests ↔ p.tree.Nested := by
  simp [Nests, tree?, h.tree?]

theorem Nests.exists_children (h : d.Nests) (hp : d.arena.Carries p)
    (hup : d.arena.isAttached up = true) (hnode : d.arena.get? up = some node) :
    ∃ children : List Planted, node.children = children.map Planted.id ∧
      Span.Fit node.range.start.coord node.range.stop.coord
        (children.map fun c => c.range.span) ∧
      ∀ c ∈ children, ∀ child, d.arena.get? c.id = some child → child.range = c.range := by
  obtain ⟨children, hocc, heq, hchildren⟩ :=
    hp.holds.exists_children (hp.mem_of_isAttached hup) hnode
  refine ⟨children, heq, Planted.fit_of_nested (hocc.nested ((nests_iff hp).mp h)), ?_⟩
  intro c hc child hchild
  obtain ⟨below, hget⟩ := (hchildren c hc).get?
  obtain rfl := Option.some.inj (hchild.symm.trans hget)
  rfl

theorem Nests.nested (h : d.Nests) (hp : d.arena.Carries p) : d.Nested := by
  constructor
  · intro id node up parent hid hnode hup hparent
    have hid := hp.mem_of_isAttached hid
    obtain ⟨-, htop⟩ | ⟨up', parent', hparent', hup', hlisted⟩ := hp.holds.listed hid hnode
    · rw [hup] at htop
      cases htop
    · obtain rfl := Option.some.inj (hup.symm.trans hup')
      obtain rfl := Option.some.inj (hparent.symm.trans hparent')
      have hattached := hp.isAttached_iff.mpr (hp.holds.parent_mem hid hnode hup)
      obtain ⟨children, hchildren, hfit, hrange⟩ := h.exists_children hp hattached hparent
      rw [hchildren] at hlisted
      obtain ⟨c, hc, rfl⟩ := List.mem_map.mp hlisted
      obtain ⟨hstart, -, hstop⟩ := hfit.inside _ (List.mem_map_of_mem hc)
      rw [hrange c hc node hnode, Range.containsRange, Bool.and_eq_true, decide_eq_true_eq,
        decide_eq_true_eq]
      exact ⟨hstart, hstop⟩
  · intro up parent before first second after left right hup hparent hlist hleft hright
    obtain ⟨children, hchildren, hfit, hrange⟩ := h.exists_children hp hup hparent
    rw [hchildren] at hlist
    obtain ⟨start, rest, rfl, rfl, hrest⟩ := List.map_eq_append_iff.mp hlist
    obtain ⟨c, later, rfl, rfl, hlater⟩ := List.map_eq_cons_iff.mp hrest
    obtain ⟨c', later, rfl, rfl, rfl⟩ := List.map_eq_cons_iff.mp hlater
    have hapart := hfit.apart
    rw [List.map_append, List.map_cons, List.map_cons, List.isChain_append_cons_cons] at hapart
    rw [hrange c (by simp) left hleft, hrange c' (by simp) right hright]
    exact hapart.2.1

theorem nests_of_parse (h : parse path text = .ok d) : d.Nests := by
  obtain ⟨p, m, hp, -, -, htree⟩ := exists_markup_of_parse h
  have hmem : p.tree ∈ m.trees .zero := by simp [htree]
  exact (nests_iff hp).mpr (Markup.nested_of_mem_trees m hmem)

theorem Nests.mapRange (h : d.Nests) (hp : d.arena.Carries p) (hordered : e.range.Ordered) :
    (p.mapRange e.mapRange).tree.Nested := by
  rw [hp.settled.tree_mapRange]
  exact ((nests_iff hp).mp h).map (Edit.mapCoord_mono hordered)

theorem Nests.applyEdit (h : d.Nests) (hp : d.arena.Carries p) (hordered : e.range.Ordered)
    (hedit : d.applyEdit e = .ok d') : d'.Nests := by
  rw [applyEdit_eq_ok hedit]
  exact (nests_iff (hp.applyEdit e)).mpr (h.mapRange hp hordered)

theorem Nests.freeDetached (h : d.Nests) (hp : d.arena.Carries p) : d.freeDetached.Nests :=
  (nests_iff hp.freeDetached).mpr ((nests_iff hp).mp h)

/-! ### Crowded nodes -/

/-- What stands before a node: the start of its parent, and the end of the child before it. -/
inductive Precedes (d : Document) (id : NodeId) : Position → Prop
  | parent {node parent : Node} {up : NodeId} : d.arena.get? id = some node →
    node.parent = some up → d.arena.get? up = some parent → Precedes d id parent.range.start
  | sibling {node parent left : Node} {up prev : NodeId} {before after : List NodeId} :
    d.arena.get? id = some node → node.parent = some up → d.arena.get? up = some parent →
    parent.children = before ++ prev :: id :: after → d.arena.get? prev = some left →
    Precedes d id left.range.stop

/-- The change exchanges a node that covers nothing, and what stands before the node is at the same
place. -/
def Crowds (d : Document) : Change → Prop
  | .replaceNode id text => ∃ node new place, d.arena.get? id = some node ∧
    (d.replaceNode id text).2 = .ok (.incremental new) ∧ node.range.isEmpty = true ∧
    d.Precedes id place ∧ place.coord = node.range.start.coord
  | _ => False

theorem Precedes.le_start (h : d.Precedes id place) (hnested : d.Nested) (hp : d.arena.Carries p)
    (hid : d.arena.isAttached id = true) (hnode : d.arena.get? id = some node) :
    place.coord ≤ node.range.start.coord := by
  cases h with
  | parent hnode' hup hparent =>
    obtain rfl := Option.some.inj (hnode.symm.trans hnode')
    have hinside := hnested.inside id node _ _ hid hnode hup hparent
    rw [Range.containsRange, Bool.and_eq_true, decide_eq_true_eq] at hinside
    exact hinside.1
  | sibling hnode' hup hparent hchildren hleft =>
    obtain rfl := Option.some.inj (hnode.symm.trans hnode')
    have hattached := hp.isAttached_iff.mpr
      (hp.holds.parent_mem (hp.mem_of_isAttached hid) hnode hup)
    exact hnested.apart _ _ _ _ _ _ _ _ hattached hparent hchildren hleft hnode

/-- In the moved tree, a node whose child is exchanged is the moved parent of that child. -/
theorem exists_parent_of_occurs {old : Planted} {i : NodeId} {kind : NodeKind} {range : Range}
    {before after : List Planted} (hp : d.arena.Carries p) (hnode : d.arena.get? old.id = some node)
    (hocc : (Planted.node i kind range (before ++ old :: after)).Occurs (p.mapRange e.mapRange)) :
    ∃ parent, node.parent = some i ∧ d.arena.get? i = some parent ∧
      range = e.mapRange parent.range ∧
      parent.children = before.map Planted.id ++ old.id :: after.map Planted.id ∧
      parent.children.Nodup ∧
      ∀ c ∈ before, ∃ left, d.arena.get? c.id = some left ∧ c.range = e.mapRange left.range := by
  have hnodup := hocc.nodup (hp.applyEdit e).nodup
  obtain ⟨parent', hholds⟩ := (hp.applyEdit e).holds.exists_holds_occurs hocc
  cases hholds with
  | node hget hchildren =>
    have hchild {c : Planted} (hc : c ∈ before ++ old :: after) : ∃ child,
        d.arena.get? c.id = some child ∧ child.parent = some i ∧
          c.range = e.mapRange child.range := by
      obtain ⟨below, hchild⟩ := (hchildren c hc).get?
      rw [Arena.get?_applyEdit] at hchild
      obtain ⟨child, hchild, heq⟩ := Option.map_eq_some_iff.mp hchild
      rw [Node.mk.injEq] at heq
      exact ⟨child, hchild, heq.2.2.2, heq.2.1.symm⟩
    rw [Arena.get?_applyEdit] at hget
    obtain ⟨parent, hparent, heq⟩ := Option.map_eq_some_iff.mp hget
    rw [Node.mk.injEq] at heq
    obtain ⟨-, hrange, hlist, -⟩ := heq
    obtain ⟨child, hold, hup, -⟩ := hchild (c := old) (by simp)
    obtain rfl := Option.some.inj (hold.symm.trans hnode)
    refine ⟨parent, hup, hparent, hrange.symm, by simpa using hlist, ?_, fun c hc => ?_⟩
    · rw [hlist]
      rw [Planted.ids_node, List.nodup_cons] at hnodup
      exact Arena.nodup_map_id hnodup.2
    · obtain ⟨left, hleft, -, hrange⟩ := hchild (c := c) (by simp [hc])
      exact ⟨left, hleft, hrange⟩

theorem Precedes.settled (h : d.Precedes id place) (hsits : d.Sits) : place.Settled := by
  cases h with
  | parent _ _ hparent => exact (hsits _ _ hparent).settled.1
  | sibling _ _ _ _ hleft => exact (hsits _ _ hleft).settled.2

section Exchanged

variable {t : Tree} {b : Arena} (hp : d.arena.Carries p) (hsits : d.Sits)
  (hid : d.arena.isAttached id = true) (hnode : d.arena.get? id = some node)
  (hup : node.parent = some up) (hread : Grammar.readFrom node.range.start.coord text = .ok [t])
  (hreplace : ((d.arena.applyEdit ⟨node.range, text⟩).addTree t).1.replaceChild? up id
    ((d.arena.applyEdit ⟨node.range, text⟩).addTree t).2 = some b)
  (hexchanged : d'.arena = b)

include hp hsits hid hnode hup hread hreplace hexchanged

/-- The exchange keeps the tree nested if the edit moves nothing that stands before the node behind
its start. -/
theorem Nests.exchanged (h : d.Nests)
    (hroom : ∀ place, d.Precedes id place →
      Edit.mapCoord ⟨node.range, text⟩ place.coord ≤ node.range.start.coord) : d'.Nests := by
  have hordered : node.range.Ordered := (hsits id node hnode).ordered
  obtain ⟨old, new, p', hocc, hold, -, hrange, -, htree, hp', hgraft, -⟩ :=
    hp.exists_exchanged ⟨node.range, text⟩ (hp.mem_of_isAttached hid) hnode hup hreplace
  have hspan : new.range.span = ⟨node.range.start.coord, Edit.newEnd ⟨node.range, text⟩⟩ := by
    rw [← Planted.span_tree, htree, Grammar.span_of_readFrom hread]
    rfl
  rw [← hexchanged] at hp'
  refine (nests_iff hp').mpr (hgraft.nested (h.mapRange hp hordered)
    (htree ▸ Grammar.nested_of_readFrom hread) ?_ fun i kind range before after hparent => ?_)
  · rw [hspan, Planted.range_mapRange, hrange, (hsits id node hnode).settled.span_mapRange]
    exact (Edit.mapCoord_stop (e := ⟨node.range, text⟩) hordered).symm
  · have hid : (old.mapRange (Edit.mapRange ⟨node.range, text⟩)).id = id := by
      rw [Planted.id_mapRange, hold]
    obtain ⟨parent, hup, hget, rfl, hchildren, -, hbefore⟩ :=
      exists_parent_of_occurs hp (hid ▸ hnode) hparent
    rw [hid] at hchildren
    rw [hspan]
    have hmoved {place : Position} (hplace : d.Precedes id place) :
        (Edit.mapPosition ⟨node.range, text⟩ place).coord ≤ node.range.start.coord := by
      rw [Edit.coord_mapPosition _ (hplace.settled hsits)]
      exact hroom place hplace
    refine ⟨hmoved (.parent hnode hup hget), fun c hc => ?_⟩
    obtain ⟨left, hleft, hrange⟩ := hbefore c (List.mem_of_getLast? hc)
    obtain ⟨init, rfl⟩ := List.getLast?_eq_some_iff.mp hc
    have hlist : parent.children = init.map Planted.id ++ c.id :: id :: after.map Planted.id := by
      rw [hchildren]
      simp
    rw [hrange]
    exact hmoved (.sibling hnode hup hget hlist hleft)

/-- Where ranges are nested after the exchange the edit has moved nothing that stood before the node
behind its start. -/
theorem Nested.le_start_of_exchanged (h : d'.Nested) (hplace : d.Precedes id place) :
    Edit.mapCoord ⟨node.range, text⟩ place.coord ≤ node.range.start.coord := by
  obtain ⟨old, new, p', hocc, hold, -, hrange, -, htree, hp', hgraft, -⟩ :=
    hp.exists_exchanged ⟨node.range, text⟩ (hp.mem_of_isAttached hid) hnode hup hreplace
  have hstart : new.range.start.coord = node.range.start.coord := by
    have hspan := Planted.span_tree new
    rw [htree, Grammar.span_of_readFrom hread] at hspan
    exact (congrArg Span.start hspan).symm
  have hid : (old.mapRange (Edit.mapRange ⟨node.range, text⟩)).id = id := by
    rw [Planted.id_mapRange, hold]
  rw [← hexchanged] at hp'
  obtain ⟨hroot, -⟩ | ⟨i, kind, range, before, after, hparent, hparent'⟩ := hgraft.exists_children
  · obtain ⟨children, hget⟩ := hp.holds.get?
    have htop := congrArg Planted.id hroot
    rw [hid, Planted.id_mapRange] at htop
    rw [htop] at hget
    obtain rfl := Option.some.inj (hnode.symm.trans hget)
    cases hup
  obtain ⟨parent, hup', hget, rfl, hchildren, hnodup, hbefore⟩ :=
    exists_parent_of_occurs hp (hid ▸ hnode) hparent
  obtain rfl := Option.some.inj (hup.symm.trans hup')
  rw [hid] at hchildren
  obtain ⟨top, hholds⟩ := hp'.holds.exists_holds_occurs hparent'
  have hattached : ∀ q ∈ (Planted.node up kind (Edit.mapRange ⟨node.range, text⟩ parent.range)
      (before ++ new :: after)).ids, d'.arena.isAttached q = true := fun q hq =>
    hp'.isAttached_iff.mpr (hparent'.ids_subset q hq)
  cases hholds with
  | node hget' hchildren' =>
    obtain ⟨below, hnew⟩ := (hchildren' new (by simp)).get?
    rw [← Edit.coord_mapPosition _ (hplace.settled hsits), ← hstart]
    cases hplace with
    | parent hnode' hup' hparent =>
      obtain rfl := Option.some.inj (hnode.symm.trans hnode')
      obtain rfl := Option.some.inj (hup.symm.trans hup')
      obtain rfl := Option.some.inj (hget.symm.trans hparent)
      have hinside := h.inside new.id _ up _
        (hattached _ (by simp [new.id_mem_ids])) hnew rfl hget'
      rw [Range.containsRange, Bool.and_eq_true, decide_eq_true_eq] at hinside
      exact hinside.1
    | @sibling _ _ left _ prev init rest hnode' hup' hparent hlist hleft =>
      obtain rfl := Option.some.inj (hnode.symm.trans hnode')
      obtain rfl := Option.some.inj (hup.symm.trans hup')
      obtain rfl := Option.some.inj (hget.symm.trans hparent)
      have hsplit : before.map Planted.id = init ++ [prev] := by
        rw [hchildren] at hnodup hlist
        have hlist : before.map Planted.id ++ id :: after.map Planted.id =
            (init ++ [prev]) ++ id :: rest := by simpa using hlist
        obtain ⟨hnot, -⟩ := List.nodup_cons.mp (List.nodup_middle.mp hnodup)
        rw [List.mem_append, not_or] at hnot
        exact ((List.append_cons_inj_of_notMem hnot.1 hnot.2).mp hlist).1
      obtain ⟨start, last, rfl, -, hlast⟩ := List.map_eq_append_iff.mp hsplit
      obtain ⟨c, rfl, rfl⟩ := List.map_eq_singleton_iff.mp hlast
      obtain ⟨left', hleft', hrange⟩ := hbefore c (by simp)
      obtain rfl := Option.some.inj (hleft.symm.trans hleft')
      obtain ⟨below', hc⟩ := (hchildren' c (by simp)).get?
      have hapart := h.apart up _ (start.map Planted.id) c.id new.id (after.map Planted.id) _ _
        (hattached _ (by simp)) hget' (by simp) hc hnew
      rwa [hrange] at hapart

end Exchanged

theorem text_ne_nil_of_readFrom {origin : Coord} {t : Tree}
    (hread : Grammar.readFrom origin text = .ok [t]) : text ≠ [] := by
  obtain ⟨y, hy, htokens, -⟩ := Grammar.exists_item_of_readFrom hread
  exact hy.text_ne_nil htokens

/-- A replacement that crowds no node keeps the tree nested, however it ends. -/
theorem Nests.replaceNode (h : d.Nests) (hp : d.arena.Carries p) (hsits : d.Sits)
    (hroom : ¬ d.Crowds (.replaceNode id text)) : (d.replaceNode id text).1.Nests := by
  rcases hreplaced : d.replaceNode id text with ⟨d', outcome⟩
  cases replaces_of_replaceNode hreplaced with
  | unreadRoot | unknown | outside => exact h
  | readRoot _ hfresh | reread _ _ _ _ hfresh => exact nests_of_parse hfresh
  | @exchanged node newcomer up edited t b _ hid hnode hup hedited _ hread _ _ hreplace =>
    rw [applyEdit_eq_ok hedited] at hreplace
    refine Nests.exchanged hp hsits hid hnode hup hread hreplace rfl h fun place hplace => ?_
    have hle := hplace.le_start (h.nested hp) hp hid hnode
    rw [Edit.mapCoord_le_start_iff (e := ⟨node.range, text⟩) (hsits id node hnode).ordered
      (text_ne_nil_of_readFrom hread) hle]
    rintro ⟨hempty, hsame⟩
    exact hroom ⟨node, _, place, hnode, congrArg Prod.snd hreplaced, beq_iff_eq.mpr hempty, hplace,
      hsame⟩
  | @unread node edited _ _ _ hnode hedited =>
    have hmoved := h.applyEdit hp (hsits id node hnode).ordered hedited
    have hcarries := carries_applyEdit hp hedited
    exact (nests_iff (carries_addFragment hcarries _ _)).mpr ((nests_iff hcarries).mp hmoved)

/-- Where a node is crowded, the end of the child before it is moved behind its start, or the start of
its parent is. -/
theorem not_nested_of_crowds {change : Change} (hp : d.arena.Carries p) (hsits : d.Sits)
    (h : d.Crowds change) : ¬ (d.perform change).Nested := by
  cases change with
  | replaceNode id text =>
    obtain ⟨node, new, place, hnode, houtcome, hempty, hplace, hsame⟩ := h
    show ¬ (d.replaceNode id text).1.Nested
    rcases hreplaced : d.replaceNode id text with ⟨d', outcome⟩
    rw [hreplaced] at houtcome
    cases replaces_of_replaceNode hreplaced with
    | @exchanged node' newcomer up edited t b _ hid hnode' hup hedited _ hread _ _ hreplace =>
      obtain rfl := Option.some.inj (hnode.symm.trans hnode')
      rw [applyEdit_eq_ok hedited] at hreplace
      intro hnested
      have hle := Nested.le_start_of_exchanged hp hsits hid hnode hup hread hreplace rfl hnested
        hplace
      rw [Edit.mapCoord_le_start_iff (e := ⟨node.range, text⟩) (hsits id node hnode).ordered
        (text_ne_nil_of_readFrom hread) (hsame ▸ Coord.le_refl _)] at hle
      exact hle ⟨beq_iff_eq.mp hempty, hsame⟩
    | _ => cases houtcome
  | _ => exact h.elim

theorem Nests.perform {change : Change} (h : d.Nests) (hp : d.arena.Carries p) (hsits : d.Sits)
    (hordered : change.Ordered) (hroom : ¬ d.Crowds change) : (d.perform change).Nests := by
  refine perform_of h nests_of_parse (fun heq hedit => ?_) (fun heq => ?_) (h.freeDetached hp)
  · subst heq
    exact h.applyEdit hp hordered hedit
  · subst heq
    exact h.replaceNode hp hsits hroom

/-- Along changes that crowd no node the tree stays nested. -/
theorem Made.nests (h : d.Made fun d change => change.Ordered ∧ ¬ d.Crowds change) : d.Nests := by
  induction h with
  | parse hparse => exact nests_of_parse hparse
  | perform hd hallowed ih =>
    obtain ⟨p, hp⟩ := hd.reachable.exists_carries
    exact ih.perform hp (hd.sits fun _ _ hallowed => hallowed.1) hallowed.1 hallowed.2

/-- Ranges are nested in every document that changes lead to which crowd no node, and one more change
leaves them nested exactly if it crowds no node.  As long as coordinates fit, this is so on words. -/
theorem Made.nested_and_perform_iff
    (h : d.Made fun d change => change.Ordered ∧ ¬ d.Crowds change) :
    d.Nested ∧
      (∀ change : Change, change.Ordered → ((d.perform change).Nested ↔ ¬ d.Crowds change)) ∧
      (d.Fits → ∀ change : Change, change.Ordered → change.Fits d →
        d.perform? change = some (d.perform change)) := by
  obtain ⟨p, hp⟩ := h.reachable.exists_carries
  have hsits := h.sits fun _ _ hallowed => hallowed.1
  refine ⟨h.nests.nested hp, fun change hordered => ⟨fun hnested hcrowds => ?_, fun hroom => ?_⟩,
    fun hfits change hordered hchange => hfits.perform?_eq hsits hordered hchange⟩
  · exact not_nested_of_crowds hp hsits hcrowds hnested
  · obtain ⟨p', hp'⟩ := (h.reachable.perform change).exists_carries
    exact (h.nests.perform hp hsits hordered hroom).nested hp'

/-- A group between two letters. -/
def betweenLetters : Document where
  path := ⟨"a.tex"⟩
  text := ['a', ' ', '{', 'b', '}', ' ', 'c']
  arena := .ofForest ⟨0, 7⟩
    [.leaf (.text "a") ⟨0, 0⟩ ⟨0, 1⟩, .leaf (.whitespace 0) ⟨0, 1⟩ ⟨0, 2⟩,
      .node .group ⟨⟨0, 2⟩, ⟨0, 5⟩⟩ [.leaf (.text "b") ⟨0, 3⟩ ⟨0, 4⟩],
      .leaf (.whitespace 0) ⟨0, 5⟩ ⟨0, 6⟩, .leaf (.text "c") ⟨0, 6⟩ ⟨0, 7⟩]

/-- The source of the group is deleted. -/
def deletion : Change := .applyEdit ⟨⟨.ofCoord ⟨0, 2⟩, .ofCoord ⟨0, 5⟩⟩, []⟩

theorem ordered_deletion : deletion.Ordered := by
  show Range.Ordered _
  decide

/-- The group is in the tree but covers nothing. -/
def collapsedGroup : Document :=
  betweenLetters.perform deletion

theorem made_collapsedGroup {allowed : Document → Change → Prop}
    (h : allowed betweenLetters deletion) : collapsedGroup.Made allowed := by
  have hparse : parse betweenLetters.path betweenLetters.text = .ok betweenLetters := by rfl
  exact (Made.parse hparse).perform h

theorem nested_and_perform_iff_letter : collapsedGroup.text = ['a', ' ', ' ', 'c'] ∧
    collapsedGroup.Nested ∧ (collapsedGroup.perform (.replaceNode ⟨1⟩ ['y'])).Nested ∧
    (collapsedGroup.perform (.replaceNode ⟨1⟩ ['y'])).text = ['y', ' ', ' ', 'c'] := by
  obtain ⟨hnested, hperform, -⟩ :=
    Made.nested_and_perform_iff (made_collapsedGroup ⟨ordered_deletion, not_false⟩)
  have hroom : ¬ collapsedGroup.Crowds (.replaceNode ⟨1⟩ ['y']) := by
    rintro ⟨node, new, place, hnode, -, hempty, -⟩
    have hcovers : (collapsedGroup.arena.get? ⟨1⟩).map (·.range.isEmpty) = some false := by
      decide +kernel
    rw [hnode, Option.map_some, hempty] at hcovers
    cases hcovers
  exact ⟨by decide +kernel, hnested, (hperform (.replaceNode ⟨1⟩ ['y']) trivial).mpr hroom,
    by decide +kernel⟩

/-- A new group for the one that covers nothing pushes the end of the white space before it behind its
own start. -/
theorem not_nested_collapsedGroup :
    (collapsedGroup.perform (.replaceNode ⟨4⟩ ['{', 'x', '}'])).Made
        (fun _ change => change.Ordered) ∧
      ¬ (collapsedGroup.perform (.replaceNode ⟨4⟩ ['{', 'x', '}'])).Nested := by
  refine ⟨(made_collapsedGroup ordered_deletion).perform trivial, fun hnested => ?_⟩
  generalize hcrowded : collapsedGroup.perform (.replaceNode ⟨4⟩ ['{', 'x', '}']) = d at hnested
  have hattached : d.arena.isAttached ⟨0⟩ = true := by
    rw [← hcrowded]
    decide +kernel
  have hroot : (d.arena.get? ⟨0⟩).map Node.children = some [⟨1⟩, ⟨2⟩, ⟨8⟩, ⟨5⟩, ⟨6⟩] := by
    rw [← hcrowded]
    decide +kernel
  have hblank : (d.arena.get? ⟨2⟩).map (·.range.stop.coord) = some ⟨0, 5⟩ := by
    rw [← hcrowded]
    decide +kernel
  have hgroup : (d.arena.get? ⟨8⟩).map (·.range.start.coord) = some ⟨0, 2⟩ := by
    rw [← hcrowded]
    decide +kernel
  obtain ⟨root, hroot, hchildren⟩ := Option.map_eq_some_iff.mp hroot
  obtain ⟨blank, hblank, hstop⟩ := Option.map_eq_some_iff.mp hblank
  obtain ⟨group, hgroup, hstart⟩ := Option.map_eq_some_iff.mp hgroup
  have hapart : blank.range.stop.coord ≤ group.range.start.coord :=
    hnested.apart ⟨0⟩ root [⟨1⟩] ⟨2⟩ ⟨8⟩ [⟨5⟩, ⟨6⟩] blank group hattached hroot hchildren hblank hgroup
  rw [hstop, hstart] at hapart
  exact absurd hapart (by decide)

end Document

end TexAnchor
