import Mathlib.Data.List.Nodup
import TexAnchor.Proofs.EditMapping
import TexAnchor.Proofs.Relocation
import TexAnchor.Document.Basic

/-! # Trees in an arena

A `Planted` tree says which nodes of an arena make up a tree: it has the identities of the nodes and
their ranges.  `Arena.Holds` is the representation of a planted tree by an arena, and depends on the
nodes of the tree alone (`Arena.Holds.congr`).

New nodes are planted into slots that were empty (`Arena.Grows`), so growing leaves whatever the
arena held before as it was.  `Arena.Sound` is what keeps the empty slots apart from the nodes. -/

namespace TexAnchor

open Text (Coord)

/-- A tree with the identities and the ranges of its nodes. -/
inductive Planted
  | node (id : NodeId) (kind : NodeKind) (range : Range) (children : List Planted)
deriving Inhabited

namespace Planted

/-- The identity of the top node. -/
def id : Planted → NodeId
  | node id _ _ _ => id

/-- What the top node is. -/
def kind : Planted → NodeKind
  | node _ kind _ _ => kind

/-- Where the top node is. -/
def range : Planted → Range
  | node _ _ range _ => range

mutual

/-- The identities of the nodes, parents before children. -/
def ids : Planted → List NodeId
  | node id _ _ children => id :: idsOf children

/-- The identities of the nodes of some trees in order. -/
def idsOf : List Planted → List NodeId
  | [] => []
  | p :: ps => p.ids ++ idsOf ps

end

mutual

/-- The tree at the effective coordinates of its nodes. -/
def tree : Planted → Tree
  | node _ kind range children => .node kind ⟨range.start.coord, range.stop.coord⟩ (forest children)

/-- Some trees at the effective coordinates of their nodes. -/
def forest : List Planted → List Tree
  | [] => []
  | p :: ps => p.tree :: forest ps

end

mutual

/-- The tree with another range for each node. -/
def mapRange (f : Range → Range) : Planted → Planted
  | node id kind range children => node id kind (f range) (mapRanges f children)

/-- Some trees with another range for each node. -/
def mapRanges (f : Range → Range) : List Planted → List Planted
  | [] => []
  | p :: ps => p.mapRange f :: mapRanges f ps

end

/-- All ends of ranges are settled. -/
inductive Settled : Planted → Prop
  | node {id : NodeId} {kind : NodeKind} {range : Range} {children : List Planted} :
    range.start.Settled → range.stop.Settled → (∀ c ∈ children, Settled c) →
    Settled (node id kind range children)

/-- The tree `q` stands somewhere in another tree. -/
inductive Occurs (q : Planted) : Planted → Prop
  | top : Occurs q q
  | deeper {p : Planted} {id : NodeId} {kind : NodeKind} {range : Range} {children : List Planted} :
    p ∈ children → Occurs q p → Occurs q (node id kind range children)

@[simp] theorem id_node (id : NodeId) (kind : NodeKind) (range : Range) (children : List Planted) :
    (node id kind range children).id = id := rfl

theorem idsOf_eq (ps : List Planted) : idsOf ps = ps.flatMap ids := by
  induction ps with
  | nil => rfl
  | cons p ps ih => rw [idsOf, ih, List.flatMap_cons]

@[simp] theorem ids_node (id : NodeId) (kind : NodeKind) (range : Range) (children : List Planted) :
    (node id kind range children).ids = id :: children.flatMap ids := by
  rw [ids, idsOf_eq]

theorem forest_eq (ps : List Planted) : forest ps = ps.map tree := by
  induction ps with
  | nil => rfl
  | cons p ps ih => rw [forest, ih, List.map_cons]

@[simp] theorem tree_node (id : NodeId) (kind : NodeKind) (range : Range) (children : List Planted) :
    (node id kind range children).tree =
      .node kind ⟨range.start.coord, range.stop.coord⟩ (children.map tree) := by
  rw [tree, forest_eq]

theorem kind_tree (p : Planted) : p.tree.kind = p.kind := by
  cases p
  rw [tree_node]
  rfl

theorem mapRanges_eq (f : Range → Range) (ps : List Planted) :
    mapRanges f ps = ps.map (mapRange f) := by
  induction ps with
  | nil => rfl
  | cons p ps ih => rw [mapRanges, ih, List.map_cons]

@[simp] theorem mapRange_node (f : Range → Range) (id : NodeId) (kind : NodeKind) (range : Range)
    (children : List Planted) :
    (node id kind range children).mapRange f = node id kind (f range) (children.map (mapRange f)) := by
  rw [mapRange, mapRanges_eq]

theorem id_mem_ids (p : Planted) : p.id ∈ p.ids := by
  obtain ⟨id, kind, range, children⟩ := p
  simp

end Planted

namespace Arena

/-! ### What an arena holds -/

/-- The arena has the nodes of the tree, the top one below `parent`. -/
inductive Holds (a : Arena) : Option NodeId → Planted → Prop
  | node {parent : Option NodeId} {id : NodeId} {kind : NodeKind} {range : Range}
    {children : List Planted} :
    a.get? id = some ⟨kind, range, children.map Planted.id, parent⟩ →
    (∀ c ∈ children, Holds a (some id) c) → Holds a parent (.node id kind range children)

/-- Empty slots are listed once each, and nothing lives in them; parents are live. -/
structure Sound (a : Arena) : Prop where
  nodup : a.free.Nodup
  empty : ∀ id ∈ a.free, id.index < a.slots.size ∧ a.get? id = none
  parent_live : ∀ id node, a.get? id = some node → ∀ parent, node.parent = some parent →
    (a.get? parent).isSome = true

section Holds

variable {a b : Arena} {parent : Option NodeId} {p : Planted}

theorem Holds.get? (h : a.Holds parent p) :
    ∃ children, a.get? p.id = some ⟨p.kind, p.range, children, parent⟩ := by
  cases h with
  | node hget => exact ⟨_, hget⟩

theorem Holds.congr (h : a.Holds parent p) (hsame : ∀ id ∈ p.ids, b.get? id = a.get? id) :
    b.Holds parent p := by
  induction h with
  | @node parent id kind range children hget hchildren ih =>
    refine .node ?_ fun c hc => ih c hc fun id' hid' => hsame id' ?_
    · rw [hsame id (by simp), hget]
    · rw [Planted.ids_node]
      exact List.mem_cons_of_mem _ (List.mem_flatMap.mpr ⟨c, hc, hid'⟩)

theorem Holds.isSome (h : a.Holds parent p) {id : NodeId} (hid : id ∈ p.ids) :
    (a.get? id).isSome = true := by
  induction h with
  | @node parent id' kind range children hget hchildren ih =>
    rw [Planted.ids_node, List.mem_cons] at hid
    rcases hid with rfl | hid
    · simp [hget]
    · obtain ⟨c, hc, hid⟩ := List.mem_flatMap.mp hid
      exact ih c hc hid

/-- A tree somewhere in a tree that is held is held, below a node outside of it. -/
theorem Holds.occurs {q : Planted} (h : a.Holds parent p) (hnodup : p.ids.Nodup) (hq : q.Occurs p) :
    q = p ∨ ∃ up ∈ p.ids, up ∉ q.ids ∧ a.Holds (some up) q := by
  induction hq generalizing parent with
  | top => exact .inl rfl
  | @deeper p id kind range children hp _ ih =>
    cases h with
    | node hget hchildren =>
      refine .inr ?_
      rw [Planted.ids_node, List.nodup_cons] at hnodup
      obtain ⟨hid, hnodup⟩ := hnodup
      rcases ih (hchildren p hp) ((List.nodup_flatMap.mp hnodup).1 p hp) with rfl | ⟨up, hup, hnot, hq⟩
      · exact ⟨id, by simp, fun hmem => hid (List.mem_flatMap.mpr ⟨q, hp, hmem⟩), hchildren q hp⟩
      · refine ⟨up, ?_, hnot, hq⟩
        rw [Planted.ids_node]
        exact List.mem_cons_of_mem _ (List.mem_flatMap.mpr ⟨p, hp, hup⟩)

theorem Holds.exists_holds_occurs {q : Planted} (h : a.Holds parent p) (hq : q.Occurs p) :
    ∃ parent, a.Holds parent q := by
  induction hq generalizing parent with
  | top => exact ⟨parent, h⟩
  | deeper hp _ ih =>
    cases h with
    | node _ hchildren => exact ih (hchildren _ hp)

end Holds

/-! ### Single changes -/

section Changes

variable (a : Arena)

theorem get?_update (id : NodeId) (change : Node → Node) (other : NodeId) :
    (a.update id change).get? other = if other = id then (a.get? id).map change else a.get? other := by
  obtain ⟨i⟩ := id
  obtain ⟨j⟩ := other
  simp only [get?, update, Array.getElem?_modify, NodeId.mk.injEq]
  by_cases h : i = j
  · subst h
    cases a.slots[i]? with
    | none => simp
    | some slot => cases slot <;> simp
  · simp [h, Ne.symm h]

theorem isSome_update (id : NodeId) (change : Node → Node) (other : NodeId) :
    ((a.update id change).get? other).isSome = (a.get? other).isSome := by
  rw [get?_update]
  split
  · next h => simp [h]
  · rfl

theorem get?_adopt (up : NodeId) (ids : List NodeId) (id : NodeId) :
    (a.adopt up ids).get? id =
      if id ∈ ids then (a.get? id).map fun node => { node with parent := some up }
      else a.get? id := by
  induction ids generalizing a with
  | nil => simp [adopt]
  | cons first ids ih =>
    rw [adopt, List.foldl_cons]
    apply (ih _).trans
    rw [get?_update]
    by_cases hfirst : id = first
    · subst hfirst
      cases a.get? id <;> simp
    · simp [hfirst]

theorem size_update (id : NodeId) (change : Node → Node) :
    (a.update id change).slots.size = a.slots.size := by
  simp [update]

theorem size_adopt (up : NodeId) (ids : List NodeId) : (a.adopt up ids).slots.size = a.slots.size := by
  induction ids generalizing a with
  | nil => rfl
  | cons id ids ih => exact (ih _).trans (size_update a id _)

theorem free_adopt (up : NodeId) (ids : List NodeId) : (a.adopt up ids).free = a.free := by
  induction ids generalizing a with
  | nil => rfl
  | cons id ids ih => exact ih _

variable {a}

/-- A node goes into a slot that was empty, and the other slots stay as they were. -/
theorem place_spec (ha : a.Sound) (node : Node) :
    a.get? (a.place node).2 = none ∧
      (∀ id, (a.place node).1.get? id = if id = (a.place node).2 then some node else a.get? id) ∧
      (a.place node).1.free.Nodup ∧
      ∀ id ∈ (a.place node).1.free, id.index < (a.place node).1.slots.size ∧
        (a.place node).1.get? id = none := by
  obtain ⟨slots, free⟩ := a
  cases free with
  | nil =>
    refine ⟨by simp [place, get?], fun id => ?_, by simp [place], by simp [place]⟩
    obtain ⟨i⟩ := id
    simp only [place, get?, Array.getElem?_push, NodeId.mk.injEq]
    split <;> rfl
  | cons first free =>
    obtain ⟨hnodup, hempty, -⟩ := ha
    obtain ⟨hbound, hnone⟩ := hempty first (by simp)
    have hget : ∀ id, (place ⟨slots, first :: free⟩ node).1.get? id =
        if id = first then some node else get? ⟨slots, first :: free⟩ id := by
      intro id
      obtain ⟨i⟩ := id
      obtain ⟨j⟩ := first
      simp only [place, get?, Array.getElem?_setIfInBounds, NodeId.mk.injEq] at hbound ⊢
      by_cases h : j = i
      · simp [h, h ▸ hbound]
      · simp [h, Ne.symm h]
    obtain ⟨hfirst, hfree⟩ := List.nodup_cons.mp hnodup
    refine ⟨hnone, hget, hfree, fun id hid => ?_⟩
    obtain ⟨hid', hnone'⟩ := hempty id (List.mem_cons_of_mem _ hid)
    refine ⟨by simpa [place] using hid', ?_⟩
    rw [hget, if_neg (by rintro rfl; exact hfirst hid)]
    exact hnone'

end Changes

/-! ### Planting new trees -/

/-- The arena `b` has the new trees `ps` besides what `a` had. -/
structure Grows (a b : Arena) (ps : List Planted) : Prop where
  sound : b.Sound
  fresh : ∀ id ∈ ps.flatMap Planted.ids, a.get? id = none
  nodup : (ps.flatMap Planted.ids).Nodup
  holds : ∀ p ∈ ps, b.Holds none p
  frame : ∀ id, id ∉ ps.flatMap Planted.ids → b.get? id = a.get? id

section Growing

variable {a b c : Arena} {ps qs : List Planted}

theorem Grows.refl (ha : a.Sound) : Grows a a [] := by
  refine ⟨ha, ?_, ?_, ?_, ?_⟩ <;> simp

theorem Grows.isSome (h : Grows a b ps) {id : NodeId} (hid : id ∈ ps.flatMap Planted.ids) :
    (b.get? id).isSome = true := by
  obtain ⟨p, hp, hid⟩ := List.mem_flatMap.mp hid
  exact (h.holds p hp).isSome hid

theorem Grows.not_mem (h : Grows a b ps) {id : NodeId} (hid : (a.get? id).isSome = true) :
    id ∉ ps.flatMap Planted.ids := by
  intro hmem
  rw [h.fresh id hmem] at hid
  cases hid

theorem Grows.append (h : Grows a b ps) (h' : Grows b c qs) : Grows a c (ps ++ qs) := by
  refine ⟨h'.sound, ?_, ?_, ?_, ?_⟩
  · intro id hid
    rw [List.flatMap_append, List.mem_append] at hid
    rcases hid with hid | hid
    · exact h.fresh id hid
    · have hnone := h'.fresh id hid
      rw [← h.frame id fun hmem => by
        have := h.isSome hmem
        rw [hnone] at this
        cases this]
      exact hnone
  · rw [List.flatMap_append, List.nodup_append]
    refine ⟨h.nodup, h'.nodup, fun id hid id' hid' heq => ?_⟩
    subst heq
    exact h'.not_mem (h.isSome hid) hid'
  · intro p hp
    rcases List.mem_append.mp hp with hp | hp
    · refine (h.holds p hp).congr fun id hid => h'.frame id ?_
      exact h'.not_mem ((h.holds p hp).isSome hid)
    · exact h'.holds p hp
  · intro id hid
    rw [List.flatMap_append, List.mem_append, not_or] at hid
    rw [h'.frame id hid.2, h.frame id hid.1]

theorem Holds.reparent {parent up : Option NodeId} {p : Planted} (h : a.Holds parent p)
    (hnodup : p.ids.Nodup)
    (htop : b.get? p.id = (a.get? p.id).map fun node => { node with parent := up })
    (hsame : ∀ id ∈ p.ids, id ≠ p.id → b.get? id = a.get? id) : b.Holds up p := by
  cases h with
  | @node _ id kind range children hget hchildren =>
    rw [Planted.ids_node, List.nodup_cons] at hnodup
    refine .node (by rw [Planted.id_node] at htop; rw [htop, hget]; rfl) fun c hc => ?_
    refine (hchildren c hc).congr fun id' hid' => hsame id' ?_ ?_
    · rw [Planted.ids_node]
      exact List.mem_cons_of_mem _ (List.mem_flatMap.mpr ⟨c, hc, hid'⟩)
    · rintro rfl
      exact hnodup.1 (List.mem_flatMap.mpr ⟨c, hc, hid'⟩)

theorem nodup_ids_of_mem (hnodup : (ps.flatMap Planted.ids).Nodup) {p : Planted} (hp : p ∈ ps) :
    p.ids.Nodup :=
  (List.nodup_flatMap.mp hnodup).1 p hp

theorem eq_of_mem_ids (hnodup : (ps.flatMap Planted.ids).Nodup) {p q : Planted} (hp : p ∈ ps)
    (hq : q ∈ ps) {id : NodeId} (hidp : id ∈ p.ids) (hidq : id ∈ q.ids) : p = q := by
  obtain ⟨-, hpairwise⟩ := List.nodup_flatMap.mp hnodup
  have : Std.Symm (Function.onFun List.Disjoint Planted.ids) := ⟨fun _ _ h _ h₁ h₂ => h h₂ h₁⟩
  by_contra hne
  exact hpairwise.forall hp hq hne hidp hidq

theorem map_id_subset (ps : List Planted) : ps.map Planted.id ⊆ ps.flatMap Planted.ids := by
  intro i hi
  obtain ⟨p, hp, rfl⟩ := List.mem_map.mp hi
  exact List.mem_flatMap.mpr ⟨p, hp, p.id_mem_ids⟩

theorem nodup_map_id (hnodup : (ps.flatMap Planted.ids).Nodup) : (ps.map Planted.id).Nodup := by
  refine List.pairwise_map.mpr ((List.nodup_flatMap.mp hnodup).2.imp fun {p q} hdisjoint heq => ?_)
  exact hdisjoint p.id_mem_ids (heq ▸ q.id_mem_ids)

theorem not_mem_map_id (hnodup : (ps.flatMap Planted.ids).Nodup) {q : Planted} (hq : q ∈ ps)
    {i : NodeId} (hi : i ∈ q.ids) (hne : i ≠ q.id) : i ∉ ps.map Planted.id := by
  intro htop
  obtain ⟨q', hq', rfl⟩ := List.mem_map.mp htop
  obtain rfl := eq_of_mem_ids hnodup hq hq' hi q'.id_mem_ids
  exact hne rfl

theorem Grows.alloc (h : Grows a b ps) (kind : NodeKind) (range : Range) :
    Grows a (b.alloc kind range (ps.map Planted.id)).1
      [.node (b.alloc kind range (ps.map Planted.id)).2 kind range ps] := by
  obtain ⟨hnone, hget, hnodup, hempty⟩ :=
    place_spec h.sound ⟨kind, range, ps.map Planted.id, none⟩
  simp only [Arena.alloc]
  generalize hplaced : b.place ⟨kind, range, ps.map Planted.id, none⟩ = placed at *
  obtain ⟨placed, id⟩ := placed
  simp only at *
  have hid : id ∉ ps.flatMap Planted.ids := by
    intro hmem
    have := h.isSome hmem
    rw [hnone] at this
    cases this
  have hidtop : id ∉ ps.map Planted.id := fun hmem => hid (map_id_subset ps hmem)
  have hgrown : ∀ i, (placed.adopt id (ps.map Planted.id)).get? i =
      if i ∈ ps.map Planted.id then (b.get? i).map fun node => { node with parent := some id }
      else if i = id then some ⟨kind, range, ps.map Planted.id, none⟩ else b.get? i := by
    intro i
    rw [get?_adopt, hget]
    split
    · next hmem => rw [if_neg (by rintro rfl; exact hidtop hmem)]
    · rfl
  have hlive : ∀ i, (b.get? i).isSome = true →
      ((placed.adopt id (ps.map Planted.id)).get? i).isSome = true := by
    intro i hi
    rw [hgrown]
    split
    · simpa using hi
    · split <;> simp [hi]
  refine ⟨⟨?_, ?_, ?_⟩, ?_, ?_, ?_, ?_⟩
  · rw [free_adopt]
    exact hnodup
  · intro i hi
    rw [free_adopt] at hi
    obtain ⟨hbound, hnone'⟩ := hempty i hi
    refine ⟨by rwa [size_adopt], ?_⟩
    rw [get?_adopt, hnone']
    simp
  · intro i node hnode up hup
    rw [hgrown] at hnode
    split at hnode
    · obtain ⟨old, -, rfl⟩ := Option.map_eq_some_iff.mp hnode
      obtain rfl : id = up := Option.some.inj hup
      rw [hgrown, if_neg hidtop]
      simp
    · split at hnode
      · cases Option.some.inj hnode
        cases hup
      · exact hlive up (h.sound.parent_live i node hnode up hup)
  · intro i hi
    simp only [List.flatMap_cons, List.flatMap_nil, List.append_nil, Planted.ids_node,
      List.mem_cons] at hi
    rcases hi with rfl | hi
    · rw [← h.frame i hid, hnone]
    · exact h.fresh i hi
  · simpa using ⟨by simpa using hid, h.nodup⟩
  · intro p hp
    obtain rfl := List.mem_singleton.mp hp
    refine .node (by rw [hgrown, if_neg hidtop, if_pos rfl]) fun c hc => ?_
    refine (h.holds c hc).reparent (nodup_ids_of_mem h.nodup hc) ?_ fun i hi hne => ?_
    · rw [hgrown, if_pos (List.mem_map_of_mem hc)]
    · rw [hgrown, if_neg (not_mem_map_id h.nodup hc hi hne), if_neg]
      rintro rfl
      exact hid (List.mem_flatMap.mpr ⟨c, hc, hi⟩)
  · intro i hi
    simp only [List.flatMap_cons, List.flatMap_nil, List.append_nil, Planted.ids_node,
      List.mem_cons, not_or] at hi
    have hnot : i ∉ ps.map Planted.id := fun hmem => hi.2 (map_id_subset ps hmem)
    rw [hgrown, if_neg hnot, if_neg hi.1, h.frame i hi.2]

theorem settled_rangeOf (span : Span) :
    (rangeOf span).start.Settled ∧ (rangeOf span).stop.Settled :=
  ⟨Position.settled_ofCoord _, Position.settled_ofCoord _⟩

mutual

/-- A tree is planted as it was read. -/
theorem addTree_spec : (t : Tree) → ∀ {a : Arena}, a.Sound →
    ∃ p, (a.addTree t).2 = p.id ∧ Grows a (a.addTree t).1 [p] ∧ p.tree = t ∧ p.Settled
  | .node kind span children, a, ha => by
    obtain ⟨ps, hids, hgrows, htrees, hsettled⟩ := addForest_spec children ha
    refine ⟨.node (a.addTree (.node kind span children)).2 kind (rangeOf span) ps, rfl, ?_, ?_,
      .node (settled_rangeOf span).1 (settled_rangeOf span).2 hsettled⟩
    · have := hgrows.alloc kind (rangeOf span)
      simpa only [addTree, hids] using this
    · simp [rangeOf, htrees]

theorem addForest_spec : (forest : List Tree) → ∀ {a : Arena}, a.Sound →
    ∃ ps, (a.addForest forest).2 = ps.map Planted.id ∧ Grows a (a.addForest forest).1 ps ∧
      ps.map Planted.tree = forest ∧ ∀ p ∈ ps, p.Settled
  | [], a, ha => ⟨[], rfl, Grows.refl ha, rfl, by simp⟩
  | t :: forest, a, ha => by
    obtain ⟨p, hid, hgrows, htree, hsettled⟩ := addTree_spec t ha
    obtain ⟨ps, hids, hgrows', htrees, hsettled'⟩ := addForest_spec forest hgrows.sound
    refine ⟨p :: ps, ?_, ?_, by simp [htree, htrees], ?_⟩
    · simp [addForest, hid, hids]
    · exact hgrows.append hgrows'
    · intro q hq
      rcases List.mem_cons.mp hq with rfl | hq
      exacts [hsettled, hsettled' q hq]

end

theorem kind_of_addTree {t : Tree} (ha : a.Sound) {node : Node}
    (hnode : (a.addTree t).1.get? (a.addTree t).2 = some node) : node.kind = t.kind := by
  obtain ⟨p, hid, hgrows, rfl, -⟩ := addTree_spec t ha
  obtain ⟨children, hget⟩ := (hgrows.holds p (by simp)).get?
  rw [hid, hget] at hnode
  obtain rfl := Option.some.inj hnode
  obtain ⟨id, kind, range, children⟩ := p
  rw [Planted.tree_node]
  rfl

end Growing

end Arena

end TexAnchor
