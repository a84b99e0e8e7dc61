import Mathlib.Data.List.Perm.Subperm
import TexAnchor.Proofs.Planting

/-! # The tree of an arena

`Arena.Carries a p` is the invariant of arenas: the planted tree `p` hangs below the root, and
nothing else hangs below its nodes.  Everything that a document does to its arena preserves it:
making the arena (`carries_ofForest`), edits (`Carries.applyEdit`), new nodes (`Carries.grow`), the
exchange of a node (`Carries.replaceChild?`) and the freeing of detached nodes
(`Carries.freeDetached`).

The tree is seen through what the arena can be asked: the nodes below the root are those of `p`
(`Carries.descendants_root`), and so are the attached ones (`Carries.mem_of_isAttached`). -/

namespace TexAnchor

open Text (Coord)

namespace Planted

theorem ids_mapRange (f : Range → Range) (p : Planted) : (p.mapRange f).ids = p.ids := by
  match p with
  | .node id kind range children =>
    have hchildren : ∀ c ∈ children, (c.mapRange f).ids = c.ids := fun c _ => ids_mapRange f c
    rw [Planted.mapRange_node, Planted.ids_node, Planted.ids_node, List.flatMap_map]
    exact congrArg _ (List.flatMap_congr hchildren)

theorem id_mapRange (f : Range → Range) (p : Planted) : (p.mapRange f).id = p.id := by
  obtain ⟨id, kind, range, children⟩ := p
  rw [Planted.mapRange_node, Planted.id_node, Planted.id_node]

theorem Settled.mapRange {p : Planted} (h : p.Settled) (e : Edit) :
    (p.mapRange e.mapRange).Settled := by
  induction h with
  | @node id kind range children hstart hstop _ ih =>
    rw [Planted.mapRange_node]
    refine .node (e.settled_mapPosition hstart) (e.settled_mapPosition hstop) fun c hc => ?_
    obtain ⟨c', hc', rfl⟩ := List.mem_map.mp hc
    exact ih c' hc'

end Planted

namespace Arena

/-- The tree of the arena: it hangs below the root, and whatever hangs below its nodes is part of
it. -/
structure Carries (a : Arena) (p : Planted) : Prop where
  sound : a.Sound
  holds : a.Holds none p
  root_eq : p.id = root
  nodup : p.ids.Nodup
  closed : ∀ id node, a.get? id = some node → ∀ up, node.parent = some up → up ∈ p.ids → id ∈ p.ids
  settled : p.Settled

variable {a b : Arena} {p : Planted}

theorem Holds.parent_of_mem {parent : Option NodeId} (h : a.Holds parent p) {id : NodeId}
    (hid : id ∈ p.ids) : ∃ node, a.get? id = some node ∧
      (id = p.id ∧ node.parent = parent ∨ ∃ up ∈ p.ids, node.parent = some up) := by
  induction h with
  | @node parent id' kind range children hget hchildren ih =>
    rw [Planted.ids_node, List.mem_cons] at hid
    rcases hid with rfl | hid
    · exact ⟨_, hget, .inl ⟨rfl, rfl⟩⟩
    · obtain ⟨c, hc, hid⟩ := List.mem_flatMap.mp hid
      obtain ⟨node, hnode, h⟩ := ih c hc hid
      refine ⟨node, hnode, .inr ?_⟩
      rcases h with ⟨-, h⟩ | ⟨up, hup, h⟩
      · exact ⟨id', by simp, h⟩
      · refine ⟨up, ?_, h⟩
        rw [Planted.ids_node]
        exact List.mem_cons_of_mem _ (List.mem_flatMap.mpr ⟨c, hc, hup⟩)

/-! ### A new arena -/

theorem get?_rooted (range : Range) (id : NodeId) :
    (rooted range).get? id = if id = root then some ⟨.latex, range, [], none⟩ else none := by
  obtain ⟨i⟩ := id
  cases i with
  | zero => rfl
  | succ i => simp [get?, rooted, root]

theorem sound_rooted (range : Range) : (rooted range).Sound := by
  refine ⟨by simp [rooted], by simp [rooted], fun id node hnode up hup => ?_⟩
  rw [get?_rooted] at hnode
  split at hnode
  · cases Option.some.inj hnode
    cases hup
  · cases hnode

section Rooted

variable {range : Range} {grown : Arena} {ps : List Planted}
  (h : (rooted range).Grows grown ps)

include h

theorem Grows.root_not_mem : root ∉ ps.flatMap Planted.ids :=
  h.not_mem (by simp [get?_rooted])

theorem Grows.get?_attachToRoot (i : NodeId) : (grown.attachToRoot (ps.map Planted.id)).get? i =
    if i = root then some ⟨.latex, range, ps.map Planted.id, none⟩
    else if i ∈ ps.map Planted.id then
      (grown.get? i).map fun node => { node with parent := some root }
    else grown.get? i := by
  have hroot : root ∉ ps.map Planted.id := fun hmem => h.root_not_mem (map_id_subset ps hmem)
  rw [attachToRoot, get?_update]
  by_cases hi : i = root
  · subst hi
    rw [if_pos rfl, if_pos rfl, get?_adopt, if_neg hroot, h.frame _ h.root_not_mem, get?_rooted]
    rfl
  · rw [if_neg hi, if_neg hi, get?_adopt]

theorem Grows.mem_of_attachToRoot {i : NodeId}
    (hi : ((grown.attachToRoot (ps.map Planted.id)).get? i).isSome = true) :
    i ∈ root :: ps.flatMap Planted.ids := by
  rw [h.get?_attachToRoot] at hi
  split at hi
  · next heq => simp [heq]
  · next hne =>
    by_contra hnot
    rw [List.mem_cons, not_or] at hnot
    have hnone : grown.get? i = none := by
      rw [h.frame i hnot.2, get?_rooted, if_neg hne]
    simp [hnone] at hi

theorem Grows.holds_attachToRoot :
    (grown.attachToRoot (ps.map Planted.id)).Holds none (.node root .latex range ps) := by
  have hget := h.get?_attachToRoot
  refine .node (by rw [hget, if_pos rfl]) fun q hq => ?_
  have hmem {i : NodeId} (hi : i ∈ q.ids) : i ∈ ps.flatMap Planted.ids :=
    List.mem_flatMap.mpr ⟨q, hq, hi⟩
  refine (h.holds q hq).reparent (nodup_ids_of_mem h.nodup hq) ?_ fun i hi hne => ?_
  · have hne : q.id ≠ root := fun heq => h.root_not_mem (heq ▸ hmem q.id_mem_ids)
    rw [hget, if_neg hne, if_pos (List.mem_map_of_mem hq)]
  · have hother : i ≠ root := fun heq => h.root_not_mem (heq ▸ hmem hi)
    rw [hget, if_neg hother, if_neg (not_mem_map_id h.nodup hq hi hne)]

theorem Grows.sound_attachToRoot : (grown.attachToRoot (ps.map Planted.id)).Sound := by
  refine ⟨?_, fun id hid => ?_, fun id node hnode up hup => ?_⟩
  · exact (free_adopt grown root _).symm ▸ h.sound.nodup
  · have hid : id ∈ grown.free := (free_adopt grown root _) ▸ hid
    obtain ⟨hbound, hnone⟩ := h.sound.empty id hid
    refine ⟨by rwa [attachToRoot, size_update, size_adopt], ?_⟩
    have hne : id ≠ root := by
      rintro rfl
      rw [h.frame _ h.root_not_mem, get?_rooted] at hnone
      cases hnone
    rw [h.get?_attachToRoot, if_neg hne, hnone]
    simp
  · have hid := h.mem_of_attachToRoot (i := id) (by simp [hnode])
    obtain ⟨node', hnode', hparent⟩ :=
      h.holds_attachToRoot.parent_of_mem (show id ∈ _ by simpa using hid)
    obtain rfl : node = node' := Option.some.inj (hnode.symm.trans hnode')
    rcases hparent with ⟨-, hparent⟩ | ⟨up', hup', hparent⟩
    · rw [hparent] at hup
      cases hup
    · obtain rfl : up' = up := Option.some.inj (hparent.symm.trans hup)
      exact h.holds_attachToRoot.isSome hup'

end Rooted

theorem exists_grows_ofForest (stop : Coord) (forest : List Tree) :
    ∃ ps, (rooted (rangeOf ⟨.zero, stop⟩)).Grows
        ((rooted (rangeOf ⟨.zero, stop⟩)).addForest forest).1 ps ∧
      ofForest stop forest = ((rooted (rangeOf ⟨.zero, stop⟩)).addForest forest).1.attachToRoot
        (ps.map Planted.id) ∧
      ps.map Planted.tree = forest ∧ ∀ p ∈ ps, p.Settled := by
  obtain ⟨ps, hids, hgrows, htrees, hsettled⟩ :=
    addForest_spec forest (sound_rooted (rangeOf ⟨.zero, stop⟩))
  exact ⟨ps, hgrows, by rw [← hids]; rfl, htrees, hsettled⟩

theorem carries_ofForest (stop : Coord) (forest : List Tree) :
    ∃ p, (ofForest stop forest).Carries p ∧ p.tree = .node .latex ⟨.zero, stop⟩ forest := by
  let range := rangeOf ⟨.zero, stop⟩
  obtain ⟨ps, hgrows, hofForest, htrees, hsettled⟩ := exists_grows_ofForest stop forest
  rw [hofForest]
  refine ⟨.node root .latex range ps, ⟨hgrows.sound_attachToRoot, hgrows.holds_attachToRoot, rfl, ?_,
    fun id node hnode up _ _ => ?_, ?_⟩, ?_⟩
  · simpa using ⟨by simpa using hgrows.root_not_mem, hgrows.nodup⟩
  · simpa using hgrows.mem_of_attachToRoot (i := id) (by simp [hnode])
  · exact .node (settled_rangeOf _).1 (settled_rangeOf _).2 hsettled
  · simp [range, rangeOf, htrees]

/-! ### Edits -/

theorem get?_applyEdit (a : Arena) (e : Edit) (id : NodeId) : (a.applyEdit e).get? id =
    (a.get? id).map fun node => { node with range := e.mapRange node.range } := by
  simp only [get?, applyEdit, Array.getElem?_map]
  cases a.slots[id.index]? with
  | none => rfl
  | some slot => cases slot <;> rfl

theorem Holds.applyEdit {parent : Option NodeId} (h : a.Holds parent p) (e : Edit) :
    (a.applyEdit e).Holds parent (p.mapRange e.mapRange) := by
  induction h with
  | @node parent id kind range children hget hchildren ih =>
    rw [Planted.mapRange_node]
    refine .node ?_ fun c hc => ?_
    · rw [get?_applyEdit, hget]
      simp [Function.comp_def, Planted.id_mapRange]
    · obtain ⟨c', hc', rfl⟩ := List.mem_map.mp hc
      exact ih c' hc'

theorem Carries.applyEdit (h : a.Carries p) (e : Edit) :
    (a.applyEdit e).Carries (p.mapRange e.mapRange) := by
  have hlive (id : NodeId) : ((a.applyEdit e).get? id).isSome = (a.get? id).isSome := by
    rw [get?_applyEdit]
    cases a.get? id <;> rfl
  have hparent {id : NodeId} {node : Node} (hnode : (a.applyEdit e).get? id = some node) :
      ∃ old, a.get? id = some old ∧ old.parent = node.parent := by
    rw [get?_applyEdit] at hnode
    obtain ⟨old, hold, rfl⟩ := Option.map_eq_some_iff.mp hnode
    exact ⟨old, hold, rfl⟩
  refine ⟨⟨h.sound.nodup, fun id hid => ?_, fun id node hnode up hup => ?_⟩, h.holds.applyEdit e,
    ?_, ?_, fun id node hnode up hup hmem => ?_, h.settled.mapRange e⟩
  · obtain ⟨hbound, hnone⟩ := h.sound.empty id hid
    refine ⟨by simpa [Arena.applyEdit] using hbound, ?_⟩
    rw [get?_applyEdit, hnone]
    rfl
  · obtain ⟨old, hold, hsame⟩ := hparent hnode
    rw [hlive]
    exact h.sound.parent_live id old hold up (hsame.trans hup)
  · rw [Planted.id_mapRange, h.root_eq]
  · rw [Planted.ids_mapRange]
    exact h.nodup
  · obtain ⟨old, hold, hsame⟩ := hparent hnode
    rw [Planted.ids_mapRange] at hmem ⊢
    exact h.closed id old hold up (hsame.trans hup) hmem

/-! ### New nodes -/

theorem Carries.grow {ps : List Planted} (h : a.Carries p) (hgrows : a.Grows b ps) :
    b.Carries p := by
  have hsame : ∀ id ∈ p.ids, b.get? id = a.get? id := fun id hid =>
    hgrows.frame id (hgrows.not_mem (h.holds.isSome hid))
  refine ⟨hgrows.sound, h.holds.congr hsame, h.root_eq, h.nodup, fun id node hnode up hup hmem => ?_,
    h.settled⟩
  by_cases hid : id ∈ ps.flatMap Planted.ids
  · obtain ⟨q, hq, hid⟩ := List.mem_flatMap.mp hid
    obtain ⟨node', hnode', hparent⟩ := (hgrows.holds q hq).parent_of_mem hid
    obtain rfl : node = node' := Option.some.inj (hnode.symm.trans hnode')
    rcases hparent with ⟨-, hparent⟩ | ⟨up', hup', hparent⟩
    · rw [hparent] at hup
      cases hup
    · obtain rfl : up' = up := Option.some.inj (hparent.symm.trans hup)
      exact absurd (List.mem_flatMap.mpr ⟨q, hq, hup'⟩) (hgrows.not_mem (h.holds.isSome hmem))
  · rw [hgrows.frame id hid] at hnode
    exact h.closed id node hnode up hup hmem

end Arena

/-! ### The exchange of a node -/

namespace Planted

/-- The tree `old` somewhere in a tree is exchanged for `new`. -/
inductive Grafted (old new : Planted) : Planted → Planted → Prop
  | here : Grafted old new old new
  | inside {p p' : Planted} (id : NodeId) (kind : NodeKind) (range : Range)
    (before after : List Planted) : Grafted old new p p' →
    Grafted old new (.node id kind range (before ++ p :: after))
      (.node id kind range (before ++ p' :: after))

variable {old new p p' : Planted}

theorem Settled.tree_mapRange (h : p.Settled) (e : Edit) :
    (p.mapRange e.mapRange).tree = p.tree.map e.mapCoord := by
  induction h with
  | @node id kind range children hstart hstop _ ih =>
    rw [mapRange_node, tree_node, tree_node, Tree.map, Tree.mapForest_eq, List.map_map, List.map_map]
    simp only [Edit.mapRange, e.coord_mapPosition hstart, e.coord_mapPosition hstop]
    exact congrArg _ (List.map_congr_left ih)

/-- A tree in a tree can be exchanged after an edit, and on the trees that are read this is a
regrowth. -/
theorem Occurs.exists_grafted (h : old.Occurs p) (hp : p.Settled) (e : Edit) (new : Planted) :
    ∃ p', Grafted (old.mapRange e.mapRange) new (p.mapRange e.mapRange) p' ∧
      Tree.Regrown e.mapCoord old.tree new.tree p.tree p'.tree := by
  induction h with
  | top => exact ⟨new, .here, .here⟩
  | @deeper p id kind range children hmem _ ih =>
    obtain ⟨before, after, rfl⟩ := List.append_of_mem hmem
    cases hp with
    | node hstart hstop hchildren =>
      obtain ⟨p', hgrafted, hregrown⟩ := ih (hchildren p hmem)
      have hmoved (ps : List Planted) (hps : ∀ q ∈ ps, q ∈ before ++ p :: after) :
          (ps.map (mapRange e.mapRange)).map tree = (ps.map tree).map (Tree.map e.mapCoord) := by
        rw [List.map_map, List.map_map]
        exact List.map_congr_left fun q hq => (hchildren q (hps q hq)).tree_mapRange e
      refine ⟨.node id kind (e.mapRange range)
        (before.map (mapRange e.mapRange) ++ p' :: after.map (mapRange e.mapRange)), ?_, ?_⟩
      · rw [mapRange_node, List.map_append, List.map_cons]
        exact .inside _ _ _ _ _ hgrafted
      · have := hregrown.inside kind ⟨range.start.coord, range.stop.coord⟩ (before.map tree)
          (after.map tree)
        rw [← hmoved before fun q hq => by simp [hq], ← hmoved after fun q hq => by simp [hq]] at this
        simpa [Edit.mapRange, e.coord_mapPosition hstart, e.coord_mapPosition hstop] using this

theorem Grafted.ids_eq (h : Grafted old new p p') :
    ∃ left right, p.ids = left ++ old.ids ++ right ∧ p'.ids = left ++ new.ids ++ right := by
  induction h with
  | here => exact ⟨[], [], by simp, by simp⟩
  | inside id kind range before after _ ih =>
    obtain ⟨left, right, hp, hp'⟩ := ih
    exact ⟨id :: (before.flatMap ids ++ left), right ++ after.flatMap ids, by simp [hp],
      by simp [hp']⟩

theorem Grafted.nodup (h : Grafted old new p p') (hp : p.ids.Nodup) (hnew : new.ids.Nodup)
    (hapart : ∀ id ∈ p.ids, id ∉ new.ids) : p'.ids.Nodup := by
  obtain ⟨left, right, hids, hids'⟩ := h.ids_eq
  rw [hids, List.nodup_append', List.nodup_append'] at hp
  obtain ⟨⟨hleft, -, -⟩, hright, hdisjoint⟩ := hp
  have hnewleft : List.Disjoint left new.ids := fun i hi => hapart i (by simp [hids, hi])
  have hnewright : List.Disjoint new.ids right := fun i hi hi' =>
    hapart i (by simp [hids, hi']) hi
  rw [hids', List.nodup_append', List.nodup_append']
  refine ⟨⟨hleft, hnew, hnewleft⟩, hright, List.disjoint_append_left.mpr ⟨?_, hnewright⟩⟩
  exact (List.disjoint_append_left.mp hdisjoint).1

theorem Grafted.settled (h : Grafted old new p p') (hp : p.Settled) (hnew : new.Settled) :
    p'.Settled := by
  induction h with
  | here => exact hnew
  | inside id kind range before after _ ih =>
    cases hp with
    | node hstart hstop hchildren =>
      refine .node hstart hstop fun c hc => ?_
      rcases List.mem_append.mp hc with hc | hc
      · exact hchildren c (by simp [hc])
      · rcases List.mem_cons.mp hc with rfl | hc
        exacts [ih (hchildren _ (by simp)), hchildren c (by simp [hc])]

theorem exists_occurs {p : Planted} {id : NodeId} (h : id ∈ p.ids) :
    ∃ q : Planted, q.Occurs p ∧ q.id = id := by
  match p with
  | .node id' kind range children =>
    rw [ids_node, List.mem_cons] at h
    rcases h with rfl | h
    · exact ⟨_, .top, rfl⟩
    · obtain ⟨c, hc, hid⟩ := List.mem_flatMap.mp h
      obtain ⟨q, hq, hqid⟩ := exists_occurs hid
      exact ⟨q, .deeper hc hq, hqid⟩

theorem Occurs.ids_subset {q : Planted} (h : q.Occurs p) : ∀ id ∈ q.ids, id ∈ p.ids := by
  induction h with
  | top => exact fun _ h => h
  | deeper hp _ ih =>
    intro id hid
    rw [ids_node]
    exact List.mem_cons_of_mem _ (List.mem_flatMap.mpr ⟨_, hp, ih id hid⟩)

theorem Occurs.mapRange {q : Planted} (h : q.Occurs p) (f : Range → Range) :
    (q.mapRange f).Occurs (p.mapRange f) := by
  induction h with
  | top => exact .top
  | deeper hp _ ih =>
    rw [mapRange_node]
    exact .deeper (List.mem_map_of_mem hp) ih

end Planted

namespace Arena

open Planted (Grafted)

variable {a b : Arena} {old new p p' : Planted}

/-- The arena `b` holds the new tree below `up` in the place of the old one. -/
structure Exchanges (a b : Arena) (up : NodeId) (old new : Planted) : Prop where
  parent : ∀ node, a.get? up = some node →
    b.get? up = some { node with children := node.children.replace old.id new.id }
  grafted : b.Holds (some up) new
  frame : ∀ id, id ≠ up → id ∉ old.ids → id ∉ new.ids → b.get? id = a.get? id

theorem replace_id {before after : List Planted} (hnot : old.id ∉ before.map Planted.id)
    (new : NodeId) : ((before ++ old :: after).map Planted.id).replace old.id new =
      before.map Planted.id ++ new :: after.map Planted.id := by
  induction before with
  | nil => simp
  | cons first before ih =>
    rw [List.map_cons, List.mem_cons, not_or] at hnot
    have hne : (old.id == first.id) = false := by simpa using hnot.1
    simp only [List.cons_append, List.map_cons, List.replace_cons, hne, ih hnot.2]

theorem Exchanges.holds {up : NodeId} (hexchanges : Exchanges a b up old new)
    (hold : ∃ node, a.get? old.id = some node ∧ node.parent = some up)
    (h : Grafted old new p p') {parent : Option NodeId} (hp : a.Holds parent p)
    (hnodup : p.ids.Nodup) (hnew : ∀ id ∈ p.ids, id ∉ new.ids) :
    (p = old ∧ p' = new) ∨ (up ∈ p.ids ∧ p'.id = p.id ∧ b.Holds parent p') := by
  induction h generalizing parent with
  | here => exact .inl ⟨rfl, rfl⟩
  | @inside c c' id kind range before after hgraft ih =>
    refine .inr ?_
    cases hp with
    | node hget hchildren =>
      rw [Planted.ids_node, List.flatMap_append, List.flatMap_cons, List.nodup_cons, List.mem_append,
        List.mem_append, List.nodup_append, List.nodup_append] at hnodup
      obtain ⟨hid, hbefore, ⟨hc, hafter, hcafter⟩, hbeforec⟩ := hnodup
      simp only [not_or] at hid
      simp only [Planted.ids_node, List.flatMap_append, List.flatMap_cons, List.mem_cons,
        List.mem_append, forall_eq_or_imp] at hnew
      obtain ⟨hidnew, hnew⟩ := hnew
      obtain ⟨left, right, hids, -⟩ := hgraft.ids_eq
      have holdids : ∀ i ∈ old.ids, i ∈ c.ids := fun i hi => by simp [hids, hi]
      have hchild := hchildren c (by simp)
      have hsame (q : Planted) (hq : q ∈ before ∨ q ∈ after) (hup : up = id ∨ up ∈ c.ids) :
          b.Holds (some id) q := by
        apply (hchildren q (by simp [Or.imp_right Or.inr hq])).congr
        intro i hi
        have hapart : i ≠ id ∧ i ∉ c.ids ∧ i ∉ new.ids := by
          rcases hq with hq | hq
          · have hmem : i ∈ before.flatMap Planted.ids := List.mem_flatMap.mpr ⟨q, hq, hi⟩
            refine ⟨?_, fun hic => hbeforec i hmem i (by simp [hic]) rfl, hnew i (.inl hmem)⟩
            rintro rfl
            exact hid.1 hmem
          · have hmem : i ∈ after.flatMap Planted.ids := List.mem_flatMap.mpr ⟨q, hq, hi⟩
            refine ⟨?_, fun hic => hcafter i hic i hmem rfl, hnew i (.inr (.inr hmem))⟩
            rintro rfl
            exact hid.2.2 hmem
        refine hexchanges.frame i ?_ (fun hi => hapart.2.1 (holdids i hi)) hapart.2.2
        rintro rfl
        rcases hup with rfl | hup
        exacts [hapart.1 rfl, hapart.2.1 hup]
      rcases ih hchild hc (fun i hi => hnew i (.inr (.inl hi))) with ⟨rfl, rfl⟩ | ⟨hup, hsameid, hholds⟩
      · obtain ⟨node, hnode, hparent⟩ := hold
        obtain ⟨children, hchildget⟩ := hchild.get?
        rw [hchildget] at hnode
        obtain rfl := Option.some.inj hnode
        obtain rfl : id = up := Option.some.inj hparent
        refine ⟨by simp, rfl, .node ?_ fun q hq => ?_⟩
        · rw [hexchanges.parent _ hget]
          have hnot : c.id ∉ before.map Planted.id := by
            intro hmem
            obtain ⟨q, hq, hqid⟩ := List.mem_map.mp hmem
            exact hbeforec c.id (List.mem_flatMap.mpr ⟨q, hq, hqid ▸ q.id_mem_ids⟩) c.id
              (by simp [c.id_mem_ids]) rfl
          simp only [replace_id hnot]
          simp
        · rcases List.mem_append.mp hq with hq | hq
          · exact hsame q (.inl hq) (.inl rfl)
          · rcases List.mem_cons.mp hq with rfl | hq
            exacts [hexchanges.grafted, hsame q (.inr hq) (.inl rfl)]
      · refine ⟨?_, rfl, .node ?_ fun q hq => ?_⟩
        · rw [Planted.ids_node]
          exact List.mem_cons_of_mem _ (by simp [hup])
        · have hidup : id ≠ up := by
            rintro rfl
            exact hid.2.1 hup
          rw [hexchanges.frame id hidup (fun h => hid.2.1 (holdids id h)) hidnew, hget]
          simp [hsameid]
        · rcases List.mem_append.mp hq with hq | hq
          · exact hsame q (.inl hq) (.inr hup)
          · rcases List.mem_cons.mp hq with rfl | hq
            exacts [hholds, hsame q (.inr hq) (.inr hup)]

theorem get?_replaceChild? {up id new : NodeId} (h : a.replaceChild? up id new = some b) :
    b.free = a.free ∧ b.slots.size = a.slots.size ∧
      (∀ i, (b.get? i).isSome = (a.get? i).isSome) ∧
      (up ≠ id → up ≠ new → id ≠ new → ∀ i, b.get? i =
        if i = new then (a.get? i).map fun node => { node with parent := some up }
        else if i = id then (a.get? i).map fun node => { node with parent := none }
        else if i = up then
          (a.get? i).map fun node => { node with children := node.children.replace id new }
        else a.get? i) := by
  unfold Arena.replaceChild? at h
  simp only at h
  split at h
  · obtain rfl := Option.some.inj h
    refine ⟨rfl, by simp only [size_update], fun i => by simp only [isSome_update], ?_⟩
    intro hid hnew hne i
    simp only [get?_update]
    grind
  · cases h

theorem exchanges_of_replaceChild? {up : NodeId}
    (hreplace : a.replaceChild? up old.id new.id = some b) (hnew : a.Holds none new)
    (hnodup : new.ids.Nodup) (hup : up ∉ old.ids) (hupnew : up ∉ new.ids)
    (holdnew : old.id ∉ new.ids) : Exchanges a b up old new := by
  have hupold : up ≠ old.id := by
    rintro rfl
    exact hup old.id_mem_ids
  have hupne : up ≠ new.id := by
    rintro rfl
    exact hupnew new.id_mem_ids
  have hne : old.id ≠ new.id := fun heq => holdnew (heq ▸ new.id_mem_ids)
  obtain ⟨-, -, -, hget⟩ := Arena.get?_replaceChild? hreplace
  have hget := hget hupold hupne hne
  refine ⟨fun node hnode => ?_, hnew.reparent hnodup ?_ fun i hi hne => ?_,
    fun i hi hiold hinew => ?_⟩
  · rw [hget, if_neg hupne, if_neg hupold, if_pos rfl, hnode]
    rfl
  · rw [hget, if_pos rfl]
  · rw [hget, if_neg hne, if_neg (by rintro rfl; exact holdnew hi),
      if_neg (by rintro rfl; exact hupnew hi)]
  · rw [hget, if_neg (by rintro rfl; exact hinew new.id_mem_ids),
      if_neg (by rintro rfl; exact hiold old.id_mem_ids), if_neg hi]

section ReplaceChild

variable {base : Arena} {up : NodeId} {node : Node} (h : base.Carries p) (hgrows : base.Grows a [new])
  (hocc : old.Occurs p) (hnode : a.get? old.id = some node) (hup : node.parent = some up)
  (hreplace : a.replaceChild? up old.id new.id = some b)

include h hgrows

theorem Carries.not_mem_new {id : NodeId} (hid : id ∈ p.ids) : id ∉ new.ids := by
  simpa using hgrows.not_mem (h.holds.isSome hid)

include hocc hnode hup

theorem Carries.holds_old : up ∈ p.ids ∧ up ∉ old.ids ∧ a.Holds (some up) old := by
  have ha := h.grow hgrows
  rcases ha.holds.occurs ha.nodup hocc with rfl | ⟨up', hup', hnot, hold⟩
  · obtain ⟨children, hroot⟩ := ha.holds.get?
    obtain rfl := Option.some.inj (hroot.symm.trans hnode)
    cases hup
  · obtain ⟨children, hchild⟩ := hold.get?
    obtain rfl := Option.some.inj (hchild.symm.trans hnode)
    obtain rfl : up' = up := Option.some.inj hup
    exact ⟨hup', hnot, hold⟩

include hreplace

theorem Carries.get?_replaceChild? (i : NodeId) : b.get? i =
    if i = new.id then (a.get? i).map fun node => { node with parent := some up }
    else if i = old.id then (a.get? i).map fun node => { node with parent := none }
    else if i = up then
      (a.get? i).map fun node => { node with children := node.children.replace old.id new.id }
    else a.get? i := by
  obtain ⟨hup_mem, hup_not, -⟩ := h.holds_old hgrows hocc hnode hup
  have hold_mem : old.id ∈ p.ids := hocc.ids_subset _ old.id_mem_ids
  obtain ⟨-, -, -, hget⟩ := Arena.get?_replaceChild? hreplace
  apply hget
  · rintro rfl
    exact hup_not old.id_mem_ids
  · rintro rfl
    exact h.not_mem_new hgrows hup_mem new.id_mem_ids
  · intro heq
    exact h.not_mem_new hgrows hold_mem (heq ▸ new.id_mem_ids)

/-- A node that has a parent afterwards is the new tree's top, or it had that parent before. -/
theorem Carries.parent_replaceChild? {i u : NodeId} {after : Node} (hafter : b.get? i = some after)
    (hu : after.parent = some u) :
    (i = new.id ∧ u = up) ∨
      (i ≠ old.id ∧ ∃ before, a.get? i = some before ∧ before.parent = some u) := by
  rw [h.get?_replaceChild? hgrows hocc hnode hup hreplace] at hafter
  split at hafter
  · next hi =>
    obtain ⟨before, -, rfl⟩ := Option.map_eq_some_iff.mp hafter
    exact .inl ⟨hi, (Option.some.inj hu).symm⟩
  · split at hafter
    · obtain ⟨before, -, rfl⟩ := Option.map_eq_some_iff.mp hafter
      cases hu
    · next hne =>
      refine .inr ⟨hne, ?_⟩
      split at hafter
      · obtain ⟨before, hbefore, rfl⟩ := Option.map_eq_some_iff.mp hafter
        exact ⟨before, hbefore, hu⟩
      · exact ⟨after, hafter, hu⟩

theorem Carries.exchanges : Exchanges a b up old new := by
  obtain ⟨hup_mem, hup_not, -⟩ := h.holds_old hgrows hocc hnode hup
  have hapart {id : NodeId} (hid : id ∈ p.ids) : id ∉ new.ids := h.not_mem_new hgrows hid
  exact exchanges_of_replaceChild? hreplace (hgrows.holds new (by simp)) (by simpa using hgrows.nodup)
    hup_not (hapart hup_mem) (hapart (hocc.ids_subset _ old.id_mem_ids))

theorem Carries.closed_replaceChild? (hgraft : Grafted old new p p') {i u : NodeId} {after : Node}
    (hafter : b.get? i = some after) (hu : after.parent = some u) (hmem : u ∈ p'.ids) :
    i ∈ p'.ids := by
  have ha := h.grow hgrows
  obtain ⟨-, -, hold⟩ := h.holds_old hgrows hocc hnode hup
  obtain ⟨left, right, hids, hids'⟩ := hgraft.ids_eq
  have hnodup := ha.nodup
  rw [hids, List.nodup_append', List.nodup_append'] at hnodup
  obtain ⟨⟨-, -, hleftold⟩, -, hdisjoint⟩ := hnodup
  rw [hids'] at hmem ⊢
  rcases h.parent_replaceChild? hgrows hocc hnode hup hreplace hafter hu with
    ⟨rfl, -⟩ | ⟨hne, before, hbefore, hparent⟩
  · simp [new.id_mem_ids]
  by_cases hi : i ∈ new.ids
  · simp [hi]
  have hu_not : u ∉ new.ids := by
    intro hu_mem
    have hframe := hgrows.frame i (by simpa using hi)
    have hlive := h.sound.parent_live i before (hframe ▸ hbefore) u hparent
    simpa using hgrows.not_mem hlive (by simpa using hu_mem)
  have hu_kept : u ∈ left ∨ u ∈ right := by simpa [hu_not] using hmem
  have hip := ha.closed i before hbefore u hparent (by rw [hids]; simp [hu_kept.imp_right Or.inr])
  have hiold : i ∉ old.ids := by
    intro hiold
    obtain ⟨node', hnode', hparent'⟩ := hold.parent_of_mem hiold
    obtain rfl := Option.some.inj (hnode'.symm.trans hbefore)
    rcases hparent' with ⟨htop, -⟩ | ⟨u', hu', hparent'⟩
    · exact hne htop
    · obtain rfl : u' = u := Option.some.inj (hparent'.symm.trans hparent)
      rcases hu_kept with hu_left | hu_right
      exacts [hleftold hu_left hu', hdisjoint (by simp [hu']) hu_right]
  rw [hids] at hip
  simpa [hiold, hi] using hip

/-- A new tree takes the place of a tree in the tree of the arena. -/
theorem Carries.replaceChild? (hgraft : Grafted old new p p') (hsettled : new.Settled) :
    b.Carries p' := by
  have ha := h.grow hgrows
  obtain ⟨hfree, hsize, hisSome, -⟩ := Arena.get?_replaceChild? hreplace
  obtain ⟨hup_mem, hup_not, -⟩ := h.holds_old hgrows hocc hnode hup
  have hapart : ∀ id ∈ p.ids, id ∉ new.ids := fun id hid => h.not_mem_new hgrows hid
  have hexchanges := h.exchanges hgrows hocc hnode hup hreplace
  obtain ⟨hid, hholds⟩ : p'.id = p.id ∧ b.Holds none p' := by
    rcases hexchanges.holds ⟨node, hnode, hup⟩ hgraft ha.holds ha.nodup hapart with
      ⟨rfl, rfl⟩ | ⟨-, hid, hholds⟩
    · exact absurd hup_mem hup_not
    · exact ⟨hid, hholds⟩
  have hnodup : p'.ids.Nodup := hgraft.nodup ha.nodup (by simpa using hgrows.nodup) hapart
  refine ⟨⟨hfree ▸ ha.sound.nodup, fun i hi => ?_, fun i after hafter u hu => ?_⟩, hholds,
    hid.trans ha.root_eq, hnodup, fun i after hafter u hu hmem => ?_,
    hgraft.settled ha.settled hsettled⟩
  · obtain ⟨hbound, hnone⟩ := ha.sound.empty i (hfree ▸ hi)
    refine ⟨hsize ▸ hbound, ?_⟩
    have := hisSome i
    rw [hnone] at this
    simpa using this
  · rw [hisSome]
    rcases h.parent_replaceChild? hgrows hocc hnode hup hreplace hafter hu with
      ⟨-, rfl⟩ | ⟨-, before, hbefore, hparent⟩
    · exact ha.holds.isSome hup_mem
    · exact ha.sound.parent_live i before hbefore u hparent
  · exact h.closed_replaceChild? hgrows hocc hnode hup hreplace hgraft hafter hu hmem

end ReplaceChild

/-! ### The nodes of the tree -/

theorem descendantsWithin_of_holds {parent : Option NodeId} (h : a.Holds parent p) {depth : Nat}
    (hdepth : p.ids.length ≤ depth) : a.descendantsWithin depth p.id = p.ids := by
  induction h generalizing depth with
  | @node parent id kind range children hget _ ih =>
    rw [Planted.ids_node] at hdepth ⊢
    obtain ⟨depth, rfl⟩ : ∃ n, depth = n + 1 := ⟨depth - 1, by simp at hdepth; omega⟩
    rw [Planted.id_node, descendantsWithin, hget]
    simp only [List.flatMap_map]
    refine congrArg _ (List.flatMap_congr fun c hc => ih c hc ?_)
    have hle : c.ids.length ≤ (children.flatMap Planted.ids).length :=
      (List.sublist_flatten_of_mem (List.mem_map_of_mem hc)).length_le
    simp only [List.length_cons] at hdepth
    omega

theorem descendants_eq_nil {id : NodeId} (h : a.get? id = none) : a.descendants id = [] := by
  unfold descendants
  cases a.capacity with
  | zero => rfl
  | succ depth => rw [descendantsWithin, h]

theorem index_lt_of_isSome {id : NodeId} (h : (a.get? id).isSome = true) :
    id.index < a.capacity := by
  by_contra hge
  have : a.slots[id.index]? = none := Array.getElem?_eq_none (by simpa [capacity] using hge)
  simp [get?, this] at h

/-- Different live nodes are in different slots. -/
theorem length_le_capacity {ids : List NodeId} (hnodup : ids.Nodup)
    (hlive : ∀ id ∈ ids, (a.get? id).isSome = true) : ids.length ≤ a.capacity := by
  have hindex : (ids.map NodeId.index).Nodup :=
    hnodup.map fun i j hij => by cases i; cases j; simp_all
  have hsub : ids.map NodeId.index ⊆ List.range a.capacity := by
    intro i hi
    obtain ⟨id, hid, rfl⟩ := List.mem_map.mp hi
    exact List.mem_range.mpr (index_lt_of_isSome (hlive id hid))
  simpa using (List.subperm_of_subset hindex hsub).length_le

theorem Carries.length_ids_le (h : a.Carries p) : p.ids.length ≤ a.capacity :=
  length_le_capacity h.nodup fun _ hid => h.holds.isSome hid

theorem Carries.descendants_root (h : a.Carries p) : a.descendants root = p.ids := by
  rw [← h.root_eq]
  exact descendantsWithin_of_holds h.holds h.length_ids_le

theorem Carries.mem_of_reachesRoot (h : a.Carries p) {steps : Nat} {id : NodeId}
    (hid : a.reachesRoot steps id = true) : id ∈ p.ids := by
  have hroot : root ∈ p.ids := h.root_eq ▸ p.id_mem_ids
  induction steps generalizing id with
  | zero =>
    rw [reachesRoot, beq_iff_eq] at hid
    exact hid ▸ hroot
  | succ steps ih =>
    rw [reachesRoot, Bool.or_eq_true, beq_iff_eq] at hid
    rcases hid with rfl | hid
    · exact hroot
    · split at hid
      · next up hup =>
        obtain ⟨node, hnode, hparent⟩ := Option.bind_eq_some_iff.mp hup
        exact h.closed id node hnode up hparent (ih hid)
      · cases hid

theorem Carries.mem_of_isAttached (h : a.Carries p) {id : NodeId} (hid : a.isAttached id = true) :
    id ∈ p.ids :=
  h.mem_of_reachesRoot hid

theorem reachesRoot_mono {steps more : Nat} (hle : steps ≤ more) {id : NodeId}
    (h : a.reachesRoot steps id = true) : a.reachesRoot more id = true := by
  induction more generalizing steps id with
  | zero =>
    obtain rfl : steps = 0 := by omega
    exact h
  | succ more ih =>
    rw [reachesRoot, Bool.or_eq_true]
    cases steps with
    | zero => exact .inl h
    | succ steps =>
      rw [reachesRoot, Bool.or_eq_true] at h
      refine h.imp_right fun h => ?_
      cases hup : (a.get? id).bind Node.parent with
      | none => simp [hup] at h
      | some up =>
        rw [hup] at h
        exact ih (by omega) h

theorem Holds.reachesRoot {parent : Option NodeId} (h : a.Holds parent p) {steps : Nat}
    (htop : a.reachesRoot steps p.id = true) {id : NodeId} (hid : id ∈ p.ids) :
    a.reachesRoot (steps + p.ids.length) id = true := by
  induction h generalizing steps with
  | @node parent top kind range children hget hchildren ih =>
    rw [Planted.ids_node] at hid ⊢
    rcases List.mem_cons.mp hid with rfl | hid
    · exact reachesRoot_mono (Nat.le_add_right _ _) htop
    · obtain ⟨c, hc, hid⟩ := List.mem_flatMap.mp hid
      obtain ⟨below, hchild⟩ := (hchildren c hc).get?
      have hstep : a.reachesRoot (steps + 1) c.id = true := by
        rw [Planted.id_node] at htop
        rw [Arena.reachesRoot, hchild, Bool.or_eq_true]
        exact .inr htop
      refine reachesRoot_mono ?_ (ih c hc hstep hid)
      have hle : c.ids.length ≤ (children.flatMap Planted.ids).length :=
        (List.sublist_flatten_of_mem (List.mem_map_of_mem hc)).length_le
      simp only [List.length_cons]
      omega

theorem Carries.isAttached_iff (h : a.Carries p) {id : NodeId} :
    a.isAttached id = true ↔ id ∈ p.ids := by
  refine ⟨h.mem_of_isAttached, fun hid => ?_⟩
  refine reachesRoot_mono h.length_ids_le ?_
  have htop : a.reachesRoot 0 p.id = true := by rw [Arena.reachesRoot, h.root_eq, beq_self_eq_true]
  simpa using h.holds.reachesRoot htop hid

/-! ### Freeing -/

theorem Carries.mem_detached (h : a.Carries p) (id : NodeId) :
    id ∈ a.detached ↔ (a.get? id).isSome = true ∧ id ∉ p.ids := by
  rw [detached, h.descendants_root]
  simp only [List.mem_filter, List.mem_map, List.mem_range, Bool.and_eq_true, Bool.not_eq_true',
    List.contains_eq_mem, decide_eq_false_iff_not]
  refine ⟨fun hid => hid.2, fun hid => ⟨⟨id.index, index_lt_of_isSome hid.1, rfl⟩, hid⟩⟩

theorem nodup_detached (a : Arena) : a.detached.Nodup :=
  (List.nodup_range.map fun i j hij => by simpa using hij).filter _

theorem getElem?_cleared (slots : Array (Option Node)) (gone : List NodeId) (i : Nat) :
    ((gone.foldl (fun slots id => slots.setIfInBounds id.index none) slots)[i]?).join =
      if ⟨i⟩ ∈ gone then none else (slots[i]?).join := by
  induction gone generalizing slots with
  | nil => simp
  | cons first gone ih =>
    obtain ⟨j⟩ := first
    rw [List.foldl_cons, ih, Array.getElem?_setIfInBounds]
    by_cases hij : j = i
    · subst hij
      by_cases hbound : j < slots.size <;> simp [hbound]
    · simp [hij, Ne.symm hij]

theorem size_cleared (slots : Array (Option Node)) (gone : List NodeId) :
    (gone.foldl (fun slots id => slots.setIfInBounds id.index none) slots).size = slots.size := by
  induction gone generalizing slots with
  | nil => rfl
  | cons first gone ih => rw [List.foldl_cons, ih, Array.size_setIfInBounds]

theorem get?_freeDetached (a : Arena) (id : NodeId) :
    a.freeDetached.get? id = if id ∈ a.detached then none else a.get? id :=
  getElem?_cleared a.slots a.detached id.index

/-- Freeing the detached nodes keeps the tree, and nothing else stays live. -/
theorem Carries.freeDetached (h : a.Carries p) : a.freeDetached.Carries p := by
  have hlive {id : NodeId} {node : Node} (hnode : a.freeDetached.get? id = some node) :
      a.get? id = some node ∧ id ∈ p.ids := by
    rw [get?_freeDetached] at hnode
    split at hnode
    · cases hnode
    · next hnot =>
      rw [h.mem_detached, not_and, not_not] at hnot
      exact ⟨hnode, hnot (by simp [hnode])⟩
  have hkept : ∀ id ∈ p.ids, a.freeDetached.get? id = a.get? id := by
    intro id hid
    rw [get?_freeDetached, if_neg fun hmem => ((h.mem_detached id).mp hmem).2 hid]
  refine ⟨⟨?_, fun id hid => ?_, fun id node hnode up hup => ?_⟩, h.holds.congr hkept, h.root_eq,
    h.nodup, fun id node hnode _ _ _ => (hlive hnode).2, h.settled⟩
  · refine List.nodup_append'.mpr ⟨List.nodup_reverse.mpr a.nodup_detached, h.sound.nodup, ?_⟩
    intro id hid hfree
    have hsome := ((h.mem_detached id).mp (List.mem_reverse.mp hid)).1
    rw [(h.sound.empty id hfree).2] at hsome
    cases hsome
  · have hsize : a.freeDetached.slots.size = a.slots.size := size_cleared _ _
    rw [hsize, get?_freeDetached]
    rcases List.mem_append.mp hid with hid | hid
    · have hid := List.mem_reverse.mp hid
      exact ⟨index_lt_of_isSome ((h.mem_detached id).mp hid).1, if_pos hid⟩
    · obtain ⟨hbound, hnone⟩ := h.sound.empty id hid
      exact ⟨hbound, by rw [hnone, ite_self]⟩
  · obtain ⟨hnode, hid⟩ := hlive hnode
    obtain ⟨node', hnode', hparent⟩ := h.holds.parent_of_mem hid
    obtain rfl := Option.some.inj (hnode'.symm.trans hnode)
    rcases hparent with ⟨-, hparent⟩ | ⟨up', hup', hparent⟩
    · rw [hparent] at hup
      cases hup
    · obtain rfl : up' = up := Option.some.inj (hparent.symm.trans hup)
      rw [hkept up' hup']
      exact h.holds.isSome hup'

end Arena

end TexAnchor
