import TexAnchor.Proofs.Carrying

/-! # All trees of an arena

Besides its tree an arena has detached trees: fragments that were not put into the tree, the trees
that were exchanged, and what a failed parse had finished.  `Arena.Consists a ps` says that the live
nodes of `a` are the nodes of the trees `ps`, which have no node in common, and that the free list
has every empty slot once.

Whatever is done to an arena changes the list of its trees in a simple way.

* `consists_ofForest` — the arena of a document has one tree;
* `Consists.addForest` — new trees are put behind the old ones;
* `Consists.applyEdit` — the trees stay, and all ranges move;
* `Consists.replaceChild?` — a tree `q` goes into a tree `p` and a tree `old` comes out of it;
* `Consists.freeDetached` — the tree of the root remains.

What allocation does to slots and free list is the relation `Arena.Fills`. -/

namespace TexAnchor

open Text (Coord)

namespace Planted

variable {old new p p' q : Planted}

theorem Occurs.trans (h : old.Occurs q) (h' : q.Occurs p) : old.Occurs p := by
  induction h' with
  | top => exact h
  | deeper hmem _ ih => exact .deeper hmem ih

theorem Occurs.nodup (h : q.Occurs p) (hnodup : p.ids.Nodup) : q.ids.Nodup := by
  induction h with
  | top => exact hnodup
  | deeper hmem _ ih =>
    rw [ids_node, List.nodup_cons] at hnodup
    exact ih ((List.nodup_flatMap.mp hnodup.2).1 _ hmem)

theorem Occurs.settled (h : q.Occurs p) (hsettled : p.Settled) : q.Settled := by
  induction h with
  | top => exact hsettled
  | deeper hmem _ ih =>
    cases hsettled with
    | node _ _ hchildren => exact ih (hchildren _ hmem)

theorem Occurs.exists_grafted_same (h : old.Occurs p) (new : Planted) :
    ∃ p', Grafted old new p p' := by
  induction h with
  | top => exact ⟨new, .here⟩
  | @deeper p id kind range children hmem _ ih =>
    obtain ⟨p', hgrafted⟩ := ih
    obtain ⟨before, after, rfl⟩ := List.append_of_mem hmem
    exact ⟨_, .inside id kind range before after hgrafted⟩

theorem Grafted.perm_ids (h : Grafted old new p p') :
    (p'.ids ++ old.ids).Perm (p.ids ++ new.ids) := by
  obtain ⟨left, right, hp, hp'⟩ := h.ids_eq
  rw [hp, hp']
  refine List.perm_iff_count.mpr fun id => ?_
  simp only [List.count_append]
  omega

end Planted

namespace Arena

open Planted (Grafted)

variable {a b c : Arena} {p q : Planted} {ps qs : List Planted}

/-! ### Slots -/

/-- The arenas have the same slots in use and the same free list. -/
structure SameSlots (a b : Arena) : Prop where
  free_eq : b.free = a.free
  size_eq : b.slots.size = a.slots.size
  isSome_eq : ∀ id, (b.get? id).isSome = (a.get? id).isSome

theorem SameSlots.trans (h : a.SameSlots b) (h' : b.SameSlots c) : a.SameSlots c :=
  ⟨h'.free_eq.trans h.free_eq, h'.size_eq.trans h.size_eq,
    fun id => (h'.isSome_eq id).trans (h.isSome_eq id)⟩

theorem SameSlots.eq_none_iff (h : a.SameSlots b) {id : NodeId} :
    b.get? id = none ↔ a.get? id = none := by
  rw [← Option.isSome_eq_false_iff.trans Option.isNone_iff_eq_none, h.isSome_eq,
    Option.isSome_eq_false_iff, Option.isNone_iff_eq_none]

theorem SameSlots.capacity_eq (h : a.SameSlots b) : b.capacity = a.capacity := h.size_eq

theorem SameSlots.liveCount_eq (h : a.SameSlots b) : b.liveCount = a.liveCount := by
  rw [liveCount, liveCount, h.size_eq, h.free_eq]

theorem sameSlots_update (a : Arena) (id : NodeId) (change : Node → Node) :
    a.SameSlots (a.update id change) :=
  ⟨rfl, size_update a id change, isSome_update a id change⟩

theorem sameSlots_adopt (a : Arena) (up : NodeId) (ids : List NodeId) :
    a.SameSlots (a.adopt up ids) := by
  refine ⟨free_adopt a up ids, size_adopt a up ids, fun id => ?_⟩
  rw [get?_adopt]
  split <;> simp

theorem sameSlots_attachToRoot (a : Arena) (ids : List NodeId) :
    a.SameSlots (a.attachToRoot ids) :=
  (sameSlots_adopt a root ids).trans (sameSlots_update _ _ _)

theorem sameSlots_applyEdit (a : Arena) (e : Edit) : a.SameSlots (a.applyEdit e) := by
  refine ⟨rfl, by simp [Arena.applyEdit], fun id => ?_⟩
  rw [get?_applyEdit, Option.isSome_map]

theorem sameSlots_replaceChild? {up id new : NodeId} (h : a.replaceChild? up id new = some b) :
    a.SameSlots b := by
  obtain ⟨hfree, hsize, hisSome, -⟩ := Arena.get?_replaceChild? h
  exact ⟨hfree, hsize, hisSome⟩

/-- The arena `b` came from `a` by allocation: its free list has all empty slots, and a slot was made
only when no slot was empty. -/
structure Fills (a b : Arena) : Prop where
  tight : ∀ id : NodeId, id.index < b.capacity → b.get? id = none → id ∈ b.free
  free_le : b.free.length ≤ b.capacity
  live_le : a.liveCount ≤ b.liveCount
  capacity_eq : b.capacity = max a.capacity b.liveCount

theorem Fills.of_sameSlots (h : Fills a b) (hsame : b.SameSlots c) : Fills a c := by
  refine ⟨fun id hid hnone => ?_, ?_, ?_, ?_⟩
  · rw [hsame.free_eq]
    exact h.tight id (hsame.capacity_eq ▸ hid) (hsame.eq_none_iff.mp hnone)
  · rw [hsame.free_eq, hsame.capacity_eq]
    exact h.free_le
  · rw [hsame.liveCount_eq]
    exact h.live_le
  · rw [hsame.capacity_eq, hsame.liveCount_eq]
    exact h.capacity_eq

/-- A node that is placed is one more live node, in a slot that was empty or in a new one. -/
theorem Fills.place (h : Fills a b) (node : Node) : Fills a (b.place node).1 := by
  obtain ⟨htight, hfree, hlive, hcapacity⟩ := h
  obtain ⟨slots, free⟩ := b
  simp only [capacity, liveCount] at htight hfree hlive hcapacity
  cases free with
  | nil =>
    refine ⟨fun id hid hnone => ?_, ?_, ?_, ?_⟩
    · obtain ⟨i⟩ := id
      simp only [Arena.place, capacity, get?, Array.size_push, Array.getElem?_push] at hid hnone ⊢
      split at hnone
      · cases hnone
      · exact htight ⟨i⟩ (by simp only; omega) hnone
    · simp [Arena.place]
    · simp only [Arena.place, liveCount, Array.size_push, List.length_nil] at hlive ⊢
      omega
    · simp only [Arena.place, capacity, liveCount, Array.size_push, List.length_nil] at hcapacity ⊢
      omega
  | cons first free =>
    rw [List.length_cons] at hfree hlive hcapacity
    refine ⟨fun id hid hnone => ?_, ?_, ?_, ?_⟩
    · obtain ⟨i⟩ := id
      obtain ⟨j⟩ := first
      simp only [Arena.place, capacity, get?, Array.size_setIfInBounds,
        Array.getElem?_setIfInBounds] at hid hnone ⊢
      have hne : j ≠ i := by
        rintro rfl
        simp [hid] at hnone
      rw [if_neg hne] at hnone
      have hmem := htight ⟨i⟩ hid hnone
      rw [List.mem_cons, NodeId.mk.injEq] at hmem
      exact hmem.resolve_left (Ne.symm hne)
    · simp only [Arena.place, capacity, Array.size_setIfInBounds]
      omega
    · simp only [Arena.place, liveCount, Array.size_setIfInBounds] at hlive ⊢
      omega
    · simp only [Arena.place, capacity, liveCount, Array.size_setIfInBounds] at hcapacity ⊢
      omega

theorem Fills.alloc (h : Fills a b) (kind : NodeKind) (range : Range) (ids : List NodeId) :
    Fills a (b.alloc kind range ids).1 :=
  (h.place _).of_sameSlots (sameSlots_adopt _ _ _)

mutual

theorem Fills.addTree : (t : Tree) → ∀ {b : Arena}, Fills a b → Fills a (b.addTree t).1
  | .node kind span children, b, h => by
    unfold Arena.addTree
    exact (Fills.addForest children h).alloc kind (rangeOf span) _

theorem Fills.addForest :
    (forest : List Tree) → ∀ {b : Arena}, Fills a b → Fills a (b.addForest forest).1
  | [], b, h => by
    unfold Arena.addForest
    exact h
  | t :: forest, b, h => by
    unfold Arena.addForest
    exact Fills.addForest forest (Fills.addTree t h)

end

/-! ### The trees -/

/-- The live nodes of the arena are the nodes of the trees, one of which is the root's, and the free
list has every empty slot once. -/
structure Consists (a : Arena) (ps : List Planted) : Prop where
  holds : ∀ p ∈ ps, a.Holds none p
  nodup : (ps.flatMap Planted.ids).Nodup
  live : ∀ id, (a.get? id).isSome = true → id ∈ ps.flatMap Planted.ids
  root_mem : ∃ p ∈ ps, p.id = root
  settled : ∀ p ∈ ps, p.Settled
  free_nodup : a.free.Nodup
  mem_free : ∀ id, id ∈ a.free ↔ id.index < a.capacity ∧ a.get? id = none

theorem Consists.perm (h : a.Consists ps) (hperm : ps.Perm qs) : a.Consists qs where
  holds p hp := h.holds p (hperm.mem_iff.mpr hp)
  nodup := (hperm.flatMap_right _).nodup_iff.mp h.nodup
  live id hid := (hperm.flatMap_right _).mem_iff.mp (h.live id hid)
  root_mem := h.root_mem.imp fun _ hp => ⟨hperm.mem_iff.mp hp.1, hp.2⟩
  settled p hp := h.settled p (hperm.mem_iff.mpr hp)
  free_nodup := h.free_nodup
  mem_free := h.mem_free

theorem Consists.exists_mem (h : a.Consists ps) {id : NodeId} {node : Node}
    (hnode : a.get? id = some node) : ∃ p ∈ ps, a.Holds none p ∧ id ∈ p.ids := by
  obtain ⟨p, hp, hid⟩ := List.mem_flatMap.mp (h.live id (by simp [hnode]))
  exact ⟨p, hp, h.holds p hp, hid⟩

theorem Consists.isSome_iff (h : a.Consists ps) {id : NodeId} :
    (a.get? id).isSome = true ↔ id ∈ ps.flatMap Planted.ids := by
  refine ⟨h.live id, fun hid => ?_⟩
  obtain ⟨p, hp, hid⟩ := List.mem_flatMap.mp hid
  exact (h.holds p hp).isSome hid

theorem Holds.parent_mem (h : a.Holds none p) {id up : NodeId} (hid : id ∈ p.ids) {node : Node}
    (hnode : a.get? id = some node) (hup : node.parent = some up) : up ∈ p.ids := by
  obtain ⟨node', hnode', hparent⟩ := h.parent_of_mem hid
  obtain rfl := Option.some.inj (hnode'.symm.trans hnode)
  rcases hparent with ⟨-, hparent⟩ | ⟨up', hup', hparent⟩
  · rw [hparent] at hup
    cases hup
  · obtain rfl := Option.some.inj (hparent.symm.trans hup)
    exact hup'

theorem Consists.sound (h : a.Consists ps) : a.Sound := by
  refine ⟨h.free_nodup, fun id hid => (h.mem_free id).mp hid, fun id node hnode up hup => ?_⟩
  obtain ⟨p, -, hholds, hid⟩ := h.exists_mem hnode
  exact hholds.isSome (hholds.parent_mem hid hnode hup)

theorem Consists.exists_carries (h : a.Consists ps) : ∃ p ∈ ps, a.Carries p := by
  obtain ⟨p, hp, hroot⟩ := h.root_mem
  refine ⟨p, hp, h.sound, h.holds p hp, hroot, nodup_ids_of_mem h.nodup hp, ?_, h.settled p hp⟩
  intro id node hnode up hup hmem
  obtain ⟨q, hq, hholds, hid⟩ := h.exists_mem hnode
  obtain rfl := eq_of_mem_ids h.nodup hp hq hmem (hholds.parent_mem hid hnode hup)
  exact hid

theorem Consists.fills (h : a.Consists ps) : Fills a a := by
  have hfree : a.free.length ≤ a.capacity := by
    have hindex : (a.free.map NodeId.index).Nodup :=
      h.free_nodup.map fun i j hij => by cases i; cases j; simp_all
    have hsub : a.free.map NodeId.index ⊆ List.range a.capacity := by
      intro i hi
      obtain ⟨id, hid, rfl⟩ := List.mem_map.mp hi
      exact List.mem_range.mpr ((h.mem_free id).mp hid).1
    simpa using (List.subperm_of_subset hindex hsub).length_le
  refine ⟨fun id hid hnone => (h.mem_free id).mpr ⟨hid, hnone⟩, hfree, le_refl _, ?_⟩
  simp only [capacity, liveCount]
  omega

/-! ### New trees -/

theorem Consists.grow (h : a.Consists ps) (hgrows : a.Grows b qs) (hsettled : ∀ q ∈ qs, q.Settled)
    (hfills : Fills a b) : b.Consists (ps ++ qs) := by
  have hsame (p : Planted) (hp : p ∈ ps) : ∀ id ∈ p.ids, b.get? id = a.get? id := fun id hid =>
    hgrows.frame id (hgrows.not_mem ((h.holds p hp).isSome hid))
  refine ⟨fun p hp => ?_, ?_, fun id hid => ?_, ?_, fun p hp => ?_, hgrows.sound.nodup,
    fun id => ⟨fun hid => hgrows.sound.empty id hid, fun hid => hfills.tight id hid.1 hid.2⟩⟩
  · rcases List.mem_append.mp hp with hp | hp
    · exact (h.holds p hp).congr (hsame p hp)
    · exact hgrows.holds p hp
  · rw [List.flatMap_append, List.nodup_append']
    refine ⟨h.nodup, hgrows.nodup, fun id hid hid' => ?_⟩
    exact hgrows.not_mem (h.isSome_iff.mpr hid) hid'
  · rw [List.flatMap_append, List.mem_append]
    by_cases hnew : id ∈ qs.flatMap Planted.ids
    · exact .inr hnew
    · rw [hgrows.frame id hnew] at hid
      exact .inl (h.live id hid)
  · obtain ⟨p, hp, hroot⟩ := h.root_mem
    exact ⟨p, List.mem_append_left _ hp, hroot⟩
  · rcases List.mem_append.mp hp with hp | hp
    exacts [h.settled p hp, hsettled p hp]

theorem Consists.addForest (h : a.Consists ps) (forest : List Tree) :
    ∃ qs, (a.addForest forest).1.Consists (ps ++ qs) := by
  obtain ⟨qs, -, hgrows, -, hsettled⟩ := addForest_spec forest h.sound
  exact ⟨qs, h.grow hgrows hsettled (h.fills.addForest forest)⟩

theorem fills_rooted (range : Range) : Fills (rooted range) (rooted range) := by
  refine ⟨fun id hid hnone => ?_, by simp [rooted], le_refl _, by simp [capacity, liveCount, rooted]⟩
  obtain ⟨i⟩ := id
  obtain rfl : i = 0 := by simpa [capacity, rooted] using hid
  cases hnone

theorem fills_ofForest (stop : Coord) (forest : List Tree) :
    Fills (rooted (rangeOf ⟨.zero, stop⟩)) (ofForest stop forest) :=
  ((fills_rooted _).addForest forest).of_sameSlots (sameSlots_attachToRoot _ _)

/-- The arena of a document has no detached nodes, and no slot is free. -/
theorem consists_ofForest (stop : Coord) (forest : List Tree) :
    (∃ p, (ofForest stop forest).Consists [p]) ∧
      (ofForest stop forest).capacity = (ofForest stop forest).liveCount := by
  have hfills := fills_ofForest stop forest
  constructor
  · obtain ⟨ps, hgrows, hofForest, -, hsettled⟩ := exists_grows_ofForest stop forest
    rw [hofForest] at hfills ⊢
    refine ⟨.node root .latex (rangeOf ⟨.zero, stop⟩) ps, fun p hp => ?_, ?_, fun id hid => ?_,
      ⟨_, List.mem_singleton_self _, rfl⟩, fun p hp => ?_, hgrows.sound_attachToRoot.nodup, fun id =>
        ⟨fun hid => hgrows.sound_attachToRoot.empty id hid, fun hid => hfills.tight id hid.1 hid.2⟩⟩
    · rw [List.mem_singleton.mp hp]
      exact hgrows.holds_attachToRoot
    · simpa using ⟨by simpa using hgrows.root_not_mem, hgrows.nodup⟩
    · simpa using hgrows.mem_of_attachToRoot hid
    · rw [List.mem_singleton.mp hp]
      exact .node (settled_rangeOf _).1 (settled_rangeOf _).2 hsettled
  · have hlive := hfills.live_le
    have hcapacity := hfills.capacity_eq
    simp only [capacity, liveCount, rooted] at hlive hcapacity ⊢
    simp only [List.size_toArray, List.length_cons, List.length_nil] at hlive hcapacity
    omega

/-! ### Edits and freeing -/

theorem Consists.applyEdit (h : a.Consists ps) (e : Edit) :
    (a.applyEdit e).Consists (ps.map (Planted.mapRange e.mapRange)) := by
  have hsame := a.sameSlots_applyEdit e
  have hids : (ps.map (Planted.mapRange e.mapRange)).flatMap Planted.ids = ps.flatMap Planted.ids := by
    rw [List.flatMap_map]
    exact List.flatMap_congr fun p _ => p.ids_mapRange e.mapRange
  refine ⟨fun p hp => ?_, hids ▸ h.nodup, fun id hid => ?_, ?_, fun p hp => ?_, h.free_nodup,
    fun id => ?_⟩
  · obtain ⟨q, hq, rfl⟩ := List.mem_map.mp hp
    exact (h.holds q hq).applyEdit e
  · rw [hsame.isSome_eq] at hid
    exact hids ▸ h.live id hid
  · obtain ⟨p, hp, hroot⟩ := h.root_mem
    exact ⟨_, List.mem_map_of_mem hp, (p.id_mapRange _).trans hroot⟩
  · obtain ⟨q, hq, rfl⟩ := List.mem_map.mp hp
    exact (h.settled q hq).mapRange e
  · rw [hsame.eq_none_iff, hsame.capacity_eq]
    exact h.mem_free id

theorem Consists.freeDetached (h : a.Consists ps) : ∃ p ∈ ps, a.freeDetached.Consists [p] := by
  obtain ⟨p, hp, hcarries⟩ := h.exists_carries
  have hfreed := hcarries.freeDetached
  refine ⟨p, hp, fun q hq => ?_, by simpa using hfreed.nodup, fun id hid => ?_,
    ⟨p, by simp, hfreed.root_eq⟩, fun q hq => ?_, hfreed.sound.nodup, fun id =>
      ⟨fun hid => hfreed.sound.empty id hid, fun ⟨hbound, hnone⟩ => ?_⟩⟩
  · rw [List.mem_singleton.mp hq]
    exact hfreed.holds
  · rw [get?_freeDetached] at hid
    split at hid
    · cases hid
    · next hnot =>
      rw [hcarries.mem_detached, not_and, not_not] at hnot
      simpa using hnot hid
  · rw [List.mem_singleton.mp hq]
    exact hfreed.settled
  · rw [get?_freeDetached] at hnone
    have hsize : a.freeDetached.capacity = a.capacity := size_cleared _ _
    refine List.mem_append.mpr ?_
    split at hnone
    · next hmem => exact .inl (List.mem_reverse.mpr hmem)
    · exact .inr ((h.mem_free id).mpr ⟨hsize ▸ hbound, hnone⟩)

/-! ### An exchange -/

theorem Holds.exists_at {parent : Option NodeId} (h : a.Holds parent p) {id : NodeId}
    (hid : id ∈ p.ids) : ∃ kind range children parent',
      (Planted.node id kind range children).Occurs p ∧
        a.Holds parent' (.node id kind range children) := by
  obtain ⟨⟨id', kind, range, children⟩, hocc, hid⟩ := Planted.exists_occurs hid
  obtain rfl : id' = id := hid
  obtain ⟨parent', hholds⟩ := h.exists_holds_occurs hocc
  exact ⟨kind, range, children, parent', hocc, hholds⟩

theorem Holds.exists_children {parent : Option NodeId} (h : a.Holds parent p) {up : NodeId}
    (hup : up ∈ p.ids) {node : Node} (hnode : a.get? up = some node) :
    ∃ children : List Planted, (Planted.node up node.kind node.range children).Occurs p ∧
      node.children = children.map Planted.id ∧ ∀ c ∈ children, a.Holds (some up) c := by
  obtain ⟨kind, range, children, parent', hocc, hholds⟩ := h.exists_at hup
  cases hholds with
  | node hget hchildren =>
    obtain rfl := Option.some.inj (hnode.symm.trans hget)
    exact ⟨children, hocc, rfl, hchildren⟩

theorem Holds.exists_child {parent : Option NodeId} (h : a.Holds parent p) (hnodup : p.ids.Nodup)
    {up : NodeId} (hup : up ∈ p.ids) {node : Node} (hnode : a.get? up = some node) {id : NodeId}
    (hid : id ∈ node.children) :
    ∃ old : Planted, old.id = id ∧ old.Occurs p ∧ up ∉ old.ids ∧ a.Holds (some up) old := by
  obtain ⟨children, hocc, heq, hchildren⟩ := h.exists_children hup hnode
  rw [heq] at hid
  obtain ⟨old, hold, rfl⟩ := List.mem_map.mp hid
  have hnodup := hocc.nodup hnodup
  rw [Planted.ids_node, List.nodup_cons] at hnodup
  refine ⟨old, rfl, (Planted.Occurs.deeper hold .top).trans hocc, ?_, hchildren old hold⟩
  exact fun hmem => hnodup.1 (List.mem_flatMap.mpr ⟨old, hold, hmem⟩)

/-- A node that has no parent is the top of one of the trees. -/
theorem Consists.exists_top (h : a.Consists ps) {id : NodeId} {node : Node}
    (hnode : a.get? id = some node) (hparent : node.parent = none) : ∃ p ∈ ps, p.id = id := by
  obtain ⟨p, hp, hholds, hid⟩ := h.exists_mem hnode
  obtain ⟨node', hnode', htop⟩ := hholds.parent_of_mem hid
  obtain rfl := Option.some.inj (hnode'.symm.trans hnode)
  rcases htop with ⟨rfl, -⟩ | ⟨up, -, hup⟩
  · exact ⟨p, hp, rfl⟩
  · rw [hparent] at hup
    cases hup

theorem replaceChild?_guards {up id new : NodeId} (h : a.replaceChild? up id new = some b) :
    (∃ node, a.get? up = some node ∧ id ∈ node.children) ∧
      (∃ node, a.get? new = some node ∧ node.parent = none) ∧ new ≠ root ∧
      up ∉ a.descendants new := by
  unfold Arena.replaceChild? at h
  simp only at h
  split at h
  · next hguards =>
    simp only [Bool.and_eq_true, Option.any_eq_true, List.contains_eq_mem, decide_eq_true_eq,
      Option.isNone_iff_eq_none, bne_iff_ne, ne_eq, Bool.not_eq_true', decide_eq_false_iff_not]
      at hguards
    obtain ⟨⟨⟨hchild, hdetached⟩, hroot⟩, hnot⟩ := hguards
    exact ⟨hchild, hdetached, hroot, hnot⟩
  · cases h

theorem Holds.descendants_eq {parent : Option NodeId} (h : a.Holds parent p) (hnodup : p.ids.Nodup) :
    a.descendants p.id = p.ids :=
  descendantsWithin_of_holds h (length_le_capacity hnodup fun _ hid => h.isSome hid)

theorem exists_perm_cons_cons {α : Type} {l : List α} {x y : α} (hx : x ∈ l) (hy : y ∈ l)
    (hne : y ≠ x) : ∃ rest, l.Perm (x :: y :: rest) := by
  obtain ⟨before, after, rfl⟩ := List.append_of_mem hx
  have hy : y ∈ before ++ after := by simpa [hne] using hy
  obtain ⟨before', after', heq⟩ := List.append_of_mem hy
  refine ⟨before' ++ after', List.perm_middle.trans ?_⟩
  rw [heq]
  exact List.perm_middle.cons x

/-- A tree of the first of an arena's trees changes places with the second one. -/
theorem Consists.exchange {rest : List Planted} {old p' : Planted} {up : NodeId}
    (h : a.Consists (p :: q :: rest)) (hocc : old.Occurs p) (hup : up ∈ p.ids)
    (hupold : up ∉ old.ids) (hold : a.Holds (some up) old) (hroot : q.id ≠ root)
    (hgraft : Grafted old q p p') (hreplace : a.replaceChild? up old.id q.id = some b) :
    b.Consists (p' :: old :: rest) := by
  have hsame := sameSlots_replaceChild? hreplace
  have hnodup := h.nodup
  simp only [List.flatMap_cons, List.nodup_append'] at hnodup
  obtain ⟨hpnodup, ⟨hqnodup, -, hqrest⟩, hprest⟩ := hnodup
  rw [List.disjoint_append_right] at hprest
  obtain ⟨hpq, hprest⟩ := hprest
  have holdids := hocc.ids_subset
  have hexchanges : Exchanges a b up old q :=
    exchanges_of_replaceChild? hreplace (h.holds q (by simp)) hqnodup hupold (hpq hup)
      (hpq (holdids _ old.id_mem_ids))
  have hp : p'.id = p.id ∧ b.Holds none p' := by
    obtain ⟨children, hget⟩ := hold.get?
    rcases hexchanges.holds ⟨_, hget, rfl⟩ hgraft (h.holds p (by simp)) hpnodup
      (fun id hid => hpq hid) with ⟨rfl, -⟩ | ⟨-, hp⟩
    exacts [absurd hup hupold, hp]
  have hout : b.Holds none old := by
    obtain ⟨-, -, -, hget⟩ := Arena.get?_replaceChild? hreplace
    have hupne : up ≠ old.id := by
      rintro rfl
      exact hupold old.id_mem_ids
    have hupq : up ≠ q.id := fun heq => hpq hup (heq ▸ q.id_mem_ids)
    have holdq : old.id ≠ q.id := fun heq => hpq (holdids _ old.id_mem_ids) (heq ▸ q.id_mem_ids)
    have hget := hget hupne hupq holdq
    refine hold.reparent (hocc.nodup hpnodup) ?_ fun i hi hne => ?_
    · rw [hget, if_neg holdq, if_pos rfl]
    · have hiq : i ≠ q.id := fun heq => hpq (holdids i hi) (heq ▸ q.id_mem_ids)
      have hiup : i ≠ up := fun heq => hupold (heq ▸ hi)
      rw [hget, if_neg hiq, if_neg hne, if_neg hiup]
  have hrest : ∀ r ∈ rest, b.Holds none r := by
    intro r hr
    refine (h.holds r (by simp [hr])).congr fun i hi => ?_
    have hi : i ∈ rest.flatMap Planted.ids := List.mem_flatMap.mpr ⟨r, hr, hi⟩
    refine hexchanges.frame i ?_ (fun hmem => hprest (holdids i hmem) hi) fun hmem => hqrest hmem hi
    rintro rfl
    exact hprest hup hi
  have hids : ((p' :: old :: rest).flatMap Planted.ids).Perm
      ((p :: q :: rest).flatMap Planted.ids) := by
    simp only [List.flatMap_cons, ← List.append_assoc]
    exact hgraft.perm_ids.append_right _
  refine ⟨?_, hids.nodup_iff.mpr h.nodup, fun id hid => ?_, ?_, ?_, hsame.free_eq ▸ h.free_nodup,
    fun id => ?_⟩
  · simpa using ⟨hp.2, hout, hrest⟩
  · rw [hsame.isSome_eq] at hid
    exact hids.mem_iff.mpr (h.live id hid)
  · have htop := h.root_mem
    simp only [List.mem_cons, exists_eq_or_imp] at htop ⊢
    rcases htop with htop | htop | htop
    · exact .inl (hp.1.trans htop)
    · exact absurd htop hroot
    · exact .inr (.inr htop)
  · have hsettled := h.settled
    simp only [List.mem_cons, forall_eq_or_imp] at hsettled ⊢
    exact ⟨hgraft.settled hsettled.1 hsettled.2.1, hocc.settled hsettled.1, hsettled.2.2⟩
  · rw [hsame.free_eq, hsame.eq_none_iff, hsame.capacity_eq]
    exact h.mem_free id

/-- The exchange of a child, in whichever tree it is: the child's tree becomes one of the trees, and
the tree that was detached is no longer one. -/
theorem Consists.replaceChild? (h : a.Consists ps) {up id new : NodeId}
    (hreplace : a.replaceChild? up id new = some b) : ∃ qs, b.Consists qs := by
  obtain ⟨⟨node, hnode, hchild⟩, ⟨top, htop, hdetached⟩, hroot, hnot⟩ :=
    replaceChild?_guards hreplace
  obtain ⟨p, hp, hholds, hup⟩ := h.exists_mem hnode
  obtain ⟨q, hq, rfl⟩ := h.exists_top htop hdetached
  obtain ⟨old, rfl, hocc, hupold, hold⟩ :=
    hholds.exists_child (nodup_ids_of_mem h.nodup hp) hup hnode hchild
  rw [(h.holds q hq).descendants_eq (nodup_ids_of_mem h.nodup hq)] at hnot
  have hne : q ≠ p := fun heq => hnot (heq ▸ hup)
  obtain ⟨rest, hrest⟩ := exists_perm_cons_cons hp hq hne
  obtain ⟨p', hgraft⟩ := hocc.exists_grafted_same q
  exact ⟨_, (h.perm hrest).exchange hocc hup hupold hold hroot hgraft hreplace⟩

end Arena

end TexAnchor
