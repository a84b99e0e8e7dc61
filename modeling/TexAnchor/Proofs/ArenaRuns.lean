import Mathlib.Logic.Relation
import TexAnchor.Proofs.Agreement
import TexAnchor.Proofs.Groves

/-! # Runs of an arena

An arena starts as that of a text that was read.  After that fragments are read into it, whether they
are markup or not, edits move its ranges, nodes are exchanged and detached nodes are freed
(`Arena.Step`).

Parents and children are stored twice, and freed slots are used again.  `Arena.WellFormed` says that
the two agree, that no chain of parents comes back, and that live nodes and free list are kept apart.
Every arena of a run is well-formed (`Consists.wellFormed`), and it never has more slots than it once
had live nodes (`Consists.step`).  The arenas of reachable documents are arenas of runs
(`Document.Reachable.exists_reached`). -/

namespace TexAnchor

open Text (Coord)

namespace Arena

open Relation (TransGen ReflTransGen)

variable {a b : Arena} {p q : Planted} {ps : List Planted} {id up : NodeId}

/-- The live node `id` knows `up` as its parent. -/
def IsParent (a : Arena) (up id : NodeId) : Prop :=
  ∃ node, a.get? id = some node ∧ node.parent = some up

/-- The nodes are trees, one of them below the root in slot zero, and the free list is the list of
empty slots. -/
structure WellFormed (a : Arena) : Prop where
  /-- The root is live in the first slot and has no parent. -/
  root_first : ∃ node, a.slots[0]? = some (some node) ∧ node.parent = none
  /-- Whoever a live node lists is live and knows it as its parent, and nobody else does. -/
  mem_children_iff : ∀ up node, a.get? up = some node →
    ∀ id, id ∈ node.children ↔ a.IsParent up id
  nodup_children : ∀ up node, a.get? up = some node → node.children.Nodup
  parent_live : ∀ up id, a.IsParent up id → (a.get? up).isSome = true
  acyclic : ∀ id, ¬ TransGen a.IsParent id id
  nodup_free : a.free.Nodup
  mem_free_iff : ∀ id, id ∈ a.free ↔ id.index < a.capacity ∧ a.get? id = none
  alloc_fresh : ∀ kind range children, a.get? (a.alloc kind range children).2 = none
  liveCount_eq : a.liveCount = a.slots.countP Option.isSome
  /-- The nodes below a live node are listed once each, however deep they are. -/
  mem_descendants_iff : ∀ up id, id ∈ a.descendants up ↔
    (a.get? up).isSome = true ∧ ReflTransGen a.IsParent up id
  nodup_descendants : ∀ up, (a.descendants up).Nodup
  isAttached_iff : ∀ id, a.isAttached id = true ↔ id ∈ a.descendants root
  /-- Exactly the live nodes outside the tree are freed. -/
  mem_detached_iff : ∀ id, id ∈ a.detached ↔
    (a.get? id).isSome = true ∧ id ∉ a.descendants root
  get?_freeDetached : ∀ id, a.freeDetached.get? id =
    if id ∈ a.descendants root then a.get? id else none
  /-- Nothing is left to be freed a second time. -/
  detached_freeDetached : a.freeDetached.detached = []

/-! ### Parents and children -/

theorem Holds.listed {parent : Option NodeId} (h : a.Holds parent p) (hid : id ∈ p.ids)
    {child : Node} (hchild : a.get? id = some child) :
    (id = p.id ∧ child.parent = parent) ∨
      ∃ up node, a.get? up = some node ∧ child.parent = some up ∧ id ∈ node.children := by
  induction h with
  | @node parent top kind range children hget hchildren ih =>
    rw [Planted.ids_node, List.mem_cons] at hid
    rcases hid with rfl | hid
    · obtain rfl := Option.some.inj (hchild.symm.trans hget)
      exact .inl ⟨rfl, rfl⟩
    · obtain ⟨c, hc, hid⟩ := List.mem_flatMap.mp hid
      rcases ih c hc hid with ⟨rfl, hparent⟩ | hlisted
      · exact .inr ⟨top, _, hget, hparent, List.mem_map_of_mem hc⟩
      · exact .inr hlisted

theorem Consists.mem_children_iff (h : a.Consists ps) {node : Node} (hnode : a.get? up = some node) :
    id ∈ node.children ↔ a.IsParent up id := by
  constructor
  · intro hid
    obtain ⟨p, hp, hholds, hup⟩ := h.exists_mem hnode
    obtain ⟨old, rfl, -, -, hold⟩ :=
      hholds.exists_child (nodup_ids_of_mem h.nodup hp) hup hnode hid
    obtain ⟨children, hget⟩ := hold.get?
    exact ⟨_, hget, rfl⟩
  · rintro ⟨child, hchild, hparent⟩
    obtain ⟨p, -, hholds, hid⟩ := h.exists_mem hchild
    rcases hholds.listed hid hchild with ⟨-, htop⟩ | ⟨up', node', hnode', hparent', hlisted⟩
    · rw [htop] at hparent
      cases hparent
    · obtain rfl : up' = up := Option.some.inj (hparent'.symm.trans hparent)
      obtain rfl := Option.some.inj (hnode'.symm.trans hnode)
      exact hlisted

theorem Consists.nodup_children (h : a.Consists ps) {node : Node} (hnode : a.get? up = some node) :
    node.children.Nodup := by
  obtain ⟨p, hp, hholds, hup⟩ := h.exists_mem hnode
  obtain ⟨children, hocc, heq, -⟩ := hholds.exists_children hup hnode
  have hnodup := hocc.nodup (nodup_ids_of_mem h.nodup hp)
  rw [Planted.ids_node, List.nodup_cons] at hnodup
  rw [heq]
  exact nodup_map_id hnodup.2

theorem Consists.exists_tree (h : a.Consists ps) {node : Node} (hnode : a.get? up = some node) :
    ∃ children : List Planted, node.children = children.map Planted.id ∧
      (up :: children.flatMap Planted.ids).Nodup ∧ a.descendants up = up :: children.flatMap Planted.ids ∧
      ∀ c ∈ children, a.Holds (some up) c ∧ a.descendants c.id = c.ids := by
  obtain ⟨p, hp, hholds, hup⟩ := h.exists_mem hnode
  obtain ⟨kind, range, children, parent', hocc, hholds⟩ := hholds.exists_at hup
  have hnodup := hocc.nodup (nodup_ids_of_mem h.nodup hp)
  have hall := hholds.descendants_eq hnodup
  cases hholds with
  | node hget hchildren =>
    obtain rfl := Option.some.inj (hnode.symm.trans hget)
    rw [Planted.ids_node] at hall hnodup
    refine ⟨children, rfl, hnodup, hall, fun c hc => ⟨hchildren c hc, ?_⟩⟩
    exact (hchildren c hc).descendants_eq ((List.nodup_flatMap.mp (List.nodup_cons.mp hnodup).2).1 c hc)

theorem Consists.isParent_live (h : a.Consists ps) (hup : a.IsParent up id) :
    ∃ node, a.get? up = some node := by
  obtain ⟨child, hchild, hparent⟩ := hup
  exact Option.isSome_iff_exists.mp (h.sound.parent_live id child hchild up hparent)

theorem Consists.length_descendants_lt (h : a.Consists ps) (hup : a.IsParent up id) :
    (a.descendants id).length < (a.descendants up).length := by
  obtain ⟨node, hnode⟩ := h.isParent_live hup
  have hid := (h.mem_children_iff hnode).mpr hup
  obtain ⟨children, hchildren, -, hall, hbelow⟩ := h.exists_tree hnode
  rw [hchildren] at hid
  obtain ⟨c, hc, rfl⟩ := List.mem_map.mp hid
  rw [(hbelow c hc).2, hall, List.length_cons]
  have hle : c.ids.length ≤ (children.flatMap Planted.ids).length :=
    (List.sublist_flatten_of_mem (List.mem_map_of_mem hc)).length_le
  omega

theorem Consists.acyclic (h : a.Consists ps) (id : NodeId) : ¬ TransGen a.IsParent id id := by
  have hlt {up id : NodeId} (hchain : TransGen a.IsParent up id) :
      (a.descendants id).length < (a.descendants up).length := by
    induction hchain with
    | single hup => exact h.length_descendants_lt hup
    | tail _ hup ih => exact (h.length_descendants_lt hup).trans ih
  exact fun hchain => Nat.lt_irrefl _ (hlt hchain)

/-! ### Below a node -/

theorem Holds.reflTransGen {parent : Option NodeId} (h : a.Holds parent p) (hid : id ∈ p.ids) :
    ReflTransGen a.IsParent p.id id := by
  induction h with
  | @node parent top kind range children hget hchildren ih =>
    rw [Planted.ids_node, List.mem_cons] at hid
    rcases hid with rfl | hid
    · exact .refl
    · obtain ⟨c, hc, hid⟩ := List.mem_flatMap.mp hid
      obtain ⟨below, hchild⟩ := (hchildren c hc).get?
      exact .head ⟨_, hchild, rfl⟩ (ih c hc hid)

theorem Consists.mem_descendants_iff (h : a.Consists ps) :
    id ∈ a.descendants up ↔ (a.get? up).isSome = true ∧ ReflTransGen a.IsParent up id := by
  cases hnode : a.get? up with
  | none => simp [descendants_eq_nil hnode]
  | some node =>
    obtain ⟨p, hp, hholds, hup⟩ := h.exists_mem hnode
    obtain ⟨kind, range, children, parent', hocc, hholds⟩ := hholds.exists_at hup
    have hall := hholds.descendants_eq (hocc.nodup (nodup_ids_of_mem h.nodup hp))
    rw [Planted.id_node] at hall
    rw [hall]
    constructor
    · exact fun hid => ⟨rfl, hholds.reflTransGen hid⟩
    · rintro ⟨-, hchain⟩
      induction hchain with
      | refl => simp
      | @tail id id' _ hstep ih =>
        obtain ⟨node', hnode'⟩ := h.isParent_live hstep
        have hlisted := (h.mem_children_iff hnode').mpr hstep
        obtain ⟨old, rfl, hocc', -, -⟩ := hholds.exists_child
          (hocc.nodup (nodup_ids_of_mem h.nodup hp)) ih hnode' hlisted
        exact hocc'.ids_subset _ old.id_mem_ids

theorem Consists.nodup_descendants (h : a.Consists ps) (up : NodeId) : (a.descendants up).Nodup := by
  cases hnode : a.get? up with
  | none => simp [descendants_eq_nil hnode]
  | some node =>
    obtain ⟨children, -, hnodup, hall, -⟩ := h.exists_tree hnode
    exact hall ▸ hnodup

/-! ### Live nodes and slots -/

theorem toList_slots (a : Arena) :
    a.slots.toList = (List.range a.capacity).map fun i => a.get? ⟨i⟩ := by
  refine List.ext_getElem (by simp [capacity]) fun i hi _ => ?_
  have hi : i < a.slots.size := by simpa using hi
  simp [get?, hi]

theorem Consists.liveCount_eq (h : a.Consists ps) : a.liveCount = a.slots.countP Option.isSome := by
  have hfree : (a.free.map NodeId.index).Perm
      ((List.range a.capacity).filter fun i => !(a.get? ⟨i⟩).isSome) := by
    refine (List.perm_ext_iff_of_nodup ?_ (List.nodup_range.filter _)).mpr fun i => ?_
    · exact h.free_nodup.map fun i j hij => by cases i; cases j; simp_all
    · rw [List.mem_map, List.mem_filter, List.mem_range]
      have hmem := h.mem_free ⟨i⟩
      constructor
      · rintro ⟨id, hid, rfl⟩
        simpa using hmem.mp hid
      · intro hi
        exact ⟨⟨i⟩, hmem.mpr (by simpa using hi), rfl⟩
  have hlength := hfree.length_eq
  have hsum := List.length_eq_countP_add_countP (fun i => (a.get? ⟨i⟩).isSome) (l := List.range a.capacity)
  rw [List.length_map, ← List.countP_eq_length_filter] at hlength
  rw [← Array.countP_toList, toList_slots, List.countP_map, liveCount]
  simp only [List.length_range, capacity, Function.comp_def] at hsum hlength ⊢
  simp only [Bool.not_eq_true, Bool.decide_eq_false] at hsum
  omega

/-! ### Well-formedness -/

theorem Consists.wellFormed (h : a.Consists ps) : a.WellFormed := by
  obtain ⟨p, hp, hcarries⟩ := h.exists_carries
  have hroot := hcarries.descendants_root
  obtain ⟨children, htop⟩ := hcarries.holds.get?
  rw [hcarries.root_eq] at htop
  have hfreed := hcarries.freeDetached
  refine {
    root_first := ⟨_, by simpa [get?, root, Option.join_eq_some_iff] using htop, rfl⟩
    mem_children_iff := fun up node hnode id => h.mem_children_iff hnode
    nodup_children := fun up node hnode => h.nodup_children hnode
    parent_live := fun up id hup => Option.isSome_iff_exists.mpr (h.isParent_live hup)
    acyclic := h.acyclic
    nodup_free := h.free_nodup
    mem_free_iff := h.mem_free
    alloc_fresh := fun kind range children => (place_spec h.sound _).1
    liveCount_eq := h.liveCount_eq
    mem_descendants_iff := fun up id => h.mem_descendants_iff
    nodup_descendants := h.nodup_descendants
    isAttached_iff := fun id => hroot ▸ hcarries.isAttached_iff
    mem_detached_iff := fun id => hroot ▸ hcarries.mem_detached id
    get?_freeDetached := fun id => ?_
    detached_freeDetached := ?_ }
  · rw [get?_freeDetached, hroot]
    by_cases hid : id ∈ p.ids
    · rw [if_pos hid, if_neg fun hmem => ((hcarries.mem_detached id).mp hmem).2 hid]
    · rw [if_neg hid]
      split
      · rfl
      · next hnot =>
        rw [hcarries.mem_detached, not_and, not_not] at hnot
        exact Option.not_isSome_iff_eq_none.mp fun hlive => hid (hnot hlive)
  · refine List.eq_nil_iff_forall_not_mem.mpr fun id hid => ?_
    obtain ⟨hlive, hnot⟩ := (hfreed.mem_detached id).mp hid
    rw [get?_freeDetached] at hlive
    split at hlive
    · cases hlive
    · next hnot' => exact hnot' ((hcarries.mem_detached id).mpr ⟨hlive, hnot⟩)

/-! ### Steps and runs -/

/-- What is done to an arena. -/
inductive Step : Arena → Arena → Prop
  /-- A fragment is read, and stays as far as it was finished if it is not markup. -/
  | fragment (a : Arena) (origin : Coord) (text : List Char) : Step a (a.addFragment origin text).1
  | edit (a : Arena) (e : Edit) : Step a (a.applyEdit e)
  | swap {a b : Arena} {up id new : NodeId} : a.replaceChild? up id new = some b → Step a b
  | free (a : Arena) : Step a a.freeDetached

/-- The arena is come to in a run that begins with a parse, and `counts` are the numbers of live
nodes on the way, the latest first. -/
inductive Reached : Arena → List Nat → Prop
  | parse {text : List Char} {a : Arena} : Arena.parse text = .ok a → Reached a [a.liveCount]
  | step {a b : Arena} {counts : List Nat} :
    Reached a counts → a.Step b → Reached b (b.liveCount :: counts)

theorem Consists.addFragment (h : a.Consists ps) (origin : Coord) (text : List Char) :
    (∃ qs, (a.addFragment origin text).1.Consists qs) ∧ Fills a (a.addFragment origin text).1 := by
  unfold Arena.addFragment
  split
  · exact ⟨(h.addForest _).imp' _ fun _ hqs => hqs, h.fills.addForest _⟩
  · exact ⟨(h.addForest _).imp' _ fun _ hqs => hqs, h.fills.addForest _⟩

/-- A step leaves an arena of trees, and makes a slot only if it has a live node for every slot. -/
theorem Consists.step (h : a.Consists ps) (hstep : a.Step b) :
    (∃ qs, b.Consists qs) ∧ b.capacity = max a.capacity b.liveCount := by
  have hle : a.liveCount ≤ a.capacity := Nat.sub_le _ _
  cases hstep with
  | fragment origin text =>
    obtain ⟨hqs, hfills⟩ := h.addFragment origin text
    exact ⟨hqs, hfills.capacity_eq⟩
  | edit e =>
    have hsame := a.sameSlots_applyEdit e
    refine ⟨⟨_, h.applyEdit e⟩, ?_⟩
    rw [hsame.capacity_eq, hsame.liveCount_eq, max_eq_left hle]
  | swap hreplace =>
    have hsame := sameSlots_replaceChild? hreplace
    refine ⟨h.replaceChild? hreplace, ?_⟩
    rw [hsame.capacity_eq, hsame.liveCount_eq, max_eq_left hle]
  | free =>
    obtain ⟨p, -, hfreed⟩ := h.freeDetached
    have hcapacity : a.freeDetached.capacity = a.capacity := size_cleared _ _
    have hle' : a.freeDetached.liveCount ≤ a.freeDetached.capacity := Nat.sub_le _ _
    exact ⟨⟨_, hfreed⟩, by omega⟩

theorem Reached.exists_consists {counts : List Nat} (h : Reached a counts) :
    (∃ ps, a.Consists ps) ∧ counts.max? = some a.capacity := by
  induction h with
  | @parse text a hparse =>
    unfold Arena.parse at hparse
    split at hparse
    · obtain rfl := Except.ok.inj hparse
      obtain ⟨⟨p, hp⟩, hcapacity⟩ := consists_ofForest (Coord.zero.advance text) ‹_›
      exact ⟨⟨_, hp⟩, by rw [hcapacity]; rfl⟩
    · cases hparse
  | @step a b counts _ hstep ih =>
    obtain ⟨⟨ps, hps⟩, hmax⟩ := ih
    obtain ⟨hqs, hcapacity⟩ := hps.step hstep
    refine ⟨hqs, ?_⟩
    rw [List.max?_cons, hmax, hcapacity, Option.elim_some, max_comm]

/-- Every arena of a run is well-formed, and it has as many slots as it ever had live nodes. -/
theorem Reached.wellFormed_and_max?_eq {counts : List Nat} (h : Reached a counts) :
    a.WellFormed ∧ counts.max? = some a.capacity := by
  obtain ⟨⟨ps, hps⟩, hmax⟩ := h.exists_consists
  exact ⟨hps.wellFormed, hmax⟩

/-- The arena of a letter, a space and a group. -/
def letterAndGroup : Arena :=
  .ofForest ⟨0, 5⟩
    [.leaf (.text "a") ⟨0, 0⟩ ⟨0, 1⟩, .leaf (.whitespace 0) ⟨0, 1⟩ ⟨0, 2⟩,
      .node .group ⟨⟨0, 2⟩, ⟨0, 5⟩⟩ [.leaf (.text "b") ⟨0, 3⟩ ⟨0, 4⟩]]

/-- The group is exchanged, a fragment that is no markup is read, and what is detached is freed. -/
theorem wellFormed_and_max?_eq_group : ∃ a counts, Reached a counts ∧
    (a.WellFormed ∧ counts.max? = some a.capacity) ∧ counts = [5, 8, 7, 7, 5] := by
  have hparse : Arena.parse ['a', ' ', '{', 'b', '}'] = .ok letterAndGroup := rfl
  have hswap : (letterAndGroup.addFragment ⟨0, 2⟩ ['{', 'c', '}']).1.replaceChild? root ⟨4⟩ ⟨6⟩ =
      some (((letterAndGroup.addFragment ⟨0, 2⟩ ['{', 'c', '}']).1.replaceChild? root ⟨4⟩ ⟨6⟩).getD
        default) := by decide +kernel
  have hrun := ((((Reached.parse hparse).step (.fragment _ ⟨0, 2⟩ ['{', 'c', '}'])).step
    (.swap hswap)).step (.fragment _ ⟨0, 2⟩ ['$', 'd', '$', '{'])).step (.free _)
  exact ⟨_, _, hrun, hrun.wellFormed_and_max?_eq, by decide +kernel⟩

end Arena

namespace Document

variable {d : Document}

theorem exists_reached_of_parse {path : Path} {text : List Char} (h : parse path text = .ok d) :
    ∃ counts, d.arena.Reached counts := by
  unfold parse at h
  cases hparse : Arena.parse text with
  | ok a =>
    rw [hparse] at h
    obtain rfl := Except.ok.inj h
    exact ⟨_, .parse hparse⟩
  | error error =>
    rw [hparse] at h
    cases h

/-- A replacement takes the arena along a run, however it ends. -/
theorem exists_reached_replaceNode {counts : List Nat} (h : d.arena.Reached counts) (id : NodeId)
    (text : List Char) : ∃ counts', (d.replaceNode id text).1.arena.Reached counts' := by
  rcases hreplaced : d.replaceNode id text with ⟨d', outcome⟩
  cases replaces_of_replaceNode hreplaced with
  | unreadRoot | unknown | outside => exact ⟨counts, h⟩
  | readRoot _ hfresh | reread _ _ _ _ hfresh => exact exists_reached_of_parse hfresh
  | @exchanged node _ up edited t exchanged _ _ _ _ hedited _ hread _ _ hreplace =>
    rw [applyEdit_eq_ok hedited] at hreplace
    have hgrown := (h.step (.edit _ ⟨node.range, text⟩)).step (.fragment _ node.range.start.coord text)
    rw [Arena.addFragment_eq hread] at hgrown
    exact ⟨_, hgrown.step (.swap hreplace)⟩
  | unread _ _ _ hedited =>
    rw [applyEdit_eq_ok hedited]
    exact ⟨_, (h.step (.edit _ _)).step (.fragment _ _ _)⟩

/-- Whatever is done to a document takes its arena along a run. -/
theorem Reachable.exists_reached (h : d.Reachable) : ∃ counts, d.arena.Reached counts := by
  induction h with
  | parse hparse => exact exists_reached_of_parse hparse
  | setText _ hparse => exact exists_reached_of_parse hparse
  | reparse _ hparse => exact exists_reached_of_parse hparse
  | applyEdit _ hedit ih =>
    obtain ⟨counts, hrun⟩ := ih
    rw [applyEdit_eq_ok hedit]
    exact ⟨_, hrun.step (.edit _ _)⟩
  | replaceNode id text _ ih =>
    obtain ⟨counts, hrun⟩ := ih
    exact exists_reached_replaceNode hrun id text
  | freeDetached _ ih =>
    obtain ⟨counts, hrun⟩ := ih
    exact ⟨_, hrun.step (.free _)⟩

end Document

end TexAnchor
