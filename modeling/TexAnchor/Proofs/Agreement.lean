import TexAnchor.Proofs.Carrying
import TexAnchor.Proofs.Outline
import TexAnchor.Document.Replace

/-! # Documents in step with their text

`Document.tree?` reads off the tree of a document at the effective coordinates of its nodes, and
`Document.outline` lists what its nodes are and where they start.  A document is `Document.InStep` if
its tree is the one that a fresh parse of its text has.

The documents that arise from parsing are `Document.Reachable`, and every reachable document carries
a tree (`Document.Reachable.exists_carries`).  What a replacement can do is said once, by
`Document.Replaces`; that it regrows the tree is `Document.exists_regrown`. -/

namespace TexAnchor

open Text (Coord)

namespace Arena

/-! ### Reading off the tree -/

/-- The tree below a node to a depth, as a list that is empty if the node is not live. -/
def treesWithin (a : Arena) : Nat → NodeId → List Tree
  | 0, _ => []
  | depth + 1, id =>
    match a.get? id with
    | none => []
    | some node =>
      [.node node.kind ⟨node.range.start.coord, node.range.stop.coord⟩
        (node.children.flatMap (a.treesWithin depth))]

/-- The tree below the root. -/
def tree? (a : Arena) : Option Tree :=
  (a.treesWithin a.capacity root).head?

variable {a : Arena} {p : Planted}

theorem treesWithin_of_holds {parent : Option NodeId} (h : a.Holds parent p) {depth : Nat}
    (hdepth : p.ids.length ≤ depth) : a.treesWithin depth p.id = [p.tree] := by
  induction h generalizing depth with
  | @node parent id kind range children hget _ ih =>
    rw [Planted.ids_node] at hdepth
    obtain ⟨depth, rfl⟩ : ∃ n, depth = n + 1 := ⟨depth - 1, by simp at hdepth; omega⟩
    have hchildren : children.flatMap (fun c => a.treesWithin depth c.id) =
        children.flatMap fun c => [c.tree] := by
      refine List.flatMap_congr fun c hc => ih c hc ?_
      have hle : c.ids.length ≤ (children.flatMap Planted.ids).length :=
        (List.sublist_flatten_of_mem (List.mem_map_of_mem hc)).length_le
      simp only [List.length_cons] at hdepth
      omega
    rw [Planted.id_node, treesWithin, hget, Planted.tree_node]
    simp only [List.flatMap_map, hchildren]
    rw [List.map_eq_flatMap]

theorem Carries.tree? (h : a.Carries p) : a.tree? = some p.tree := by
  rw [Arena.tree?, ← h.root_eq, treesWithin_of_holds h.holds h.length_ids_le]
  rfl

theorem filterMap_view?_ids {parent : Option NodeId} (h : a.Holds parent p) :
    (p.ids.filterMap a.view?).map (fun v => (v.kind, v.range.start.coord)) = p.tree.outline := by
  induction h with
  | @node parent id kind range children hget _ ih =>
    rw [Planted.ids_node, Planted.tree_node, Tree.outline, Tree.outlines_eq, List.filterMap_cons,
      view?, hget, List.filterMap_flatMap]
    simp only [Option.map_some, List.map_cons, List.map_flatMap, List.flatMap_map]
    exact congrArg _ (List.flatMap_congr ih)

theorem Carries.exists_occurs {id : NodeId} {node : Node} (h : a.Carries p) (hid : id ∈ p.ids)
    (hnode : a.get? id = some node) :
    ∃ old : Planted, old.Occurs p ∧ old.id = id ∧ old.kind = node.kind ∧ old.range = node.range := by
  obtain ⟨old, hocc, rfl⟩ := Planted.exists_occurs hid
  obtain ⟨parent, hold⟩ := h.holds.exists_holds_occurs hocc
  obtain ⟨children, hget⟩ := hold.get?
  obtain rfl := Option.some.inj (hget.symm.trans hnode)
  exact ⟨old, hocc, rfl, rfl, rfl⟩

theorem addFragment_eq {origin : Coord} {text : List Char} {t : Tree}
    (h : Grammar.readFrom origin text = .ok [t]) :
    a.addFragment origin text = ((a.addTree t).1, .ok [(a.addTree t).2]) := by
  unfold addFragment
  rw [h]
  rfl

/-- An edit, the planting of a new tree and its exchange for an old one regrow the tree. -/
theorem Carries.exists_exchanged {exchanged : Arena} {id up : NodeId} {node : Node} {t : Tree}
    (h : a.Carries p) (e : Edit) (hid : id ∈ p.ids) (hnode : a.get? id = some node)
    (hup : node.parent = some up)
    (hreplace : ((a.applyEdit e).addTree t).1.replaceChild? up id ((a.applyEdit e).addTree t).2 =
      some exchanged) :
    ∃ old new p' : Planted, old.Occurs p ∧ old.id = id ∧ old.kind = node.kind ∧
      old.range = node.range ∧ new.id = ((a.applyEdit e).addTree t).2 ∧ new.tree = t ∧
      exchanged.Carries p' ∧
      Planted.Grafted (old.mapRange e.mapRange) new (p.mapRange e.mapRange) p' ∧
      Tree.Regrown e.mapCoord old.tree t p.tree p'.tree := by
  obtain ⟨old, hocc, rfl, hkind, hrange⟩ := h.exists_occurs hid hnode
  obtain ⟨new, hnew, hgrows, rfl, hsettled⟩ := addTree_spec t (h.applyEdit e).sound
  obtain ⟨p', hgraft, hregrown⟩ := hocc.exists_grafted h.settled e new
  refine ⟨old, new, p', hocc, rfl, hkind, hrange, hnew.symm, rfl, ?_, hgraft, hregrown⟩
  have hmoved : (a.applyEdit e).get? (old.mapRange e.mapRange).id =
      some { node with range := e.mapRange node.range } := by
    rw [Planted.id_mapRange, get?_applyEdit, hnode]
    rfl
  have hframe := hgrows.frame (old.mapRange e.mapRange).id
    (hgrows.not_mem (by rw [hmoved]; rfl))
  have hreplaced : ((a.applyEdit e).addTree new.tree).1.replaceChild? up (old.mapRange e.mapRange).id
      new.id = some exchanged := by
    rw [Planted.id_mapRange, ← hnew]
    exact hreplace
  exact (h.applyEdit e).replaceChild? hgrows (hocc.mapRange e.mapRange) (hframe.trans hmoved) hup
    hreplaced hgraft hsettled

end Arena

namespace Document

/-- The tree of the document. -/
def tree? (d : Document) : Option Tree :=
  d.arena.tree?

/-- What the nodes of the tree are and where they start, parents before children. -/
def outline (d : Document) : List (NodeKind × Coord) :=
  match d.root? with
  | none => []
  | some root => root.descendants.map fun v => (v.kind, v.range.start.coord)

/-- The text can be parsed, and the tree is that of its parse. -/
def InStep (d : Document) : Prop :=
  ∃ fresh, parse d.path d.text = .ok fresh ∧ d.tree? = fresh.tree?

variable {d d' edited : Document} {p : Planted} {id : NodeId} {node : Node} {up : NodeId}
  {text : List Char}

theorem outline_of_carries (h : d.arena.Carries p) : d.outline = p.tree.outline := by
  have hroot := h.holds.get?
  rw [h.root_eq] at hroot
  obtain ⟨children, hroot⟩ := hroot
  simp only [outline, root?, Arena.view?, hroot, Option.map_some, View.descendants,
    h.descendants_root]
  exact Arena.filterMap_view?_ids h.holds

/-! ### What the operations do -/

theorem parse_eq_ok_iff {path : Path} : parse path text = .ok d ↔
    ∃ forest, Grammar.readFrom .zero text = .ok forest ∧
      d = ⟨path, text, .ofForest (Coord.zero.advance text) forest⟩ := by
  unfold parse Arena.parse
  cases Grammar.readFrom .zero text with
  | ok forest => simp [Except.map, eq_comm]
  | error failure => simp [Except.map]

theorem exists_carries_of_parse {path : Path} (h : parse path text = .ok d) :
    ∃ p, d.arena.Carries p := by
  obtain ⟨forest, -, rfl⟩ := parse_eq_ok_iff.mp h
  obtain ⟨p, hp, -⟩ := Arena.carries_ofForest (Coord.zero.advance text) forest
  exact ⟨p, hp⟩

theorem applyEdit_eq_ok {e : Edit} (h : d.applyEdit e = .ok edited) :
    edited = ⟨d.path, e.applyTo d.text, d.arena.applyEdit e⟩ := by
  unfold applyEdit at h
  simp only at h
  split at h
  · cases h
  · exact (Except.ok.inj h).symm

theorem carries_applyEdit {e : Edit} (h : d.arena.Carries p) (hedit : d.applyEdit e = .ok edited) :
    edited.arena.Carries (p.mapRange e.mapRange) := by
  rw [applyEdit_eq_ok hedit]
  exact h.applyEdit e

theorem exchange?_eq_some {a exchanged : Arena} {read : List NodeId} {new : NodeId}
    (h : exchange? a id node up read = some (exchanged, new)) :
    read = [new] ∧ (∃ newcomer, a.get? new = some newcomer ∧ newcomer.kind.tag = node.kind.tag) ∧
      a.replaceChild? up id new = some exchanged := by
  unfold exchange? at h
  split at h
  · obtain ⟨newcomer, hnewcomer, h⟩ := Option.bind_eq_some_iff.mp h
    split at h
    · next htag =>
      obtain ⟨_, hreplace, heq⟩ := Option.map_eq_some_iff.mp h
      cases heq
      exact ⟨rfl, ⟨newcomer, hnewcomer, htag⟩, hreplace⟩
    · cases h
  · cases h

theorem addFragment_eq_singleton {a grown : Arena} {origin : Coord} {new : NodeId}
    (h : a.addFragment origin text = (grown, .ok [new])) :
    ∃ t, Grammar.readFrom origin text = .ok [t] ∧ a.addTree t = (grown, new) := by
  unfold Arena.addFragment at h
  split at h
  · next forest hread =>
    cases forest with
    | nil => cases h
    | cons t later =>
      cases later with
      | nil => exact ⟨t, hread, by simpa [Arena.addForest, Prod.ext_iff] using h⟩
      | cons second later => simp [Arena.addForest] at h
  · cases h

/-- What a replacement can come to: a document and what is reported. -/
inductive Replaces (d : Document) (id : NodeId) (text : List Char) :
    Document → Except EditError Replacement → Prop
  /-- The new text of the root cannot be read. -/
  | unreadRoot {error : ParseError} : id = Arena.root → parse d.path text = .error error →
    Replaces d id text d (.error (.parse error))
  /-- The new text of the root is read. -/
  | readRoot {fresh : Document} : id = Arena.root → parse d.path text = .ok fresh →
    Replaces d id text fresh (.ok .reparsed)
  /-- There is no such node below another one. -/
  | unknown : id ≠ Arena.root →
    (d.arena.isAttached id = true → ∀ node ∈ d.arena.get? id, node.parent = none) →
    Replaces d id text d (.error (.unknownNode id))
  /-- The node stops behind the last line. -/
  | outside {node : Node} {error : EditError} : id ≠ Arena.root →
    d.arena.isAttached id = true → d.arena.get? id = some node →
    d.applyEdit ⟨node.range, text⟩ = .error error → Replaces d id text d (.error error)
  /-- The text is one node of the same kind, which takes the node's place. -/
  | exchanged {node newcomer : Node} {up : NodeId} {edited : Document} {t : Tree} {exchanged : Arena} :
    id ≠ Arena.root → d.arena.isAttached id = true → d.arena.get? id = some node →
    node.parent = some up → d.applyEdit ⟨node.range, text⟩ = .ok edited →
    isIsolated (d.around node.range).1 (d.around node.range).2 = true →
    Grammar.readFrom node.range.start.coord text = .ok [t] →
    (edited.arena.addTree t).1.get? (edited.arena.addTree t).2 = some newcomer →
    newcomer.kind.tag = node.kind.tag →
    (edited.arena.addTree t).1.replaceChild? up id (edited.arena.addTree t).2 = some exchanged →
    Replaces d id text { edited with arena := exchanged }
      (.ok (.incremental (edited.arena.addTree t).2))
  /-- The edited text is read. -/
  | reread {node : Node} {edited fresh : Document} : id ≠ Arena.root →
    d.arena.isAttached id = true → d.arena.get? id = some node →
    d.applyEdit ⟨node.range, text⟩ = .ok edited → parse edited.path edited.text = .ok fresh →
    Replaces d id text fresh (.ok .reparsed)
  /-- The edited text cannot be read, and what was finished of the new text stays detached. -/
  | unread {node : Node} {edited : Document} {error : ParseError} : id ≠ Arena.root →
    d.arena.isAttached id = true → d.arena.get? id = some node →
    d.applyEdit ⟨node.range, text⟩ = .ok edited → parse edited.path edited.text = .error error →
    Replaces d id text
      { edited with arena := (edited.arena.addFragment node.range.start.coord text).1 }
      (.error (.parse error))

theorem replaces_replaceAttached (hroot : id ≠ Arena.root) (hattached : d.arena.isAttached id = true)
    (hnode : d.arena.get? id = some node) (hup : node.parent = some up) :
    d.Replaces id text (d.replaceAttached id node up text).1
      (d.replaceAttached id node up text).2 := by
  unfold replaceAttached
  cases hedit : d.applyEdit ⟨node.range, text⟩ with
  | error error => exact .outside hroot hattached hnode hedit
  | ok edited =>
    simp only [settle]
    split
    · next exchanged new hexchanged =>
      obtain ⟨ids, hids, hexchanged⟩ := Option.bind_eq_some_iff.mp hexchanged
      split at hexchanged
      · next hisolated =>
        obtain ⟨rfl, ⟨newcomer, hnewcomer, htag⟩, hreplace⟩ := exchange?_eq_some hexchanged
        have hfragment : edited.arena.addFragment node.range.start.coord text =
            ((edited.arena.addFragment node.range.start.coord text).1, .ok [new]) := by
          refine Prod.ext rfl ?_
          cases hread : (edited.arena.addFragment node.range.start.coord text).2 with
          | ok ids => rw [hread] at hids; exact congrArg _ (Option.some.inj hids)
          | error error => rw [hread] at hids; cases hids
        obtain ⟨t, hread, hadd⟩ := addFragment_eq_singleton hfragment
        obtain ⟨hgrown, rfl⟩ : (edited.arena.addTree t).1 = _ ∧ (edited.arena.addTree t).2 = new :=
          Prod.ext_iff.mp hadd
        rw [← hgrown] at hnewcomer hreplace
        exact .exchanged hroot hattached hnode hup hedit hisolated hread hnewcomer htag hreplace
      · cases hexchanged
    · simp only [reparse, setText]
      cases hparse : parse edited.path edited.text with
      | ok fresh => exact .reread hroot hattached hnode hedit hparse
      | error error => exact .unread hroot hattached hnode hedit hparse

theorem replaces_replaceRoot (hroot : id = Arena.root) :
    d.Replaces id text (d.replaceRoot text).1 (d.replaceRoot text).2 := by
  unfold replaceRoot setText
  cases hparse : parse d.path text with
  | ok fresh => exact .readRoot hroot hparse
  | error error => exact .unreadRoot hroot hparse

theorem site?_eq_some_iff : d.site? id = some (node, up) ↔
    d.arena.get? id = some node ∧ node.parent = some up ∧ d.arena.isAttached id = true := by
  simp only [site?, Option.bind_eq_bind, Option.bind_eq_some_iff]
  constructor
  · rintro ⟨other, hnode, up', hup, h⟩
    split at h
    · next hattached =>
      obtain ⟨rfl, rfl⟩ := Prod.mk.inj (Option.some.inj h)
      exact ⟨hnode, hup, hattached⟩
    · cases h
  · rintro ⟨hnode, hup, hattached⟩
    exact ⟨node, hnode, up, hup, if_pos hattached⟩

theorem replaces_replaceNode (d : Document) (id : NodeId) (text : List Char) :
    d.Replaces id text (d.replaceNode id text).1 (d.replaceNode id text).2 := by
  unfold replaceNode
  split
  · next hroot => exact replaces_replaceRoot hroot
  · next hroot =>
    split
    · next node up hsite =>
      obtain ⟨hnode, hup, hattached⟩ := site?_eq_some_iff.mp hsite
      exact replaces_replaceAttached hroot hattached hnode hup
    · next hsite =>
      refine .unknown hroot fun hattached node hnode => ?_
      cases hup : node.parent with
      | none => rfl
      | some up => cases hsite.symm.trans (site?_eq_some_iff.mpr ⟨hnode, hup, hattached⟩)

theorem replaces_of_replaceNode {outcome : Except EditError Replacement}
    (h : d.replaceNode id text = (d', outcome)) : d.Replaces id text d' outcome := by
  have hreplaces := d.replaces_replaceNode id text
  rwa [h] at hreplaces

/-! ### Reachable documents -/

/-- The documents that the operations make from texts. -/
inductive Reachable : Document → Prop
  | parse {path : Path} {text : List Char} {d : Document} :
    parse path text = .ok d → Reachable d
  | setText {d d' : Document} {text : List Char} :
    Reachable d → d.setText text = .ok d' → Reachable d'
  | reparse {d d' : Document} : Reachable d → d.reparse = .ok d' → Reachable d'
  | applyEdit {d d' : Document} {edit : Edit} :
    Reachable d → d.applyEdit edit = .ok d' → Reachable d'
  | replaceNode {d : Document} (id : NodeId) (text : List Char) :
    Reachable d → Reachable (d.replaceNode id text).1
  | freeDetached {d : Document} : Reachable d → Reachable d.freeDetached

/-- Reading a fragment adds nodes only, whether it is markup or not. -/
theorem exists_grows_addFragment {a : Arena} (h : a.Sound) (origin : Coord) (text : List Char) :
    ∃ ps, a.Grows (a.addFragment origin text).1 ps := by
  unfold Arena.addFragment
  split
  · next forest _ =>
    obtain ⟨ps, -, hgrows, -⟩ := Arena.addForest_spec forest h
    exact ⟨ps, hgrows⟩
  · next failure _ =>
    obtain ⟨ps, -, hgrows, -⟩ := Arena.addForest_spec failure.completed h
    exact ⟨ps, hgrows⟩

theorem carries_addFragment {a : Arena} (h : a.Carries p) (origin : Coord) (text : List Char) :
    ((a.addFragment origin text).1).Carries p := by
  obtain ⟨ps, hgrows⟩ := exists_grows_addFragment h.sound origin text
  exact h.grow hgrows

/-- A replacement leaves a tree in the arena, however it ends. -/
theorem exists_carries_replaceNode (h : d.arena.Carries p) (id : NodeId) (text : List Char) :
    ∃ p', (d.replaceNode id text).1.arena.Carries p' := by
  rcases hreplaced : d.replaceNode id text with ⟨d', outcome⟩
  cases replaces_of_replaceNode hreplaced with
  | unreadRoot | unknown | outside => exact ⟨p, h⟩
  | readRoot _ hfresh | reread _ _ _ _ hfresh => exact exists_carries_of_parse hfresh
  | exchanged _ hattached hnode hup hedited _ _ _ _ hreplace =>
    rw [applyEdit_eq_ok hedited] at hreplace
    obtain ⟨old, new, p', -, -, -, -, -, -, hp', -, -⟩ :=
      h.exists_exchanged _ (h.mem_of_isAttached hattached) hnode hup hreplace
    exact ⟨p', hp'⟩
  | unread _ _ _ hedited =>
    exact ⟨_, carries_addFragment (carries_applyEdit h hedited) _ _⟩

theorem Reachable.exists_carries (h : d.Reachable) : ∃ p, d.arena.Carries p := by
  induction h with
  | parse hparse => exact exists_carries_of_parse hparse
  | setText _ hparse => exact exists_carries_of_parse hparse
  | reparse _ hparse => exact exists_carries_of_parse hparse
  | applyEdit _ hedit ih =>
    obtain ⟨p, hp⟩ := ih
    exact ⟨_, carries_applyEdit hp hedit⟩
  | replaceNode id text _ ih =>
    obtain ⟨p, hp⟩ := ih
    exact exists_carries_replaceNode hp id text
  | freeDetached _ ih =>
    obtain ⟨p, hp⟩ := ih
    exact ⟨p, hp.freeDetached⟩

/-- An incremental replacement regrows the tree. -/
theorem exists_regrown {new : NodeId} (h : d.arena.Carries p)
    (hreplace : d.replaceNode id text = (d', .ok (.incremental new))) :
    ∃ (node : Node) (old : Planted) (t : Tree) (p' : Planted), d.arena.get? id = some node ∧
      old.Occurs p ∧ old.kind = node.kind ∧
      old.range = node.range ∧
      isIsolated (d.around node.range).1 (d.around node.range).2 = true ∧
      Grammar.readFrom node.range.start.coord text = .ok [t] ∧ t.kind.tag = node.kind.tag ∧
      d'.path = d.path ∧ d'.text = Edit.applyTo ⟨node.range, text⟩ d.text ∧ d'.arena.Carries p' ∧
      Tree.Regrown (Edit.mapCoord ⟨node.range, text⟩) old.tree t p.tree p'.tree := by
  cases replaces_of_replaceNode hreplace with
  | @exchanged node newcomer up edited t exchanged _ hattached hnode hup hedited hisolated hread
      hnewcomer htag hexchanged =>
    rw [applyEdit_eq_ok hedited] at hnewcomer hexchanged ⊢
    obtain ⟨old, new, p', hocc, -, hkind, hrange, -, -, hp', -, hregrown⟩ :=
      h.exists_exchanged _ (h.mem_of_isAttached hattached) hnode hup hexchanged
    have hnewkind := Arena.kind_of_addTree (h.applyEdit _).sound hnewcomer
    exact ⟨node, old, t, p', hnode, hocc, hkind, hrange, hisolated, hread, hnewkind ▸ htag, rfl, rfl,
      hp', hregrown⟩

end Document

end TexAnchor
