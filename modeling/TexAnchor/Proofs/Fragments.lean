import TexAnchor.Proofs.ArenaRuns
import TexAnchor.Proofs.Bytes
import TexAnchor.Proofs.Payloads
import TexAnchor.Proofs.Translation
import TexAnchor.Proofs.Unfinished

/-! # Fragments

A fragment is read into an arena that may have any nodes and free slots.  It is read as a document of
its own would be, from its origin (`Arena.Reached.addFragment_translates`): the new nodes are detached,
the trees below them are those below the root of that document with all coordinates moved, and what was
live before stays as it is, whether the fragment is markup or not.

So the source of an item of content can be read on its own, from the place where the item starts, and
what is read is the tree of the item again (`Document.exists_fragment_of_parse`). -/

namespace TexAnchor

open Text (Coord byteLength byteOf slice?)
open Token (textOf)

/-! ### Spans in bytes -/

namespace Span

/-- The span with its ends moved. -/
def map (f : Coord → Coord) (s : Span) : Span := ⟨f s.start, f s.stop⟩

/-- The ends of the span are looked up in the text as two bytes, and `source` stands between these. -/
structure Denotes (s : Span) (text : List Char) (start stop : Nat) (source : List Char) : Prop where
  start_eq : byteOf text s.start = start
  stop_eq : byteOf text s.stop = stop
  source_eq : slice? text start stop = some source

variable {s : Span} {origin : Coord} {before text after : List Char}

/-- A span of a part of a text denotes in the whole, moved to where the part stands, what it denotes in
the part. -/
theorem Cuts.exists_denotes (h : s.Cuts .zero text)
    (horigin : byteOf (before ++ text ++ after) origin = byteLength before) :
    ∃ start stop source, s.Denotes text start stop source ∧
      (s.map origin.translate).Denotes (before ++ text ++ after) (byteLength before + start)
        (byteLength before + stop) source := by
  obtain ⟨left, source, right, rfl, rfl⟩ := h
  have hplace {part rest : List Char} (hpart : left ++ source ++ right = part ++ rest) :
      byteOf (before ++ (left ++ source ++ right) ++ after) (origin.translate (Coord.zero.advance part)) =
        byteLength before + byteLength part := by
    rw [hpart, ← List.append_assoc, List.append_assoc] at horigin ⊢
    rw [Text.byteOf_translate horigin, Text.byteLength_append]
  refine ⟨byteLength left, byteLength (left ++ source), source, ⟨?_, ?_, ?_⟩, ⟨?_, ?_, ?_⟩⟩
  · rw [List.append_assoc, Text.byteOf_advance]
  · exact Text.byteOf_advance (left ++ source) right
  · exact Text.slice?_eq_some_iff.mpr ⟨left, right, rfl, rfl, rfl⟩
  · exact hplace (List.append_assoc _ _ _)
  · exact hplace rfl
  · rw [List.append_assoc, Text.slice?_behind]
    exact Text.slice?_eq_some_iff.mpr ⟨left, right ++ after, by simp, rfl, rfl⟩

end Span

namespace Arena

variable {a b : Arena} {p : Planted} {ps : List Planted} {id : NodeId} {counts : List Nat}

/-! ### The tree below a node -/

/-- The tree below a node, with the coordinates at which its nodes effectively are. -/
def treeBelow? (a : Arena) (id : NodeId) : Option Tree :=
  (a.treesWithin a.capacity id).head?

theorem treeBelow?_of_holds {parent : Option NodeId} (h : a.Holds parent p) (hnodup : p.ids.Nodup) :
    a.treeBelow? p.id = some p.tree := by
  rw [treeBelow?, treesWithin_of_holds h (length_le_capacity hnodup fun id hid => h.isSome hid)]
  rfl

theorem map_treeBelow?_of_holds {parent : Option NodeId} (h : ∀ p ∈ ps, a.Holds parent p)
    (hnodup : (ps.flatMap Planted.ids).Nodup) :
    (ps.map Planted.id).map a.treeBelow? = (ps.map Planted.tree).map some := by
  rw [List.map_map, List.map_map]
  exact List.map_congr_left fun p hp => treeBelow?_of_holds (h p hp) (nodup_ids_of_mem hnodup hp)

/-! ### Reading a fragment -/

/-- The arena `b` has the trees as new ones of its own below the nodes `ids`. -/
structure Receives (a b : Arena) (ids : List NodeId) (trees : List Tree) : Prop where
  nodup : ids.Nodup
  fresh : ∀ id ∈ ids, a.get? id = none
  detached : ∀ id ∈ ids, (∃ node, b.get? id = some node ∧ node.parent = none) ∧
    b.isAttached id = false
  trees_eq : ids.map b.treeBelow? = trees.map some

theorem Carries.receives (h : a.Carries p) (hgrows : a.Grows b ps) :
    a.Receives b (ps.map Planted.id) (ps.map Planted.tree) := by
  have hb := h.grow hgrows
  have hfresh : ∀ id ∈ ps.map Planted.id, a.get? id = none := fun id hid =>
    hgrows.fresh id (map_id_subset ps hid)
  refine ⟨nodup_map_id hgrows.nodup, hfresh, fun id hid => ⟨?_, ?_⟩,
    map_treeBelow?_of_holds hgrows.holds hgrows.nodup⟩
  · obtain ⟨q, hq, rfl⟩ := List.mem_map.mp hid
    obtain ⟨children, hget⟩ := (hgrows.holds q hq).get?
    exact ⟨_, hget, rfl⟩
  · rw [Bool.eq_false_iff, ne_eq, hb.isAttached_iff]
    intro hmem
    simpa [hfresh id hid] using h.holds.isSome hmem

theorem exists_root_ofForest (stop : Coord) (forest : List Tree) :
    ∃ top, (ofForest stop forest).get? root = some top ∧
      top.children.map (ofForest stop forest).treeBelow? = forest.map some := by
  obtain ⟨⟨id, kind, range, children⟩, hp, htree⟩ := carries_ofForest stop forest
  obtain rfl : id = root := hp.root_eq
  have hnodup := hp.nodup
  rw [Planted.ids_node, List.nodup_cons] at hnodup
  rw [Planted.tree_node, Tree.node.injEq] at htree
  cases hp.holds with
  | node hget hchildren =>
    have hbelow := map_treeBelow?_of_holds hchildren hnodup.2
    rw [htree.2.2] at hbelow
    exact ⟨_, hget, hbelow⟩

/-- A fragment is read into an arena as a document of its own would be, moved to the origin. -/
theorem Reached.addFragment_translates (h : a.Reached counts) (origin : Coord) (text : List Char) :
    (∀ id, (a.get? id).isSome = true → (a.addFragment origin text).1.get? id = a.get? id) ∧
    match Arena.parse text with
    | .ok fresh => ∃ (ids : List NodeId) (top : Node) (trees : List Tree),
        (a.addFragment origin text).2 = .ok ids ∧
        fresh.get? root = some top ∧ top.children.map fresh.treeBelow? = trees.map some ∧
        a.Receives (a.addFragment origin text).1 ids (trees.map (Tree.map origin.translate)) ∧
        ∀ before after, byteOf (before ++ text ++ after) origin = byteLength before →
          ∀ t ∈ trees, ∀ s ∈ t.spans, ∃ start stop source, s.Denotes text start stop source ∧
            (s.map origin.translate).Denotes (before ++ text ++ after) (byteLength before + start)
              (byteLength before + stop) source
    | .error e => (a.addFragment origin text).2 = .error (e.map origin.translate) := by
  obtain ⟨⟨ps, hps⟩, -⟩ := h.exists_consists
  obtain ⟨p, -, hp⟩ := hps.exists_carries
  constructor
  · obtain ⟨qs, hgrows⟩ := Document.exists_grows_addFragment hp.sound origin text
    exact fun id hid => hgrows.frame id (hgrows.not_mem hid)
  · have hmoved := Grammar.readFrom_eq_translated origin text
    unfold Arena.parse
    cases hread : Grammar.readFrom .zero text with
    | error failure =>
      rw [hread] at hmoved
      simp only [addFragment, hmoved, Grammar.moved]
      rfl
    | ok trees =>
      rw [hread] at hmoved
      obtain ⟨top, htop, htrees⟩ := exists_root_ofForest (Coord.zero.advance text) trees
      obtain ⟨qs, hids, hgrows, hforest, -⟩ :=
        addForest_spec (trees.map (Tree.map origin.translate)) hp.sound
      have hreceives := hp.receives hgrows
      rw [hforest, ← hids] at hreceives
      have hadded : a.addFragment origin text =
          ((a.addForest (trees.map (Tree.map origin.translate))).1,
            .ok (a.addForest (trees.map (Tree.map origin.translate))).2) := by
        simp only [addFragment, hmoved, Grammar.moved]
      rw [hadded]
      refine ⟨_, top, trees, rfl, htop, htrees, hreceives, fun before after horigin t ht s hs => ?_⟩
      exact (Grammar.cuts_of_readFrom_eq_ok hread ht hs).exists_denotes horigin

end Arena

namespace Document

open Grammar

variable {d : Document} {path : Path} {text : List Char} {id : NodeId} {node : Node}

/-! ### Items of content -/

/-- The children of the node that are items of content: all of the root, a group or braces next to a
head, and in an environment those of the body. -/
def contents (node : Node) : List NodeId :=
  match node.kind with
  | .latex | .group | .curlyBlock => node.children
  | .environment _ count => node.children.drop count
  | _ => []

/-- The node is an item of the content of some node. -/
def InContent (d : Document) (id : NodeId) : Prop :=
  ∃ up node, d.arena.get? up = some node ∧ id ∈ contents node

/-- The node is the top of a tree that was read from an item of the text. -/
def ComesFrom (d : Document) (id : NodeId) (left : List Token) (m : Markup) (right : List Token) : Prop :=
  ∃ up, ∃ c : Planted, c.id = id ∧ d.arena.Holds up c ∧ c.ids.Nodup ∧
    Piece d.text left right m c.tree ∧ Produces .item m

theorem exists_comesFrom_of_mem_drop {up : Option NodeId} {children : List Planted} {kind : NodeKind}
    {span : Span} {left right : List Token} {front body back : List Markup} {count : Nat}
    (hpiece : Piece d.text left right (.node kind (front ++ (body ++ back)))
      (.node kind span (children.map Planted.tree)))
    (hback : ∀ here, Markup.forest here back = [])
    (hcount : ∀ here, (Markup.forest here front).length = count) (hbody : ∀ m ∈ body, Produces .item m)
    (hholds : ∀ c ∈ children, d.arena.Holds up c) (hnodup : (children.flatMap Planted.ids).Nodup)
    (hid : id ∈ (children.map Planted.id).drop count) : ∃ left m right, d.ComesFrom id left m right := by
  rw [← List.map_drop] at hid
  obtain ⟨c, hc, rfl⟩ := List.mem_map.mp hid
  have hmem : c.tree ∈ (children.map Planted.tree).drop count := by
    rw [← List.map_drop]
    exact List.mem_map_of_mem hc
  obtain ⟨before, m, after, hm, hpart⟩ := hpiece.exists_body_part hback hcount hmem
  have hc := List.mem_of_mem_drop hc
  exact ⟨before, m, after, up, c, rfl, hholds c hc, Arena.nodup_ids_of_mem hnodup hc, hpart, hbody m hm⟩

theorem exists_comesFrom_between {up : Option NodeId} {children : List Planted} {kind : NodeKind}
    {span : Span} {left right opening closing : List Token} (blocks : List Markup) {body : List Markup}
    (hpiece : Piece d.text left right (.node kind (.raw opening :: (blocks ++ (body ++ [.raw closing]))))
      (.node kind span (children.map Planted.tree)))
    (hblocks : ∀ m ∈ blocks, ∃ kind parts, m = .node kind parts) (hbody : ∀ m ∈ body, Produces .item m)
    (hholds : ∀ c ∈ children, d.arena.Holds up c) (hnodup : (children.flatMap Planted.ids).Nodup)
    (hid : id ∈ (children.map Planted.id).drop blocks.length) :
    ∃ left m right, d.ComesFrom id left m right := by
  have hcount (here : Coord) : (Markup.forest here (.raw opening :: blocks)).length = blocks.length := by
    simp [length_forest hblocks]
  rw [← List.cons_append] at hpiece
  exact exists_comesFrom_of_mem_drop hpiece (by simp) hcount hbody hholds hnodup hid

/-- An item of content in a parse was read from an item of the text. -/
theorem exists_comesFrom_of_inContent (h : parse path text = .ok d) (hid : d.InContent id) :
    ∃ left m right, d.ComesFrom id left m right := by
  obtain ⟨up, ⟨kind, range, ids, parent⟩, hnode, hid⟩ := hid
  obtain ⟨children, rfl, hholds, hnodup, horigin⟩ := exists_origin_of_parse h hnode
  cases horigin with
  | @construct left right m role hpiece hm =>
    obtain ⟨kind', parts, rfl⟩ := hm.exists_eq_node
    obtain rfl := (Tree.node.inj hpiece.tree_eq).1
    cases hm with
    | document hbody =>
      rw [← List.append_nil parts, ← List.nil_append (parts ++ [])] at hpiece
      have hcount (here : Coord) : (Markup.forest here []).length = 0 := by simp
      exact exists_comesFrom_of_mem_drop hpiece (by simp) hcount hbody hholds hnodup hid
    | group _ _ hbody => exact exists_comesFrom_between [] hpiece (by simp) hbody hholds hnodup hid
    | curlyBlock _ _ hbody => exact exists_comesFrom_between [] hpiece (by simp) hbody hholds hnodup hid
    | @environment _ _ _ blocks _ _ _ hblocks hbody =>
      exact exists_comesFrom_between blocks hpiece (fun m hm => (hblocks m hm).exists_eq_node) hbody
        hholds hnodup hid
    | _ => cases hid
  | list hpiece =>
    obtain rfl := (Tree.node.inj hpiece.list_eq).1
    cases hid
  | item hpiece hmem =>
    obtain ⟨rfl, -⟩ := hpiece.item_eq hmem
    unfold contents at hid
    split at hid <;> simp at hid

theorem readFrom_text {left right : List Token} {m : Markup} {t : Tree}
    (hpiece : Piece text left right m t) (hm : Produces .item m) :
    readFrom (Coord.zero.advance (textOf left)) m.text = .ok [t] := by
  have htokens := hpiece.tokens_eq
  rw [List.append_assoc] at htokens
  have hrest := (parted_of_tokenize_eq_append htokens).2.1
  have hself := (parted_of_tokenize_eq_append hrest.symm).1
  refine readFrom_eq_ok_iff.mpr ⟨[m], ⟨by simpa using hm, List.IsChain.singleton m⟩, ?_, ?_⟩
  · rwa [Markup.tokensOf_cons, Markup.tokensOf_nil, List.append_nil]
  · simp [hpiece.trees_eq]

/-- The source of an item of content of a parse is read, into any arena and from where the item starts,
as one tree, and that is the tree of the item. -/
theorem exists_fragment_of_parse (h : parse path text = .ok d) (hid : d.InContent id) {a : Arena}
    {counts : List Nat} (ha : a.Reached counts) :
    ∃ node source t new, d.arena.get? id = some node ∧ d.nodeText? id = some source ∧
      d.arena.treeBelow? id = some t ∧ (a.addFragment node.range.start.coord source).2 = .ok [new] ∧
      (a.addFragment node.range.start.coord source).1.treeBelow? new = some t := by
  obtain ⟨left, m, right, up, c, rfl, hc, hnodup, hpiece, hm⟩ := exists_comesFrom_of_inContent h hid
  obtain ⟨ids, hget⟩ := hc.get?
  have hcovers := covers_of_piece hpiece c.span_tree.symm
  have hread := readFrom_text hpiece hm
  rw [← hcovers.start_eq] at hread
  obtain ⟨⟨ps, hps⟩, -⟩ := ha.exists_consists
  obtain ⟨q, hq, hgrows, htree, -⟩ := Arena.addTree_spec c.tree hps.sound
  refine ⟨_, m.text, c.tree, q.id, hget, nodeText?_of_covers hget hcovers,
    Arena.treeBelow?_of_holds hc hnodup, ?_, ?_⟩
  · rw [Arena.addFragment_eq hread, hq]
  · rw [Arena.addFragment_eq hread]
    have hnew := Arena.treeBelow?_of_holds (hgrows.holds q List.mem_cons_self) (by simpa using hgrows.nodup)
    rwa [htree] at hnew

/-- The group behind a letter is read again as it stands there. -/
theorem exists_fragment_of_parse_group : ∃ new : NodeId,
    (Arena.letterAndGroup.addFragment ⟨0, 2⟩ ['\x7b', 'b', '\x7d']).2 = .ok [new] ∧
      (Arena.letterAndGroup.addFragment ⟨0, 2⟩ ['\x7b', 'b', '\x7d']).1.treeBelow? new =
        Arena.letterAndGroup.treeBelow? ⟨4⟩ := by
  have hparse : parse ⟨"a.tex"⟩ ['a', ' ', '\x7b', 'b', '\x7d'] =
    .ok ⟨⟨"a.tex"⟩, ['a', ' ', '\x7b', 'b', '\x7d'], Arena.letterAndGroup⟩ := rfl
  have hrun : Arena.letterAndGroup.Reached [Arena.letterAndGroup.liveCount] :=
    .parse (show Arena.parse ['a', ' ', '\x7b', 'b', '\x7d'] = _ from rfl)
  have htop : Arena.letterAndGroup.get? Arena.root =
    some ⟨.latex, Arena.rangeOf ⟨.zero, ⟨0, 5⟩⟩, [⟨1⟩, ⟨2⟩, ⟨4⟩], none⟩ := rfl
  have hgroup : Arena.letterAndGroup.get? ⟨4⟩ =
    some ⟨.group, Arena.rangeOf ⟨⟨0, 2⟩, ⟨0, 5⟩⟩, [⟨3⟩], some Arena.root⟩ := rfl
  have hcontent : (⟨4⟩ : NodeId) ∈ [(⟨1⟩ : NodeId), ⟨2⟩, ⟨4⟩] := by simp
  obtain ⟨node, source, t, new, hnode, hsource, ht, hok, hnew⟩ :=
    exists_fragment_of_parse hparse ⟨_, _, htop, hcontent⟩ hrun
  obtain rfl := Option.some.inj (hgroup.symm.trans hnode)
  obtain rfl : ['\x7b', 'b', '\x7d'] = source := Option.some.inj hsource
  exact ⟨new, hok, hnew.trans ht.symm⟩

end Document

end TexAnchor
