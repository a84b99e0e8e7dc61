import TexAnchor.Proofs.Bytes
import TexAnchor.Proofs.Nesting
import TexAnchor.Proofs.Pieces
import TexAnchor.Proofs.Spelling

/-! # A parse tiles its text

Places are counted in bytes here.  `Document.Extends` says between which bytes a node stands, and
`Document.Tiles` that some nodes stand one behind another, without gap or overlap.

What a construct consists of stands between its opening and its closing tokens (`Document.Framed`), and
the children of every node of a document that was just parsed fill just that place, whatever they are
(`Document.tiled_of_parse`). -/

namespace TexAnchor

open Grammar (Piece Produces Role)
open Text (Coord byteLength coordAtByte?)
open Token (textOf)

namespace Document

variable {d : Document} {path : Path} {text : List Char} {id : NodeId} {node : Node}
  {up : Option NodeId} {c : Planted} {children : List Planted} {start stop : Nat}
  {left right opening inner closing : List Token} {ms : List Markup}

/-! ### Places in bytes -/

/-- The node is live, and its range runs from the place of one byte of the text to that of another. -/
def Extends (d : Document) (id : NodeId) (start stop : Nat) : Prop :=
  start ≤ stop ∧ stop ≤ byteLength d.text ∧ ∃ node, d.arena.get? id = some node ∧
    coordAtByte? .zero d.text start = some node.range.start.coord ∧
    coordAtByte? .zero d.text stop = some node.range.stop.coord

/-- The tokens stand in the text from one byte to another. -/
def HasTokens (d : Document) (start : Nat) (tokens : List Token) (stop : Nat) : Prop :=
  ∃ left right, tokenize d.text = left ++ tokens ++ right ∧ byteLength (textOf left) = start ∧
    byteLength (textOf (left ++ tokens)) = stop

/-- The nodes stand one behind another, without gap or overlap, from one byte to another. -/
def Tiles (d : Document) (start stop : Nat) : List NodeId → Prop
  | [] => start = stop
  | id :: ids => ∃ next, d.Extends id start next ∧ d.Tiles next stop ids

/-- The nodes stand one behind another, without overlap, somewhere between two bytes. -/
def Spread (d : Document) (start stop : Nat) : List NodeId → Prop
  | [] => start ≤ stop
  | id :: ids => ∃ first last, start ≤ first ∧ d.Extends id first last ∧ d.Spread last stop ids

/-- From one byte to another stand tokens that open a construct, what is `inside` it, and tokens that
close it. -/
def Framed (d : Document) (start stop : Nat) (opens closes : List Token → Prop)
    (inside : Nat → Nat → Prop) : Prop :=
  ∃ opening closing first last, opens opening ∧ closes closing ∧ d.HasTokens start opening first ∧
    d.HasTokens last closing stop ∧ inside first last

/-- The node is live and has a kind that the test accepts. -/
def HasKind (d : Document) (id : NodeId) (test : KindTag → Bool) : Prop :=
  ∃ node, d.arena.get? id = some node ∧ test node.kind.tag = true

/-- Braces and brackets next to a head. -/
def isBlock : KindTag → Bool
  | .curlyBlock | .squareBlock => true
  | _ => false

/-- Where a node and its children stand. -/
def Tiled (d : Document) (id : NodeId) (node : Node) : Prop :=
  ∃ start stop, d.Extends id start stop ∧ match node.kind with
    | .latex => start = 0 ∧ stop = byteLength d.text ∧ d.Tiles start stop node.children
    | .group | .curlyBlock =>
      d.Framed start stop (· = [⟨.lBrace, ['\x7b']⟩]) (· = [⟨.rBrace, ['\x7d']⟩]) fun first last =>
        d.Tiles first last node.children
    | .command name =>
      d.Framed start stop (· = [⟨.command, '\\' :: name.toList⟩]) (· = []) fun first last =>
        d.Tiles first last node.children
    | .environment name count =>
      d.Framed start stop (Grammar.IsTag .opening name.toList) (Grammar.IsTag .closing name.toList)
          (fun first last => d.Tiles first last node.children) ∧
        count ≤ node.children.length ∧ (∀ id ∈ node.children.take count, d.HasKind id isBlock) ∧
        ∀ id ∈ node.children.drop count, d.HasKind id (!isBlock ·)
    | .squareBlock =>
      d.Framed start stop (· = [⟨.lBracket, ['[']⟩]) (· = [⟨.rBracket, [']']⟩]) fun first last =>
        ∃ list, node.children = [list] ∧ d.Extends list first last ∧
          d.HasKind list (· == .parameterList)
    | .parameterList => d.Spread start stop node.children
    | _ => node.children = []

/-- A node stands between two bytes exactly if its range covers the stretch between them. -/
theorem extends_iff : d.Extends id start stop ↔ ∃ node before source after,
    d.arena.get? id = some node ∧ d.Covers node.range before source after ∧
      byteLength before = start ∧ byteLength (before ++ source) = stop := by
  constructor
  · rintro ⟨hle, hstop_le, node, hnode, hstart, hstop⟩
    obtain ⟨before, rest, htext, hbefore, hstart⟩ :=
      Text.exists_of_coordAtByte? (Nat.le_trans hle hstop_le) hstart
    obtain ⟨upto, after, htext', hupto, hstop⟩ := Text.exists_of_coordAtByte? hstop_le hstop
    have hprefix : before <+: d.text := ⟨rest, htext.symm⟩
    have hprefix' : upto <+: d.text := ⟨after, htext'.symm⟩
    obtain ⟨source, rfl⟩ := Text.prefix_of_byteLength_le hprefix hprefix' (by omega)
    exact ⟨node, before, source, after, hnode, ⟨htext', hstart.symm, hstop.symm⟩, hbefore, hupto⟩
  · rintro ⟨node, before, source, after, hnode, hcovers, rfl, rfl⟩
    have hstart := Text.coordAtByte?_append .zero before (source ++ after)
    have hstop := Text.coordAtByte?_append .zero (before ++ source) after
    rw [← List.append_assoc, ← hcovers.text_eq, ← hcovers.start_eq] at hstart
    rw [← hcovers.text_eq, ← hcovers.stop_eq] at hstop
    refine ⟨?_, ?_, node, hnode, hstart, hstop⟩
    · simp
    · simp [hcovers.text_eq]

/-! ### Nodes of pieces -/

theorem extends_of_covers {before source after : List Char} (hnode : d.arena.get? id = some node)
    (h : d.Covers node.range before source after) :
    d.Extends id (byteLength before) (byteLength (before ++ source)) :=
  extends_iff.mpr ⟨node, before, source, after, hnode, h, rfl, rfl⟩

theorem extends_of_piece {m : Markup} {t : Tree} (hnode : d.arena.get? id = some node)
    (hpiece : Piece d.text left right m t) (hspan : node.range.span = t.span) :
    d.Extends id (byteLength (textOf left)) (byteLength (textOf (left ++ m.tokens))) := by
  rw [Token.textOf_append]
  exact extends_of_covers hnode (covers_of_piece hpiece hspan)

theorem extends_of_holds {m : Markup} (hc : d.arena.Holds up c)
    (hpiece : Piece d.text left right m c.tree) :
    d.Extends c.id (byteLength (textOf left)) (byteLength (textOf (left ++ m.tokens))) := by
  obtain ⟨ids, hget⟩ := hc.get?
  exact extends_of_piece hget hpiece c.span_tree.symm

theorem tiles_of_forest (htokens : tokenize d.text = left ++ Markup.tokensOf ms ++ right)
    (hms : ∀ m ∈ ms, ∃ kind parts, m = .node kind parts)
    (hforest : children.map Planted.tree = Markup.forest (Coord.zero.advance (textOf left)) ms)
    (hholds : ∀ c ∈ children, d.arena.Holds up c) :
    d.Tiles (byteLength (textOf left)) (byteLength (textOf (left ++ Markup.tokensOf ms)))
      (children.map Planted.id) := by
  induction ms generalizing left children with
  | nil =>
    obtain rfl : children = [] := by simpa using hforest
    simp [Tiles]
  | cons m ms ih =>
    obtain ⟨kind, parts, rfl⟩ := hms m List.mem_cons_self
    rw [Markup.forest_cons, Markup.trees_node, List.singleton_append] at hforest
    obtain ⟨c, later, rfl, hc, hlater⟩ := List.map_eq_cons_iff.mp hforest
    rw [Markup.text, ← Coord.advance_append, ← Token.textOf_append] at hlater
    rw [Markup.tokensOf_cons] at htokens ⊢
    have hpiece : Piece d.text left (Markup.tokensOf ms ++ right) (.node kind parts) c.tree :=
      ⟨by simpa using htokens, by rw [hc, Markup.trees_node]⟩
    refine ⟨_, extends_of_holds (hholds c List.mem_cons_self) hpiece, ?_⟩
    have htiles := ih (by simpa using htokens) (fun m hm => hms m (List.mem_cons_of_mem _ hm)) hlater
      fun c hc => hholds c (List.mem_cons_of_mem _ hc)
    rwa [List.append_assoc] at htiles

theorem hasKind_of_forest {role : Role} {test : KindTag → Bool} {here : Coord}
    (hms : ∀ m ∈ ms, Produces role m)
    (htest : ∀ kind parts, Produces role (.node kind parts) → test kind.tag = true)
    (hforest : children.map Planted.tree = Markup.forest here ms)
    (hholds : ∀ c ∈ children, d.arena.Holds up c) : ∀ id ∈ children.map Planted.id, d.HasKind id test := by
  intro id hid
  obtain ⟨c, hc, rfl⟩ := List.mem_map.mp hid
  obtain ⟨ids, hget⟩ := (hholds c hc).get?
  have hmem : c.tree ∈ Markup.forest here ms := hforest ▸ List.mem_map_of_mem hc
  obtain ⟨trees, trees', heq⟩ := List.append_of_mem hmem
  obtain ⟨before, m, after, rfl, -, hm, -⟩ := Markup.exists_of_forest_eq heq
  have hproduces := hms m (by simp)
  obtain ⟨kind, parts, rfl⟩ := hproduces.exists_eq_node
  refine ⟨_, hget, ?_⟩
  obtain ⟨id, kind', range, children⟩ := c
  simp only [Markup.trees_node, Planted.tree_node, List.singleton_inj, Tree.node.injEq] at hm
  obtain ⟨rfl, -, -⟩ := hm
  exact htest _ _ hproduces

theorem Spread.mono {start' : Nat} {ids : List NodeId} (h : d.Spread start stop ids)
    (hle : start' ≤ start) : d.Spread start' stop ids := by
  cases ids with
  | nil => exact Nat.le_trans hle h
  | cons id ids =>
    obtain ⟨first, last, hfirst, hextends, hlater⟩ := h
    exact ⟨first, last, Nat.le_trans hle hfirst, hextends, hlater⟩

theorem spread_of_placeItems {before after : List Char} {segments : List (List Char)}
    (htext : d.text = before ++ Parameters.joined segments ++ after)
    (hitems : children.map Planted.tree = Parameters.placeItems (Coord.zero.advance before) segments)
    (hholds : ∀ c ∈ children, d.arena.Holds up c) :
    d.Spread (byteLength before) (byteLength (before ++ Parameters.joined segments))
      (children.map Planted.id) := by
  induction segments generalizing before children with
  | nil =>
    obtain rfl : children = [] := by simpa [Parameters.placeItems] using hitems
    simp [Spread]
  | cons segment later ih =>
    have hlater {others : List Planted} (hholds : ∀ c ∈ others, d.arena.Holds up c)
        (heq : others.map Planted.tree =
          Parameters.placeItems ((Coord.zero.advance (before ++ segment)).next ',') later) :
        d.Spread (byteLength (before ++ segment))
          (byteLength (before ++ Parameters.joined (segment :: later))) (others.map Planted.id) := by
      cases later with
      | nil =>
        obtain rfl : others = [] := by simpa [Parameters.placeItems] using heq
        exact Nat.le_refl _
      | cons second later =>
        rw [Parameters.joined_cons_cons] at htext ⊢
        have hspread := @ih others (before ++ segment ++ [',']) (by simpa using htext)
          (by rwa [Coord.advance_append]) hholds
        simp only [List.append_assoc, List.singleton_append] at hspread
        rw [← List.append_assoc] at hspread
        exact hspread.mono (by simp)
    have hsegment : segment <+: Parameters.joined (segment :: later) := by
      cases later <;> simp [Parameters.joined]
    obtain ⟨rest, hrest⟩ := hsegment
    obtain ⟨blanks, hblanks⟩ := Parameters.trim_isPrefix segment
    simp only [Parameters.placeItems, ← Coord.advance_append] at hitems
    split at hitems
    · exact (hlater hholds hitems).mono (by simp)
    · obtain ⟨c, others, rfl, hc, hothers⟩ := List.map_eq_cons_iff.mp hitems
      have hspread := hlater (fun c hc => hholds c (List.mem_cons_of_mem _ hc)) hothers
      obtain ⟨ids, hget⟩ := (hholds c List.mem_cons_self).get?
      have hspan : c.range.span = ⟨Coord.zero.advance (before ++ segment.takeWhile Text.isBlank),
          Coord.zero.advance (before ++ segment.takeWhile Text.isBlank ++ Text.trim segment)⟩ :=
        c.span_tree.symm.trans (congrArg Tree.span hc)
      have htext' : d.text = before ++ segment.takeWhile Text.isBlank ++ Text.trim segment ++
          (blanks ++ (rest ++ after)) := by
        rw [htext, ← hrest]
        nth_rewrite 1 [← hblanks]
        simp
      refine ⟨_, _, by simp, extends_of_covers hget (covers_of_span htext' hspan), hspread.mono ?_⟩
      have hlength := congrArg byteLength hblanks
      simp only [Text.byteLength_append] at hlength ⊢
      omega

/-! ### Where the children of a construct stand -/

theorem framed_of_tokens {opens closes : List Token → Prop} {inside : Nat → Nat → Prop}
    (htokens : tokenize d.text = left ++ (opening ++ (inner ++ closing)) ++ right)
    (hopens : opens opening) (hcloses : closes closing)
    (hinside : inside (byteLength (textOf (left ++ opening)))
      (byteLength (textOf (left ++ opening ++ inner)))) :
    d.Framed (byteLength (textOf left))
      (byteLength (textOf (left ++ (opening ++ (inner ++ closing))))) opens closes inside := by
  refine ⟨opening, closing, _, _, hopens, hcloses, ?_, ?_, hinside⟩
  · exact ⟨left, inner ++ closing ++ right, by simpa using htokens, rfl, rfl⟩
  · exact ⟨left ++ opening ++ inner, right, by simpa using htokens, rfl, by simp⟩

theorem framed_of_piece {kind : NodeKind} {t : Tree} {tail : List Markup}
    {opens closes : List Token → Prop}
    (hpiece : Piece d.text left right (.node kind (.raw opening :: (ms ++ tail))) t)
    (hms : ∀ m ∈ ms, ∃ kind parts, m = .node kind parts) (htail : ∀ here, Markup.forest here tail = [])
    (hchildren : children.map Planted.tree = t.children)
    (hholds : ∀ c ∈ children, d.arena.Holds up c) (hopens : opens opening)
    (hcloses : closes (Markup.tokensOf tail)) :
    d.Framed (byteLength (textOf left))
      (byteLength (textOf (left ++ Markup.tokensOf (.raw opening :: (ms ++ tail))))) opens closes
      fun first last => d.Tiles first last (children.map Planted.id) := by
  have htokens := hpiece.tokens_eq
  simp only [Markup.tokens_node, Markup.tokensOf_cons, Markup.tokens_raw,
    Markup.tokensOf_append] at htokens ⊢
  have hinner : tokenize d.text =
      left ++ opening ++ Markup.tokensOf ms ++ (Markup.tokensOf tail ++ right) := by
    simpa using htokens
  have hforest : children.map Planted.tree =
      Markup.forest (Coord.zero.advance (textOf (left ++ opening))) ms := by
    rw [hchildren, hpiece.tree_eq]
    simp [Tree.children, Markup.forest_append, Markup.text, htail]
  exact framed_of_tokens htokens hopens hcloses (tiles_of_forest hinner hms hforest hholds)

theorem framed_of_braces {kind : NodeKind} {t : Tree} {opener closer : Token}
    (hpiece : Piece d.text left right (.node kind (.raw [opener] :: (ms ++ [.raw [closer]]))) t)
    (hopener : opener.kind = .lBrace) (hcloser : closer.kind = .rBrace)
    (hms : ∀ m ∈ ms, ∃ kind parts, m = .node kind parts)
    (hchildren : children.map Planted.tree = t.children)
    (hholds : ∀ c ∈ children, d.arena.Holds up c) :
    d.Framed (byteLength (textOf left))
      (byteLength (textOf (left ++ Markup.tokensOf (.raw [opener] :: (ms ++ [.raw [closer]])))))
      (· = [⟨.lBrace, ['\x7b']⟩]) (· = [⟨.rBrace, ['\x7d']⟩])
      fun first last => d.Tiles first last (children.map Planted.id) := by
  have hopener := (hpiece.lexical opener (by simp)).eq_mk hopener fun _ h => h
  have hcloser := (hpiece.lexical closer (by simp)).eq_mk hcloser fun _ h => h
  exact framed_of_piece hpiece hms (by simp) hchildren hholds (by rw [hopener]) (by simp [hcloser])

/-- The nodes of an environment are those next to its head and behind them those in its body. -/
theorem hasKind_of_environment {here : Coord} {blocks body : List Markup}
    (hblocks : ∀ m ∈ blocks, Produces .block m) (hbody : ∀ m ∈ body, Produces .item m)
    (hforest : children.map Planted.tree = Markup.forest here (blocks ++ body))
    (hholds : ∀ c ∈ children, d.arena.Holds up c) :
    blocks.length ≤ (children.map Planted.id).length ∧
      (∀ id ∈ (children.map Planted.id).take blocks.length, d.HasKind id isBlock) ∧
      ∀ id ∈ (children.map Planted.id).drop blocks.length, d.HasKind id (!isBlock ·) := by
  rw [Markup.forest_append] at hforest
  obtain ⟨heads, bodies, rfl, hheads, hbodies⟩ := List.map_eq_append_iff.mp hforest
  have hlength : (heads.map Planted.id).length = blocks.length := by
    rw [← Grammar.length_forest (fun m hm => (hblocks m hm).exists_eq_node) here, ← hheads]
    simp
  rw [List.map_append, List.take_left' hlength, List.drop_left' hlength]
  refine ⟨by simp [← hlength], ?_, ?_⟩
  · exact hasKind_of_forest hblocks (fun _ _ hm => by cases hm <;> rfl) hheads
      fun c hc => hholds c (List.mem_append_left _ hc)
  · exact hasKind_of_forest hbody (fun _ _ hm => by cases hm <;> rfl) hbodies
      fun c hc => hholds c (List.mem_append_right _ hc)

/-- What a node of a construct of the grammar consists of stands where the production puts it. -/
theorem tiled_of_produces {role : Role} {m : Markup} (hnode : d.arena.get? id = some node)
    (hids : node.children = children.map Planted.id) (hholds : ∀ c ∈ children, d.arena.Holds up c)
    (hpiece : Piece d.text left right m
      (.node node.kind node.range.span (children.map Planted.tree)))
    (hm : Produces role m) (hwhole : role = .document → left = [] ∧ right = []) :
    d.Tiled id node := by
  have hextends := extends_of_piece hnode hpiece rfl
  obtain ⟨kind, parts, rfl⟩ := hm.exists_eq_node
  obtain ⟨hkind, -, hforest⟩ := Tree.node.inj hpiece.tree_eq
  refine ⟨_, _, hextends, ?_⟩
  rw [hkind, hids]
  cases hm with
  | document hbody =>
    obtain ⟨rfl, rfl⟩ := hwhole rfl
    have htokens := hpiece.tokens_eq
    refine ⟨rfl, ?_, tiles_of_forest htokens (fun m hm => (hbody m hm).exists_eq_node) hforest hholds⟩
    rw [← textOf_tokenize d.text, htokens]
    simp
  | group hopener hcloser hbody =>
    exact framed_of_braces hpiece hopener hcloser (fun m hm => (hbody m hm).exists_eq_node) rfl hholds
  | curlyBlock hopener hcloser hbody =>
    exact framed_of_braces hpiece hopener hcloser (fun m hm => (hbody m hm).exists_eq_node) rfl hholds
  | @command t blocks hhead _ hblocks =>
    have hword := (hpiece.lexical t (by simp)).eq_command hhead
    rw [← List.append_nil blocks] at hpiece ⊢
    exact framed_of_piece hpiece (fun m hm => (hblocks m hm).exists_eq_node) (by simp) rfl hholds
      (by rw [String.toList_ofList, ← hword]) rfl
  | @environment name opening closing blocks body hopening _ hblocks hbody _ _ hclosing =>
    rw [← List.append_assoc] at hpiece hforest ⊢
    refine ⟨framed_of_piece hpiece ?_ (by simp) rfl hholds ?_ ?_, ?_⟩
    · intro m hm
      rcases List.mem_append.mp hm with hm | hm
      exacts [(hblocks m hm).exists_eq_node, (hbody m hm).exists_eq_node]
    · simpa using hopening
    · simpa using hclosing
    · have hforest : children.map Planted.tree =
          Markup.forest (Coord.zero.advance (textOf left ++ textOf opening)) (blocks ++ body) := by
        rw [hforest]
        simp [Markup.forest_append, Markup.text]
      exact hasKind_of_environment hblocks hbody hforest hholds
  | @squareBlock opener closer inner hopener hcloser =>
    have hopener := (hpiece.lexical opener (by simp)).eq_mk hopener fun _ h => h
    have hcloser := (hpiece.lexical closer (by simp)).eq_mk hcloser fun _ h => h
    have htokens : tokenize d.text = left ++ ([opener] ++ (inner ++ [closer])) ++ right := by
      simpa using hpiece.tokens_eq
    obtain ⟨list, rfl, hlist⟩ : ∃ list, children = [list] ∧ list.tree =
        Markup.parameterList (Coord.zero.advance (textOf (left ++ [opener]))) (textOf inner) := by
      refine List.map_eq_singleton_iff.mp ?_
      rw [hforest]
      simp [Markup.text]
    have hinner : Piece d.text (left ++ [opener]) ([closer] ++ right) (.items inner) list.tree :=
      ⟨by simpa using htokens, by rw [hlist, Markup.trees_items]⟩
    have hheld := hholds list List.mem_cons_self
    refine framed_of_tokens htokens (by simp [hopener]) (by simp [hcloser])
      ⟨list.id, rfl, extends_of_holds hheld hinner, ?_⟩
    obtain ⟨ids, hget⟩ := hheld.get?
    refine ⟨_, hget, ?_⟩
    have hkind : list.kind = .parameterList := list.kind_tree.symm.trans (congrArg Tree.kind hlist)
    rw [hkind]
    rfl
  | _ =>
    obtain rfl : children = [] := by simpa using hforest
    rfl

/-- The root of a parse is the whole document. -/
theorem exists_root_of_parse (h : parse path text = .ok d) :
    ∃ root, d.arena.get? Arena.root = some root ∧ root.kind = .latex := by
  obtain ⟨forest, -, rfl⟩ := parse_eq_ok_iff.mp h
  obtain ⟨p, hp, htree⟩ := Arena.carries_ofForest (Coord.zero.advance text) forest
  obtain ⟨ids, hget⟩ := hp.holds.get?
  rw [hp.root_eq] at hget
  exact ⟨_, hget, p.kind_tree.symm.trans (congrArg Tree.kind htree)⟩

/-- The root of a parse is the whole document, and every node and its children stand in the text as
the kind of the node says. -/
theorem tiled_of_parse (h : parse path text = .ok d) :
    (∃ root, d.arena.get? Arena.root = some root ∧ root.kind = .latex) ∧
      ∀ id node, d.arena.get? id = some node → d.Tiled id node := by
  refine ⟨exists_root_of_parse h, fun id node hnode => ?_⟩
  obtain ⟨children, hids, hholds, -, horigin⟩ := exists_origin_of_parse h hnode
  cases horigin with
  | construct hpiece hm hwhole => exact tiled_of_produces hnode hids hholds hpiece hm hwhole
  | @list left right inner hpiece =>
    have hextends := extends_of_piece hnode hpiece rfl
    obtain ⟨hkind, -, hitems⟩ := Tree.node.inj hpiece.list_eq
    refine ⟨_, _, hextends, ?_⟩
    rw [hkind, hids]
    have htext := hpiece.text_eq
    rw [Markup.text, Markup.tokens_items] at htext
    have hspread := spread_of_placeItems (by rwa [Parameters.joined_segments]) hitems hholds
    rwa [Parameters.joined_segments, ← Token.textOf_append] at hspread
  | item hpiece hmem =>
    obtain ⟨rfl, before, item, after, htext, hkind, hspan⟩ := hpiece.item_eq hmem
    refine ⟨_, _, extends_of_covers hnode (covers_of_span htext hspan), ?_⟩
    rw [hkind, hids, Parameters.kindOf]
    cases Parameters.cutAt? '=' 0 item <;> rfl

/-- A list of one item and a word of two bytes in an environment. -/
def shortEnvironment : Document where
  path := ⟨"a.tex"⟩
  text := ['\\', 'b', 'e', 'g', 'i', 'n', '\x7b', 'e', '\x7d', '[', 'v', ']', 'é',
    '\\', 'e', 'n', 'd', '\x7b', 'e', '\x7d']
  arena := .ofForest ⟨0, 20⟩
    [.node (.environment "e" 1) ⟨⟨0, 0⟩, ⟨0, 20⟩⟩
      [.node .squareBlock ⟨⟨0, 9⟩, ⟨0, 12⟩⟩
        [.node .parameterList ⟨⟨0, 10⟩, ⟨0, 11⟩⟩ [.leaf (.parameter "v") ⟨0, 10⟩ ⟨0, 11⟩]],
        .leaf (.text "é") ⟨0, 12⟩ ⟨0, 13⟩]]

theorem tiled_of_parse_shortEnvironment :
    ∃ node, parse ⟨"a.tex"⟩ shortEnvironment.text = .ok shortEnvironment ∧
      shortEnvironment.arena.get? ⟨5⟩ = some node ∧ node.kind = .environment "e" 1 ∧
      node.children = [⟨3⟩, ⟨4⟩] ∧ shortEnvironment.Tiled ⟨5⟩ node := by
  have hparse : parse ⟨"a.tex"⟩ shortEnvironment.text = .ok shortEnvironment := by rfl
  have hnode : shortEnvironment.arena.get? ⟨5⟩ = some ⟨.environment "e" 1,
    Arena.rangeOf ⟨⟨0, 0⟩, ⟨0, 20⟩⟩, [⟨3⟩, ⟨4⟩], some Arena.root⟩ := rfl
  exact ⟨_, hparse, hnode, rfl, rfl, (tiled_of_parse hparse).2 _ _ hnode⟩

end Document

end TexAnchor
