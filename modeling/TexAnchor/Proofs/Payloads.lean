import TexAnchor.Proofs.Pieces
import TexAnchor.Proofs.Spelling
import TexAnchor.Proofs.Surviving

/-! # What a node says about its source

`NodeKind.Written` says how a node is written: it relates what the kind of a node carries, and the
sources of its children, to the source of the node.  The grammar produces only markup that is written
so (`Grammar.Produces.written`), and so every node of a parse is (`Document.written_of_parse`). -/

namespace TexAnchor

open Text (Coord)
open Token (textOf)

/-! ### How constructs are written -/

/-- Spaces, tabs and line ends; a carriage return stands only before a line feed. -/
inductive Text.Spaced : List Char → Prop
  | nil : Spaced []
  | space {text : List Char} : Spaced text → Spaced (' ' :: text)
  | tab {text : List Char} : Spaced text → Spaced ('\t' :: text)
  | lineFeed {text : List Char} : Spaced text → Spaced ('\n' :: text)
  | lineEnd {text : List Char} : Spaced text → Spaced ('\r' :: '\n' :: text)

/-- What stands before and behind mathematics that is set off so. -/
def MathDelimiter.Encloses : MathDelimiter → List Char → List Char → Prop
  | dollar, opener, closer => opener = ['$'] ∧ closer = ['$']
  | doubleDollar, opener, closer => opener = ['$', '$'] ∧ closer = ['$', '$']
  | parenthesis, opener, closer => opener = ['\\', '('] ∧ closer = ['\\', ')']
  | bracket, opener, closer => opener = ['\\', '['] ∧ closer = ['\\', ']']
  | environment name, opener, closer =>
    EnvironmentMark.opening.Tags name.toList opener ∧ EnvironmentMark.closing.Tags name.toList closer

/-- How a node of a kind is written, if its children are written as the `parts` are. -/
def NodeKind.Written (parts : List (List Char)) : NodeKind → List Char → Prop
  | latex, source => source = parts.flatten
  | text content, source | specialSymbol content, source | parameter content, source =>
    source = content.toList
  | whitespace newlines, source => Text.Spaced source ∧ newlines = source.count '\n'
  | comment content, source => source = '%' :: content.toList
  | command name, source => source = '\\' :: (name.toList ++ parts.flatten)
  | environment name _, source => ∃ opening closing, source = opening ++ parts.flatten ++ closing ∧
      EnvironmentMark.opening.Tags name.toList opening ∧ EnvironmentMark.closing.Tags name.toList closing
  | group, source | curlyBlock, source => source = '\x7b' :: (parts.flatten ++ ['\x7d'])
  | math delimiter content, source => ∃ opener closer, source = opener ++ content.toList ++ closer ∧
      delimiter.Encloses opener closer
  | squareBlock, source => source = '[' :: (parts.flatten ++ [']'])
  | parameterList, _ => True
  | assignment key value, source => ∃ before after, source = before ++ '=' :: after ∧
      Text.trim before = key.toList ∧ Text.trim after = value.toList

/-! ### Tokens of white space -/

theorem Text.Spaced.append {a b : List Char} (ha : Spaced a) (hb : Spaced b) : Spaced (a ++ b) := by
  induction ha with
  | nil => exact hb
  | space _ ih => exact .space ih
  | tab _ ih => exact .tab ih
  | lineFeed _ ih => exact .lineFeed ih
  | lineEnd _ ih => exact .lineEnd ih

theorem Text.spaced_of_forall {text : List Char} (h : ∀ c ∈ text, c = ' ' ∨ c = '\t') :
    Spaced text ∧ text.count '\n' = 0 := by
  induction text with
  | nil => exact ⟨.nil, rfl⟩
  | cons c text ih =>
    obtain ⟨htext, hcount⟩ := ih fun c hc => h c (List.mem_cons_of_mem _ hc)
    rcases h c List.mem_cons_self with rfl | rfl
    · exact ⟨.space htext, by simp [hcount]⟩
    · exact ⟨.tab htext, by simp [hcount]⟩

/-- A token of white space has one line feed if it is a line end, and none otherwise. -/
theorem Token.Lexical.spaced {t : Token} (h : t.Lexical) (hspace : t.kind.isSpace = true) :
    Text.Spaced t.text ∧ t.text.count '\n' = if t.kind = .newline then 1 else 0 := by
  rcases (by cases hkind : t.kind <;> simp_all [TokenKind.isSpace] :
    t.kind = .whitespace ∨ t.kind = .newline) with hkind | hkind
  · simpa [hkind] using Text.spaced_of_forall (h.spells hkind)
  · rcases h.spells hkind with htext | htext <;> rw [htext, if_pos hkind]
    exacts [⟨.lineFeed .nil, rfl⟩, ⟨.lineEnd .nil, rfl⟩]

theorem spaced_textOf {run : List Token} (hspace : ∀ t ∈ run, t.kind.isSpace = true)
    (hlexical : ∀ t ∈ run, t.Lexical) :
    Text.Spaced (textOf run) ∧ run.countP (·.kind = .newline) = (textOf run).count '\n' := by
  induction run with
  | nil => exact ⟨.nil, rfl⟩
  | cons t run ih =>
    obtain ⟨hrun, hcount⟩ := ih (fun t ht => hspace t (List.mem_cons_of_mem _ ht))
      fun t ht => hlexical t (List.mem_cons_of_mem _ ht)
    obtain ⟨ht, hone⟩ := (hlexical t List.mem_cons_self).spaced (hspace t List.mem_cons_self)
    rw [Token.textOf_cons]
    refine ⟨ht.append hrun, ?_⟩
    rw [List.count_append, hone, ← hcount, List.countP_cons, Nat.add_comm]
    simp

/-! ### Markup -/

namespace Markup

/-- The text of the piece, if it is read as a tree. -/
def source? : Markup → Option (List Char)
  | raw _ => none
  | m => some m.text

/-- The texts of the pieces that are read as trees. -/
def sources (ms : List Markup) : List (List Char) := ms.filterMap source?

theorem sources_append (a b : List Markup) : sources (a ++ b) = sources a ++ sources b :=
  List.filterMap_append

theorem sources_cons (m : Markup) (ms : List Markup) :
    sources (m :: ms) = m.source?.toList ++ sources ms := by
  cases m <;> rfl

theorem source?_cases (m : Markup) (here : Coord) : m.source? = none ∧ m.trees here = [] ∨
    m.source? = some m.text ∧ ∃ t, m.trees here = [t] := by
  cases m with
  | raw ts => exact .inl ⟨rfl, trees_raw here ts⟩
  | items ts => exact .inr ⟨rfl, _, trees_items here ts⟩
  | node kind parts => exact .inr ⟨rfl, _, trees_node here kind parts⟩

@[simp] theorem sources_raw (ts : List Token) (ms : List Markup) :
    sources (raw ts :: ms) = sources ms := rfl

@[simp] theorem sources_nil : sources [] = [] := rfl

theorem flatten_sources {ms : List Markup} (h : ∀ m ∈ ms, ∃ kind parts, m = .node kind parts) :
    (sources ms).flatten = textOf ms := by
  induction ms with
  | nil => simp
  | cons m ms ih =>
    obtain ⟨kind, parts, rfl⟩ := h m List.mem_cons_self
    have hcons : sources (node kind parts :: ms) = (node kind parts).text :: sources ms := rfl
    rw [hcons, List.flatten_cons, ih fun m hm => h m (List.mem_cons_of_mem _ hm), textOf_cons]

theorem textOf_between (opening closing : List Token) (ms : List Markup) :
    textOf (raw opening :: (ms ++ [raw closing])) =
      Token.textOf opening ++ textOf ms ++ Token.textOf closing := by
  simp [textOf]

theorem flatten_sources_between {ms : List Markup} (opening closing : List Token)
    (h : ∀ m ∈ ms, ∃ kind parts, m = .node kind parts) :
    (sources (raw opening :: (ms ++ [raw closing]))).flatten = textOf ms := by
  rw [sources_raw, sources_append, sources_raw, sources_nil, List.append_nil, flatten_sources h]

end Markup

namespace Grammar

theorem written_braces {opener closer : Token} {body : List Markup} (hopener : opener.kind = .lBrace)
    (hcloser : closer.kind = .rBrace) (hbody : ∀ m ∈ body, Produces .item m)
    (hlexical : ∀ t ∈ Markup.tokensOf (.raw [opener] :: (body ++ [.raw [closer]])), t.Lexical) :
    NodeKind.group.Written (Markup.sources (.raw [opener] :: (body ++ [.raw [closer]])))
      (Markup.textOf (.raw [opener] :: (body ++ [.raw [closer]]))) := by
  have hopens : opener.text = ['\x7b'] := (hlexical opener (by simp)).spells hopener
  have hcloses : closer.text = ['\x7d'] := (hlexical closer (by simp)).spells hcloser
  rw [NodeKind.Written, Markup.flatten_sources_between _ _ fun m hm => (hbody m hm).exists_eq_node,
    Markup.textOf_between]
  simp [Token.textOf_cons, hopens, hcloses]

theorem encloses_mathDelimiter {opener closer : Token} (hopener : isMathOpener opener.kind = true)
    (hcloser : closer.kind = (mathDelimiter opener.kind).1) (hopens : opener.Lexical)
    (hcloses : closer.Lexical) :
    (mathDelimiter opener.kind).2.Encloses opener.text closer.text := by
  have hopens := hopens.spells rfl
  have hcloses := hcloses.spells hcloser
  cases hkind : opener.kind <;> rw [hkind] at hopener hopens hcloses <;>
    first
    | exact ⟨hopens, hcloses⟩
    | cases hopener

/-- What the grammar produces is written as its kind says. -/
theorem Produces.written {role : Role} {kind : NodeKind} {parts : List Markup}
    (h : Produces role (.node kind parts)) (hlexical : ∀ t ∈ Markup.tokensOf parts, t.Lexical) :
    kind.Written (Markup.sources parts) (Markup.textOf parts) := by
  cases h with
  | document hbody => exact (Markup.flatten_sources fun m hm => (hbody m hm).exists_eq_node).symm
  | space _ hspace =>
    have hrun := spaced_textOf hspace fun t ht => hlexical t (by simpa using ht)
    simpa [NodeKind.Written, Markup.textOf] using hrun
  | @comment t hkind =>
    have hword := List.eq_cons_of_mem_head? ((hlexical t (by simp)).spells hkind)
    simpa [NodeKind.Written, Markup.textOf, Token.textOf_cons] using hword
  | symbol | text => simp [NodeKind.Written, Markup.textOf, Token.textOf_cons]
  | group hopener hcloser hbody => exact written_braces hopener hcloser hbody hlexical
  | curlyBlock hopener hcloser hbody => exact written_braces hopener hcloser hbody hlexical
  | @squareBlock opener closer inner hopener hcloser =>
    have hopens : opener.text = ['['] := (hlexical opener (by simp)).spells hopener
    have hcloses : closer.text = [']'] := (hlexical closer (by simp)).spells hcloser
    have hsources : Markup.sources [.raw [opener], .items inner, .raw [closer]] = [textOf inner] := rfl
    rw [hsources]
    simp [NodeKind.Written, Markup.textOf, Token.textOf_cons, hopens, hcloses]
  | @command t blocks hkind _ hblocks =>
    have hword := List.eq_cons_of_mem_head? ((hlexical t (by simp)).spells hkind)
    rw [NodeKind.Written, Markup.sources_raw,
      Markup.flatten_sources fun m hm => (hblocks m hm).exists_eq_node, String.toList_ofList,
      Markup.textOf, Markup.tokensOf_cons, Markup.tokens_raw, List.singleton_append, Token.textOf_cons]
    exact congrArg (· ++ Markup.textOf blocks) hword
  | @environment name opening closing blocks body hopening _ hblocks hbody _ _ hclosing =>
    have hnodes : ∀ m ∈ blocks ++ body, ∃ kind parts, m = .node kind parts := by
      intro m hm
      rcases List.mem_append.mp hm with hm | hm
      exacts [(hblocks m hm).exists_eq_node, (hbody m hm).exists_eq_node]
    rw [← List.append_assoc, NodeKind.Written, Markup.flatten_sources_between _ _ hnodes,
      Markup.textOf_between, String.toList_ofList]
    exact ⟨_, _, rfl, hopening.tags fun t ht => hlexical t (by simp [ht]),
      hclosing.tags fun t ht => hlexical t (by simp [ht])⟩
  | @math opener closer inner hopener hcloser =>
    have hencloses := encloses_mathDelimiter hopener hcloser (hlexical opener (by simp))
      (hlexical closer (by simp))
    refine ⟨opener.text, closer.text, ?_, hencloses⟩
    simp [Markup.textOf, Token.textOf_cons]
  | @mathEnvironment name opening content closing hopening _ hclosing =>
    refine ⟨textOf opening, textOf closing, ?_, ?_, ?_⟩
    · simp [Markup.textOf]
    · rw [String.toList_ofList]
      exact hopening.tags fun t ht => hlexical t (by simp [ht])
    · rw [String.toList_ofList]
      exact hclosing.1.tags fun t ht => hlexical t (by simp [ht])

end Grammar

namespace Parameters

variable {text before after : List Char}

theorem eq_of_cutAt?_eq_some {mark : Char} {depth : Nat}
    (h : cutAt? mark depth text = some (before, after)) : text = before ++ mark :: after := by
  induction text generalizing depth before with
  | nil => cases h
  | cons c text ih =>
    unfold cutAt? at h
    split at h
    · next hmark =>
      cases h
      rw [hmark.1, List.nil_append]
    · obtain ⟨⟨before', after'⟩, hcut, heq⟩ := Option.map_eq_some_iff.mp h
      cases heq
      rw [ih hcut, List.cons_append]

/-- An item is written as what it is read as. -/
theorem written_kindOf (parts : List (List Char)) (item : List Char) :
    (kindOf item).Written parts item := by
  unfold kindOf
  cases hcut : cutAt? '=' 0 item with
  | none => exact String.toList_ofList.symm
  | some cut => exact ⟨cut.1, cut.2, eq_of_cutAt?_eq_some hcut, by simp, by simp⟩

end Parameters

/-! ### Documents that were just parsed -/

namespace Document

open Grammar (Piece)

variable {d : Document} {path : Path} {text : List Char} {id : NodeId} {node : Node}

theorem nodeText?_of_covers {before source after : List Char} (hnode : d.arena.get? id = some node)
    (h : d.Covers node.range before source after) : d.nodeText? id = some source := by
  rw [nodeText?, hnode, Option.bind_some, h.textIn?]

theorem map_nodeText?_of_forest {up : Option NodeId} {left right : List Token} {ms : List Markup}
    {children : List Planted} (htokens : tokenize d.text = left ++ Markup.tokensOf ms ++ right)
    (hforest : children.map Planted.tree = Markup.forest (Coord.zero.advance (textOf left)) ms)
    (hholds : ∀ c ∈ children, d.arena.Holds up c) :
    (children.map Planted.id).map d.nodeText? = (Markup.sources ms).map some := by
  induction ms generalizing left children with
  | nil =>
    obtain rfl : children = [] := by simpa using hforest
    rfl
  | cons m ms ih =>
    rw [Markup.tokensOf_cons] at htokens
    rw [Markup.forest_cons, Markup.text, ← Coord.advance_append, ← Token.textOf_append] at hforest
    have htokens' : tokenize d.text = left ++ m.tokens ++ Markup.tokensOf ms ++ right := by
      simpa using htokens
    rcases m.source?_cases (Coord.zero.advance (textOf left)) with ⟨hsource, htrees⟩ | ⟨hsource, t, htrees⟩
    · rw [htrees, List.nil_append] at hforest
      rw [Markup.sources_cons, hsource]
      exact ih htokens' hforest hholds
    · rw [htrees, List.singleton_append] at hforest
      obtain ⟨c, later, rfl, rfl, hlater⟩ := List.map_eq_cons_iff.mp hforest
      have hpiece : Piece d.text left (Markup.tokensOf ms ++ right) m c.tree :=
        ⟨by simpa using htokens, htrees⟩
      obtain ⟨ids, hget⟩ := (hholds c List.mem_cons_self).get?
      have hfirst := nodeText?_of_covers hget (covers_of_piece hpiece c.span_tree.symm)
      have hrest := ih htokens' hlater fun c hc => hholds c (List.mem_cons_of_mem _ hc)
      rw [Markup.sources_cons, hsource]
      simp only [List.map_cons, hfirst, hrest, Option.toList_some, List.singleton_append]

/-- Every node of a parse is written as its kind says. -/
theorem written_of_parse (h : parse path text = .ok d) (hnode : d.arena.get? id = some node) :
    ∃ parts source, node.children.map d.nodeText? = parts.map some ∧
      d.nodeText? id = some source ∧ node.kind.Written parts source := by
  obtain ⟨children, hids, hholds, -, horigin⟩ := exists_origin_of_parse h hnode
  rw [hids]
  cases horigin with
  | construct hpiece hm =>
    have hsource := nodeText?_of_covers hnode (covers_of_piece hpiece rfl)
    obtain ⟨kind, parts, rfl⟩ := hm.exists_eq_node
    obtain ⟨hkind, -, hforest⟩ := Tree.node.inj hpiece.tree_eq
    rw [hkind]
    exact ⟨_, _, map_nodeText?_of_forest hpiece.tokens_eq hforest hholds, hsource,
      hm.written hpiece.lexical⟩
  | list hpiece =>
    have hsource := nodeText?_of_covers hnode (covers_of_piece hpiece rfl)
    rw [(Tree.node.inj hpiece.list_eq).1]
    refine ⟨children.map fun c => (d.nodeText? c.id).getD [], _, ?_, hsource, trivial⟩
    rw [List.map_map, List.map_map]
    refine List.map_congr_left fun c hc => ?_
    obtain ⟨ids, hget⟩ := (hholds c hc).get?
    obtain ⟨before, item, after, htext, hleaf⟩ := hpiece.exists_item (List.mem_map_of_mem hc)
    have hspan : c.range.span = ⟨Coord.zero.advance before, Coord.zero.advance (before ++ item)⟩ :=
      c.span_tree.symm.trans (congrArg Tree.span hleaf)
    simp [nodeText?_of_covers hget (covers_of_span htext hspan)]
  | item hpiece hmem =>
    obtain ⟨rfl, before, item, after, htext, hkind, hspan⟩ := hpiece.item_eq hmem
    rw [hkind]
    exact ⟨[], item, rfl, nodeText?_of_covers hnode (covers_of_span htext hspan),
      Parameters.written_kindOf [] item⟩

/-- A command with a square block, in which a value is given to a key. -/
def keyedCommand : Document where
  path := ⟨"a.tex"⟩
  text := ['\\', 'x', '[', 'k', ' ', '=', ' ', 'v', ']']
  arena := .ofForest ⟨0, 9⟩
    [.node (.command "x") ⟨⟨0, 0⟩, ⟨0, 9⟩⟩
      [.node .squareBlock ⟨⟨0, 2⟩, ⟨0, 9⟩⟩
        [.node .parameterList ⟨⟨0, 3⟩, ⟨0, 8⟩⟩ [.leaf (.assignment "k" "v") ⟨0, 3⟩ ⟨0, 8⟩]]]]

theorem written_of_parse_keyedCommand :
    ∃ node parts, parse ⟨"a.tex"⟩ keyedCommand.text = .ok keyedCommand ∧
      keyedCommand.arena.get? ⟨4⟩ = some node ∧ node.kind = .command "x" ∧
      node.children.map keyedCommand.nodeText? = parts.map some ∧
      keyedCommand.nodeText? ⟨4⟩ = some keyedCommand.text ∧
      node.kind.Written parts keyedCommand.text := by
  have hparse : parse ⟨"a.tex"⟩ keyedCommand.text = .ok keyedCommand := by rfl
  have hnode : keyedCommand.arena.get? ⟨4⟩ =
      some ⟨.command "x", Arena.rangeOf ⟨⟨0, 0⟩, ⟨0, 9⟩⟩, [⟨3⟩], some Arena.root⟩ := rfl
  have htext : keyedCommand.nodeText? ⟨4⟩ = some keyedCommand.text := rfl
  obtain ⟨parts, source, hparts, hsource, hwritten⟩ := written_of_parse hparse hnode
  obtain rfl := Option.some.inj (htext.symm.trans hsource)
  exact ⟨_, parts, hparse, hnode, rfl, hparts, htext, hwritten⟩

end Document

end TexAnchor
