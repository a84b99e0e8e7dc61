import TexAnchor.Proofs.Agreement
import TexAnchor.Proofs.Derivation

/-! # Replacing a node in place

A node of a document in step with its text is a part of the document's markup, and an incremental
replacement exchanges that part for the item that the new text is (`Document.exists_replaced`).

Whether the result is what a parse of the new text gives depends on the tokens at the two ends of the
new text and on nothing else: the tree has the same outline as the parse just if no token before the
node is continued by the new text and the new text's last token is not continued by what stands behind
the node (`Document.outline_eq_parse_iff`).  Isolation by blanks does not ensure that.  For constructs
with marks of their own it does (`Document.Replaced.parted_of_isMarked`). -/

namespace TexAnchor

open Text (Coord)
open Token (textOf Parted)

namespace Grammar

/-! ### Roles and single items -/

/-- Where a node of some kind may stand. -/
def roleOf : KindTag → Role
  | .latex => .document
  | .curlyBlock | .squareBlock => .block
  | _ => .item

theorem Produces.role_eq {role : Role} {kind : NodeKind} {parts : List Markup}
    (h : Produces role (.node kind parts)) : role = roleOf kind.tag := by
  cases h <;> rfl

theorem Produces.tag_ne {kind : NodeKind} {parts : List Markup}
    (h : Produces .item (.node kind parts)) :
    kind.tag ≠ .parameterList ∧ kind.tag ≠ .parameter ∧ kind.tag ≠ .assignment := by
  cases h <;> simp [NodeKind.tag]

theorem Produces.tokens_ne_nil {role : Role} {kind : NodeKind} {parts : List Markup}
    (h : Produces role (.node kind parts)) (hrole : role ≠ .document) :
    (Markup.node kind parts).tokens ≠ [] := by
  obtain ⟨tokens, later, rfl, hne⟩ := h.exists_raw hrole
  simp [hne]

theorem Produces.text_ne_nil_of_lexical {role : Role} {kind : NodeKind} {parts : List Markup}
    (h : Produces role (.node kind parts)) (hrole : role ≠ .document)
    (hlexical : ∀ t ∈ (Markup.node kind parts).tokens, t.Lexical) :
    (Markup.node kind parts).text ≠ [] := by
  obtain ⟨t, later, hcons⟩ := List.exists_cons_of_ne_nil (h.tokens_ne_nil hrole)
  have ht := hlexical t (by rw [hcons]; exact List.mem_cons_self)
  simp [Markup.text, hcons, Token.textOf_cons, ht.text_ne_nil]

theorem Produces.text_ne_nil {y : Markup} {text : List Char} (h : Produces .item y)
    (htokens : y.tokens = tokenize text) : text ≠ [] := by
  rintro rfl
  obtain ⟨kind, parts, rfl⟩ := h.exists_eq_node
  exact h.tokens_ne_nil (by simp) htokens

theorem exists_item_of_readFrom {origin : Coord} {text : List Char} {t : Tree}
    (h : readFrom origin text = .ok [t]) :
    ∃ y, Produces .item y ∧ y.tokens = tokenize text ∧ y.trees origin = [t] := by
  obtain ⟨ms, ⟨hitems, -⟩, htokens, hforest⟩ := exists_isContent_of_readFrom h
  have hforest : Markup.forest origin ms = [] ++ t :: [] := hforest.symm
  obtain ⟨pre, y, post, rfl, hpre, htree, hpost⟩ := Markup.exists_of_forest_eq hforest
  have hempty {here : Coord} {ms : List Markup} (hitems : ∀ m ∈ ms, Produces .item m)
      (hforest : [] = Markup.forest here ms) : ms = [] := by
    cases ms with
    | nil => rfl
    | cons m ms =>
      obtain ⟨kind, parts, rfl⟩ := (hitems m (by simp)).exists_eq_node
      simp at hforest
  obtain rfl := hempty (fun m hm => hitems m (by simp [hm])) hpre
  obtain rfl := hempty (fun m hm => hitems m (by simp [hm])) hpost
  exact ⟨y, hitems y (by simp), by simpa using htokens, by simpa using htree⟩

theorem span_of_readFrom {origin : Coord} {text : List Char} {t : Tree}
    (h : readFrom origin text = .ok [t]) :
    t.span = ⟨origin, origin.advance text⟩ := by
  obtain ⟨y, hy, htokens, htree⟩ := exists_item_of_readFrom h
  obtain ⟨kind, parts, rfl⟩ := hy.exists_eq_node
  rw [Markup.trees_node, List.singleton_inj] at htree
  rw [← htree, Tree.span, ← Markup.text_node kind, Markup.text, htokens, textOf_tokenize]

/-! ### Constructs with marks of their own -/

/-- Commands, environments and mathematics begin with a backslash or a dollar sign, and end in a
closing mark or a name. -/
def isMarked : KindTag → Bool
  | .command | .environment | .math => true
  | _ => false

variable {kind : NodeKind} {parts : List Markup}

theorem Produces.initial?_of_isMarked (h : Produces .item (.node kind parts))
    (hmarked : isMarked kind.tag = true) :
    ∃ t ∈ (Markup.node kind parts).tokens.head?, t.kind.initial? = some '\\' ∨
      t.kind.initial? = some '$' := by
  cases h with
  | @command t _ hkind => exact ⟨t, by simp, .inl (by rw [hkind]; rfl)⟩
  | @math opener _ _ hopener =>
    refine ⟨opener, by simp, ?_⟩
    cases hkind : opener.kind <;> simp_all [isMathOpener, TokenKind.initial?]
  | environment htag =>
    obtain ⟨t, rest, rfl, hkind⟩ := htag.exists_eq_cons
    exact ⟨t, by simp, .inl (by rw [hkind]; rfl)⟩
  | mathEnvironment htag =>
    obtain ⟨t, rest, rfl, hkind⟩ := htag.exists_eq_cons
    exact ⟨t, by simp, .inl (by rw [hkind]; rfl)⟩
  | _ => cases hmarked

theorem Produces.exists_head_of_isMarked (h : Produces .item (.node kind parts))
    (hmarked : isMarked kind.tag = true)
    (hlexical : ∀ t ∈ (Markup.node kind parts).tokens, t.Lexical) :
    ∃ c, (textOf (Markup.node kind parts).tokens).head? = some c ∧ (c = '\\' ∨ c = '$') := by
  obtain ⟨t, ht, hinitial⟩ := h.initial?_of_isMarked hmarked
  have hhead {c : Char} (hc : t.kind.initial? = some c) :
      (textOf (Markup.node kind parts).tokens).head? = some c := by
    rw [Token.head?_textOf hlexical, Option.mem_def.mp ht, Option.bind_some]
    exact (hlexical t (List.mem_of_head? ht)).head_eq hc
  rcases hinitial with hinitial | hinitial
  · exact ⟨_, hhead hinitial, .inl rfl⟩
  · exact ⟨_, hhead hinitial, .inr rfl⟩

theorem Produces.opensBlock_of_isMarked (h : Produces .item (.node kind parts))
    (hmarked : isMarked kind.tag = true) :
    ∀ first ∈ (Markup.node kind parts).firstKind?, first.opensBlock = false := by
  obtain ⟨t, ht, hinitial⟩ := h.initial?_of_isMarked hmarked
  intro first hfirst
  rw [Markup.firstKind?, Option.mem_def.mp ht] at hfirst
  obtain rfl := Option.some.inj hfirst
  cases hkind : t.kind <;> simp_all [TokenKind.initial?, TokenKind.opensBlock]

theorem Produces.getLast_of_isMarked (h : Produces .item (.node kind parts))
    (hmarked : isMarked kind.tag = true) :
    ∀ t ∈ (Markup.node kind parts).tokens.getLast?, Token.takesBlanks t.kind = false := by
  have hends {tokens : List Token} (hlast : ∃ t ∈ tokens.getLast?, endsHead t.kind = true) :
      ∀ t ∈ tokens.getLast?, Token.takesBlanks t.kind = false := by
    obtain ⟨t, ht, hkind⟩ := hlast
    intro t' ht'
    obtain rfl : t = t' := Option.some.inj (ht.symm.trans ht')
    cases h : t.kind <;> simp_all [endsHead, Token.takesBlanks]
  cases h with
  | @command t blocks hkind _ hblocks =>
    have := hends (getLast_head [t] ⟨t, rfl, by rw [hkind]; rfl⟩ hblocks)
    simpa using this
  | @math opener closer inner hopener hcloser =>
    intro t ht
    obtain rfl : closer = t := by simpa [List.getLast?_cons] using ht
    rw [hcloser]
    cases hkind : opener.kind <;> simp_all [isMathOpener, mathDelimiter, Token.takesBlanks]
  | environment _ _ _ _ _ _ hclosing =>
    obtain ⟨t, ht, hkind⟩ := hclosing.getLast
    refine hends ⟨t, ?_, hkind⟩
    simp [List.getLast?_append, Option.mem_def.mp ht]
  | mathEnvironment _ _ hend =>
    obtain ⟨t, ht, hkind⟩ := hend.1.getLast
    refine hends ⟨t, ?_, hkind⟩
    simp [List.getLast?_append, Option.mem_def.mp ht]
  | _ => cases hmarked

end Grammar

namespace Document

open Grammar

variable {d d' fresh : Document} {p : Planted} {m : Markup} {path : Path} {text : List Char}

/-! ### Parses as markup -/

theorem exists_markup_of_parse (h : parse path text = .ok fresh) :
    ∃ p m, fresh.arena.Carries p ∧ Produces .document m ∧ m.tokens = tokenize text ∧
      m.trees .zero = [p.tree] := by
  obtain ⟨forest, hread, rfl⟩ := parse_eq_ok_iff.mp h
  obtain ⟨ms, hms, htokens, rfl⟩ := exists_isContent_of_readFrom hread
  obtain ⟨p, hp, htree⟩ := Arena.carries_ofForest (Coord.zero.advance text) (Markup.forest .zero ms)
  refine ⟨p, .node .latex ms, hp, .document hms.1 hms.2, by simpa using htokens, ?_⟩
  rw [htree, Markup.trees_node, Markup.textOf, htokens, textOf_tokenize]

theorem exists_parse_of_produces (path : Path) (hm : Produces .document m)
    (htokens : m.tokens = tokenize text) :
    ∃ fresh p, parse path text = .ok fresh ∧ fresh.arena.Carries p ∧ m.trees .zero = [p.tree] := by
  cases hm with
  | @document body hbody hchained =>
    rw [Markup.tokens_node] at htokens
    have hread := readFrom_of_isContent ⟨hbody, hchained⟩ htokens .zero
    obtain ⟨p, hp, htree⟩ :=
      Arena.carries_ofForest (Coord.zero.advance text) (Markup.forest .zero body)
    refine ⟨_, p, parse_eq_ok_iff.mpr ⟨_, hread, rfl⟩, hp, ?_⟩
    rw [htree, Markup.trees_node, Markup.textOf, htokens, textOf_tokenize]

/-- A document is in step if its tree is the one of markup with the tokens of its text. -/
theorem inStep_iff (h : d.arena.Carries p) : d.InStep ↔
    ∃ m, Produces .document m ∧ m.tokens = tokenize d.text ∧ m.trees .zero = [p.tree] := by
  constructor
  · rintro ⟨fresh, hfresh, htree⟩
    obtain ⟨q, m, hq, hm, htokens, hq_tree⟩ := exists_markup_of_parse hfresh
    rw [tree?, tree?, h.tree?, hq.tree?, Option.some_inj] at htree
    exact ⟨m, hm, htokens, htree ▸ hq_tree⟩
  · rintro ⟨m, hm, htokens, htree⟩
    obtain ⟨fresh, q, hfresh, hq, hq_tree⟩ := exists_parse_of_produces d.path hm htokens
    refine ⟨fresh, hfresh, ?_⟩
    rw [tree?, tree?, h.tree?, hq.tree?]
    exact congrArg some (List.singleton_inj.mp (htree.symm.trans hq_tree))

/-! ### An incremental replacement as an exchange -/

/-- In the markup of the document the item `x`, with the tokens `left` before it and `right` behind
it, has been exchanged for the item `y` that the text is. -/
structure Replaced (d d' : Document) (range : Range) (text : List Char) (left right : List Token)
    (x y m m' : Markup) : Prop where
  path_eq : d'.path = d.path
  tokens_eq : tokenize d.text = left ++ x.tokens ++ right
  around_eq : d.around range = (textOf left, textOf right)
  text_eq : d'.text = textOf left ++ text ++ textOf right
  isolated : isIsolated (textOf left) (textOf right) = true
  new_tokens : y.tokens = tokenize text
  exchange : Exchange x y left right m m'
  suits : Suits x y left
  produces : Produces .document m
  tree : ∃ p', d'.arena.Carries p' ∧ m'.trees .zero = [p'.tree]

/-- Behind tokens that end in a blank nothing is taken for a parameter block. -/
theorem endsHead_eq_false_of_isolated {left : List Token} (hlexical : ∀ t ∈ left, t.Lexical)
    (hblank : (textOf left).getLast?.all Text.isBlank = true) :
    ∀ t ∈ left.getLast?, endsHead t.kind = false := by
  intro t ht
  have hmem : t ∈ left := List.mem_of_getLast? ht
  rw [Token.getLast?_textOf hlexical, Option.mem_def.mp ht, Option.bind_some] at hblank
  apply Bool.eq_false_iff.mpr
  intro hends
  have hkind : t.kind = .command ∨ t.kind = .rBrace ∨ t.kind = .rBracket := by
    cases h : t.kind <;> simp_all [endsHead]
  obtain ⟨c, hc⟩ := Option.ne_none_iff_exists'.mp
    (mt List.getLast?_eq_none_iff.mp (hlexical t hmem).text_ne_nil)
  have := (hlexical t hmem).isBlank_getLast hkind c hc
  rw [hc, Option.all_some, this] at hblank
  cases hblank

variable {id new : NodeId} {node : Node}

theorem exists_part {f : Coord → Coord} {old : Planted} {t t' : Tree}
    (htokens : m.tokens = tokenize d.text) (htree : m.trees .zero = [p.tree])
    (hregrown : Tree.Regrown f old.tree t p.tree t')
    (htag : old.kind.tag ≠ .parameterList ∧ old.kind.tag ≠ .parameter ∧ old.kind.tag ≠ .assignment) :
    ∃ parts left right, tokenize d.text = left ++ (Markup.node old.kind parts).tokens ++ right ∧
      old.range.start.coord = Coord.zero.advance (textOf left) ∧
      old.range.stop.coord =
        Coord.zero.advance (textOf left ++ (Markup.node old.kind parts).text) ∧
      ∀ y, ∃ m', Exchange (.node old.kind parts) y left right m m' ∧
        ((∀ q, q <+: textOf left → f (Coord.zero.advance q) = Coord.zero.advance q) →
          (∀ q, q <+: textOf right →
            f (Coord.zero.advance (textOf left ++ (Markup.node old.kind parts).text ++ q)) =
              Coord.zero.advance (textOf left ++ y.text ++ q)) →
          y.trees (Coord.zero.advance (textOf left)) = [t] → m'.trees .zero = [t']) := by
  obtain ⟨id, kind, range, children⟩ := old
  rw [Planted.tree_node] at hregrown
  obtain ⟨hlist, hparameter, hassignment⟩ := htag
  obtain ⟨x, left, right, hxtree, hexchange⟩ := exists_exchange hregrown htree hparameter hassignment
  obtain ⟨xkind, parts, rfl⟩ : ∃ kind parts, x = .node kind parts := by
    cases x with
    | raw => simp at hxtree
    | items =>
      simp only [Markup.trees_items, List.singleton_inj, Markup.parameterList,
        Tree.node.injEq] at hxtree
      exact absurd (congrArg NodeKind.tag hxtree.1.symm) hlist
    | node kind parts => exact ⟨kind, parts, rfl⟩
  rw [Markup.trees_node, List.singleton_inj, Tree.node.injEq, Span.mk.injEq,
    ← Coord.advance_append, ← Markup.text_node] at hxtree
  obtain ⟨rfl, ⟨hstart, hstop⟩, -⟩ := hxtree
  refine ⟨parts, left, right, ?_, hstart.symm, hstop.symm, hexchange⟩
  obtain ⟨m', hm', -⟩ := hexchange (.node xkind parts)
  rw [← htokens]
  exact hm'.tokens_eq.1

theorem around_eq_of_advance {range : Range} {a x b : List Char} (htext : d.text = a ++ x ++ b)
    (hstart : range.start.coord = Coord.zero.advance a)
    (hstop : range.stop.coord = Coord.zero.advance (a ++ x)) : d.around range = (a, b) := by
  unfold around
  rw [htext, hstart, hstop, Text.offsetOf_advance _ _ b, List.append_assoc, Text.offsetOf_advance,
    List.take_left, ← List.append_assoc, List.drop_left]

/-- In the markup of the document the item `x`, which covers the range, has been exchanged for the
item `y` that the text is, and the markup `m'` that this gives has the tree `t'`. -/
structure Exchanged (d : Document) (range : Range) (text : List Char) (left right : List Token)
    (x y m m' : Markup) (t' : Tree) : Prop where
  tokens_eq : tokenize d.text = left ++ x.tokens ++ right
  around_eq : d.around range = (textOf left, textOf right)
  applyTo_eq : Edit.applyTo ⟨range, text⟩ d.text = textOf left ++ text ++ textOf right
  new_tokens : y.tokens = tokenize text
  exchange : Exchange x y left right m m'
  produces_old : Produces .item x
  produces_new : Produces .item y
  tag_eq : ∀ kind parts kind' parts', x = .node kind parts → y = .node kind' parts' →
    kind.tag = kind'.tag
  produces : Produces .document m
  trees_eq : m'.trees .zero = [t']

/-- To regrow the tree of a document in step at a node is to exchange the node in its markup. -/
theorem exists_exchanged {old : Planted} {t t' : Tree} (h : d.arena.Carries p) (hstep : d.InStep)
    (hread : readFrom old.range.start.coord text = .ok [t]) (htag : t.kind.tag = old.kind.tag)
    (hregrown : Tree.Regrown (Edit.mapCoord ⟨old.range, text⟩) old.tree t p.tree t') :
    ∃ left right parts y m m',
      Exchanged d old.range text left right (.node old.kind parts) y m m' t' := by
  obtain ⟨m, hm, htokens, htree⟩ := (inStep_iff h).mp hstep
  obtain ⟨y, hy, hytokens, hytree⟩ := exists_item_of_readFrom hread
  obtain ⟨ykind, yparts, rfl⟩ := hy.exists_eq_node
  replace htag : old.kind.tag = ykind.tag := by
    rw [Markup.trees_node, List.singleton_inj] at hytree
    rw [← htag, ← hytree]
    rfl
  obtain ⟨parts, left, right, htokens_d, hstart, hstop, hexchange⟩ :=
    exists_part htokens htree hregrown (htag ▸ hy.tag_ne)
  obtain ⟨m', hm', hmoved⟩ := hexchange (.node ykind yparts)
  obtain ⟨role, hx⟩ := hm'.exists_produces ⟨_, _, rfl⟩ hm
  obtain rfl : role = .item := by rw [hx.role_eq, htag, ← hy.role_eq]
  have htext_d : d.text = textOf left ++ (Markup.node old.kind parts).text ++ textOf right := by
    rw [← textOf_tokenize d.text, htokens_d]
    simp [Markup.text]
  have hytext : (Markup.node ykind yparts).text = text := by
    rw [Markup.text, hytokens, textOf_tokenize]
  have hx_ne : (Markup.node old.kind parts).text ≠ [] :=
    hx.text_ne_nil_of_lexical (by simp) fun t ht => lexical_of_mem_tokenize (by
      rw [htokens_d]
      simp only [List.mem_append, ht, or_true, true_or])
  refine ⟨left, right, parts, .node ykind yparts, m, m', htokens_d,
    around_eq_of_advance htext_d hstart hstop, ?_, hytokens, hm', hx, hy, ?_, hm, hmoved ?_ ?_ ?_⟩
  · rw [htext_d]
    exact Edit.applyTo_append _ hstart hstop
  · rintro kind parts kind' parts' ⟨⟩ ⟨⟩
    exact htag
  · exact fun q hq => Edit.mapCoord_before _ hstart hstop hq (.inr hx_ne)
  · intro q _
    rw [hytext]
    exact Edit.mapCoord_behind _ hstart hstop q
  · rw [← hstart]
    exact hytree

/-- Every incremental replacement in a document in step is an exchange of items. -/
theorem exists_replaced (h : d.arena.Carries p) (hstep : d.InStep)
    (hreplace : d.replaceNode id text = (d', .ok (.incremental new))) :
    ∃ node left right x y m m', d.arena.get? id = some node ∧
      (∃ parts, x = .node node.kind parts) ∧ Replaced d d' node.range text left right x y m m' := by
  obtain ⟨node, old, t, p', hnode, hocc, hkind, hrange, hisolated, hread, htag, hpath, htext, hp',
    hregrown⟩ := exists_regrown h hreplace
  rw [← hkind] at htag
  rw [← hrange] at hisolated hread hregrown htext
  obtain ⟨left, right, parts, y, m, m', hexchanged⟩ := exists_exchanged h hstep hread htag hregrown
  have hlexical : ∀ t ∈ left, t.Lexical := fun t ht =>
    lexical_of_mem_tokenize (by rw [hexchanged.tokens_eq]; simp [ht])
  rw [hexchanged.around_eq] at hisolated
  refine ⟨node, left, right, .node old.kind parts, y, m, m', hnode, ⟨parts, by rw [hkind]⟩, ?_⟩
  rw [← hrange]
  refine ⟨hpath, hexchanged.tokens_eq, hexchanged.around_eq, htext.trans hexchanged.applyTo_eq,
    hisolated, hexchanged.new_tokens, hexchanged.exchange, ⟨hexchanged.produces_old,
    hexchanged.produces_new, hexchanged.tag_eq, fun _ _ _ => .inr ?_⟩, hexchanged.produces, p', hp',
    hexchanged.trees_eq⟩
  rw [isIsolated, Bool.and_eq_true] at hisolated
  exact endsHead_eq_false_of_isolated hlexical hisolated.1

/-! ### When the exchange is what a parse would read -/

variable {range : Range} {left right : List Token} {x y m' : Markup}

section Replaced

variable (h : Replaced d d' range text left right x y m m')

include h

theorem Replaced.lexical : ∀ t ∈ left ++ x.tokens ++ right, t.Lexical := fun _ ht =>
  lexical_of_mem_tokenize (h.tokens_eq ▸ ht)

/-- Where nothing joins the new text to what stands around it, the document is in step. -/
theorem Replaced.inStep (hleft : Parted left text) (hright : Parted (tokenize text) (textOf right)) :
    d'.InStep := by
  obtain ⟨p', hp', htree⟩ := h.tree
  refine (inStep_iff hp').mpr ⟨m', h.exchange.produces h.produces h.suits, ?_, htree⟩
  rw [h.exchange.tokens_eq.2, h.text_eq, h.new_tokens,
    tokenize_between h.tokens_eq (h.suits.produces_new.text_ne_nil h.new_tokens) hleft hright]

/-- Where the outline is that of a parse, the text can be cut at every node that is not an item of a
list of parameters. -/
theorem Replaced.parted_of_mem_outlines (hfresh : parse d'.path d'.text = .ok fresh)
    (houtline : d'.outline = fresh.outline) {a b : List Char} (htext : d'.text = a ++ b)
    {kind : NodeKind} (hkind : Markup.isParameter kind = false)
    (hmem : (kind, Coord.zero.advance a) ∈ Tree.outlines (m'.trees .zero)) :
    Parted (tokenize a) b := by
  obtain ⟨p', hp', htree⟩ := h.tree
  obtain ⟨q, mq, hq, -, htokens, hqtree⟩ := exists_markup_of_parse hfresh
  have hsame : Tree.outlines (m'.trees .zero) = Tree.outlines (mq.trees .zero) := by
    rw [htree, hqtree, Tree.outlines_eq, Tree.outlines_eq, List.flatMap_singleton,
      List.flatMap_singleton, ← outline_of_carries hp', ← outline_of_carries hq, houtline]
  rw [hsame] at hmem
  obtain ⟨l, r, hlr, hplace⟩ := Markup.exists_of_mem_outline hkind mq hmem
  rw [htokens] at hlr
  have hwhole : d'.text = textOf l ++ textOf r := by
    rw [← textOf_tokenize d'.text, hlr, Token.textOf_append]
  have ha : a <+: d'.text := htext ▸ List.prefix_append _ _
  have hl : textOf l <+: d'.text := hwhole ▸ List.prefix_append _ _
  obtain rfl : a = textOf l := Coord.advance_inj .zero ha hl hplace
  obtain rfl : b = textOf r := List.append_cancel_left (htext.symm.trans hwhole)
  obtain ⟨hl, -, hparted⟩ := parted_of_tokenize_eq_append hlr
  rwa [← hl]

theorem Replaced.parted (hfresh : parse d'.path d'.text = .ok fresh)
    (houtline : d'.outline = fresh.outline) :
    Parted (tokenize (textOf left)) text ∧ Parted (tokenize text) (textOf right) := by
  obtain ⟨kind, parts, rfl⟩ := h.suits.produces_new.exists_eq_node
  have hytext : (Markup.node kind parts).text = text := by
    rw [Markup.text, h.new_tokens, textOf_tokenize]
  have htext : d'.text = textOf left ++ (text ++ textOf right) := by
    rw [h.text_eq, List.append_assoc]
  have hleft : Parted (tokenize (textOf left)) text := by
    have hparted := h.parted_of_mem_outlines hfresh houtline htext
      h.suits.produces_new.isParameter_eq_false (h.exchange.mem_outlines .zero)
    intro t ht c hc
    apply hparted t ht c
    rw [List.head?_append, Option.mem_def.mp hc]
    rfl
  refine ⟨hleft, fun t ht c hc => ?_⟩
  -- What stands behind the new item starts a node, for otherwise it does not begin with a blank.
  have hright_lexical : ∀ t ∈ right, t.Lexical := fun t ht => h.lexical t (by simp [ht])
  have hblank : Text.isBlank c = true := by
    have hisolated := h.isolated
    rw [isIsolated, Bool.and_eq_true, Option.mem_def.mp hc] at hisolated
    exact hisolated.2
  rw [Token.head?_textOf hright_lexical] at hc
  obtain ⟨first, hfirst, hhead⟩ := Option.bind_eq_some_iff.mp hc
  have hbegins {b : Char} (hb : first.kind.initial? = some b) : c = b := by
    have hlexical := hright_lexical first (List.mem_of_head? hfirst)
    exact Option.some.inj (hhead.symm.trans (hlexical.head_eq hb))
  rcases h.exchange.head_right h.suits.produces_old.exists_eq_node h.produces .zero first hfirst with
    hkind | hkind | ⟨kind', hkind', hmem⟩
  · rw [hbegins (by rw [hkind]; rfl)] at hblank
    cases hblank
  · rw [hbegins (by rw [hkind]; rfl)] at hblank
    cases hblank
  · rw [hytext] at hmem
    have hparted := h.parted_of_mem_outlines hfresh houtline h.text_eq hkind' hmem
    rw [tokenize_append hleft] at hparted
    refine hparted t ?_ c ?_
    · rw [List.getLast?_append, Option.mem_def.mp ht]
      rfl
    · rw [Token.head?_textOf hright_lexical]
      exact hc

/-- Nothing joins constructs with marks of their own to blanks, and no blank but the end of a comment
can stand before them. -/
theorem Replaced.parted_of_isMarked {kind : NodeKind} {parts : List Markup}
    (hx : x = .node kind parts) (hmarked : isMarked kind.tag = true) :
    Parted left text ∧ Parted (tokenize text) (textOf right) := by
  obtain ⟨kind', parts', hy⟩ := h.suits.produces_new.exists_eq_node
  have hmarked' : isMarked kind'.tag = true := h.suits.tag_eq _ _ _ _ hx hy ▸ hmarked
  have hisolated := h.isolated
  rw [isIsolated, Bool.and_eq_true] at hisolated
  have hold := h.suits.produces_old
  have hnew := h.suits.produces_new
  rw [hx] at hold
  rw [hy] at hnew
  have hytokens : (Markup.node kind' parts').tokens = tokenize text := hy ▸ h.new_tokens
  have hleft_lexical : ∀ t ∈ left, t.Lexical := fun t ht => h.lexical t (by simp [ht])
  refine ⟨fun t ht c hc => Bool.eq_false_iff.mpr fun hgrows => ?_, fun t ht c hc => ?_⟩
  · have hlexical := hleft_lexical t (List.mem_of_getLast? ht)
    have hcomment : t.kind = .comment := by
      obtain ⟨b, hb, hbegins⟩ := hnew.exists_head_of_isMarked hmarked' fun t ht =>
        lexical_of_mem_tokenize (hytokens ▸ ht)
      rw [hytokens, textOf_tokenize] at hb
      obtain rfl : b = c := Option.some.inj (hb.symm.trans hc)
      refine hlexical.kind_eq_comment hbegins (fun last hlast => ?_) hgrows
      · have hblank := hisolated.1
        rw [Token.getLast?_textOf hleft_lexical, Option.mem_def.mp ht, Option.bind_some,
          Option.mem_def.mp hlast] at hblank
        exact hblank
    have hcut : tokenize d.text = left ++ (x.tokens ++ right) := by
      rw [h.tokens_eq, List.append_assoc]
    have hxlexical : ∀ t ∈ x.tokens, t.Lexical := fun t ht => h.lexical t (by simp [ht])
    obtain ⟨-, -, hparted⟩ := parted_of_tokenize_eq_append hcut
    obtain ⟨b, hb, hbegins⟩ := hold.exists_head_of_isMarked hmarked (hx ▸ hxlexical)
    have hends := hparted t ht b (by
      rw [Token.textOf_append, List.head?_append, hx, hb]
      rfl)
    rw [Token.grows_of_comment hlexical hcomment ?_] at hends
    · cases hends
    · rcases hbegins with rfl | rfl <;> decide
  · refine Token.grows_eq_false_of_isBlank ?_ ?_
    · exact hnew.getLast_of_isMarked hmarked' t (hytokens ▸ ht)
    · have hblank := hisolated.2
      rwa [Option.mem_def.mp hc] at hblank

end Replaced

/-- An incremental replacement agrees with a parse exactly if nothing joins the new text to what
stands around it.  The blanks that set it off do not ensure that: a comment, a run of spaces and a
text with a blank in it go on, and so does a backslash. -/
theorem outline_eq_parse_iff (hd : d.Reachable) (hstep : d.InStep) (hnode : d.arena.get? id = some node)
    (hreplace : d.replaceNode id text = (d', .ok (.incremental new))) :
    (∃ fresh, parse d'.path d'.text = .ok fresh ∧ d'.outline = fresh.outline) ↔
      Parted (tokenize (d.around node.range).1) text ∧
        Parted (tokenize text) (d.around node.range).2 := by
  obtain ⟨p, hp⟩ := hd.exists_carries
  obtain ⟨node', left, right, x, y, m, m', hnode', -, h⟩ := exists_replaced hp hstep hreplace
  obtain rfl : node = node' := Option.some.inj (hnode.symm.trans hnode')
  rw [h.around_eq]
  constructor
  · rintro ⟨fresh, hfresh, houtline⟩
    exact h.parted hfresh houtline
  · rintro ⟨hleft, hright⟩
    have hcut : tokenize d.text = left ++ (x.tokens ++ right) := by
      rw [h.tokens_eq, List.append_assoc]
    rw [← (parted_of_tokenize_eq_append hcut).1] at hleft
    obtain ⟨fresh, hfresh, htree⟩ := h.inStep hleft hright
    obtain ⟨p', hp', -⟩ := h.tree
    obtain ⟨q, hq⟩ := exists_carries_of_parse hfresh
    rw [tree?, tree?, hp'.tree?, hq.tree?, Option.some_inj] at htree
    refine ⟨fresh, hfresh, ?_⟩
    rw [outline_of_carries hp', outline_of_carries hq, htree]

/-- Three letters with spaces between them. -/
def spacedLetters : Document where
  path := ⟨"a.tex"⟩
  text := ['a', ' ', 'x', ' ', 'b']
  arena := .ofForest ⟨0, 5⟩
    [.leaf (.text "a") ⟨0, 0⟩ ⟨0, 1⟩, .leaf (.whitespace 0) ⟨0, 1⟩ ⟨0, 2⟩,
      .leaf (.text "x") ⟨0, 2⟩ ⟨0, 3⟩, .leaf (.whitespace 0) ⟨0, 3⟩ ⟨0, 4⟩,
      .leaf (.text "b") ⟨0, 4⟩ ⟨0, 5⟩]

theorem outline_eq_parse_iff_letter :
    ∃ d' fresh, spacedLetters.replaceNode ⟨3⟩ ['y'] = (d', .ok (.incremental ⟨6⟩)) ∧
      parse d'.path d'.text = .ok fresh ∧ d'.outline = fresh.outline := by
  have hparse : parse spacedLetters.path spacedLetters.text = .ok spacedLetters := by rfl
  have hreplace : spacedLetters.replaceNode ⟨3⟩ ['y'] = (_, .ok (.incremental ⟨6⟩)) :=
    Prod.ext rfl (by decide +kernel)
  have hnode : spacedLetters.arena.get? ⟨3⟩ =
      some ⟨.text "x", Arena.rangeOf ⟨⟨0, 2⟩, ⟨0, 3⟩⟩, [], some Arena.root⟩ := rfl
  have haround : spacedLetters.around (Arena.rangeOf ⟨⟨0, 2⟩, ⟨0, 3⟩⟩) = (['a', ' '], [' ', 'b']) := by
    decide +kernel
  have hiff := outline_eq_parse_iff (.parse hparse) ⟨_, hparse, rfl⟩ hnode hreplace
  rw [haround] at hiff
  obtain ⟨fresh, hfresh, houtline⟩ := hiff.mpr ⟨by decide, by decide⟩
  exact ⟨_, fresh, hreplace, hfresh, houtline⟩

/-- A backslash alone is a text, but before a space it is half of a symbol. -/
theorem outline_ne_parse_backslash :
    ∃ d' fresh, spacedLetters.Reachable ∧ spacedLetters.InStep ∧
      spacedLetters.arena.isAttached ⟨3⟩ = true ∧
      spacedLetters.replaceNode ⟨3⟩ ['\\'] = (d', .ok (.incremental ⟨6⟩)) ∧
      parse d'.path d'.text = .ok fresh ∧ d'.outline ≠ fresh.outline := by
  have hparse : parse spacedLetters.path spacedLetters.text = .ok spacedLetters := by rfl
  have hreplace : spacedLetters.replaceNode ⟨3⟩ ['\\'] = (_, .ok (.incremental ⟨6⟩)) :=
    Prod.ext rfl (by decide +kernel)
  have htext : (spacedLetters.replaceNode ⟨3⟩ ['\\']).1.text = ['a', ' ', '\\', ' ', 'b'] := by
    decide +kernel
  have hfresh : parse (spacedLetters.replaceNode ⟨3⟩ ['\\']).1.path
      (spacedLetters.replaceNode ⟨3⟩ ['\\']).1.text = .ok _ := (congrArg (parse _) htext).trans rfl
  exact ⟨_, _, .parse hparse, ⟨_, hparse, rfl⟩, by decide +kernel, hreplace, hfresh,
    by decide +kernel⟩

end Document

end TexAnchor
