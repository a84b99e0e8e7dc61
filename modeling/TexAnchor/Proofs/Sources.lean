import TexAnchor.Proofs.Replacing

/-! # Writing over the source of a node

`Document.Covers` says which stretch of the text a range covers.  In a document in step every node
with marks of its own covers a stretch (`Document.exists_covers`), a replacement puts the new text in
the place of just that stretch (`Document.text_replaceNode`), and it keeps the document in step as
long as the new text can be read (`Document.inStep_replaceNode`). -/

namespace TexAnchor

open Grammar
open Text (Coord)
open Token (textOf Parted)

/-! ### Ranges of nodes -/

/-- The effective places of the ends of a range. -/
def Range.span (r : Range) : Span :=
  ⟨r.start.coord, r.stop.coord⟩

theorem Planted.span_tree (p : Planted) : p.tree.span = p.range.span := by
  cases p
  rw [tree_node]
  rfl

/-- Both ends of the range are settled. -/
def Range.Settled (r : Range) : Prop :=
  r.start.Settled ∧ r.stop.Settled

theorem Range.Settled.span_mapRange {r : Range} (h : r.Settled) (e : Edit) :
    (e.mapRange r).span = ⟨e.mapCoord r.start.coord, e.mapCoord r.stop.coord⟩ := by
  rw [Edit.mapRange, Range.span, e.coord_mapPosition h.1, e.coord_mapPosition h.2]

theorem Planted.Settled.range_of_occurs {p q : Planted} (h : p.Settled) (hq : q.Occurs p) :
    q.range.Settled := by
  induction hq with
  | top =>
    cases h with
    | node hstart hstop => exact ⟨hstart, hstop⟩
  | deeper hmem _ ih =>
    cases h with
    | node _ _ hchildren => exact ih (hchildren _ hmem)

theorem Arena.Carries.settled_range {a : Arena} {p : Planted} {id : NodeId} {node : Node}
    (h : a.Carries p) (hid : id ∈ p.ids) (hnode : a.get? id = some node) : node.range.Settled := by
  obtain ⟨old, hocc, -, -, hrange⟩ := h.exists_occurs hid hnode
  exact hrange ▸ h.settled.range_of_occurs hocc

namespace Document

/-! ### Stretches of the text -/

/-- The stretch `source` of the text, between `before` and `after`, is what the range covers. -/
structure Covers (d : Document) (range : Range) (before source after : List Char) : Prop where
  text_eq : d.text = before ++ source ++ after
  start_eq : range.start.coord = Coord.zero.advance before
  stop_eq : range.stop.coord = Coord.zero.advance (before ++ source)

variable {d d' : Document} {p : Planted} {id : NodeId} {node : Node} {range : Range}
  {before source after text : List Char}

theorem Covers.applyTo (h : d.Covers range before source after) (text : List Char) :
    Edit.applyTo ⟨range, text⟩ d.text = before ++ text ++ after := by
  rw [h.text_eq]
  exact Edit.applyTo_append _ h.start_eq h.stop_eq

theorem Covers.prefixes (h : d.Covers range before source after) :
    before <+: d.text ∧ before ++ source <+: d.text := by
  rw [h.text_eq]
  exact ⟨⟨source ++ after, by simp⟩, List.prefix_append _ _⟩

theorem Covers.unique {before' source' after' : List Char} (h : d.Covers range before source after)
    (h' : d.Covers range before' source' after') :
    before = before' ∧ source = source' ∧ after = after' := by
  have hbefore : before = before' :=
    Coord.advance_inj .zero h.prefixes.1 h'.prefixes.1 (h.start_eq.symm.trans h'.start_eq)
  have hstop : before ++ source = before' ++ source' :=
    Coord.advance_inj .zero h.prefixes.2 h'.prefixes.2 (h.stop_eq.symm.trans h'.stop_eq)
  have hwhole : before ++ source ++ after = before' ++ source' ++ after' :=
    h.text_eq.symm.trans h'.text_eq
  rw [hstop] at hwhole
  rw [hbefore] at hstop
  exact ⟨hbefore, List.append_cancel_left hstop, List.append_cancel_left hwhole⟩

theorem Covers.of_span_eq {range' : Range} (h : d.Covers range before source after)
    (hspan : range'.span = range.span) : d.Covers range' before source after where
  text_eq := h.text_eq
  start_eq := (congrArg Span.start hspan).trans h.start_eq
  stop_eq := (congrArg Span.stop hspan).trans h.stop_eq

/-- Of two stretches that do not overlap one stands before the other. -/
theorem Covers.exists_between {range' : Range} {before' source' after' : List Char}
    (h : d.Covers range before source after) (h' : d.Covers range' before' source' after')
    (hle : range.stop.coord ≤ range'.start.coord) :
    ∃ between, before' = before ++ source ++ between ∧ after = between ++ source' ++ after' := by
  rw [h.stop_eq, h'.start_eq] at hle
  have hlength : (before ++ source).length ≤ before'.length := by
    have hlt := Coord.advance_lt_advance_iff .zero h'.prefixes.1 h.prefixes.2
    rw [← Coord.not_le] at hlt
    have := mt hlt.mpr (not_not_intro hle)
    omega
  obtain ⟨between, rfl⟩ := List.prefix_of_prefix_length_le h.prefixes.2 h'.prefixes.1 hlength
  refine ⟨between, rfl, ?_⟩
  have hwhole := h.text_eq.symm.trans h'.text_eq
  rw [List.append_assoc (before ++ source) between, List.append_assoc (before ++ source)] at hwhole
  exact List.append_cancel_left hwhole

section Edited

variable (h : d.Covers range before source after) (hne : source ≠ [])
  (htext : d'.text = before ++ text ++ after)

include h hne

/-- The edited range covers the new text. -/
theorem Covers.span_mapRange (hrange : range.Settled) :
    (Edit.mapRange ⟨range, text⟩ range).span =
      ⟨Coord.zero.advance before, Coord.zero.advance (before ++ text)⟩ := by
  have hstop := Edit.mapCoord_behind ⟨range, text⟩ h.start_eq h.stop_eq []
  rw [List.append_nil, List.append_nil] at hstop
  rw [hrange.span_mapRange, h.start_eq, h.stop_eq, hstop,
    Edit.mapCoord_before ⟨range, text⟩ h.start_eq h.stop_eq (List.prefix_refl _) (.inr hne)]

include htext

theorem Covers.mapRange_before {range' : Range} {before' source' between : List Char}
    (h' : d.Covers range' before' source' (between ++ source ++ after))
    (hbefore : before = before' ++ source' ++ between) (hrange' : range'.Settled) :
    d'.Covers (Edit.mapRange ⟨range, text⟩ range') before' source' (between ++ text ++ after) := by
  have hspan := hrange'.span_mapRange ⟨range, text⟩
  have hfixed {p : List Char} (hp : p <+: before) :=
    Edit.mapCoord_before ⟨range, text⟩ h.start_eq h.stop_eq hp (.inr hne)
  rw [h'.start_eq, h'.stop_eq, hfixed (hbefore ▸ ⟨source' ++ between, by simp⟩),
    hfixed (hbefore ▸ List.prefix_append _ _)] at hspan
  exact ⟨by rw [htext, hbefore]; simp, congrArg Span.start hspan, congrArg Span.stop hspan⟩

omit hne in
theorem Covers.mapRange_behind {range' : Range} {source' between after' : List Char}
    (h' : d.Covers range' (before ++ source ++ between) source' after')
    (hafter : after = between ++ source' ++ after') (hrange' : range'.Settled) :
    d'.Covers (Edit.mapRange ⟨range, text⟩ range') (before ++ text ++ between) source' after' := by
  have hspan := hrange'.span_mapRange ⟨range, text⟩
  have hmoved := Edit.mapCoord_behind ⟨range, text⟩ h.start_eq h.stop_eq
  rw [h'.start_eq, h'.stop_eq, List.append_assoc (before ++ source), hmoved, hmoved] at hspan
  refine ⟨by rw [htext, hafter]; simp, congrArg Span.start hspan, ?_⟩
  rw [List.append_assoc (before ++ text)]
  exact congrArg Span.stop hspan

end Edited

theorem ne_root_of_isMarked (h : d.arena.Carries p) (hstep : d.InStep)
    (hnode : d.arena.get? id = some node) (hmarked : isMarked node.kind.tag = true) :
    id ≠ Arena.root := by
  rintro rfl
  obtain ⟨m, hm, -, htree⟩ := (inStep_iff h).mp hstep
  obtain ⟨children, hget⟩ := h.holds.get?
  rw [h.root_eq] at hget
  obtain rfl := Option.some.inj (hget.symm.trans hnode)
  cases hm
  obtain ⟨id, kind, range, children⟩ := p
  rw [Markup.trees_node, Planted.tree_node, List.singleton_inj, Tree.node.injEq] at htree
  obtain ⟨rfl, -⟩ := htree
  cases hmarked

theorem exists_covers (h : d.arena.Carries p) (hstep : d.InStep) (hid : id ∈ p.ids)
    (hnode : d.arena.get? id = some node) (hmarked : isMarked node.kind.tag = true) :
    ∃ before source after, source ≠ [] ∧ d.Covers node.range before source after := by
  obtain ⟨m, hm, htokens, htree⟩ := (inStep_iff h).mp hstep
  obtain ⟨old, hocc, -, hkind, hrange⟩ := h.exists_occurs hid hnode
  -- Any regrowth of the node shows where it stands in the markup.
  obtain ⟨p', -, hregrown⟩ := hocc.exists_grafted h.settled ⟨old.range, []⟩ old
  have htag : old.kind.tag ≠ .parameterList ∧ old.kind.tag ≠ .parameter ∧
      old.kind.tag ≠ .assignment := by
    rw [hkind]
    cases htag : node.kind.tag <;> simp_all [isMarked]
  obtain ⟨parts, left, right, htokens_d, hstart, hstop, hexchange⟩ :=
    exists_part htokens htree hregrown htag
  obtain ⟨m', hm', -⟩ := hexchange (.node old.kind parts)
  obtain ⟨role, hx⟩ := hm'.exists_produces ⟨_, _, rfl⟩ hm
  have hrole : role ≠ .document := by
    rw [hx.role_eq, hkind]
    cases htag : node.kind.tag <;> simp_all [isMarked, roleOf]
  have hne : (Markup.node old.kind parts).text ≠ [] :=
    hx.text_ne_nil_of_lexical hrole fun t ht => lexical_of_mem_tokenize (by
      rw [htokens_d]
      simp only [List.mem_append, ht, or_true, true_or])
  refine ⟨textOf left, (Markup.node old.kind parts).text, textOf right, hne, ?_, hrange ▸ hstart,
    hrange ▸ hstop⟩
  rw [← textOf_tokenize d.text, htokens_d]
  simp [Markup.text]

/-! ### Replacements -/

theorem path_of_parse {path : Path} (h : parse path text = .ok d) : d.path = path := by
  obtain ⟨_, -, rfl⟩ := parse_eq_ok_iff.mp h
  rfl

theorem text_of_parse {path : Path} (h : parse path text = .ok d) : d.text = text := by
  obtain ⟨_, -, rfl⟩ := parse_eq_ok_iff.mp h
  rfl

theorem parse_self {path : Path} (h : parse path text = .ok d) : parse d.path d.text = .ok d := by
  rwa [path_of_parse h, text_of_parse h]

theorem inStep_of_parse {path : Path} (h : parse path text = .ok d) : d.InStep :=
  ⟨d, parse_self h, rfl⟩

theorem path_replaceNode (d : Document) (id : NodeId) (text : List Char) :
    (d.replaceNode id text).1.path = d.path := by
  rcases hreplaced : d.replaceNode id text with ⟨d', outcome⟩
  cases replaces_of_replaceNode hreplaced with
  | unreadRoot | unknown | outside => rfl
  | readRoot _ hfresh => exact path_of_parse hfresh
  | exchanged _ _ _ _ hedited | unread _ _ _ hedited => rw [applyEdit_eq_ok hedited]
  | reread _ _ _ hedited hfresh => rw [path_of_parse hfresh, applyEdit_eq_ok hedited]

/-- A replacement that succeeds is an edit of the text. -/
theorem text_replaceNode_eq_applyTo (hroot : id ≠ Arena.root) {outcome : Replacement}
    (hreplace : (d.replaceNode id text).2 = .ok outcome) :
    ∃ node, d.arena.isAttached id = true ∧ d.arena.get? id = some node ∧
      (d.replaceNode id text).1.text = Edit.applyTo ⟨node.range, text⟩ d.text := by
  rcases hreplaced : d.replaceNode id text with ⟨d', outcome⟩
  rw [hreplaced] at hreplace
  cases replaces_of_replaceNode hreplaced with
  | readRoot heq => exact absurd heq hroot
  | exchanged _ hattached hnode _ hedited =>
    exact ⟨_, hattached, hnode, by rw [applyEdit_eq_ok hedited]⟩
  | reread _ hattached hnode hedited hfresh =>
    exact ⟨_, hattached, hnode, by rw [text_of_parse hfresh, applyEdit_eq_ok hedited]⟩
  | unreadRoot | unknown | outside | unread => cases hreplace

/-- A replacement of a construct with marks of its own keeps the document in step, unless the text
cannot be read any more. -/
theorem inStep_replaceNode (h : d.arena.Carries p) (hstep : d.InStep)
    (hmarked : ∀ node, d.arena.get? id = some node → isMarked node.kind.tag = true)
    (hread : ∀ error, (d.replaceNode id text).2 ≠ .error (.parse error)) :
    (d.replaceNode id text).1.InStep := by
  have hroot : id ≠ Arena.root := by
    rintro rfl
    obtain ⟨children, hget⟩ := h.holds.get?
    rw [h.root_eq] at hget
    exact ne_root_of_isMarked h hstep hget (hmarked _ hget) rfl
  rcases hreplace : d.replaceNode id text with ⟨d', outcome⟩
  rw [hreplace] at hread
  cases replaces_of_replaceNode hreplace with
  | readRoot heq => exact absurd heq hroot
  | unknown | outside => exact hstep
  | exchanged =>
    obtain ⟨node, left, right, x, y, m, m', hnode, ⟨parts, hx⟩, hreplaced⟩ :=
      exists_replaced h hstep hreplace
    obtain ⟨hleft, hright⟩ := hreplaced.parted_of_isMarked hx (hmarked node hnode)
    exact hreplaced.inStep hleft hright
  | reread _ _ _ _ hfresh => exact inStep_of_parse hfresh
  | unreadRoot | unread => exact absurd rfl (hread _)

theorem inStep_replaceNode_of_ok (h : d.arena.Carries p) (hstep : d.InStep)
    (hnode : d.arena.get? id = some node) (hmarked : isMarked node.kind.tag = true)
    {outcome : Replacement} (hdone : (d.replaceNode id text).2 = .ok outcome) :
    (d.replaceNode id text).1.InStep := by
  apply inStep_replaceNode h hstep
  · intro other hother
    obtain rfl := Option.some.inj (hnode.symm.trans hother)
    exact hmarked
  · intro error hfailed
    rw [hdone] at hfailed
    cases hfailed

theorem trees_eq_of_tokens_eq {m m' : Markup} (hm : Produces .document m) (hm' : Produces .document m')
    (htokens : m.tokens = tokenize text) (htokens' : m'.tokens = tokenize text) :
    m.trees .zero = m'.trees .zero := by
  obtain ⟨fresh, p, hparse, hp, htree⟩ := exists_parse_of_produces ⟨""⟩ hm htokens
  obtain ⟨fresh', p', hparse', hp', htree'⟩ := exists_parse_of_produces ⟨""⟩ hm' htokens'
  obtain rfl : fresh = fresh' := Except.ok.inj (hparse.symm.trans hparse')
  have hsame := hp.tree?.symm.trans hp'.tree?
  rw [htree, htree', Option.some.inj hsame]

/-- Where nothing joins the new text to what stands around it, a replacement puts its tree in the
place of the node's, whether the node was exchanged or the whole text was read again. -/
theorem exists_grafted_of_parted {t : Tree} {outcome : Replacement} (h : d.arena.Carries p)
    (hstep : d.InStep) (hid : id ∈ p.ids) (hnode : d.arena.get? id = some node)
    (hmarked : isMarked node.kind.tag = true)
    (hread : readFrom node.range.start.coord text = .ok [t]) (htag : t.kind.tag = node.kind.tag)
    (hleft : Parted (tokenize (d.around node.range).1) text)
    (hright : Parted (tokenize text) (d.around node.range).2)
    (hdone : (d.replaceNode id text).2 = .ok outcome) :
    ∃ old new p' grown : Planted, old.Occurs p ∧ old.id = id ∧ old.kind = node.kind ∧
      old.range = node.range ∧ new.tree = t ∧
      Planted.Grafted (old.mapRange (Edit.mapRange ⟨node.range, text⟩)) new
        (p.mapRange (Edit.mapRange ⟨node.range, text⟩)) grown ∧
      (d.replaceNode id text).1.arena.Carries p' ∧ p'.tree = grown.tree := by
  obtain ⟨old, hocc, rfl, hkind, hrange⟩ := h.exists_occurs hid hnode
  obtain ⟨new, -, -, rfl, -⟩ := Arena.addTree_spec t h.sound
  obtain ⟨grown, hgrafted, hregrown⟩ := hocc.exists_grafted h.settled ⟨old.range, text⟩ new
  obtain ⟨p', hp'⟩ := exists_carries_replaceNode h old.id text
  obtain ⟨left, right, parts, y, m, m', hexchanged⟩ :=
    exists_exchanged h hstep (hrange ▸ hread) (hkind ▸ htag) hregrown
  obtain ⟨node', -, hnode', htext⟩ :=
    text_replaceNode_eq_applyTo (ne_root_of_isMarked h hstep hnode hmarked) hdone
  obtain rfl := Option.some.inj (hnode.symm.trans hnode')
  have hstep' := inStep_replaceNode_of_ok h hstep hnode hmarked hdone
  obtain ⟨whole, hwhole, htokens, htree⟩ := (inStep_iff hp').mp hstep'
  rw [← hrange] at htext hleft hright
  rw [hexchanged.around_eq] at hleft hright
  have hcut : tokenize d.text = left ++ ((Markup.node old.kind parts).tokens ++ right) := by
    rw [hexchanged.tokens_eq, List.append_assoc]
  rw [← (parted_of_tokenize_eq_append hcut).1] at hleft
  have hne : text ≠ [] := hexchanged.produces_new.text_ne_nil hexchanged.new_tokens
  have hsuits : Suits (.node old.kind parts) y left := by
    refine ⟨hexchanged.produces_old, hexchanged.produces_new, hexchanged.tag_eq, ?_⟩
    intro kind hfirst hopens
    obtain ⟨ykind, yparts, rfl⟩ := hexchanged.produces_new.exists_eq_node
    have hykind : isMarked ykind.tag = true := by
      rwa [← hexchanged.tag_eq _ _ _ _ rfl rfl, hkind]
    rw [hexchanged.produces_new.opensBlock_of_isMarked hykind kind hfirst] at hopens
    cases hopens
  have htokens' : m'.tokens = tokenize (d.replaceNode old.id text).1.text := by
    rw [htext, hexchanged.applyTo_eq, hexchanged.exchange.tokens_eq.2, hexchanged.new_tokens,
      tokenize_between hexchanged.tokens_eq hne hleft hright]
  have hsame := trees_eq_of_tokens_eq hwhole
    (hexchanged.exchange.produces hexchanged.produces hsuits) htokens htokens'
  rw [htree, hexchanged.trees_eq, List.singleton_inj] at hsame
  refine ⟨old, new, p', grown, hocc, rfl, hkind, hrange, rfl, ?_, hp', hsame⟩
  rw [← hrange]
  exact hgrafted

/-- Freeing the detached nodes changes neither the text nor the tree. -/
theorem inStep_freeDetached (h : d.arena.Carries p) (hstep : d.InStep) : d.freeDetached.InStep := by
  obtain ⟨fresh, hfresh, htree⟩ := hstep
  refine ⟨fresh, hfresh, ?_⟩
  rw [← htree, tree?, tree?, h.tree?]
  exact h.freeDetached.tree?

end Document

end TexAnchor
