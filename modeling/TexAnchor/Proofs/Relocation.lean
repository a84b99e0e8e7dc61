import TexAnchor.Proofs.Exchange

/-! # Trees that are moved and regrown

`Tree.map` moves every coordinate of a tree.  The trees of markup have no coordinates but those of
stretches of its text, so where a map agrees with moving the text it takes the trees of the one
place to those of the other (`Markup.map_forest`).

`Regrown f old new t t'` says that `t'` is `t` with its coordinates moved by `f` and the tree `old`
in it exchanged for `new`.  On the trees of markup this is an exchange of parts of that markup
(`Grammar.exists_exchange`). -/

namespace TexAnchor

open Text (Coord)

namespace Tree

mutual

/-- The tree with its coordinates moved. -/
def map (f : Coord → Coord) : Tree → Tree
  | node kind span children => node kind ⟨f span.start, f span.stop⟩ (mapForest f children)

/-- Some trees with their coordinates moved. -/
def mapForest (f : Coord → Coord) : List Tree → List Tree
  | [] => []
  | t :: forest => t.map f :: mapForest f forest

end

theorem mapForest_eq (f : Coord → Coord) (forest : List Tree) :
    mapForest f forest = forest.map (Tree.map f) := by
  induction forest with
  | nil => rfl
  | cons t forest ih => rw [mapForest, ih, List.map_cons]

/-- A tree is moved, and a tree in it is exchanged for another. -/
inductive Regrown (f : Coord → Coord) (old new : Tree) : Tree → Tree → Prop
  | here : Regrown f old new old new
  | inside {t t' : Tree} (kind : NodeKind) (span : Span) (before after : List Tree) :
    Regrown f old new t t' →
    Regrown f old new (.node kind span (before ++ t :: after))
      (.node kind ⟨f span.start, f span.stop⟩ (before.map (map f) ++ t' :: after.map (map f)))

end Tree

/-! ### Lists of parameters -/

namespace Parameters

theorem segments_ne_nil (depth : Nat) (text : List Char) : segments depth text ≠ [] := by
  cases text with
  | nil => simp [segments]
  | cons c text =>
    unfold segments
    split
    · simp
    · split <;> simp

/-- The segments with commas between them. -/
def joined : List (List Char) → List Char
  | [] => []
  | [segment] => segment
  | segment :: later => segment ++ ',' :: joined later

theorem joined_cons_cons (first second : List Char) (later : List (List Char)) :
    joined (first :: second :: later) = first ++ ',' :: joined (second :: later) := rfl

theorem joined_segments (depth : Nat) (text : List Char) : joined (segments depth text) = text := by
  induction text generalizing depth with
  | nil => rfl
  | cons c text ih =>
    unfold segments
    split
    · next hcomma =>
      obtain ⟨first, later, hcons⟩ := List.exists_cons_of_ne_nil (segments_ne_nil depth text)
      have := ih depth
      rw [hcons] at this ⊢
      simp [joined, this, hcomma.1]
    · split
      · next hnil => exact absurd hnil (segments_ne_nil _ _)
      · next segment later hcons =>
        have := ih (depthAfter depth c)
        rw [hcons] at this
        cases later <;> simp_all [joined]

theorem trim_isPrefix (segment : List Char) :
    segment.takeWhile Text.isBlank ++ Text.trim segment <+: segment := by
  have htrim : Text.trim segment <+: Text.trimStart segment := by
    refine ⟨((Text.trimStart segment).reverse.takeWhile Text.isBlank).reverse, ?_⟩
    rw [Text.trim, Text.trimEnd, ← List.reverse_append, List.takeWhile_append_dropWhile,
      List.reverse_reverse]
  obtain ⟨rest, hrest⟩ := htrim
  exact ⟨rest, by rw [List.append_assoc, hrest, Text.takeWhile_append_trimStart]⟩

theorem map_placeItems {f : Coord → Coord} {here there : Coord} {segments : List (List Char)}
    (h : ∀ p, p <+: joined segments → f (here.advance p) = there.advance p) :
    (placeItems here segments).map (Tree.map f) = placeItems there segments := by
  induction segments generalizing here there with
  | nil => rfl
  | cons segment later ih =>
    have hsegment : segment <+: joined (segment :: later) := by
      cases later <;> simp [joined]
    have hlater : (placeItems ((here.advance segment).next ',') later).map (Tree.map f) =
        placeItems ((there.advance segment).next ',') later := by
      cases later with
      | nil => rfl
      | cons second later =>
        apply ih
        intro p hp
        obtain ⟨rest, hrest⟩ := hp
        have hp' : segment ++ ',' :: p <+: joined (segment :: second :: later) :=
          ⟨rest, by rw [joined_cons_cons, ← hrest]; simp⟩
        simpa using h _ hp'
    have htrim := trim_isPrefix segment
    have hstart := h _ ((List.prefix_append _ _).trans (htrim.trans hsegment))
    have hstop := h _ (htrim.trans hsegment)
    rw [Coord.advance_append, Coord.advance_append] at hstop
    simp only [placeItems]
    split
    · exact hlater
    · simp [Tree.leaf, Tree.map, Tree.mapForest, hstart, hstop, hlater]

theorem map_items {f : Coord → Coord} {here there : Coord} {text : List Char}
    (h : ∀ p, p <+: text → f (here.advance p) = there.advance p) :
    (items here text).map (Tree.map f) = items there text :=
  map_placeItems (by rwa [joined_segments])

/-- An item of a list of parameters has no parts, and it is no item of content. -/
theorem of_mem_placeItems {here : Coord} {segments : List (List Char)} {t : Tree}
    (h : t ∈ placeItems here segments) :
    t.children = [] ∧ (t.kind.tag = .parameter ∨ t.kind.tag = .assignment) := by
  induction segments generalizing here with
  | nil => cases h
  | cons segment later ih =>
    simp only [placeItems] at h
    split at h
    · exact ih h
    · rcases List.mem_cons.mp h with rfl | h
      · refine ⟨rfl, ?_⟩
        simp only [Tree.leaf, Tree.kind, kindOf]
        split <;> simp [NodeKind.tag]
      · exact ih h

end Parameters

/-! ### Trees of markup -/

namespace Markup

open Token (textOf)

mutual

theorem map_trees {f : Coord → Coord} {here there : Coord} :
    (m : Markup) → (∀ p, p <+: m.text → f (here.advance p) = there.advance p) →
    (m.trees here).map (Tree.map f) = m.trees there
  | raw ts, _ => by simp
  | items ts, h => by
    have hstart := h [] List.nil_prefix
    have hstop := h _ (List.prefix_refl _)
    have hitems := Parameters.map_items h
    simp only [text, tokens_items, Coord.advance_nil] at hstart hstop hitems
    simp [parameterList, Tree.map, Tree.mapForest_eq, hstart, hstop, hitems]
  | node kind parts, h => by
    have hstart := h [] List.nil_prefix
    have hstop := h _ (List.prefix_refl _)
    have hforest := map_forest here there parts (by simpa using h)
    simp only [text_node, Coord.advance_nil] at hstart hstop
    simp [Tree.map, Tree.mapForest_eq, hstart, hstop, hforest]

theorem map_forest {f : Coord → Coord} (here there : Coord) :
    (ms : List Markup) → (∀ p, p <+: textOf ms → f (here.advance p) = there.advance p) →
    (forest here ms).map (Tree.map f) = forest there ms
  | [], _ => by simp
  | m :: ms, h => by
    rw [textOf_cons] at h
    have hfirst := map_trees m fun p hp => h p (hp.trans (List.prefix_append _ _))
    have hrest := map_forest (here.advance m.text) (there.advance m.text) ms
      fun p hp => by
        have := h (m.text ++ p) (List.prefix_append_right_inj _ |>.mpr hp)
        simpa using this
    simp [hfirst, hrest]

end

theorem trees_eq_nil_or_singleton (m : Markup) (here : Coord) :
    m.trees here = [] ∨ ∃ t, m.trees here = [t] := by
  cases m <;> simp

theorem exists_of_forest_eq {here : Coord} {ms : List Markup} {before after : List Tree} {t : Tree}
    (h : forest here ms = before ++ t :: after) :
    ∃ pre m post, ms = pre ++ m :: post ∧ before = forest here pre ∧
      m.trees (here.advance (textOf pre)) = [t] ∧
      after = forest (here.advance (textOf (pre ++ [m]))) post := by
  induction ms generalizing here before with
  | nil => simp at h
  | cons m ms ih =>
    have hlater {before' : List Tree} (hrest : forest (here.advance m.text) ms = before' ++ t :: after)
        (hbefore : before = m.trees here ++ before') :
        ∃ pre m' post, m :: ms = pre ++ m' :: post ∧ before = forest here pre ∧
          m'.trees (here.advance (textOf pre)) = [t] ∧
          after = forest (here.advance (textOf (pre ++ [m']))) post := by
      obtain ⟨pre, m', post, rfl, rfl, htree, hafter⟩ := ih hrest
      refine ⟨m :: pre, m', post, rfl, by simp [hbefore], ?_, ?_⟩
      · simpa [textOf_cons] using htree
      · simpa [textOf_cons] using hafter
    rw [forest_cons] at h
    rcases m.trees_eq_nil_or_singleton here with hm | ⟨first, hm⟩
    · exact hlater (by simpa [hm] using h) (by simp [hm])
    · cases before with
      | nil =>
        obtain ⟨rfl, rfl⟩ := List.cons.inj (by simpa [hm] using h)
        exact ⟨[], m, ms, rfl, by simp, by simpa using hm, by simp [textOf_cons]⟩
      | cons first' before =>
        obtain ⟨rfl, hrest⟩ := List.cons.inj (by simpa [hm] using h)
        exact hlater hrest (by simp [hm])

end Markup

namespace Grammar

open Token (textOf)

/-- Exchanging a tree of some markup is exchanging a part of that markup.  The part `x` that is read
as the old tree has the tokens `left` before it and `right` behind it; if the map leaves what is
before it in place and moves what is behind it as the exchange does, then any part `y` that is read
as the new tree gives the regrown trees. -/
theorem exists_exchange {f : Coord → Coord} {old new t t' : Tree}
    (h : Tree.Regrown f old new t t') {here : Coord} {m : Markup} (hm : m.trees here = [t])
    (hparameter : old.kind.tag ≠ .parameter) (hassignment : old.kind.tag ≠ .assignment) :
    ∃ x left right, x.trees (here.advance (textOf left)) = [old] ∧ ∀ y, ∃ m',
      Exchange x y left right m m' ∧
      ((∀ p, p <+: textOf left → f (here.advance p) = here.advance p) →
        (∀ p, p <+: textOf right → f (here.advance (textOf left ++ x.text ++ p)) =
          here.advance (textOf left ++ y.text ++ p)) →
        y.trees (here.advance (textOf left)) = [new] → m'.trees here = [t']) := by
  induction h generalizing here m with
  | here =>
    refine ⟨m, [], [], hm, fun y => ⟨y, .here, fun _ _ hy => hy⟩⟩
  | @inside t t' kind span before after h ih =>
    cases m with
    | raw ts => simp at hm
    | items ts =>
      simp only [Markup.trees_items, List.singleton_inj, Markup.parameterList, Tree.node.injEq] at hm
      have hmem : t ∈ Parameters.placeItems here (Parameters.segments 0 (textOf ts)) := by
        change t ∈ Parameters.items here (textOf ts)
        simp [hm.2.2]
      obtain ⟨hchildren, htag⟩ := Parameters.of_mem_placeItems hmem
      cases h with
      | here => rcases htag with htag | htag <;> contradiction
      | inside => simp [Tree.children] at hchildren
    | node kind' parts =>
      simp only [Markup.trees_node, List.singleton_inj, Tree.node.injEq] at hm
      obtain ⟨rfl, hspan, hforest⟩ := hm
      obtain ⟨pre, m₁, post, rfl, hbefore, htree, hafter⟩ := Markup.exists_of_forest_eq hforest
      obtain ⟨x, left, right, hx, hexchange⟩ := ih htree
      refine ⟨x, Markup.tokensOf pre ++ left, right ++ Markup.tokensOf post, ?_, fun y => ?_⟩
      · simpa [Markup.textOf] using hx
      obtain ⟨m₁', hm₁', hmoved⟩ := hexchange y
      refine ⟨_, .inside kind' pre post hm₁', fun hleft hright hy => ?_⟩
      obtain ⟨htokens, htokens'⟩ := hm₁'.tokens_eq
      have htext : m₁.text = textOf left ++ x.text ++ textOf right := by simp [Markup.text, htokens]
      have htext' : m₁'.text = textOf left ++ y.text ++ textOf right := by
        simp [Markup.text, htokens']
      have hpre : textOf (Markup.tokensOf pre ++ left) = Markup.textOf pre ++ textOf left := by
        simp [Markup.textOf]
      have hpost : textOf (right ++ Markup.tokensOf post) = textOf right ++ Markup.textOf post := by
        simp [Markup.textOf]
      rw [hpre] at hleft hright hy
      rw [hpost] at hright
      have hbehind (q : List Char) (hq : q <+: Markup.textOf post) :
          f (here.advance (Markup.textOf pre ++ m₁.text ++ q)) =
            here.advance (Markup.textOf pre ++ m₁'.text ++ q) := by
        have := hright (textOf right ++ q) ((List.prefix_append_right_inj _).mpr hq)
        simpa [htext, htext'] using this
      have hstart := hleft [] List.nil_prefix
      have hstop := hbehind _ (List.prefix_refl _)
      have hmap₁ := Markup.map_forest here here pre fun p hp =>
        hleft p (hp.trans (List.prefix_append _ _))
      have hmap₂ := Markup.map_forest (here.advance (Markup.textOf (pre ++ [m₁])))
        (here.advance (Markup.textOf (pre ++ [m₁']))) post fun p hp => by
          have := hbehind p hp
          simpa [Markup.textOf_append, Markup.textOf_cons] using this
      have hinner := hmoved
        (fun p hp => by
          have := hleft (Markup.textOf pre ++ p) ((List.prefix_append_right_inj _).mpr hp)
          simpa using this)
        (fun p hp => by
          have := hright p (hp.trans (List.prefix_append _ _))
          simpa using this)
        (by simpa using hy)
      have hspan' : span.stop = here.advance (Markup.textOf pre ++ m₁.text ++ Markup.textOf post) := by
        rw [← hspan]
        simp [Markup.textOf_append, Markup.textOf_cons]
      rw [Markup.trees_node, Markup.forest_append, Markup.forest_cons, hinner, hbefore, hafter, hmap₁,
        hmap₂, hspan', hstop, ← hspan]
      simp only [Coord.advance_nil] at hstart
      simp [hstart, Markup.textOf_append, Markup.textOf_cons]

end Grammar

end TexAnchor
