import TexAnchor.Proofs.Relocation

/-! # The outline of a tree

The outline lists the nodes of a tree, parents before children, with what they are and where they
start.  Apart from the items of square blocks every node starts where a token starts
(`Markup.exists_of_mem_outline`).  So where a token of the text goes over the place where a node
starts, the node is in no tree of that text. -/

namespace TexAnchor

open Text (Coord)
open Token (textOf)

namespace Tree

mutual

/-- The nodes of a tree, parents before children, with their starts. -/
def outline : Tree → List (NodeKind × Coord)
  | node kind span children => (kind, span.start) :: outlines children

/-- The nodes of some trees in order. -/
def outlines : List Tree → List (NodeKind × Coord)
  | [] => []
  | t :: forest => t.outline ++ outlines forest

end

theorem outlines_eq (forest : List Tree) : outlines forest = forest.flatMap outline := by
  induction forest with
  | nil => rfl
  | cons t forest ih => rw [outlines, ih, List.flatMap_cons]

theorem outlines_append (a b : List Tree) : outlines (a ++ b) = outlines a ++ outlines b := by
  induction a with
  | nil => rfl
  | cons t a ih => simp [outlines, ih]

end Tree

namespace Markup

/-- The items of a list of parameters, which start inside tokens. -/
def isParameter (kind : NodeKind) : Bool :=
  kind.tag == .parameter || kind.tag == .assignment

theorem isParameter_of_mem_items {here : Coord} {segments : List (List Char)}
    {entry : NodeKind × Coord} (h : entry ∈ Tree.outlines (Parameters.placeItems here segments)) :
    isParameter entry.1 = true := by
  induction segments generalizing here with
  | nil => cases h
  | cons segment later ih =>
    simp only [Parameters.placeItems] at h
    split at h
    · exact ih h
    · simp only [Tree.outlines, Tree.leaf, Tree.outline, List.mem_append, List.mem_singleton] at h
      rcases h with rfl | h
      · unfold Parameters.kindOf isParameter
        split <;> simp [NodeKind.tag]
      · exact ih h

mutual

theorem exists_of_mem_outline {here : Coord} {entry : NodeKind × Coord}
    (hentry : isParameter entry.1 = false) :
    (m : Markup) → entry ∈ Tree.outlines (m.trees here) →
    ∃ left right, m.tokens = left ++ right ∧ entry.2 = here.advance (Token.textOf left)
  | raw ts, h => by simp [Tree.outlines] at h
  | items ts, h => by
    simp only [trees_items, Tree.outlines, parameterList, Tree.outline, List.append_nil,
      List.mem_cons] at h
    rcases h with rfl | h
    · exact ⟨[], ts, by simp, rfl⟩
    · rw [isParameter_of_mem_items h] at hentry
      cases hentry
  | node kind parts, h => by
    simp only [trees_node, Tree.outlines, Tree.outline, List.append_nil, List.mem_cons] at h
    rcases h with rfl | h
    · exact ⟨[], tokensOf parts, by simp, rfl⟩
    · obtain ⟨left, right, htokens, hplace⟩ := exists_of_mem_outlines hentry parts h
      exact ⟨left, right, by simpa using htokens, hplace⟩

theorem exists_of_mem_outlines {here : Coord} {entry : NodeKind × Coord}
    (hentry : isParameter entry.1 = false) :
    (ms : List Markup) → entry ∈ Tree.outlines (forest here ms) →
    ∃ left right, tokensOf ms = left ++ right ∧ entry.2 = here.advance (Token.textOf left)
  | [], h => by simp [Tree.outlines] at h
  | m :: ms, h => by
    rw [forest_cons, Tree.outlines_append, List.mem_append] at h
    rcases h with h | h
    · obtain ⟨left, right, htokens, hplace⟩ := exists_of_mem_outline hentry m h
      exact ⟨left, right ++ tokensOf ms, by simp [htokens], hplace⟩
    · obtain ⟨left, right, htokens, hplace⟩ := exists_of_mem_outlines hentry ms h
      exact ⟨m.tokens ++ left, right, by simp [htokens], by simp [hplace, text]⟩

end

end Markup

namespace Grammar

variable {x y m m' : Markup} {left right : List Token}

theorem Produces.of_mem_parts {role : Role} {kind : NodeKind} {parts : List Markup}
    (h : Produces role (.node kind parts)) {m : Markup} (hm : m ∈ parts)
    (hnode : ∃ kind parts, m = .node kind parts) : ∃ role', Produces role' m ∧ role' ≠ .document := by
  obtain ⟨kind', parts', rfl⟩ := hnode
  cases h with
  | document hbody => exact ⟨.item, hbody _ hm, by simp⟩
  | group _ _ hbody => exact ⟨.item, hbody _ (by simpa using hm), by simp⟩
  | curlyBlock _ _ hbody => exact ⟨.item, hbody _ (by simpa using hm), by simp⟩
  | command _ _ hblocks => exact ⟨.block, hblocks _ (by simpa using hm), by simp⟩
  | environment _ _ hblocks hbody =>
    rcases (by simpa using hm :
      Markup.node kind' parts' ∈ _ ∨ Markup.node kind' parts' ∈ _) with hm | hm
    exacts [⟨.block, hblocks _ hm, by simp⟩, ⟨.item, hbody _ hm, by simp⟩]
  | _ => simp at hm

theorem Produces.isParameter_eq_false {role : Role} {kind : NodeKind} {parts : List Markup}
    (h : Produces role (.node kind parts)) : Markup.isParameter kind = false := by
  cases h <;> rfl

/-- What is exchanged in something that the grammar produces is itself produced by it. -/
theorem Exchange.exists_produces (h : Exchange x y left right m m')
    (hx : ∃ kind parts, x = .node kind parts) {role : Role} (hm : Produces role m) :
    ∃ role', Produces role' x := by
  induction h generalizing role with
  | here => exact ⟨role, hm⟩
  | inside kind before after h ih =>
    obtain ⟨role', hm₁, -⟩ := hm.of_mem_parts (by simp) (h.exists_eq_node hx)
    exact ih hm₁

/-- What stands behind a part is a part or closes the construct. -/
theorem Produces.behind {role : Role} {kind : NodeKind} {before after : List Markup} {n : Markup}
    (hm : ∃ kind parts, m = .node kind parts)
    (h : Produces role (.node kind (before ++ m :: n :: after))) :
    (∃ kind parts, n = .node kind parts) ∨
      ∃ t rest, n = .raw (t :: rest) ∧ (t.kind = .rBrace ∨ t.kind = .command) := by
  have hclosing {opener closer : List Token} {body : List Markup}
      (hbody : ∀ n ∈ body, ∃ kind parts, n = .node kind parts)
      (hparts : .raw opener :: (body ++ [.raw closer]) = before ++ m :: n :: after) :
      (∃ kind parts, n = .node kind parts) ∨ n = .raw closer := by
    obtain ⟨pre, post, -, rfl, hpost⟩ := eq_append_of_between hm hparts
    cases post with
    | nil => exact .inr (List.cons.inj hpost).1
    | cons n' post =>
      obtain ⟨rfl, -⟩ := List.cons.inj hpost
      exact .inl (hbody n (by simp))
  obtain ⟨kind', parts', rfl⟩ := hm
  generalize hparts : before ++ .node kind' parts' :: n :: after = parts at h
  have hmem : n ∈ parts := by simp [← hparts]
  have hmem' : .node kind' parts' ∈ parts := by simp [← hparts]
  cases h with
  | document hbody => exact .inl (hbody _ hmem).exists_eq_node
  | group _ hcloser hbody =>
    refine (hclosing (fun n hn => (hbody n hn).exists_eq_node) hparts.symm).imp id fun h => ?_
    exact ⟨_, [], h, .inl hcloser⟩
  | curlyBlock _ hcloser hbody =>
    refine (hclosing (fun n hn => (hbody n hn).exists_eq_node) hparts.symm).imp id fun h => ?_
    exact ⟨_, [], h, .inl hcloser⟩
  | command _ _ hblocks =>
    cases before with
    | nil => cases hparts
    | cons first before =>
      obtain ⟨-, rfl⟩ := List.cons.inj hparts
      exact .inl (hblocks n (by simp)).exists_eq_node
  | environment _ _ hblocks hbody _ _ hclosingTag =>
    rw [← List.append_assoc] at hparts
    refine (hclosing (fun n hn => ?_) hparts.symm).imp id fun h => ?_
    · rcases List.mem_append.mp hn with hn | hn
      exacts [(hblocks n hn).exists_eq_node, (hbody n hn).exists_eq_node]
    · obtain ⟨t, rest, rfl, hkind⟩ := hclosingTag.exists_eq_cons
      exact ⟨t, rest, h, .inr hkind⟩
  | _ => simp at hmem'

theorem Exchange.mem_outlines {kind : NodeKind} {parts : List Markup}
    (h : Exchange x (.node kind parts) left right m m') (here : Coord) :
    (kind, here.advance (textOf left)) ∈ Tree.outlines (m'.trees here) := by
  induction h generalizing here with
  | here => simp [Tree.outlines, Tree.outline]
  | inside kind' before after _ ih =>
    have := ih (here.advance (Markup.textOf before))
    rw [← Coord.advance_append] at this
    simp only [Markup.trees_node, Tree.outlines, Tree.outline, Markup.forest_append,
      Markup.forest_cons, Tree.outlines_append, List.mem_append, List.mem_cons]
    left; right; right; left
    simpa [Markup.textOf] using this

/-- Behind the part that is exchanged a construct closes or a node starts. -/
theorem Exchange.head_right (h : Exchange x y left right m m')
    (hx : ∃ kind parts, x = .node kind parts) {role : Role} (hm : Produces role m) (here : Coord) :
    ∀ t ∈ right.head?, t.kind = .rBrace ∨ t.kind = .command ∨
      ∃ kind, Markup.isParameter kind = false ∧
        (kind, here.advance (textOf left ++ y.text)) ∈ Tree.outlines (m'.trees here) := by
  induction h generalizing role here with
  | here => simp
  | @inside l r m₁ m₁' kind before after h ih =>
    intro t ht
    obtain ⟨role', hm₁, -⟩ := hm.of_mem_parts (by simp) (h.exists_eq_node hx)
    cases r with
    | cons t' r =>
      obtain rfl : t' = t := by simpa using ht
      refine (ih hm₁ (here.advance (Markup.textOf before)) t' rfl).imp id (Or.imp id ?_)
      rintro ⟨kind', hkind', hmem⟩
      refine ⟨kind', hkind', ?_⟩
      rw [← Coord.advance_append] at hmem
      simp only [Markup.trees_node, Tree.outlines, Tree.outline, Markup.forest_append,
        Markup.forest_cons, Tree.outlines_append, List.mem_append, List.mem_cons]
      left; right; right; left
      simpa [Markup.textOf] using hmem
    | nil =>
      cases after with
      | nil => simp at ht
      | cons n after =>
        rcases hm.behind (h.exists_eq_node hx) with ⟨kind', parts', rfl⟩ | ⟨t', rest, rfl, hkind⟩
        · obtain ⟨role'', hn, -⟩ := hm.of_mem_parts (m := .node kind' parts') (by simp) ⟨_, _, rfl⟩
          refine .inr (.inr ⟨kind', hn.isParameter_eq_false, ?_⟩)
          obtain ⟨-, htokens⟩ := h.tokens_eq
          simp only [Markup.trees_node, Tree.outlines, Tree.outline, Markup.forest_append,
            Markup.forest_cons, Tree.outlines_append, List.mem_append, List.mem_cons]
          left; right; right; right; left
          left; left
          simp [Markup.textOf, Markup.text, htokens]
        · obtain rfl : t' = t := by simpa using ht
          exact hkind.imp id .inl

end Grammar

end TexAnchor
