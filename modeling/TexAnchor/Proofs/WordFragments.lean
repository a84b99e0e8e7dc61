import TexAnchor.Proofs.Blame
import TexAnchor.Proofs.Fragments
import TexAnchor.Proofs.WordPlaces

/-! # Fragments on words

A fragment is read from any position.  If that is read as a place from which all places of the fragment
fit, the nodes get the ranges that `Arena.addFragment` gives them (`Arena.addFragment?_eq`), so the
fragment is read as a document of its own would be, moved (`Arena.Reached.addFragment?_translates`).
From other positions the ends of a node may be read in the wrong order, and are exchanged
(`Arena.addFragment?_farOrigin`). -/

namespace TexAnchor

open Text (Coord byteOf byteLength)
open Token (textOf)
open Word (half)

namespace Span

/-- On words the range of two places begins with the one that is read first. -/
theorem spanning?_ofCoord {s : Span} (hstart : s.start.IsWord) (hstop : s.stop.IsWord) :
    Range.spanning? (.ofCoord s.start) (.ofCoord s.stop) = some (Arena.rangeOf s.asRead) := by
  rw [Range.spanning?, Position.compare?_of_coord? (Text.coord?_ofCoord hstart)
    (Text.coord?_ofCoord hstop), asRead]
  by_cases hless : s.stop.asRead < s.start.asRead
  · have hnot : ¬ s.start.asRead < s.stop.asRead := Coord.not_lt.mpr (Coord.le_of_lt hless)
    rw [if_neg hnot, if_pos hless, if_pos hless]
    rfl
  · rw [if_neg hless, if_neg hless]
    split
    · rfl
    · rfl

theorem Cuts.asRead_eq {s : Span} {here : Coord} {text : List Char} (h : s.Cuts here text)
    (hfits : here.FitsAlong text) : s.asRead = s := by
  obtain ⟨before, source, after, rfl, rfl⟩ := h
  have hstart : (here.advance before).Fits := hfits before ⟨source ++ after, by simp⟩
  have hstop : (here.advance (before ++ source)).Fits := hfits _ (List.prefix_append _ after)
  have hle : here.advance before ≤ here.advance (before ++ source) := by
    rw [Coord.advance_append]
    exact Coord.le_advance _ source
  unfold asRead
  rw [Coord.asRead_eq hstart, Coord.asRead_eq hstop]
  exact if_neg (Coord.not_lt.mpr hle)

end Span

namespace Tree

mutual

theorem respan_eq_self {f : Span → Span} : ∀ (t : Tree), (∀ s ∈ t.spans, f s = s) → t.respan f = t
  | node kind span children, h => by
    rw [respan, h span (by simp),
      respanForest_eq_self children fun t ht s hs => h s (by
        rw [spans_node]
        exact List.mem_cons_of_mem _ (List.mem_flatMap.mpr ⟨t, ht, hs⟩))]

theorem respanForest_eq_self {f : Span → Span} :
    ∀ (forest : List Tree), (∀ t ∈ forest, ∀ s ∈ t.spans, f s = s) → respanForest f forest = forest
  | [], _ => rfl
  | t :: forest, h => by
    rw [respanForest, respan_eq_self t (h t (by simp)),
      respanForest_eq_self forest fun u hu => h u (by simp [hu])]

end

end Tree

namespace Grammar

theorem exists_prefix_of_readFrom_eq_error {origin : Coord} {text : List Char} {failure : Failure}
    (h : readFrom origin text = .error failure) :
    ∃ part, part <+: text ∧ failure.error.place = origin.advance part := by
  rw [readFrom_eq] at h
  obtain ⟨left, t, right, htokens, hplace, -⟩ :=
    exists_blamed_of_run (tracked_initial origin) (tagged_of_content rfl) h
  refine ⟨textOf left, ⟨textOf (t :: right), ?_⟩, hplace⟩
  rw [← Token.textOf_append, ← htokens, List.nil_append, textOf_tokenize]

end Grammar

theorem ParseError.map_eq_self {f : Coord → Coord} {e : ParseError} (h : f e.place = e.place) :
    e.map f = e := by
  cases e with
  | _ => simp only [place] at h; simp only [map, h]

namespace Arena

variable {a : Arena} {origin : Position} {here : Coord} {text : List Char} {counts : List Nat}

/-- Where the places of a fragment fit, it is read as with all numbers. -/
theorem addFragment?_eq (horigin : origin.coord? = some here) (hfits : here.FitsAlong text) :
    a.addFragment? origin text = some (a.addFragment here text) := by
  rw [addFragment?, horigin, addFragment]
  simp only [Option.bind_eq_bind, Option.bind_some, Option.pure_def]
  cases hread : Grammar.readFrom here text with
  | ok forest =>
    have hspans := Tree.respanForest_eq_self forest fun t ht s hs =>
      (Grammar.cuts_of_readFrom_eq_ok hread ht hs).asRead_eq hfits
    simp only [hspans]
  | error failure =>
    have hspans := Tree.respanForest_eq_self failure.completed fun t ht s hs =>
      (Grammar.cuts_of_readFrom_eq_error hread ht hs).asRead_eq hfits
    obtain ⟨part, hpart, hplace⟩ := Grammar.exists_prefix_of_readFrom_eq_error hread
    have herror : failure.error.map Coord.asRead = failure.error :=
      ParseError.map_eq_self (hplace ▸ Coord.asRead_eq (hfits part hpart))
    simp only [hspans, herror]

/-- Wherever a fragment stands, there are new nodes for it exactly if it is markup, and the others stay
as they are. -/
theorem exists_addFragment?_eq (ha : a.Sound) (horigin : origin.coord? = some here)
    (text : List Char) : ∃ grown result, a.addFragment? origin text = some (grown, result) ∧
    (∀ id, (a.get? id).isSome = true → grown.get? id = a.get? id) ∧
    ((∃ ids, result = .ok ids) ↔ ∃ fresh, Arena.parse text = .ok fresh) := by
  have hframe (forest : List Tree) (id : NodeId) (hid : (a.get? id).isSome = true) :
      (a.addForest forest).1.get? id = a.get? id := by
    obtain ⟨qs, -, hgrows, -⟩ := addForest_spec forest ha
    exact hgrows.frame id (hgrows.not_mem hid)
  have hmoved := Grammar.readFrom_eq_translated here text
  rw [addFragment?, horigin, Arena.parse]
  simp only [Option.bind_eq_bind, Option.bind_some, Option.pure_def]
  cases hread : Grammar.readFrom .zero text with
  | ok forest =>
    rw [hread] at hmoved
    rw [hmoved]
    exact ⟨_, _, rfl, hframe _, iff_of_true ⟨_, rfl⟩ ⟨_, rfl⟩⟩
  | error failure =>
    rw [hread] at hmoved
    rw [hmoved]
    refine ⟨_, _, rfl, hframe _, iff_of_false ?_ ?_⟩
    · rintro ⟨ids, hids⟩
      cases hids
    · rintro ⟨fresh, hfresh⟩
      cases hfresh

/-- A fragment is read from every position that is read as a place.  What was live before stays as it
is, and there are new nodes exactly if the fragment is markup.  If all places of the fragment fit, the
trees below these are those below the root of a document of its own, with all coordinates moved; and if
it is no markup, the error is that of the document, moved. -/
theorem Reached.addFragment?_translates (h : a.Reached counts) (horigin : origin.coord? = some here)
    (text : List Char) : ∃ grown result, a.addFragment? origin text = some (grown, result) ∧
    (∀ id, (a.get? id).isSome = true → grown.get? id = a.get? id) ∧
    ((∃ ids, result = .ok ids) ↔ ∃ fresh, Arena.parse text = .ok fresh) ∧
    (here.FitsAlong text → match Arena.parse text with
      | .ok fresh => ∃ (ids : List NodeId) (top : Node) (trees : List Tree), result = .ok ids ∧
          fresh.get? root = some top ∧ top.children.map fresh.treeBelow? = trees.map some ∧
          a.Receives grown ids (trees.map (Tree.map here.translate)) ∧
          ∀ before after, byteOf (before ++ text ++ after) here = byteLength before →
            ∀ t ∈ trees, ∀ s ∈ t.spans, ∃ start stop source, s.Denotes text start stop source ∧
              (s.map here.translate).Denotes (before ++ text ++ after) (byteLength before + start)
                (byteLength before + stop) source
      | .error e => result = .error (e.map here.translate)) := by
  obtain ⟨⟨ps, hps⟩, -⟩ := h.exists_consists
  obtain ⟨p, -, hp⟩ := hps.exists_carries
  obtain ⟨grown, result, hadded, hframe, hsucceeds⟩ := exists_addFragment?_eq hp.sound horigin text
  refine ⟨grown, result, hadded, hframe, hsucceeds, fun hfits => ?_⟩
  obtain ⟨-, htranslates⟩ := h.addFragment_translates here text
  rw [addFragment?_eq horigin hfits, Option.some_inj] at hadded
  rwa [hadded] at htranslates

/-- A group and a letter behind it are read into an arena with free slots, as if they stood on the third
line of a text, from a position that has drifted there. -/
theorem addFragment?_translates_group : ∃ (a grown : Arena) (counts : List Nat) (ids : List NodeId),
    Reached a counts ∧ a.free.length = 2 ∧
      a.addFragment? ⟨4, 1, ⟨-2, 2, true⟩⟩ ['\x7b', 'b', '\x7d', '\n', 'c'] = some (grown, .ok ids) ∧
      a.Receives grown ids
        [.node .group ⟨⟨2, 3⟩, ⟨2, 6⟩⟩ [.leaf (.text "b") ⟨2, 4⟩ ⟨2, 5⟩],
          .leaf (.whitespace 1) ⟨2, 6⟩ ⟨3, 0⟩, .leaf (.text "c") ⟨3, 0⟩ ⟨3, 1⟩] := by
  have hparse : Arena.parse ['a', ' ', '\x7b', 'b', '\x7d'] = .ok letterAndGroup := rfl
  have hrun := ((Reached.parse hparse).step (.fragment _ ⟨0, 2⟩ ['x', ' '])).step (.free _)
  have hfits : Coord.FitsAlong ⟨2, 3⟩ ['\x7b', 'b', '\x7d', '\n', 'c'] :=
    Coord.fitsAlong_of_le (by decide) (by decide)
  obtain ⟨grown, result, hadded, -, -, htranslates⟩ :=
    hrun.addFragment?_translates
      (show Position.coord? ⟨4, 1, ⟨-2, 2, true⟩⟩ = some ⟨2, 3⟩ by decide)
      ['\x7b', 'b', '\x7d', '\n', 'c']
  let fresh := ofForest ⟨1, 1⟩
    [.node .group ⟨⟨0, 0⟩, ⟨0, 3⟩⟩ [.leaf (.text "b") ⟨0, 1⟩ ⟨0, 2⟩],
      .leaf (.whitespace 1) ⟨0, 3⟩ ⟨1, 0⟩, .leaf (.text "c") ⟨1, 0⟩ ⟨1, 1⟩]
  have hfresh : Arena.parse ['\x7b', 'b', '\x7d', '\n', 'c'] = .ok fresh := rfl
  have htranslates := htranslates hfits
  rw [hfresh] at htranslates
  obtain ⟨ids, top, trees, rfl, htop, htrees, hreceives, -⟩ := htranslates
  obtain rfl : top = ⟨.latex, rangeOf ⟨.zero, ⟨1, 1⟩⟩, [⟨2⟩, ⟨3⟩, ⟨4⟩], none⟩ :=
    Option.some.inj (htop.symm.trans rfl)
  have hread : ([⟨2⟩, ⟨3⟩, ⟨4⟩] : List NodeId).map fresh.treeBelow? = List.map some
      [.node .group ⟨⟨0, 0⟩, ⟨0, 3⟩⟩ [.leaf (.text "b") ⟨0, 1⟩ ⟨0, 2⟩],
        .leaf (.whitespace 1) ⟨0, 3⟩ ⟨1, 0⟩, .leaf (.text "c") ⟨1, 0⟩ ⟨1, 1⟩] := rfl
  obtain rfl := List.map_injective_iff.mpr (fun _ _ => Option.some.inj) (hread.symm.trans htrees)
  exact ⟨_, grown, _, ids, hrun, by decide +kernel, hadded, hreceives⟩

/-- Two letters from the last column that fits: the place behind them is read as column zero, and the
range of their node begins there. -/
theorem addFragment?_farOrigin : ∃ grown node, Arena.parse ['a', 'b'] = .ok (ofForest ⟨0, 2⟩
      [.leaf (.text "ab") ⟨0, 0⟩ ⟨0, 2⟩]) ∧
    letterAndGroup.addFragment? (.ofCoord ⟨0, half - 1⟩) ['a', 'b'] = some (grown, .ok [⟨5⟩]) ∧
    grown.get? ⟨5⟩ = some node ∧ node.range.start.coord? = some ⟨0, 0⟩ ∧
    node.range.stop.coord? = some ⟨0, half - 1⟩ := by
  refine ⟨_, ⟨.text "ab", ⟨.ofCoord ⟨0, half + 1⟩, .ofCoord ⟨0, half - 1⟩⟩, [], none⟩, rfl, rfl,
    by decide +kernel, by decide, by decide⟩

end Arena

end TexAnchor
