import TexAnchor.Proofs.Changes
import TexAnchor.Proofs.WordFragments

/-! # Documents along changes on words

`Document.perform?` is what an attempt to change a document leaves behind on words, where it may break
off.  As long as the text is in memory and the ranges of all nodes fit (`Document.Fits`), and so do the
places to which a change leads (`Change.Fits`), the change is made as with all numbers
(`Document.Fits.perform?_eq`).  So along such changes (`Document.MadeOnWords`) nothing is lost: every live
node is read where it is, and its text is found
(`Document.MadeOnWords.exists_source_and_perform?_eq`).

An edit from far behind the end of its line may exchange the ends of the nodes behind it, and then their
text is not found (`Document.readNode?_farColumn`). -/

namespace TexAnchor

open Text (Coord byteLength byteOffset? lineCount slice?)
open Word (half)

theorem mapM_eq_some_map {α β : Type} {f : α → Option β} {g : α → β} {xs : List α}
    (h : ∀ x ∈ xs, f x = some (g x)) : xs.mapM f = some (xs.map g) := by
  induction xs with
  | nil => rfl
  | cons x xs ih =>
    rw [List.mapM_cons, h x (by simp), ih fun y hy => h y (by simp [hy])]
    rfl

theorem Text.Coord.fitsAlong_zero {text : List Char} (h : byteLength text < half) :
    Coord.zero.FitsAlong text :=
  Coord.fitsAlong_of_le (by simpa [Coord.zero] using h) (by simpa [Coord.zero] using h)

theorem Span.Cuts.fits {s : Span} {here : Coord} {text : List Char} (h : s.Cuts here text)
    (hfits : here.FitsAlong text) : (Arena.rangeOf s).Fits := by
  obtain ⟨before, source, after, rfl, rfl⟩ := h
  exact ⟨Position.fits_ofCoord (hfits before ⟨source ++ after, by simp⟩),
    Position.fits_ofCoord (hfits _ (List.prefix_append _ after))⟩

namespace Arena

variable {a : Arena} {e : Edit} {P : Range → Prop}

theorem everywhere_of_forall_mem (h : ∀ slot ∈ a.slots.toList, ∀ node ∈ slot, P node.range) :
    a.Everywhere P := by
  intro id node hnode
  cases hslot : a.slots[id.index]? with
  | none => simp [get?, hslot] at hnode
  | some slot =>
    have hmem : slot ∈ a.slots.toList := List.mem_of_getElem? (Array.getElem?_toList.trans hslot)
    exact h slot hmem node (by simpa [get?, hslot] using hnode)

/-- Where the ranges of all nodes fit and go on to do so, an edit moves them as with all numbers. -/
theorem applyEdit?_eq (he : e.Fits) (h : a.Everywhere Range.Fits)
    (hmoved : (a.applyEdit e).Everywhere Range.Fits) : a.applyEdit? e = some (a.applyEdit e) := by
  have hslot : ∀ slot ∈ a.slots.toList, (slot.mapM fun node => do
      return { node with range := ← e.mapRange? node.range } : Option (Option Node)) =
        some (slot.map fun node => { node with range := e.mapRange node.range }) := by
    intro slot hslot
    cases slot with
    | none => rfl
    | some node =>
      obtain ⟨i, hi⟩ := List.getElem?_of_mem hslot
      have hnode : a.get? ⟨i⟩ = some node := by
        rw [Array.getElem?_toList] at hi
        rw [get?, hi]
        rfl
      have hmovedNode := hmoved ⟨i⟩ _ (by rw [get?_applyEdit, hnode]; rfl)
      obtain ⟨hrange, -⟩ :=
        Range.mapRange?_eq he (h _ _ hnode) hmovedNode.1.coord hmovedNode.2.coord
      simp only [Option.mapM_some, hrange, Option.bind_eq_bind, Option.bind_some, Option.pure_def]
      rfl
  rw [applyEdit?, Array.mapM_eq_mapM_toList, mapM_eq_some_map hslot]
  rw [applyEdit, ← Array.toList_map]
  rfl

end Arena

namespace Document

variable {d d' : Document} {e : Edit} {id : NodeId} {node : Node} {text : List Char}

/-! ### Edits -/

/-- The text is in memory, and the ranges of all nodes fit. -/
structure Fits (d : Document) : Prop where
  memory : byteLength d.text < half
  ranges : d.arena.Everywhere Range.Fits

theorem offsetOf?_eq {p : Position} (h : p.Legible) :
    d.offsetOf? p = some (Text.offsetOf .zero p.coord d.text) := by
  rw [offsetOf?, h]
  rfl

theorem applyEdit?_eq (h : d.arena.Everywhere Range.Fits) (he : e.Fits) (hordered : e.range.Ordered)
    (hmoved : (d.arena.applyEdit e).Everywhere Range.Fits) :
    d.applyEdit? e = some (d.applyEdit e) := by
  have hoffsets := Text.offsetOf_le_offsetOf hordered .zero d.text
  rw [applyEdit?, (Position.legible_iff.mp he.stop).1, offsetOf?_eq he.start, offsetOf?_eq he.stop,
    Arena.applyEdit?_eq he h hmoved, applyEdit]
  simp only [Option.bind_eq_bind, Option.bind_some, Option.pure_def]
  split
  · rfl
  · rw [if_neg (Nat.not_lt.mpr hoffsets)]
    rfl

theorem readRange?_eq {r : Range} (hstart : r.start.Legible) (hstop : r.stop.Legible) :
    d.readRange? r = some (d.textIn? r) := by
  rw [readRange?, hstart, hstop]
  rfl

theorem readNode?_eq (h : d.arena.Everywhere Range.Fits) :
    d.readNode? id = some (d.nodeText? id) := by
  unfold readNode? nodeText?
  cases hnode : d.arena.get? id with
  | none => rfl
  | some node =>
    obtain ⟨hstart, hstop⟩ := h id node hnode
    exact readRange?_eq hstart.legible hstop.legible

/-! ### Replacements -/

theorem fits_replacement (h : d.arena.Everywhere Range.Fits) (hnode : d.arena.get? id = some node)
    (htext : node.range.start.coord.FitsAlong text) : Edit.Fits ⟨node.range, text⟩ := by
  obtain ⟨hstart, hstop⟩ := h id node hnode
  exact ⟨hstart.legible, hstop.legible, htext text (List.prefix_refl text)⟩

theorem replaceAttached?_eq (h : d.arena.Everywhere Range.Fits) (hsits : d.Sits)
    (hnode : d.arena.get? id = some node) (htext : node.range.start.coord.FitsAlong text)
    (hmoved : (d.arena.applyEdit ⟨node.range, text⟩).Everywhere Range.Fits) (up : NodeId) :
    d.replaceAttached? id node up text = some (d.replaceAttached id node up text) := by
  obtain ⟨hstart, hstop⟩ := h id node hnode
  have he := fits_replacement h hnode htext
  rw [replaceAttached?, applyEdit?_eq h he (hsits id node hnode).ordered hmoved, replaceAttached]
  cases hedit : d.applyEdit ⟨node.range, text⟩ with
  | error error => rfl
  | ok edited =>
    have hplace : node.range.start.rebased.coord? = some node.range.start.coord := by
      have hrebased := (Position.fits_ofCoord hstart.coord).legible
      rwa [Position.Legible, Position.coord_ofCoord] at hrebased
    simp only [Option.bind_eq_bind, Option.bind_some, offsetOf?_eq hstart.legible,
      offsetOf?_eq hstop.legible, Position.rebased?_eq hstart,
      Arena.addFragment?_eq hplace htext, Option.pure_def]
    rfl

/-! ### Changes -/

/-- `Document.perform` on words. -/
def perform? (d : Document) : Change → Option Document
  | .setText text => some ((d.setText text).toOption.getD d)
  | .reparse => some (d.reparse.toOption.getD d)
  | .applyEdit e => do return (← d.applyEdit? e).toOption.getD d
  | .replaceNode id text => do return (← d.replaceNode? id text).1
  | .freeDetached => some d.freeDetached

/-- The places to which the change leads fit: those to which an edit moves the nodes, and those of a text
that is put in the place of a node's. -/
def Change.Fits (d : Document) : Change → Prop
  | .applyEdit e => e.Fits ∧ (d.arena.applyEdit e).Everywhere Range.Fits
  | .replaceNode id text => ∀ node, id ≠ Arena.root → d.arena.isAttached id = true →
      d.arena.get? id = some node → node.range.start.coord.FitsAlong text ∧
        (d.arena.applyEdit ⟨node.range, text⟩).Everywhere Range.Fits
  | _ => True

variable {change : Change} {path : Path}

theorem replaceNode?_eq (h : d.arena.Everywhere Range.Fits) (hsits : d.Sits)
    (hfits : (Change.replaceNode id text).Fits d) :
    d.replaceNode? id text = some (d.replaceNode id text) := by
  unfold replaceNode? replaceNode
  split
  · rfl
  · next hroot =>
    cases hsite : d.site? id with
    | none => rfl
    | some site =>
      obtain ⟨node, up⟩ := site
      obtain ⟨hnode, -, hattached⟩ := site?_eq_some_iff.mp hsite
      obtain ⟨htext, hmoved⟩ := hfits node hroot hattached hnode
      exact replaceAttached?_eq h hsits hnode htext hmoved up

/-- A change to places that fit is made as with all numbers. -/
theorem Fits.perform?_eq (h : d.Fits) (hsits : d.Sits) (hordered : change.Ordered)
    (hfits : change.Fits d) : d.perform? change = some (d.perform change) := by
  cases change with
  | setText | reparse | freeDetached => rfl
  | applyEdit e =>
    rw [perform?, applyEdit?_eq h.ranges hfits.1 hordered hfits.2]
    rfl
  | replaceNode id text =>
    rw [perform?, replaceNode?_eq h.ranges hsits hfits]
    rfl

theorem everywhere_fits_of_parse (h : parse path text = .ok d) (hmemory : byteLength text < half) :
    d.arena.Everywhere Range.Fits :=
  everywhere_of_parse h fun _ hs => hs.fits (Coord.fitsAlong_zero hmemory)

theorem everywhere_fits_replaceNode (h : d.arena.Everywhere Range.Fits)
    (hfits : (Change.replaceNode id text).Fits d)
    (hmemory : byteLength (d.replaceNode id text).1.text < half) :
    (d.replaceNode id text).1.arena.Everywhere Range.Fits := by
  rcases hreplaced : d.replaceNode id text with ⟨d', outcome⟩
  rw [hreplaced] at hmemory
  cases replaces_of_replaceNode hreplaced with
  | unreadRoot | unknown | outside => exact h
  | readRoot _ hfresh | reread _ _ _ _ hfresh =>
    rw [text_of_parse hfresh] at hmemory
    exact everywhere_fits_of_parse hfresh hmemory
  | exchanged hroot hattached hnode _ hedited _ hread _ _ hreplace =>
    obtain ⟨htext, hmoved⟩ := hfits _ hroot hattached hnode
    have hgrown : ((d.arena.applyEdit ⟨_, text⟩).addFragment _ text).1.Everywhere Range.Fits :=
      hmoved.addFragment fun _ hs => hs.fits htext
    rw [applyEdit_eq_ok hedited] at hreplace
    rw [Arena.addFragment_eq hread] at hgrown
    exact hgrown.congr (Arena.referent?_replaceChild? hreplace)
  | unread hroot hattached hnode hedited =>
    obtain ⟨htext, hmoved⟩ := hfits _ hroot hattached hnode
    rw [applyEdit_eq_ok hedited]
    exact hmoved.addFragment fun _ hs => hs.fits htext

theorem Fits.perform (h : d.Fits) (hfits : change.Fits d)
    (hmemory : byteLength (d.perform change).text < half) : (d.perform change).Fits := by
  refine ⟨hmemory, ?_⟩
  revert hmemory
  refine perform_of (P := fun d => byteLength d.text < half → d.arena.Everywhere Range.Fits)
    (fun _ => h.ranges) (fun hparse hmemory => ?_) (fun heq hedit _ => ?_) (fun heq hmemory => ?_)
    fun _ => h.ranges.freeDetached
  · rw [text_of_parse hparse] at hmemory
    exact everywhere_fits_of_parse hparse hmemory
  · subst heq
    rw [applyEdit_eq_ok hedit]
    exact hfits.2
  · subst heq
    exact everywhere_fits_replaceNode h.ranges hfits hmemory

/-- The documents that changes to places that fit lead to on words. -/
inductive MadeOnWords : Document → Prop
  | parse {path : Path} {text : List Char} {d : Document} :
    parse path text = .ok d → byteLength text < half → MadeOnWords d
  | perform {d d' : Document} {change : Change} : MadeOnWords d → change.Ordered → change.Fits d →
    d.perform? change = some d' → byteLength d'.text < half → MadeOnWords d'

theorem MadeOnWords.made_and_fits (h : d.MadeOnWords) :
    (d.Made fun d change => change.Ordered ∧ change.Fits d) ∧ d.Fits := by
  induction h with
  | parse hparse hmemory =>
    exact ⟨.parse hparse, text_of_parse hparse ▸ hmemory, everywhere_fits_of_parse hparse hmemory⟩
  | perform _ hordered hfits hperform hmemory ih =>
    obtain ⟨hmade, hd⟩ := ih
    have hsits := hmade.sits fun _ _ hallowed => hallowed.1
    obtain rfl := Option.some.inj ((hd.perform?_eq hsits hordered hfits).symm.trans hperform)
    exact ⟨hmade.perform ⟨hordered, hfits⟩, hd.perform hfits hmemory⟩

/-! ### Nothing is lost -/

theorem exists_ok_of_applyEdit? {result : Except EditError Document} (hstop : e.range.stop.Legible)
    (hline : e.range.stop.line < lineCount d.text) (h : d.applyEdit? e = some result) :
    ∃ edited, result = .ok edited := by
  simp only [applyEdit?, (Position.legible_iff.mp hstop).1, Option.bind_eq_bind, Option.bind_some,
    Nat.not_le.mpr hline, if_false] at h
  obtain ⟨start, -, h⟩ := Option.bind_eq_some_iff.mp h
  obtain ⟨stop, -, h⟩ := Option.bind_eq_some_iff.mp h
  split at h
  · cases h
  · obtain ⟨arena, -, h⟩ := Option.bind_eq_some_iff.mp h
    exact ⟨_, (Option.some.inj h).symm⟩

theorem settle_ne_outOfBounds {grown : Document} {up : NodeId} {isolated : Bool}
    {read : Except ParseError (List NodeId)} {line count : Nat} :
    settle grown id node up isolated read ≠ (d', .error (.outOfBounds line count)) := by
  intro hsettle
  simp only [settle] at hsettle
  split at hsettle
  · cases hsettle
  · split at hsettle
    · cases hsettle
    · cases hsettle

/-- No text is refused for the place of the node that it is put in. -/
theorem replaceNode?_ne_outOfBounds (h : d.arena.Everywhere Range.Fits) (hsits : d.Sits) (id : NodeId)
    (text : List Char) (d' : Document) (line count : Nat) :
    d.replaceNode? id text ≠ some (d', .error (.outOfBounds line count)) := by
  intro hreplace
  unfold replaceNode? at hreplace
  split at hreplace
  · unfold replaceRoot at hreplace
    split at hreplace
    · cases hreplace
    · cases hreplace
  · split at hreplace
    · next node up hsite =>
      obtain ⟨hnode, -, -⟩ := site?_eq_some_iff.mp hsite
      obtain ⟨result, hedit, hreplace⟩ := Option.bind_eq_some_iff.mp hreplace
      have hstop : node.range.stop.line < lineCount d.text := (hsits id node hnode).onLines.2
      obtain ⟨edited, rfl⟩ :=
        exists_ok_of_applyEdit? (e := ⟨node.range, text⟩) (h id node hnode).2.legible hstop hedit
      simp only [Option.bind_eq_bind, Option.bind_eq_some_iff, Option.pure_def,
        Option.some.injEq] at hreplace
      obtain ⟨before, -, after, -, place, -, read, -, hsettle⟩ := hreplace
      exact settle_ne_outOfBounds hsettle
    · cases hreplace

/-- Along changes whose edits are in order and that lead to places that fit, successful or not, the range
of every live node is read where it is, it is in order and on lines of the text, and the node's source is
found between two characters.  Every edit whose ends are read in order can be made in the text, that of a
node's range among them, no text is refused for the place of the node that it is put in, and every
further such change is made. -/
theorem MadeOnWords.exists_source_and_perform?_eq (h : d.MadeOnWords) :
    (∀ id node, d.arena.get? id = some node →
      node.range.start.Legible ∧ node.range.stop.Legible ∧ node.range.Ordered ∧
        node.range.start.line < lineCount d.text ∧ node.range.stop.line < lineCount d.text ∧
        (∀ text, d.Splices ⟨node.range, text⟩) ∧
        ∃ start stop source, byteOffset? d.text node.range.start.coord = some start ∧
          byteOffset? d.text node.range.stop.coord = some stop ∧
          slice? d.text start stop = some source ∧ d.readRange? node.range = some (some source) ∧
          d.readNode? id = some (some source)) ∧
      (∀ (e : Edit) (start stop : Coord), e.range.start.coord? = some start →
        e.range.stop.coord? = some stop → start ≤ stop →
        d.Splices ⟨⟨.ofCoord start, .ofCoord stop⟩, e.text⟩) ∧
      (∀ id text d' line count,
        d.replaceNode? id text ≠ some (d', .error (.outOfBounds line count))) ∧
      ∀ change : Change, change.Ordered → change.Fits d →
        d.perform? change = some (d.perform change) := by
  obtain ⟨hmade, hfits⟩ := h.made_and_fits
  have hsits := hmade.sits fun _ _ hallowed => hallowed.1
  refine ⟨fun id node hnode => ?_, fun e start stop _ _ hle => ?_,
    replaceNode?_ne_outOfBounds hfits.ranges hsits,
    fun change hordered hchange => hfits.perform?_eq hsits hordered hchange⟩
  · obtain ⟨hstart, hstop⟩ := hfits.ranges id node hnode
    obtain ⟨-, hordered, hstartLine, hstopLine⟩ := hsits id node hnode
    obtain ⟨start, stop, source, hstart?, hstop?, hslice, hrange, hsource⟩ := hsits.exists_source hnode
    refine ⟨hstart.legible, hstop.legible, hordered, hstartLine, hstopLine,
      fun text => splices_of_ordered hordered d, start, stop, source, hstart?, hstop?, hslice, ?_, ?_⟩
    · rw [readRange?_eq hstart.legible hstop.legible, hrange]
    · rw [readNode?_eq hfits.ranges, hsource]
  · refine splices_of_ordered ?_ d
    show (Position.ofCoord start).coord ≤ (Position.ofCoord stop).coord
    rwa [Position.coord_ofCoord, Position.coord_ofCoord]

/-- A letter of two bytes and a group. -/
def accented : Document where
  path := ⟨"a.tex"⟩
  text := ['é', '{', 'b', '}']
  arena := .ofForest ⟨0, 4⟩
    [.leaf (.text "é") ⟨0, 0⟩ ⟨0, 1⟩,
      .node .group ⟨⟨0, 1⟩, ⟨0, 4⟩⟩ [.leaf (.text "b") ⟨0, 2⟩ ⟨0, 3⟩]]

/-- The group is deleted by an edit that ends far behind it, and in its place is put a text that cannot
be read. -/
def accentedLeft : Document :=
  (accented.perform (.applyEdit ⟨⟨.ofCoord ⟨0, 1⟩, .ofCoord ⟨0, 9⟩⟩, []⟩)).perform
    (.replaceNode ⟨3⟩ ['é', '$', 'c', '$', '{'])

theorem exists_source_and_perform?_eq_accented : accentedLeft.MadeOnWords ∧
    accentedLeft.text = ['é', 'é', '$', 'c', '$', '{'] ∧
    (∃ node, accentedLeft.arena.get? ⟨5⟩ = some node ∧ node.range.stop.Legible ∧
      accentedLeft.Splices ⟨node.range, ['x']⟩ ∧
      accentedLeft.readNode? ⟨5⟩ = some (some ['$', 'c', '$'])) ∧
    accentedLeft.perform? .freeDetached = some (accentedLeft.perform .freeDetached) := by
  let deletion : Change := .applyEdit ⟨⟨.ofCoord ⟨0, 1⟩, .ofCoord ⟨0, 9⟩⟩, []⟩
  let replacement : Change := .replaceNode ⟨3⟩ ['é', '$', 'c', '$', '{']
  have hparse : parse accented.path accented.text = .ok accented := by rfl
  have hdeletion : deletion.Fits accented :=
    ⟨⟨by decide, by decide, by decide⟩, Arena.everywhere_of_forall_mem (by decide +kernel)⟩
  have hreplacement : replacement.Fits (accented.perform deletion) := by
    intro node _ _ hnode
    have hplace : ∀ node ∈ (accented.perform deletion).arena.get? ⟨3⟩,
        node.range.start.coord = ⟨0, 1⟩ := by decide +kernel
    have hmoved : ∀ node ∈ (accented.perform deletion).arena.get? ⟨3⟩,
        ∀ slot ∈ ((accented.perform deletion).arena.applyEdit
          ⟨node.range, ['é', '$', 'c', '$', '{']⟩).slots.toList, ∀ node ∈ slot, node.range.Fits := by
      decide +kernel
    rw [hplace node hnode]
    exact ⟨Coord.fitsAlong_of_le (by decide) (by decide),
      Arena.everywhere_of_forall_mem (hmoved node hnode)⟩
  have hordered : deletion.Ordered := by
    show Range.Ordered _
    decide
  have hordered' : replacement.Ordered := trivial
  have hread : accented.MadeOnWords := .parse hparse (by decide)
  have hdeleted : (accented.perform deletion).MadeOnWords :=
    hread.perform hordered hdeletion
      (hread.exists_source_and_perform?_eq.2.2.2 deletion hordered hdeletion) (by decide +kernel)
  have hmade : accentedLeft.MadeOnWords :=
    hdeleted.perform hordered' hreplacement
      (hdeleted.exists_source_and_perform?_eq.2.2.2 replacement hordered' hreplacement)
      (by decide +kernel)
  obtain ⟨hlive, -, -, hperform⟩ := hmade.exists_source_and_perform?_eq
  have hnode : (accentedLeft.arena.get? ⟨5⟩).isSome = true := by decide +kernel
  obtain ⟨node, hnode⟩ := Option.isSome_iff_exists.mp hnode
  obtain ⟨-, hstop, -, -, -, hsplices, -, -, source, -, -, -, -, hsource⟩ := hlive _ _ hnode
  have htext : accentedLeft.readNode? ⟨5⟩ = some (some ['$', 'c', '$']) := by decide +kernel
  exact ⟨hmade, by decide +kernel, ⟨node, hnode, hstop, hsplices _, htext⟩,
    hperform .freeDetached trivial trivial⟩

/-- A letter is put into the second of two words on two lines, and then all that stands from far behind
the first one to the start of the second is deleted.  The ends of the second word are exchanged; without
the letter the change breaks off. -/
theorem readNode?_farColumn :
    let letter : Change := .applyEdit ⟨⟨.ofCoord ⟨1, 1⟩, .ofCoord ⟨1, 1⟩⟩, ['z']⟩
    let join : Change := .applyEdit ⟨⟨.ofCoord ⟨0, half - 1⟩, .ofCoord ⟨1, 0⟩⟩, []⟩
    parse twoLines.path twoLines.text = .ok twoLines ∧ letter.Ordered ∧ join.Ordered ∧
      twoLines.arena.isAttached ⟨3⟩ = true ∧
      ((twoLines.perform? letter).bind (·.perform? join)).bind (·.readNode? ⟨3⟩) = some none ∧
      twoLines.perform? join = none :=
  ⟨by rfl, show Range.Ordered _ by decide, show Range.Ordered _ by decide, by decide +kernel,
    by decide +kernel, Option.isNone_iff_eq_none.mp (by decide +kernel)⟩

end Document

end TexAnchor
