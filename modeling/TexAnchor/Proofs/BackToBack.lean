import TexAnchor.Proofs.Candidates
import TexAnchor.Proofs.Handles
import TexAnchor.Proofs.Sessions

/-! # Edits of two models back to back

Between two edits of models the models are extracted again, from mappings that still have the line
numbers from before the first edit.  So the second edit is a write over the node that is then paired
with its model's mapping.  Which one that is can be told from the document before both edits
(`Session.BackToBack.exists_landing`): it is the node that the mapping is paired with when the
nodes of its provider are taken where the first edit moves them (`Extraction.movedPairing`).  Where
that is the node of the model itself, the text ends up with both new texts in the places of the two
sources (`Document.HasBoth`), and otherwise the source of another node is lost. -/

namespace TexAnchor

open Extraction
open Text (Coord)
open Token (Parted)

/-! ### Two stretches of a text -/

namespace Document

/-- The range and a later one cover stretches, and `final` is the text with others in their places. -/
def HasInOrder (d : Document) (range range' : Range) (text text' final : List Char) : Prop :=
  ∃ before source between source' after,
    d.Covers range before source (between ++ source' ++ after) ∧
    d.Covers range' (before ++ source ++ between) source' after ∧
    final = before ++ text ++ between ++ text' ++ after

/-- The ranges cover stretches apart from each other, and `final` is the text with `text` and `text'`
in their places. -/
def HasBoth (d : Document) (range range' : Range) (text text' final : List Char) : Prop :=
  d.HasInOrder range range' text text' final ∨ d.HasInOrder range' range text' text final

variable {d d' : Document} {range range' written : Range} {before source after : List Char}
  {before' source' after' text text' : List Char}

/-- A write over where an edit has moved a range leaves the text with both. -/
theorem Covers.hasBoth (h : d.Covers range before source after)
    (h' : d.Covers range' before' source' after') (hne : source ≠ []) (hsettled : range'.Settled)
    (hapart : range.stop.coord ≤ range'.start.coord ∨ range'.stop.coord ≤ range.start.coord)
    (htext : d'.text = before ++ text ++ after)
    (hwritten : written.span = (Edit.mapRange ⟨range, text⟩ range').span) :
    d.HasBoth range range' text text' (Edit.applyTo ⟨written, text'⟩ d'.text) := by
  rcases hapart with hle | hle
  · obtain ⟨between, rfl, rfl⟩ := h.exists_between h' hle
    have hmoved := (h.mapRange_behind htext h' rfl hsettled).of_span_eq hwritten
    exact .inl ⟨before, source, between, source', after', h, h', hmoved.applyTo text'⟩
  · obtain ⟨between, rfl, rfl⟩ := h'.exists_between h hle
    have hmoved := (h.mapRange_before hne htext h' rfl hsettled).of_span_eq hwritten
    refine .inr ⟨before', source', between, source, after, h', h, ?_⟩
    rw [hmoved.applyTo text']
    simp

end Document

namespace Session

variable {w : Workspace} {d : Document} {p : Provider} {m m' : IssuedModel} {text text' : List Char}

/-- A session right after an extraction, in which two edits of models have been submitted. -/
def editBoth (w : Workspace) (m m' : IssuedModel) (text text' : List Char) : Session :=
  (((new w.extract).submit (.modelEdit m.uid text)).1.submit (.modelEdit m'.uid text')).1

/-- Two models of a document in step, apart from each other, whose edits back to back both succeed;
the first text is a single node of the provider of the first model, with no other candidate in it. -/
structure BackToBack (w : Workspace) (d : Document) (p : Provider) (m m' : IssuedModel)
    (text text' : List Char) : Prop where
  reachable : w.Reachable
  timeout : w.settings.timeoutMilliseconds ≠ some 0
  document : w.extract.document? m.sourceFile = some d
  inStep : d.InStep
  first : m ∈ w.extract.models
  second : m' ∈ w.extract.models
  sameFile : m'.sourceFile.same m.sourceFile = true
  apart : m.range.stop.coord ≤ m'.range.start.coord ∨ m'.range.stop.coord ≤ m.range.start.coord
  isNodeOf : Provider.IsNodeOf (w.providers.list.map Provider.name) m.mapping.kind text
  provider : p ∈ w.providers.list
  accepts : p.acceptsMapping m'.mapping = true
  firstDone : ((Write.modelEdit m.uid text).run w.extract).2 = none
  secondDone : ((Write.modelEdit m'.uid text').run
    ((Write.modelEdit m.uid text).run w.extract).1).2 = none

theorem workspace_waitIdle_editBoth (htimeout : w.settings.timeoutMilliseconds ≠ some 0) :
    (editBoth w m m' text text').waitIdle.workspace =
      ((Write.modelEdit m'.uid text').run ((Write.modelEdit m.uid text).run w.extract).1).1 :=
  workspace_waitIdle ⟨rfl, rfl, htimeout⟩

namespace BackToBack

theorem exists_view_first (h : BackToBack w d p m m' text text') :
    ∃ v, d.arena.view? v.id = some v ∧ v.id ∈ d.arena.descendants Arena.root ∧
      v.owner? = some m.mapping.kind ∧ m.node = v.id ∧ m.range = v.range := by
  have hw := h.reachable.sound
  obtain ⟨q, hq, v, hv, hpair, -, hnode, hrange⟩ := hw.exists_view_of_mem_extract h.first h.document
  obtain ⟨hview, hmem, haccepts⟩ := view?_of_mem_candidateViews hv
  obtain ⟨⟨-, hmapping⟩, -⟩ := exists_view_of_mem_pairing hpair
  rw [Provider.acceptsMapping_eq (hw.builtin.subset hq), beq_iff_eq] at hmapping
  exact ⟨v, hview, hmem, hmapping ▸ Provider.owner?_of_acceptsNode (hw.builtin.subset hq) haccepts,
    hnode, hrange⟩

theorem exists_view_second (h : BackToBack w d p m m' text text') :
    ∃ u ∈ candidateViews d p, m'.node = u.id ∧ m'.range = u.range ∧
      m'.mapping ∈ w.mappings.get d.path := by
  have hw := h.reachable.sound
  have hd : w.extract.document? m'.sourceFile = some d := by
    rw [w.extract.document?_congr (Path.same_iff.mp h.sameFile)]
    exact h.document
  obtain ⟨q, hq, u, hu, hpair, -, hnode, hrange⟩ := hw.exists_view_of_mem_extract h.second hd
  obtain ⟨⟨hmem, haccepts⟩, -⟩ := exists_view_of_mem_pairing hpair
  obtain rfl := hw.provider_eq hq h.provider haccepts h.accepts
  exact ⟨u, hu, hnode, hrange, hmem⟩

theorem exists_carries (h : BackToBack w d p m m' text text') : ∃ whole, d.arena.Carries whole :=
  (h.reachable.sound.extract.reachable d (Workspace.mem_of_document? h.document).1).exists_carries

/-- What the first edit leaves: a document in step, whose nodes are paired as they are when they have
moved, unless the new text has joined what stands before it. -/
theorem exists_between (h : BackToBack w d p m m' text text') :
    ∃ between, (w.extract.applyModelEdit m.uid text).1 = w.extract.putDocument between ∧
      (w.extract.applyModelEdit m.uid text).1.document? m.sourceFile = some between ∧
      between.path = d.path ∧ between.freeDetached.InStep ∧
      between.text = Edit.applyTo ⟨m.range, text⟩ d.text ∧
      (Parted (tokenize (d.around m.range).1) text → ∀ mappings,
        List.Forall₂ (PairedAlike (Follows d between.freeDetached ⟨m.range, text⟩))
          (movedPairing d mappings p m.node ⟨m.range, text⟩).pairs
          (pairing between.freeDetached mappings p).pairs) := by
  have hw := h.reachable.sound
  obtain ⟨whole, hwhole⟩ := h.exists_carries
  obtain ⟨v, hview, hmem, howner, hid, hrange⟩ := h.exists_view_first
  rw [hwhole.descendants_root] at hmem
  have hnode := Arena.get?_of_view? hview
  have hmarked : Grammar.isMarked v.node.kind.tag = true := Provider.isMarked_of_ownerOf? howner
  obtain ⟨outcome, hdone⟩ := (Write.snd_run_modelEdit_eq_none_iff _ _ _).mp h.firstDone
  obtain ⟨m₀, d₀, -, hm₀, hd₀, -, -, -, -, -, hreplaced, hput, hafter⟩ :=
    hw.extract.exists_of_applyModelEdit_eq_ok hw.current_extract hdone
  have hmodel := (h.reachable.handled.extract hw.tidy).model?_of_mem h.first
  obtain rfl : m = m₀ := Option.some.inj (hmodel.symm.trans hm₀)
  obtain rfl : d = d₀ := Option.some.inj (h.document.symm.trans hd₀)
  rw [hid] at hreplaced
  obtain ⟨node, -, hnode', htext⟩ := Document.text_replaceNode_eq_applyTo
    (Document.ne_root_of_isMarked hwhole h.inStep hnode hmarked) hreplaced
  obtain rfl := Option.some.inj (hnode.symm.trans hnode')
  obtain ⟨whole', hwhole'⟩ := Document.exists_carries_replaceNode hwhole v.id text
  have hstep := Document.inStep_replaceNode_of_ok hwhole h.inStep hnode hmarked hreplaced
  rw [hid, hrange]
  refine ⟨(d.replaceNode v.id text).1, hid ▸ hput, hid ▸ hafter, Document.path_replaceNode _ _ _,
    Document.inStep_freeDetached hwhole' hstep, htext, fun hparted mappings => ?_⟩
  exact movedPairing_forall₂ mappings (hw.builtin.subset h.provider) hwhole h.inStep hmem hview howner
    h.isNodeOf (List.mem_map_of_mem h.provider) hparted hreplaced

/-- The second handle now stands for the node that the mapping of its model is paired with. -/
theorem exists_paired (h : BackToBack w d p m m' text text') {changed : Workspace}
    {between : Document} (hchanged : changed.Reachable)
    (hput : changed = w.extract.putDocument between)
    (hbetween : changed.document? m.sourceFile = some between) (hpath : between.path = d.path)
    {m₂ : IssuedModel} (hm₂ : m₂ ∈ changed.extract.models) (huid : m₂.uid = m'.uid) :
    changed.extract.document? m₂.sourceFile = some between.freeDetached ∧
      m₂.sourceFile.components = m.sourceFile.components ∧
      ∃ v ∈ candidateViews between.freeDetached p,
        (m'.mapping, v.id) ∈ (pairing between.freeDetached (w.mappings.get d.path) p).pairs ∧
        m₂.node = v.id ∧ m₂.range = v.range := by
  have hw := h.reachable.sound
  have hkey : m₂.toModel.key = m'.toModel.key :=
    hchanged.handled.key_eq hchanged.sound.tidy (by rw [hput]; exact h.second) hm₂ huid
  have hfile : m₂.sourceFile.components = m.sourceFile.components :=
    (congrArg Prod.fst hkey).trans (Path.same_iff.mp h.sameFile)
  have hfound : changed.extract.document? m₂.sourceFile = some between.freeDetached := by
    rw [changed.extract.document?_congr hfile, Workspace.document?_extract, hbetween, Option.map_some]
  obtain ⟨q, hq, v, hv, hpair, -, hid, hrange⟩ :=
    hchanged.sound.exists_view_of_mem_extract hm₂ hfound
  have hmappings : changed.mappings.get between.freeDetached.path = w.mappings.get d.path := by
    rw [← hpath, hput]
    rfl
  rw [hput] at hq
  rw [hmappings] at hpair
  obtain ⟨⟨hmem, haccepts⟩, -⟩ := exists_view_of_mem_pairing hpair
  obtain ⟨_, -, -, -, hmem'⟩ := h.exists_view_second
  have hmapping : m₂.mapping = m'.mapping :=
    List.inj_on_of_nodup_map (h.reachable.handled.numbers.get d.path) hmem hmem'
      (congrArg Prod.snd hkey)
  rw [hmapping] at hpair haccepts
  obtain rfl := hw.provider_eq hq h.provider haccepts h.accepts
  exact ⟨hfound, hfile, v, hv, hpair, hid, hrange⟩

theorem exists_second (h : BackToBack w d p m m' text text') {between : Document}
    (hput : (w.extract.applyModelEdit m.uid text).1 = w.extract.putDocument between)
    (hbetween : (w.extract.applyModelEdit m.uid text).1.document? m.sourceFile = some between)
    (hpath : between.path = d.path) (hstep : between.freeDetached.InStep) :
    ∃ final, ∃ v ∈ candidateViews between.freeDetached p,
      (m'.mapping, v.id) ∈ (pairing between.freeDetached (w.mappings.get d.path) p).pairs ∧
      (editBoth w m m' text text').waitIdle.workspace.document? m.sourceFile = some final ∧
      final.text = Edit.applyTo ⟨v.range, text'⟩ between.text := by
  have hchanged := h.reachable.extract.applyModelEdit m.uid text
  have hsound := hchanged.sound.extract
  obtain ⟨outcome, hdone⟩ := (Write.snd_run_modelEdit_eq_none_iff _ _ _).mp h.secondDone
  rw [Write.fst_run_modelEdit] at hdone
  obtain ⟨m₂, d₂, node, hm₂, hd₂, -, -, hnode, hrange, hmarked, hreplaced, -, hafter⟩ :=
    hsound.exists_of_applyModelEdit_eq_ok hchanged.sound.current_extract hdone
  have huid : m₂.uid = m'.uid :=
    beq_iff_eq.mp (List.find?_some (p := fun m : IssuedModel => m.uid == m'.uid) hm₂)
  obtain ⟨hfound, hfile, v, hv, hpair, -, hrange'⟩ :=
    h.exists_paired hchanged hput hbetween hpath (List.mem_of_find?_eq_some hm₂) huid
  obtain rfl : between.freeDetached = d₂ := Option.some.inj (hfound.symm.trans hd₂)
  obtain ⟨whole, hwhole⟩ :=
    (hsound.reachable _ (Workspace.mem_of_document? hfound).1).exists_carries
  have hroot := Document.ne_root_of_isMarked hwhole hstep hnode hmarked
  obtain ⟨node', -, hnode', htext⟩ := Document.text_replaceNode_eq_applyTo hroot hreplaced
  obtain rfl := Option.some.inj (hnode.symm.trans hnode')
  refine ⟨(between.freeDetached.replaceNode m₂.node text').1.freeDetached, v, hv, hpair, ?_, ?_⟩
  · rw [workspace_waitIdle_editBoth h.timeout, Write.fst_run_modelEdit, Write.fst_run_modelEdit,
      Workspace.document?_extract, ← Workspace.document?_congr _ hfile, hafter, Option.map_some]
  · rw [← hrange', hrange]
    exact htext

/-- A write over where the first edit has moved the source of the second model. -/
theorem hasBoth_of_span_eq (h : BackToBack w d p m m' text text') {between : Document} {range : Range}
    (htext : between.text = Edit.applyTo ⟨m.range, text⟩ d.text)
    (hspan : range.span = (Edit.mapRange ⟨m.range, text⟩ m'.range).span) :
    d.HasBoth m.range m'.range text text' (Edit.applyTo ⟨range, text'⟩ between.text) := by
  obtain ⟨whole, hwhole⟩ := h.exists_carries
  have hcovered {v : View} {name : String} (hview : d.arena.view? v.id = some v)
      (hmem : v.id ∈ d.arena.descendants Arena.root) (howner : v.owner? = some name) :
      (∃ before source after, source ≠ [] ∧ d.Covers v.range before source after) ∧
        v.range.Settled := by
    rw [hwhole.descendants_root] at hmem
    have hnode := Arena.get?_of_view? hview
    exact ⟨Document.exists_covers hwhole h.inStep hmem hnode (Provider.isMarked_of_ownerOf? howner),
      hwhole.settled_range hmem hnode⟩
  obtain ⟨v, hview, hmem, howner, -, hrange⟩ := h.exists_view_first
  obtain ⟨u, hu, -, hrange', -⟩ := h.exists_view_second
  obtain ⟨hview', hmem', haccepts⟩ := view?_of_mem_candidateViews hu
  have howner' :=
    Provider.owner?_of_acceptsNode (h.reachable.sound.builtin.subset h.provider) haccepts
  obtain ⟨⟨before, source, after, hne, hcovers⟩, -⟩ := hcovered hview hmem howner
  obtain ⟨⟨before', source', after', -, hcovers'⟩, hsettled⟩ := hcovered hview' hmem' howner'
  rw [← hrange] at hcovers
  rw [← hrange'] at hcovers' hsettled
  rw [hcovers.applyTo] at htext
  exact hcovers.hasBoth hcovers' hne hsettled h.apart htext hspan

/-- Where two edits back to back land.  The second one writes over the node that the mapping of its
model is then paired with, and the text has both new texts if that is where the first edit has moved
the source of the model.  If nothing joins the first text to what stands before it, the pairing with
the moved nodes tells whether it is, and which node it is otherwise. -/
theorem exists_landing (h : BackToBack w d p m m' text text') :
    ∃ between final, ∃ v ∈ candidateViews between p, between.InStep ∧
      between.text = Edit.applyTo ⟨m.range, text⟩ d.text ∧
      (m'.mapping, v.id) ∈ (pairing between (w.mappings.get d.path) p).pairs ∧
      (editBoth w m m' text text').waitIdle.workspace.document? m.sourceFile = some final ∧
      final.text = Edit.applyTo ⟨v.range, text'⟩ between.text ∧
      (v.range.span = (Edit.mapRange ⟨m.range, text⟩ m'.range).span →
        d.HasBoth m.range m'.range text text' final.text) ∧
      (Parted (tokenize (d.around m.range).1) text →
        ((m'.mapping, m'.node) ∈ (movedPairing d (w.mappings.get d.path) p m.node
            ⟨m.range, text⟩).pairs →
          d.HasBoth m.range m'.range text text' final.text) ∧
        ((m'.mapping, m'.node) ∉ (movedPairing d (w.mappings.get d.path) p m.node
            ⟨m.range, text⟩).pairs →
          ∃ u ∈ candidateViews d p, u.id ≠ m'.node ∧
            (m'.mapping, u.id) ∈ (movedPairing d (w.mappings.get d.path) p m.node
              ⟨m.range, text⟩).pairs ∧
            v.range.span = (Edit.mapRange ⟨m.range, text⟩ u.range).span)) := by
  obtain ⟨between, hput, hafter, hpath, hstep, htext, hmoved⟩ := h.exists_between
  obtain ⟨final, v, hv, hpair, hfinal, hfinal_text⟩ := h.exists_second hput hafter hpath hstep
  have hboth (hspan : v.range.span = (Edit.mapRange ⟨m.range, text⟩ m'.range).span) :
      d.HasBoth m.range m'.range text text' final.text := by
    rw [hfinal_text]
    exact h.hasBoth_of_span_eq htext hspan
  refine ⟨between.freeDetached, final, v, hv, hstep, htext, hpair, hfinal, hfinal_text, hboth,
    fun hparted => ?_⟩
  obtain ⟨⟨_, id⟩, hpair', rfl, node, node', hnode, hnode', hspan⟩ :=
    (Correlation.exists_of_forall₂ (hmoved hparted (w.mappings.get d.path))).2 _ hpair
  obtain ⟨u, hu, rfl⟩ := exists_view_of_mem_movedPairing hpair'
  obtain ⟨hview, -⟩ := view?_of_mem_candidateViews hu
  obtain ⟨hview', -⟩ := view?_of_mem_candidateViews hv
  obtain rfl := Option.some.inj (hnode.symm.trans (Arena.get?_of_view? hview))
  obtain rfl := Option.some.inj (hnode'.symm.trans (Arena.get?_of_view? hview'))
  constructor
  · intro hown
    have hid : m'.node = u.id := by
      refine eq_of_mem_correlate ?_ hown hpair'
      exact (List.filter_sublist.map _).nodup (h.reachable.handled.numbers.get d.path)
    obtain ⟨u', hu', hid', hrange', -⟩ := h.exists_view_second
    obtain ⟨hview', -⟩ := view?_of_mem_candidateViews hu'
    rw [← hid', hid] at hview'
    obtain rfl := Option.some.inj (hview.symm.trans hview')
    rw [hrange'] at hboth ⊢
    exact hboth hspan
  · intro hother
    exact ⟨u, hu, fun hid => hother (hid ▸ hpair'), hpair', hspan⟩

end BackToBack

/-! ### Three formulas -/

/-- A file with three displayed formulas on lines of their own. -/
def formulas : Document where
  path := ⟨"a.tex"⟩
  text := ['$', '$', 'a', '$', '$', '\n', '$', '$', 'b', '$', '$', '\n', '$', '$', 'c', '$', '$', '\n']
  arena := .ofForest ⟨3, 0⟩ (["a", "b", "c"].zipIdx.flatMap fun (content, line) =>
    [.leaf (.math .doubleDollar content) ⟨line, 0⟩ ⟨line, 5⟩,
      .leaf (.whitespace 1) ⟨line, 5⟩ ⟨line + 1, 0⟩])

/-- A workspace on the file, with a mapping to each formula. -/
def formulasWorkspace : Workspace :=
  { Workspace.new .default with documents := [formulas] }.setMappings formulas.path
    [⟨"math", 1, formulas.path, 1⟩, ⟨"math", 2, formulas.path, 2⟩, ⟨"math", 3, formulas.path, 3⟩]

/-- The model of the formula on a line. -/
def formulaModel (line : Nat) (content : String) : IssuedModel where
  kind := "math"
  sourceFile := formulas.path
  node := ⟨2 * line - 1⟩
  range := ⟨.ofCoord ⟨line - 1, 0⟩, .ofCoord ⟨line - 1, 5⟩⟩
  mapping := ⟨"math", line, formulas.path, line⟩
  content := .math content true
  uid := ⟨line⟩

theorem backToBack_formulas
    (hnode : Provider.IsNodeOf (formulasWorkspace.providers.list.map Provider.name) "math" text)
    (hfirst : ((Write.modelEdit ⟨1⟩ text).run formulasWorkspace.extract).2 = none)
    (hsecond : ((Write.modelEdit ⟨2⟩ text').run
      ((Write.modelEdit ⟨1⟩ text).run formulasWorkspace.extract).1).2 = none) :
    BackToBack formulasWorkspace formulas Provider.Math.provider (formulaModel 1 "a")
      (formulaModel 2 "b") text text' := by
  have hparse : Document.parse formulas.path formulas.text = .ok formulas := by rfl
  have hset : (Workspace.new .default).setFile formulas.path formulas.text =
      ({ Workspace.new .default with documents := [formulas] }, .ok ()) := by rfl
  have hfile := (Workspace.Reachable.new .default).setFile formulas.path formulas.text
  rw [hset] at hfile
  have hmodels : formulasWorkspace.extract.models =
      [formulaModel 1 "a", formulaModel 2 "b", formulaModel 3 "c"] := by decide +kernel
  exact {
    reachable := hfile.setMappings _ _
    timeout := by simp [formulasWorkspace, Workspace.new, Workspace.withProviders,
      Workspace.setMappings, Settings.default]
    document := by rfl
    inStep := Document.inStep_of_parse hparse
    first := by simp [hmodels]
    second := by simp [hmodels]
    sameFile := by rfl
    apart := .inl (by decide)
    isNodeOf := hnode
    provider := List.mem_of_getElem? (i := 3) (by rfl)
    accepts := by rfl
    firstDone := hfirst
    secondDone := hsecond }

/-- A formula of the same number of lines leaves the other formulas where their mappings are. -/
theorem exists_landing_formulas : ∃ final,
    (editBoth formulasWorkspace (formulaModel 1 "a") (formulaModel 2 "b") ['$', '$', 'A', '$', '$']
      ['$', '$', 'B', '$', '$']).waitIdle.workspace.document? formulas.path = some final ∧
    formulas.HasBoth (formulaModel 1 "a").range (formulaModel 2 "b").range ['$', '$', 'A', '$', '$']
      ['$', '$', 'B', '$', '$'] final.text := by
  have hnode : Provider.IsNodeOf (formulasWorkspace.providers.list.map Provider.name) "math"
      ['$', '$', 'A', '$', '$'] :=
    ⟨.leaf (.math .doubleDollar "A") ⟨0, 0⟩ ⟨0, 5⟩, [], by rfl, by rfl, by simp⟩
  have hpairs : (movedPairing formulas (formulasWorkspace.mappings.get formulas.path)
      Provider.Math.provider (formulaModel 1 "a").node
        ⟨(formulaModel 1 "a").range, ['$', '$', 'A', '$', '$']⟩).pairs =
      [((formulaModel 1 "a").mapping, ⟨1⟩), ((formulaModel 2 "b").mapping, ⟨3⟩),
        ((formulaModel 3 "c").mapping, ⟨5⟩)] := by decide +kernel
  have hback : BackToBack formulasWorkspace formulas Provider.Math.provider (formulaModel 1 "a")
      (formulaModel 2 "b") ['$', '$', 'A', '$', '$'] ['$', '$', 'B', '$', '$'] :=
    backToBack_formulas hnode (by decide +kernel) (by decide +kernel)
  obtain ⟨_, final, _, -, -, -, -, hfinal, -, -, hlanding⟩ := BackToBack.exists_landing hback
  have hstart : tokenize (formulas.around (formulaModel 1 "a").range).1 = [] := by decide +kernel
  rw [hstart, hpairs] at hlanding
  exact ⟨final, hfinal, (hlanding (Token.parted_nil_left _)).1 (.tail _ (.head _))⟩

/-- A formula of one line more moves the others: the second formula is then on the line of the third
mapping, and what is written over is the third formula. -/
theorem not_hasBoth_formulas :
    let text := ['$', '$', 'A', '\n', 'A', '$', '$']
    let text' := ['$', '$', 'B', '$', '$']
    let final := text ++ ['\n', '$', '$', 'b', '$', '$', '\n'] ++ text' ++ ['\n']
    BackToBack formulasWorkspace formulas Provider.Math.provider (formulaModel 1 "a")
      (formulaModel 2 "b") text text' ∧
    Provider.IsNodeOf (formulasWorkspace.providers.list.map Provider.name) "math" text' ∧
    (Correlation.exact (formulasWorkspace.mappings.get formulas.path)
      ((candidateViews formulas Provider.Math.provider).map fun v =>
        ⟨v.id, v.range.start⟩)).mappings = [] ∧
    ((editBoth formulasWorkspace (formulaModel 1 "a") (formulaModel 2 "b") text
      text').waitIdle.workspace.document? formulas.path).map Document.text = some final ∧
    ¬ formulas.HasBoth (formulaModel 1 "a").range (formulaModel 2 "b").range text text' final := by
  intro text text' final
  have hnode : Provider.IsNodeOf (formulasWorkspace.providers.list.map Provider.name) "math" text :=
    ⟨.leaf (.math .doubleDollar "A\nA") ⟨0, 0⟩ ⟨1, 3⟩, [], by rfl, by rfl, by simp⟩
  have hnode' : Provider.IsNodeOf (formulasWorkspace.providers.list.map Provider.name) "math" text' :=
    ⟨.leaf (.math .doubleDollar "B") ⟨0, 0⟩ ⟨0, 5⟩, [], by rfl, by rfl, by simp⟩
  refine ⟨backToBack_formulas hnode (by decide +kernel) (by decide +kernel), hnode',
    by decide +kernel, by decide +kernel, ?_⟩
  have hfirst : formulas.Covers (formulaModel 1 "a").range [] (formulas.text.take 5)
      (formulas.text.drop 5) := ⟨by rfl, by rfl, by rfl⟩
  have hsecond : formulas.Covers (formulaModel 2 "b").range (formulas.text.take 6)
      ((formulas.text.drop 6).take 5) (formulas.text.drop 11) := ⟨by rfl, by rfl, by rfl⟩
  rintro (⟨_, _, between, _, _, h, h', hfinal⟩ | ⟨_, _, between, _, _, h', h, -⟩)
  · obtain ⟨rfl, rfl, -⟩ := h.unique hfirst
    obtain ⟨hbetween, rfl, rfl⟩ := h'.unique hsecond
    obtain rfl : between = ['\n'] := List.append_cancel_left hbetween
    revert hfinal
    decide
  · obtain ⟨rfl, -, -⟩ := h'.unique hsecond
    simpa [formulas] using (h.unique hfirst).1

end Session

end TexAnchor
