import TexAnchor.Proofs.BackToBack
import TexAnchor.Proofs.Effects
import TexAnchor.Proofs.Sequential

/-! # Handles between extractions

A model knows its node by a number, and between two extractions the number may come to stand for
another node.

As long as the model's file is not read anew it does not: an edit of the model then goes to the node
that the model was extracted from, or it fails and changes nothing.  Once the file has been read anew
the number stands for the node that got it then, and the edit goes there, wherever that is
(`Workspace.Attained.applyModelEdit_aims`); it can be another node than the model's
(`Workspace.not_aims_reread`). -/

namespace TexAnchor

/-- The node is of the same sort as the other one and stands in the same place. -/
structure Referent.Matches (r other : Referent) : Prop where
  tag_eq : r.kind.tag = other.kind.tag
  span_eq : r.range.span = other.range.span

namespace Workspace

variable {w w' : Workspace} {d d' : Document} {file : Path} {id : NodeId} {text : List Char}
  {op : Operation} {ops later : List Operation}

/-- Between the workspaces the source of an attached node has been exchanged for `text`, or the whole
text if it is the root, and no other document has changed. -/
def Rewrites (w w' : Workspace) (file : Path) (id : NodeId) (text : List Char) : Prop :=
  ∃ d node d', w.document? file = some d ∧ d.arena.isAttached id = true ∧
    d.arena.get? id = some node ∧ w'.document? file = some d' ∧
    d'.text = (if id = Arena.root then text else Edit.applyTo ⟨node.range, text⟩ d.text) ∧
    ∀ other, other.same file = false → w'.document? other = w.document? other

theorem LeftUnread.rewrites (h : w.LeftUnread w' file id text) (hroot : id ≠ Arena.root) :
    w.Rewrites w' file id text := by
  obtain ⟨d, node, alone, edited, d', hd, hattached, hnode, halone, hedited, hd', -, htext, -⟩ :=
    h.edited
  obtain ⟨_, edited', hd'', hedit, rfl, hpath⟩ := applyEdit_eq_ok halone
  obtain rfl := Option.some.inj (hd.symm.trans hd'')
  rw [document?_putDocument_same hd hpath] at hedited
  obtain rfl := Option.some.inj hedited
  refine ⟨d, node, d', hd, hattached, hnode, hd', ?_, h.others⟩
  rw [htext, Document.applyEdit_eq_ok hedit, if_neg hroot]

theorem replaceNode_eq_ok {outcome : Replacement}
    (h : w.replaceNode file id text = (w', .ok outcome)) : ∃ d, w.document? file = some d ∧
      (d.replaceNode id text).2 = .ok outcome ∧ w' = w.putDocument (d.replaceNode id text).1 := by
  unfold Workspace.replaceNode at h
  cases hd : w.document? file with
  | none =>
    rw [hd] at h
    cases h
  | some d =>
    rw [hd] at h
    exact ⟨d, rfl, eq_ok_of_mapError (congrArg Prod.snd h), (congrArg Prod.fst h).symm⟩

/-- A replacement that succeeds rewrites the node that it was asked to, and so does one that fails and
leaves a change. -/
theorem Tidy.rewrites (h : w.Tidy) {result : Except WorkspaceError Replacement}
    (hreplace : w.replaceNode file id text = (w', result))
    (hwritten : (∃ outcome, result = .ok outcome) ∨ w' ≠ w) : w.Rewrites w' file id text := by
  cases result with
  | error error =>
    rcases h.replaceNode_eq_error hreplace with ⟨heq, -⟩ | ⟨hleft, hroot, -⟩
    · simp [heq] at hwritten
    · exact hleft.rewrites hroot
  | ok outcome =>
    obtain ⟨d, hd, hdone, rfl⟩ := replaceNode_eq_ok hreplace
    obtain ⟨node, hattached, hnode, htext⟩ :=
      (h.reachable d (mem_of_document? hd).1).text_of_replaceNode hdone
    have hpath := d.path_replaceNode id text
    refine ⟨d, node, _, hd, hattached, hnode, document?_putDocument_same hd hpath, htext, ?_⟩
    intro other hother
    rw [document?_put hd hpath, if_neg]
    intro hsame
    rw [Path.same_iff.mpr (Path.same_iff.mp hsame).symm] at hother
    cases hother

/-- What the number of a node of a file stands for. -/
def referent? (w : Workspace) (file : Path) (id : NodeId) : Option Referent :=
  (w.document? file).bind fun d => d.arena.referent? id

theorem referent?_eq_some (hd : w.document? file = some d) (id : NodeId) :
    w.referent? file id = d.arena.referent? id := by
  rw [referent?, hd, Option.bind_some]

/-- After some operations since an extraction the number of a model's node stands for a node of the
same sort as then, at the range to which the edits have moved the model's; the content of the file has
not been exchanged. -/
structure Aims (w : Workspace) (ops : List Operation) (m : IssuedModel) : Prop where
  followed : .reset ∉ w.effects m.sourceFile ops
  exists_referent : ∃ old now, w.referent? m.sourceFile m.node = some old ∧ old.range = m.range ∧
    (w.after ops).referent? m.sourceFile m.node = some now ∧
    now.Matches ⟨old.kind, follow (w.effects m.sourceFile ops) m.range⟩

theorem Tidy.exists_referent (h : w.Tidy) {m : IssuedModel} (hm : m ∈ w.extract.models) :
    ∃ old, w.extract.referent? m.sourceFile m.node = some old ∧ old.range = m.range := by
  obtain ⟨d, node, hd, -, hnode, hrange⟩ := h.fresh_extract.exists_node h.extract hm
  refine ⟨⟨node.kind, node.range⟩, ?_, hrange.symm⟩
  rw [referent?_eq_some hd, Arena.referent?, hnode]
  rfl

/-- While a file is not read anew the numbers of its nodes stand for what they stood for. -/
theorem Tidy.referent?_after (h : w.Tidy) (hops : .extract ∉ ops) (hkeeps : w.Keeps file ops)
    {r : Referent} (hr : w.referent? file id = some r) :
    (w.after ops).referent? file id = some ⟨r.kind, follow (w.effects file ops) r.range⟩ := by
  obtain ⟨d, hd, hr⟩ := Option.bind_eq_some_iff.mp hr
  obtain ⟨d', hd', hdescends⟩ := (h.exists_descends hops hkeeps).2 d hd
  rw [referent?_eq_some hd']
  exact hdescends.moves id r hr

/-- Where an operation has read a file anew, the numbers of its nodes are those that the text gave them
then. -/
theorem Tidy.exists_read (h : w.Tidy) (hop : op ≠ .extract)
    (hanew : (op.effect w file).readsAnew = true) (hlater : .extract ∉ later)
    (hkeeps : (w.perform op).1.Keeps file later)
    (hd : ((w.perform op).1.after later).document? file = some d) :
    ∃ read, (w.perform op).1.document? file = some read ∧
      ∀ id, (w.perform op).1.referent? file id = readReferent? read.text id := by
  have htakes := h.takes_perform hop file
  rw [Effect.Takes, if_pos hanew] at htakes
  cases hread : (w.perform op).1.document? file with
  | none =>
    have hnone := ((h.perform op).exists_descends hlater hkeeps).1 hread
    cases hnone.symm.trans hd
  | some read =>
    refine ⟨read, rfl, fun id => ?_⟩
    rw [referent?_eq_some hread]
    exact Document.referent?_of_parse (htakes read hread) id

/-- Between extractions an edit of a model rewrites the node of the tree that has the number of the
model's node, or it fails and changes nothing.

As long as the file has not been read anew this is the node that the model was extracted from, followed
through all edits since then.  Otherwise, if the number was given to a node when the file was read last,
it is that node, followed through the edits since then, and the edit goes where it should exactly if
that node has the sort and the place of the model's; no node does if the content was exchanged. -/
theorem Attained.applyModelEdit_aims {uid : Uid} {m : IssuedModel}
    {result : Except WorkspaceError Replacement} (hw : w.Attained)
    (hm : w.extract.model? uid = some m) (hops : .extract ∉ ops)
    (hedit : (w.extract.after ops).applyModelEdit uid text = (w', result))
    (hwritten : (∃ outcome, result = .ok outcome) ∨ w' ≠ w.extract.after ops) :
    (w.extract.after ops).Rewrites w' m.sourceFile m.node text ∧
    (w.extract.Keeps m.sourceFile ops → w.extract.Aims ops m) ∧
    ∀ before op later, ops = before ++ op :: later →
      (op.effect (w.extract.after before) m.sourceFile).readsAnew = true →
      (w.extract.after (before ++ [op])).Keeps m.sourceFile later →
      ∃ read, (w.extract.after (before ++ [op])).document? m.sourceFile = some read ∧
        ∀ r, readReferent? read.text m.node = some r →
          (w.extract.Aims ops m ↔ .reset ∉ w.extract.effects m.sourceFile ops ∧
            ∃ old, w.extract.referent? m.sourceFile m.node = some old ∧
              Referent.Matches
                ⟨r.kind, follow ((w.extract.after (before ++ [op])).effects m.sourceFile later) r.range⟩
                ⟨old.kind, follow (w.extract.effects m.sourceFile ops) m.range⟩) := by
  have htidy := hw.tidy.extract
  have hmodel : (w.extract.after ops).model? uid = some m := by
    rw [model?, models_after _ hops]
    exact hm
  rw [applyModelEdit, hmodel] at hedit
  have hrewrites := (htidy.after ops).rewrites hedit hwritten
  obtain ⟨old, hold, hrange⟩ := hw.tidy.exists_referent (List.mem_of_find?_eq_some hm)
  refine ⟨hrewrites, fun hkeeps => ⟨fun hreset => ?_, old, _, hold, hrange,
    htidy.referent?_after hops hkeeps hold, rfl, by rw [hrange]⟩, ?_⟩
  · cases hkeeps _ hreset
  rintro before op later rfl hanew hkeeps
  obtain ⟨d', _, _, hd', -⟩ := hrewrites
  have hafter : w.extract.after (before ++ [op]) = ((w.extract.after before).perform op).1 := by
    rw [after_append]
    rfl
  have hlater : Operation.extract ∉ op :: later := fun hmem => hops (List.mem_append_right _ hmem)
  rw [hafter] at hkeeps ⊢
  rw [after_append] at hd'
  obtain ⟨read, hread, hreferent⟩ := (htidy.after before).exists_read
    (List.ne_of_not_mem_cons hlater).symm hanew (List.not_mem_of_not_mem_cons hlater) hkeeps hd'
  refine ⟨read, hread, fun r hr => ?_⟩
  have hnow := ((htidy.after before).perform op).referent?_after
    (List.not_mem_of_not_mem_cons hlater) hkeeps ((hreferent m.node).trans hr)
  have hwhole : w.extract.after (before ++ op :: later) =
      ((w.extract.after before).perform op).1.after later := after_append _ _ _
  constructor
  · rintro ⟨hfollowed, old', now, hold', -, hnow', hmatches⟩
    rw [hwhole] at hnow'
    obtain rfl := Option.some.inj (hnow.symm.trans hnow')
    exact ⟨hfollowed, old', hold', hmatches⟩
  · rintro ⟨hfollowed, old', hold', hmatches⟩
    obtain rfl := Option.some.inj (hold.symm.trans hold')
    exact ⟨hfollowed, old, _, hold, hrange, hwhole ▸ hnow, hmatches⟩

open Session (formulas formulasWorkspace formulaModel)

theorem attained_formulas : formulasWorkspace.Attained := by
  have hset : (Workspace.new .default).setFile formulas.path formulas.text =
      ({ Workspace.new .default with documents := [formulas] }, .ok ()) := by rfl
  have hfile := (attained_new .default).setFile formulas.path formulas.text
  rw [hset] at hfile
  exact hfile.perform (.setMappings formulas.path _)

/-- A line is put in before the formulas and the first formula is exchanged; the second formula is still
the one behind its model. -/
theorem applyModelEdit_aims_formulas :
    let ops := [.applyEdit formulas.path (.insert (.ofCoord .zero) ['x', '\n']),
      .applyModelEdit ⟨1⟩ ['$', '$', 'A', '$', '$']]
    let w := formulasWorkspace.extract.after ops
    ∃ w', w.applyModelEdit ⟨2⟩ ['$', '$', 'B', '$', '$'] = (w', .ok (.incremental ⟨8⟩)) ∧
      w.Rewrites w' formulas.path ⟨3⟩ ['$', '$', 'B', '$', '$'] ∧
      formulasWorkspace.extract.Aims ops (formulaModel 2 "b") := by
  intro ops w
  have hmodel : formulasWorkspace.extract.model? ⟨2⟩ = some (formulaModel 2 "b") := by decide +kernel
  have hedit : w.applyModelEdit ⟨2⟩ ['$', '$', 'B', '$', '$'] = (_, .ok (.incremental ⟨8⟩)) :=
    Prod.ext rfl (by decide +kernel)
  have hkeeps : formulasWorkspace.extract.Keeps formulas.path ops := by
    unfold Keeps
    decide +kernel
  have hall := attained_formulas.applyModelEdit_aims hmodel (by simp [ops]) hedit (.inl ⟨_, rfl⟩)
  exact ⟨_, hedit, hall.1, hall.2.1 hkeeps⟩

/-- Two formulas are put in the place of the first one, and the file is read anew: then the number of
the second formula is that of the second new one, and an edit of the second formula's model writes over
that. -/
theorem not_aims_reread :
    let ops := [.replaceNode formulas.path ⟨1⟩
      ['$', '$', 'A', '$', '$', '\n', '$', '$', 'd', '$', '$']]
    let w := formulasWorkspace.extract.after ops
    ∃ w', formulasWorkspace.Attained ∧
      formulasWorkspace.extract.model? ⟨2⟩ = some (formulaModel 2 "b") ∧ .extract ∉ ops ∧
      w.applyModelEdit ⟨2⟩ ['$', '$', 'B', '$', '$'] = (w', .ok (.incremental ⟨9⟩)) ∧
      w.Rewrites w' formulas.path ⟨3⟩ ['$', '$', 'B', '$', '$'] ∧
      ¬ formulasWorkspace.extract.Aims ops (formulaModel 2 "b") := by
  intro ops w
  have hmodel : formulasWorkspace.extract.model? ⟨2⟩ = some (formulaModel 2 "b") := by decide +kernel
  have hedit : w.applyModelEdit ⟨2⟩ ['$', '$', 'B', '$', '$'] = (_, .ok (.incremental ⟨9⟩)) :=
    Prod.ext rfl (by decide +kernel)
  have hreplace : w.replaceNode formulas.path ⟨3⟩ ['$', '$', 'B', '$', '$'] =
      (_, .ok (.incremental ⟨9⟩)) := Prod.ext rfl (by decide +kernel)
  have hreferent : w.referent? formulas.path ⟨3⟩ =
      some ⟨.math .doubleDollar "d", ⟨.ofCoord ⟨1, 0⟩, .ofCoord ⟨1, 5⟩⟩⟩ := by decide +kernel
  have hfollow : (follow (formulasWorkspace.extract.effects formulas.path ops)
      (formulaModel 2 "b").range).span = ⟨⟨2, 0⟩, ⟨2, 5⟩⟩ := by decide +kernel
  refine ⟨_, attained_formulas, hmodel, by simp [ops], hedit,
    (attained_formulas.tidy.extract.after ops).rewrites hreplace (.inl ⟨_, rfl⟩), ?_⟩
  rintro ⟨-, old, now, -, -, hnow, -, hspan⟩
  obtain rfl := Option.some.inj (hreferent.symm.trans hnow)
  exact absurd (hspan.trans hfollow) (by decide)

end Workspace

end TexAnchor
