import TexAnchor.Proofs.Extracting
import TexAnchor.Workspace.Basic

/-! # Reachable workspaces

`Workspace.Reachable` are the workspaces with the built-in providers that the operations make.  In
all of them no two documents have the same path and every document is reachable
(`Workspace.Reachable.sound`).

After an extraction every model stands for a node that is there (`Workspace.Current`).  Then an edit
of a model keeps all documents in step with their texts, unless the new text cannot be read
(`Workspace.Sound.inStep_applyModelEdit`), and what it changes is the source of the model's node
(`Workspace.Sound.spliced`). -/

namespace TexAnchor

open Extraction
open Text (Coord)

namespace Workspace

/-! ### Looking up documents -/

variable {w w' : Workspace} {d d' : Document} {file : Path}

theorem mem_of_document? (h : w.document? file = some d) :
    d ∈ w.documents ∧ d.path.same file = true := by
  have hsame := List.find?_some (p := fun d : Document => d.path.same file) h
  exact ⟨List.mem_of_find?_eq_some h, hsame⟩

theorem document?_putDocument (w : Workspace) (d : Document) (file : Path) :
    (w.putDocument d).document? file =
      (w.document? file).map fun old => if old.path.same d.path then d else old := by
  rw [document?, putDocument, List.find?_map, document?]
  congr 2
  funext old
  simp only [Function.comp_apply]
  split
  · next hsame =>
    rw [Path.same, Path.same, Path.same_iff.mp hsame]
  · rfl

theorem document?_putDocument_of_ne (hother : file.same d.path = false) :
    (w.putDocument d).document? file = w.document? file := by
  rw [document?_putDocument]
  cases hfound : w.document? file with
  | none => rfl
  | some old =>
    rw [Option.map_some, if_neg]
    intro hsame
    have hfile := Path.same_iff.mp (mem_of_document? hfound).2
    rw [Path.same_iff.mpr (hfile.symm.trans (Path.same_iff.mp hsame))] at hother
    cases hother

theorem document?_congr (w : Workspace) {file' : Path} (h : file.components = file'.components) :
    w.document? file = w.document? file' := by
  simp only [document?, Path.same, h]

theorem document?_extract (w : Workspace) (file : Path) :
    w.extract.document? file = (w.document? file).map Document.freeDetached := by
  simp only [document?, extract, List.find?_map]
  rfl

/-! ### What holds of every reachable workspace -/

/-- The workspaces with the built-in providers that the operations make. -/
inductive Reachable : Workspace → Prop
  | new (settings : Settings) : Reachable (new settings)
  | setFile {w : Workspace} (file : Path) (text : List Char) :
    Reachable w → Reachable (w.setFile file text).1
  | removeFile {w : Workspace} (file : Path) : Reachable w → Reachable (w.removeFile file)
  | applyEdit {w : Workspace} (file : Path) (edit : Edit) :
    Reachable w → Reachable (w.applyEdit file edit).1
  | replaceNode {w : Workspace} (file : Path) (id : NodeId) (text : List Char) :
    Reachable w → Reachable (w.replaceNode file id text).1
  | setMappings {w : Workspace} (file : Path) (batch : List Mapping) :
    Reachable w → Reachable (w.setMappings file batch)
  | load {w : Workspace} (file : Option ByteArray) : Reachable w → Reachable (w.load file).1
  | loadFrom {w : Workspace} (directory : List (Path × ByteArray)) :
    Reachable w → Reachable (w.loadFrom directory).1
  | extract {w : Workspace} : Reachable w → Reachable w.extract

/-- No two documents have the same path, and every document is reachable. -/
structure Tidy (w : Workspace) : Prop where
  distinct : (w.documents.map fun d => d.path.components).Nodup
  reachable : ∀ d ∈ w.documents, d.Reachable

theorem Tidy.eq_of_same (h : w.Tidy) (hd : d ∈ w.documents) (hd' : d' ∈ w.documents)
    (hsame : d.path.same d'.path = true) : d = d' :=
  List.inj_on_of_nodup_map h.distinct hd hd' (Path.same_iff.mp hsame)

theorem Tidy.document?_of_mem (h : w.Tidy) (hd : d ∈ w.documents)
    (hsame : d.path.same file = true) : w.document? file = some d := by
  cases hfound : w.document? file with
  | none =>
    have := List.find?_eq_none.mp hfound d hd
    exact absurd hsame this
  | some e =>
    obtain ⟨he, hsame'⟩ := mem_of_document? hfound
    rw [h.eq_of_same he hd (Path.same_iff.mpr _)]
    exact (Path.same_iff.mp hsame').trans (Path.same_iff.mp hsame).symm

theorem mem_putDocument (hd : d' ∈ (w.putDocument d).documents) : d' = d ∨ d' ∈ w.documents := by
  obtain ⟨old, hold, heq⟩ := List.mem_map.mp hd
  split at heq
  · exact .inl heq.symm
  · exact .inr (heq ▸ hold)

theorem Tidy.putDocument (h : w.Tidy) (hd : d.Reachable) : (w.putDocument d).Tidy where
  distinct := by
    have hpaths : ((w.putDocument d).documents.map fun d => d.path.components) =
        w.documents.map fun d => d.path.components := by
      rw [Workspace.putDocument, List.map_map]
      apply List.map_congr_left
      intro old _
      simp only [Function.comp_apply]
      split
      · next hsame => exact (Path.same_iff.mp hsame).symm
      · rfl
    rw [hpaths]
    exact h.distinct
  reachable e he := by
    rcases mem_putDocument he with rfl | he
    · exact hd
    · exact h.reachable e he

theorem Tidy.extract (h : w.Tidy) : w.extract.Tidy where
  distinct := by
    simp only [Workspace.extract, List.map_map]
    exact h.distinct
  reachable e he := by
    obtain ⟨d, hd, rfl⟩ := List.mem_map.mp he
    exact (h.reachable d hd).freeDetached

theorem Tidy.setFile (h : w.Tidy) (file : Path) (text : List Char) :
    (w.setFile file text).1.Tidy := by
  unfold Workspace.setFile
  split
  · next d hd =>
    split
    · next fresh hfresh =>
      exact h.putDocument ((h.reachable d (mem_of_document? hd).1).setText hfresh)
    · exact h
  · next hnone =>
    split
    · next fresh hfresh =>
      refine ⟨?_, fun e he => ?_⟩
      · rw [List.map_append, List.nodup_append]
        refine ⟨h.distinct, by simp, fun path hpath _ hfile => ?_⟩
        obtain ⟨d, hd, rfl⟩ := List.mem_map.mp hpath
        obtain rfl := List.mem_singleton.mp hfile
        have hother := List.find?_eq_none.mp hnone d hd
        refine fun heq => hother (Path.same_iff.mpr ?_)
        exact heq.trans (congrArg _ (Document.path_of_parse hfresh))
      · rcases List.mem_append.mp he with he | he
        · exact h.reachable e he
        · exact List.mem_singleton.mp he ▸ .parse hfresh
    · exact h

theorem Tidy.removeFile (h : w.Tidy) (file : Path) : (w.removeFile file).Tidy :=
  ⟨(List.filter_sublist.map _).nodup h.distinct,
    fun d hd => h.reachable d (List.mem_filter.mp hd).1⟩

theorem Tidy.applyEdit (h : w.Tidy) (file : Path) (edit : Edit) :
    (w.applyEdit file edit).1.Tidy := by
  unfold Workspace.applyEdit
  split
  · exact h
  · next d hd =>
    split
    · next edited hedited =>
      exact h.putDocument ((h.reachable d (mem_of_document? hd).1).applyEdit hedited)
    · exact h

theorem Tidy.replaceNode (h : w.Tidy) (file : Path) (id : NodeId) (text : List Char) :
    (w.replaceNode file id text).1.Tidy := by
  unfold Workspace.replaceNode
  split
  · exact h
  · next d hd => exact h.putDocument ((h.reachable d (mem_of_document? hd).1).replaceNode id text)

theorem exists_mappings_load (w : Workspace) (batch : Option ByteArray) :
    ∃ mappings, (w.load batch).1 = { w with mappings := mappings } := by
  unfold load
  split
  · exact ⟨_, rfl⟩
  · exact ⟨w.mappings, rfl⟩

theorem exists_mappings_loadFrom (w : Workspace) (directory : List (Path × ByteArray)) :
    ∃ mappings, (w.loadFrom directory).1 = { w with mappings := mappings } := by
  unfold loadFrom
  split
  · exact w.exists_mappings_load _
  · exact ⟨w.mappings, rfl⟩

/-- No two documents have the same path, every document is reachable, and the providers are
built-in. -/
structure Sound (w : Workspace) : Prop where
  distinct : (w.documents.map fun d => d.path.components).Nodup
  reachable : ∀ d ∈ w.documents, d.Reachable
  builtin : w.providers.list.Sublist Provider.builtin

theorem Sound.tidy (h : w.Sound) : w.Tidy := ⟨h.distinct, h.reachable⟩

theorem Tidy.sound (h : w.Tidy) (hbuiltin : w.providers.list.Sublist Provider.builtin) : w.Sound :=
  ⟨h.distinct, h.reachable, hbuiltin⟩

theorem Sound.document?_of_mem (h : w.Sound) (hd : d ∈ w.documents)
    (hsame : d.path.same file = true) : w.document? file = some d :=
  h.tidy.document?_of_mem hd hsame

theorem Sound.provider_eq (h : w.Sound) {p q : Provider} {mapping : Mapping}
    (hq : q ∈ w.providers.list) (hp : p ∈ w.providers.list)
    (haccepts : q.acceptsMapping mapping = true) (haccepts' : p.acceptsMapping mapping = true) :
    q = p := by
  rw [Provider.acceptsMapping_eq (h.builtin.subset hq), beq_iff_eq] at haccepts
  rw [Provider.acceptsMapping_eq (h.builtin.subset hp), beq_iff_eq] at haccepts'
  exact Provider.eq_of_name_eq (h.builtin.subset hq) (h.builtin.subset hp)
    (haccepts.symm.trans haccepts')

theorem Sound.extract (h : w.Sound) : w.extract.Sound :=
  h.tidy.extract.sound h.builtin

theorem providers_setFile (w : Workspace) (file : Path) (text : List Char) :
    (w.setFile file text).1.providers = w.providers := by
  unfold setFile
  split <;> split <;> rfl

theorem providers_applyEdit (w : Workspace) (file : Path) (edit : Edit) :
    (w.applyEdit file edit).1.providers = w.providers := by
  unfold applyEdit
  split
  · rfl
  · split <;> rfl

theorem Sound.setFile (h : w.Sound) (file : Path) (text : List Char) :
    (w.setFile file text).1.Sound :=
  (h.tidy.setFile file text).sound (w.providers_setFile file text ▸ h.builtin)

theorem Sound.replaceNode (h : w.Sound) (file : Path) (id : NodeId) (text : List Char) :
    (w.replaceNode file id text).1.Sound := by
  refine (h.tidy.replaceNode file id text).sound ?_
  unfold Workspace.replaceNode
  split <;> exact h.builtin

theorem Reachable.sound (h : w.Reachable) : w.Sound := by
  induction h with
  | new settings =>
    exact ⟨by simp [Workspace.new, withProviders], by simp [Workspace.new, withProviders],
      List.filter_sublist⟩
  | setFile file text _ ih => exact ih.setFile file text
  | removeFile file _ ih => exact (ih.tidy.removeFile file).sound ih.builtin
  | @applyEdit w file edit _ ih =>
    exact (ih.tidy.applyEdit file edit).sound (w.providers_applyEdit file edit ▸ ih.builtin)
  | replaceNode file id text _ ih => exact ih.replaceNode file id text
  | setMappings file batch _ ih => exact ⟨ih.distinct, ih.reachable, ih.builtin⟩
  | @load w batch _ ih =>
    obtain ⟨mappings, heq⟩ := w.exists_mappings_load batch
    exact heq ▸ ⟨ih.distinct, ih.reachable, ih.builtin⟩
  | @loadFrom w directory _ ih =>
    obtain ⟨mappings, heq⟩ := w.exists_mappings_loadFrom directory
    exact heq ▸ ⟨ih.distinct, ih.reachable, ih.builtin⟩
  | extract _ ih => exact ih.extract

theorem Reachable.applyModelEdit (h : w.Reachable) (uid : Uid) (text : List Char) :
    (w.applyModelEdit uid text).1.Reachable := by
  unfold Workspace.applyModelEdit
  split
  · exact h
  · exact h.replaceNode _ _ _

/-! ### Models -/

/-- Every model stands for a node of a document's tree that has marks of its own. -/
def Current (w : Workspace) : Prop :=
  ∀ m ∈ w.models, ∃ d ∈ w.documents, m.sourceFile = d.path ∧
    m.node ∈ d.arena.descendants Arena.root ∧ ∃ node, d.arena.get? m.node = some node ∧
      m.range = node.range ∧ Grammar.isMarked node.kind.tag = true

theorem map_toModel_issue (before : List IssuedModel) (serial : Nat) (models : List Model) :
    (issue before serial models).1.map IssuedModel.toModel = models := by
  induction models generalizing serial with
  | nil => rfl
  | cons m models ih =>
    rw [issue]
    split
    · simp [ih]
    · simp [ih]

theorem map_toModel_extract (w : Workspace) :
    w.extract.models.map IssuedModel.toModel = w.extract.documents.flatMap fun d =>
      (extractFrom d (w.mappings.get d.path) w.providers).models := by
  rw [← models_extractAll]
  exact map_toModel_issue _ _ _

/-- After an extraction the models are current. -/
theorem Sound.current_extract (h : w.Sound) : w.extract.Current := by
  intro m hm
  have hmem := List.mem_map_of_mem (f := IssuedModel.toModel) hm
  rw [map_toModel_extract] at hmem
  obtain ⟨d, hd, hm⟩ := List.mem_flatMap.mp hmem
  obtain ⟨hfile, hmem, hnode⟩ := exists_view_of_mem_models h.builtin hm
  exact ⟨d, hd, hfile, hmem, hnode⟩

variable {uid : Uid} {text : List Char} {m : IssuedModel} {outcome : Replacement}

/-- What a model of an extraction was built from. -/
theorem Sound.exists_view_of_mem_extract (h : w.Sound) (hm : m ∈ w.extract.models)
    (hd : w.extract.document? m.sourceFile = some d) :
    ∃ p ∈ w.providers.list, ∃ v ∈ candidateViews d p,
      (m.mapping, v.id) ∈ (pairing d (w.mappings.get d.path) p).pairs ∧ m.sourceFile = d.path ∧
        m.node = v.id ∧ m.range = v.range := by
  have hmem := List.mem_map_of_mem (f := IssuedModel.toModel) hm
  rw [map_toModel_extract] at hmem
  obtain ⟨e, he, hm⟩ := List.mem_flatMap.mp hmem
  obtain ⟨p, hp, v, hv, hpair, -, hfile, hnode, hrange⟩ := (mem_models_extractFrom h.builtin).mp hm
  have hfound := h.extract.document?_of_mem he (Path.same_iff.mpr (congrArg Path.components hfile.symm))
  obtain rfl : e = d := Option.some.inj (hfound.symm.trans hd)
  exact ⟨p, hp, v, hv, hpair, hfile, hnode, hrange⟩

/-- An edit of a model is a replacement in the document that the model is from. -/
theorem Sound.applyModelEdit_eq (h : w.Sound) (hcurrent : w.Current) (hm : w.model? uid = some m)
    (text : List Char) :
    ∃ d node, w.document? m.sourceFile = some d ∧ m.sourceFile = d.path ∧
      m.node ∈ d.arena.descendants Arena.root ∧ d.arena.get? m.node = some node ∧
      m.range = node.range ∧ Grammar.isMarked node.kind.tag = true ∧
      w.applyModelEdit uid text = (w.putDocument (d.replaceNode m.node text).1,
        (d.replaceNode m.node text).2.mapError .edit) := by
  obtain ⟨d, hd, hfile, hmem, node, hnode, hrange, hmarked⟩ :=
    hcurrent m (List.mem_of_find?_eq_some hm)
  have hfound : w.document? m.sourceFile = some d :=
    h.document?_of_mem hd (Path.same_iff.mpr (congrArg Path.components hfile.symm))
  refine ⟨d, node, hfound, hfile, hmem, hnode, hrange, hmarked, ?_⟩
  rw [applyModelEdit, hm]
  show w.replaceNode m.sourceFile m.node text = _
  rw [Workspace.replaceNode, hfound]

/-- Every document is in step with its text. -/
def InStep (w : Workspace) : Prop :=
  ∀ d ∈ w.documents, d.InStep

theorem Sound.inStep_extract (h : w.Sound) (hstep : w.InStep) : w.extract.InStep := by
  intro e he
  obtain ⟨d, hd, rfl⟩ := List.mem_map.mp he
  obtain ⟨p, hp⟩ := (h.reachable d hd).exists_carries
  exact Document.inStep_freeDetached hp (hstep d hd)

theorem Sound.inStep_applyModelEdit (h : w.Sound) (hcurrent : w.Current) (hstep : w.InStep)
    (hread : ∀ error, (w.applyModelEdit uid text).2 ≠ .error (.edit (.parse error))) :
    (w.applyModelEdit uid text).1.InStep := by
  cases hm : w.model? uid with
  | none =>
    rw [applyModelEdit, hm]
    exact hstep
  | some m =>
    obtain ⟨d, node, hfound, -, -, hnode, -, hmarked, heq⟩ := h.applyModelEdit_eq hcurrent hm text
    obtain ⟨hd, -⟩ := mem_of_document? hfound
    obtain ⟨p, hp⟩ := (h.reachable d hd).exists_carries
    rw [heq] at hread ⊢
    intro e he
    rcases mem_putDocument he with rfl | he
    · refine Document.inStep_replaceNode hp (hstep d hd) (fun node' hnode' => ?_) fun error hfailed =>
        hread error ?_
      · obtain rfl := Option.some.inj (hnode.symm.trans hnode')
        exact hmarked
      · rw [hfailed]
        rfl
    · exact hstep e he

theorem eq_ok_of_mapError {α ε δ : Type} {f : ε → δ} {result : Except ε α} {value : α}
    (h : result.mapError f = .ok value) : result = .ok value := by
  cases result with
  | ok other => exact congrArg _ (Except.ok.inj h)
  | error error => cases h

/-- What an edit of a model that succeeds has done. -/
theorem Sound.exists_of_applyModelEdit_eq_ok (h : w.Sound) (hcurrent : w.Current)
    (hdone : (w.applyModelEdit uid text).2 = .ok outcome) :
    ∃ m d node, w.model? uid = some m ∧ w.document? m.sourceFile = some d ∧ m.sourceFile = d.path ∧
      m.node ∈ d.arena.descendants Arena.root ∧ d.arena.get? m.node = some node ∧
      m.range = node.range ∧ Grammar.isMarked node.kind.tag = true ∧
      (d.replaceNode m.node text).2 = .ok outcome ∧
      (w.applyModelEdit uid text).1 = w.putDocument (d.replaceNode m.node text).1 ∧
      (w.applyModelEdit uid text).1.document? m.sourceFile =
        some (d.replaceNode m.node text).1 := by
  cases hm : w.model? uid with
  | none =>
    rw [applyModelEdit, hm] at hdone
    cases hdone
  | some m =>
    obtain ⟨d, node, hfound, hfile, hmem, hnode, hrange, hmarked, heq⟩ :=
      h.applyModelEdit_eq hcurrent hm text
    refine ⟨m, d, node, rfl, hfound, hfile, hmem, hnode, hrange, hmarked,
      eq_ok_of_mapError (heq ▸ hdone), by rw [heq], ?_⟩
    rw [heq, document?_putDocument, hfound, Option.map_some, Document.path_replaceNode,
      if_pos (Path.same_iff.mpr rfl)]

end Workspace

end TexAnchor
