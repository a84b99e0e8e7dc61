import TexAnchor.Proofs.Identity

/-! # Files do not interfere

`Workspace.holding` is what a workspace has of one file: its document, its mappings, its models with
their handles, and its entries in the report.  Operations on another file and an extraction after them
leave all of it as an extraction has made it (`Workspace.Attained.holding_extract`).

Between extractions an operation on a file touches nothing that belongs to another one
(`Workspace.Agrees`).  An extraction joins what it does to each file (`Workspace.extractionOf`), and
there the models that were made before have their handles again (`Workspace.filter_issue`). -/

namespace TexAnchor

open Extraction

/-! ### Mappings of other files -/

namespace Registry

variable {file other : Path}

theorem get_congr (r : Registry) (h : file.components = other.components) :
    r.get file = r.get other := by
  simp only [get, lookup, Path.same, h]

theorem lookup_store (hne : file.same other = false) (batch : List Mapping)
    (files : List (Path × List Mapping)) :
    lookup other (store file batch files) = lookup other files := by
  induction files with
  | nil => simp [store, lookup, hne]
  | cons first files ih =>
    rw [store]
    split
    · next hsame =>
      have hfirst : first.1.same other = false := by
        rw [Path.same, Path.same_iff.mp hsame]
        exact hne
      simp [lookup, hfirst]
    · unfold lookup at ih ⊢
      rw [List.find?_cons, List.find?_cons]
      cases first.1.same other with
      | true => rfl
      | false => exact ih

theorem get_setFile (r : Registry) (hne : file.same other = false) (batch : List Mapping) :
    (r.setFile file batch).get other = r.get other := by
  rw [setFile, get, lookup_store hne]
  rfl

theorem get_remove (r : Registry) (hne : file.same other = false) :
    (r.remove file).get other = r.get other := by
  have hfound : (r.remove file).files.find? (fun entry => entry.1.same other) =
      r.files.find? fun entry => entry.1.same other := by
    rw [remove, List.find?_filter]
    congr 1
    funext entry
    cases hentry : entry.1.same other with
    | false => simp
    | true =>
      have hkept : entry.1.same file = false := by
        rw [Path.same, beq_eq_false_iff_ne, Path.same_iff.mp hentry]
        rw [Path.same, beq_eq_false_iff_ne] at hne
        exact hne.symm
      simp [hkept]
  rw [get, get, lookup, lookup, hfound]

end Registry

/-! ### Operations on one file -/

/-- The operation works on one file only. -/
def Operation.isOn (op : Operation) (w : Workspace) (file : Path) : Bool :=
  match op with
  | .setFile target _ => target.same file
  | .removeFile target => target.same file
  | .applyEdit target _ => target.same file
  | .replaceNode target _ _ => target.same file
  | .setMappings target _ => target.same file
  | .applyModelEdit uid _ => (w.model? uid).all fun m => m.sourceFile.same file
  | _ => false

namespace Workspace

/-- What a workspace has of one file. -/
structure Holding where
  document? : Option Document
  mappings : List Mapping
  models : List IssuedModel
  shortfalls : List Shortfall
  failures : List ModelFailure

/-- What the workspace has of a file, in its order. -/
def holding (w : Workspace) (file : Path) : Holding where
  document? := w.document? file
  mappings := w.mappings.get file
  models := w.models.filter fun m => m.sourceFile.same file
  shortfalls := w.report.shortfalls.filter fun s => s.sourceFile.same file
  failures := w.report.failures.filter fun f => f.sourceFile.same file

/-- The workspaces have the same of a file, and the same models and providers. -/
structure Agrees (w w' : Workspace) (file : Path) : Prop where
  document?_eq : w'.document? file = w.document? file
  mappings_eq : w'.mappings.get file = w.mappings.get file
  providers_eq : w'.providers = w.providers
  models_eq : w'.models = w.models

variable {w w' w'' : Workspace} {file other target : Path} {op : Operation} {ops : List Operation}

theorem Agrees.refl (w : Workspace) (file : Path) : w.Agrees w file := ⟨rfl, rfl, rfl, rfl⟩

theorem Agrees.trans (h : w.Agrees w' file) (h' : w'.Agrees w'' file) : w.Agrees w'' file where
  document?_eq := h'.document?_eq.trans h.document?_eq
  mappings_eq := h'.mappings_eq.trans h.mappings_eq
  providers_eq := h'.providers_eq.trans h.providers_eq
  models_eq := h'.models_eq.trans h.models_eq

theorem same_eq_false (htarget : target.same file = true) (hne : file.same other = false) :
    target.same other = false := by
  rw [Path.same, Path.same_iff.mp htarget]
  exact hne

theorem agrees_putDocument {d d' : Document} (hd : w.document? target = some d)
    (hpath : d'.path = d.path) (hne : target.same other = false) :
    w.Agrees (w.putDocument d') other := by
  refine ⟨?_, rfl, rfl, rfl⟩
  rw [document?_put hd hpath, hne]
  rfl

theorem agrees_replaceNode (hne : target.same other = false) (id : NodeId) (text : List Char) :
    w.Agrees (w.replaceNode target id text).1 other := by
  unfold replaceNode
  split
  · exact .refl w other
  · next d hd => exact agrees_putDocument hd (d.path_replaceNode id text) hne

theorem agrees_setFile (w : Workspace) (hne : target.same other = false) (text : List Char) :
    w.Agrees (w.setFile target text).1 other := by
  rcases hset : w.setFile target text with ⟨w', error | _⟩
  · obtain rfl := setFile_eq_error hset
    exact .refl _ other
  · obtain ⟨fresh, -, hfound⟩ := exists_fresh_setFile hset
    have hproviders := w.providers_setFile target text
    rw [hset] at hproviders
    refine ⟨?_, ?_, hproviders, ?_⟩
    · rw [hfound, hne]
      rfl
    all_goals
      unfold setFile at hset
      split at hset <;> split at hset <;> cases hset <;> rfl

theorem agrees_applyEdit (w : Workspace) (hne : target.same other = false) (e : Edit) :
    w.Agrees (w.applyEdit target e).1 other := by
  rcases hedit : w.applyEdit target e with ⟨w', error | _⟩
  · obtain rfl := applyEdit_eq_error hedit
    exact .refl _ other
  · obtain ⟨d, edited, hd, -, rfl, hpath⟩ := applyEdit_eq_ok hedit
    exact agrees_putDocument hd hpath hne

/-- An operation on a file changes nothing of another one. -/
theorem agrees_perform (hop : op.isOn w file = true) (hne : file.same other = false) :
    w.Agrees (w.perform op).1 other := by
  cases op with
  | setFile target text =>
    rw [perform, fst_reported]
    exact w.agrees_setFile (same_eq_false hop hne) text
  | removeFile target =>
    have htarget := same_eq_false hop hne
    refine ⟨?_, w.mappings.get_remove htarget, rfl, rfl⟩
    rw [perform, document?_removeFile, htarget]
    rfl
  | applyEdit target e =>
    rw [perform, fst_reported]
    exact w.agrees_applyEdit (same_eq_false hop hne) e
  | replaceNode target id text =>
    rw [perform, fst_reported]
    exact agrees_replaceNode (same_eq_false hop hne) id text
  | setMappings target batch =>
    exact ⟨rfl, w.mappings.get_setFile (same_eq_false hop hne) batch, rfl, rfl⟩
  | applyModelEdit uid text =>
    rw [perform, fst_reported, applyModelEdit]
    split
    · exact .refl w other
    · next m hm =>
      rw [Operation.isOn, hm, Option.all_some] at hop
      exact agrees_replaceNode (same_eq_false hop hne) m.node text
  | register p => cases hop
  | load batch => cases hop
  | loadFrom directory => cases hop
  | extract => cases hop

theorem isOn_congr (op : Operation) (file : Path) (h : w'.models = w.models) :
    op.isOn w' file = op.isOn w file := by
  cases op with
  | applyModelEdit uid text => simp only [Operation.isOn, model?, h]
  | _ => rfl

/-- While a file is worked on nothing of another one changes. -/
theorem agrees_after (hops : ∀ op ∈ ops, op.isOn w file = true) (hne : file.same other = false) :
    w.Agrees (w.after ops) other := by
  induction ops generalizing w with
  | nil => exact .refl w other
  | cons op ops ih =>
    obtain ⟨hop, hops⟩ := List.forall_mem_cons.mp hops
    have hfirst := agrees_perform hop hne
    refine hfirst.trans (ih fun later hlater => ?_)
    rw [isOn_congr later file hfirst.models_eq]
    exact hops later hlater

/-! ### Extractions file by file -/

/-- What an extraction makes of one file. -/
def extractionOf (w : Workspace) (file : Path) : Extraction :=
  ((w.document? file).map fun d => extractFrom d (w.mappings.get file) w.providers).getD .empty

theorem filter_flatMap_documents {α : Type} {documents : List Document} {f : Document → List α}
    {fileOf : α → Path} (hdistinct : (documents.map fun d => d.path.components).Nodup)
    (hf : ∀ d ∈ documents, ∀ x ∈ f d, fileOf x = d.path) (file : Path) :
    ((documents.flatMap f).filter fun x => (fileOf x).same file) =
      ((documents.find? fun d => d.path.same file).map f).getD [] := by
  induction documents with
  | nil => rfl
  | cons d documents ih =>
    rw [List.map_cons, List.nodup_cons] at hdistinct
    have hrest := ih hdistinct.2 fun e he => hf e (List.mem_cons_of_mem _ he)
    have hfirst : ∀ x ∈ f d, (fileOf x).same file = d.path.same file := by
      intro x hx
      rw [hf d (by simp) x hx]
    rw [List.flatMap_cons, List.filter_append, hrest, List.find?_cons]
    cases hsame : d.path.same file with
    | true =>
      have hnone : documents.find? (fun e => e.path.same file) = none := by
        refine List.find?_eq_none.mpr fun e he hsame' => hdistinct.1 ?_
        rw [Path.same_iff.mp hsame, ← Path.same_iff.mp hsame']
        exact List.mem_map_of_mem he
      rw [hnone, List.filter_eq_self.mpr fun x hx => (hfirst x hx).trans hsame]
      simp
    | false =>
      rw [List.filter_eq_nil_iff.mpr fun x hx => by simp [hfirst x hx, hsame]]
      rfl

section Tidy

variable (h : w.Tidy)

include h

/-- A part of an extraction whose entries name their files holds for every file what is made of it. -/
theorem Tidy.filter_flatMap {α : Type} (part : Extraction → List α) (fileOf : α → Path)
    (hempty : part .empty = [])
    (hfile : ∀ d : Document, d.Reachable → ∀ mappings ps,
      ∀ x ∈ part (extractFrom d mappings ps), fileOf x = d.path) (file : Path) :
    ((w.documents.flatMap fun d => part (extractFrom d (w.mappings.get d.path) w.providers)).filter
      fun x => (fileOf x).same file) = part (w.extractionOf file) := by
  rw [filter_flatMap_documents h.distinct (fun d hd => hfile d (h.reachable d hd) _ _), extractionOf,
    document?]
  cases hfound : w.documents.find? fun d => d.path.same file with
  | none => exact hempty.symm
  | some d =>
    have hsame := List.find?_some (p := fun d : Document => d.path.same file) hfound
    rw [w.mappings.get_congr (Path.same_iff.mp hsame).symm]
    rfl

theorem Tidy.models_extractionOf (file : Path) :
    ((extractAll w.documents w.mappings w.providers).models.filter fun m => m.sourceFile.same file) =
      (w.extractionOf file).models := by
  rw [models_extractAll]
  refine h.filter_flatMap Extraction.models Model.sourceFile rfl (fun d hd mappings ps m hm => ?_) file
  exact (hd.exists_view_of_mem_models hm).1

theorem Tidy.shortfalls_extractionOf (file : Path) :
    ((extractAll w.documents w.mappings w.providers).report.shortfalls.filter
      fun s => s.sourceFile.same file) = (w.extractionOf file).report.shortfalls := by
  rw [extractAll, foldl_merge]
  refine h.filter_flatMap (fun e => e.report.shortfalls) Shortfall.sourceFile rfl
    (fun d hd mappings ps entry hentry => ?_) file
  rw [(accounted_shares hd mappings ps).shortfalls_eq] at hentry
  obtain ⟨s, -, hs⟩ := List.mem_filterMap.mp hentry
  unfold Share.shortfall? at hs
  split at hs
  · cases hs
  · rw [← Option.some.inj hs]

theorem Tidy.failures_extractionOf (file : Path) :
    ((extractAll w.documents w.mappings w.providers).report.failures.filter
      fun f => f.sourceFile.same file) = (w.extractionOf file).report.failures := by
  rw [extractAll, foldl_merge]
  refine h.filter_flatMap (fun e => e.report.failures) ModelFailure.sourceFile rfl
    (fun d hd mappings ps failure hfailure => ?_) file
  have haccounted := accounted_shares hd mappings ps
  rw [haccounted.failures_eq] at hfailure
  obtain ⟨s, hs, hfailure⟩ := List.mem_flatMap.mp hfailure
  obtain ⟨f, hf, rfl⟩ := List.mem_map.mp hfailure
  exact (haccounted.failures_built s hs f hf).1

end Tidy

/-- Models that were there before are issued with their handles, among whatever others. -/
theorem filter_issue {before : List IssuedModel} {kept : List IssuedModel} {serial : Nat}
    {models : List Model} {q : Model → Bool}
    (hkeys : (before.map fun old => old.toModel.key).Nodup) (hkept : kept ⊆ before)
    (h : models.filter q = kept.map IssuedModel.toModel) :
    ((issue before serial models).1.filter fun m => q m.toModel) = kept := by
  induction models generalizing serial kept with
  | nil =>
    rw [List.filter_nil] at h
    exact (List.map_eq_nil_iff.mp h.symm).symm
  | cons m models ih =>
    rw [List.filter_cons] at h
    rw [issue]
    split at h
    · next hm =>
      cases kept with
      | nil => cases h
      | cons k kept =>
        obtain ⟨rfl, hrest⟩ := List.cons.inj h
        rw [List.cons_subset] at hkept
        rw [previousUid?_of_mem hkeys hkept.1 rfl]
        simp only [List.filter_cons, hm, if_true, ih hkept.2 hrest]
    · next hm =>
      split <;> simp only [List.filter_cons, hm, Bool.false_eq_true, if_false] <;> exact ih hkept h

/-! ### Files that are not worked on -/

theorem Fresh.freeDetached_of_mem (h : w.Fresh) {d : Document} (hd : d ∈ w.documents) :
    d.freeDetached = d :=
  List.map_inj_left.mp (h.freed.trans (List.map_id _).symm) d hd

theorem Fresh.document?_extract (h : w.Fresh) (hagrees : w.Agrees w' file) :
    w'.extract.document? file = w.document? file := by
  rw [Workspace.document?_extract, hagrees.document?_eq]
  cases hd : w.document? file with
  | none => rfl
  | some d => rw [Option.map_some, h.freeDetached_of_mem (mem_of_document? hd).1]

/-- An extraction leaves a file of which nothing has changed as the last one has made it. -/
theorem Fresh.holding_after (h : w.Fresh) (hw : w.Tidy) (hw' : w'.Tidy)
    (hkeys : (w.models.map fun m => m.toModel.key).Nodup) (hagrees : w.Agrees w' file) :
    w'.extract.holding file = w.holding file := by
  have hdocument := h.document?_extract hagrees
  have hmappings : w'.extract.mappings.get file = w.mappings.get file := hagrees.mappings_eq
  have hsame : w'.extract.extractionOf file = w.extractionOf file := by
    rw [extractionOf, hdocument, hmappings,
      show w'.extract.providers = w.providers from hagrees.providers_eq, extractionOf]
  have hshortfalls := hw'.extract.shortfalls_extractionOf file
  have hfailures := hw'.extract.failures_extractionOf file
  rw [← hw'.fresh_extract.report_eq, hsame] at hshortfalls hfailures
  have hmodels : (w'.extract.models.filter fun m => m.sourceFile.same file) =
      w.models.filter fun m => m.sourceFile.same file := by
    have hkept := hw'.extract.models_extractionOf file
    rw [hsame, ← hw.models_extractionOf file, ← h.models_eq, List.filter_map] at hkept
    rw [← hagrees.models_eq] at hkeys hkept ⊢
    exact filter_issue hkeys List.filter_sublist.subset hkept
  rw [holding, holding, hdocument, hmappings, hmodels, hshortfalls, hfailures, h.report_eq,
    hw.shortfalls_extractionOf, hw.failures_extractionOf]

theorem Attained.exists_recorded (h : w.Attained) : ∃ past, Recorded past w := by
  induction h with
  | start settings providers => exact ⟨[], recorded_withProviders settings providers⟩
  | perform op _ ih =>
    obtain ⟨past, hpast⟩ := ih
    exact ⟨_, hpast.perform op⟩

theorem Attained.after (h : w.Attained) (ops : List Operation) : (w.after ops).Attained := by
  induction ops generalizing w with
  | nil => exact h
  | cons op ops ih => exact ih (h.perform op)

/-- After an extraction, operations on a file and another extraction leave of every other file the
document, the mappings, the models with their handles and the entries of the report as they were,
whether the operations fail or not. -/
theorem Attained.holding_extract (h : w.Attained) (hne : file.same other = false)
    (hops : ∀ op ∈ ops, op.isOn w.extract file = true) :
    (w.extract.after ops).extract.holding other = w.extract.holding other := by
  obtain ⟨past, hpast⟩ := h.exists_recorded
  have hagrees := agrees_after hops hne
  exact h.tidy.fresh_extract.holding_after h.tidy.extract (h.tidy.extract.after ops)
    hpast.extract.keys hagrees

/-- One file is edited, cannot be read with a model's new text, loses its mappings and is removed; the
other one keeps its model, its failure and its shortfall. -/
theorem holding_extract_letters :
    let letter (file : Path) (id : Nat) : Mapping := ⟨"letter", id, file, 1⟩
    let w := (withProviders .default ⟨[.letters]⟩).after
      [.setFile ⟨"a.tex"⟩ ['a', ' ', 'x'], .setFile ⟨"b.tex"⟩ ['b', ' ', 'c', ' ', 'd'],
        .setMappings ⟨"a.tex"⟩ [letter ⟨"a.tex"⟩ 1],
        .setMappings ⟨"b.tex"⟩ [letter ⟨"b.tex"⟩ 0, letter ⟨"b.tex"⟩ 1]]
    let ops : List Operation :=
      [.applyEdit ⟨"a.tex"⟩ ⟨⟨.ofCoord ⟨0, 0⟩, .ofCoord ⟨0, 0⟩⟩, ['y', ' ']⟩,
        .applyModelEdit ⟨1⟩ ['\x7b'], .setFile ⟨"a.tex/"⟩ ['\x7b'], .setMappings ⟨"a.tex/"⟩ [],
        .removeFile ⟨"a.tex"⟩]
    let held := w.extract.holding ⟨"b.tex"⟩
    held.models.map (fun m => (m.mapping.id, m.node, m.uid)) = [(1, ⟨3⟩, ⟨2⟩)] ∧
      held.failures.map ModelFailure.node = [⟨1⟩] ∧ held.shortfalls.map Shortfall.nodes = [[⟨5⟩]] ∧
      w.extract.models.map IssuedModel.uid = [⟨1⟩, ⟨2⟩] ∧
      (w.extract.after ops).extract.models.map IssuedModel.uid = [⟨2⟩] ∧
      (w.extract.after ops).extract.holding ⟨"b.tex"⟩ = held :=
  have hne : Path.same ⟨"a.tex"⟩ ⟨"b.tex"⟩ = false := by decide
  ⟨by decide +kernel, by decide +kernel, by decide +kernel, by decide +kernel, by decide +kernel,
    ((Attained.start _ _).after _).holding_extract hne (by decide +kernel)⟩

end Workspace

end TexAnchor
