import TexAnchor.Proofs.Accounting
import TexAnchor.Proofs.Workspaces

/-! # Handles of models

The key of a model is its source file with its mapping's number.  In a reachable workspace every
number occurs once among the mappings of a file (`Registry.Numbered`), so an extraction makes at most
one model of each key, and no two models have the same handle (`Workspace.Reachable.handled`).  A
handle that is in use before an extraction and after it stands for models of one key
(`Workspace.Handled.key_eq`). -/

namespace TexAnchor

/-! ### Numbers of mappings -/

namespace Registry

variable {r : Registry} {batch : List Mapping}

/-- Within every file the numbers of the mappings are all different. -/
def Numbered (r : Registry) : Prop :=
  ∀ entry ∈ r.files, (entry.2.map Mapping.id).Nodup

theorem Numbered.get (h : r.Numbered) (file : Path) : ((r.get file).map Mapping.id).Nodup := by
  rw [Registry.get, lookup]
  cases hfound : r.files.find? fun entry => entry.1.same file with
  | none => simp
  | some entry => exact h entry (List.mem_of_find?_eq_some hfound)

theorem nodup_putByNumber {kept : List Mapping} (h : (kept.map Mapping.id).Nodup) (m : Mapping) :
    ((putByNumber kept m).map Mapping.id).Nodup := by
  unfold putByNumber
  split
  · have hids : ((kept.map fun k => if k.id = m.id then m else k).map Mapping.id) =
        kept.map Mapping.id := by
      rw [List.map_map]
      apply List.map_congr_left
      intro k _
      simp only [Function.comp_apply]
      split
      · next heq => exact heq.symm
      · rfl
    rw [hids]
    exact h
  · next hnew =>
    rw [List.map_append, List.nodup_append]
    refine ⟨h, by simp, fun id hid _ hm => ?_⟩
    obtain ⟨k, hk, rfl⟩ := List.mem_map.mp hid
    obtain rfl := List.mem_singleton.mp hm
    exact fun heq => hnew (List.any_eq_true.mpr ⟨k, hk, by simpa using heq⟩)

theorem nodup_onePerNumber (batch : List Mapping) : ((onePerNumber batch).map Mapping.id).Nodup := by
  have hfold : ∀ kept : List Mapping, (kept.map Mapping.id).Nodup →
      ((batch.foldl putByNumber kept).map Mapping.id).Nodup := by
    induction batch with
    | nil => exact fun kept h => h
    | cons m batch ih => exact fun kept h => ih _ (nodup_putByNumber h m)
  exact hfold [] (by simp)

theorem mem_store {file : Path} {files : List (Path × List Mapping)} {entry : Path × List Mapping}
    (h : entry ∈ store file batch files) : entry.2 = batch ∨ entry ∈ files := by
  induction files with
  | nil =>
    obtain rfl := List.mem_singleton.mp h
    exact .inl rfl
  | cons first files ih =>
    rw [store] at h
    split at h
    · rcases List.mem_cons.mp h with rfl | h
      · exact .inl rfl
      · exact .inr (List.mem_cons_of_mem _ h)
    · rcases List.mem_cons.mp h with rfl | h
      · exact .inr (by simp)
      · exact (ih h).imp id (List.mem_cons_of_mem _)

theorem Numbered.setFile (h : r.Numbered) (file : Path) (batch : List Mapping) :
    (r.setFile file batch).Numbered := by
  intro entry hentry
  rcases mem_store hentry with heq | hold
  · rw [heq]
    exact nodup_onePerNumber _
  · exact h entry hold

theorem Numbered.setMixed (h : r.Numbered) (batch : List Mapping) : (r.setMixed batch).Numbered := by
  unfold Registry.setMixed
  induction groupByFile batch generalizing r with
  | nil => exact h
  | cons group groups ih => exact ih (h.setFile group.1 group.2)

end Registry

/-! ### Mappings and models of an extraction -/

/-- A model's source file with its mapping's number. -/
def Model.key (m : Model) : List (List Char) × Nat :=
  (m.sourceFile.components, m.mapping.id)

open Extraction

theorem Extraction.nodup_numbers {d : Document} (hd : d.Reachable) {mappings : List Mapping}
    (h : (mappings.map Mapping.id).Nodup) (ps : Providers) :
    ((extractFrom d mappings ps).models.map fun m => m.mapping.id).Nodup := by
  have haccounted := accounted_shares hd mappings ps
  have hall := (haccounted.mappings_perm.map Mapping.id).nodup_iff.mpr h
  rw [List.map_append] at hall
  have hnumbers := (List.nodup_append.mp hall).2.1
  rw [haccounted.models_eq]
  have hsublist : ((shares d mappings ps).flatMap fun s => s.models.map Model.mapping).Sublist
      ((shares d mappings ps).flatMap Share.allMappings) := by
    induction shares d mappings ps with
    | nil => exact .slnil
    | cons s shares ih =>
      have hfirst : (s.models.map Model.mapping).Sublist s.allMappings :=
        (List.sublist_append_left _ _).trans (List.sublist_append_left _ _)
      exact hfirst.append ih
  have hmodels := (hsublist.map Mapping.id).nodup hnumbers
  rw [← List.map_flatMap, List.map_map] at hmodels
  exact hmodels

namespace Workspace

variable {w : Workspace} {before : List IssuedModel} {models : List Model} {serial : Nat}

/-- An extraction makes at most one model of each key. -/
theorem Tidy.nodup_keys (h : w.Tidy) (hnumbers : w.mappings.Numbered) :
    (w.extract.models.map fun m => m.toModel.key).Nodup := by
  have hkeys : (w.extract.models.map fun m => m.toModel.key) =
      (w.extract.models.map IssuedModel.toModel).map Model.key := by simp
  have hfile {d : Document} (hd : d ∈ w.extract.documents) {m : Model}
      (hm : m ∈ (extractFrom d (w.mappings.get d.path) w.providers).models) :
      m.sourceFile = d.path := by
    have haccounted := accounted_shares (h.extract.reachable d hd) (w.mappings.get d.path) w.providers
    rw [haccounted.models_eq] at hm
    obtain ⟨s, hs, hm⟩ := List.mem_flatMap.mp hm
    exact (haccounted.models_built s hs m hm).1
  rw [hkeys, map_toModel_extract]
  apply List.pairwise_map.mpr
  rw [List.pairwise_flatMap]
  constructor
  · intro d hd
    have hnodup := nodup_numbers (h.extract.reachable d hd) (hnumbers.get d.path) w.providers
    exact (List.pairwise_map.mp hnodup).imp fun hne heq => hne (congrArg Prod.snd heq)
  · refine (List.pairwise_map.mp h.extract.distinct).imp_of_mem ?_
    intro d e hd he hne m hm m' hm' heq
    apply hne
    rw [← hfile hd hm, ← hfile he hm']
    exact congrArg Prod.fst heq

/-! ### Handles -/

theorem key_of_previousUid? {m : Model} {uid : Uid} (h : previousUid? before m = some uid) :
    ∃ old ∈ before, old.toModel.key = m.key ∧ old.uid = uid := by
  obtain ⟨old, hfound, rfl⟩ := Option.map_eq_some_iff.mp h
  have hsame := List.find?_some hfound
  rw [Bool.and_eq_true, beq_iff_eq] at hsame
  refine ⟨old, List.mem_of_find?_eq_some hfound, ?_, rfl⟩
  rw [Model.key, Model.key, Path.same_iff.mp hsame.1, hsame.2]

/-- A handle that is issued is that of an old model with the key, or it is new. -/
theorem issue_spec (huids : (before.map IssuedModel.uid).Nodup)
    (hbound : ∀ old ∈ before, old.uid.serial < serial) (hkeys : (models.map Model.key).Nodup) :
    serial ≤ (issue before serial models).2 ∧
    (∀ m ∈ (issue before serial models).1,
      (∃ old ∈ before, old.toModel.key = m.toModel.key ∧ old.uid = m.uid) ∨
        serial ≤ m.uid.serial ∧ m.uid.serial < (issue before serial models).2) ∧
    ((issue before serial models).1.map IssuedModel.uid).Nodup := by
  induction models generalizing serial with
  | nil => simp [issue]
  | cons m models ih =>
    rw [List.map_cons, List.nodup_cons] at hkeys
    have hother {serial : Nat} {later : IssuedModel} (hlater : later ∈ (issue before serial models).1) :
        later.toModel.key ≠ m.key := fun heq => hkeys.1 (heq ▸ List.mem_map_of_mem (by
      rw [← map_toModel_issue before serial models]
      exact List.mem_map_of_mem hlater))
    rw [issue]
    cases hprevious : previousUid? before m with
    | some uid =>
      obtain ⟨old, hold, hkey, rfl⟩ := key_of_previousUid? hprevious
      obtain ⟨hle, hissued, hnodup⟩ := ih hbound hkeys.2
      refine ⟨hle, fun later hlater => ?_, List.nodup_cons.mpr ⟨fun hmem => ?_, hnodup⟩⟩
      · rcases List.mem_cons.mp hlater with rfl | hlater
        · exact .inl ⟨old, hold, hkey, rfl⟩
        · exact hissued later hlater
      · obtain ⟨later, hlater, heq⟩ := List.mem_map.mp hmem
        rcases hissued later hlater with ⟨old', hold', hkey', huid⟩ | ⟨hnew, -⟩
        · obtain rfl := List.inj_on_of_nodup_map huids hold' hold (huid.trans heq)
          exact hother hlater (hkey'.symm.trans hkey)
        · have hlt : old.uid.serial < serial := hbound old hold
          have hsame : later.uid = old.uid := heq
          rw [hsame] at hnew
          omega
    | none =>
      have hbound' : ∀ old ∈ before, old.uid.serial < serial + 1 := by
        intro old hold
        have := hbound old hold
        omega
      obtain ⟨hle, hissued, hnodup⟩ := ih hbound' hkeys.2
      refine ⟨by simp only; omega, fun later hlater => ?_, List.nodup_cons.mpr ⟨fun hmem => ?_, hnodup⟩⟩
      · rcases List.mem_cons.mp hlater with rfl | hlater
        · exact .inr ⟨le_refl _, hle⟩
        · exact (hissued later hlater).imp_right fun hnew => ⟨by omega, hnew.2⟩
      · obtain ⟨later, hlater, heq⟩ := List.mem_map.mp hmem
        rcases hissued later hlater with ⟨old, hold, -, huid⟩ | ⟨hnew, -⟩
        · have hlt : old.uid.serial < serial := hbound old hold
          have hsame : old.uid = ⟨serial⟩ := huid.trans heq
          rw [hsame] at hlt
          exact Nat.lt_irrefl _ hlt
        · have hsame : later.uid = ⟨serial⟩ := heq
          rw [hsame] at hnew
          exact Nat.not_succ_le_self _ hnew

/-- No two models have the same handle, every handle is below the next new one, and the mappings of
every file are numbered. -/
structure Handled (w : Workspace) : Prop where
  uids : (w.models.map IssuedModel.uid).Nodup
  bound : ∀ m ∈ w.models, m.uid.serial < w.nextSerial
  numbers : w.mappings.Numbered

theorem Handled.model?_of_mem (h : w.Handled) {m : IssuedModel} (hm : m ∈ w.models) :
    w.model? m.uid = some m := by
  cases hfound : w.model? m.uid with
  | none =>
    have := List.find?_eq_none.mp hfound m hm
    simp at this
  | some m' =>
    have huid := List.find?_some (p := fun m' : IssuedModel => m'.uid == m.uid) hfound
    rw [List.inj_on_of_nodup_map h.uids (List.mem_of_find?_eq_some hfound) hm (beq_iff_eq.mp huid)]

theorem Handled.issued (h : w.Handled) (hw : w.Tidy) :
    w.nextSerial ≤ w.extract.nextSerial ∧
    (∀ m ∈ w.extract.models,
      (∃ old ∈ w.models, old.toModel.key = m.toModel.key ∧ old.uid = m.uid) ∨
        w.nextSerial ≤ m.uid.serial ∧ m.uid.serial < w.extract.nextSerial) ∧
    (w.extract.models.map IssuedModel.uid).Nodup := by
  apply issue_spec h.uids h.bound
  rw [← map_toModel_issue w.models w.nextSerial (Extraction.models _), List.map_map]
  exact hw.nodup_keys h.numbers

theorem Handled.extract (h : w.Handled) (hw : w.Tidy) : w.extract.Handled := by
  obtain ⟨hle, hissued, hnodup⟩ := h.issued hw
  refine ⟨hnodup, fun m hm => ?_, h.numbers⟩
  rcases hissued m hm with ⟨old, hold, -, huid⟩ | ⟨-, hlt⟩
  · have := h.bound old hold
    rw [huid] at this
    exact Nat.lt_of_lt_of_le this hle
  · exact hlt

theorem Handled.of_models_eq {w' : Workspace} (h : w.Handled) (hmodels : w'.models = w.models)
    (hserial : w'.nextSerial = w.nextSerial) (hnumbers : w'.mappings.Numbered) : w'.Handled :=
  ⟨hmodels ▸ h.uids, by rw [hmodels, hserial]; exact h.bound, hnumbers⟩

theorem numbered_load (h : w.mappings.Numbered) (batch : Option ByteArray) :
    (w.load batch).1.mappings.Numbered := by
  unfold load
  split
  · exact h.setMixed _
  · exact h

theorem numbered_loadFrom (h : w.mappings.Numbered) (directory : List (Path × ByteArray)) :
    (w.loadFrom directory).1.mappings.Numbered := by
  unfold loadFrom
  split
  · exact numbered_load h _
  · exact h

theorem Handled.setFile (h : w.Handled) (file : Path) (text : List Char) :
    (w.setFile file text).1.Handled := by
  unfold Workspace.setFile
  split
  · split
    · exact h.of_models_eq rfl rfl h.numbers
    · exact h
  · split
    · exact h.of_models_eq rfl rfl h.numbers
    · exact h

theorem Handled.applyEdit (h : w.Handled) (file : Path) (edit : Edit) :
    (w.applyEdit file edit).1.Handled := by
  unfold Workspace.applyEdit
  split
  · exact h
  · split
    · exact h.of_models_eq rfl rfl h.numbers
    · exact h

theorem Handled.replaceNode (h : w.Handled) (file : Path) (id : NodeId) (text : List Char) :
    (w.replaceNode file id text).1.Handled := by
  unfold Workspace.replaceNode
  split
  · exact h
  · exact h.of_models_eq rfl rfl h.numbers

theorem Reachable.handled (h : w.Reachable) : w.Handled := by
  induction h with
  | new settings =>
    exact ⟨by simp [Workspace.new, withProviders], by simp [Workspace.new, withProviders],
      by simp [Workspace.new, withProviders, Registry.Numbered, Registry.empty]⟩
  | setFile file text _ ih => exact ih.setFile file text
  | removeFile file _ ih =>
    exact ih.of_models_eq rfl rfl fun entry hentry => ih.numbers entry (List.mem_filter.mp hentry).1
  | applyEdit file edit _ ih => exact ih.applyEdit file edit
  | replaceNode file id text _ ih => exact ih.replaceNode file id text
  | setMappings file batch _ ih => exact ih.of_models_eq rfl rfl (ih.numbers.setFile file batch)
  | @load w batch _ ih =>
    obtain ⟨mappings, heq⟩ := w.exists_mappings_load batch
    exact ih.of_models_eq (by rw [heq]) (by rw [heq]) (numbered_load ih.numbers batch)
  | @loadFrom w directory _ ih =>
    obtain ⟨mappings, heq⟩ := w.exists_mappings_loadFrom directory
    exact ih.of_models_eq (by rw [heq]) (by rw [heq]) (numbered_loadFrom ih.numbers directory)
  | extract hw ih => exact ih.extract hw.sound.tidy

/-- A handle in use before an extraction and after it stands for models of one key. -/
theorem Handled.key_eq (h : w.Handled) (hw : w.Tidy) {m m' : IssuedModel} (hm : m ∈ w.models)
    (hm' : m' ∈ w.extract.models) (huid : m'.uid = m.uid) : m'.toModel.key = m.toModel.key := by
  rcases (h.issued hw).2.1 m' hm' with ⟨old, hold, hkey, hsame⟩ | ⟨hnew, -⟩
  · obtain rfl := List.inj_on_of_nodup_map h.uids hold hm (hsame.trans huid)
    exact hkey.symm
  · have := h.bound m hm
    rw [huid] at hnew
    omega

end Workspace

end TexAnchor
