import TexAnchor.Proofs.Effects
import TexAnchor.Proofs.Handles
import TexAnchor.Proofs.Sequential

/-! # Identity of models over runs

A handle is found again by the key of its model: the source file with the mapping's number.  That is
sound as an extraction makes at most one model of each key, and as `nextSerial` stays above every
handle that was ever issued (`Workspace.Recorded`).

`Workspace.extractions` are the models of every extraction of a run.  Over all runs, a model whose key
was there in the last extraction has the handle from there, every other model has a handle that no
extraction of the run has issued, and to extract twice is to extract once
(`Workspace.identities_extract`). -/

namespace TexAnchor

open Extraction

namespace Workspace

variable {w : Workspace} {before : List IssuedModel} {past : List (List IssuedModel)} {op : Operation}

/-! ### Old handles -/

/-- Where no two models have the same key, the handle of a key is that of any model with the key. -/
theorem previousUid?_of_mem {m : Model} {old : IssuedModel}
    (hkeys : (before.map fun old => old.toModel.key).Nodup) (hold : old ∈ before)
    (hkey : old.toModel.key = m.key) : previousUid? before m = some old.uid := by
  cases hprevious : previousUid? before m with
  | some uid =>
    obtain ⟨old', hold', hkey', rfl⟩ := key_of_previousUid? hprevious
    rw [List.inj_on_of_nodup_map hkeys hold' hold (hkey'.trans hkey.symm)]
  | none =>
    have hnone := List.find?_eq_none.mp (Option.map_eq_none_iff.mp hprevious) old hold
    obtain ⟨hfile, hid⟩ := Prod.ext_iff.mp hkey
    rw [Bool.and_eq_true, beq_iff_eq] at hnone
    exact absurd ⟨Path.same_iff.mpr hfile, hid⟩ hnone

theorem uid_of_mem_issue {serial : Nat} {models : List Model} {m : IssuedModel} {uid : Uid}
    (hm : m ∈ (issue before serial models).1) (hprevious : previousUid? before m.toModel = some uid) :
    m.uid = uid := by
  induction models generalizing serial with
  | nil => cases hm
  | cons first models ih =>
    rw [issue] at hm
    cases hfirst : previousUid? before first with
    | some old =>
      rw [hfirst] at hm
      rcases List.mem_cons.mp hm with rfl | hm
      · exact Option.some.inj (hfirst.symm.trans hprevious)
      · exact ih hm
    | none =>
      rw [hfirst] at hm
      rcases List.mem_cons.mp hm with rfl | hm
      · cases hfirst.symm.trans hprevious
      · exact ih hm

/-- To issue models that have handles changes nothing. -/
theorem issue_toModel (hkeys : (before.map fun old => old.toModel.key).Nodup) (serial : Nat)
    {models : List IssuedModel} (hmodels : models ⊆ before) :
    issue before serial (models.map IssuedModel.toModel) = (models, serial) := by
  induction models with
  | nil => rfl
  | cons m models ih =>
    rw [List.cons_subset] at hmodels
    rw [List.map_cons, issue, previousUid?_of_mem hkeys hmodels.1 rfl]
    simp only [ih hmodels.2]

theorem Fresh.extract_eq (h : w.Fresh) (hkeys : (w.models.map fun m => m.toModel.key).Nodup) :
    w.extract = w := by
  have hissue := issue_toModel hkeys w.nextSerial (List.Subset.refl w.models)
  rw [Workspace.extract, h.freed, ← h.models_eq, hissue, ← h.report_eq]

/-! ### Runs with a record of their extractions -/

/-- The models of an operation that extracts. -/
def extracted (w : Workspace) : Operation → List (List IssuedModel)
  | .extract => [w.extract.models]
  | _ => []

/-- The models of every extraction among some operations, in their order. -/
def extractions (w : Workspace) : List Operation → List (List IssuedModel)
  | [] => []
  | op :: ops => w.extracted op ++ (w.perform op).1.extractions ops

/-- The workspace `w` comes after the extractions of `past`. -/
structure Recorded (past : List (List IssuedModel)) (w : Workspace) : Prop where
  tidy : w.Tidy
  handled : w.Handled
  keys : (w.models.map fun m => m.toModel.key).Nodup
  last : w.models = past.getLastD []
  /-- No handle is issued again. -/
  bound : ∀ models ∈ past, ∀ m ∈ models, m.uid.serial < w.nextSerial

theorem extracted_of_ne (w : Workspace) (hop : op ≠ .extract) : w.extracted op = [] := by
  cases op with
  | extract => exact absurd rfl hop
  | _ => rfl

theorem numbered_perform (h : w.mappings.Numbered) (op : Operation) :
    (w.perform op).1.mappings.Numbered := by
  have hreplace (file : Path) (id : NodeId) (text : List Char) :
      (w.replaceNode file id text).1.mappings = w.mappings := by
    unfold replaceNode
    split <;> rfl
  cases op with
  | register p => exact h
  | setFile file text =>
    rw [perform, fst_reported, setFile]
    split <;> split <;> exact h
  | removeFile file => exact fun entry hentry => h entry (List.mem_filter.mp hentry).1
  | applyEdit file edit =>
    rw [perform, fst_reported, applyEdit]
    split
    · exact h
    · split <;> exact h
  | replaceNode file id text =>
    rw [perform, fst_reported, hreplace]
    exact h
  | setMappings file batch => exact h.setFile file batch
  | load batch =>
    rw [perform, fst_reported]
    exact numbered_load h batch
  | loadFrom directory =>
    rw [perform, fst_reported]
    exact numbered_loadFrom h directory
  | extract => exact h
  | applyModelEdit uid text =>
    rw [perform, fst_reported, applyModelEdit]
    split
    · exact h
    · rw [hreplace]
      exact h

theorem Recorded.extract (h : Recorded past w) : Recorded (past ++ [w.extract.models]) w.extract where
  tidy := h.tidy.extract
  handled := h.handled.extract h.tidy
  keys := h.tidy.nodup_keys h.handled.numbers
  last := by simp
  bound := by
    intro models hmodels m hm
    rcases List.mem_append.mp hmodels with hmodels | hmodels
    · exact Nat.lt_of_lt_of_le (h.bound models hmodels m hm) (h.handled.issued h.tidy).1
    · rw [List.mem_singleton.mp hmodels] at hm
      exact (h.handled.extract h.tidy).bound m hm

theorem Recorded.perform (h : Recorded past w) (op : Operation) :
    Recorded (past ++ w.extracted op) (w.perform op).1 := by
  by_cases hop : op = .extract
  · subst hop
    exact h.extract
  · obtain ⟨documents, mappings, providers, heq⟩ := w.exists_perform_eq hop
    have hnumbers := numbered_perform h.handled.numbers op
    have htidy := h.tidy.perform op
    rw [w.extracted_of_ne hop, List.append_nil]
    rw [heq] at hnumbers htidy ⊢
    exact ⟨htidy, h.handled.of_models_eq rfl rfl hnumbers, h.keys, h.last, h.bound⟩

theorem Recorded.after (h : Recorded past w) (ops : List Operation) :
    Recorded (past ++ w.extractions ops) (w.after ops) := by
  induction ops generalizing w past with
  | nil =>
    rw [extractions, List.append_nil]
    exact h
  | cons op ops ih =>
    rw [extractions, ← List.append_assoc]
    exact ih (h.perform op)

theorem recorded_withProviders (settings : Settings) (providers : Providers) :
    Recorded [] (withProviders settings providers) where
  tidy := ⟨by simp [withProviders], by simp [withProviders]⟩
  handled := ⟨by simp [withProviders], by simp [withProviders],
    by simp [withProviders, Registry.Numbered, Registry.empty]⟩
  keys := by simp [withProviders]
  last := rfl
  bound := by simp

/-- Extracted models have the handles of the last extraction's models with their keys, or new ones. -/
theorem Recorded.uid_extract (h : Recorded past w) {m : IssuedModel} (hm : m ∈ w.extract.models) :
    (∀ old ∈ past.getLastD [], old.toModel.key = m.toModel.key → m.uid = old.uid) ∧
      ((∀ old ∈ past.getLastD [], old.toModel.key ≠ m.toModel.key) →
        ∀ models ∈ past, ∀ old ∈ models, m.uid ≠ old.uid) := by
  rw [← h.last]
  constructor
  · intro old hold hkey
    exact uid_of_mem_issue hm (previousUid?_of_mem h.keys hold hkey)
  · intro hother models hmodels old hold heq
    rcases (h.handled.issued h.tidy).2.1 m hm with ⟨old', hold', hkey, -⟩ | ⟨hnew, -⟩
    · exact hother old' hold' hkey
    · have hlt := h.bound models hmodels old hold
      rw [← heq] at hlt
      omega

/-- Over every run, with any providers: no two models of an extraction have the same handle or the
same key; a model whose key was among the models of the extraction before has the handle from there;
any other model has a handle that no extraction of the run has issued; and to extract again changes
nothing in the workspace. -/
theorem identities_extract (settings : Settings) (providers : Providers) (ops : List Operation) :
    let w := (withProviders settings providers).after ops
    let past := (withProviders settings providers).extractions ops
    (w.extract.models.map IssuedModel.uid).Nodup ∧
      (w.extract.models.map fun m => m.toModel.key).Nodup ∧
      (∀ m ∈ w.extract.models,
        (∀ old ∈ past.getLastD [], old.toModel.key = m.toModel.key → m.uid = old.uid) ∧
        ((∀ old ∈ past.getLastD [], old.toModel.key ≠ m.toModel.key) →
          ∀ models ∈ past, ∀ old ∈ models, m.uid ≠ old.uid)) ∧
      w.extract.extract = w.extract := by
  intro w past
  have h : Recorded past w := (recorded_withProviders settings providers).after ops
  refine ⟨h.extract.handled.uids, h.extract.keys, fun m hm => h.uid_extract hm, ?_⟩
  exact h.tidy.fresh_extract.extract_eq h.extract.keys

/-- A mapping that was away for an extraction comes back as another model. -/
theorem identities_extract_letters :
    let letter (id : Nat) : Mapping := ⟨"letter", id, ⟨"a.tex"⟩, 1⟩
    let ops := [.setFile ⟨"a.tex"⟩ ['a', ' ', 'x', ' ', 'b'],
      .setMappings ⟨"a.tex"⟩ [letter 1, letter 2], .extract,
      .setMappings ⟨"a.tex"⟩ [letter 2, letter 3], .extract,
      .setMappings ⟨"a.tex"⟩ [letter 1, letter 2]]
    let w := (withProviders .default ⟨[.letters]⟩).after ops
    let past := (withProviders .default ⟨[.letters]⟩).extractions ops
    ((past ++ [w.extract.models]).map fun models => models.map fun m => (m.mapping.id, m.uid.serial)) =
        [[(1, 1), (2, 2)], [(2, 2), (3, 3)], [(1, 4), (2, 2)]] ∧
      (w.extract.models.map IssuedModel.uid).Nodup ∧ w.extract.extract = w.extract := by
  intro letter ops w past
  obtain ⟨hnodup, -, -, hagain⟩ := identities_extract .default ⟨[.letters]⟩ ops
  exact ⟨by decide +kernel, hnodup, hagain⟩

end Workspace

end TexAnchor
