import TexAnchor.Proofs.Sequential

/-! # Writing back

A session at work that only models and whole files are written to keeps every document in step with its
text, and an edit of a model that succeeds exchanges just the source of the model's node
(`Session.Works.inStep_and_spliced`).

A queue may allow its tasks some time only.  Then a write may be told to stop before it has done
anything, or it may be done and still count as timed out.  Either way the workspace is
`Workspace.Settled` between two tasks. -/

namespace TexAnchor

open Queue (Workshop Event Moment submissions)

namespace Workspace

variable {w : Workspace} {uid : Uid} {file : Path} {text : List Char}

theorem inStep_setFile (hstep : w.InStep) (file : Path) (text : List Char) :
    (w.setFile file text).1.InStep := by
  unfold setFile
  split
  · split
    · next fresh hfresh =>
      intro e he
      rcases mem_putDocument he with rfl | he
      · exact Document.inStep_of_parse hfresh
      · exact hstep e he
    · exact hstep
  · split
    · next fresh hfresh =>
      intro e he
      rcases List.mem_append.mp he with he | he
      · exact hstep e he
      · exact List.mem_singleton.mp he ▸ Document.inStep_of_parse hfresh
    · exact hstep

/-- The models are current and the documents are in step. -/
structure Settled (w : Workspace) : Prop where
  sound : w.Sound
  current : w.Current
  inStep : w.InStep

theorem Sound.settled_extract (h : w.Sound) (hstep : w.InStep) : w.extract.Settled :=
  ⟨h.extract, h.current_extract, h.inStep_extract hstep⟩

theorem Settled.fileUpdate (h : w.Settled) (file : Path) (text : List Char) :
    ((Write.fileUpdate file text).run w).1.Settled := by
  rw [Write.fst_run_fileUpdate]
  exact (h.sound.setFile file text).settled_extract (inStep_setFile h.inStep file text)

theorem Settled.modelEdit (h : w.Settled)
    (hread : ∀ error, ((Write.modelEdit uid text).run w).2 ≠ some (.failed (.edit (.parse error)))) :
    ((Write.modelEdit uid text).run w).1.Settled := by
  simp only [ne_eq, Write.snd_run_modelEdit_eq_failed_iff] at hread
  have hsound : (w.applyModelEdit uid text).1.Sound := by
    unfold applyModelEdit
    split
    · exact h.sound
    · exact h.sound.replaceNode _ _ _
  rw [Write.fst_run_modelEdit]
  exact hsound.settled_extract (h.sound.inStep_applyModelEdit h.current h.inStep hread)

end Workspace

namespace Session

/-- A write to a model or to a whole file. -/
def IsWriteBack (write : Write) : Prop :=
  (∃ uid text, write = .modelEdit uid text) ∨ ∃ file text, write = .fileUpdate file text

variable {w v v' : Workspace} {events : List (Event Write WorkspaceError)}
  {s : Workshop Write WorkspaceError} {task : Nat} {ended : Option (TaskError WorkspaceError)}

/-- A task that stops has made its write, or it has done nothing. -/
theorem Writes.stop_cases (h : Writes s v (.stop task ended) v') :
    (∃ write, .started (task, write) ∈ s.history ∧ v' = (write.run v).1 ∧ ended = (write.run v).2) ∨
      v' = v ∧ ended = some .cancelled := by
  generalize hevent : Event.stop task ended = event at h
  cases h with
  | @made task write hstarted =>
    cases hevent
    exact .inl ⟨write, hstarted, rfl, rfl⟩
  | aborted =>
    cases hevent
    exact .inr ⟨rfl, rfl⟩
  | other hother => exact absurd hevent.symm (hother task ended)

/-- Every event leaves the workspace settled. -/
theorem Works.settled (h : Works w events s v) (hw : w.Settled)
    (hwrites : ∀ write ∈ submissions events, IsWriteBack write)
    (hread : ∀ task error, .stop task (some (.failed (.edit (.parse error)))) ∉ events) :
    v.Settled := by
  induction h with
  | start => exact hw
  | @step events event s s' v v' hworks hstep hwrite ih =>
    rw [Queue.submissions_concat] at hwrites
    have hv := ih (fun write hmem => hwrites write (List.mem_append_left _ hmem))
      fun task error hmem => hread task error (List.mem_append_left _ hmem)
    by_cases hstop : ∃ task ended, event = .stop task ended
    · obtain ⟨task, ended, rfl⟩ := hstop
      rcases hwrite.stop_cases with ⟨write, hstarted, rfl, rfl⟩ | ⟨rfl, -⟩
      · have hmem : write ∈ submissions events :=
          List.mem_of_getElem? (hworks.runs.kept.getElem?_of_started hstarted)
        rcases hwrites write (List.mem_append_left _ hmem) with ⟨uid, text, rfl⟩ | ⟨file, text, rfl⟩
        · refine hv.modelEdit fun error hfailed => hread task error ?_
          rw [hfailed]
          simp
        · exact hv.fileUpdate file text
      · exact hv
    · cases hwrite with
      | made => exact absurd ⟨_, _, rfl⟩ hstop
      | aborted => exact absurd ⟨_, _, rfl⟩ hstop
      | other => exact hv

end Session

end TexAnchor
