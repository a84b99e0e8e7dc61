import TexAnchor.Proofs.Workspaces
import TexAnchor.Session

/-! # Draining the queue of a session

A write is followed by an extraction, also if it failed (`Write.run_eq`).  On a clock that stands still
a session that waits until its queue is idle has applied the writes in line one after another
(`Session.workspace_waitIdle`). -/

namespace TexAnchor

namespace Write

section Attempts

variable {α : Type} (r : Workspace × Except WorkspaceError α)

@[simp] theorem apply.fst_ofAttempt : (apply.ofAttempt r).1 = r.1 := by
  obtain ⟨changed, _ | _⟩ := r <;> rfl

theorem apply.snd_ofAttempt_eq_none_iff :
    (apply.ofAttempt r).2 = none ↔ ∃ value, r.2 = .ok value := by
  obtain ⟨changed, _ | _⟩ := r <;> simp [apply.ofAttempt]

theorem apply.snd_ofAttempt_eq_failed_iff (error : WorkspaceError) :
    (apply.ofAttempt r).2 = some (.failed error) ↔ r.2 = .error error := by
  obtain ⟨changed, _ | _⟩ := r <;> simp [apply.ofAttempt]

theorem apply.snd_ofAttempt_ne_panicked (report : String) :
    (apply.ofAttempt r).2 ≠ some (.panicked report) := by
  obtain ⟨changed, _ | _⟩ := r <;> simp [apply.ofAttempt]

end Attempts

/-- A write that does not break off is followed by an extraction, also if it failed. -/
theorem run_eq {write : Write} (h : ∀ report, write ≠ .panic report) (w : Workspace) :
    write.run w = ((write.apply w).1.extract, (write.apply w).2) := by
  have hplain : ∀ report, (write.apply w).2 ≠ some (.panicked report) := by
    cases write with
    | modelEdit uid text => exact apply.snd_ofAttempt_ne_panicked _
    | fileUpdate file text => exact apply.snd_ofAttempt_ne_panicked _
    | edit file change => exact apply.snd_ofAttempt_ne_panicked _
    | replace file id text => exact apply.snd_ofAttempt_ne_panicked _
    | setMappings file batch => simp [apply]
    | removeFile file => simp [apply]
    | panic report => exact absurd rfl (h report)
  unfold run
  split
  · next report heq => exact absurd (congrArg Prod.snd heq) (hplain report)
  · next heq => rw [heq]

variable (w : Workspace) (uid : Uid) (file : Path) (text : List Char)

theorem fst_run_modelEdit :
    ((Write.modelEdit uid text).run w).1 = (w.applyModelEdit uid text).1.extract := by
  rw [run_eq (by simp), apply, apply.fst_ofAttempt]

theorem fst_run_fileUpdate :
    ((Write.fileUpdate file text).run w).1 = (w.setFile file text).1.extract := by
  rw [run_eq (by simp), apply, apply.fst_ofAttempt]

theorem snd_run_modelEdit_eq_none_iff :
    ((Write.modelEdit uid text).run w).2 = none ↔
      ∃ outcome, (w.applyModelEdit uid text).2 = .ok outcome := by
  rw [run_eq (by simp), apply, apply.snd_ofAttempt_eq_none_iff]

theorem snd_run_modelEdit_eq_failed_iff (error : WorkspaceError) :
    ((Write.modelEdit uid text).run w).2 = some (.failed error) ↔
      (w.applyModelEdit uid text).2 = .error error := by
  rw [run_eq (by simp), apply, apply.snd_ofAttempt_eq_failed_iff]

end Write

namespace Session

variable {s : Session}

/-- A queue at work, between two tasks. -/
structure Working (q : Queue Write WorkspaceError) : Prop where
  running : q.running = none
  draining : q.draining = true
  timeout : q.timeout ≠ some 0

theorem Working.drainStep {q : Queue Write WorkspaceError} (h : Working q) {task : Nat × Write}
    {waiting : List (Nat × Write)} (hwaiting : q.waiting = task :: waiting) (w : Workspace) :
    ∃ q', Queue.drainStep runner q.stillTiming (w, q) = ((task.2.run w).1, q') ∧ Working q' ∧
      q'.waiting = waiting := by
  have hstart : q.startNext = ({ q with waiting, running := some ⟨task.1, none⟩ }, some task) := by
    rw [Queue.startNext, h.running, hwaiting]
  have htiming : q.stillTiming = .inTime := if_neg h.timeout
  refine ⟨Queue.finish { q with waiting, running := some ⟨task.1, none⟩ } (task.2.run w).2, ?_,
    ⟨rfl, h.draining, h.timeout⟩, rfl⟩
  rw [Queue.drainStep, hstart, htiming]
  rfl

/-- Waiting until the queue is idle applies the writes in line one after another. -/
theorem workspace_waitIdle (h : Working s.queue) : s.waitIdle.workspace =
    s.queue.waiting.foldl (fun w task => (task.2.run w).1) s.workspace := by
  obtain ⟨w, q⟩ := s
  suffices hdrain : (Queue.drain runner (q.waiting.length + 1) (w, q)).1 =
      q.waiting.foldl (fun w task => (task.2.run w).1) w from hdrain
  replace h : Working q := h
  induction hwaiting : q.waiting generalizing w q with
  | nil =>
    simp [Queue.drain, Queue.drainStep, Queue.startNext, Queue.isIdle, h.running, h.draining,
      hwaiting]
  | cons task waiting ih =>
    obtain ⟨q', hstep, hworking, rfl⟩ := h.drainStep hwaiting w
    have hbusy : q.isIdle = false := by simp [Queue.isIdle, h.draining]
    rw [List.length_cons, Queue.drain, hstep, List.foldl_cons]
    simp only [hbusy, Bool.false_eq_true, ite_false]
    exact ih _ q' hworking rfl

/-! ### A session on a formula -/

end Session

end TexAnchor
