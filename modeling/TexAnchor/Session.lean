import TexAnchor.Queue.Drain
import TexAnchor.Workspace.Basic

/-! # Sessions

A `Session` is a workspace that is only changed through a queue.  Each `Write` is a task; after it
has been applied the models are extracted again, also if it failed, for a failed replacement may
have changed the text.  Nothing is applied before the queue is drained. -/

namespace TexAnchor

/-- A change of a workspace. -/
inductive Write
  /-- The source of the node behind a model. -/
  | modelEdit (uid : Uid) (text : List Char)
  /-- The whole content of a file. -/
  | fileUpdate (file : Path) (text : List Char)
  | edit (file : Path) (change : Edit)
  /-- The source of a node. -/
  | replace (file : Path) (id : NodeId) (text : List Char)
  | setMappings (file : Path) (batch : List Mapping)
  | removeFile (file : Path)
  /-- A change that breaks off before it has done anything. -/
  | panic (report : String)
deriving Repr

namespace Write

/-- The workspace after the change alone, and whether the change failed. -/
def apply (w : Workspace) : Write → Workspace × Option (TaskError WorkspaceError)
  | modelEdit uid text => ofAttempt (w.applyModelEdit uid text)
  | fileUpdate file text => ofAttempt (w.setFile file text)
  | edit file change => ofAttempt (w.applyEdit file change)
  | replace file id text => ofAttempt (w.replaceNode file id text)
  | setMappings file batch => (w.setMappings file batch, none)
  | removeFile file => (w.removeFile file, none)
  | panic report => (w, some (.panicked report))
where
  /-- An operation that can fail, without what it gives if it succeeds. -/
  ofAttempt {α : Type} : Workspace × Except WorkspaceError α →
      Workspace × Option (TaskError WorkspaceError)
    | (changed, .ok _) => (changed, none)
    | (changed, .error error) => (changed, some (.failed error))

/-- A write as a task: the models are extracted again unless the change broke off. -/
def run (write : Write) (w : Workspace) : Workspace × Option (TaskError WorkspaceError) :=
  match write.apply w with
  | (changed, some (.panicked report)) => (changed, some (.panicked report))
  | (changed, outcome) => (changed.extract, outcome)

end Write

/-- A workspace and the queue of its writes. -/
structure Session where
  workspace : Workspace
  queue : Queue Write WorkspaceError

namespace Session

/-- A session on a workspace, with the queue that its settings ask for. -/
def new (w : Workspace) : Session :=
  ⟨w, Queue.initial w.settings.failurePolicy w.settings.timeoutMilliseconds⟩

/-- A write put in line, and its number. -/
def submit (s : Session) (write : Write) : Session × Nat :=
  let (queue, id) := s.queue.submit write
  ({ s with queue }, id)

/-- A write as a task of the queue. -/
def runner : Queue.Runner Workspace Write WorkspaceError := fun write (w, q) =>
  let (changed, outcome) := write.run w
  ((changed, q), outcome)

/-- The first write in line is applied, unless its time is up before; with no write in line the queue
becomes idle. -/
def drainStep (s : Session) (timing : Queue.Timing) : Session :=
  let (workspace, queue) := Queue.drainStep runner timing (s.workspace, s.queue)
  ⟨workspace, queue⟩

/-- All writes in line are applied on a clock that stands still, and the queue becomes idle. -/
def waitIdle (s : Session) : Session :=
  let (workspace, queue) := Queue.drain runner (s.queue.pending + 1) (s.workspace, s.queue)
  ⟨workspace, queue⟩

/-- The failures that were kept; they are not kept any longer. -/
def takeFailures (s : Session) : Session × List (TaskFailure WorkspaceError) :=
  let (queue, failures) := s.queue.takeFailures
  ({ s with queue }, failures)

end Session

end TexAnchor
