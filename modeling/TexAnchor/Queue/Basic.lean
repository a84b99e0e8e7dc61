/-! # Queues of tasks

A `Queue` runs tasks one at a time in the order in which they were submitted.  Submitting a task to
an idle queue starts a drain, which goes on until no task is waiting.  The queue only keeps the
books; it does not know what a task does.

* `Queue.submit` — a task is put in line;
* `Queue.startNext` — the first task in line is started, unless one is running;
* `Queue.expire` — the running task has used up its time and is told to stop;
* `Queue.finish` — the running task has stopped;
* `Queue.takeFailures` — the failures that were kept, oldest first.

A task that was told to stop counts as timed out, however it ended. -/

namespace TexAnchor

/-- What happens to failures. -/
inductive FailurePolicy
  /-- They are not kept. -/
  | log
  /-- They are kept until they are taken. -/
  | record
deriving DecidableEq, Repr, Inhabited

/-- How a task can end without success; `ε` are the errors that tasks report. -/
inductive TaskError (ε : Type)
  | failed (error : ε)
  | panicked (report : String)
  | timedOut (milliseconds : Nat)
  | cancelled
deriving DecidableEq, Repr

/-- A task that ended without success. -/
structure TaskFailure (ε : Type) where
  task : Nat
  error : TaskError ε
deriving DecidableEq, Repr

/-- A duration in its largest unit, without trailing zeros: `25ms`, `1.5s`; nothing is `0ns`. -/
def renderDuration (milliseconds : Nat) : String :=
  if milliseconds = 0 then "0ns"
  else if milliseconds < 1000 then s!"{milliseconds}ms"
  else
    let thousandths := milliseconds % 1000
    let padded := (toString (1000 + thousandths)).toList.tail
    let decimals := (padded.reverse.dropWhile (· == '0')).reverse
    let point := if decimals.isEmpty then "" else "."
    s!"{milliseconds / 1000}{point}{String.ofList decimals}s"

/-- The report of the error. -/
def TaskError.message {ε : Type} (describe : ε → String) : TaskError ε → String
  | failed error => s!"task failed: {describe error}"
  | panicked report => s!"task panicked: {report}"
  | timedOut milliseconds => s!"task timed out after {renderDuration milliseconds}"
  | cancelled => "task was cancelled"

/-- The task that has been started and has not stopped. -/
structure Running where
  task : Nat
  /-- The time that the task was allowed, once it has used that up. -/
  expired : Option Nat
deriving DecidableEq, Repr

/-- What the end of a task counts as, given how the task itself ended. -/
def Running.verdict {ε : Type} (r : Running) (outcome : Option (TaskError ε)) :
    Option (TaskError ε) :=
  match r.expired with
  | some limit => some (.timedOut limit)
  | none => outcome

/-- The books of a queue of tasks `τ`. -/
structure Queue (τ ε : Type) where
  policy : FailurePolicy
  /-- How long a task may take, in milliseconds. -/
  timeout : Option Nat
  /-- The tasks in line, with their numbers. -/
  waiting : List (Nat × τ)
  running : Option Running
  /-- Whether a drain is under way. -/
  draining : Bool
  /-- What is told to those who wait for the queue to be idle. -/
  idle : Bool
  nextId : Nat
  failures : List (TaskFailure ε)
deriving Repr

namespace Queue

variable {τ ε : Type}

/-- A queue without tasks. -/
def initial (policy : FailurePolicy) (timeout : Option Nat) : Queue τ ε :=
  ⟨policy, timeout, [], none, false, true, 0, []⟩

/-- Whether the queue has nothing to do. -/
def isIdle (q : Queue τ ε) : Bool := !q.draining

/-- The number of tasks that wait to be started. -/
def pending (q : Queue τ ε) : Nat := q.waiting.length

/-- A task put at the end of the line under the next number; an idle queue starts to drain. -/
def submit (q : Queue τ ε) (task : τ) : Queue τ ε × Nat :=
  ({ q with
      waiting := q.waiting ++ [(q.nextId, task)], nextId := q.nextId + 1
      draining := true, idle := false }, q.nextId)

/-- The first task in line is started; with no task running or in line the drain is over. -/
def startNext (q : Queue τ ε) : Queue τ ε × Option (Nat × τ) :=
  match q.running, q.waiting with
  | some _, _ => (q, none)
  | none, [] => ({ q with draining := false, idle := true }, none)
  | none, task :: waiting => ({ q with waiting, running := some ⟨task.1, none⟩ }, some task)

/-- The running task has used up its time. -/
def expire (q : Queue τ ε) : Queue τ ε :=
  { q with running := q.running.map fun r => { r with expired := q.timeout } }

/-- The running task has stopped; its failure is kept if the policy says so. -/
def finish (q : Queue τ ε) (outcome : Option (TaskError ε)) : Queue τ ε :=
  match q.running with
  | none => q
  | some r =>
    let kept := match r.verdict outcome, q.policy with
      | some error, .record => [⟨r.task, error⟩]
      | _, _ => []
    { q with running := none, failures := q.failures ++ kept }

/-- The failures that were kept; they are not kept any longer. -/
def takeFailures (q : Queue τ ε) : Queue τ ε × List (TaskFailure ε) :=
  ({ q with failures := [] }, q.failures)

end Queue

end TexAnchor
