import TexAnchor.Queue.Drain

/-! # Scripted tasks

A `Script` is a task written down step by step, with a clock that only moves while a task sleeps.
Running scripts on a queue shows in which order tasks run, what they see of the queue, and how they
are stopped when they sleep for longer than the queue allows. -/

namespace TexAnchor

/-- A step of a scripted task; `ν` are the values it can log. -/
inductive ScriptStep (ν : Type)
  | log (value : ν)
  | yield
  | sleep (milliseconds : Nat)
  /-- Another task is submitted to the queue. -/
  | submit (task : List (ScriptStep ν))
  /-- The state of the queue is logged. -/
  | state
  /-- The kept failures are taken and logged. -/
  | take
  | fail (error : String)
  | cancel
  | panic (report : String)
deriving Repr

/-- A task written down step by step. -/
abbrev Script (ν : Type) := List (ScriptStep ν)

/-- What a scripted task leaves in the log. -/
inductive ScriptEntry (ν : Type)
  | value (value : ν)
  | submitted (task : Nat)
  | state (idle : Bool) (pending : Nat)
  | took (failures : List (TaskFailure String))
deriving Repr

/-- The surroundings of scripted tasks: the time in milliseconds and the log. -/
structure Stage (ν : Type) where
  clock : Nat
  log : List (ScriptEntry ν)
deriving Repr

namespace Script

variable {ν : Type}

/-- The queue of scripted tasks. -/
abbrev Line (ν : Type) := Queue (Script ν) String

mutual

/-- The number of tasks that a step submits, and those submit in turn. -/
def submissions : ScriptStep ν → Nat
  | .submit task => taskCount task + 1
  | _ => 0

/-- The number of tasks that a script submits, and those submit in turn. -/
def taskCount : List (ScriptStep ν) → Nat
  | [] => 0
  | step :: steps => submissions step + taskCount steps

end

/-- One more entry in the log. -/
def note (stage : Stage ν) (entry : ScriptEntry ν) : Stage ν :=
  { stage with log := stage.log ++ [entry] }

/-- The steps of a task that has slept for some time already. -/
def runSteps (slept : Nat) : Script ν → Stage ν × Line ν →
    (Stage ν × Line ν) × Option (TaskError String)
  | [], s => (s, none)
  | step :: steps, (stage, q) =>
    match step with
    | .log value => runSteps slept steps (note stage (.value value), q)
    | .yield => runSteps slept steps (stage, q)
    | .sleep milliseconds =>
      let total := slept + milliseconds
      match q.timeout with
      | some limit =>
        if limit < total then
          (({ stage with clock := stage.clock + (limit - slept) }, q.expire), some .cancelled)
        else runSteps total steps ({ stage with clock := stage.clock + milliseconds }, q)
      | none => runSteps total steps ({ stage with clock := stage.clock + milliseconds }, q)
    | .submit task =>
      let (q, id) := q.submit task
      runSteps slept steps (note stage (.submitted id), q)
    | .state => runSteps slept steps (note stage (.state q.isIdle q.pending), q)
    | .take =>
      let (q, failures) := q.takeFailures
      runSteps slept steps (note stage (.took failures), q)
    | .fail error => ((stage, q), some (.failed error))
    | .cancel => ((stage, q), some .cancelled)
    | .panic report => ((stage, q), some (.panicked report))

/-- All tasks are run until the queue is idle. -/
def waitIdle (s : Stage ν × Line ν) : Stage ν × Line ν :=
  let tasks := s.2.waiting.foldl (fun total task => total + (taskCount task.2 + 1)) 0
  Queue.drain (runSteps 0) (tasks + 1) s

end Script

end TexAnchor
