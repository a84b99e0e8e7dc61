import TexAnchor.Queue.Basic

/-! # Draining a queue

A drain runs the waiting tasks one after another.  What a task does is given by a function on some
state `σ`, which may also see the queue and submit more tasks to it.

* `Queue.drainStep` — one task is run, or the drain ends;
* `Queue.drain` — as many steps as it takes until the queue is idle, up to a bound.

How a task fares with the time that the queue allows is up to the clock (`Queue.Timing`).  On a clock
that stands still while tasks run, only a queue that allows no time at all is too late for a task
(`Queue.stillTiming`); this is the clock of a drain. -/

namespace TexAnchor.Queue

variable {σ τ ε : Type}

/-- What a task does to the state and to its queue, and how it ended: without error or with one. -/
abbrev Runner (σ τ ε : Type) := τ → σ × Queue τ ε → (σ × Queue τ ε) × Option (TaskError ε)

/-- How a task fares with the time that it is allowed. -/
inductive Timing
  /-- It stops before the time is up. -/
  | inTime
  /-- It does all that it does, but by then the time is up. -/
  | late
  /-- The time is up before it has done anything. -/
  | skipped
deriving DecidableEq, Repr

/-- A task that has been started runs until it stops or is told to. -/
def runTask (run : Runner σ τ ε) (timing : Timing) (task : τ) (s : σ × Queue τ ε) : σ × Queue τ ε :=
  let ((state, q), outcome) :=
    match timing with
    | .inTime => run task s
    | .late =>
      let ((state, q), outcome) := run task s
      ((state, q.expire), outcome)
    | .skipped => ((s.1, s.2.expire), some .cancelled)
  (state, q.finish outcome)

/-- The first task in line is run; with no task in line the drain is over. -/
def drainStep (run : Runner σ τ ε) (timing : Timing) (s : σ × Queue τ ε) : σ × Queue τ ε :=
  match s.2.startNext with
  | (q, some task) => runTask run timing task.2 (s.1, q)
  | (q, none) => (s.1, q)

/-- How tasks fare on a clock that stands still while they run. -/
def stillTiming (q : Queue τ ε) : Timing :=
  if q.timeout = some 0 then .skipped else .inTime

/-- At most a number of steps on a clock that stands still, until the queue is idle. -/
def drain (run : Runner σ τ ε) : Nat → σ × Queue τ ε → σ × Queue τ ε
  | 0, s => s
  | steps + 1, s => if s.2.isIdle then s else drain run steps (drainStep run s.2.stillTiming s)

end TexAnchor.Queue
