import Mathlib.Algebra.GroupWithZero.Nat
import Mathlib.Data.List.Basic
import TexAnchor.Queue.Basic

/-! # A queue at work

A `Workshop` is a queue seen from close by, with everything that goes on at the same time: the books,
which are only touched under a lock, the drains, each somewhere in its loop, and the tasks that have
been started.  `Workshop.Step` is one step of any of them or a call from outside, and nothing in it
keeps two drains from being at work or two tasks from being underway.

Whatever the order of the steps, tasks are started one at a time in the order of their submission
(`Workshop.Kept`, which every step keeps), the books are those that the operations of `Queue` keep
(`Workshop.Step.queue_eq`), and the queue can always get idle again (`Workshop.Runs.exists_idle`).
All of this together is `Workshop.Runs.single_flight`. -/

namespace TexAnchor.Queue

variable {τ ε : Type}

/-- Where a drain is in its loop. -/
inductive Drain (ε : Type)
  /-- It is about to look for the next task. -/
  | looking
  /-- It waits for a task that it has started, and may have told it to stop. -/
  | awaiting (r : Running)
  /-- It has seen how the task ended and is about to settle that. -/
  | settling (r : Running) (outcome : Option (TaskError ε))
deriving Repr

/-- How far a task has come that has been started. -/
inductive Progress (ε : Type)
  | underway
  /-- It has stopped, and its drain has not seen that yet. -/
  | ended (outcome : Option (TaskError ε))
deriving Repr

/-- A moment in the life of a task. -/
inductive Moment (τ : Type)
  | started (task : Nat × τ)
  | stopped (task : Nat)
deriving Repr

/-- A queue with its drains, its started tasks and what has become of them so far. -/
structure Workshop (τ ε : Type) where
  policy : FailurePolicy
  timeout : Option Nat
  waiting : List (Nat × τ)
  draining : Bool
  idle : Bool
  nextId : Nat
  failures : List (TaskFailure ε)
  drains : List (Drain ε)
  tasks : List (Nat × Progress ε)
  history : List (Moment τ)

/-- What can happen to a queue and its drains and tasks. -/
inductive Event (τ ε : Type)
  /-- A task is submitted, be it from outside or by a task that is underway. -/
  | submit (task : τ)
  /-- A drain looks for the next task. -/
  | look
  /-- The time of a task is up, and its drain tells it to stop. -/
  | expire
  /-- A task stops: it is done, has failed, has panicked or was aborted. -/
  | stop (task : Nat) (outcome : Option (TaskError ε))
  /-- A drain sees that its task has stopped. -/
  | join
  /-- A drain settles how its task ended. -/
  | settle (outcome : Option (TaskError ε))
  /-- The kept failures are taken. -/
  | take
deriving Repr

namespace Workshop

/-- A queue that nothing has happened to. -/
def opened (policy : FailurePolicy) (timeout : Option Nat) : Workshop τ ε :=
  ⟨policy, timeout, [], false, true, 0, [], [], [], []⟩

/-- One step of the queue, a drain or a task.  A drain is spawned by whoever submits a task while
nothing is drained; the rest of the loop is up to the drain that has got there. -/
inductive Step : Workshop τ ε → Event τ ε → Workshop τ ε → Prop
  | submit {s : Workshop τ ε} (task : τ) :
    Step s (.submit task) { s with
      waiting := s.waiting ++ [(s.nextId, task)]
      nextId := s.nextId + 1
      draining := true
      idle := if s.draining then s.idle else false
      drains := if s.draining then s.drains else s.drains ++ [.looking] }
  | start {s : Workshop τ ε} {before after : List (Drain ε)} {task : Nat × τ}
      {waiting : List (Nat × τ)} :
    s.drains = before ++ .looking :: after → s.waiting = task :: waiting →
    Step s .look { s with
      waiting
      drains := before ++ .awaiting ⟨task.1, none⟩ :: after
      tasks := s.tasks ++ [(task.1, .underway)]
      history := s.history ++ [.started task] }
  | rest {s : Workshop τ ε} {before after : List (Drain ε)} :
    s.drains = before ++ .looking :: after → s.waiting = [] →
    Step s .look { s with draining := false, idle := true, drains := before ++ after }
  | expire {s : Workshop τ ε} {before after : List (Drain ε)} {task limit : Nat} :
    s.drains = before ++ .awaiting ⟨task, none⟩ :: after → s.timeout = some limit →
    Step s .expire { s with drains := before ++ .awaiting ⟨task, some limit⟩ :: after }
  | stop {s : Workshop τ ε} {before after : List (Nat × Progress ε)} {task : Nat}
      (outcome : Option (TaskError ε)) :
    s.tasks = before ++ (task, .underway) :: after →
    Step s (.stop task outcome) { s with
      tasks := before ++ (task, .ended outcome) :: after
      history := s.history ++ [.stopped task] }
  | join {s : Workshop τ ε} {before after : List (Drain ε)} {r : Running}
      {first later : List (Nat × Progress ε)} {outcome : Option (TaskError ε)} :
    s.drains = before ++ .awaiting r :: after →
    s.tasks = first ++ (r.task, .ended outcome) :: later →
    Step s .join { s with
      drains := before ++ .settling r outcome :: after
      tasks := first ++ later }
  | settle {s : Workshop τ ε} {before after : List (Drain ε)} {r : Running}
      {outcome : Option (TaskError ε)} :
    s.drains = before ++ .settling r outcome :: after →
    Step s (.settle outcome) { s with
      drains := before ++ .looking :: after
      failures := s.failures ++ match r.verdict outcome, s.policy with
        | some error, .record => [⟨r.task, error⟩]
        | _, _ => [] }
  | take {s : Workshop τ ε} : Step s .take { s with failures := [] }

/-- What any sequence of steps leads to, with the events in their order. -/
inductive Runs (policy : FailurePolicy) (timeout : Option Nat) :
    List (Event τ ε) → Workshop τ ε → Prop
  | start : Runs policy timeout [] (opened policy timeout)
  | step {events : List (Event τ ε)} {event : Event τ ε} {s s' : Workshop τ ε} :
    Runs policy timeout events s → Step s event s' → Runs policy timeout (events ++ [event]) s'

end Workshop

/-! ### The order of tasks -/

/-- The task that an event submits. -/
def Event.submitted? : Event τ ε → Option τ
  | submit task => some task
  | _ => none

/-- The tasks that were submitted, in their order. -/
def submissions (events : List (Event τ ε)) : List τ :=
  events.filterMap Event.submitted?

/-- Tasks with the numbers `0`, `1`, `2`, … in their order. -/
def numbered (tasks : List τ) : List (Nat × τ) :=
  tasks.zipIdx.map Prod.swap

/-- The tasks one after another, each started after the one before it has stopped. -/
def turns (tasks : List (Nat × τ)) : List (Moment τ) :=
  tasks.flatMap fun task => [.started task, .stopped task.1]

theorem submissions_concat (events : List (Event τ ε)) (event : Event τ ε) :
    submissions (events ++ [event]) = submissions events ++ event.submitted?.toList := by
  cases event <;> simp [submissions, Event.submitted?]

theorem numbered_concat (tasks : List τ) (task : τ) :
    numbered (tasks ++ [task]) = numbered tasks ++ [(tasks.length, task)] := by
  simp [numbered, List.zipIdx_append]

theorem turns_concat (tasks : List (Nat × τ)) (task : Nat × τ) :
    turns (tasks ++ [task]) = turns tasks ++ [.started task] ++ [.stopped task.1] := by
  simp [turns]

theorem getElem?_numbered (tasks : List τ) (i : Nat) :
    (numbered tasks)[i]? = (tasks[i]?).map fun task => (i, task) := by
  simp [numbered, List.getElem?_zipIdx, Function.comp_def]

theorem map_snd_numbered (tasks : List τ) : (numbered tasks).map Prod.snd = tasks := by
  simp [numbered, Function.comp_def]

theorem mem_numbered {tasks : List τ} {number : Nat} {task : τ} :
    (number, task) ∈ numbered tasks ↔ tasks[number]? = some task := by
  rw [List.mem_iff_getElem?]
  simp only [getElem?_numbered, Option.map_eq_some_iff, Prod.mk.injEq]
  constructor
  · rintro ⟨i, _, hget, rfl, rfl⟩
    exact hget
  · exact fun hget => ⟨number, task, hget, rfl, rfl⟩

/-! ### What every step keeps -/

namespace Workshop

variable {s s' : Workshop τ ε} {submitted : List τ} {policy : FailurePolicy} {timeout : Option Nat}
  {events : List (Event τ ε)} {event : Event τ ε}

/-- The ways in which drains and started tasks stand; `begun` is the task that is underway. -/
inductive Stand : List (Drain ε) → List (Nat × Progress ε) → List (Nat × τ) → Prop
  | resting : Stand [] [] []
  | looking : Stand [.looking] [] []
  | underway (task : Nat × τ) (expired : Option Nat) :
    Stand [.awaiting ⟨task.1, expired⟩] [(task.1, .underway)] [task]
  | ended (r : Running) (outcome : Option (TaskError ε)) :
    Stand [.awaiting r] [(r.task, .ended outcome)] []
  | settling (r : Running) (outcome : Option (TaskError ε)) : Stand [.settling r outcome] [] []

/-- The tasks that have been started and have not stopped. -/
def underway (s : Workshop τ ε) : List Nat :=
  (s.tasks.filter fun task => task.2 matches .underway).map Prod.fst

/-- The state of a workshop in which some tasks were submitted; `done` are those that have stopped. -/
structure Kept (submitted : List τ) (s : Workshop τ ε) : Prop where
  nextId_eq : s.nextId = submitted.length
  idle_eq : s.idle = !s.draining
  draining_iff : s.draining = true ↔ s.drains ≠ []
  waiting_eq : s.drains = [] → s.waiting = []
  order : ∃ done begun, Stand s.drains s.tasks begun ∧
    done ++ begun ++ s.waiting = numbered submitted ∧
    s.history = turns done ++ begun.map .started

section Stand

variable {drains before after : List (Drain ε)} {tasks first later : List (Nat × Progress ε)}
  {begun : List (Nat × τ)} {d : Drain ε} {r : Running} {task : Nat} {progress : Progress ε}
  {outcome : Option (TaskError ε)}

theorem Stand.eq_nil (h : Stand (before ++ d :: after) tasks begun) : before = [] ∧ after = [] := by
  have hlength : (before ++ d :: after).length ≤ 1 := by
    generalize before ++ d :: after = drains at h
    cases h <;> simp
  simp only [List.length_append, List.length_cons] at hlength
  exact ⟨List.eq_nil_of_length_eq_zero (by omega), List.eq_nil_of_length_eq_zero (by omega)⟩

theorem Stand.tasks_eq_nil (h : Stand drains (first ++ (task, progress) :: later) begun) :
    first = [] ∧ later = [] := by
  have hlength : (first ++ (task, progress) :: later).length ≤ 1 := by
    generalize first ++ (task, progress) :: later = tasks at h
    cases h <;> simp
  simp only [List.length_append, List.length_cons] at hlength
  exact ⟨List.eq_nil_of_length_eq_zero (by omega), List.eq_nil_of_length_eq_zero (by omega)⟩

theorem Stand.of_resting (h : Stand [] tasks begun) : tasks = [] ∧ begun = [] := by
  cases h
  exact ⟨rfl, rfl⟩

theorem Stand.of_looking (h : Stand [.looking] tasks begun) : tasks = [] ∧ begun = [] := by
  cases h
  exact ⟨rfl, rfl⟩

theorem Stand.of_settling (h : Stand [.settling r outcome] tasks begun) :
    tasks = [] ∧ begun = [] := by
  cases h
  exact ⟨rfl, rfl⟩

theorem Stand.of_underway (h : Stand drains [(task, .underway)] begun) :
    ∃ body expired, begun = [(task, body)] ∧ drains = [.awaiting ⟨task, expired⟩] := by
  cases h with
  | underway task expired => exact ⟨task.2, expired, rfl, rfl⟩

theorem Stand.expire {expired : Option Nat} (h : Stand [.awaiting ⟨task, expired⟩] tasks begun)
    (limit : Option Nat) : Stand [.awaiting ⟨task, limit⟩] tasks begun := by
  cases h with
  | underway task expired => exact .underway task limit
  | ended _ outcome => exact .ended ⟨task, limit⟩ outcome

theorem Stand.of_ended (h : Stand drains [(task, .ended outcome)] begun) : begun = [] := by
  cases h
  rfl

end Stand

theorem kept_opened (policy : FailurePolicy) (timeout : Option Nat) :
    Kept [] (opened policy timeout : Workshop τ ε) where
  nextId_eq := rfl
  idle_eq := rfl
  draining_iff := by simp [opened]
  waiting_eq _ := rfl
  order := ⟨[], [], .resting, rfl, rfl⟩

/-- A submission puts the task in line, and spawns a drain if there is none. -/
theorem Kept.submit (h : Kept submitted s) {task : τ} (hstep : Step s (.submit task) s') :
    Kept (submitted ++ [task]) s' := by
  obtain ⟨done, begun, hstand, hwaiting, hhistory⟩ := h.order
  have hnumbered : done ++ begun ++ (s.waiting ++ [(s.nextId, task)]) =
      numbered (submitted ++ [task]) := by
    rw [numbered_concat, ← hwaiting, h.nextId_eq]
    simp
  cases hstep
  cases hdraining : s.draining with
  | true =>
    have hdrains := h.draining_iff.mp hdraining
    refine ⟨by simp [h.nextId_eq], ?_, ?_, fun hnone => absurd hnone hdrains,
      done, begun, hstand, hnumbered, hhistory⟩
    · simp [h.idle_eq, hdraining]
    · simpa using hdrains
  | false =>
    have hdrains : s.drains = [] := by
      by_contra hne
      rw [h.draining_iff.mpr hne] at hdraining
      cases hdraining
    rw [hdrains] at hstand
    obtain ⟨htasks, rfl⟩ := hstand.of_resting
    refine ⟨by simp [h.nextId_eq], by simp, by simp, by simp, done, [], ?_, hnumbered, hhistory⟩
    simp only [hdrains, htasks]
    exact .looking

theorem Kept.look (h : Kept submitted s) (hstep : Step s .look s') : Kept submitted s' := by
  obtain ⟨done, begun, hstand, hwaiting, hhistory⟩ := h.order
  cases hstep with
  | @start before after task waiting hdrains hline =>
    have hdraining := h.draining_iff.mpr (by simp [hdrains])
    rw [hdrains] at hstand
    obtain ⟨rfl, rfl⟩ := hstand.eq_nil
    obtain ⟨htasks, rfl⟩ := hstand.of_looking
    refine ⟨h.nextId_eq, h.idle_eq, by simp [hdraining], by simp, done, [task], ?_, ?_, ?_⟩
    · rw [htasks]
      exact .underway task none
    · rw [hline] at hwaiting
      simpa using hwaiting
    · simp [hhistory]
  | rest hdrains hline =>
    rw [hdrains] at hstand
    obtain ⟨rfl, rfl⟩ := hstand.eq_nil
    obtain ⟨htasks, rfl⟩ := hstand.of_looking
    refine ⟨h.nextId_eq, rfl, by simp, fun _ => hline, done, [], ?_, hwaiting, hhistory⟩
    rw [htasks]
    exact .resting

theorem Kept.expire (h : Kept submitted s) (hstep : Step s .expire s') : Kept submitted s' := by
  obtain ⟨done, begun, hstand, hwaiting, hhistory⟩ := h.order
  cases hstep with
  | @expire before after task limit hdrains htimeout =>
    have hdraining := h.draining_iff.mpr (by simp [hdrains])
    rw [hdrains] at hstand
    obtain ⟨rfl, rfl⟩ := hstand.eq_nil
    exact ⟨h.nextId_eq, h.idle_eq, by simp [hdraining], by simp, done, begun,
      hstand.expire (some limit), hwaiting, hhistory⟩

theorem Kept.stop (h : Kept submitted s) {task : Nat} {outcome : Option (TaskError ε)}
    (hstep : Step s (.stop task outcome) s') : Kept submitted s' := by
  obtain ⟨done, begun, hstand, hwaiting, hhistory⟩ := h.order
  cases hstep with
  | @stop first later _ _ htasks =>
    rw [htasks] at hstand
    obtain ⟨rfl, rfl⟩ := hstand.tasks_eq_nil
    obtain ⟨body, expired, rfl, hdrains⟩ := hstand.of_underway
    refine ⟨h.nextId_eq, h.idle_eq, h.draining_iff, h.waiting_eq, done ++ [(task, body)], [],
      ?_, ?_, ?_⟩
    · rw [hdrains]
      exact .ended _ outcome
    · simpa using hwaiting
    · simp [hhistory, turns_concat]

theorem Kept.join (h : Kept submitted s) (hstep : Step s .join s') : Kept submitted s' := by
  obtain ⟨done, begun, hstand, hwaiting, hhistory⟩ := h.order
  cases hstep with
  | @join before after r first later outcome hdrains htasks =>
    have hdraining := h.draining_iff.mpr (by simp [hdrains])
    rw [hdrains, htasks] at hstand
    obtain ⟨rfl, rfl⟩ := hstand.eq_nil
    obtain ⟨rfl, rfl⟩ := hstand.tasks_eq_nil
    obtain rfl := hstand.of_ended
    exact ⟨h.nextId_eq, h.idle_eq, by simp [hdraining], by simp, done, [], .settling r outcome,
      hwaiting, hhistory⟩

theorem Kept.settle (h : Kept submitted s) {outcome : Option (TaskError ε)}
    (hstep : Step s (.settle outcome) s') : Kept submitted s' := by
  obtain ⟨done, begun, hstand, hwaiting, hhistory⟩ := h.order
  cases hstep with
  | @settle before after r _ hdrains =>
    have hdraining := h.draining_iff.mpr (by simp [hdrains])
    rw [hdrains] at hstand
    obtain ⟨rfl, rfl⟩ := hstand.eq_nil
    obtain ⟨htasks, rfl⟩ := hstand.of_settling
    refine ⟨h.nextId_eq, h.idle_eq, by simp [hdraining], by simp, done, [], ?_, hwaiting, hhistory⟩
    rw [htasks]
    exact .looking

/-- One step keeps the state, whatever the step is. -/
theorem Kept.step (h : Kept submitted s) (hstep : Step s event s') :
    Kept (submitted ++ event.submitted?.toList) s' := by
  cases event with
  | submit task => exact h.submit hstep
  | look => simpa [Event.submitted?] using h.look hstep
  | expire => simpa [Event.submitted?] using h.expire hstep
  | stop task outcome => simpa [Event.submitted?] using h.stop hstep
  | join => simpa [Event.submitted?] using h.join hstep
  | settle outcome => simpa [Event.submitted?] using h.settle hstep
  | take =>
    cases hstep
    simpa [Event.submitted?] using ⟨h.nextId_eq, h.idle_eq, h.draining_iff, h.waiting_eq, h.order⟩

theorem Runs.kept (h : Runs policy timeout events s) : Kept (submissions events) s := by
  induction h with
  | start => exact kept_opened policy timeout
  | step _ hstep ih =>
    rw [submissions_concat]
    exact ih.step hstep

/-! ### Tasks by their numbers -/

/-- How many tasks have stopped. -/
def stopped (s : Workshop τ ε) : Nat :=
  s.history.countP fun moment => moment matches .stopped _

theorem countP_turns (tasks begun : List (Nat × τ)) :
    (turns tasks ++ begun.map Moment.started).countP (fun moment : Moment τ => moment matches .stopped _) =
      tasks.length := by
  have hbegun : (begun.map Moment.started).countP
      (fun moment : Moment τ => moment matches .stopped _) = 0 := by
    simp
  rw [List.countP_append, hbegun, Nat.add_zero]
  induction tasks with
  | nil => rfl
  | cons task tasks ih => simpa [turns] using ih

/-- What is started is what was submitted under the number. -/
theorem Kept.getElem?_of_started (h : Kept submitted s) {task : Nat × τ}
    (hstarted : .started task ∈ s.history) : submitted[task.1]? = some task.2 := by
  obtain ⟨done, begun, -, hline, hhistory⟩ := h.order
  refine mem_numbered.mp (hline ▸ List.mem_append_left _ ?_)
  rw [hhistory, List.mem_append] at hstarted
  rcases hstarted with hdone | hbegun
  · obtain ⟨_, hmem, heq⟩ := List.mem_flatMap.mp hdone
    obtain rfl : task = _ := by simpa using heq
    exact List.mem_append_left _ hmem
  · obtain ⟨_, hmem, heq⟩ := List.mem_map.mp hbegun
    cases heq
    exact List.mem_append_right _ hmem

/-- The task that stops is the one after those that have stopped. -/
theorem Kept.stop_eq (h : Kept submitted s) {task : Nat} {outcome : Option (TaskError ε)}
    (hstep : Step s (.stop task outcome) s') : task = s.stopped ∧ s'.stopped = s.stopped + 1 := by
  obtain ⟨done, begun, hstand, hline, hhistory⟩ := h.order
  cases hstep with
  | @stop first later _ _ htasks =>
    rw [htasks] at hstand
    obtain ⟨rfl, rfl⟩ := hstand.tasks_eq_nil
    obtain ⟨body, expired, rfl, -⟩ := hstand.of_underway
    have hnumber : (numbered submitted)[done.length]? = some (task, body) := by
      rw [← hline]
      simp
    rw [getElem?_numbered, Option.map_eq_some_iff] at hnumber
    obtain ⟨_, -, heq⟩ := hnumber
    refine ⟨?_, by simp [stopped]⟩
    rw [stopped, hhistory, countP_turns]
    exact (congrArg Prod.fst heq).symm

theorem Step.stopped_eq (hstep : Step s event s') (hother : ∀ task outcome, event ≠ .stop task outcome) :
    s'.stopped = s.stopped := by
  cases hstep with
  | stop outcome _ => exact absurd rfl (hother _ outcome)
  | start => simp [stopped]
  | _ => rfl

/-- A task is told to stop after the time that the queue allows. -/
def Punctual (timeout : Option Nat) (d : Drain ε) : Prop :=
  ∀ r, d = .awaiting r → ∀ limit ∈ r.expired, timeout = some limit

theorem forall_mem_put {P : Drain ε → Prop} {before after : List (Drain ε)} {old new : Drain ε}
    (h : ∀ d ∈ before ++ old :: after, P d) (hnew : P new) : ∀ d ∈ before ++ new :: after, P d := by
  rw [List.forall_mem_append, List.forall_mem_cons] at h ⊢
  exact ⟨h.1, hnew, h.2.2⟩

theorem Runs.punctual (h : Runs policy timeout events s) : s.timeout = timeout ∧
    ∀ d ∈ s.drains, Punctual timeout d := by
  induction h with
  | start => simp [opened]
  | step _ hstep ih =>
    obtain ⟨htimeout, hdrains⟩ := ih
    cases hstep with
    | submit task =>
      refine ⟨htimeout, ?_⟩
      simp only
      split
      · exact hdrains
      · exact List.forall_mem_append.mpr ⟨hdrains, by simp [Punctual]⟩
    | start hlooking _ => exact ⟨htimeout, forall_mem_put (hlooking ▸ hdrains) (by simp [Punctual])⟩
    | rest hlooking _ =>
      rw [hlooking, List.forall_mem_append, List.forall_mem_cons] at hdrains
      exact ⟨htimeout, List.forall_mem_append.mpr ⟨hdrains.1, hdrains.2.2⟩⟩
    | expire hawaiting hlimited =>
      refine ⟨htimeout, forall_mem_put (hawaiting ▸ hdrains) ?_⟩
      rintro _ ⟨⟩ limit hlimit
      exact (htimeout.symm.trans hlimited).trans hlimit
    | stop outcome _ => exact ⟨htimeout, hdrains⟩
    | join hawaiting _ => exact ⟨htimeout, forall_mem_put (hawaiting ▸ hdrains) (by simp [Punctual])⟩
    | settle hsettling => exact ⟨htimeout, forall_mem_put (hsettling ▸ hdrains) (by simp [Punctual])⟩
    | take => exact ⟨htimeout, hdrains⟩

end Workshop

/-! ### The books -/

/-- The task that a drain has started and not yet settled. -/
def Drain.running? : Drain ε → Option Running
  | looking => none
  | awaiting r => some r
  | settling r _ => some r

/-- What an event does to the books of a queue. -/
def perform (q : Queue τ ε) : Event τ ε → Queue τ ε
  | .submit task => (q.submit task).1
  | .look => q.startNext.1
  | .expire => q.expire
  | .settle outcome => q.finish outcome
  | .take => q.takeFailures.1
  | .stop _ _ | .join => q

namespace Workshop

/-- The books of the queue. -/
def queue (s : Workshop τ ε) : Queue τ ε :=
  ⟨s.policy, s.timeout, s.waiting, s.drains.findSome? Drain.running?, s.draining, s.idle, s.nextId,
    s.failures⟩

variable {s s' : Workshop τ ε} {submitted : List τ} {policy : FailurePolicy} {timeout : Option Nat}
  {events : List (Event τ ε)} {event : Event τ ε}

/-- What a step does to the books is what the operation of the queue does. -/
theorem Step.queue_eq (hstep : Step s event s') (h : Kept submitted s) :
    s'.queue = s.queue.perform event := by
  obtain ⟨done, begun, hstand, -, -⟩ := h.order
  cases hstep with
  | submit task =>
    cases hdraining : s.draining with
    | true => simp [queue, perform, Queue.submit, h.idle_eq, hdraining]
    | false =>
      have hdrains : s.drains = [] := by
        by_contra hne
        rw [h.draining_iff.mpr hne] at hdraining
        cases hdraining
      simp [queue, perform, Queue.submit, hdrains, hdraining, Drain.running?]
  | start hdrains hline =>
    rw [hdrains] at hstand
    obtain ⟨rfl, rfl⟩ := hstand.eq_nil
    simp [queue, perform, startNext, hdrains, hline, Drain.running?]
  | rest hdrains hline =>
    rw [hdrains] at hstand
    obtain ⟨rfl, rfl⟩ := hstand.eq_nil
    simp [queue, perform, startNext, hdrains, hline, Drain.running?]
  | expire hdrains htimeout =>
    rw [hdrains] at hstand
    obtain ⟨rfl, rfl⟩ := hstand.eq_nil
    simp [queue, perform, Queue.expire, hdrains, htimeout, Drain.running?]
  | stop outcome htasks => rfl
  | join hdrains htasks =>
    rw [hdrains] at hstand
    obtain ⟨rfl, rfl⟩ := hstand.eq_nil
    simp [queue, perform, hdrains, Drain.running?]
  | settle hdrains =>
    rw [hdrains] at hstand
    obtain ⟨rfl, rfl⟩ := hstand.eq_nil
    simp only [queue, perform, finish, hdrains, List.nil_append, List.findSome?_cons,
      Drain.running?]
    rfl
  | take => rfl

/-- The books are at every moment what the operations of the queue have made of them. -/
theorem Runs.queue_eq (h : Runs policy timeout events s) :
    s.queue = events.foldl perform (initial policy timeout) := by
  induction h with
  | start => rfl
  | step hruns hstep ih => rw [List.foldl_concat, ← ih, hstep.queue_eq hruns.kept]

/-! ### Getting idle -/

/-- How many steps a drain is away from its end, once its task has stopped and none is waiting. -/
def distance : Drain ε → Nat
  | .looking => 1
  | .settling _ _ => 2
  | .awaiting _ => 3

/-- How many steps there are to be made until the queue is idle, if none is submitted. -/
def remaining (s : Workshop τ ε) : Nat :=
  4 * s.waiting.length + (s.drains.map distance).sum + s.underway.length

/-- While there is a drain there is a step that brings the queue closer to being idle. -/
theorem Kept.exists_step (h : Kept submitted s) (hdraining : s.draining = true) :
    ∃ event s', Step s event s' ∧ event.submitted? = none ∧ s'.remaining < s.remaining := by
  obtain ⟨done, begun, hstand, -, -⟩ := h.order
  have hsome := h.draining_iff.mp hdraining
  generalize hdrains : s.drains = drains at hstand hsome
  generalize htasks : s.tasks = tasks at hstand
  rw [← List.nil_append drains] at hdrains
  rw [← List.nil_append tasks] at htasks
  cases hstand with
  | resting => exact absurd rfl hsome
  | looking =>
    cases hline : s.waiting with
    | nil =>
      refine ⟨.look, _, .rest hdrains hline, rfl, ?_⟩
      simp [remaining, Workshop.underway, hdrains, htasks, distance]
    | cons task waiting =>
      refine ⟨.look, _, .start hdrains hline, rfl, ?_⟩
      simp [remaining, Workshop.underway, hdrains, htasks, hline, distance]
      omega
  | underway task expired =>
    refine ⟨.stop task.1 none, _, .stop none htasks, rfl, ?_⟩
    simp [remaining, Workshop.underway, hdrains, htasks]
  | ended r outcome =>
    refine ⟨.join, _, .join hdrains htasks, rfl, ?_⟩
    simp [remaining, Workshop.underway, hdrains, htasks, distance]
  | settling r outcome =>
    refine ⟨.settle outcome, _, .settle hdrains, rfl, ?_⟩
    simp [remaining, Workshop.underway, hdrains, htasks, distance]

/-- From wherever it is, the queue can get idle without another submission. -/
theorem Runs.exists_idle (h : Runs policy timeout events s) :
    ∃ later s', submissions later = [] ∧ Runs policy timeout (events ++ later) s' ∧
      s'.draining = false := by
  induction hn : s.remaining using Nat.strongRecOn generalizing events s with
  | ind n ih =>
    cases hdraining : s.draining with
    | false => exact ⟨[], s, rfl, by simpa using h, hdraining⟩
    | true =>
      obtain ⟨event, next, hstep, hnone, hlt⟩ := h.kept.exists_step hdraining
      obtain ⟨later, s', hlater, hruns, hidle⟩ := ih next.remaining (hn ▸ hlt) (h.step hstep) rfl
      refine ⟨event :: later, s', ?_, by simpa using hruns, hidle⟩
      simpa [submissions, hnone] using hlater

/-! ### Single flight -/

theorem Stand.underway_eq {begun : List (Nat × τ)} (h : Stand s.drains s.tasks begun) :
    s.underway = begun.map Prod.fst := by
  unfold Workshop.underway
  generalize s.drains = drains at h
  generalize s.tasks = tasks at h
  cases h <;> rfl

theorem Stand.length_le {drains : List (Drain ε)} {tasks : List (Nat × Progress ε)}
    {begun : List (Nat × τ)} (h : Stand drains tasks begun) :
    drains.length ≤ 1 ∧ begun.length ≤ 1 := by
  cases h <;> simp

/-- Without a drain nothing is waiting or running, and all that was submitted has had its turn. -/
theorem Kept.resting (h : Kept submitted s) (hdraining : s.draining = false) :
    s.waiting = [] ∧ s.tasks = [] ∧ s.history = turns (numbered submitted) := by
  obtain ⟨done, begun, hstand, hwaiting, hhistory⟩ := h.order
  have hdrains : s.drains = [] := by
    by_contra hne
    rw [h.draining_iff.mpr hne] at hdraining
    cases hdraining
  rw [hdrains] at hstand
  obtain ⟨htasks, rfl⟩ := hstand.of_resting
  have hline := h.waiting_eq hdrains
  refine ⟨hline, htasks, ?_⟩
  rw [hline, List.append_nil, List.append_nil] at hwaiting
  simpa [hwaiting] using hhistory

/-- Whatever the order in which tasks are submitted, drains go on, and tasks stop or are told to
stop: tasks are numbered in the order of their submission, and started in that order and one at a
time, each when the one before it has stopped; there is at most one drain, and the queue says that it
is idle exactly when there is none; then no task is waiting or running, and every task that was
submitted has been started once and has stopped.  The books are kept by the operations of `Queue`,
and the queue can always get idle. -/
theorem Runs.single_flight (h : Runs policy timeout events s) :
    (∃ done begun, s.history = turns done ++ begun.map .started ∧
      begun.length ≤ 1 ∧ s.underway = begun.map Prod.fst ∧
      done ++ begun ++ s.waiting = numbered (submissions events)) ∧
    s.nextId = (submissions events).length ∧
    s.drains.length ≤ 1 ∧ (s.draining = true ↔ s.drains ≠ []) ∧ s.idle = !s.draining ∧
    (s.draining = false → s.waiting = [] ∧ s.tasks = [] ∧
      s.history = turns (numbered (submissions events))) ∧
    s.queue = events.foldl perform (initial policy timeout) ∧
    ∃ later s', submissions later = [] ∧ Runs policy timeout (events ++ later) s' ∧
      s'.idle = true := by
  have hkept := h.kept
  obtain ⟨done, begun, hstand, hwaiting, hhistory⟩ := hkept.order
  obtain ⟨hdrains, hbegun⟩ := hstand.length_le
  obtain ⟨later, s', hlater, hruns, hdraining⟩ := h.exists_idle
  refine ⟨⟨done, begun, hhistory, hbegun, hstand.underway_eq, hwaiting⟩, hkept.nextId_eq, hdrains,
    hkept.draining_iff, hkept.idle_eq, hkept.resting, h.queue_eq, later, s', hlater, hruns, ?_⟩
  rw [hruns.kept.idle_eq, hdraining]
  rfl

/-- A task submits another one and is told to stop; the other one is started when it has stopped. -/
theorem Runs.single_flight_expired :
    ∃ s : Workshop String String, Runs .record (some 10) [.submit "a", .look, .submit "b", .expire,
        .stop 0 (some .cancelled), .join, .settle (some .cancelled), .look] s ∧
      s.history = [.started (0, "a"), .stopped 0, .started (1, "b")] ∧
      s.queue.failures = [⟨0, .timedOut 10⟩] ∧
      s.drains.length ≤ 1 ∧ s.idle = !s.draining := by
  have alone {α : Type} (a : α) : [a] = [] ++ a :: [] := rfl
  have hopened : Runs .record (some 10) [] (opened .record (some 10) : Workshop String String) :=
    .start
  have hruns := hopened.step (.submit "a") |>.step (.start (alone _) rfl)
    |>.step (.submit "b") |>.step (.expire (alone _) rfl)
    |>.step (.stop (some .cancelled) (alone _)) |>.step (.join (alone _) (alone _))
    |>.step (.settle (alone _)) |>.step (.start (alone _) rfl)
  obtain ⟨-, -, hdrains, -, hidle, -⟩ := hruns.single_flight
  exact ⟨_, hruns, rfl, rfl, hdrains, hidle⟩

end Workshop

end TexAnchor.Queue
