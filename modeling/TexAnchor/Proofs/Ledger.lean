import Mathlib.Data.List.Induction
import TexAnchor.Proofs.SingleFlight

/-! # The ledger of failures

What becomes of the failures of a queue can be read off the events alone: how every task has ended
(`endings`), which tasks were still awaited when their time was up (`overdue`), and what the calls of
`Queue.takeFailures` have returned (`taken`).

At every moment the last task that has stopped may wait for its drain to settle how it ended
(`Workshop.Phase`).  Of all the others the failures are taken or held, each once and in the order in
which the tasks ran, if the queue keeps failures at all (`Workshop.Balanced`, which every step keeps).
However a task ends, the next one is started after a bounded number of steps
(`Workshop.Runs.started_of_le`).  All of this together is `Workshop.Runs.ledger_exact`. -/

namespace TexAnchor.Queue

variable {τ ε α : Type}

/-! ### What the events say -/

/-- The task that has ended with an event, and how it ended by itself. -/
def Event.ending? : Event τ ε → Option (Nat × Option (TaskError ε))
  | stop task outcome => some (task, outcome)
  | _ => none

/-- The tasks that have ended, in their order. -/
def endings (events : List (Event τ ε)) : List (Nat × Option (TaskError ε)) :=
  events.filterMap Event.ending?

/-- What is noted of some events one after the other, given the books before each of them. -/
def notes (note : Queue τ ε → Event τ ε → List α) (q : Queue τ ε) : List (Event τ ε) → List α
  | [] => []
  | event :: events => note q event ++ notes note (q.perform event) events

/-- What each call of `Queue.takeFailures` has returned. -/
def taken (policy : FailurePolicy) (timeout : Option Nat) (events : List (Event τ ε)) :
    List (List (TaskFailure ε)) :=
  notes (fun q event => if event matches .take then [q.takeFailures.2] else [])
    (initial policy timeout) events

/-- The tasks that were awaited when their time was up. -/
def overdue (policy : FailurePolicy) (timeout : Option Nat) (events : List (Event τ ε)) : List Nat :=
  notes (fun q event => if event matches .expire then (q.running.map Running.task).toList else [])
    (initial policy timeout) events

/-- What the end of a task is to be reported as, if it is a failure: a task that was overdue has timed
out, and any other one has failed with its own error. -/
def failure? (timeout : Option Nat) (late : List Nat) :
    Nat × Option (TaskError ε) → Option (TaskFailure ε)
  | (task, outcome) =>
    ((if task ∈ late then timeout.map .timedOut else none).or outcome).map fun error => ⟨task, error⟩

/-- With the event a drain or the task that it waits for gets further. -/
def Event.advances : Event τ ε → Bool
  | look | stop _ _ | join | settle _ => true
  | submit _ | expire | take => false

theorem endings_concat (events : List (Event τ ε)) (event : Event τ ε) :
    endings (events ++ [event]) = endings events ++ event.ending?.toList := by
  cases event <;> simp [endings, Event.ending?]

theorem notes_concat (note : Queue τ ε → Event τ ε → List α) (q : Queue τ ε)
    (events : List (Event τ ε)) (event : Event τ ε) :
    notes note q (events ++ [event]) = notes note q events ++ note (events.foldl perform q) event := by
  induction events generalizing q with
  | nil => simp [notes]
  | cons first events ih => simp [notes, ih]

section Concat

variable (policy : FailurePolicy) (timeout : Option Nat) (events : List (Event τ ε))
  (event : Event τ ε)

theorem endings_concat_of_none (h : event.ending? = none) :
    endings (events ++ [event]) = endings events := by
  rw [endings_concat, h, Option.toList_none, List.append_nil]

theorem taken_concat_of_ne (h : event ≠ .take) :
    taken policy timeout (events ++ [event]) = taken policy timeout events := by
  rw [taken, notes_concat, taken]
  cases event <;> simp_all

theorem overdue_concat_of_ne (h : event ≠ .expire) :
    overdue policy timeout (events ++ [event]) = overdue policy timeout events := by
  rw [overdue, notes_concat, overdue]
  cases event <;> simp_all

end Concat

theorem filterMap_failure?_concat (timeout : Option Nat) (late : List Nat)
    {ended : List (Nat × Option (TaskError ε))} {task : Nat} (h : task ∉ ended.map Prod.fst) :
    ended.filterMap (failure? timeout (late ++ [task])) = ended.filterMap (failure? timeout late) := by
  refine List.filterMap_congr fun ending hending => ?_
  have hne : ending.1 ≠ task := fun heq => h (heq ▸ List.mem_map_of_mem hending)
  simp [failure?, hne]

theorem failures_finish (q : Queue τ ε) {r : Running} (hr : q.running = some r)
    {timeout : Option Nat} {late : List Nat}
    (hexpired : r.expired = if r.task ∈ late then timeout else none)
    (outcome : Option (TaskError ε)) : (q.finish outcome).failures = q.failures ++
      if q.policy = .record then (failure? timeout late (r.task, outcome)).toList else [] := by
  have hverdict : r.verdict outcome =
      (if r.task ∈ late then timeout.map .timedOut else none).or outcome := by
    rw [Running.verdict, hexpired]
    by_cases hlate : r.task ∈ late <;> cases timeout <;> simp [hlate]
  rw [finish, hr]
  simp only [failure?, ← hverdict]
  cases r.verdict outcome <;> cases q.policy <;> simp

namespace Workshop

variable {s s' : Workshop τ ε} {submitted : List τ} {policy : FailurePolicy} {timeout : Option Nat}
  {events : List (Event τ ε)} {event : Event τ ε} {late : List Nat} {count : Nat}
  {read unread : List (Nat × Option (TaskError ε))}

/-! ### Settled and unsettled ends -/

/-- The tasks that have stopped and whose drain has not settled that. -/
def unsettled (s : Workshop τ ε) : List Nat :=
  (s.tasks.filter fun task => task.2 matches .ended _).map Prod.fst ++
    s.drains.filterMap fun drain => match drain with
      | .settling r _ => some r.task
      | _ => none

/-- How far a queue is that has settled the ends of its first `count` tasks.  A drain knows that the
time of its task is up exactly if the task is overdue, and `unread` is the end that it has yet to
settle. -/
inductive Phase (timeout : Option Nat) (late : List Nat) (count : Nat) :
    List (Drain ε) → List (Nat × Progress ε) → List (Nat × Option (TaskError ε)) → Prop
  | resting : (∀ task ∈ late, task < count) → Phase timeout late count [] [] []
  | looking : (∀ task ∈ late, task < count) → Phase timeout late count [.looking] [] []
  | underway {expired : Option Nat} : (∀ task ∈ late, task ≤ count) →
    expired = (if count ∈ late then timeout else none) →
    Phase timeout late count [.awaiting ⟨count, expired⟩] [(count, .underway)] []
  | ended {expired : Option Nat} (outcome : Option (TaskError ε)) : (∀ task ∈ late, task ≤ count) →
    expired = (if count ∈ late then timeout else none) →
    Phase timeout late count [.awaiting ⟨count, expired⟩] [(count, .ended outcome)]
      [(count, outcome)]
  | settling {expired : Option Nat} (outcome : Option (TaskError ε)) :
    (∀ task ∈ late, task ≤ count) → expired = (if count ∈ late then timeout else none) →
    Phase timeout late count [.settling ⟨count, expired⟩ outcome] [] [(count, outcome)]

theorem Phase.unsettled_eq (h : Phase timeout late count s.drains s.tasks unread) :
    unread.map Prod.fst = s.unsettled ∧ unread.length ≤ 1 := by
  unfold unsettled
  generalize s.drains = drains at h
  generalize s.tasks = tasks at h
  cases h <;> simp

theorem Phase.expire {tasks : List (Nat × Progress ε)} {task limit : Nat}
    (h : Phase timeout late count [.awaiting ⟨task, none⟩] tasks unread)
    (htimeout : timeout = some limit) :
    task = count ∧
      Phase timeout (late ++ [task]) count [.awaiting ⟨task, some limit⟩] tasks unread := by
  have hlate' (hlate : ∀ task ∈ late, task ≤ count) : ∀ task ∈ late ++ [count], task ≤ count := by
    simpa [or_imp, forall_and] using hlate
  have hexpired : some limit = (if count ∈ late ++ [count] then timeout else none) := by
    simp [htimeout]
  cases h with
  | underway hlate _ => exact ⟨rfl, .underway (hlate' hlate) hexpired⟩
  | ended outcome hlate _ => exact ⟨rfl, .ended outcome (hlate' hlate) hexpired⟩

/-- The ends that were read are taken or held, and at most one is still to be read. -/
structure Balanced (policy : FailurePolicy) (timeout : Option Nat) (events : List (Event τ ε))
    (s : Workshop τ ε) (read unread : List (Nat × Option (TaskError ε))) : Prop where
  endings_eq : endings events = read ++ unread
  numbers_eq : (endings events).map Prod.fst = List.range s.stopped
  phase : Phase timeout (overdue policy timeout events) read.length s.drains s.tasks unread
  balance : (taken policy timeout events).flatten ++ s.failures =
    if policy = .record then read.filterMap (failure? timeout (overdue policy timeout events)) else []

theorem Balanced.stopped_eq (h : Balanced policy timeout events s read unread) :
    s.stopped = read.length + unread.length := by
  have hlength := congrArg List.length h.numbers_eq
  rw [List.length_map, List.length_range, h.endings_eq, List.length_append] at hlength
  exact hlength.symm

/-- The tasks of which the ends were read are the first ones. -/
theorem Balanced.read_numbers (h : Balanced policy timeout events s read unread) :
    read.map Prod.fst = List.range read.length := by
  have hnumbers := congrArg (List.take read.length) h.numbers_eq
  rw [h.endings_eq, List.map_append, List.take_left' (List.length_map _), List.take_range,
    h.stopped_eq, Nat.min_eq_left (Nat.le_add_right _ _)] at hnumbers
  exact hnumbers

theorem Step.policy_eq (hstep : Step s event s') : s'.policy = s.policy := by
  cases hstep <;> rfl

theorem Runs.policy_eq (h : Runs policy timeout events s) : s.policy = policy := by
  induction h with
  | start => rfl
  | step _ hstep ih => exact hstep.policy_eq.trans ih

/-- A drain that looks for a task finds the one after those that have stopped. -/
theorem Kept.start_eq (h : Kept submitted s) (hlooking : s.drains = [.looking]) {task : Nat × τ}
    {waiting : List (Nat × τ)} (hline : s.waiting = task :: waiting) : task.1 = s.stopped := by
  obtain ⟨done, begun, hstand, hwaiting, hhistory⟩ := h.order
  rw [hlooking] at hstand
  obtain ⟨-, rfl⟩ := hstand.of_looking
  have hnumber : (numbered submitted)[done.length]? = some task := by
    rw [← hwaiting, hline]
    simp
  rw [getElem?_numbered, Option.map_eq_some_iff] at hnumber
  obtain ⟨_, -, heq⟩ := hnumber
  rw [stopped, hhistory, countP_turns, ← heq]

/-- What is not the end of a task, an expiry or a call changes nothing that the events say. -/
theorem Balanced.congr (h : Balanced policy timeout events s read unread)
    (hending : event.ending? = none) (htake : event ≠ .take) (hexpire : event ≠ .expire)
    (hstopped : s'.stopped = s.stopped) (hfailures : s'.failures = s.failures)
    (hphase : Phase timeout (overdue policy timeout events) read.length s'.drains s'.tasks unread) :
    Balanced policy timeout (events ++ [event]) s' read unread := by
  have hendings := endings_concat_of_none events event hending
  have htaken := taken_concat_of_ne policy timeout events event htake
  have hoverdue := overdue_concat_of_ne policy timeout events event hexpire
  exact ⟨hendings ▸ h.endings_eq, by rw [hendings, hstopped, h.numbers_eq], hoverdue ▸ hphase,
    by rw [htaken, hoverdue, hfailures, h.balance]⟩

/-! ### What every step keeps -/

theorem Balanced.submit (h : Balanced policy timeout events s read unread)
    (hkept : Kept submitted s) {task : τ} (hstep : Step s (.submit task) s') :
    Balanced policy timeout (events ++ [.submit task]) s' read unread := by
  have hstopped := hstep.stopped_eq (by simp)
  cases hstep
  refine h.congr rfl (by simp) (by simp) hstopped rfl ?_
  have hphase := h.phase
  cases hdraining : s.draining with
  | true => simpa using hphase
  | false =>
    have hdrains : s.drains = [] := by
      by_contra hne
      rw [hkept.draining_iff.mpr hne] at hdraining
      cases hdraining
    simp only [hdrains] at hphase ⊢
    generalize s.tasks = tasks at hphase
    cases hphase with
    | resting hlate => exact .looking hlate

theorem Balanced.look (h : Balanced policy timeout events s read unread) (hkept : Kept submitted s)
    (hstep : Step s .look s') :
    Balanced policy timeout (events ++ [.look]) s' read unread := by
  have hstopped := hstep.stopped_eq (by simp)
  have hphase := h.phase
  have hcount := h.stopped_eq
  cases hstep with
  | @start before after task waiting hdrains hline =>
    refine h.congr rfl (by simp) (by simp) hstopped rfl ?_
    obtain ⟨done, begun, hstand, -, -⟩ := hkept.order
    rw [hdrains] at hstand
    obtain ⟨rfl, rfl⟩ := hstand.eq_nil
    have htask := hkept.start_eq hdrains hline
    rw [hdrains] at hphase
    generalize s.tasks = tasks at hphase
    cases hphase with
    | looking hlate =>
      have hfresh : read.length ∉ overdue policy timeout events := fun hmem =>
        Nat.lt_irrefl _ (hlate _ hmem)
      have hnumber : task.1 = read.length := htask.trans hcount
      simp only [hnumber, List.nil_append]
      exact .underway (fun task htask => Nat.le_of_lt (hlate task htask)) (if_neg hfresh).symm
  | rest hdrains hline =>
    refine h.congr rfl (by simp) (by simp) hstopped rfl ?_
    obtain ⟨done, begun, hstand, -, -⟩ := hkept.order
    rw [hdrains] at hstand hphase
    obtain ⟨rfl, rfl⟩ := hstand.eq_nil
    generalize s.tasks = tasks at hphase
    cases hphase with
    | looking hlate => exact .resting hlate

theorem Balanced.stop (h : Balanced policy timeout events s read unread) (hkept : Kept submitted s)
    {task : Nat} {outcome : Option (TaskError ε)} (hstep : Step s (.stop task outcome) s') :
    Balanced policy timeout (events ++ [.stop task outcome]) s' read (unread ++ [(task, outcome)]) := by
  obtain ⟨htask, hstopped⟩ := hkept.stop_eq hstep
  have hphase := h.phase
  have hcount := h.stopped_eq
  have htaken := taken_concat_of_ne policy timeout events (.stop task outcome) (by simp)
  have hoverdue := overdue_concat_of_ne policy timeout events (.stop task outcome) (by simp)
  refine ⟨?_, ?_, ?_, ?_⟩
  · rw [endings_concat, h.endings_eq, List.append_assoc]
    rfl
  · rw [endings_concat, List.map_append, h.numbers_eq, hstopped, List.range_succ, ← htask]
    rfl
  · obtain ⟨done, begun, hstand, -, -⟩ := hkept.order
    rw [hoverdue]
    cases hstep with
    | @stop first later _ _ htasks =>
      rw [htasks] at hstand hphase
      obtain ⟨rfl, rfl⟩ := hstand.tasks_eq_nil
      simp only
      generalize s.drains = drains at hphase
      cases hphase with
      | underway hlate hexpired => exact .ended outcome hlate hexpired
  · rw [hoverdue, htaken, ← h.balance]
    cases hstep
    rfl

theorem Balanced.expire (h : Balanced policy timeout events s read unread)
    (hruns : Runs policy timeout events s) (hstep : Step s .expire s') :
    Balanced policy timeout (events ++ [.expire]) s' read unread := by
  have hstopped := hstep.stopped_eq (by simp)
  have hphase := h.phase
  have hbooks := hruns.queue_eq
  have hlimit := hruns.punctual.1
  obtain ⟨done, begun, hstand, -, -⟩ := hruns.kept.order
  cases hstep with
  | @expire before after task limit hdrains htimeout =>
    rw [hdrains] at hstand hphase
    obtain ⟨rfl, rfl⟩ := hstand.eq_nil
    have hrunning : (events.foldl perform (initial policy timeout)).running = some ⟨task, none⟩ := by
      rw [← hbooks]
      simp [queue, hdrains, Drain.running?]
    have hoverdue : overdue policy timeout (events ++ [.expire]) =
        overdue policy timeout events ++ [task] := by
      simp [overdue, notes_concat, hrunning]
    have htaken := taken_concat_of_ne policy timeout events .expire (by simp)
    obtain ⟨htask, hnew⟩ := hphase.expire (hlimit ▸ htimeout)
    have hread : task ∉ read.map Prod.fst := by
      simp [h.read_numbers, htask]
    have hendings := endings_concat_of_none events .expire rfl
    refine ⟨hendings ▸ h.endings_eq, by rw [hendings, hstopped, h.numbers_eq], ?_, ?_⟩
    · rw [hoverdue]
      exact hnew
    · rw [hoverdue, htaken, filterMap_failure?_concat timeout _ hread]
      exact h.balance

theorem Balanced.join (h : Balanced policy timeout events s read unread) (hkept : Kept submitted s)
    (hstep : Step s .join s') : Balanced policy timeout (events ++ [.join]) s' read unread := by
  have hstopped := hstep.stopped_eq (by simp)
  have hphase := h.phase
  obtain ⟨done, begun, hstand, -, -⟩ := hkept.order
  cases hstep with
  | @join before after r first later outcome hdrains htasks =>
    refine h.congr rfl (by simp) (by simp) hstopped rfl ?_
    rw [hdrains, htasks] at hstand hphase
    obtain ⟨rfl, rfl⟩ := hstand.eq_nil
    obtain ⟨rfl, rfl⟩ := hstand.tasks_eq_nil
    cases hphase with
    | ended _ hlate hexpired => exact .settling outcome hlate hexpired

theorem Balanced.settle (h : Balanced policy timeout events s read unread)
    (hruns : Runs policy timeout events s) {outcome : Option (TaskError ε)}
    (hstep : Step s (.settle outcome) s') :
    Balanced policy timeout (events ++ [.settle outcome]) s' (read ++ unread) [] := by
  have hstopped := hstep.stopped_eq (by simp)
  have hbooks := hstep.queue_eq hruns.kept
  have hphase := h.phase
  have hpolicy := hruns.policy_eq
  have hendings := endings_concat_of_none events (.settle outcome) rfl
  have htaken := taken_concat_of_ne policy timeout events (.settle outcome) (by simp)
  have hoverdue := overdue_concat_of_ne policy timeout events (.settle outcome) (by simp)
  obtain ⟨done, begun, hstand, -, -⟩ := hruns.kept.order
  cases hstep with
  | @settle before after r _ hdrains =>
    have hrunning : s.queue.running = some r := by
      rw [hdrains] at hstand
      obtain ⟨rfl, rfl⟩ := hstand.eq_nil
      simp [queue, hdrains, Drain.running?]
    rw [hdrains] at hstand hphase
    obtain ⟨rfl, rfl⟩ := hstand.eq_nil
    generalize s.tasks = tasks at hphase
    cases hphase with
    | settling _ hlate hexpired =>
      have hfailures := (congrArg Queue.failures hbooks).trans
        (failures_finish _ hrunning hexpired outcome)
      have hread := h.balance
      refine ⟨by rw [hendings, h.endings_eq, List.append_nil],
        hendings ▸ h.numbers_eq.trans (congrArg List.range hstopped.symm), ?_, ?_⟩
      · rw [hoverdue, List.length_append]
        exact .looking fun task htask => Nat.lt_succ_of_le (hlate task htask)
      · rw [htaken, hoverdue, List.filterMap_append]
        refine (congrArg ((taken policy timeout events).flatten ++ ·) hfailures).trans ?_
        rw [show s.queue.failures = s.failures from rfl, show s.queue.policy = policy from hpolicy,
          ← List.append_assoc, hread]
        cases policy with
        | log => rfl
        | record =>
          simp only [ite_true, List.append_cancel_left_eq]
          cases hfailure : failure? timeout (overdue .record timeout events) (read.length, outcome) <;>
            simp [hfailure]

theorem Balanced.take (h : Balanced policy timeout events s read unread)
    (hruns : Runs policy timeout events s) (hstep : Step s .take s') :
    Balanced policy timeout (events ++ [.take]) s' read unread := by
  have hstopped := hstep.stopped_eq (by simp)
  have hbooks := hruns.queue_eq
  have hendings := endings_concat_of_none events .take rfl
  have hoverdue := overdue_concat_of_ne policy timeout events .take (by simp)
  have htaken : taken policy timeout (events ++ [.take]) =
      taken policy timeout events ++ [s.failures] := by
    rw [taken, notes_concat, ← hbooks]
    rfl
  cases hstep
  refine ⟨hendings ▸ h.endings_eq, by rw [hendings, hstopped, h.numbers_eq], hoverdue ▸ h.phase, ?_⟩
  rw [hoverdue, htaken, ← h.balance]
  simp

theorem Runs.exists_balanced (h : Runs policy timeout events s) :
    ∃ read unread, Balanced policy timeout events s read unread := by
  induction h with
  | start =>
    refine ⟨[], [], rfl, rfl, .resting (by simp [overdue, notes]), ?_⟩
    split <;> rfl
  | @step events event s s' hruns hstep ih =>
    obtain ⟨read, unread, hbalanced⟩ := ih
    cases event with
    | submit task => exact ⟨_, _, hbalanced.submit hruns.kept hstep⟩
    | look => exact ⟨_, _, hbalanced.look hruns.kept hstep⟩
    | expire => exact ⟨_, _, hbalanced.expire hruns hstep⟩
    | stop task outcome => exact ⟨_, _, hbalanced.stop hruns.kept hstep⟩
    | join => exact ⟨_, _, hbalanced.join hruns.kept hstep⟩
    | settle outcome => exact ⟨_, _, hbalanced.settle hruns hstep⟩
    | take => exact ⟨_, _, hbalanced.take hruns hstep⟩

/-! ### Tasks that wait -/

variable {before after : List (Nat × τ)} {task : Nat × τ} {later : List (Event τ ε)}

/-- How many steps the drain is away from having looked for a task. -/
def ahead (s : Workshop τ ε) : Nat :=
  (s.drains.map distance).sum + s.underway.length

theorem Kept.ahead_le (h : Kept submitted s) : s.ahead ≤ 4 := by
  obtain ⟨done, begun, hstand, -, -⟩ := h.order
  unfold ahead underway
  generalize s.drains = drains at hstand
  generalize s.tasks = tasks at hstand
  cases hstand <;> simp [distance]

theorem Kept.ahead_pos (h : Kept submitted s) (hline : s.waiting ≠ []) : 0 < s.ahead := by
  obtain ⟨done, begun, hstand, -, -⟩ := h.order
  have hdrains : s.drains ≠ [] := fun hnone => hline (h.waiting_eq hnone)
  unfold ahead underway
  generalize s.drains = drains at hstand hdrains
  generalize s.tasks = tasks at hstand
  cases hstand <;> simp_all [distance]

/-- A step starts the task, or it leaves it in line, and not further from its start. -/
theorem Kept.started_or_closer (h : Kept submitted s) (hline : s.waiting = before ++ task :: after)
    (hstep : Step s event s') : .started task ∈ s'.history ∨
      ∃ before' after', s'.waiting = before' ++ task :: after' ∧
        4 * before'.length + s'.ahead + event.advances.toNat ≤ 4 * before.length + s.ahead := by
  obtain ⟨done, begun, hstand, -, -⟩ := h.order
  have hdraining : s.draining = true := h.draining_iff.mpr fun hnone => by
    simp [h.waiting_eq hnone] at hline
  cases hstep with
  | submit new =>
    refine .inr ⟨before, after ++ [(s.nextId, new)], by simp [hline], ?_⟩
    simp [ahead, underway, hdraining, Event.advances]
  | @start _ _ first waiting hdrains hfirst =>
    rw [hdrains] at hstand
    obtain ⟨rfl, rfl⟩ := hstand.eq_nil
    obtain ⟨htasks, -⟩ := hstand.of_looking
    rw [hfirst] at hline
    cases before with
    | nil =>
      obtain ⟨rfl, -⟩ := List.cons.inj hline
      exact .inl (by simp)
    | cons _ before =>
      obtain ⟨-, rfl⟩ := List.cons.inj hline
      refine .inr ⟨before, after, rfl, ?_⟩
      simp only [ahead, underway, hdrains, htasks, List.nil_append, List.map_cons, List.map_nil,
        List.sum_cons, List.sum_nil, distance, List.filter_cons_of_pos, List.filter_nil,
        List.length_cons, List.length_nil, Event.advances, Bool.toNat_true]
      omega
  | rest _ hnone => simp [hnone] at hline
  | expire hdrains _ =>
    refine .inr ⟨before, after, hline, ?_⟩
    simp [ahead, underway, hdrains, distance, Event.advances]
  | stop outcome htasks =>
    refine .inr ⟨before, after, hline, ?_⟩
    simp only [ahead, underway, htasks, List.filter_append, List.filter_cons_of_pos,
      Bool.false_eq_true, not_false_eq_true, List.filter_cons_of_neg, List.map_append, List.map_cons,
      List.length_append, List.length_cons, List.length_map, Event.advances, Bool.toNat_true]
    omega
  | join hdrains htasks =>
    refine .inr ⟨before, after, hline, ?_⟩
    simp only [ahead, underway, hdrains, htasks, List.map_append, List.map_cons, List.sum_append,
      List.sum_cons, distance, List.filter_append, Bool.false_eq_true, not_false_eq_true,
      List.filter_cons_of_neg, List.length_append, List.length_map, Event.advances, Bool.toNat_true]
    omega
  | settle hdrains =>
    refine .inr ⟨before, after, hline, ?_⟩
    simp only [ahead, underway, hdrains, List.map_append, List.map_cons, List.sum_append,
      List.sum_cons, distance, List.length_map, Event.advances, Bool.toNat_true]
    omega
  | take => exact .inr ⟨before, after, hline, by simp [ahead, underway, Event.advances]⟩

/-- While tasks are waiting a drain or the task that it waits for can get further. -/
theorem Kept.exists_advance (h : Kept submitted s) (hline : s.waiting ≠ []) :
    ∃ event s', event.advances = true ∧ Step s event s' := by
  have hdraining : s.draining = true := h.draining_iff.mpr fun hnone => hline (h.waiting_eq hnone)
  obtain ⟨event, s', hstep, hsubmitted, hlt⟩ := h.exists_step hdraining
  refine ⟨event, s', ?_, hstep⟩
  cases hstep with
  | submit task => simp [Event.submitted?] at hsubmitted
  | expire hdrains _ => simp [remaining, Workshop.underway, hdrains, distance] at hlt
  | take => exact absurd hlt (Nat.lt_irrefl _)
  | _ => rfl

theorem exists_stop {number : Nat} (h : number ∈ s.underway) (outcome : Option (TaskError ε)) :
    ∃ s', Step s (.stop number outcome) s' := by
  obtain ⟨⟨_, progress⟩, hmem, rfl⟩ := List.mem_map.mp h
  rw [List.mem_filter] at hmem
  obtain ⟨hmem, hprogress⟩ := hmem
  cases progress with
  | underway =>
    obtain ⟨before, after, htasks⟩ := List.append_of_mem hmem
    exact ⟨_, .stop outcome htasks⟩
  | ended _ => simp at hprogress

theorem Step.mem_history (hstep : Step s event s') {moment : Moment τ} (h : moment ∈ s.history) :
    moment ∈ s'.history := by
  cases hstep with
  | start | stop => exact List.mem_append_left _ h
  | _ => exact h

theorem Runs.exists_last (h : Runs policy timeout (events ++ [event]) s') :
    ∃ s, Runs policy timeout events s ∧ Step s event s' := by
  generalize hall : events ++ [event] = all at h
  cases h with
  | start => simp at hall
  | step hruns hstep =>
    obtain ⟨rfl, heq⟩ := List.append_inj' hall rfl
    obtain rfl := List.singleton_inj.mp heq
    exact ⟨_, hruns, hstep⟩

theorem Runs.started_or_closer (h : Runs policy timeout events s)
    (hline : s.waiting = before ++ task :: after)
    (hlater : Runs policy timeout (events ++ later) s') : .started task ∈ s'.history ∨
      ∃ before' after', s'.waiting = before' ++ task :: after' ∧
        4 * before'.length + s'.ahead + later.countP Event.advances ≤ 4 * before.length + 4 := by
  induction later using List.reverseRecOn generalizing s' with
  | nil =>
    rw [List.append_nil] at hlater
    have hqueue : s'.queue = s.queue := hlater.queue_eq.trans h.queue_eq.symm
    have hsame : s'.waiting = s.waiting := congrArg Queue.waiting hqueue
    refine .inr ⟨before, after, hsame.trans hline, ?_⟩
    simpa using hlater.kept.ahead_le
  | append_singleton later event ih =>
    rw [← List.append_assoc] at hlater
    obtain ⟨mid, hmid, hstep⟩ := hlater.exists_last
    rcases ih hmid with hstarted | ⟨before', after', hline', hle⟩
    · exact .inl (hstep.mem_history hstarted)
    · refine (hmid.kept.started_or_closer hline' hstep).imp_right ?_
      rintro ⟨before'', after'', hline'', hle'⟩
      refine ⟨before'', after'', hline'', ?_⟩
      have hcount : (later ++ [event]).countP Event.advances =
          later.countP Event.advances + event.advances.toNat := by
        cases hadvances : event.advances <;> simp [hadvances]
      omega

/-- A waiting task is started after four steps for each task before it and for itself, however those
end. -/
theorem Runs.started_of_le (h : Runs policy timeout events s)
    (hline : s.waiting = before ++ task :: after)
    (hlater : Runs policy timeout (events ++ later) s')
    (hle : 4 * (before.length + 1) ≤ later.countP Event.advances) : .started task ∈ s'.history := by
  rcases h.started_or_closer hline hlater with hstarted | ⟨before', after', hline', hbound⟩
  · exact hstarted
  · have hpos := hlater.kept.ahead_pos (by simp [hline'])
    omega

/-! ### The ledger -/

theorem Kept.stopped_of_resting (h : Kept submitted s) (hdraining : s.draining = false) :
    s.stopped = submitted.length := by
  obtain ⟨-, -, hhistory⟩ := h.resting hdraining
  have hcount := countP_turns (numbered submitted) []
  rw [List.map_nil, List.append_nil] at hcount
  rw [stopped, hhistory, hcount, ← List.length_map (f := Prod.snd), map_snd_numbered]

theorem Kept.unsettled_eq_nil (h : Kept submitted s) (hdraining : s.draining = false) :
    s.unsettled = [] := by
  have hdrains : s.drains = [] := by
    by_contra hne
    rw [h.draining_iff.mpr hne] at hdraining
    cases hdraining
  rw [unsettled, hdrains, (h.resting hdraining).2.1]
  rfl

/-- Whatever the order in which tasks are submitted and end, time is up and failures are taken: the
tasks have ended in the order of their numbers, each once, and the ends of all of them have been read,
except for the last one while its drain has not settled it.  If failures are kept, then those that were
taken and those that are held are together, in that order, the failures among the ends that have been
read: a task that was overdue has timed out, however it ended, and any other one has failed with its
own error.  If failures are not kept, no call has returned any, and none is held.

A task that is underway can end in any way, and however tasks end, a waiting task can get further, and
it is started after four steps for each task before it and for itself. -/
theorem Runs.ledger_exact (h : Runs policy timeout events s) :
    (endings events).map Prod.fst = List.range (endings events).length ∧
    (∃ read unread, endings events = read ++ unread ∧ unread.map Prod.fst = s.unsettled ∧
      unread.length ≤ 1 ∧
      (policy = .record → (taken policy timeout events).flatten ++
          (events.foldl perform (initial policy timeout)).failures =
        read.filterMap (failure? timeout (overdue policy timeout events)))) ∧
    (policy = .log → (∀ failures ∈ taken policy timeout events, failures = []) ∧
      (events.foldl perform (initial policy timeout)).failures = []) ∧
    (s.queue.isIdle = true →
      s.unsettled = [] ∧ (endings events).length = (submissions events).length) ∧
    (∀ number ∈ s.underway, ∀ outcome, ∃ s', Step s (.stop number outcome) s') ∧
    ∀ before task after, s.waiting = before ++ task :: after →
      (∃ event s', event.advances = true ∧ Step s event s') ∧
      ∀ later s', Runs policy timeout (events ++ later) s' →
        4 * (before.length + 1) ≤ later.countP Event.advances → .started task ∈ s'.history := by
  obtain ⟨read, unread, hbalanced⟩ := h.exists_balanced
  obtain ⟨hunsettled, hunread⟩ := hbalanced.phase.unsettled_eq
  have hlength : (endings events).length = s.stopped := by
    simpa using congrArg List.length hbalanced.numbers_eq
  have hheld : (events.foldl perform (initial policy timeout)).failures = s.failures :=
    (congrArg Queue.failures h.queue_eq).symm
  have hbalance := hbalanced.balance
  refine ⟨hlength ▸ hbalanced.numbers_eq,
    ⟨read, unread, hbalanced.endings_eq, hunsettled, hunread, fun hrecord => ?_⟩, fun hlog => ?_,
    fun hidle => ?_, fun number hnumber => exists_stop hnumber, fun before task after hline => ?_⟩
  · rw [hheld, hbalance, if_pos hrecord]
  · rw [hheld]
    subst hlog
    simpa using hbalance
  · have hdraining : s.draining = false := by simpa [Queue.isIdle, Workshop.queue] using hidle
    exact ⟨h.kept.unsettled_eq_nil hdraining, hlength.trans (h.kept.stopped_of_resting hdraining)⟩
  · exact ⟨h.kept.exists_advance (by simp [hline]),
      fun later s' hlater => h.started_of_le hline hlater⟩

/-- A task is aborted too late and its failure taken, the next one fails, and the third panics.  Its
failure is not settled when another task is submitted, which is started four steps later. -/
theorem Runs.ledger_exact_aborted :
    let events : List (Event String String) := [.submit "a", .look, .submit "b", .submit "c", .expire,
      .stop 0 none, .join, .settle none, .take, .look, .stop 1 (some (.failed "b")), .join,
      .settle (some (.failed "b")), .look, .stop 2 (some (.panicked "c")), .submit "d"]
    let later : List (Event String String) := [.join, .settle (some (.panicked "c")), .look, .stop 3 none]
    ∃ s s', Runs .record (some 10) events s ∧ Runs .record (some 10) (events ++ later) s' ∧
      s.unsettled = [2] ∧
      taken .record (some 10) events = [[⟨0, .timedOut 10⟩]] ∧
      (events.foldl perform (initial .record (some 10))).failures = [⟨1, .failed "b"⟩] ∧
      (∃ read unread, endings events = read ++ unread ∧ unread.map Prod.fst = s.unsettled ∧
        (taken .record (some 10) events).flatten ++
            (events.foldl perform (initial .record (some 10))).failures =
          read.filterMap (failure? (some 10) (overdue .record (some 10) events))) ∧
      .started (3, "d") ∈ s'.history := by
  intro events later
  have alone {α : Type} (a : α) : [a] = [] ++ a :: [] := rfl
  have hopened : Runs .record (some 10) [] (opened .record (some 10) : Workshop String String) :=
    .start
  have hruns := hopened.step (.submit "a") |>.step (.start (alone _) rfl)
    |>.step (.submit "b") |>.step (.submit "c") |>.step (.expire (alone _) rfl)
    |>.step (.stop none (alone _)) |>.step (.join (alone _) (alone _)) |>.step (.settle (alone _))
    |>.step .take |>.step (.start (alone _) rfl) |>.step (.stop (some (.failed "b")) (alone _))
    |>.step (.join (alone _) (alone _)) |>.step (.settle (alone _)) |>.step (.start (alone _) rfl)
    |>.step (.stop (some (.panicked "c")) (alone _)) |>.step (.submit "d")
  have hlater := hruns.step (.join (alone _) (alone _)) |>.step (.settle (alone _))
    |>.step (.start (alone _) rfl) |>.step (.stop none (alone _))
  obtain ⟨-, ⟨read, unread, hall, hunread, -, hrecord⟩, -, -, -, hwaiting⟩ := hruns.ledger_exact
  exact ⟨_, _, hruns, hlater, rfl, rfl, rfl, ⟨read, unread, hall, hunread, hrecord rfl⟩,
    (hwaiting [] (3, "d") [] rfl).2 later _ hlater (by decide)⟩

end Workshop

end TexAnchor.Queue
