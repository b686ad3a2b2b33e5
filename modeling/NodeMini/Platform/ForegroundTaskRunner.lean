import NodeMini.Lib.PriorityQueue

/-!
# The task runner behind the message loop

`PumpMessageLoop` takes one task from the runner of its isolate and runs it. The runner has a
queue of tasks, and a priority queue of tasks that are to run later; any thread may post a task
to it at any time, also while one is running, and a task may pump the loop itself. Within a
task, only nestable tasks are taken.

Every function of the runner holds its lock, so what the threads do to it is one sequence of
calls. The clock is a parameter, read a number of times; nothing is assumed about what it shows.
So is the priority queue, which may give back any of several tasks with the same time. A delay is
what the caller gives; the `DCHECK` that it is not negative is left out.

## Main definitions

* `DefaultForegroundTaskRunner` — the runner, with its functions under their names
* `pumpMessageLoop` — `PumpMessageLoop` up to `task->Run()`

## Main results

* `moveExpired_eq` — the loop takes what is due
* `popTaskFromQueue_open`, `popTaskFromQueue_drained` — which task is taken
-/

namespace NodeMini.Platform

open Lib

/-- Whether a task may run within another one. -/
inductive Nestability
  | kNestable
  | kNonNestable
  deriving DecidableEq, Repr

/-- `TaskQueueEntry` -/
abbrev TaskQueueEntry (T : Type) := Nestability × T

/-- `DelayedEntry` -/
structure DelayedEntry (D T : Type) where
  timeoutTime : D
  nestability : Nestability
  task : T
  deriving DecidableEq, Repr

variable {D T Q : Type}

/-- What is left of the entry when its time has come. -/
def DelayedEntry.entry (e : DelayedEntry D T) : TaskQueueEntry T := (e.nestability, e.task)

/-- The fields of a `DefaultForegroundTaskRunner`. -/
structure DefaultForegroundTaskRunner (T Q : Type) where
  terminated : Bool
  nestingDepth : ℕ
  taskQueue : List (TaskQueueEntry T)
  delayedTaskQueue : Q
  /-- How many times the time function has been called. -/
  readings : ℕ

section

variable [LinearOrder D] [Add D]
  (pq : PriorityQueue Q (DelayedEntry.timeoutTime : DelayedEntry D T → D)) (clock : ℕ → D)

namespace DefaultForegroundTaskRunner

/-- The constructor. -/
def new : DefaultForegroundTaskRunner T Q where
  terminated := false
  nestingDepth := 0
  taskQueue := []
  delayedTaskQueue := pq.empty
  readings := 0

variable (r : DefaultForegroundTaskRunner T Q)

/-- `Terminate`. -/
def terminate : DefaultForegroundTaskRunner T Q :=
  { r with terminated := true, taskQueue := [], delayedTaskQueue := pq.empty }

/-- `PostTaskLocked`. -/
def postTaskLocked (e : TaskQueueEntry T) : DefaultForegroundTaskRunner T Q :=
  if r.terminated then r else { r with taskQueue := r.taskQueue ++ [e] }

/-- `PostTask`. -/
def postTask (task : T) : DefaultForegroundTaskRunner T Q := r.postTaskLocked (.kNestable, task)

/-- `PostNonNestableTask`. -/
def postNonNestableTask (task : T) : DefaultForegroundTaskRunner T Q :=
  r.postTaskLocked (.kNonNestable, task)

/-- What `PostDelayedTaskLocked` puts into the queue. -/
def delayedEntry (task : T) (delayInSeconds : D) (nestability : Nestability) : DelayedEntry D T :=
  ⟨clock r.readings + delayInSeconds, nestability, task⟩

/-- `PostDelayedTaskLocked`. -/
def postDelayedTaskLocked (task : T) (delayInSeconds : D) (nestability : Nestability) :
    DefaultForegroundTaskRunner T Q :=
  if r.terminated then r
  else { r with
    delayedTaskQueue :=
      pq.push (r.delayedEntry clock task delayInSeconds nestability) r.delayedTaskQueue
    readings := r.readings + 1 }

/-- `PostDelayedTask`. -/
def postDelayedTask (task : T) (delayInSeconds : D) : DefaultForegroundTaskRunner T Q :=
  r.postDelayedTaskLocked pq clock task delayInSeconds .kNestable

/-- `PostNonNestableDelayedTask`. -/
def postNonNestableDelayedTask (task : T) (delayInSeconds : D) : DefaultForegroundTaskRunner T Q :=
  r.postDelayedTaskLocked pq clock task delayInSeconds .kNonNestable

/-- Whether an entry of the queue may be taken now. -/
def poppable (e : TaskQueueEntry T) : Bool := r.nestingDepth = 0 || e.1 = .kNestable

/-- `HasPoppableTaskInQueue`. -/
def hasPoppableTaskInQueue : Bool :=
  if r.nestingDepth = 0 then !r.taskQueue.isEmpty
  else r.taskQueue.any fun e => e.1 = .kNestable

omit [Add D] in
/-- `PopTaskFromDelayedQueueLocked`. -/
def popTaskFromDelayedQueueLocked :
    Option (TaskQueueEntry T) × DefaultForegroundTaskRunner T Q :=
  match pq.pop r.delayedTaskQueue with
  | none => (none, r)
  | some (entry, rest) =>
    if clock r.readings < entry.timeoutTime then (none, { r with readings := r.readings + 1 })
    else (some entry.entry, { r with delayedTaskQueue := rest, readings := r.readings + 1 })

/-- The loop of `MoveExpiredDelayedTasks`, for at most `fuel` tasks. -/
def moveExpired : ℕ → DefaultForegroundTaskRunner T Q → DefaultForegroundTaskRunner T Q
  | 0, r => r
  | fuel + 1, r =>
    match r.popTaskFromDelayedQueueLocked pq clock with
    | (none, r) => r
    | (some e, r) => moveExpired fuel (r.postTaskLocked e)

/-- `MoveExpiredDelayedTasks`. Every iteration but the last takes a task. -/
def moveExpiredDelayedTasks : DefaultForegroundTaskRunner T Q :=
  moveExpired pq clock (pq.contents r.delayedTaskQueue).card r

/-- `PopTaskFromQueue`, which does not wait. -/
def popTaskFromQueue : Option (TaskQueueEntry T) × DefaultForegroundTaskRunner T Q :=
  let r := r.moveExpiredDelayedTasks pq clock
  if r.hasPoppableTaskInQueue then
    (r.taskQueue.find? r.poppable, { r with taskQueue := r.taskQueue.eraseP r.poppable })
  else (none, r)

end DefaultForegroundTaskRunner

/-- `PumpMessageLoop` up to `task->Run()`, with the task if there is one. -/
def pumpMessageLoop (r : DefaultForegroundTaskRunner T Q) :
    Option (TaskQueueEntry T) × DefaultForegroundTaskRunner T Q :=
  match r.popTaskFromQueue pq clock with
  | (none, r) => (none, r)
  -- `RunTaskScope`
  | (some e, r) => (some e, { r with nestingDepth := r.nestingDepth + 1 })

end

/-! ## What is taken -/

namespace DefaultForegroundTaskRunner

/-- The runner after the tasks in `due` have been moved. -/
def moved (r : DefaultForegroundTaskRunner T Q) (due : List (DelayedEntry D T)) (readings : ℕ)
    (delayedTaskQueue : Q) : DefaultForegroundTaskRunner T Q :=
  { r with
    taskQueue := r.taskQueue ++ due.map DelayedEntry.entry
    delayedTaskQueue := delayedTaskQueue
    readings := readings }

variable [LinearOrder D]
  {pq : PriorityQueue Q (DelayedEntry.timeoutTime : DelayedEntry D T → D)} {clock : ℕ → D}
  {r : DefaultForegroundTaskRunner T Q}

/-- The loop takes what is due, and puts it behind the queue. -/
theorem moveExpired_eq (h : r.terminated = false) (fuel : ℕ) :
    moveExpired pq clock fuel r =
      r.moved (pq.expire clock fuel r.readings r.delayedTaskQueue).1
        (pq.expire clock fuel r.readings r.delayedTaskQueue).2.1
        (pq.expire clock fuel r.readings r.delayedTaskQueue).2.2 := by
  induction fuel generalizing r with
  | zero =>
    rw [moveExpired, PriorityQueue.expire, moved, List.map_nil, List.append_nil]
  | succ fuel ih =>
    rw [moveExpired, popTaskFromDelayedQueueLocked, PriorityQueue.expire]
    cases hpop : pq.pop r.delayedTaskQueue with
    | none => simp only [moved, List.map_nil, List.append_nil]
    | some call =>
      obtain ⟨entry, rest⟩ := call
      dsimp only
      by_cases hearly : clock r.readings < entry.timeoutTime
      · simp only [if_pos hearly, moved, List.map_nil, List.append_nil]
      · simp only [if_neg hearly, postTaskLocked, h, Bool.false_eq_true, if_false]
        rw [ih rfl]
        simp only [moved, h, List.map_cons, List.append_assoc, List.singleton_append]

/-- Without delayed tasks nothing is moved. -/
theorem moveExpiredDelayedTasks_of_drained (h : pq.contents r.delayedTaskQueue = 0) :
    r.moveExpiredDelayedTasks pq clock = r := by
  rw [moveExpiredDelayedTasks, h, Multiset.card_zero, moveExpired]

/-- There is a task that may be taken. -/
theorem hasPoppableTaskInQueue_iff :
    r.hasPoppableTaskInQueue = true ↔ ∃ e ∈ r.taskQueue, r.poppable e = true := by
  unfold hasPoppableTaskInQueue poppable
  by_cases hdepth : r.nestingDepth = 0
  · simp only [hdepth, if_true, decide_true, Bool.true_or, and_true]
    cases r.taskQueue with
    | nil => simp
    | cons e queue => simp
  · simp only [hdepth, if_false, decide_false, Bool.false_or, List.any_eq_true]

/-- Whether or not there is a task to take, the queue is searched for one. -/
theorem popTaskFromQueue_eq (r : DefaultForegroundTaskRunner T Q) :
    r.popTaskFromQueue pq clock =
      ((r.moveExpiredDelayedTasks pq clock).taskQueue.find?
          (r.moveExpiredDelayedTasks pq clock).poppable,
        { r.moveExpiredDelayedTasks pq clock with
          taskQueue := (r.moveExpiredDelayedTasks pq clock).taskQueue.eraseP
            (r.moveExpiredDelayedTasks pq clock).poppable }) := by
  rw [popTaskFromQueue]
  generalize r.moveExpiredDelayedTasks pq clock = r'
  dsimp only
  split_ifs with hpoppable
  · rfl
  · rw [hasPoppableTaskInQueue_iff] at hpoppable
    have hnone : ∀ e ∈ r'.taskQueue, ¬ r'.poppable e = true :=
      fun e he hpop => hpoppable ⟨e, he, hpop⟩
    rw [List.find?_eq_none.mpr hnone, List.eraseP_of_forall_not hnone]

/-- What `PopTaskFromQueue` does to a runner that has not been terminated: what is due is moved,
and the first task that may run is taken. -/
theorem popTaskFromQueue_open (h : r.terminated = false) : ∃ due readings rest,
    pq.Expired clock r.readings r.delayedTaskQueue due readings rest ∧
    r.popTaskFromQueue pq clock =
      ((r.moved due readings rest).taskQueue.find? r.poppable,
        { r.moved due readings rest with
          taskQueue := (r.moved due readings rest).taskQueue.eraseP r.poppable }) := by
  refine ⟨_, _, _, PriorityQueue.expired le_rfl, ?_⟩
  rw [popTaskFromQueue_eq, moveExpiredDelayedTasks, moveExpired_eq h]
  rfl

/-- From a terminated runner nothing is taken. -/
theorem popTaskFromQueue_drained (hqueue : r.taskQueue = [])
    (hdelayed : pq.contents r.delayedTaskQueue = 0) : r.popTaskFromQueue pq clock = (none, r) := by
  rw [popTaskFromQueue_eq, moveExpiredDelayedTasks_of_drained hdelayed, hqueue, List.find?_nil,
    List.eraseP_nil, ← hqueue]

end DefaultForegroundTaskRunner

end NodeMini.Platform
