import NodeMini.Lib.PriorityQueue

/-!
# The queue of the worker threads

The worker threads of the platform share one queue. A thread that wants a task moves what is due
behind the tasks that are to run at once, and takes the first of them; if there is none it waits,
or comes to its end when the queue has been terminated. A thread that waits may wake up at any
time and tries again.

A `DCHECK` that fails is an error.

## Main definitions

* `DelayedTaskQueue` — the queue, with its functions under their names
* `DelayedTaskQueue.Drained` — there was nothing to run when the clock was last read

## Main results

* `getNext_eq` — a thread takes the first task when what is due has been moved
-/

namespace NodeMini.Platform

open Lib

/-- A pair of the multimap of delayed tasks. -/
structure DelayedTask (D T : Type) where
  deadline : D
  task : T
  deriving DecidableEq, Repr

/-- The fields of a `DelayedTaskQueue`. -/
structure DelayedTaskQueue (T Q : Type) where
  taskQueue : List T
  delayedTaskQueue : Q
  terminated : Bool
  /-- How many times the time function has been called. -/
  readings : ℕ

/-- A `DCHECK` has failed. -/
inductive CheckFailed
  | dcheck
  deriving DecidableEq, Repr

/-- What `GetNext` comes to, in one iteration of its loop. -/
inductive Next (T : Type)
  | task (task : T)
  /-- It returns `nullptr`. -/
  | nullptr
  | waits
  deriving DecidableEq, Repr

variable {D T Q : Type}

namespace DelayedTaskQueue

section

variable [LinearOrder D] [Add D] [Zero D]
  (pq : PriorityQueue Q (DelayedTask.deadline : DelayedTask D T → D)) (clock : ℕ → D)

/-- The constructor. -/
def new : DelayedTaskQueue T Q where
  taskQueue := []
  delayedTaskQueue := pq.empty
  terminated := false
  readings := 0

variable (q : DelayedTaskQueue T Q)

/-- `Append`. -/
def append (task : T) : Except CheckFailed (DelayedTaskQueue T Q) :=
  if q.terminated then .error .dcheck else .ok { q with taskQueue := q.taskQueue ++ [task] }

/-- `AppendDelayed`, with what it puts into the multimap. A delay that is not a number is
`none`. -/
def appendDelayed (task : T) :
    Option D → Except CheckFailed (DelayedTask D T × DelayedTaskQueue T Q)
  -- `DCHECK_GE(delay_in_seconds, 0.0)` does not hold of it
  | none => .error .dcheck
  | some delayInSeconds =>
    if delayInSeconds < 0 then .error .dcheck
    -- `DCHECK(!terminated_)`
    else if q.terminated then .error .dcheck
    else
      let d := ⟨clock q.readings + delayInSeconds, task⟩
      .ok (d, { q with
        delayedTaskQueue := pq.push d q.delayedTaskQueue
        readings := q.readings + 1 })

omit [Add D] [Zero D] in
/-- `PopTaskFromDelayedQueue`. -/
def popTaskFromDelayedQueue (now : D) : Option T × DelayedTaskQueue T Q :=
  match pq.pop q.delayedTaskQueue with
  | none => (none, q)
  | some (entry, rest) =>
    if now < entry.deadline then (none, q)
    else (some entry.task, { q with delayedTaskQueue := rest })

/-- The loop at the start of `GetNext`, for at most `fuel` tasks. -/
def moveExpired (now : D) : ℕ → DelayedTaskQueue T Q → DelayedTaskQueue T Q
  | 0, q => q
  | fuel + 1, q =>
    match q.popTaskFromDelayedQueue pq now with
    | (none, q) => q
    | (some task, q) => moveExpired now fuel { q with taskQueue := q.taskQueue ++ [task] }

/-- One iteration of `GetNext`. The clock is read once. -/
def getNext : Next T × DelayedTaskQueue T Q :=
  let q' := moveExpired pq (clock q.readings) (pq.contents q.delayedTaskQueue).card
    { q with readings := q.readings + 1 }
  match q'.taskQueue with
  -- what is left to run is handed out after `Terminate` too
  | task :: tasks => (.task task, { q' with taskQueue := tasks })
  | [] => if q'.terminated then (.nullptr, q') else (.waits, q')

/-- `Terminate`. -/
def terminate : Except CheckFailed (DelayedTaskQueue T Q) :=
  if q.terminated then .error .dcheck else .ok { q with terminated := true }

/-- What the destructor checks. -/
def Destructible : Prop := q.terminated = true ∧ q.taskQueue = []

omit [Add D] [Zero D] in
/-- The tasks that it holds. -/
def held : Multiset T :=
  q.taskQueue + (pq.contents q.delayedTaskQueue).map DelayedTask.task

omit [Add D] [Zero D] in
/-- There was nothing to run at the last reading of the clock. -/
def Drained : Prop :=
  q.taskQueue = [] ∧
    ∃ k, q.readings = k + 1 ∧ ∀ d ∈ pq.contents q.delayedTaskQueue, clock k < d.deadline

end

/-! ## What is taken -/

/-- The queue after the tasks in `due` have been moved. -/
def moved (q : DelayedTaskQueue T Q) (due : List (DelayedTask D T)) (rest : Q) :
    DelayedTaskQueue T Q :=
  { q with
    taskQueue := q.taskQueue ++ due.map DelayedTask.task
    delayedTaskQueue := rest }

variable [LinearOrder D] {pq : PriorityQueue Q (DelayedTask.deadline : DelayedTask D T → D)}
  {clock : ℕ → D} {q : DelayedTaskQueue T Q} {now : D}

/-- The loop takes what is due, and puts it behind the queue. -/
theorem moveExpired_eq (fuel n : ℕ) :
    moveExpired pq now fuel q =
      q.moved (pq.expire (fun _ => now) fuel n q.delayedTaskQueue).1
        (pq.expire (fun _ => now) fuel n q.delayedTaskQueue).2.2 := by
  induction fuel generalizing q n with
  | zero => rw [moveExpired, PriorityQueue.expire, moved, List.map_nil, List.append_nil]
  | succ fuel ih =>
    rw [moveExpired, popTaskFromDelayedQueue, PriorityQueue.expire]
    cases hpop : pq.pop q.delayedTaskQueue with
    | none => simp only [moved, List.map_nil, List.append_nil]
    | some call =>
      obtain ⟨entry, rest⟩ := call
      dsimp only
      by_cases hearly : now < entry.deadline
      · simp only [if_pos hearly, moved, List.map_nil, List.append_nil]
      · simp only [if_neg hearly]
        rw [ih (n + 1)]
        simp only [moved, List.map_cons, List.append_assoc, List.singleton_append]

variable (pq clock) in
/-- What a thread finds in the queue when it has moved what is due. -/
theorem getNext_eq (q : DelayedTaskQueue T Q) : ∃ due n rest,
    pq.Expired (fun _ => clock q.readings) 0 q.delayedTaskQueue due n rest ∧
    q.getNext pq clock =
      match q.taskQueue ++ due.map DelayedTask.task with
      | task :: tasks => (.task task,
        { q with taskQueue := tasks, delayedTaskQueue := rest, readings := q.readings + 1 })
      | [] => (if q.terminated then .nullptr else .waits,
        { q with taskQueue := [], delayedTaskQueue := rest, readings := q.readings + 1 }) := by
  refine ⟨_, _, _, PriorityQueue.expired le_rfl, ?_⟩
  rw [getNext, moveExpired_eq _ 0]
  simp only [moved]
  cases hqueue : q.taskQueue ++ List.map DelayedTask.task (pq.expire (fun _ => clock q.readings)
      (pq.contents q.delayedTaskQueue).card 0 q.delayedTaskQueue).1 with
  | nil => cases q.terminated <;> rfl
  | cons task tasks => rfl

end DelayedTaskQueue

end NodeMini.Platform
