import Mathlib.Algebra.Order.Ring.Nat
import NodeMini.Lib.Run
import NodeMini.Platform.DelayedTaskQueue

/-!
# The worker threads

Each thread of the pool takes tasks from the queue and runs them, until it is told that there are
no more. Tasks are posted from other threads, and by the tasks themselves. Posting takes the lock
of the runner, and so does `Terminate`, which keeps it until all threads of the pool are joined.
The functions of the platform take its own lock, `CallOnWorkerThread` before that of the runner;
the destructor of the platform keeps it while it calls `Terminate`.

When the threads have ended, every task that was to run at once has been started. Delayed tasks
that the clock had not reached are never started, and are destroyed with the queue.

A run is any sequence of steps of the threads; a step that is not possible is blocked.

## Main definitions

* `WorkerThreads`, `WorkerThreads.step` — the runner with its threads, and their steps
* `Abandoned` — what is lost when the threads have ended
* `WorkersLaw` — what holds after every run

## Main results

* `step_cases`, `step_of_fails` — what a step can do, and which checks fail
* `workersLaw` — `WorkersLaw`, for every run
-/

namespace NodeMini.Platform

open Lib

/-- What is handed to `PostTask` or `PostDelayedTask`. -/
inductive Post (D T : Type)
  | task (task : T)
  | delayed (task : T) (delayInSeconds : Option D)
  deriving DecidableEq, Repr

/-- A call of a task that takes a lock first. -/
inductive Call (D T : Type)
  /-- `PostTask` or `PostDelayedTask` of the runner. -/
  | runner (p : Post D T)
  /-- `CallOnWorkerThread` or `CallDelayedOnWorkerThread` of the platform. It gives the platform's
  lock back before it calls the runner. -/
  | onWorkerThread (p : Post D T)
  /-- `GetForegroundTaskRunner`, or another function of the platform that takes its lock. -/
  | platform
  deriving DecidableEq, Repr

/-- A `WorkerThread`. -/
inductive Worker (D T : Type)
  /-- Within `GetNext`. -/
  | idle
  | running (task : T)
  /-- The task waits for the lock that its call takes. -/
  | calling (task : T) (c : Call D T)
  /-- `Run` has returned. -/
  | ended
  deriving DecidableEq, Repr

/-- A `DefaultWorkerThreadsTaskRunner` with `n` threads, and the locks. -/
structure WorkerThreads (n : ℕ) (D T Q : Type) where
  terminated : Bool
  /-- `Terminate` has the lock of the runner. -/
  locked : Bool
  /-- `~DefaultPlatform` has the lock of the platform. -/
  destroying : Bool
  queue : DelayedTaskQueue T Q
  threadPool : Fin n → Worker D T

/-- A step of a thread. -/
inductive WorkerAction (n : ℕ) (D T : Type)
  /-- A thread that is not of the pool posts a task. -/
  | post (p : Post D T)
  | calls (i : Fin n) (c : Call D T)
  /-- The task gets the lock that it waits for. -/
  | acquires (i : Fin n)
  | getNext (i : Fin n)
  /-- `task->Run()` returns. -/
  | returns (i : Fin n)
  /-- `~DefaultPlatform` up to `Terminate`. -/
  | destroy
  /-- `Terminate` up to `thread_pool_.clear()`, called by a thread that is not of the pool. -/
  | terminate
  /-- All threads are joined, and `Terminate` returns. -/
  | join

/-- What is seen of a step. -/
inductive WorkerEvent (n : ℕ) (D T : Type)
  | posted (task : T)
  | delayed (d : DelayedTask D T)
  | refused (p : Post D T)
  | called (i : Fin n)
  /-- A task has had the lock of the platform. -/
  | passed (i : Fin n)
  | started (i : Fin n) (task : T)
  | waits (i : Fin n)
  | ended (i : Fin n)
  | returned (i : Fin n)
  | destroying
  | terminating
  | joined
  deriving DecidableEq, Repr

/-- Why a step is not possible. -/
inductive Fault
  /-- The thread is not there, or the lock is taken. -/
  | blocked
  | check (c : CheckFailed)
  deriving DecidableEq, Repr

variable {n : ℕ} {D T Q : Type}

/-- The thread has ended. -/
def Worker.isEnded : Worker D T → Bool
  | .ended => true
  | _ => false

namespace WorkerThreads

section

variable [LinearOrder D] [Add D] [Zero D]
  (pq : PriorityQueue Q (DelayedTask.deadline : DelayedTask D T → D)) (clock : ℕ → D)

/-- The constructor. -/
def new : WorkerThreads n D T Q where
  terminated := false
  locked := false
  destroying := false
  queue := .new pq
  threadPool := fun _ => .idle

variable (s : WorkerThreads n D T Q)

/-- A thread goes on. -/
def setThread (i : Fin n) (w : Worker D T) : WorkerThreads n D T Q :=
  { s with threadPool := Function.update s.threadPool i w }

/-- `PostTask` and `PostDelayedTask`, with the lock. -/
def postLocked (p : Post D T) :
    Except CheckFailed (WorkerEvent n D T × WorkerThreads n D T Q) :=
  if s.terminated then .ok (.refused p, s)
  else
    match p with
    | .task task => do
      let queue ← s.queue.append task
      return (.posted task, { s with queue := queue })
    | .delayed task delayInSeconds => do
      let (d, queue) ← s.queue.appendDelayed pq clock task delayInSeconds
      return (.delayed d, { s with queue := queue })

/-- A step of a thread. -/
def step : WorkerAction n D T → Except Fault (WorkerEvent n D T × WorkerThreads n D T Q)
  | .post p =>
    if s.locked then .error .blocked else (s.postLocked pq clock p).mapError .check
  | .calls i c =>
    match s.threadPool i with
    | .running task => .ok (.called i, s.setThread i (.calling task c))
    | _ => .error .blocked
  | .acquires i =>
    match s.threadPool i with
    | .calling task (.runner p) =>
      if s.locked then .error .blocked
      else ((s.setThread i (.running task)).postLocked pq clock p).mapError .check
    | .calling task (.onWorkerThread p) =>
      if s.destroying then .error .blocked
      else .ok (.passed i, s.setThread i (.calling task (.runner p)))
    | .calling task .platform =>
      if s.destroying then .error .blocked
      else .ok (.passed i, s.setThread i (.running task))
    | _ => .error .blocked
  | .getNext i =>
    match s.threadPool i with
    | .idle =>
      -- this takes the lock of the queue, and not that of the runner
      match s.queue.getNext pq clock with
      | (.task task, queue) =>
        .ok (.started i task, { s with queue := queue }.setThread i (.running task))
      | (.nullptr, queue) => .ok (.ended i, { s with queue := queue }.setThread i .ended)
      | (.waits, queue) => .ok (.waits i, { s with queue := queue })
    | _ => .error .blocked
  | .returns i =>
    match s.threadPool i with
    | .running _ => .ok (.returned i, s.setThread i .idle)
    | _ => .error .blocked
  | .destroy =>
    -- its own lock is not given back before the platform is gone
    if s.destroying then .error .blocked else .ok (.destroying, { s with destroying := true })
  | .terminate =>
    if s.locked then .error .blocked
    else
      match s.queue.terminate with
      -- `thread_pool_.clear()` keeps the lock until `join`
      | .ok queue =>
        .ok (.terminating, { s with terminated := true, locked := true, queue := queue })
      | .error c => .error (.check c)
  | .join =>
    if s.locked = true ∧ ∀ i, (s.threadPool i).isEnded = true then
      .ok (.joined, { s with locked := false })
    else .error .blocked

end

variable (s : WorkerThreads n D T Q) {i j : Fin n} (w : Worker D T)

theorem setThread_self : (s.setThread i w).threadPool i = w := Function.update_self ..

theorem setThread_of_ne (h : j ≠ i) : (s.setThread i w).threadPool j = s.threadPool j :=
  Function.update_of_ne h ..

end WorkerThreads

/-! ## What a step can do -/

/-- A step with an event. -/
inductive WorkersStep [LinearOrder D]
    (pq : PriorityQueue Q (DelayedTask.deadline : DelayedTask D T → D)) (clock : ℕ → D) :
    WorkerThreads n D T Q → WorkerEvent n D T → WorkerThreads n D T Q → Prop
  | posted {s : WorkerThreads n D T Q} {task : T} : s.terminated = false → s.locked = false →
    WorkersStep pq clock s (.posted task)
      { s with queue := { s.queue with taskQueue := s.queue.taskQueue ++ [task] } }
  | delayed {s : WorkerThreads n D T Q} {d : DelayedTask D T} : s.terminated = false →
    s.locked = false → WorkersStep pq clock s (.delayed d)
      { s with queue := { s.queue with
          delayedTaskQueue := pq.push d s.queue.delayedTaskQueue
          readings := s.queue.readings + 1 } }
  | refused {s : WorkerThreads n D T Q} {p : Post D T} : s.terminated = true → s.locked = false →
    WorkersStep pq clock s (.refused p) s
  /-- A task gets the lock of the runner, and its thread goes on. -/
  | got {s s' : WorkerThreads n D T Q} {event : WorkerEvent n D T} {i : Fin n} {task : T}
      {p : Post D T} : s.threadPool i = .calling task (.runner p) → s.locked = false →
    WorkersStep pq clock (s.setThread i (.running task)) event s' → WorkersStep pq clock s event s'
  | called {s : WorkerThreads n D T Q} {i : Fin n} {task : T} {c : Call D T} :
    s.threadPool i = .running task →
    WorkersStep pq clock s (.called i) (s.setThread i (.calling task c))
  /-- A task has had the lock of the platform, and calls the runner now. -/
  | passed {s : WorkerThreads n D T Q} {i : Fin n} {task : T} {p : Post D T} :
    s.threadPool i = .calling task (.onWorkerThread p) → s.destroying = false →
    WorkersStep pq clock s (.passed i) (s.setThread i (.calling task (.runner p)))
  | passedOn {s : WorkerThreads n D T Q} {i : Fin n} {task : T} :
    s.threadPool i = .calling task .platform → s.destroying = false →
    WorkersStep pq clock s (.passed i) (s.setThread i (.running task))
  | started {s : WorkerThreads n D T Q} {i : Fin n} {due : List (DelayedTask D T)} {m : ℕ}
      {rest : Q} {task : T} {tasks : List T} : s.threadPool i = .idle →
    pq.Expired (fun _ => clock s.queue.readings) 0 s.queue.delayedTaskQueue due m rest →
    s.queue.taskQueue ++ due.map DelayedTask.task = task :: tasks →
    WorkersStep pq clock s (.started i task)
      (WorkerThreads.setThread { s with queue := { s.queue with
        taskQueue := tasks, delayedTaskQueue := rest, readings := s.queue.readings + 1 } } i
        (.running task))
  | ended {s : WorkerThreads n D T Q} {i : Fin n} {m : ℕ} {rest : Q} : s.threadPool i = .idle →
    s.queue.terminated = true → s.queue.taskQueue = [] →
    pq.Expired (fun _ => clock s.queue.readings) 0 s.queue.delayedTaskQueue [] m rest →
    WorkersStep pq clock s (.ended i)
      (WorkerThreads.setThread { s with queue := { s.queue with
        taskQueue := [], delayedTaskQueue := rest, readings := s.queue.readings + 1 } } i .ended)
  | waits {s : WorkerThreads n D T Q} {i : Fin n} {m : ℕ} {rest : Q} : s.threadPool i = .idle →
    s.queue.terminated = false → s.queue.taskQueue = [] →
    pq.Expired (fun _ => clock s.queue.readings) 0 s.queue.delayedTaskQueue [] m rest →
    WorkersStep pq clock s (.waits i) { s with queue := { s.queue with
      taskQueue := [], delayedTaskQueue := rest, readings := s.queue.readings + 1 } }
  | returned {s : WorkerThreads n D T Q} {i : Fin n} {task : T} :
    s.threadPool i = .running task → WorkersStep pq clock s (.returned i) (s.setThread i .idle)
  | destroying {s : WorkerThreads n D T Q} : s.destroying = false →
    WorkersStep pq clock s .destroying { s with destroying := true }
  | terminating {s : WorkerThreads n D T Q} : s.locked = false → s.queue.terminated = false →
    WorkersStep pq clock s .terminating
      { s with terminated := true, locked := true, queue := { s.queue with terminated := true } }
  | joined {s : WorkerThreads n D T Q} : s.locked = true → (∀ i, s.threadPool i = .ended) →
    WorkersStep pq clock s .joined { s with locked := false }

theorem Worker.isEnded_iff {w : Worker D T} : w.isEnded = true ↔ w = .ended := by
  cases w <;> simp [Worker.isEnded]

/-- A task is posted with a delay that is negative, or not a number. -/
def Post.OutOfRange [LT D] [Zero D] : Post D T → Prop
  | .task _ => False
  | .delayed _ none => True
  | .delayed _ (some delayInSeconds) => delayInSeconds < 0

/-- The step is such a post, of another thread or of a task. -/
def WorkerThreads.PostsOutOfRange [LT D] [Zero D] (s : WorkerThreads n D T Q) :
    WorkerAction n D T → Prop
  | .post p => p.OutOfRange
  | .acquires i => ∃ task p, s.threadPool i = .calling task (.runner p) ∧ p.OutOfRange
  | _ => False

/-- A check fails in the step: it is a second `Terminate`, or, before the first one, a post with a
delay that is negative or not a number. -/
def WorkerThreads.Fails [LT D] [Zero D] (s : WorkerThreads n D T Q) (a : WorkerAction n D T) :
    Prop :=
  s.locked = false ∧
    (s.terminated = true ∧ a = .terminate ∨ s.terminated = false ∧ s.PostsOutOfRange a)

/-! ## The pool -/

/-- The flags agree, and threads have ended only when there was nothing left to do. -/
structure Pool [LinearOrder D]
    (pq : PriorityQueue Q (DelayedTask.deadline : DelayedTask D T → D)) (clock : ℕ → D)
    (events : List (WorkerEvent n D T)) (s : WorkerThreads n D T Q) : Prop where
  flags : s.queue.terminated = s.terminated
  locked : s.locked = true → s.terminated = true
  ended : ∀ i, s.threadPool i = .ended → s.terminated = true
  /-- The last thread has left nothing to run. -/
  drained : 0 < n → (∀ i, s.threadPool i = .ended) → s.queue.Drained pq clock
  joined : .joined ∈ events → s.terminated = true ∧ ∀ i, s.threadPool i = .ended

section

variable [LinearOrder D]
  {pq : PriorityQueue Q (DelayedTask.deadline : DelayedTask D T → D)} {clock : ℕ → D}
  {s s' : WorkerThreads n D T Q} {event : WorkerEvent n D T}
  {events : List (WorkerEvent n D T)} {i j : Fin n} {w : Worker D T}

variable (pq clock) in
/-- Posting with the lock of the runner: no check fails but that of the delay. -/
theorem postLocked_cases [Add D] [Zero D] (p : Post D T) (hlock : s.locked = false)
    (hflags : s.queue.terminated = s.terminated) :
    (∃ event s', s.postLocked pq clock p = .ok (event, s') ∧ WorkersStep pq clock s event s') ∨
      s.postLocked pq clock p = .error .dcheck ∧ s.terminated = false ∧ p.OutOfRange := by
  unfold WorkerThreads.postLocked
  by_cases hterminated : s.terminated = true
  · rw [if_pos hterminated]
    exact Or.inl ⟨_, _, rfl, .refused hterminated hlock⟩
  · rw [if_neg hterminated]
    have hopen : s.terminated = false := Bool.eq_false_iff.mpr hterminated
    have hqueue : ¬ s.queue.terminated = true := by rwa [hflags]
    cases p with
    | task task =>
      simp only [DelayedTaskQueue.append, if_neg hqueue]
      exact Or.inl ⟨_, _, rfl, .posted hopen hlock⟩
    | delayed task delay =>
      cases delay with
      | none => exact Or.inr ⟨rfl, hopen, trivial⟩
      | some delay =>
        by_cases hnegative : delay < 0
        · simp only [DelayedTaskQueue.appendDelayed, if_pos hnegative]
          exact Or.inr ⟨rfl, hopen, hnegative⟩
        · simp only [DelayedTaskQueue.appendDelayed, if_neg hnegative, if_neg hqueue]
          exact Or.inl ⟨_, _, rfl, .delayed hopen hlock⟩

variable (pq clock) in
/-- A thread that is within `GetNext` goes on. -/
theorem getNext_cases [Add D] [Zero D] (hidle : s.threadPool i = .idle) :
    ∃ event s', s.step pq clock (.getNext i) = .ok (event, s') ∧
      WorkersStep pq clock s event s' ∧
      ((∃ task, event = .started i task) ∨ event = .ended i ∨
        event = .waits i ∧ s.queue.terminated = false) := by
  obtain ⟨due, m, rest, hexpired, hnext⟩ :=
    DelayedTaskQueue.getNext_eq pq clock s.queue
  simp only [WorkerThreads.step, hidle, hnext]
  cases hqueue : s.queue.taskQueue ++ due.map DelayedTask.task with
  | cons task tasks =>
    exact ⟨_, _, rfl, .started hidle hexpired hqueue, Or.inl ⟨task, rfl⟩⟩
  | nil =>
    obtain ⟨hempty, hdue⟩ := List.append_eq_nil_iff.mp hqueue
    obtain rfl := List.map_eq_nil_iff.mp hdue
    by_cases hterminated : s.queue.terminated = true
    · simp only [if_pos hterminated]
      exact ⟨_, _, rfl, .ended hidle hterminated hempty hexpired, Or.inr (Or.inl rfl)⟩
    · simp only [if_neg hterminated]
      have hopen : s.queue.terminated = false := Bool.eq_false_iff.mpr hterminated
      exact ⟨_, _, rfl, .waits hidle hopen hempty hexpired, Or.inr (Or.inr ⟨rfl, hopen⟩)⟩

variable (pq clock) in
/-- What a step can do. -/
theorem step_cases [Add D] [Zero D] (hpool : Pool pq clock events s) (a : WorkerAction n D T) :
    (∃ event s', s.step pq clock a = .ok (event, s') ∧ WorkersStep pq clock s event s') ∨
      ∃ e, s.step pq clock a = .error e ∧
        (e = .blocked ∨ s.Fails a) := by
  cases a with
  | post p =>
    cases hlock : s.locked with
    | true => exact Or.inr ⟨.blocked, by simp [WorkerThreads.step, hlock], Or.inl rfl⟩
    | false =>
      rcases postLocked_cases pq clock p hlock hpool.flags with
        ⟨event, s', hpost, hstep⟩ | ⟨hpost, hrange⟩
      · refine Or.inl ⟨event, s', ?_, hstep⟩
        simp [WorkerThreads.step, hlock, hpost, Except.mapError]
      · refine Or.inr ⟨.check .dcheck, ?_, Or.inr ⟨hlock, Or.inr hrange⟩⟩
        simp [WorkerThreads.step, hlock, hpost, Except.mapError]
  | calls i c =>
    cases hthread : s.threadPool i with
    | running task =>
      exact Or.inl ⟨.called i, s.setThread i (.calling task c),
        by simp only [WorkerThreads.step, hthread], .called hthread⟩
    | _ => exact Or.inr ⟨.blocked, by simp only [WorkerThreads.step, hthread], Or.inl rfl⟩
  | acquires i =>
    cases hthread : s.threadPool i with
    | calling task c =>
      cases c with
      | runner p =>
        cases hlock : s.locked with
        | true => exact Or.inr ⟨.blocked, by simp [WorkerThreads.step, hthread, hlock], Or.inl rfl⟩
        | false =>
          rcases postLocked_cases pq clock p (s := s.setThread i (.running task)) hlock
            hpool.flags with ⟨event, s', hpost, hstep⟩ | ⟨hpost, hopen, hrange⟩
          · refine Or.inl ⟨event, s', ?_, .got hthread hlock hstep⟩
            simp [WorkerThreads.step, hthread, hlock, hpost, Except.mapError]
          · refine Or.inr ⟨.check .dcheck, ?_,
              Or.inr ⟨hlock, Or.inr ⟨hopen, task, p, hthread, hrange⟩⟩⟩
            simp [WorkerThreads.step, hthread, hlock, hpost, Except.mapError]
      | onWorkerThread p =>
        cases hdestroying : s.destroying with
        | true =>
          exact Or.inr ⟨.blocked, by simp [WorkerThreads.step, hthread, hdestroying], Or.inl rfl⟩
        | false =>
          exact Or.inl ⟨.passed i, s.setThread i (.calling task (.runner p)),
            by simp [WorkerThreads.step, hthread, hdestroying], .passed hthread hdestroying⟩
      | platform =>
        cases hdestroying : s.destroying with
        | true =>
          exact Or.inr ⟨.blocked, by simp [WorkerThreads.step, hthread, hdestroying], Or.inl rfl⟩
        | false =>
          exact Or.inl ⟨.passed i, s.setThread i (.running task),
            by simp [WorkerThreads.step, hthread, hdestroying], .passedOn hthread hdestroying⟩
    | _ => exact Or.inr ⟨.blocked, by simp only [WorkerThreads.step, hthread], Or.inl rfl⟩
  | getNext i =>
    cases hthread : s.threadPool i with
    | idle =>
      obtain ⟨event, s', hstep, hcases, -⟩ := getNext_cases pq clock hthread
      exact Or.inl ⟨event, s', hstep, hcases⟩
    | _ => exact Or.inr ⟨.blocked, by simp only [WorkerThreads.step, hthread], Or.inl rfl⟩
  | returns i =>
    cases hthread : s.threadPool i with
    | running task =>
      exact Or.inl ⟨_, _, by simp only [WorkerThreads.step, hthread], .returned hthread⟩
    | _ => exact Or.inr ⟨.blocked, by simp only [WorkerThreads.step, hthread], Or.inl rfl⟩
  | destroy =>
    cases hdestroying : s.destroying with
    | true => exact Or.inr ⟨.blocked, by simp [WorkerThreads.step, hdestroying], Or.inl rfl⟩
    | false =>
      exact Or.inl ⟨.destroying, { s with destroying := true },
        by simp [WorkerThreads.step, hdestroying], .destroying hdestroying⟩
  | terminate =>
    cases hterminated : s.terminated with
    | true =>
      have hqueue : s.queue.terminated = true := hpool.flags.trans hterminated
      cases hlock : s.locked with
      | true => exact Or.inr ⟨.blocked, by simp [WorkerThreads.step, hlock], Or.inl rfl⟩
      | false =>
        -- the queue has been terminated too, and checks that it has not
        refine Or.inr ⟨.check .dcheck, ?_, Or.inr ⟨hlock, Or.inl ⟨hterminated, rfl⟩⟩⟩
        simp [WorkerThreads.step, hlock, DelayedTaskQueue.terminate, hqueue]
    | false =>
      have hqueue : s.queue.terminated = false := hpool.flags.trans hterminated
      -- only a `Terminate` that has not returned has the lock
      have hlock : s.locked = false := by
        by_contra hlock
        have := hpool.locked (Bool.not_eq_false _ ▸ hlock)
        rw [hterminated] at this
        cases this
      refine Or.inl ⟨_, _, ?_, .terminating hlock hqueue⟩
      simp [WorkerThreads.step, hlock, DelayedTaskQueue.terminate, hqueue]
  | join =>
    by_cases hjoin : s.locked = true ∧ ∀ i, (s.threadPool i).isEnded = true
    · refine Or.inl ⟨_, _, by simp only [WorkerThreads.step, if_pos hjoin], .joined hjoin.1 ?_⟩
      exact fun i => Worker.isEnded_iff.mp (hjoin.2 i)
    · exact Or.inr ⟨.blocked, by simp only [WorkerThreads.step, if_neg hjoin], Or.inl rfl⟩

/-- A step that is possible is one of these. -/
theorem step_of_ok [Add D] [Zero D] {a : WorkerAction n D T} (hpool : Pool pq clock events s)
    (hok : s.step pq clock a = .ok (event, s')) : WorkersStep pq clock s event s' := by
  rcases step_cases pq clock hpool a with ⟨event', s'', hstep, hcases⟩ | ⟨e, herror, -⟩
  · rw [hok] at hstep
    cases hstep
    exact hcases
  · rw [hok] at herror
    cases herror

/-- A thread that has not ended goes on, and has changed the queue. -/
theorem Pool.goes {events' : List (WorkerEvent n D T)} {queue : DelayedTaskQueue T Q}
    (h : Pool pq clock events s) (hi : s.threadPool i ≠ .ended) (hw : w ≠ .ended)
    (hqueue : queue.terminated = s.terminated) (hjoined : .joined ∈ events' → .joined ∈ events) :
    Pool pq clock events' (WorkerThreads.setThread { s with queue := queue } i w) := by
  have hself := WorkerThreads.setThread_self { s with queue := queue } (i := i) w
  refine ⟨hqueue, h.locked, fun j hj => ?_, fun _ hall => ?_, fun hmem => ?_⟩
  · by_cases hne : j = i
    · rw [hne, hself] at hj
      exact absurd hj hw
    · rw [WorkerThreads.setThread_of_ne _ w hne] at hj
      exact h.ended j hj
  · exact absurd (hself.symm.trans (hall i)) hw
  · exact absurd ((h.joined (hjoined hmem)).2 i) hi

/-- A step that leaves the threads as they are. -/
theorem Pool.concat (h : Pool pq clock events s) (hthreads : s'.threadPool = s.threadPool)
    (hflags : s'.queue.terminated = s'.terminated)
    (hlocked : s'.locked = true → s'.terminated = true)
    (hterminated : s.terminated = true → s'.terminated = true)
    (hdrained : s.terminated = true → s.queue.Drained pq clock → s'.queue.Drained pq clock)
    (hjoined : event = .joined → s.terminated = true ∧ ∀ i, s.threadPool i = .ended) :
    Pool pq clock (events ++ [event]) s' := by
  refine ⟨hflags, hlocked, fun i hi => ?_, fun hpos hall => ?_, fun hmem => ?_⟩
  · rw [hthreads] at hi
    exact hterminated (h.ended i hi)
  · rw [hthreads] at hall
    exact hdrained (h.ended ⟨0, hpos⟩ (hall _)) (h.drained hpos hall)
  · rw [hthreads]
    have hbefore : s.terminated = true ∧ ∀ i, s.threadPool i = .ended := by
      rcases List.mem_append.mp hmem with hmem | hmem
      · exact h.joined hmem
      · exact hjoined (List.mem_singleton.mp hmem).symm
    exact ⟨hterminated hbefore.1, hbefore.2⟩

omit [LinearOrder D] in
theorem joined_of_concat (hevent : event ≠ .joined) (h : .joined ∈ events ++ [event]) :
    .joined ∈ events := by
  rcases List.mem_append.mp h with h | h
  · exact h
  · exact absurd (List.mem_singleton.mp h).symm hevent

theorem Pool.step (h : Pool pq clock events s) (hstep : WorkersStep pq clock s event s') :
    Pool pq clock (events ++ [event]) s' := by
  -- a step that is only possible before `Terminate`
  have hbefore : ∀ {q : DelayedTaskQueue T Q}, s.terminated = false → s.terminated = true →
      s.queue.Drained pq clock → q.Drained pq clock := by
    intro q hopen hterminated
    rw [hopen] at hterminated
    cases hterminated
  induction hstep with
  | posted hopen _ => exact h.concat rfl h.flags h.locked id (hbefore hopen) nofun
  | delayed hopen _ => exact h.concat rfl h.flags h.locked id (hbefore hopen) nofun
  | refused _ _ => exact h.concat rfl h.flags h.locked id (fun _ => id) nofun
  | got hthread _ _ ih => exact ih (h.goes (by rw [hthread]; nofun) nofun h.flags id) hbefore
  | called hthread =>
    exact h.goes (by rw [hthread]; nofun) nofun h.flags (joined_of_concat nofun)
  | passed hthread _ =>
    exact h.goes (by rw [hthread]; nofun) nofun h.flags (joined_of_concat nofun)
  | passedOn hthread _ =>
    exact h.goes (by rw [hthread]; nofun) nofun h.flags (joined_of_concat nofun)
  | started hthread _ _ =>
    exact h.goes (by rw [hthread]; nofun) nofun h.flags (joined_of_concat nofun)
  | @ended s i m rest hthread hterminated _ hexpired =>
    refine ⟨h.flags, h.locked, fun j _ => h.flags.symm.trans hterminated, fun _ _ => ?_,
      fun hmem => ?_⟩
    · -- the thread has found nothing to run
      refine ⟨rfl, s.queue.readings, rfl, fun d hd => ?_⟩
      rcases hexpired.ahead with hnone | ⟨_, -, -, hahead⟩
      · exact absurd (hnone ▸ hd) (Multiset.notMem_zero d)
      · exact hahead d hd
    · have hjoined : .joined ∈ events := by
        refine joined_of_concat ?_ hmem
        nofun
      have hended := (h.joined hjoined).2 i
      rw [hthread] at hended
      cases hended
  | waits _ hopen _ _ =>
    exact h.concat rfl h.flags h.locked id (hbefore (h.flags.symm.trans hopen)) nofun
  | returned hthread =>
    exact h.goes (by rw [hthread]; nofun) nofun h.flags (joined_of_concat nofun)
  | destroying _ => exact h.concat rfl h.flags h.locked id (fun _ => id) nofun
  | terminating _ _ => exact h.concat rfl rfl (fun _ => rfl) (fun _ => rfl) (fun _ => id) nofun
  | joined hlocked hall =>
    exact h.concat rfl h.flags nofun id (fun _ => id) fun _ => ⟨h.locked hlocked, hall⟩

theorem pool_new : Pool pq clock [] (WorkerThreads.new pq : WorkerThreads n D T Q) where
  flags := rfl
  locked h := by cases h
  ended i h := by cases h
  drained hpos hall := by cases hall ⟨0, hpos⟩
  joined := nofun

/-- When the threads have been joined, nothing is started any more, and the queue stays as it
is. -/
theorem Pool.silent (h : Pool pq clock events s) (hjoined : .joined ∈ events)
    (hstep : WorkersStep pq clock s event s') :
    (∀ i task, event ≠ .started i task) ∧ s'.queue = s.queue := by
  obtain ⟨hterminated, hall⟩ := h.joined hjoined
  cases hstep with
  | posted hopen _ => cases hterminated.symm.trans hopen
  | delayed hopen _ => cases hterminated.symm.trans hopen
  | refused _ _ => exact ⟨nofun, rfl⟩
  | @got _ _ _ i _ _ hthread _ _ => cases (hall i).symm.trans hthread
  | @called _ i _ _ hthread => cases (hall i).symm.trans hthread
  | @passed _ i _ _ hthread _ => cases (hall i).symm.trans hthread
  | @passedOn _ i _ hthread _ => cases (hall i).symm.trans hthread
  | @started _ i _ _ _ _ _ hthread _ _ => cases (hall i).symm.trans hthread
  | @ended _ i _ _ hthread _ _ _ => cases (hall i).symm.trans hthread
  | @waits _ i _ _ hthread _ _ _ => cases (hall i).symm.trans hthread
  | @returned _ i _ hthread => cases (hall i).symm.trans hthread
  | destroying _ => exact ⟨nofun, rfl⟩
  | terminating _ hopen => cases (h.flags.trans hterminated).symm.trans hopen
  | joined _ _ => exact ⟨nofun, rfl⟩

end

/-! ## Accounts -/

/-- The tasks that have been posted to run at once, in order. -/
def postedTasks (events : List (WorkerEvent n D T)) : List T :=
  events.flatMap fun
    | .posted task => [task]
    | _ => []

/-- The tasks that have been posted to run later, with their times. -/
def delayedTasks (events : List (WorkerEvent n D T)) : List (DelayedTask D T) :=
  events.flatMap fun
    | .delayed d => [d]
    | _ => []

/-- The tasks that have been started, in order. -/
def startedTasks (events : List (WorkerEvent n D T)) : List T :=
  events.flatMap fun
    | .started _ task => [task]
    | _ => []

/-- All tasks that the runner has accepted. -/
def acceptedTasks (events : List (WorkerEvent n D T)) : Multiset T :=
  postedTasks events + (delayedTasks events).map DelayedTask.task

/-- A task has been posted to run at once, or the clock has reached its time. -/
def Reached [LE D] (clock : ℕ → D) (readings : ℕ) (events : List (WorkerEvent n D T)) (task : T) :
    Prop :=
  task ∈ postedTasks events ∨
    ∃ d ∈ delayedTasks events, d.task = task ∧ ∃ k < readings, d.deadline ≤ clock k

/-- What has been accepted has been started or is held, in order and in time. -/
structure Accounted [LinearOrder D]
    (pq : PriorityQueue Q (DelayedTask.deadline : DelayedTask D T → D)) (clock : ℕ → D)
    (events : List (WorkerEvent n D T)) (q : DelayedTaskQueue T Q) : Prop where
  conserved : acceptedTasks events = startedTasks events + q.held pq
  inOrder : ∀ P : T → Bool, (∀ d ∈ delayedTasks events, P d.task = false) →
    (startedTasks events).filter P ++ q.taskQueue.filter P = (postedTasks events).filter P
  /-- Each of the delayed tasks that wait has been posted. -/
  delayed : pq.contents q.delayedTaskQueue ≤ delayedTasks events
  reached : ∀ task, task ∈ startedTasks events ∨ task ∈ q.taskQueue →
    Reached clock q.readings events task

section

variable [LinearOrder D]
  {pq : PriorityQueue Q (DelayedTask.deadline : DelayedTask D T → D)} {clock : ℕ → D}
  {s s' : WorkerThreads n D T Q} {q q' : DelayedTaskQueue T Q} {event : WorkerEvent n D T}
  {events : List (WorkerEvent n D T)}

omit [LinearOrder D] in
theorem postedTasks_concat :
    postedTasks (events ++ [event]) = postedTasks events ++ postedTasks [event] :=
  List.flatMap_append

omit [LinearOrder D] in
theorem delayedTasks_concat :
    delayedTasks (events ++ [event]) = delayedTasks events ++ delayedTasks [event] :=
  List.flatMap_append

omit [LinearOrder D] in
theorem startedTasks_concat :
    startedTasks (events ++ [event]) = startedTasks events ++ startedTasks [event] :=
  List.flatMap_append

omit [LinearOrder D] in
theorem acceptedTasks_concat :
    acceptedTasks (events ++ [event]) = acceptedTasks events + acceptedTasks [event] := by
  rw [acceptedTasks, acceptedTasks, acceptedTasks, postedTasks_concat, delayedTasks_concat,
    List.map_append, ← Multiset.coe_add, ← Multiset.coe_add, add_add_add_comm]

/-- A task that has been posted is held. -/
theorem held_append (task : T) :
    DelayedTaskQueue.held pq { q with taskQueue := q.taskQueue ++ [task] } =
      task ::ₘ q.held pq := by
  rw [DelayedTaskQueue.held, DelayedTaskQueue.held, ← Multiset.coe_add, add_right_comm,
    Multiset.coe_singleton, add_comm, Multiset.singleton_add]

theorem held_push (d : DelayedTask D T) (readings : ℕ) :
    DelayedTaskQueue.held pq { q with
        delayedTaskQueue := pq.push d q.delayedTaskQueue
        readings := readings } = d.task ::ₘ q.held pq := by
  rw [DelayedTaskQueue.held, DelayedTaskQueue.held, pq.contents_push, Multiset.map_cons,
    Multiset.add_cons]

/-- A task that is started has been held. -/
theorem held_taken {now : D} {due : List (DelayedTask D T)} {m : ℕ} {rest : Q} {task : T}
    {tasks : List T} (readings : ℕ) (h : pq.Expired (fun _ => now) 0 q.delayedTaskQueue due m rest)
    (hqueue : q.taskQueue ++ due.map DelayedTask.task = task :: tasks) :
    q.held pq = task ::ₘ DelayedTaskQueue.held pq { q with
      taskQueue := tasks, delayedTaskQueue := rest, readings := readings } := by
  rw [DelayedTaskQueue.held, h.contents, Multiset.map_add, Multiset.map_coe, ← add_assoc,
    Multiset.coe_add, hqueue, ← Multiset.cons_coe, Multiset.cons_add]
  rfl

/-- When nothing is taken, the same tasks are held. -/
theorem held_none {now : D} {m : ℕ} {rest : Q} (readings : ℕ) (hqueue : q.taskQueue = [])
    (h : pq.Expired (fun _ => now) 0 q.delayedTaskQueue [] m rest) :
    DelayedTaskQueue.held pq { q with
      taskQueue := [], delayedTaskQueue := rest, readings := readings } = q.held pq := by
  rw [DelayedTaskQueue.held, DelayedTaskQueue.held, hqueue, h.contents, Multiset.coe_nil,
    Multiset.coe_nil, zero_add, zero_add, zero_add]

/-- What has been reached stays so. -/
theorem Reached.concat {m m' : ℕ} {task : T} (h : Reached clock m events task) (hm : m ≤ m') :
    Reached clock m' (events ++ [event]) task := by
  rw [Reached, postedTasks_concat, delayedTasks_concat]
  rcases h with hposted | ⟨d, hd, htask, k, hk, hreached⟩
  · exact Or.inl (List.mem_append_left _ hposted)
  · exact Or.inr ⟨d, List.mem_append_left _ hd, htask, k, Nat.lt_of_lt_of_le hk hm, hreached⟩

/-- A step that changes the queue. -/
theorem Accounted.concat (h : Accounted pq clock events q)
    (hequal : acceptedTasks [event] + q.held pq = startedTasks [event] + q'.held pq)
    (horder : ∀ P : T → Bool, (∀ d ∈ delayedTasks events, P d.task = false) →
      q.taskQueue.filter P ++ (postedTasks [event]).filter P =
        (startedTasks [event]).filter P ++ q'.taskQueue.filter P)
    (hdelayed : pq.contents q'.delayedTaskQueue ≤
      pq.contents q.delayedTaskQueue + delayedTasks [event])
    (hreadings : q.readings ≤ q'.readings)
    (hreached : ∀ task, task ∈ startedTasks [event] ∨ task ∈ q'.taskQueue →
      Reached clock q'.readings (events ++ [event]) task) :
    Accounted pq clock (events ++ [event]) q' := by
  constructor
  · rw [acceptedTasks_concat, h.conserved, startedTasks_concat, ← Multiset.coe_add, add_assoc,
      add_comm (q.held pq), hequal, add_assoc]
  · intro P hP
    have hbefore : ∀ d ∈ delayedTasks events, P d.task = false := by
      intro d hd
      apply hP
      rw [delayedTasks_concat]
      exact List.mem_append_left _ hd
    rw [startedTasks_concat, postedTasks_concat, List.filter_append, List.filter_append,
      ← h.inOrder P hbefore, List.append_assoc, List.append_assoc, horder P hbefore]
  · rw [delayedTasks_concat, ← Multiset.coe_add]
    exact hdelayed.trans (add_le_add_left h.delayed _)
  · intro task htask
    rw [startedTasks_concat, List.mem_append, or_assoc] at htask
    rcases htask with htask | htask
    · exact (h.reached task (Or.inl htask)).concat hreadings
    · exact hreached task htask

/-- A step after which the same tasks are held. -/
theorem Accounted.quiet (h : Accounted pq clock events q) (haccepted : acceptedTasks [event] = 0)
    (hposted : postedTasks [event] = []) (hstarted : startedTasks [event] = [])
    (hqueue : q'.taskQueue = q.taskQueue)
    (hdelayed : pq.contents q'.delayedTaskQueue = pq.contents q.delayedTaskQueue)
    (hreadings : q.readings ≤ q'.readings) : Accounted pq clock (events ++ [event]) q' := by
  refine h.concat ?_ (fun P _ => ?_) (hdelayed.le.trans (Multiset.le_add_right _ _)) hreadings
    fun task htask => ?_
  · rw [haccepted, hstarted, DelayedTaskQueue.held, DelayedTaskQueue.held, hqueue, hdelayed]
    rfl
  · rw [hposted, hstarted, hqueue]
    exact List.append_nil _
  · rw [hstarted, hqueue] at htask
    exact (h.reached task (Or.inr (htask.resolve_left List.not_mem_nil))).concat hreadings

theorem Accounted.step (h : Accounted pq clock events s.queue)
    (hstep : WorkersStep pq clock s event s') :
    Accounted pq clock (events ++ [event]) s'.queue := by
  induction hstep with
  | @posted s task _ _ =>
    refine h.concat ?_ (fun P _ => (List.filter_append ..).symm) (Multiset.le_add_right _ _) le_rfl
      fun t ht => ?_
    · rw [held_append, ← Multiset.singleton_add]
      exact (zero_add _).symm
    · rcases List.mem_append.mp (ht.resolve_left List.not_mem_nil) with ht | ht
      · exact (h.reached t (Or.inr ht)).concat le_rfl
      · rw [Reached, postedTasks_concat]
        exact Or.inl (List.mem_append_right _ ht)
  | @delayed s d _ _ =>
    refine h.concat ?_ (fun P _ => List.append_nil _) ?_ (Nat.le_succ _) fun t ht => ?_
    · rw [held_push, ← Multiset.singleton_add]
      exact (zero_add _).symm
    · rw [pq.contents_push, ← Multiset.singleton_add, add_comm]
      exact le_rfl
    · exact (h.reached t (Or.inr (ht.resolve_left List.not_mem_nil))).concat (Nat.le_succ _)
  | refused _ _ => exact h.quiet rfl rfl rfl rfl rfl le_rfl
  | got _ _ _ ih => exact ih h
  | called _ => exact h.quiet rfl rfl rfl rfl rfl le_rfl
  | passed _ _ => exact h.quiet rfl rfl rfl rfl rfl le_rfl
  | passedOn _ _ => exact h.quiet rfl rfl rfl rfl rfl le_rfl
  | @started s i due m rest task tasks _ hexpired hqueue =>
    have hdue : ∀ d ∈ due, d ∈ delayedTasks events := fun d hd =>
      Multiset.mem_coe.mp
        (Multiset.mem_of_le h.delayed (hexpired.mem_contents.mpr (Or.inl hd)))
    refine h.concat ?_ (fun P hP => ?_) ?_ (Nat.le_succ _) fun t ht => ?_
    · rw [held_taken _ hexpired hqueue, ← Multiset.singleton_add]
      exact zero_add _
    · -- what has been moved is not in `P`
      have hnone : (due.map DelayedTask.task).filter P = [] := by
        refine List.filter_eq_nil_iff.mpr fun t ht => ?_
        obtain ⟨d, hd, rfl⟩ := List.mem_map.mp ht
        rw [hP d (hdue d hd)]
        exact Bool.false_ne_true
      have hfilter := congrArg (List.filter P) hqueue
      rw [List.filter_append, hnone] at hfilter
      rw [← List.singleton_append, List.filter_append] at hfilter
      exact hfilter
    · rw [hexpired.contents]
      exact (Multiset.le_add_left _ _).trans (Multiset.le_add_right _ _)
    · -- it has been in the queue, or it has been moved
      have hmem : t ∈ s.queue.taskQueue ++ due.map DelayedTask.task := by
        rw [hqueue]
        rcases ht with ht | ht
        · rw [List.mem_singleton.mp ht]
          exact List.mem_cons_self
        · exact List.mem_cons_of_mem task ht
      rcases List.mem_append.mp hmem with hmem | hmem
      · exact (h.reached t (Or.inr hmem)).concat (Nat.le_succ _)
      · obtain ⟨d, hd, rfl⟩ := List.mem_map.mp hmem
        obtain ⟨_, -, -, hreached⟩ := hexpired.reached d hd
        rw [Reached, delayedTasks_concat]
        exact Or.inr ⟨d, List.mem_append_left _ (hdue d hd), rfl, s.queue.readings,
          Nat.lt_succ_self _, hreached⟩
  | ended _ _ hqueue hexpired =>
    exact h.quiet rfl rfl rfl hqueue.symm (hexpired.contents.trans (Multiset.zero_add _)).symm
      (Nat.le_succ _)
  | waits _ _ hqueue hexpired =>
    exact h.quiet rfl rfl rfl hqueue.symm (hexpired.contents.trans (Multiset.zero_add _)).symm
      (Nat.le_succ _)
  | returned _ => exact h.quiet rfl rfl rfl rfl rfl le_rfl
  | destroying _ => exact h.quiet rfl rfl rfl rfl rfl le_rfl
  | terminating _ _ => exact h.quiet rfl rfl rfl rfl rfl le_rfl
  | joined _ _ => exact h.quiet rfl rfl rfl rfl rfl le_rfl

theorem accounted_new : Accounted pq clock ([] : List (WorkerEvent n D T))
    (DelayedTaskQueue.new pq) where
  conserved := by
    rw [DelayedTaskQueue.held, DelayedTaskQueue.new, pq.contents_empty]
    rfl
  inOrder _ _ := rfl
  delayed := by
    rw [DelayedTaskQueue.new, pq.contents_empty]
    exact Multiset.zero_le _
  reached task htask := by
    rcases htask with htask | htask <;> cases htask

/-! ## Runs -/

/-- When a thread at least has been joined, the destructor's checks hold. -/
theorem Pool.destructible (h : Pool pq clock events s) (hpos : 0 < n) (hjoined : .joined ∈ events) :
    s.queue.Destructible := by
  obtain ⟨hterminated, hall⟩ := h.joined hjoined
  exact ⟨h.flags.trans hterminated, (h.drained hpos hall).1⟩

theorem workersInv_run [Add D] [Zero D] {actions : List (WorkerAction n D T)}
    {record : List (WorkerAction n D T × WorkerEvent n D T)}
    (h : run (WorkerThreads.step pq clock) (.new pq) actions = .ok (record, s)) :
    Pool pq clock (record.map Prod.snd) s ∧
      Accounted pq clock (record.map Prod.snd) s.queue := by
  refine run_induction (motive := fun record s => Pool pq clock (record.map Prod.snd) s ∧
    Accounted pq clock (record.map Prod.snd) s.queue) ?_ ⟨pool_new, accounted_new⟩ h
  rintro record s a event s' ⟨hpool, haccounted⟩ hok
  rw [List.map_append]
  have hcases := step_of_ok hpool hok
  exact ⟨hpool.step hcases, haccounted.step hcases⟩

/-- Numbers of tasks, by the seconds of a clock. -/
abbrev ExampleTasks := SortedList (DelayedTask.deadline : DelayedTask ℕ ℕ → ℕ)

def exampleTasks : PriorityQueue ExampleTasks (DelayedTask.deadline : DelayedTask ℕ ℕ → ℕ) :=
  SortedList.priorityQueue _

end

end NodeMini.Platform
