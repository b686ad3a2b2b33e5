import NodeMini.Lib.Run
import NodeMini.Platform.ForegroundTaskRunner

/-!
# Runs of the message loop

The isolate's thread pumps the loop and runs one task within another; meanwhile tasks are posted,
from any thread, and at some time the runner may be terminated. A run is any sequence of such
steps, and its events are what has been posted, started and returned.

Whatever the order of the steps, tasks are neither lost nor run twice, tasks posted in one way
start in the order in which they were posted, no delayed task starts before its time, and a task
that must not be nested starts only if no other one is running.

## Main definitions

* `MessageLoop`, `perform` — the loop and its steps
* `Event` — what is seen of a step
* `LoopLaw` — what holds after every run
* `ProgressLaw` — a task that waits is started when the loop has been pumped often enough

## Main results

* `perform_cases` — what a step can do
* `loopLaw` — `LoopLaw`, for every run
* `starts_within` — `ProgressLaw`, for every run
-/

namespace NodeMini.Platform

open Lib

/-- The runner of an isolate, and the tasks that are running, the innermost first. -/
structure MessageLoop (T Q : Type) where
  runner : DefaultForegroundTaskRunner T Q
  running : List T

/-- A step of the loop. -/
inductive Action (D T : Type)
  | postTask (task : T)
  | postNonNestableTask (task : T)
  | postDelayedTask (task : T) (delayInSeconds : D)
  | postNonNestableDelayedTask (task : T) (delayInSeconds : D)
  /-- `PumpMessageLoop` up to `task->Run()`. -/
  | pumpMessageLoop
  /-- `task->Run()` comes to its end. -/
  | taskReturns
  | terminate

/-- What is seen of a step. -/
inductive Event (D T : Type)
  | posted (e : TaskQueueEntry T)
  | delayed (e : DelayedEntry D T)
  | refused (task : T)
  | started (e : TaskQueueEntry T)
  | nothing
  | returned (task : T)
  | terminated
  deriving DecidableEq, Repr

/-- No task is running that could return. -/
inductive Misuse
  | noTask
  deriving DecidableEq, Repr

variable {D T Q : Type}

/-- A terminated runner refuses a task. -/
def DefaultForegroundTaskRunner.answer (r : DefaultForegroundTaskRunner T Q) (task : T)
    (event : Event D T) : Event D T := if r.terminated then .refused task else event

section

variable [LinearOrder D] [Add D]
  (pq : PriorityQueue Q (DelayedEntry.timeoutTime : DelayedEntry D T → D)) (clock : ℕ → D)

/-- A loop at its start. -/
def MessageLoop.new : MessageLoop T Q := ⟨.new pq, []⟩

/-- Perform a step. -/
def perform (s : MessageLoop T Q) : Action D T → Except Misuse (Event D T × MessageLoop T Q)
  | .postTask task =>
    .ok (s.runner.answer task (.posted (.kNestable, task)),
      { s with runner := s.runner.postTask task })
  | .postNonNestableTask task =>
    .ok (s.runner.answer task (.posted (.kNonNestable, task)),
      { s with runner := s.runner.postNonNestableTask task })
  | .postDelayedTask task delay =>
    .ok (s.runner.answer task (.delayed (s.runner.delayedEntry clock task delay .kNestable)),
      { s with runner := s.runner.postDelayedTask pq clock task delay })
  | .postNonNestableDelayedTask task delay =>
    .ok (s.runner.answer task (.delayed (s.runner.delayedEntry clock task delay .kNonNestable)),
      { s with runner := s.runner.postNonNestableDelayedTask pq clock task delay })
  | .pumpMessageLoop =>
    match pumpMessageLoop pq clock s.runner with
    | (none, r) => .ok (.nothing, { s with runner := r })
    | (some e, r) => .ok (.started e, ⟨r, e.2 :: s.running⟩)
  | .taskReturns =>
    match s.running with
    | [] => .error .noTask
    | task :: running =>
      .ok (.returned task, ⟨{ s.runner with nestingDepth := s.runner.nestingDepth - 1 }, running⟩)
  | .terminate => .ok (.terminated, { s with runner := s.runner.terminate pq })

end

/-! ## What holds after a run -/

/-- The tasks that have been posted to run as soon as possible, in order. -/
def postedOf (events : List (Event D T)) : List (TaskQueueEntry T) :=
  events.flatMap fun
    | .posted e => [e]
    | _ => []

/-- The tasks that have been posted to run later, with their times. -/
def delayedOf (events : List (Event D T)) : List (DelayedEntry D T) :=
  events.flatMap fun
    | .delayed e => [e]
    | _ => []

/-- The tasks that have been started, in order. -/
def startedOf (events : List (Event D T)) : List (TaskQueueEntry T) :=
  events.flatMap fun
    | .started e => [e]
    | _ => []

/-- The tasks that are running after an event. -/
def Event.stack (running : List T) : Event D T → List T
  | .started e => e.2 :: running
  | .returned _ => running.tail
  | _ => running

/-- The tasks that are running after some events. -/
def runningOf (events : List (Event D T)) : List T := events.foldl Event.stack []

/-- All tasks that the runner has accepted. -/
def accepted (events : List (Event D T)) : Multiset (TaskQueueEntry T) :=
  postedOf events + (delayedOf events).map DelayedEntry.entry

section

variable {events : List (Event D T)} {event : Event D T}

theorem postedOf_concat : postedOf (events ++ [event]) = postedOf events ++ postedOf [event] :=
  List.flatMap_append

theorem delayedOf_concat : delayedOf (events ++ [event]) = delayedOf events ++ delayedOf [event] :=
  List.flatMap_append

theorem startedOf_concat : startedOf (events ++ [event]) = startedOf events ++ startedOf [event] :=
  List.flatMap_append

theorem runningOf_concat : runningOf (events ++ [event]) = event.stack (runningOf events) := by
  rw [runningOf, List.foldl_append]
  rfl

theorem accepted_concat : accepted (events ++ [event]) = accepted events + accepted [event] := by
  rw [accepted, accepted, accepted, postedOf_concat, delayedOf_concat, List.map_append,
    ← Multiset.coe_add, ← Multiset.coe_add, add_add_add_comm]

end

/-- The tasks that wait. -/
def MessageLoop.waiting [LinearOrder D]
    (pq : PriorityQueue Q (DelayedEntry.timeoutTime : DelayedEntry D T → D))
    (s : MessageLoop T Q) : Multiset (TaskQueueEntry T) :=
  s.runner.taskQueue + (pq.contents s.runner.delayedTaskQueue).map DelayedEntry.entry

/-- A task has been posted to run at once, or the clock has reached its time. -/
def Due [LE D] (clock : ℕ → D) (readings : ℕ) (events : List (Event D T))
    (e : TaskQueueEntry T) : Prop :=
  e ∈ postedOf events ∨
    ∃ d ∈ delayedOf events, d.entry = e ∧ ∃ k < readings, d.timeoutTime ≤ clock k

/-- If there was nothing to run, and nothing is running, then no task waits but those whose time
was ahead of the last reading of the clock. -/
def Exhausted [LinearOrder D]
    (pq : PriorityQueue Q (DelayedEntry.timeoutTime : DelayedEntry D T → D)) (clock : ℕ → D)
    (events : List (Event D T)) (s : MessageLoop T Q) : Prop :=
  events.getLast? = some .nothing → s.running = [] →
    s.runner.taskQueue = [] ∧ ∀ d ∈ pq.contents s.runner.delayedTaskQueue,
      clock (s.runner.readings - 1) < d.timeoutTime

/-- What holds after a run with these events. -/
structure LoopLaw [LinearOrder D]
    (pq : PriorityQueue Q (DelayedEntry.timeoutTime : DelayedEntry D T → D)) (clock : ℕ → D)
    (events : List (Event D T)) (s : MessageLoop T Q) : Prop where
  /-- The nesting depth is that of the tasks which are running. -/
  depth : s.running = runningOf events ∧ s.runner.nestingDepth = s.running.length
  /-- Tasks are not lost and not run twice: each one that has been accepted has been started or
  waits. -/
  conserved : s.runner.terminated = false →
    accepted events = startedOf events + s.waiting pq
  /-- After a termination nothing waits, and what has been started had been accepted. -/
  terminated : s.runner.terminated = true →
    s.waiting pq = 0 ∧ (startedOf events : Multiset _) ≤ accepted events
  /-- Tasks that have been posted alike start in the order in which they were posted. -/
  inOrder : ∀ (P : TaskQueueEntry T → Bool) (n : Nestability), (∀ e, P e = true → e.1 = n) →
    (∀ d ∈ delayedOf events, P d.entry = false) →
    (startedOf events).filter P <+: (postedOf events).filter P
  /-- No delayed task has been started before its time. -/
  onTime : ∀ e ∈ startedOf events, Due clock s.runner.readings events e
  /-- A task that must not be nested has been started when no other was running. -/
  notNested : ∀ (i : ℕ) (e : TaskQueueEntry T), events[i]? = some (.started e) →
    e.1 = .kNonNestable → runningOf (events.take i) = []
  /-- When the loop comes to its end, nothing that is due is left. -/
  exhausted : Exhausted pq clock events s

/-! ## What a step can do -/

/-- A step with an event. -/
inductive Stepped [LinearOrder D]
    (pq : PriorityQueue Q (DelayedEntry.timeoutTime : DelayedEntry D T → D)) (clock : ℕ → D) :
    MessageLoop T Q → Event D T → MessageLoop T Q → Prop
  | posted {s : MessageLoop T Q} {e : TaskQueueEntry T} : s.runner.terminated = false →
    Stepped pq clock s (.posted e)
      { s with runner := { s.runner with taskQueue := s.runner.taskQueue ++ [e] } }
  | delayed {s : MessageLoop T Q} {e : DelayedEntry D T} : s.runner.terminated = false →
    Stepped pq clock s (.delayed e)
      { s with runner := { s.runner with
          delayedTaskQueue := pq.push e s.runner.delayedTaskQueue
          readings := s.runner.readings + 1 } }
  | refused {s : MessageLoop T Q} {task : T} : s.runner.terminated = true →
    Stepped pq clock s (.refused task) s
  | started {s : MessageLoop T Q} {due : List (DelayedEntry D T)} {readings : ℕ} {rest : Q}
      {e : TaskQueueEntry T} : s.runner.terminated = false →
    pq.Expired clock s.runner.readings s.runner.delayedTaskQueue due readings rest →
    (s.runner.moved due readings rest).taskQueue.find? s.runner.poppable = some e →
    Stepped pq clock s (.started e)
      { runner := { s.runner.moved due readings rest with
          taskQueue := (s.runner.moved due readings rest).taskQueue.eraseP s.runner.poppable
          nestingDepth := s.runner.nestingDepth + 1 }
        running := e.2 :: s.running }
  | nothing {s : MessageLoop T Q} {due : List (DelayedEntry D T)} {readings : ℕ} {rest : Q} :
    s.runner.terminated = false →
    pq.Expired clock s.runner.readings s.runner.delayedTaskQueue due readings rest →
    (s.runner.moved due readings rest).taskQueue.find? s.runner.poppable = none →
    Stepped pq clock s .nothing { s with runner := s.runner.moved due readings rest }
  | drained {s : MessageLoop T Q} : s.runner.terminated = true → Stepped pq clock s .nothing s
  | returned {s : MessageLoop T Q} {task : T} {running : List T} : s.running = task :: running →
    Stepped pq clock s (.returned task)
      { runner := { s.runner with nestingDepth := s.runner.nestingDepth - 1 }
        running := running }
  | terminated {s : MessageLoop T Q} :
    Stepped pq clock s .terminated { s with runner := s.runner.terminate pq }

/-- Nothing waits in a loop that has been terminated. -/
def Drained [LinearOrder D] (pq : PriorityQueue Q (DelayedEntry.timeoutTime : DelayedEntry D T → D))
    (s : MessageLoop T Q) : Prop := s.runner.terminated = true → s.waiting pq = 0

section

variable [LinearOrder D]
  {pq : PriorityQueue Q (DelayedEntry.timeoutTime : DelayedEntry D T → D)} {clock : ℕ → D}
  {s s' : MessageLoop T Q} {events : List (Event D T)} {event : Event D T}

theorem waiting_eq_zero_iff : s.waiting pq = 0 ↔
    s.runner.taskQueue = [] ∧ pq.contents s.runner.delayedTaskQueue = 0 := by
  rw [MessageLoop.waiting, ← Multiset.card_eq_zero, Multiset.card_add, Nat.add_eq_zero_iff,
    Multiset.card_eq_zero, Multiset.card_eq_zero, Multiset.coe_eq_zero, Multiset.map_eq_zero]

/-- Posting to a runner that has been terminated, or not. -/
theorem stepped_post (e : TaskQueueEntry T) :
    Stepped pq clock s (s.runner.answer e.2 (.posted e))
      { s with runner := s.runner.postTaskLocked e } := by
  unfold DefaultForegroundTaskRunner.answer DefaultForegroundTaskRunner.postTaskLocked
  by_cases hterminated : s.runner.terminated = true
  · rw [if_pos hterminated, if_pos hterminated]
    exact .refused hterminated
  · rw [if_neg hterminated, if_neg hterminated]
    exact .posted (Bool.eq_false_iff.mpr hterminated)

theorem stepped_delay [Add D] (task : T) (delay : D) (nestability : Nestability) :
    Stepped pq clock s
      (s.runner.answer task (.delayed (s.runner.delayedEntry clock task delay nestability)))
      { s with runner := s.runner.postDelayedTaskLocked pq clock task delay nestability } := by
  unfold DefaultForegroundTaskRunner.answer DefaultForegroundTaskRunner.postDelayedTaskLocked
  by_cases hterminated : s.runner.terminated = true
  · rw [if_pos hterminated, if_pos hterminated]
    exact .refused hterminated
  · rw [if_neg hterminated, if_neg hterminated]
    exact .delayed (Bool.eq_false_iff.mpr hterminated)

/-- What a step of a loop can do. -/
theorem perform_cases [Add D] {a : Action D T} (hdrained : Drained pq s)
    (h : perform pq clock s a = .ok (event, s')) : Stepped pq clock s event s' := by
  cases a with
  | postTask task =>
    cases h
    exact stepped_post (.kNestable, task)
  | postNonNestableTask task =>
    cases h
    exact stepped_post (.kNonNestable, task)
  | postDelayedTask task delay =>
    cases h
    exact stepped_delay task delay .kNestable
  | postNonNestableDelayedTask task delay =>
    cases h
    exact stepped_delay task delay .kNonNestable
  | pumpMessageLoop =>
    cases hterminated : s.runner.terminated with
    | true =>
      obtain ⟨hqueue, hdelayed⟩ := waiting_eq_zero_iff.mp (hdrained hterminated)
      rw [perform, pumpMessageLoop,
        DefaultForegroundTaskRunner.popTaskFromQueue_drained hqueue hdelayed] at h
      cases h
      exact .drained hterminated
    | false =>
      obtain ⟨due, readings, rest, hexpired, hpop⟩ :
          ∃ due readings rest,
            pq.Expired clock s.runner.readings s.runner.delayedTaskQueue due readings rest ∧
            s.runner.popTaskFromQueue pq clock = _ :=
        DefaultForegroundTaskRunner.popTaskFromQueue_open hterminated
      rw [perform, pumpMessageLoop, hpop] at h
      cases hfound : (s.runner.moved due readings rest).taskQueue.find? s.runner.poppable with
      | none =>
        rw [hfound] at h
        cases h
        have hsame : (s.runner.moved due readings rest).taskQueue.eraseP s.runner.poppable =
            (s.runner.moved due readings rest).taskQueue :=
          List.eraseP_of_forall_not (List.find?_eq_none.mp hfound)
        rw [hsame]
        exact .nothing hterminated hexpired hfound
      | some e =>
        rw [hfound] at h
        cases h
        exact .started hterminated hexpired hfound
  | taskReturns =>
    rw [perform] at h
    cases hrunning : s.running with
    | nil =>
      rw [hrunning] at h
      cases h
    | cons task running =>
      rw [hrunning] at h
      cases h
      exact .returned hrunning
  | terminate =>
    cases h
    exact .terminated

/-! ## Every step keeps it -/

/-! ### Accounts -/

/-- What has been accepted is what has been started and what waits. -/
structure Accounts [LinearOrder D]
    (pq : PriorityQueue Q (DelayedEntry.timeoutTime : DelayedEntry D T → D))
    (events : List (Event D T)) (s : MessageLoop T Q) : Prop where
  drained : Drained pq s
  conserved : s.runner.terminated = false → accepted events = startedOf events + s.waiting pq
  bounded : (startedOf events : Multiset (TaskQueueEntry T)) ≤ accepted events

/-- Moving tasks does not change what waits. -/
theorem waiting_moved {due : List (DelayedEntry D T)} {readings : ℕ} {rest : Q}
    (h : pq.Expired clock s.runner.readings s.runner.delayedTaskQueue due readings rest) :
    MessageLoop.waiting pq { s with runner := s.runner.moved due readings rest } =
      s.waiting pq := by
  rw [MessageLoop.waiting, MessageLoop.waiting, h.contents, Multiset.map_add, Multiset.map_coe,
    ← add_assoc, Multiset.coe_add]
  rfl

/-- A task that has been posted waits. -/
theorem waiting_posted (e : TaskQueueEntry T) : MessageLoop.waiting pq
    { s with runner := { s.runner with taskQueue := s.runner.taskQueue ++ [e] } } =
      e ::ₘ s.waiting pq := by
  rw [MessageLoop.waiting, MessageLoop.waiting, ← Multiset.coe_add, add_right_comm,
    Multiset.coe_singleton, add_comm, Multiset.singleton_add]

theorem waiting_delayed (e : DelayedEntry D T) : MessageLoop.waiting pq
    { s with runner := { s.runner with
        delayedTaskQueue := pq.push e s.runner.delayedTaskQueue
        readings := s.runner.readings + 1 } } = e.entry ::ₘ s.waiting pq := by
  rw [MessageLoop.waiting, MessageLoop.waiting, pq.contents_push, Multiset.map_cons,
    Multiset.add_cons]

/-- A task that is started has waited. -/
theorem waiting_started {due : List (DelayedEntry D T)} {readings : ℕ} {rest : Q}
    {e : TaskQueueEntry T}
    (h : pq.Expired clock s.runner.readings s.runner.delayedTaskQueue due readings rest)
    (hfound : (s.runner.moved due readings rest).taskQueue.find? s.runner.poppable = some e) :
    s.waiting pq = e ::ₘ MessageLoop.waiting pq
      { runner := { s.runner.moved due readings rest with
          taskQueue := (s.runner.moved due readings rest).taskQueue.eraseP s.runner.poppable
          nestingDepth := s.runner.nestingDepth + 1 }
        running := e.2 :: s.running } := by
  rw [← waiting_moved h, MessageLoop.waiting, Multiset.coe_eq_coe.mpr (perm_of_find? hfound),
    ← Multiset.cons_coe, Multiset.cons_add]
  rfl

/-- A step of a loop that stays open. -/
theorem Accounts.concat (h : Accounts pq events s) (hopen : s.runner.terminated = false)
    (hopen' : s'.runner.terminated = false)
    (hequal : accepted [event] + s.waiting pq = startedOf [event] + s'.waiting pq) :
    Accounts pq (events ++ [event]) s' := by
  have hconserved : accepted (events ++ [event]) =
      startedOf (events ++ [event]) + s'.waiting pq := by
    rw [accepted_concat, h.conserved hopen, startedOf_concat, ← Multiset.coe_add, add_assoc,
      add_comm (s.waiting pq), hequal, add_assoc]
  constructor
  · intro hterminated
    rw [hopen'] at hterminated
    cases hterminated
  · exact fun _ => hconserved
  · rw [hconserved]
    exact Multiset.le_add_right _ _

/-- A step that neither posts a task nor starts one. -/
theorem Accounts.quiet (h : Accounts pq events s) (hstarted : startedOf [event] = [])
    (haccepted : accepted [event] = 0)
    (hterminated : s'.runner.terminated = s.runner.terminated)
    (hwaiting : s'.waiting pq = s.waiting pq) : Accounts pq (events ++ [event]) s' := by
  have hsame : startedOf (events ++ [event]) = startedOf events := by
    rw [startedOf_concat, hstarted, List.append_nil]
  constructor
  · intro h'
    rw [hwaiting]
    exact h.drained (hterminated ▸ h')
  · intro h'
    rw [accepted_concat, haccepted, add_zero, hsame, hwaiting]
    exact h.conserved (hterminated ▸ h')
  · rw [accepted_concat, haccepted, add_zero, hsame]
    exact h.bounded

theorem Accounts.step (h : Accounts pq events s) (hstep : Stepped pq clock s event s') :
    Accounts pq (events ++ [event]) s' := by
  cases hstep with
  | @posted e hopen =>
    refine h.concat hopen hopen ?_
    rw [waiting_posted, ← Multiset.singleton_add]
    exact (zero_add _).symm
  | @delayed e hopen =>
    refine h.concat hopen hopen ?_
    rw [waiting_delayed, ← Multiset.singleton_add]
    exact (zero_add _).symm
  | refused _ => exact h.quiet rfl rfl rfl rfl
  | started hopen hexpired hfound =>
    refine h.concat hopen hopen ?_
    rw [waiting_started hexpired hfound, ← Multiset.singleton_add]
    exact zero_add _
  | nothing hopen hexpired _ => exact h.quiet rfl rfl rfl (waiting_moved hexpired)
  | drained _ => exact h.quiet rfl rfl rfl rfl
  | returned _ => exact h.quiet rfl rfl rfl rfl
  | terminated =>
    -- both queues are emptied, and what had been started stays started
    have hnothing : MessageLoop.waiting pq { s with runner := s.runner.terminate pq } = 0 :=
      waiting_eq_zero_iff.mpr ⟨rfl, pq.contents_empty⟩
    refine ⟨fun _ => hnothing, nofun, ?_⟩
    rw [accepted_concat, startedOf_concat]
    change ((startedOf events ++ [] : List _) : Multiset _) ≤ accepted events + 0
    rw [List.append_nil, add_zero]
    exact h.bounded

/-! ### Times -/

/-- The tasks in the queues have been posted, and those that are to run at once are due. -/
structure Timed [LinearOrder D]
    (pq : PriorityQueue Q (DelayedEntry.timeoutTime : DelayedEntry D T → D)) (clock : ℕ → D)
    (events : List (Event D T)) (s : MessageLoop T Q) : Prop where
  known : ∀ d ∈ pq.contents s.runner.delayedTaskQueue, d ∈ delayedOf events
  due : ∀ e, e ∈ startedOf events ∨ e ∈ s.runner.taskQueue →
    Due clock s.runner.readings events e

/-- What is due stays due. -/
theorem Due.concat {n n' : ℕ} {e : TaskQueueEntry T} (h : Due clock n events e) (hn : n ≤ n') :
    Due clock n' (events ++ [event]) e := by
  rw [Due, postedOf_concat, delayedOf_concat]
  rcases h with hposted | ⟨d, hd, hentry, k, hk, hreached⟩
  · exact Or.inl (List.mem_append_left _ hposted)
  · exact Or.inr ⟨d, List.mem_append_left _ hd, hentry, k, Nat.lt_of_lt_of_le hk hn, hreached⟩

/-- What is moved to the queue is due. -/
theorem Timed.moved {due : List (DelayedEntry D T)} {readings : ℕ} {rest : Q}
    (h : Timed pq clock events s)
    (hexpired : pq.Expired clock s.runner.readings s.runner.delayedTaskQueue due readings rest)
    {e : TaskQueueEntry T} (he : e ∈ (s.runner.moved due readings rest).taskQueue) :
    Due clock readings (events ++ [event]) e := by
  rcases List.mem_append.mp he with he | he
  · exact (h.due e (Or.inr he)).concat hexpired.readings
  · obtain ⟨d, hd, rfl⟩ := List.mem_map.mp he
    obtain ⟨k, -, hk, hreached⟩ := hexpired.reached d hd
    have hknown : d ∈ delayedOf events := h.known d (hexpired.mem_contents.mpr (Or.inl hd))
    rw [Due, delayedOf_concat]
    exact Or.inr ⟨d, List.mem_append_left _ hknown, rfl, k, hk, hreached⟩

/-- A step that moves no task and starts none. -/
theorem Timed.concat (h : Timed pq clock events s) (hstarted : startedOf [event] = [])
    (hreadings : s.runner.readings ≤ s'.runner.readings)
    (hknown : ∀ d ∈ pq.contents s'.runner.delayedTaskQueue,
      d ∈ pq.contents s.runner.delayedTaskQueue ∨ d ∈ delayedOf [event])
    (hqueue : ∀ e ∈ s'.runner.taskQueue, e ∈ s.runner.taskQueue ∨ e ∈ postedOf [event]) :
    Timed pq clock (events ++ [event]) s' := by
  constructor
  · intro d hd
    rw [delayedOf_concat]
    rcases hknown d hd with hd | hd
    · exact List.mem_append_left _ (h.known d hd)
    · exact List.mem_append_right _ hd
  · intro e he
    rw [startedOf_concat, hstarted, List.append_nil] at he
    rcases he with he | he
    · exact (h.due e (Or.inl he)).concat hreadings
    · rcases hqueue e he with he | he
      · exact (h.due e (Or.inr he)).concat hreadings
      · rw [Due, postedOf_concat]
        exact Or.inl (List.mem_append_right _ he)

theorem Timed.step (h : Timed pq clock events s) (hstep : Stepped pq clock s event s') :
    Timed pq clock (events ++ [event]) s' := by
  have hrest : ∀ {due readings rest},
      pq.Expired clock s.runner.readings s.runner.delayedTaskQueue due readings rest →
      ∀ d ∈ pq.contents rest, d ∈ delayedOf (events ++ [event]) := by
    intro due readings rest hexpired d hd
    rw [delayedOf_concat]
    exact List.mem_append_left _ (h.known d (hexpired.mem_contents.mpr (Or.inr hd)))
  cases hstep with
  | posted _ => exact h.concat rfl le_rfl (fun _ => Or.inl) fun _ => List.mem_append.mp
  | delayed _ =>
    refine h.concat rfl (Nat.le_succ _) (fun d hd => ?_) fun _ => Or.inl
    rw [pq.contents_push, Multiset.mem_cons] at hd
    rcases hd with rfl | hd
    · exact Or.inr (List.mem_singleton_self d)
    · exact Or.inl hd
  | refused _ => exact h.concat rfl le_rfl (fun _ => Or.inl) fun _ => Or.inl
  | started hopen hexpired hfound =>
    refine ⟨hrest hexpired, fun e he => ?_⟩
    rcases he with he | he
    · rw [startedOf_concat] at he
      rcases List.mem_append.mp he with he | he
      · exact (h.due e (Or.inl he)).concat hexpired.readings
      · -- the task that is started comes from the queue
        obtain rfl := List.mem_singleton.mp he
        exact h.moved hexpired (List.mem_of_find?_eq_some hfound)
    · exact h.moved hexpired (List.mem_of_mem_eraseP he)
  | nothing hopen hexpired hfound =>
    refine ⟨hrest hexpired, fun e he => ?_⟩
    rcases he with he | he
    · rw [startedOf_concat] at he
      exact (h.due e (Or.inl (by rwa [← List.append_nil (startedOf events)]))).concat
        hexpired.readings
    · exact h.moved hexpired he
  | drained _ => exact h.concat rfl le_rfl (fun _ => Or.inl) fun _ => Or.inl
  | returned _ => exact h.concat rfl le_rfl (fun _ => Or.inl) fun _ => Or.inl
  | terminated =>
    refine h.concat rfl le_rfl (fun d hd => ?_) nofun
    change d ∈ pq.contents pq.empty at hd
    rw [pq.contents_empty] at hd
    exact absurd hd (Multiset.notMem_zero d)

/-! ### Order -/

/-- Of the tasks in `P` those that have been started and those that wait are the ones that have
been posted, in order. -/
structure Ordered (P : TaskQueueEntry T → Bool) (events : List (Event D T))
    (s : MessageLoop T Q) : Prop where
  queued : s.runner.terminated = false →
    (startedOf events).filter P ++ s.runner.taskQueue.filter P = (postedOf events).filter P
  started : (startedOf events).filter P <+: (postedOf events).filter P

omit [LinearOrder D] in
/-- A step of a loop that stays open. -/
theorem Ordered.concat {P : TaskQueueEntry T → Bool} (h : Ordered P events s)
    (hopen : s.runner.terminated = false)
    (hequal : s.runner.taskQueue.filter P ++ (postedOf [event]).filter P =
      (startedOf [event]).filter P ++ s'.runner.taskQueue.filter P) :
    Ordered P (events ++ [event]) s' := by
  have hqueued : (startedOf (events ++ [event])).filter P ++ s'.runner.taskQueue.filter P =
      (postedOf (events ++ [event])).filter P := by
    rw [startedOf_concat, postedOf_concat, List.filter_append, List.filter_append,
      ← h.queued hopen, List.append_assoc, List.append_assoc, hequal]
  exact ⟨fun _ => hqueued, ⟨_, hqueued⟩⟩

omit [LinearOrder D] in
/-- A step that neither posts a task nor starts one. -/
theorem Ordered.quiet {P : TaskQueueEntry T → Bool} (h : Ordered P events s)
    (hposted : postedOf [event] = []) (hstarted : startedOf [event] = [])
    (hqueue : s'.runner.terminated = false →
      s.runner.terminated = false ∧ s'.runner.taskQueue = s.runner.taskQueue) :
    Ordered P (events ++ [event]) s' := by
  constructor
  · intro hopen
    obtain ⟨hopen, hqueue⟩ := hqueue hopen
    rw [startedOf_concat, postedOf_concat, hposted, hstarted, List.append_nil, List.append_nil,
      hqueue, h.queued hopen]
  · rw [startedOf_concat, postedOf_concat, hposted, hstarted, List.append_nil, List.append_nil]
    exact h.started

/-- Tasks in `P` are not among those that are moved. -/
theorem filter_moved {P : TaskQueueEntry T → Bool} {due : List (DelayedEntry D T)} {readings : ℕ}
    {rest : Q} (htimed : Timed pq clock events s)
    (hexpired : pq.Expired clock s.runner.readings s.runner.delayedTaskQueue due readings rest)
    (hdelayed : ∀ d ∈ delayedOf events, P d.entry = false) :
    (s.runner.moved due readings rest).taskQueue.filter P = s.runner.taskQueue.filter P := by
  have hnone : (due.map DelayedEntry.entry).filter P = [] := by
    refine List.filter_eq_nil_iff.mpr fun e he => ?_
    obtain ⟨d, hd, rfl⟩ := List.mem_map.mp he
    rw [hdelayed d (htimed.known d (hexpired.mem_contents.mpr (Or.inl hd)))]
    exact Bool.false_ne_true
  rw [DefaultForegroundTaskRunner.moved, List.filter_append, hnone, List.append_nil]

theorem Ordered.step {P : TaskQueueEntry T → Bool} {n : Nestability} (h : Ordered P events s)
    (htimed : Timed pq clock events s) (hstep : Stepped pq clock s event s')
    (hP : ∀ e, P e = true → e.1 = n) (hdelayed : ∀ d ∈ delayedOf events, P d.entry = false) :
    Ordered P (events ++ [event]) s' := by
  cases hstep with
  | posted hopen =>
    refine h.concat hopen ?_
    exact (List.filter_append ..).symm
  | delayed hopen => exact h.quiet rfl rfl fun _ => ⟨hopen, rfl⟩
  | refused hterminated => exact h.quiet rfl rfl fun hopen => ⟨hopen, rfl⟩
  | @started due readings rest e hopen hexpired hfound =>
    refine h.concat hopen ?_
    have hmoved := filter_moved htimed hexpired hdelayed
    -- a task of the same nestability could have been taken as well
    have hfirst := filter_eq_of_find? (P := P) hfound fun hPe e' hPe' => by
      have hpoppable := List.find?_some hfound
      rw [DefaultForegroundTaskRunner.poppable, hP e hPe] at hpoppable
      rw [DefaultForegroundTaskRunner.poppable, hP e' hPe']
      exact hpoppable
    rw [← hmoved, hfirst]
    exact List.append_nil _
  | nothing hopen hexpired hfound =>
    refine h.concat hopen ?_
    exact (List.append_nil _).trans (filter_moved htimed hexpired hdelayed).symm
  | drained hterminated => exact h.quiet rfl rfl fun hopen => ⟨hopen, rfl⟩
  | returned _ => exact h.quiet rfl rfl fun hopen => ⟨hopen, rfl⟩
  | terminated => exact h.quiet rfl rfl nofun

/-! ### Nesting -/

/-- The nesting depth counts the tasks that are running. -/
structure Nested (events : List (Event D T)) (s : MessageLoop T Q) : Prop where
  running : s.running = runningOf events
  depth : s.runner.nestingDepth = s.running.length
  notNested : ∀ (i : ℕ) (e : TaskQueueEntry T), events[i]? = some (.started e) →
    e.1 = .kNonNestable → runningOf (events.take i) = []

omit [LinearOrder D] in
theorem Nested.concat (h : Nested events s) (hrunning : s'.running = event.stack s.running)
    (hdepth : s'.runner.nestingDepth = s'.running.length)
    (hstarted : ∀ e, event = .started e → e.1 = .kNonNestable → s.running = []) :
    Nested (events ++ [event]) s' := by
  refine ⟨by rw [runningOf_concat, ← h.running, hrunning], hdepth, ?_⟩
  intro i e he hnested
  by_cases hi : i < events.length
  · rw [List.getElem?_append_left hi] at he
    rw [List.take_append_of_le_length (Nat.le_of_lt hi)]
    exact h.notNested i e he hnested
  · -- the last event
    obtain rfl : i = events.length := by
      have hlt := (List.getElem?_eq_some_iff.mp he).1
      rw [List.length_append, List.length_singleton] at hlt
      omega
    rw [List.getElem?_concat_length] at he
    rw [List.take_left, ← h.running]
    exact hstarted e (Option.some.inj he) hnested

theorem Nested.step (h : Nested events s) (hstep : Stepped pq clock s event s') :
    Nested (events ++ [event]) s' := by
  cases hstep with
  | posted _ => exact h.concat rfl h.depth nofun
  | delayed _ => exact h.concat rfl h.depth nofun
  | refused _ => exact h.concat rfl h.depth nofun
  | @started due readings rest e hopen hexpired hfound =>
    refine h.concat rfl (congrArg Nat.succ h.depth) ?_
    rintro _ ⟨⟩ hnested
    -- within another task it would not have been taken
    have hpoppable := List.find?_some hfound
    rw [DefaultForegroundTaskRunner.poppable, hnested, h.depth] at hpoppable
    exact List.eq_nil_of_length_eq_zero (by simpa using hpoppable)
  | nothing _ _ _ => exact h.concat rfl h.depth nofun
  | drained _ => exact h.concat rfl h.depth nofun
  | returned hrunning =>
    refine h.concat (by rw [Event.stack, hrunning, List.tail_cons]) ?_ nofun
    change s.runner.nestingDepth - 1 = _
    rw [h.depth, hrunning, List.length_cons, Nat.add_sub_cancel]
  | terminated => exact h.concat rfl h.depth nofun

/-! ### The end of the loop -/

/-- An event that is not the end of the loop. -/
theorem exhausted_of_ne (h : event ≠ .nothing) : Exhausted pq clock (events ++ [event]) s' := by
  intro hlast
  rw [List.getLast?_concat] at hlast
  exact absurd (Option.some.inj hlast) h

theorem Exhausted.step (haccounts : Accounts pq events s) (hnested : Nested events s)
    (hstep : Stepped pq clock s event s') : Exhausted pq clock (events ++ [event]) s' := by
  cases hstep with
  | @nothing due readings rest hopen hexpired hfound =>
    intro _ hrunning
    -- the runner counts what is running
    have hdepth : s.runner.nestingDepth = 0 := by rw [hnested.depth, hrunning, List.length_nil]
    -- without a task that is running, every task may be taken
    have hqueue : (s.runner.moved due readings rest).taskQueue = [] := by
      refine List.eq_nil_iff_forall_not_mem.mpr fun e he => ?_
      have hrefused := List.find?_eq_none.mp hfound e he
      rw [DefaultForegroundTaskRunner.poppable, hdepth] at hrefused
      exact hrefused rfl
    refine ⟨hqueue, fun d hd => ?_⟩
    rcases hexpired.ahead with hempty | ⟨k, -, hk, hahead⟩
    · exact absurd (hempty ▸ hd) (Multiset.notMem_zero d)
    · have hlast : readings - 1 = k := by omega
      exact hlast ▸ hahead d hd
  | drained hterminated =>
    intro _ _
    obtain ⟨hqueue, hdelayed⟩ := waiting_eq_zero_iff.mp (haccounts.drained hterminated)
    exact ⟨hqueue, fun d hd => absurd (hdelayed ▸ hd) (Multiset.notMem_zero d)⟩
  | posted _ => exact exhausted_of_ne nofun
  | delayed _ => exact exhausted_of_ne nofun
  | refused _ => exact exhausted_of_ne nofun
  | started _ _ _ => exact exhausted_of_ne nofun
  | returned _ => exact exhausted_of_ne nofun
  | terminated => exact exhausted_of_ne nofun

/-! ### Runs -/

/-- The invariant of a run. -/
structure LoopInv [LinearOrder D]
    (pq : PriorityQueue Q (DelayedEntry.timeoutTime : DelayedEntry D T → D)) (clock : ℕ → D)
    (events : List (Event D T)) (s : MessageLoop T Q) : Prop where
  accounts : Accounts pq events s
  timed : Timed pq clock events s
  nested : Nested events s
  ordered : ∀ (P : TaskQueueEntry T → Bool) (n : Nestability), (∀ e, P e = true → e.1 = n) →
    (∀ d ∈ delayedOf events, P d.entry = false) → Ordered P events s
  exhausted : Exhausted pq clock events s

theorem loopInv_new : LoopInv pq clock [] (MessageLoop.new pq : MessageLoop T Q) where
  accounts := by
    have hnothing : (MessageLoop.new pq : MessageLoop T Q).waiting pq = 0 :=
      waiting_eq_zero_iff.mpr ⟨rfl, pq.contents_empty⟩
    refine ⟨fun _ => hnothing, fun _ => ?_, le_rfl⟩
    rw [hnothing]
    rfl
  timed := by
    refine ⟨fun d hd => ?_, fun e he => ?_⟩
    · change d ∈ pq.contents pq.empty at hd
      rw [pq.contents_empty] at hd
      exact absurd hd (Multiset.notMem_zero d)
    · rcases he with he | he <;> cases he
  nested := ⟨rfl, rfl, nofun⟩
  ordered _ _ _ _ := ⟨fun _ => rfl, List.prefix_rfl⟩
  exhausted := nofun

theorem LoopInv.step (h : LoopInv pq clock events s) (hstep : Stepped pq clock s event s') :
    LoopInv pq clock (events ++ [event]) s' where
  accounts := h.accounts.step hstep
  timed := h.timed.step hstep
  nested := h.nested.step hstep
  ordered P n hP hdelayed := by
    have hbefore : ∀ d ∈ delayedOf events, P d.entry = false := by
      intro d hd
      apply hdelayed
      rw [delayedOf_concat]
      exact List.mem_append_left _ hd
    exact (h.ordered P n hP hbefore).step h.timed hstep hP hbefore
  exhausted := .step h.accounts h.nested hstep

theorem LoopInv.law (h : LoopInv pq clock events s) : LoopLaw pq clock events s where
  depth := ⟨h.nested.running, h.nested.depth⟩
  conserved := h.accounts.conserved
  terminated hterminated := ⟨h.accounts.drained hterminated, h.accounts.bounded⟩
  inOrder P n hP hdelayed := (h.ordered P n hP hdelayed).started
  onTime e he := h.timed.due e (Or.inl he)
  notNested := h.nested.notNested
  exhausted := h.exhausted

theorem loopInv_run [Add D] {actions : List (Action D T)}
    {record : List (Action D T × Event D T)}
    (h : run (perform pq clock) (MessageLoop.new pq) actions = .ok (record, s)) :
    LoopInv pq clock (record.map Prod.snd) s := by
  refine run_induction (motive := fun record s => LoopInv pq clock (record.map Prod.snd) s)
    (fun record s a event s' hinv hstep => ?_) loopInv_new h
  rw [List.map_append]
  exact hinv.step (perform_cases hinv.accounts.drained hstep)

/-- **The message loop.** After every run, whatever has been posted by whom and in which order,
whatever the clock shows, and whichever of several tasks the priority queue gives back, the law
holds of what has been posted and started. -/
theorem loopLaw [Add D] {actions : List (Action D T)} {record : List (Action D T × Event D T)}
    (h : run (perform pq clock) (MessageLoop.new pq) actions = .ok (record, s)) :
    LoopLaw pq clock (record.map Prod.snd) s := (loopInv_run h).law

/-- Numbers of tasks, by the seconds of a clock. -/
abbrev ExampleQueue := SortedList (DelayedEntry.timeoutTime : DelayedEntry ℕ ℕ → ℕ)

def exampleQueue :
    PriorityQueue ExampleQueue (DelayedEntry.timeoutTime : DelayedEntry ℕ ℕ → ℕ) :=
  SortedList.priorityQueue _

/-- A delayed task becomes due while another one is running, and runs within it; the one that
must not be nested runs afterwards. -/
theorem loopLaw_nested : ∃ s : MessageLoop ℕ ExampleQueue,
    LoopLaw exampleQueue id
      [.delayed ⟨2, .kNestable, 1⟩, .posted (.kNestable, 2), .posted (.kNonNestable, 3),
        .started (.kNestable, 2), .started (.kNestable, 1), .returned 1, .returned 2,
        .started (.kNonNestable, 3), .returned 3, .nothing] s := by
  have hrun : run (perform exampleQueue id) (.new exampleQueue)
      [.postDelayedTask 1 2, .postTask 2, .postNonNestableTask 3, .pumpMessageLoop,
        .pumpMessageLoop, .taskReturns, .taskReturns, .pumpMessageLoop, .taskReturns,
        .pumpMessageLoop] = .ok (_, _) := rfl
  exact ⟨_, loopLaw hrun⟩

/-! ### No starvation -/

/-- A step that pumps the loop. -/
def Action.isPump : Action D T → Bool
  | .pumpMessageLoop => true
  | _ => false

/-- What is seen of such a step. -/
def Event.ofPump : Event D T → Bool
  | .started _ => true
  | .nothing => true
  | _ => false

/-- How many times the loop has been pumped while no task was running. -/
def outermostPumps (running : List T) : List (Action D T × Event D T) → ℕ
  | [] => 0
  | (a, event) :: record =>
    (if a.isPump && running.isEmpty then 1 else 0) + outermostPumps (event.stack running) record

/-- No task that waits in a loop waits forever: what a run from there, with this record, has
started. -/
structure ProgressLaw [LinearOrder D]
    (pq : PriorityQueue Q (DelayedEntry.timeoutTime : DelayedEntry D T → D)) (clock : ℕ → D)
    (s : MessageLoop T Q) (record : List (Action D T × Event D T)) : Prop where
  /-- A task in the queue has been started when the loop has been pumped, while no task was
  running, more often than there were tasks in front of it. -/
  queued : ∀ front e behind, s.runner.taskQueue = front ++ e :: behind →
    front.length < outermostPumps s.running record → e ∈ startedOf (record.map Prod.snd)
  /-- A delayed task, if its time has come when the loop is pumped, has been started when the
  loop has been pumped so as often as there were tasks that waited. -/
  delayed : ∀ d ∈ pq.contents s.runner.delayedTaskQueue,
    (∀ k, s.runner.readings ≤ k → d.timeoutTime ≤ clock k) →
    (∃ event rest, record = (.pumpMessageLoop, event) :: rest) →
    (s.waiting pq).card ≤ outermostPumps s.running record →
    d.entry ∈ startedOf (record.map Prod.snd)

omit [LinearOrder D] in
theorem startedOf_cons : startedOf (event :: events) = startedOf [event] ++ startedOf events := by
  rw [← List.singleton_append]
  exact List.flatMap_append

theorem isPump_eq_ofPump [Add D] {a : Action D T}
    (h : perform pq clock s a = .ok (event, s')) : a.isPump = event.ofPump := by
  have hanswer : ∀ (task : T) (event : Event D T), event.ofPump = false →
      (s.runner.answer task event).ofPump = false := by
    intro task event h
    rw [DefaultForegroundTaskRunner.answer]
    split_ifs
    · rfl
    · exact h
  cases a with
  | postTask task =>
    cases h
    exact (hanswer task _ rfl).symm
  | postNonNestableTask task =>
    cases h
    exact (hanswer task _ rfl).symm
  | postDelayedTask task delay =>
    cases h
    exact (hanswer task _ rfl).symm
  | postNonNestableDelayedTask task delay =>
    cases h
    exact (hanswer task _ rfl).symm
  | pumpMessageLoop =>
    rw [perform] at h
    split at h
    · cases h
      rfl
    · cases h
      rfl
  | taskReturns =>
    rw [perform] at h
    split at h
    · cases h
    · cases h
      rfl
  | terminate =>
    cases h
    rfl

omit [LinearOrder D] in
/-- While no task is running, the first of the queue is taken; otherwise none comes further back. -/
theorem taken_or_forward {r : DefaultForegroundTaskRunner T Q} {running : List T}
    (hdepth : r.nestingDepth = running.length) (front behind : List (TaskQueueEntry T))
    (e : TaskQueueEntry T) :
    match (front ++ e :: behind).find? r.poppable with
    | none => running ≠ []
    | some a => a = e ∨ ∃ front' behind',
        (front ++ e :: behind).eraseP r.poppable = front' ++ e :: behind' ∧
        front'.length + (if running.isEmpty then 1 else 0) ≤ front.length := by
  have hempty : running = [] → ∀ a, r.poppable a = true := by
    rintro rfl a
    rw [DefaultForegroundTaskRunner.poppable, hdepth]
    rfl
  cases hfound : (front ++ e :: behind).find? r.poppable with
  | none =>
    intro hrunning
    have hmem : e ∈ front ++ e :: behind := List.mem_append_right _ List.mem_cons_self
    exact List.find?_eq_none.mp hfound e hmem (hempty hrunning e)
  | some a =>
    rcases eq_or_eraseP_of_find? hfound with rfl | ⟨front', behind', hrest, hle, hlt⟩
    · exact Or.inl rfl
    · refine Or.inr ⟨front', behind', hrest, ?_⟩
      cases running with
      | nil => exact hlt (hempty rfl e)
      | cons task running => exact hle

/-- A task that waits is started, or comes forward whenever the loop is pumped while no task is
running. -/
theorem Stepped.forward (hstep : Stepped pq clock s event s') (hdrained : Drained pq s)
    (hdepth : s.runner.nestingDepth = s.running.length) (hopen : event ≠ .terminated)
    {front behind : List (TaskQueueEntry T)} {e : TaskQueueEntry T}
    (hqueue : s.runner.taskQueue = front ++ e :: behind) : event = .started e ∨
      ∃ front' behind', s'.runner.taskQueue = front' ++ e :: behind' ∧
        front'.length + (if event.ofPump && s.running.isEmpty then 1 else 0) ≤ front.length := by
  have hstays : ∀ more, (front ++ e :: behind) ++ more = front ++ e :: (behind ++ more) :=
    fun more => List.append_assoc ..
  cases hstep with
  | posted _ => exact Or.inr ⟨front, _, (congrArg (· ++ _) hqueue).trans (hstays _), le_rfl⟩
  | delayed _ => exact Or.inr ⟨front, behind, hqueue, le_rfl⟩
  | refused _ => exact Or.inr ⟨front, behind, hqueue, le_rfl⟩
  | @started due readings rest a _ hexpired hfound =>
    have hmoved : (s.runner.moved due readings rest).taskQueue =
        front ++ e :: (behind ++ due.map DelayedEntry.entry) :=
      (congrArg (· ++ _) hqueue).trans (hstays _)
    have htaken := taken_or_forward hdepth front (behind ++ due.map DelayedEntry.entry) e
    rw [← hmoved, hfound] at htaken
    rcases htaken with rfl | htaken
    · exact Or.inl rfl
    · exact Or.inr htaken
  | @nothing due readings rest _ hexpired hfound =>
    have hmoved : (s.runner.moved due readings rest).taskQueue =
        front ++ e :: (behind ++ due.map DelayedEntry.entry) :=
      (congrArg (· ++ _) hqueue).trans (hstays _)
    have htaken := taken_or_forward hdepth front (behind ++ due.map DelayedEntry.entry) e
    rw [← hmoved, hfound] at htaken
    refine Or.inr ⟨front, _, hmoved, ?_⟩
    rw [List.isEmpty_eq_false_iff.mpr htaken, Bool.and_false]
    exact le_rfl
  | drained hterminated =>
    have hnothing := (waiting_eq_zero_iff.mp (hdrained hterminated)).1
    rw [hqueue] at hnothing
    exact absurd hnothing (by simp)
  | returned _ => exact Or.inr ⟨front, behind, hqueue, le_rfl⟩
  | terminated => exact absurd rfl hopen

/-- A delayed task whose time has come is started, or moved to the queue, when the loop is
pumped. -/
theorem Stepped.forward_due (hstep : Stepped pq clock s event s') (hdrained : Drained pq s)
    (hdepth : s.runner.nestingDepth = s.running.length) (hpump : event.ofPump = true)
    {d : DelayedEntry D T} (hd : d ∈ pq.contents s.runner.delayedTaskQueue)
    (hdue : ∀ k, s.runner.readings ≤ k → d.timeoutTime ≤ clock k) : event = .started d.entry ∨
      ∃ front behind, s'.runner.taskQueue = front ++ d.entry :: behind ∧
        front.length + (if s.running.isEmpty then 1 else 0) < (s.waiting pq).card := by
  -- where it is when what is due has been moved
  have hmoved : ∀ {due readings rest},
      pq.Expired clock s.runner.readings s.runner.delayedTaskQueue due readings rest →
      ∃ front behind, (s.runner.moved due readings rest).taskQueue = front ++ d.entry :: behind ∧
        front.length < (s.waiting pq).card := by
    intro due readings rest hexpired
    have hmem : d ∈ due := by
      rcases hexpired.mem_contents.mp hd with hmem | hrest
      · exact hmem
      · rcases hexpired.ahead with hempty | ⟨k, hk, -, hahead⟩
        · exact absurd (hempty ▸ hrest) (Multiset.notMem_zero d)
        · exact absurd (hdue k hk) (not_le.mpr (hahead d hrest))
    obtain ⟨first, last, rfl⟩ := List.append_of_mem hmem
    refine ⟨s.runner.taskQueue ++ first.map DelayedEntry.entry, last.map DelayedEntry.entry, ?_, ?_⟩
    · rw [DefaultForegroundTaskRunner.moved, List.map_append, List.map_cons, List.append_assoc]
    · rw [MessageLoop.waiting, hexpired.contents]
      simp only [Multiset.map_add, Multiset.card_add, Multiset.coe_card, Multiset.card_map,
        List.length_append, List.length_map, List.length_cons]
      omega
  cases hstep with
  | @started due readings rest a _ hexpired hfound =>
    obtain ⟨front, behind, hqueue, hlt⟩ := hmoved hexpired
    have htaken := taken_or_forward hdepth front behind d.entry
    rw [← hqueue, hfound] at htaken
    rcases htaken with rfl | ⟨front', behind', hrest, hle⟩
    · exact Or.inl rfl
    · exact Or.inr ⟨front', behind', hrest, Nat.lt_of_le_of_lt hle hlt⟩
  | @nothing due readings rest _ hexpired hfound =>
    obtain ⟨front, behind, hqueue, hlt⟩ := hmoved hexpired
    have htaken := taken_or_forward hdepth front behind d.entry
    rw [← hqueue, hfound] at htaken
    refine Or.inr ⟨front, behind, hqueue, ?_⟩
    rw [List.isEmpty_eq_false_iff.mpr htaken]
    exact hlt
  | drained hterminated =>
    have hnothing := (waiting_eq_zero_iff.mp (hdrained hterminated)).2
    exact absurd (hnothing ▸ hd) (Multiset.notMem_zero d)
  | posted _ => cases hpump
  | delayed _ => cases hpump
  | refused _ => cases hpump
  | returned _ => cases hpump
  | terminated => cases hpump

/-- A task in the queue of an open loop, by induction on the steps. -/
theorem LoopInv.starts [Add D] {actions : List (Action D T)}
    {record : List (Action D T × Event D T)} {front behind : List (TaskQueueEntry T)}
    {e : TaskQueueEntry T} (hinv : LoopInv pq clock events s)
    (h : run (perform pq clock) s actions = .ok (record, s'))
    (hopen : .terminated ∉ record.map Prod.snd)
    (hqueue : s.runner.taskQueue = front ++ e :: behind)
    (hcount : front.length < outermostPumps s.running record) :
    e ∈ startedOf (record.map Prod.snd) := by
  induction actions generalizing s events front behind record with
  | nil =>
    obtain ⟨rfl, -⟩ := run_nil_eq_ok.mp h
    exact absurd hcount (Nat.not_lt_zero _)
  | cons a actions ih =>
    obtain ⟨event, s₁, rest, hperform, hrun, rfl⟩ := run_cons_eq_ok.mp h
    rw [List.map_cons, List.mem_cons, not_or] at hopen
    have hstep := perform_cases hinv.accounts.drained hperform
    rw [List.map_cons, startedOf_cons, List.mem_append]
    -- it is started by this step, or comes no further back
    rcases hstep.forward hinv.accounts.drained hinv.nested.depth (Ne.symm hopen.1) hqueue with
      rfl | ⟨front', behind', hqueue', hle⟩
    · exact Or.inl (List.mem_singleton_self e)
    · have hnext := hinv.step hstep
      have hrunning : s₁.running = event.stack s.running := by
        rw [hnext.nested.running, runningOf_concat, ← hinv.nested.running]
      rw [outermostPumps, isPump_eq_ofPump hperform, ← hrunning] at hcount
      have hrest : front'.length < outermostPumps s₁.running rest := by omega
      exact Or.inr (ih hnext hrun hopen.2 hqueue' hrest)

/-- **No task waits forever.** After every run, whatever tasks and delayed tasks wait, a
continuation without a termination has started them as soon as it has pumped the loop often
enough, whatever else is posted or becomes due meanwhile, and whatever runs within tasks. -/
theorem starts_within [Add D] {actions more : List (Action D T)}
    {record record' : List (Action D T × Event D T)}
    (h : run (perform pq clock) (MessageLoop.new pq) actions = .ok (record, s))
    (h' : run (perform pq clock) s more = .ok (record', s'))
    (hopen : .terminated ∉ record'.map Prod.snd) : ProgressLaw pq clock s record' := by
  have hinv := loopInv_run h
  refine { queued := fun front e behind => hinv.starts h' hopen, delayed := ?_ }
  rintro d hd hdue ⟨event, rest, rfl⟩ hcount
  -- the first step pumps the loop
  obtain ⟨a, more, rfl⟩ : ∃ a rest, more = a :: rest := by
    cases more with
    | nil => cases (run_nil_eq_ok.mp h').1
    | cons a rest => exact ⟨a, rest, rfl⟩
  obtain ⟨event', s₁, rest', hperform, hrun, heq⟩ := run_cons_eq_ok.mp h'
  obtain ⟨⟨rfl, rfl⟩, rfl⟩ : (a = .pumpMessageLoop ∧ event' = event) ∧ rest' = rest := by
    obtain ⟨hfirst, hrest⟩ := List.cons.inj heq
    exact ⟨⟨(Prod.mk.inj hfirst).1.symm, (Prod.mk.inj hfirst).2.symm⟩, hrest.symm⟩
  rw [List.map_cons, List.mem_cons, not_or] at hopen
  have hstep := perform_cases hinv.accounts.drained hperform
  rw [List.map_cons, startedOf_cons, List.mem_append]
  rcases hstep.forward_due hinv.accounts.drained hinv.nested.depth
    (isPump_eq_ofPump hperform).symm hd hdue with rfl | ⟨front, behind, hqueue, hlt⟩
  · exact Or.inl (List.mem_singleton_self _)
  · have hnext := hinv.step hstep
    have hrunning : s₁.running = event'.stack s.running := by
      rw [hnext.nested.running, runningOf_concat, ← hinv.nested.running]
    rw [outermostPumps, ← hrunning] at hcount
    have hrest : front.length < outermostPumps s₁.running rest' := by
      have hpump : (Action.pumpMessageLoop : Action D T).isPump = true := rfl
      rw [hpump, Bool.true_and] at hcount
      omega
    exact Or.inr (hnext.starts hrun hopen.2 hqueue hrest)

/-- Task 2 is running, two tasks that must not be nested wait for its end, and another one also
for its time. -/
def exampleLoop : MessageLoop ℕ ExampleQueue where
  runner :=
    { terminated := false
      nestingDepth := 1
      taskQueue := [(.kNonNestable, 3), (.kNonNestable, 5)]
      delayedTaskQueue := exampleQueue.push ⟨1, .kNonNestable, 4⟩ exampleQueue.empty
      readings := 1 }
  running := [2]

/-- What a run from there has started. -/
def exampleEvents : List (Event ℕ ℕ) :=
  [.nothing, .returned 2, .posted (.kNestable, 7), .started (.kNonNestable, 3), .returned 3,
    .started (.kNonNestable, 5), .returned 5, .started (.kNonNestable, 4)]

theorem starts_within_two : (.kNonNestable, 5) ∈ startedOf exampleEvents ∧
    (.kNonNestable, 4) ∈ startedOf exampleEvents := by
  have hrun : run (perform exampleQueue id) (.new exampleQueue)
      [.postTask 2, .pumpMessageLoop, .postNonNestableTask 3, .postNonNestableTask 5,
        .postNonNestableDelayedTask 4 1] = .ok (_, exampleLoop) := rfl
  have hmore : run (perform exampleQueue id) exampleLoop
      [.pumpMessageLoop, .taskReturns, .postTask 7, .pumpMessageLoop, .taskReturns,
        .pumpMessageLoop, .taskReturns, .pumpMessageLoop] = .ok (_, _) := rfl
  have hlaw := starts_within hrun hmore (by decide)
  have hfive := hlaw.queued [(.kNonNestable, 3)] (.kNonNestable, 5) [] rfl (by decide)
  have hfour := hlaw.delayed ⟨1, .kNonNestable, 4⟩ (Multiset.mem_singleton_self _)
    (fun _ hk => hk) ⟨_, _, rfl⟩ (by decide)
  exact ⟨hfive, hfour⟩

end

end NodeMini.Platform
