import Mathlib.Algebra.BigOperators.Fin
import NodeMini.Platform.WorkerThreads

/-!
# Joining the worker threads

`Terminate` keeps the lock of the runner while it joins the threads of the pool. A task that posts
another one meanwhile waits for this lock, so that its thread does not end, and `Terminate` does
not return. When it is the destructor of the platform that has called `Terminate`, the platform's
lock is not given back either, and every function of the platform that takes it waits.

Without such a task every thread comes to its end: it runs what is left in the queue and is told
then that there is no more.

## Main definitions

* `newDefaultPlatform` — the threads of a platform
* `WorkerThreads.Hangs` — a task is in a call that waits for `Terminate`
* `remaining` — how many steps are left until all threads have ended
* `JoinLaw` — what holds when `Terminate` has its lock

## Main results

* `Hangs.step`, `Hangs.forever` — such a task waits forever
* `exists_step` — otherwise a thread goes on, and fewer steps are left
* `joinLaw` — `JoinLaw`, after every run of a platform's threads
-/

namespace NodeMini.Platform

open Lib

/-- `GetActualThreadPoolSize`, with the number of processors. -/
def getActualThreadPoolSize (threadPoolSize numberOfProcessors : ℤ) : ℤ :=
  max (min (if threadPoolSize < 1 then numberOfProcessors - 1 else threadPoolSize) 16) 1

/-- A pool has a thread. -/
theorem getActualThreadPoolSize_pos (threadPoolSize numberOfProcessors : ℤ) :
    0 < (getActualThreadPoolSize threadPoolSize numberOfProcessors).toNat := by
  rw [Int.lt_toNat]
  exact lt_of_lt_of_le Int.one_pos (le_max_right _ 1)

variable {n : ℕ} {D T Q : Type}

/-- The worker threads of `NewDefaultPlatform`. -/
def newDefaultPlatform [LinearOrder D]
    (pq : PriorityQueue Q (DelayedTask.deadline : DelayedTask D T → D))
    (threadPoolSize numberOfProcessors : ℤ) :
    WorkerThreads (getActualThreadPoolSize threadPoolSize numberOfProcessors).toNat D T Q :=
  .new pq

/-- The task of a thread is in a call that does not return while `Terminate` has its lock: one that
posts, or another one of the platform, if the platform is being destroyed. -/
def WorkerThreads.Hangs (s : WorkerThreads n D T Q) (i : Fin n) (task : T) : Prop :=
  ∃ c, s.threadPool i = .calling task c ∧ (c = .platform → s.destroying = true)

section

variable [LinearOrder D]
  {pq : PriorityQueue Q (DelayedTask.deadline : DelayedTask D T → D)} {clock : ℕ → D}
  {s s' : WorkerThreads n D T Q} {event : WorkerEvent n D T}
  {events : List (WorkerEvent n D T)}

/-- Nobody gives the lock back, and so the task waits on. -/
theorem WorkerThreads.Hangs.step {i : Fin n} {task : T} (hlocked : s.locked = true)
    (h : s.Hangs i task) (hstep : WorkersStep pq clock s event s') :
    (s'.locked = true ∧ s'.Hangs i task) ∧ event ≠ .joined ∧ event ≠ .returned i := by
  obtain ⟨c, hthread, hcall⟩ := h
  have hothers : ∀ {j : Fin n} {queue : DelayedTaskQueue T Q} {w : Worker D T}, i ≠ j →
      (WorkerThreads.setThread { s with queue := queue } j w).locked = true ∧
        (WorkerThreads.setThread { s with queue := queue } j w).Hangs i task :=
    fun {_ _ w} hne =>
      ⟨hlocked, c, (WorkerThreads.setThread_of_ne _ w hne).trans hthread, hcall⟩
  -- a thread in another mode is another thread
  have hne : ∀ {j : Fin n}, s.threadPool j ≠ .calling task c → i ≠ j := by
    rintro j hj rfl
    exact hj hthread
  cases hstep with
  | posted _ hfree => cases hlocked.symm.trans hfree
  | delayed _ hfree => cases hlocked.symm.trans hfree
  | refused _ hfree => cases hlocked.symm.trans hfree
  | got _ hfree _ => cases hlocked.symm.trans hfree
  | called hj => exact ⟨hothers (hne (by rw [hj]; nofun)), nofun, nofun⟩
  | @passed _ j task' p hj hfree =>
    refine ⟨?_, nofun, nofun⟩
    by_cases hsame : i = j
    · -- it waits for the lock of the runner now
      subst hsame
      rw [hthread] at hj
      cases hj
      exact ⟨hlocked, .runner p, WorkerThreads.setThread_self .., nofun⟩
    · exact hothers hsame
  | @passedOn _ j task' hj hfree =>
    refine ⟨hothers (hne ?_), nofun, nofun⟩
    rw [hj]
    rintro ⟨⟩
    cases hfree.symm.trans (hcall rfl)
  | started hj _ _ => exact ⟨hothers (hne (by rw [hj]; nofun)), nofun, nofun⟩
  | ended hj _ _ _ => exact ⟨hothers (hne (by rw [hj]; nofun)), nofun, nofun⟩
  | waits _ _ _ _ => exact ⟨⟨hlocked, c, hthread, hcall⟩, nofun, nofun⟩
  | @returned _ j _ hj =>
    have hother : i ≠ j := hne (by rw [hj]; nofun)
    refine ⟨hothers hother, nofun, ?_⟩
    rintro ⟨⟩
    exact hother rfl
  | destroying _ => exact ⟨⟨hlocked, c, hthread, fun _ => rfl⟩, nofun, nofun⟩
  | terminating hfree _ => cases hlocked.symm.trans hfree
  | joined _ hall =>
    rw [hall i] at hthread
    cases hthread

/-- It waits in every run from here. -/
theorem WorkerThreads.Hangs.forever [Add D] [Zero D] {i : Fin n} {task : T}
    {more : List (WorkerAction n D T)} {record : List (WorkerAction n D T × WorkerEvent n D T)}
    (hpool : Pool pq clock events s)
    (hlocked : s.locked = true) (h : s.Hangs i task)
    (hrun : run (WorkerThreads.step pq clock) s more = .ok (record, s')) :
    (s'.locked = true ∧ s'.Hangs i task) ∧
      .joined ∉ record.map Prod.snd ∧ .returned i ∉ record.map Prod.snd := by
  have hmotive := run_induction
    (motive := fun record s => (∃ events, Pool pq clock events s) ∧
      (s.locked = true ∧ s.Hangs i task) ∧
        .joined ∉ record.map Prod.snd ∧ .returned i ∉ record.map Prod.snd)
    ?_ ⟨⟨_, hpool⟩, ⟨hlocked, h⟩, List.not_mem_nil, List.not_mem_nil⟩ hrun
  · exact hmotive.2
  rintro r s₁ a event s₂ ⟨⟨events, hpool⟩, ⟨hlocked, h⟩, hjoined, hreturned⟩ hok
  have hcases := step_of_ok hpool hok
  obtain ⟨hnext, hevent, hevent'⟩ := h.step hlocked hcases
  refine ⟨⟨_, hpool.step hcases⟩, hnext, ?_, ?_⟩ <;> rw [List.map_append, List.mem_append, not_or]
  · exact ⟨hjoined, fun hmem => hevent (List.mem_singleton.mp hmem).symm⟩
  · exact ⟨hreturned, fun hmem => hevent' (List.mem_singleton.mp hmem).symm⟩

/-- How many steps a thread takes at most until it asks for the next task. -/
def Worker.weight : Worker D T → ℕ
  | .idle => 1
  | .running _ => 2
  | .calling _ _ => 3
  | .ended => 0

/-- How many steps are left at most until all threads have ended. -/
def remaining (pq : PriorityQueue Q (DelayedTask.deadline : DelayedTask D T → D))
    (s : WorkerThreads n D T Q) : ℕ :=
  ∑ i, (s.threadPool i).weight + 2 * (s.queue.held pq).card

variable (pq) in
/-- The steps that are left when a thread has gone on and changed the queue. -/
theorem remaining_setThread (s : WorkerThreads n D T Q) (queue : DelayedTaskQueue T Q) (i : Fin n)
    (w : Worker D T) :
    remaining pq (WorkerThreads.setThread { s with queue := queue } i w) +
        (s.threadPool i).weight + 2 * (s.queue.held pq).card =
      remaining pq s + w.weight + 2 * (queue.held pq).card := by
  -- the other threads have the same weights
  have hothers : ∑ j ∈ Finset.univ.erase i,
        ((WorkerThreads.setThread { s with queue := queue } i w).threadPool j).weight =
      ∑ j ∈ Finset.univ.erase i, (s.threadPool j).weight := by
    refine Finset.sum_congr rfl fun j hj => congrArg Worker.weight ?_
    exact WorkerThreads.setThread_of_ne _ w (Finset.ne_of_mem_erase hj)
  rw [remaining, remaining, ← Finset.add_sum_erase _ _ (Finset.mem_univ i), hothers,
    WorkerThreads.setThread_self,
    ← Finset.add_sum_erase _ (fun j => (s.threadPool j).weight) (Finset.mem_univ i),
    WorkerThreads.setThread]
  dsimp only
  omega

variable (pq clock) in
/-- While no task hangs, a thread that has not ended goes on. -/
theorem exists_step [Add D] [Zero D] (hpool : Pool pq clock events s) (hlocked : s.locked = true)
    (hfree : ∀ i task, ¬ s.Hangs i task) {i : Fin n} (hi : s.threadPool i ≠ .ended) :
    ∃ a event s', s.step pq clock a = .ok (event, s') ∧ WorkersStep pq clock s event s' ∧
      s'.locked = true ∧ (∀ i task, ¬ s'.Hangs i task) ∧ remaining pq s' < remaining pq s := by
  have hothers : ∀ {queue : DelayedTaskQueue T Q} {w : Worker D T},
      (∀ task c, w ≠ .calling task c) → ∀ j task,
      ¬ (WorkerThreads.setThread { s with queue := queue } i w).Hangs j task := by
    rintro queue w hw j task ⟨c, hthread, hcall⟩
    by_cases hne : j = i
    · rw [hne, WorkerThreads.setThread_self] at hthread
      exact hw task c hthread
    · rw [WorkerThreads.setThread_of_ne _ w hne] at hthread
      exact hfree j task ⟨c, hthread, hcall⟩
  have hterminated : s.queue.terminated = true := hpool.flags.trans (hpool.locked hlocked)
  cases hthread : s.threadPool i with
  | ended => exact absurd hthread hi
  | calling task c =>
    -- it is a call of a platform that is not being destroyed
    obtain ⟨rfl, hdestroying⟩ : c = .platform ∧ s.destroying = false := by
      by_contra hnot
      refine hfree i task ⟨c, hthread, fun hc => ?_⟩
      by_contra hdestroying
      exact hnot ⟨hc, Bool.eq_false_iff.mpr hdestroying⟩
    refine ⟨.acquires i, _, _, by simp [WorkerThreads.step, hthread, hdestroying],
      .passedOn hthread hdestroying, hlocked, hothers (by rintro _ _ ⟨⟩), ?_⟩
    have hsum := remaining_setThread pq s s.queue i (.running task)
    rw [hthread, Worker.weight, Worker.weight] at hsum
    change remaining pq (s.setThread i (.running task)) + _ + _ = _ at hsum
    omega
  | running task =>
    refine ⟨.returns i, _, _, by simp only [WorkerThreads.step, hthread], .returned hthread,
      hlocked, hothers (by rintro _ _ ⟨⟩), ?_⟩
    -- an idle thread weighs less
    have hsum := remaining_setThread pq s s.queue i .idle
    rw [hthread, Worker.weight, Worker.weight] at hsum
    change remaining pq (s.setThread i .idle) + _ + _ = _ at hsum
    omega
  | idle =>
    obtain ⟨event, s', hstep, hcases, hevent⟩ := getNext_cases pq clock hthread
    refine ⟨.getNext i, event, s', hstep, hcases, ?_⟩
    rcases hevent with ⟨task, rfl⟩ | rfl | ⟨rfl, hopen⟩
    · cases hcases with
      | got _ hunlocked _ => cases hlocked.symm.trans hunlocked
      | @started _ _ due m rest _ tasks _ hexpired hqueue =>
        refine ⟨hlocked, hothers (by rintro _ _ ⟨⟩), ?_⟩
        -- one task less is held
        have hsum := remaining_setThread pq s
          ⟨tasks, rest, s.queue.terminated, s.queue.readings + 1⟩ i (.running task)
        rw [hthread, Worker.weight, Worker.weight,
          held_taken (s.queue.readings + 1) hexpired hqueue, Multiset.card_cons] at hsum
        dsimp only
        omega
    · cases hcases with
      | got _ hunlocked _ => cases hlocked.symm.trans hunlocked
      | @ended _ _ m rest _ _ hqueue hexpired =>
        refine ⟨hlocked, hothers (by rintro _ _ ⟨⟩), ?_⟩
        have hsum := remaining_setThread pq s
          ⟨[], rest, s.queue.terminated, s.queue.readings + 1⟩ i .ended
        rw [hthread, Worker.weight, Worker.weight,
          held_none (s.queue.readings + 1) hqueue hexpired] at hsum
        dsimp only
        omega
    · -- it does not wait, as there will be no more tasks
      cases hterminated.symm.trans hopen

/-- Then all threads end, and are joined, by induction on the steps that are left. -/
theorem exists_joined [Add D] [Zero D] (hpool : Pool pq clock events s) (hlocked : s.locked = true)
    (hfree : ∀ i task, ¬ s.Hangs i task) : ∃ more record s',
    run (WorkerThreads.step pq clock) s more = .ok (record, s') ∧
      .joined ∈ record.map Prod.snd := by
  induction hleft : remaining pq s using Nat.strong_induction_on generalizing s events with
  | _ left ih =>
    by_cases hall : ∀ i, s.threadPool i = .ended
    · have hjoin : s.locked = true ∧ ∀ i, (s.threadPool i).isEnded = true :=
        ⟨hlocked, fun i => Worker.isEnded_iff.mpr (hall i)⟩
      refine ⟨[.join], [(.join, .joined)], { s with locked := false }, ?_,
        List.mem_singleton_self _⟩
      refine run_cons_eq_ok.mpr ⟨.joined, _, [], ?_, rfl, rfl⟩
      simp only [WorkerThreads.step, if_pos hjoin]
    · obtain ⟨i, hi⟩ := not_forall.mp hall
      obtain ⟨a, event, s₁, hstep, hcases, hlocked', hfree', hless⟩ :=
        exists_step pq clock hpool hlocked hfree hi
      obtain ⟨more, record, s', hrun, hjoined⟩ :=
        ih _ (hleft ▸ hless) (hpool.step hcases) hlocked' hfree' rfl
      exact ⟨a :: more, (a, event) :: record, s',
        run_cons_eq_ok.mpr ⟨event, s₁, record, hstep, hrun, rfl⟩, List.mem_cons_of_mem _ hjoined⟩

/-- What holds when `Terminate` has its lock. -/
structure JoinLaw [Add D] [Zero D]
    (pq : PriorityQueue Q (DelayedTask.deadline : DelayedTask D T → D)) (clock : ℕ → D)
    (s : WorkerThreads n D T Q) : Prop where
  /-- There is a way for it to return exactly if no task hangs. -/
  returns : (∃ more record s', run (WorkerThreads.step pq clock) s more = .ok (record, s') ∧
    .joined ∈ record.map Prod.snd) ↔ ∀ i task, ¬ s.Hangs i task
  /-- A task that hangs does so forever, and `Terminate` does not return. -/
  forever : ∀ i task, s.Hangs i task → ∀ more record s',
    run (WorkerThreads.step pq clock) s more = .ok (record, s') →
      (s'.locked = true ∧ s'.Hangs i task) ∧
        .joined ∉ record.map Prod.snd ∧ .returned i ∉ record.map Prod.snd
  /-- When it returns, the queue may be destroyed. -/
  destructible : ∀ more record s', run (WorkerThreads.step pq clock) s more = .ok (record, s') →
    .joined ∈ record.map Prod.snd → s'.queue.Destructible

/-- **When `Terminate` returns.** After every run of the worker threads of a platform, from the
time when `Terminate` has its lock. -/
theorem joinLaw [Add D] [Zero D] {threadPoolSize numberOfProcessors : ℤ}
    {s : WorkerThreads (getActualThreadPoolSize threadPoolSize numberOfProcessors).toNat D T Q}
    {actions : List (WorkerAction _ D T)} {record : List (WorkerAction _ D T × WorkerEvent _ D T)}
    (h : run (WorkerThreads.step pq clock)
      (newDefaultPlatform pq threadPoolSize numberOfProcessors) actions = .ok (record, s))
    (hlocked : s.locked = true) : JoinLaw pq clock s := by
  have hpool := (workersInv_run h).1
  refine ⟨⟨?_, exists_joined hpool hlocked⟩,
    fun i task hhangs more record' s' hrun => hhangs.forever hpool hlocked hrun, ?_⟩
  · rintro ⟨more, record', s', hrun, hjoined⟩ i task hhangs
    exact (hhangs.forever hpool hlocked hrun).2.1 hjoined
  · intro more record' s' hrun hjoined
    have hwhole := (workersInv_run (run_append.mpr ⟨s, record, record', h, hrun, rfl⟩)).1
    refine hwhole.destructible (getActualThreadPoolSize_pos _ _) ?_
    rw [List.map_append]
    exact List.mem_append_right _ hjoined

/-- A task that calls the platform while it is being destroyed. -/
theorem joinLaw_hangs :
    ∃ s : WorkerThreads (getActualThreadPoolSize 0 3).toNat ℕ ℕ ExampleTasks,
      s.Hangs ⟨0, by decide⟩ 1 ∧ JoinLaw exampleTasks id s := by
  have hrun : run (WorkerThreads.step exampleTasks id) (newDefaultPlatform exampleTasks 0 3)
      [.post (.task 1), .getNext ⟨0, by decide⟩, .destroy, .terminate,
        .calls ⟨0, by decide⟩ .platform] = .ok (_, _) := rfl
  exact ⟨_, ⟨.platform, rfl, fun _ => rfl⟩, joinLaw hrun rfl⟩

end

end NodeMini.Platform
