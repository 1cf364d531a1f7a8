import Mathlib.Data.List.Basic
import ServerFramework.Timer.Basic

/-! # The task queue of the scheduler

`Schedule` appends a task; `Run` takes the first one that its thread may execute, and skips
the tasks of other threads and the fibers that are still running.
-/

namespace ServerFramework

abbrev FiberId := ℕ

abbrev ThreadId := ℕ

abbrev SchedulerId := ℕ

/-- `Fiber::State`. -/
inductive FiberState where
  | ready
  | running
  | term
  deriving DecidableEq, Repr

/-- What a scheduler is given to run. -/
inductive Task where
  | fiber (fiber : FiberId)
  | cb (cb : Callback)
  deriving DecidableEq, Repr

/-- `ScheduleTask`; `none` stands for the thread number `-1`, any thread. -/
structure ScheduleTask where
  task : Task
  thread : Option ThreadId
  deriving DecidableEq, Repr

namespace Scheduler

/-- `ScheduleNoLock`, which drops a null fiber and an empty function. The result tells whether
to tickle. -/
def scheduleNoLock (tasks : List ScheduleTask) (task : Option Task) (thread : Option ThreadId) :
    Bool × List ScheduleTask :=
  (tasks.isEmpty, tasks ++ (task.map (⟨·, thread⟩)).toList)

/-- The task is for another thread. -/
def isOthers (self : ThreadId) (task : ScheduleTask) : Bool :=
  task.thread.isSome && task.thread ≠ some self

/-- The task is a fiber in state `RUNNING`. -/
def isRunning (state : FiberId → FiberState) (task : ScheduleTask) : Bool :=
  match task.task with
  | .fiber f => state f = .running
  | .cb _ => false

/-- The locked section of `Run`: the task taken, the tasks left, and `tickle_me`. -/
def dequeue (state : FiberId → FiberState) (self : ThreadId) :
    List ScheduleTask → Option ScheduleTask × List ScheduleTask × Bool
  | [] => (none, [], false)
  | task :: tasks =>
    if isOthers self task then
      let (taken, left, _) := dequeue state self tasks
      (taken, task :: left, true)
    else if isRunning state task then
      let (taken, left, tickleMe) := dequeue state self tasks
      (taken, task :: left, tickleMe)
    else (some task, tasks, !tasks.isEmpty)

variable {state : FiberId → FiberState} {self : ThreadId}

/-- A task that cannot be taken stays in front of what is left of the others. -/
theorem dequeue_skip {first : ScheduleTask} {tasks left : List ScheduleTask}
    {task : Option ScheduleTask} {tickleMe : Bool}
    (hskip : isOthers self first = true ∨ isRunning state first = true)
    (h : dequeue state self (first :: tasks) = (task, left, tickleMe)) :
    ∃ left' tickleMe', dequeue state self tasks = (task, left', tickleMe') ∧
      left = first :: left' := by
  rw [dequeue] at h
  split_ifs at h with hothers hrunning
  · simp only [Prod.mk.injEq] at h
    obtain ⟨htask, rfl, -⟩ := h
    exact ⟨_, _, Prod.ext htask rfl, rfl⟩
  · simp only [Prod.mk.injEq] at h
    obtain ⟨htask, rfl, -⟩ := h
    exact ⟨_, _, Prod.ext htask rfl, rfl⟩
  · exact absurd hskip (not_or.mpr ⟨hothers, hrunning⟩)

/-- The task taken is the first one that is neither for another thread nor running. -/
theorem dequeue_some {tasks left : List ScheduleTask} {task : ScheduleTask} {tickleMe : Bool}
    (h : dequeue state self tasks = (some task, left, tickleMe)) :
    isOthers self task = false ∧ isRunning state task = false ∧
      ∃ front back, tasks = front ++ task :: back ∧ left = front ++ back ∧
        ∀ x ∈ front, isOthers self x = true ∨ isRunning state x = true := by
  induction tasks generalizing left tickleMe with
  | nil => simp [dequeue] at h
  | cons first tasks ih =>
    by_cases hskip : isOthers self first = true ∨ isRunning state first = true
    · obtain ⟨left', tickleMe', htail, rfl⟩ := dequeue_skip hskip h
      obtain ⟨ho, hr, front, back, rfl, rfl, hfront⟩ := ih htail
      exact ⟨ho, hr, first :: front, back, rfl, rfl, List.forall_mem_cons.mpr ⟨hskip, hfront⟩⟩
    · obtain ⟨hothers, hrunning⟩ := not_or.mp hskip
      rw [dequeue, if_neg hothers, if_neg hrunning] at h
      simp only [Prod.mk.injEq, Option.some.injEq] at h
      obtain ⟨rfl, rfl, -⟩ := h
      exact ⟨eq_false_of_ne_true hothers, eq_false_of_ne_true hrunning, [], tasks, rfl, rfl,
        by simp⟩

/-- If nothing is taken, every task is for another thread or running. -/
theorem dequeue_none {tasks left : List ScheduleTask} {tickleMe : Bool}
    (h : dequeue state self tasks = (none, left, tickleMe)) :
    left = tasks ∧ ∀ x ∈ tasks, isOthers self x = true ∨ isRunning state x = true := by
  induction tasks generalizing left tickleMe with
  | nil =>
    simp only [dequeue, Prod.mk.injEq] at h
    exact ⟨h.2.1.symm, by simp⟩
  | cons first tasks ih =>
    by_cases hskip : isOthers self first = true ∨ isRunning state first = true
    · obtain ⟨left', tickleMe', htail, rfl⟩ := dequeue_skip hskip h
      obtain ⟨rfl, hall⟩ := ih htail
      exact ⟨rfl, List.forall_mem_cons.mpr ⟨hskip, hall⟩⟩
    · obtain ⟨hothers, hrunning⟩ := not_or.mp hskip
      rw [dequeue, if_neg hothers, if_neg hrunning] at h
      cases h

/-- If a task is left that is not running, the thread tickles. -/
theorem dequeue_tickleMe {tasks left : List ScheduleTask} {task x : ScheduleTask} {tickleMe : Bool}
    (h : dequeue state self tasks = (some task, left, tickleMe)) (hx : x ∈ left)
    (hrunning : isRunning state x = false) : tickleMe = true := by
  induction tasks generalizing left tickleMe with
  | nil => simp [dequeue] at h
  | cons first tasks ih =>
    rw [dequeue] at h
    split_ifs at h with hfirst hfirst'
    · simp only [Prod.mk.injEq] at h
      exact h.2.2.symm
    · simp only [Prod.mk.injEq] at h
      obtain ⟨htask, rfl, rfl⟩ := h
      rcases List.mem_cons.mp hx with rfl | hx
      · rw [hrunning] at hfirst'
        cases hfirst'
      · exact ih (Prod.ext htask rfl) hx
    · simp only [Prod.mk.injEq] at h
      obtain ⟨-, rfl, rfl⟩ := h
      cases tasks with
      | nil => exact absurd hx List.not_mem_nil
      | cons y ys => rfl

end Scheduler

end ServerFramework
