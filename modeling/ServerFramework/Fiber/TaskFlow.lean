import Mathlib.Algebra.BigOperators.Group.Finset.Piecewise
import Mathlib.Data.Fintype.Fin
import ServerFramework.Lib.Tally
import ServerFramework.Lib.Transition
import ServerFramework.Fiber.Scheduler

/-! # Where the tasks are

Every task that `Schedule` accepts gets a number. The threads of `Run` take tasks from the queue
and resume them; what they took and what has returned is recorded. Counting a number over the
queue, the threads and the tasks completed shows that none is lost and none is taken twice.
-/

namespace ServerFramework

open Scheduler Transition
open scoped BigOperators

/-- A task in the queue with its number. -/
structure Entry where
  id : ℕ
  task : ScheduleTask
  deriving DecidableEq, Repr

/-- The scheduler with its threads. -/
structure TaskFlow (n : ℕ) where
  tasks : List Entry
  /-- The task a thread is resuming. -/
  held : Fin n → Option Entry
  activeThreadCount : ℕ
  stopping : Bool
  /-- The tasks accepted so far; their numbers are their places here. -/
  scheduled : List ScheduleTask
  /-- Which thread took which task, in order. -/
  dequeued : List (Fin n × Entry)
  completed : List Entry

/-- The steps of the threads and of those who schedule. -/
inductive FlowOp (n : ℕ) where
  | schedule (task : Option Task) (thread : Option ThreadId)
  /-- The locked section of `Run`, in which the fibers are in the given states. -/
  | dequeue (i : Fin n) (state : FiberId → FiberState)
  /-- `Resume` returns and the thread is no longer counted. -/
  | finish (i : Fin n)
  | stop

namespace TaskFlow

variable {n : ℕ}

def new : TaskFlow n where
  tasks := []
  held := fun _ => none
  activeThreadCount := 0
  stopping := false
  scheduled := []
  dequeued := []
  completed := []

/-- The thread takes the entry if it comes to it. -/
def mayTake (state : FiberId → FiberState) (self : ThreadId) (e : Entry) : Bool :=
  !isOthers self e.task && !isRunning state e.task

/-- One step, with the thread numbers of the threads. -/
def step (tid : Fin n → ThreadId) (s : TaskFlow n) : FlowOp n → Option (TaskFlow n)
  | .schedule none _ => some s
  | .schedule (some task) thread =>
    some { s with
      tasks := s.tasks ++ [⟨s.scheduled.length, task, thread⟩]
      scheduled := s.scheduled ++ [⟨task, thread⟩] }
  | .dequeue i state =>
    if s.held i = none then
      match s.tasks.find? (mayTake state (tid i)) with
      | none => some s
      | some e =>
        some { s with
          tasks := s.tasks.eraseP (mayTake state (tid i))
          held := Function.update s.held i (some e)
          activeThreadCount := s.activeThreadCount + 1
          dequeued := s.dequeued ++ [(i, e)] }
    else none
  | .finish i =>
    match s.held i with
    | none => none
    | some e =>
      some { s with
        held := Function.update s.held i none
        activeThreadCount := s.activeThreadCount - 1
        completed := s.completed ++ [e] }
  | .stop => some { s with stopping := true }

/-- `Scheduler::Stopping`. -/
def isStopping (s : TaskFlow n) : Bool :=
  s.stopping && s.tasks.isEmpty && s.activeThreadCount = 0

/-- How often a number occurs in a list of entries. -/
def occurrences (id : ℕ) (l : List Entry) : ℕ := l.countP (·.id = id)

/-- How many threads hold the task with the number. -/
def holders (s : TaskFlow n) (id : ℕ) : ℕ :=
  ∑ i, occurrences id (s.held i).toList

/-- Both are callbacks for the same thread, or both for any thread. -/
def SameThread (x y : ScheduleTask) : Prop :=
  isCallback x = true ∧ isCallback y = true ∧ x.thread = y.thread
where
  isCallback : ScheduleTask → Bool
    | ⟨.cb _, _⟩ => true
    | ⟨.fiber _, _⟩ => false

section Scan

variable (state : FiberId → FiberState) (self : ThreadId)

/-- The scan of the entries is that of the tasks in the source's queue. -/
theorem dequeue_map (l : List Entry) :
    (dequeue state self (l.map Entry.task)).1 =
        (l.find? (mayTake state self)).map Entry.task ∧
      (dequeue state self (l.map Entry.task)).2.1 =
        (l.eraseP (mayTake state self)).map Entry.task := by
  induction l with
  | nil => exact ⟨rfl, rfl⟩
  | cons e l ih =>
    rw [List.map_cons, dequeue, List.find?_cons, List.eraseP_cons]
    by_cases hothers : isOthers self e.task = true
    · simp [mayTake, hothers, ih]
    · by_cases hrunning : isRunning state e.task = true
      · simp [mayTake, hothers, hrunning, ih]
      · simp [mayTake, hothers, hrunning]

variable {state self} {l : List Entry} {e : Entry}

theorem exists_of_find? (h : l.find? (mayTake state self) = some e) :
    mayTake state self e = true ∧ ∃ front back, l = front ++ e :: back ∧
      l.eraseP (mayTake state self) = front ++ back ∧
      ∀ x ∈ front, mayTake state self x = false := by
  obtain ⟨he, front, back, rfl, hfront⟩ := List.find?_eq_some_iff_append.mp h
  have hnot : ∀ x ∈ front, mayTake state self x = false := by simpa using hfront
  refine ⟨he, front, back, rfl, ?_, hnot⟩
  rw [List.eraseP_append_right _ (by simpa using hnot), List.eraseP_cons_of_pos he]

end Scan

/-- One step does to the tasks of the queue what `ScheduleNoLock` and the locked section of `Run`
do. -/
theorem step_tasks {tid : Fin n → ThreadId} {s s' : TaskFlow n} {op : FlowOp n}
    (hs : s.step tid op = some s') :
    s'.tasks.map Entry.task =
      match op with
      | .schedule task thread => (scheduleNoLock (s.tasks.map Entry.task) task thread).2
      | .dequeue i state => (dequeue state (tid i) (s.tasks.map Entry.task)).2.1
      | .finish _ | .stop => s.tasks.map Entry.task := by
  cases op with
  | schedule task thread =>
    cases task with
    | none =>
      obtain rfl := Option.some.inj hs
      simp [scheduleNoLock]
    | some task =>
      obtain rfl := Option.some.inj hs
      simp [scheduleNoLock]
  | dequeue i state =>
    simp only [(dequeue_map state (tid i) s.tasks).2]
    simp only [step] at hs
    split_ifs at hs
    split at hs
    · rename_i hnone
      obtain rfl := Option.some.inj hs
      rw [List.eraseP_of_forall_not (by simpa using List.find?_eq_none.mp hnone)]
    · obtain rfl := Option.some.inj hs
      rfl
  | finish i =>
    simp only [step] at hs
    split at hs
    · cases hs
    · obtain rfl := Option.some.inj hs
      rfl
  | stop =>
    obtain rfl := Option.some.inj hs
    rfl

/-- How many tasks the threads hold. -/
def holding (s : TaskFlow n) : ℕ := ∑ i, (s.held i).toList.length

/-- The invariant of every run. -/
structure Inv (tid : Fin n → ThreadId) (s : TaskFlow n) : Prop where
  conserved : ∀ id, occurrences id s.tasks + s.holders id + occurrences id s.completed =
    if id < s.scheduled.length then 1 else 0
  taken : ∀ id, occurrences id (s.dequeued.map Prod.snd) =
    s.holders id + occurrences id s.completed
  affinity : ∀ p ∈ s.dequeued, ∀ t, p.2.task.thread = some t → t = tid p.1
  numbered : ∀ e ∈ s.dequeued.map Prod.snd ++ s.tasks, s.scheduled[e.id]? = some e.task
  ordered : (s.dequeued.map Prod.snd ++ s.tasks).Pairwise fun x y =>
    SameThread x.task y.task → x.id < y.id
  active : s.activeThreadCount = s.holding

variable {tid : Fin n → ThreadId} {s s' : TaskFlow n}

theorem new_inv : Inv tid (new : TaskFlow n) where
  conserved := by simp [new, occurrences, holders]
  taken := by simp [new, occurrences, holders]
  affinity := by simp [new]
  numbered := by simp [new]
  ordered := by simp [new]
  active := by simp [new, holding]

theorem occurrences_append (id : ℕ) (l m : List Entry) :
    occurrences id (l ++ m) = occurrences id l + occurrences id m := List.countP_append

theorem occurrences_singleton (id : ℕ) (e : Entry) :
    occurrences id [e] = if e.id = id then 1 else 0 := by
  simp [occurrences, List.countP_cons]

theorem holders_update (s : TaskFlow n) (i : Fin n) (o : Option Entry) (id : ℕ) :
    ∑ j, occurrences id (Function.update s.held i o j).toList + occurrences id (s.held i).toList =
      s.holders id + occurrences id o.toList :=
  Tally.sum_update_add (fun o : Option Entry => occurrences id o.toList) s.held i o

theorem holding_update (s : TaskFlow n) (i : Fin n) (o : Option Entry) :
    ∑ j, (Function.update s.held i o j).toList.length + (s.held i).toList.length =
      s.holding + o.toList.length :=
  Tally.sum_update_add (fun o : Option Entry => o.toList.length) s.held i o

section Held

variable {i : Fin n} {e : Entry}

theorem holders_take (h : s.held i = none) (id : ℕ) :
    ∑ j, occurrences id (Function.update s.held i (some e) j).toList =
      s.holders id + occurrences id [e] := by
  have hsum := holders_update s i (some e) id
  rw [h] at hsum
  exact hsum

theorem holders_give (h : s.held i = some e) (id : ℕ) :
    ∑ j, occurrences id (Function.update s.held i none j).toList + occurrences id [e] =
      s.holders id := by
  have hsum := holders_update s i none id
  rw [h] at hsum
  exact hsum

theorem holding_take (h : s.held i = none) :
    ∑ j, (Function.update s.held i (some e) j).toList.length = s.holding + 1 := by
  have hsum := holding_update s i (some e)
  rw [h] at hsum
  exact hsum

theorem holding_give (h : s.held i = some e) :
    ∑ j, (Function.update s.held i none j).toList.length + 1 = s.holding := by
  have hsum := holding_update s i none
  rw [h] at hsum
  exact hsum

end Held

/-- The entry taken may come before those that are passed over. -/
theorem pairwise_taken {R : Entry → Entry → Prop} {taken front back : List Entry} {e : Entry}
    (h : (taken ++ (front ++ e :: back)).Pairwise R) (hfront : ∀ x ∈ front, R e x) :
    (taken ++ [e] ++ (front ++ back)).Pairwise R := by
  obtain ⟨htaken, hrest, hcross⟩ := List.pairwise_append.mp h
  obtain ⟨hf, heb, hfeb⟩ := List.pairwise_append.mp hrest
  obtain ⟨hback, hbb⟩ := List.pairwise_cons.mp heb
  rw [List.append_assoc, List.singleton_append]
  refine List.pairwise_append.mpr ⟨htaken, List.pairwise_cons.mpr ⟨?_, ?_⟩, ?_⟩
  · intro x hx
    rcases List.mem_append.mp hx with hx | hx
    · exact hfront x hx
    · exact hback x hx
  · exact List.pairwise_append.mpr
      ⟨hf, hbb, fun x hx y hy => hfeb x hx y (List.mem_cons_of_mem _ hy)⟩
  · intro x hx y hy
    refine hcross x hx y ?_
    simp only [List.mem_append, List.mem_cons] at hy ⊢
    tauto

theorem Inv.schedule (h : s.Inv tid) (task : ScheduleTask) :
    Inv tid { s with
      tasks := s.tasks ++ [⟨s.scheduled.length, task⟩]
      scheduled := s.scheduled ++ [task] } := by
  refine ⟨?_, h.taken, h.affinity, ?_, ?_, h.active⟩
  · intro id
    have hold := h.conserved id
    simp only [occurrences_append, occurrences_singleton, List.length_append, List.length_singleton]
    change occurrences id s.tasks + _ + s.holders id + occurrences id s.completed = _
    split_ifs at hold ⊢ <;> omega
  · intro e he
    rw [← List.append_assoc] at he
    rcases List.mem_append.mp he with he | he
    · have hold := h.numbered e he
      rw [List.getElem?_append_left (List.getElem?_eq_some_iff.mp hold).1, hold]
    · obtain rfl := List.mem_singleton.mp he
      simp
  · rw [← List.append_assoc]
    refine List.pairwise_append.mpr ⟨h.ordered, List.pairwise_singleton _ _, ?_⟩
    intro x hx y hy _
    obtain rfl := List.mem_singleton.mp hy
    exact (List.getElem?_eq_some_iff.mp (h.numbered x hx)).1

theorem thread_of_mayTake {state : FiberId → FiberState} {self : ThreadId} {e : Entry}
    (h : mayTake state self e = true) :
    e.task.thread = none ∨ e.task.thread = some self := by
  simp only [mayTake, isOthers, Bool.and_eq_true, Bool.not_eq_true'] at h
  cases ht : e.task.thread with
  | none => exact Or.inl rfl
  | some t =>
    rw [ht] at h
    exact Or.inr (by simpa using h.1)

/-- A callback that is passed over is not for the thread of one that is taken. -/
theorem not_sameThread {state : FiberId → FiberState} {self : ThreadId} {e x : Entry}
    (he : mayTake state self e = true) (hx : mayTake state self x = false) :
    ¬ SameThread e.task x.task := by
  rintro ⟨-, hcb, hthread⟩
  obtain ⟨id, ⟨task, thread⟩⟩ := x
  cases task with
  | fiber f => cases hcb
  | cb c =>
    obtain rfl : e.task.thread = thread := hthread
    rcases thread_of_mayTake he with hnone | hself
    · simp [mayTake, isOthers, isRunning, hnone] at hx
    · simp [mayTake, isOthers, isRunning, hself] at hx

theorem Inv.dequeue (h : s.Inv tid) {i : Fin n} {state : FiberId → FiberState} {e : Entry}
    (hfree : s.held i = none) (he : s.tasks.find? (mayTake state (tid i)) = some e) :
    Inv tid { s with
      tasks := s.tasks.eraseP (mayTake state (tid i))
      held := Function.update s.held i (some e)
      activeThreadCount := s.activeThreadCount + 1
      dequeued := s.dequeued ++ [(i, e)] } := by
  obtain ⟨hmay, front, back, htasks, herase, hfront⟩ := exists_of_find? he
  have hperm : ∀ id, occurrences id s.tasks =
      occurrences id (front ++ back) + occurrences id [e] := by
    intro id
    rw [htasks, ← List.singleton_append]
    simp only [occurrences_append]
    omega
  rw [herase]
  refine ⟨?_, ?_, ?_, ?_, ?_, ?_⟩
  · intro id
    have hold := h.conserved id
    rw [hperm] at hold
    change occurrences id (front ++ back) +
      ∑ j, occurrences id (Function.update s.held i (some e) j).toList +
        occurrences id s.completed = _
    rw [← hold, holders_take hfree]
    omega
  · intro id
    have hold := h.taken id
    simp only [List.map_append, List.map_cons, List.map_nil, occurrences_append]
    change occurrences id (s.dequeued.map Prod.snd) + occurrences id [e] =
      ∑ j, occurrences id (Function.update s.held i (some e) j).toList + occurrences id s.completed
    rw [holders_take hfree]
    omega
  · intro p hp t ht
    rcases List.mem_append.mp hp with hp | hp
    · exact h.affinity p hp t ht
    · obtain rfl := List.mem_singleton.mp hp
      rcases thread_of_mayTake hmay with hnone | hself
      · cases ht.symm.trans hnone
      · exact Option.some.inj (ht.symm.trans hself)
  · intro x hx
    apply h.numbered x
    rw [htasks]
    simp only [List.map_append, List.map_cons, List.map_nil, List.mem_append, List.mem_cons] at hx ⊢
    tauto
  · have hold := h.ordered
    rw [htasks] at hold
    rw [List.map_append]
    exact pairwise_taken hold fun x hx hsame => absurd hsame (not_sameThread hmay (hfront x hx))
  · exact (congrArg (· + 1) h.active).trans (holding_take hfree).symm

theorem Inv.finish (h : s.Inv tid) {i : Fin n} {e : Entry} (hi : s.held i = some e) :
    Inv tid { s with
      held := Function.update s.held i none
      activeThreadCount := s.activeThreadCount - 1
      completed := s.completed ++ [e] } := by
  refine ⟨?_, ?_, h.affinity, h.numbered, h.ordered, ?_⟩
  · intro id
    have hold := h.conserved id
    have hheld := holders_give hi id
    rw [← hold, occurrences_append]
    change occurrences id s.tasks +
      ∑ j, occurrences id (Function.update s.held i none j).toList +
        (occurrences id s.completed + occurrences id [e]) = _
    omega
  · intro id
    have hold := h.taken id
    have hheld := holders_give hi id
    rw [occurrences_append]
    change occurrences id (s.dequeued.map Prod.snd) =
      ∑ j, occurrences id (Function.update s.held i none j).toList +
        (occurrences id s.completed + occurrences id [e])
    omega
  · have hheld := holding_give hi
    have hold := h.active
    change s.activeThreadCount - 1 = ∑ j, (Function.update s.held i none j).toList.length
    omega

theorem Inv.step {op : FlowOp n} (h : s.Inv tid) (hs : s.step tid op = some s') :
    s'.Inv tid := by
  cases op with
  | schedule task thread =>
    cases task with
    | none =>
      obtain rfl := Option.some.inj hs
      exact h
    | some task =>
      obtain rfl := Option.some.inj hs
      exact h.schedule ⟨task, thread⟩
  | dequeue i state =>
    simp only [TaskFlow.step] at hs
    split_ifs at hs with hfree
    cases hfind : s.tasks.find? (mayTake state (tid i)) with
    | none =>
      rw [hfind] at hs
      obtain rfl := Option.some.inj hs
      exact h
    | some e =>
      rw [hfind] at hs
      obtain rfl := Option.some.inj hs
      exact h.dequeue hfree hfind
  | finish i =>
    cases hi : s.held i with
    | none => simp [TaskFlow.step, hi] at hs
    | some e =>
      simp only [TaskFlow.step, hi] at hs
      obtain rfl := Option.some.inj hs
      exact h.finish hi
  | stop =>
    obtain rfl := Option.some.inj hs
    exact ⟨h.conserved, h.taken, h.affinity, h.numbered, h.ordered, h.active⟩

theorem Inv.mem_of_lt (h : s.Inv tid) {id : ℕ} (hid : id < s.scheduled.length) :
    ∃ e ∈ s.dequeued.map Prod.snd ++ s.tasks, e.id = id := by
  have hplace := h.conserved id
  have htaken := h.taken id
  rw [if_pos hid] at hplace
  have hpos : 0 < occurrences id (s.dequeued.map Prod.snd ++ s.tasks) := by
    rw [occurrences_append]
    omega
  obtain ⟨e, he, hide⟩ := List.countP_pos_iff.mp hpos
  exact ⟨e, he, of_decide_eq_true hide⟩

/-- When a callback is taken, those scheduled for the same thread before it have been taken. -/
theorem Inv.earlier (h : s.Inv tid) {front back : List Entry} {y : Entry}
    (hdeq : s.dequeued.map Prod.snd = front ++ y :: back) {id : ℕ} {x : ScheduleTask}
    (hx : s.scheduled[id]? = some x) (hlt : id < y.id) (hsame : SameThread x y.task) :
    ∃ z ∈ front, z.id = id := by
  obtain ⟨z, hz, rfl⟩ := h.mem_of_lt (List.getElem?_eq_some_iff.mp hx).1
  have htask : z.task = x := Option.some.inj ((h.numbered z hz).symm.trans hx)
  have hord := h.ordered
  rw [hdeq, List.append_assoc] at hz hord
  rcases List.mem_append.mp hz with hz | hz
  · exact ⟨z, hz, rfl⟩
  rcases List.mem_cons.mp hz with rfl | hz
  · exact absurd hlt (Nat.lt_irrefl _)
  · have hyz := (List.pairwise_cons.mp (List.pairwise_append.mp hord).2.1).1 z hz
    obtain ⟨hcbx, hcby, hthread⟩ := hsame
    have := hyz ⟨hcby, htask ▸ hcbx, htask ▸ hthread.symm⟩
    omega

theorem Inv.idle_of_isStopping (h : s.Inv tid) (hs : s.isStopping = true) :
    s.tasks = [] ∧ ∀ i, s.held i = none := by
  simp only [isStopping, Bool.and_eq_true, List.isEmpty_iff, decide_eq_true_eq] at hs
  refine ⟨hs.1.2, fun i => ?_⟩
  have hle := Tally.le_sum (fun o : Option Entry => o.toList.length) s.held i
  have hzero : s.holding = 0 := h.active.symm.trans hs.2
  rw [holding] at hzero
  cases hi : s.held i with
  | none => rfl
  | some e =>
    rw [hi] at hle
    simp only [Option.toList_some, List.length_singleton] at hle
    omega

theorem holding_eq_card (s : TaskFlow n) :
    s.holding = (Finset.univ.filter fun i => (s.held i).isSome = true).card := by
  rw [Finset.card_filter]
  refine Finset.sum_congr rfl fun i _ => ?_
  cases s.held i <;> rfl

/-- In every run each accepted task is once in all in the queue, with a thread or completed, and
taken at most once; a task for a thread is taken by it; callbacks for one thread are taken in the
order of their `Schedule` calls; the threads that hold a task are counted; and `Stopping` is true
only when there is none queued or held. -/
theorem tasks_conserved (tid : Fin n → ThreadId) (ops : List (FlowOp n)) (s : TaskFlow n)
    (hr : run (step tid) new ops = some s) :
    (∀ id < s.scheduled.length,
      occurrences id s.tasks + s.holders id + occurrences id s.completed = 1 ∧
        occurrences id (s.dequeued.map Prod.snd) ≤ 1) ∧
    (∀ p ∈ s.dequeued, s.scheduled[p.2.id]? = some p.2.task ∧
      ∀ t, p.2.task.thread = some t → t = tid p.1) ∧
    (∀ front y back, s.dequeued.map Prod.snd = front ++ y :: back →
      ∀ id x, s.scheduled[id]? = some x → id < y.id → SameThread x y.task →
        ∃ z ∈ front, z.id = id) ∧
    s.activeThreadCount = (Finset.univ.filter fun i => (s.held i).isSome = true).card ∧
    (s.isStopping = true → s.tasks = [] ∧ ∀ i, s.held i = none) := by
  have h : s.Inv tid := run_invariant (G := fun _ _ => True) (Inv tid) (fun _ _ _ h _ => h.step)
    new_inv (meets_of_forall (fun _ _ => trivial) _ _) hr
  refine ⟨?_, ?_, ?_, h.active.trans s.holding_eq_card, h.idle_of_isStopping⟩
  · intro id hid
    have hplace := h.conserved id
    have htaken := h.taken id
    rw [if_pos hid] at hplace
    exact ⟨hplace, by omega⟩
  · intro p hp
    refine ⟨h.numbered p.2 ?_, h.affinity p hp⟩
    exact List.mem_append_left _ (List.mem_map_of_mem hp)
  · exact fun front y back hdeq id x hx hlt hsame => h.earlier hdeq hx hlt hsame

/-- Two threads and a callback pinned to the second of them. -/
theorem tasks_conserved_pinned : ∃ s,
    run (step (n := 2) fun i => i.val + 10) new
      [.schedule (some (.cb 1)) (some 11), .schedule (some (.cb 2)) none,
        .dequeue 0 (fun _ => .ready), .dequeue 1 (fun _ => .ready), .finish 0] = some s ∧
      s.activeThreadCount = 1 ∧ s.holders 0 = 1 ∧
      occurrences 0 s.tasks + s.holders 0 + occurrences 0 s.completed = 1 := by
  have h := tasks_conserved (n := 2) (fun i => i.val + 10)
    [.schedule (some (.cb 1)) (some 11), .schedule (some (.cb 2)) none,
      .dequeue 0 (fun _ => .ready), .dequeue 1 (fun _ => .ready), .finish 0] _ rfl
  exact ⟨_, rfl, rfl, by decide, (h.1 0 (by decide)).1⟩

end TaskFlow

end ServerFramework
