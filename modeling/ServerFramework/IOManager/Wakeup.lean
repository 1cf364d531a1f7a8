import Mathlib.Data.Fintype.Fin
import ServerFramework.Fiber.Scheduler
import ServerFramework.Lib.Tally
import ServerFramework.Lib.Transition

/-! # Waking threads for runnable tasks

The scheduling threads scan the queue, execute what they take and otherwise wait in `epoll_wait`
until there is a token in the tickle pipe. `Schedule` tickles only if the queue was empty, and
`Tickle` writes a token only if a thread is counted as idle. A thread that has scanned in vain is
counted as idle a little later.
-/

namespace ServerFramework

open Scheduler Transition
open scoped BigOperators

/-- Where a scheduling thread stands in `Run`. -/
inductive WakePhase where
  /-- At the head of the loop. -/
  | loop
  /-- After the locked scan, before its `Tickle`. -/
  | scanned (taken : Bool)
  /-- Nothing was taken; before `++idle_thread_count_`. -/
  | entering
  /-- Counted as idle; before `epoll_wait`. -/
  | idle
  /-- In `epoll_wait`. -/
  | blocked
  /-- `epoll_wait` has returned; `calling` if the thread is in `Schedule`, before `Tickle`. -/
  | woken (calling : Bool)
  /-- A task is executing. -/
  | executing (calling : Bool)
  deriving DecidableEq, Repr

namespace WakePhase

/-- The thread will not scan again before it waits. -/
@[simp] def isLate : WakePhase → Bool
  | scanned taken => !taken
  | entering | idle | blocked => true
  | loop | woken _ | executing _ => false

/-- The thread will scan before it waits or executes. -/
@[simp] def isFresh : WakePhase → Bool
  | loop | woken _ => true
  | scanned _ | entering | idle | blocked | executing _ => false

/-- The thread has a call of `Tickle` to make. -/
@[simp] def isTickling : WakePhase → Bool
  | scanned _ => true
  | woken calling | executing calling => calling
  | loop | entering | idle | blocked => false

/-- The steps a thread makes before it waits. -/
@[simp] def toWait : WakePhase → ℕ
  | entering => 2
  | idle => 1
  | loop | scanned _ | blocked | woken _ | executing _ => 0

/-- What the thread does once it has called `Tickle`. -/
def tickled : WakePhase → Option WakePhase
  | scanned true => some (executing false)
  | scanned false => some entering
  | woken true => some (woken false)
  | executing true => some (executing false)
  | _ => none

/-- The thread is in `Schedule`, which is to tickle or not. -/
def called (needTickle : Bool) : WakePhase → Option WakePhase
  | woken false => some (woken needTickle)
  | executing false => some (executing needTickle)
  | _ => none

end WakePhase

/-- The queue, the tickle pipe and the threads. `outside` counts the calls of `Tickle` that threads
of other code have to make. -/
structure Wakeup (n : ℕ) where
  tasks : List ScheduleTask
  tokens : ℕ
  idleThreadCount : ℕ
  outside : ℕ
  phase : Fin n → WakePhase

/-- The steps. The caller of `Schedule` is a scheduling thread or (`none`) other code. -/
inductive WakeOp (n : ℕ) where
  /-- The locked section of `Schedule`. -/
  | schedule (caller : Option (Fin n)) (task : Option Task) (thread : Option ThreadId)
  | tickle (caller : Option (Fin n))
  /-- The locked section of `Run`, in which the fibers are in the given states. -/
  | scan (i : Fin n) (state : FiberId → FiberState)
  | enterIdle (i : Fin n)
  | wait (i : Fin n)
  /-- `epoll_wait` returns, by a token, a timeout or another event. -/
  | wake (i : Fin n)
  /-- Read the tokens. -/
  | drain (i : Fin n)
  /-- The idle fiber yields, and the thread is no longer counted as idle. -/
  | yield (i : Fin n)
  /-- The task returns. -/
  | finish (i : Fin n)

/-- A callback that any thread may execute. -/
def ScheduleTask.isFree : ScheduleTask → Bool
  | ⟨.cb _, none⟩ => true
  | _ => false

namespace Wakeup

variable {n : ℕ}

def new : Wakeup n where
  tasks := []
  tokens := 0
  idleThreadCount := 0
  outside := 0
  phase := fun _ => .loop

def setPhase (s : Wakeup n) (i : Fin n) (phase : WakePhase) : Wakeup n :=
  { s with phase := Function.update s.phase i phase }

/-- `IOManager::Tickle`. -/
def tickle (s : Wakeup n) : Wakeup n :=
  if s.idleThreadCount > 0 then { s with tokens := s.tokens + 1 } else s

/-- One step, with the thread numbers of the threads. -/
def step (tid : Fin n → ThreadId) (s : Wakeup n) : WakeOp n → Option (Wakeup n)
  | .schedule caller task thread =>
    let (needTickle, tasks) := scheduleNoLock s.tasks task thread
    let s' := { s with tasks := tasks }
    match caller with
    | none => some { s' with outside := s.outside + needTickle.toNat }
    | some i => ((s.phase i).called needTickle).map (s'.setPhase i)
  | .tickle none =>
    if s.outside > 0 then some { s.tickle with outside := s.outside - 1 } else none
  | .tickle (some i) => (s.phase i).tickled.map (s.tickle.setPhase i)
  | .scan i state =>
    if s.phase i = .loop then
      let (taken, tasks, tickleMe) := dequeue state (tid i) s.tasks
      some ({ s with tasks := tasks }.setPhase i
        (if tickleMe then .scanned taken.isSome
          else if taken.isSome then .executing false else .entering))
    else none
  | .enterIdle i =>
    if s.phase i = .entering then
      some { s.setPhase i .idle with idleThreadCount := s.idleThreadCount + 1 }
    else none
  | .wait i => if s.phase i = .idle then some (s.setPhase i .blocked) else none
  | .wake i => if s.phase i = .blocked then some (s.setPhase i (.woken false)) else none
  | .drain i => if s.phase i = .woken false then some { s with tokens := 0 } else none
  | .yield i =>
    if s.phase i = .woken false then
      some { s.setPhase i .loop with idleThreadCount := s.idleThreadCount - 1 }
    else none
  | .finish i => if s.phase i = .executing false then some (s.setPhase i .loop) else none

/-- A callback for any thread is in the queue. -/
def Runnable (s : Wakeup n) : Prop := ∃ task ∈ s.tasks, task.isFree = true

/-- The calls of `Tickle` still to be made. -/
def outstanding (s : Wakeup n) : ℕ := s.outside + ∑ i, (s.phase i).isTickling.toNat

/-- A callback for any thread is in the queue, a thread waits, nothing is going to wake it and all
the others are executing. -/
structure Lost (s : Wakeup n) : Prop where
  runnable : s.Runnable
  blocked : ∃ i, s.phase i = .blocked
  tokens : s.tokens = 0
  outside : s.outside = 0
  others : ∀ i, s.phase i = .blocked ∨ s.phase i = .executing false

/-- A thread is not going to scan before it waits. -/
def Sleepy (s : Wakeup n) : Prop := ∃ i, (s.phase i).isLate = true

/-- Something is going to wake a thread, or a thread is going to scan. -/
def Covered (s : Wakeup n) : Prop :=
  0 < s.tokens ∨ (∃ i, (s.phase i).isFresh = true) ∨ 0 < s.outstanding

/-- If a callback for any thread is in the queue and a thread is past its scan, a thread is going to
be woken or to scan. -/
def Inv (s : Wakeup n) : Prop := s.Runnable → s.Sleepy → s.Covered

/-- A callback for any thread joins a non-empty queue without one only if no thread is past its
scan, or a thread is going to be woken or to scan; and so does a `Tickle` come that finds such a
callback in the queue and no thread counted as idle. -/
def Heard (s : Wakeup n) : WakeOp n → Prop
  | .schedule _ (some (.cb _)) none => s.tasks ≠ [] → ¬ s.Runnable → s.Sleepy → s.Covered
  | .tickle _ => s.idleThreadCount = 0 → s.Runnable → s.Sleepy →
      0 < s.tokens ∨ (∃ i, (s.phase i).isFresh = true) ∨ 1 < s.outstanding
  | _ => True

instance (s : Wakeup n) : Decidable s.Runnable :=
  inferInstanceAs (Decidable (∃ task ∈ s.tasks, task.isFree = true))

instance (s : Wakeup n) : Decidable s.Sleepy :=
  inferInstanceAs (Decidable (∃ i, (s.phase i).isLate = true))

instance (s : Wakeup n) : Decidable s.Covered :=
  inferInstanceAs (Decidable (_ ∨ _ ∨ _))

instance (s : Wakeup n) : ∀ op, Decidable (s.Heard op)
  | .schedule _ (some (.cb _)) none => inferInstanceAs (Decidable (_ → _ → _ → _))
  | .tickle _ => inferInstanceAs (Decidable (_ → _ → _ → _ ∨ _ ∨ _))
  | .schedule _ none _ | .schedule _ (some (.fiber _)) _ | .schedule _ (some (.cb _)) (some _)
  | .scan _ _ | .enterIdle _ | .wait _ | .wake _ | .drain _ | .yield _ | .finish _ =>
    isTrue trivial

variable {tid : Fin n → ThreadId} {s s' : Wakeup n} {i : Fin n}

theorem Covered.of_fresh (h : (s.phase i).isFresh = true) : s.Covered := Or.inr (Or.inl ⟨i, h⟩)

theorem isTickling_le_outstanding (s : Wakeup n) (i : Fin n) :
    (s.phase i).isTickling.toNat ≤ s.outstanding :=
  (Tally.le_sum (fun p : WakePhase => p.isTickling.toNat) s.phase i).trans (Nat.le_add_left _ _)

theorem outstanding_setPhase (s : Wakeup n) (i : Fin n) (phase : WakePhase) :
    (s.setPhase i phase).outstanding + (s.phase i).isTickling.toNat =
      s.outstanding + phase.isTickling.toNat := by
  have hsum := Tally.sum_update_add (fun p : WakePhase => p.isTickling.toNat) s.phase i phase
  change s.outside + ∑ j, (Function.update s.phase i phase j).isTickling.toNat + _ =
    s.outside + ∑ j, (s.phase j).isTickling.toNat + _
  omega

/-- A thread that moves on and is what it was. -/
theorem exists_setPhase_iff (P : WakePhase → Bool) {phase : WakePhase}
    (h : P phase = P (s.phase i)) :
    (∃ j, P ((s.setPhase i phase).phase j) = true) ↔ ∃ j, P (s.phase j) = true := by
  simp only [setPhase, Tally.apply_update_of_eq P h]

theorem phase_setPhase (s : Wakeup n) (i : Fin n) (phase : WakePhase) :
    (s.setPhase i phase).phase i = phase := Function.update_self ..

/-- A step of a thread that neither changes whether it scans nor whether it tickles. -/
theorem covered_setPhase_iff {phase : WakePhase} (hfresh : phase.isFresh = (s.phase i).isFresh)
    (htickling : phase.isTickling = (s.phase i).isTickling) :
    (s.setPhase i phase).Covered ↔ s.Covered := by
  have hsum := outstanding_setPhase s i phase
  rw [htickling] at hsum
  rw [Covered, Covered, exists_setPhase_iff WakePhase.isFresh hfresh,
    show (s.setPhase i phase).outstanding = s.outstanding by omega]
  rfl

theorem not_isOthers_of_isFree {task : ScheduleTask} (h : task.isFree = true) (self : ThreadId)
    (state : FiberId → FiberState) :
    isOthers self task = false ∧ isRunning state task = false := by
  obtain ⟨task, thread⟩ := task
  cases task <;> cases thread <;> simp_all [ScheduleTask.isFree, isOthers, isRunning]

/-- What `Schedule` does to the queue. -/
theorem runnable_scheduled {task : Option Task} {thread : Option ThreadId} :
    (∃ x ∈ (scheduleNoLock s.tasks task thread).2, x.isFree = true) ↔
      s.Runnable ∨ (thread = none ∧ ∃ cb, task = some (.cb cb)) := by
  simp only [scheduleNoLock, List.mem_append]
  constructor
  · rintro ⟨x, hx | hx, hfree⟩
    · exact Or.inl ⟨x, hx, hfree⟩
    · obtain ⟨t, rfl, rfl⟩ := Option.map_eq_some_iff.mp (Option.mem_toList.mp hx)
      cases t <;> cases thread <;> simp_all [ScheduleTask.isFree]
  · rintro (⟨x, hx, hfree⟩ | ⟨rfl, cb, rfl⟩)
    · exact ⟨x, Or.inl hx, hfree⟩
    · exact ⟨⟨.cb cb, none⟩, Or.inr (by simp), rfl⟩

/-- A `Schedule` only gives its caller a call of `Tickle` to make. -/
theorem called_flags {phase phase' : WakePhase} {needTickle : Bool}
    (h : phase.called needTickle = some phase') :
    phase'.isLate = phase.isLate ∧ phase'.isFresh = phase.isFresh ∧
      phase'.isTickling = needTickle ∧ phase.isTickling = false := by
  cases phase with
  | woken b | executing b => cases b <;> cases h; simp
  | loop | scanned | entering | idle | blocked => cases h

/-- What the caller of `Schedule` does to the rest. -/
theorem scheduled_effect {caller : Option (Fin n)} {task : Option Task} {thread : Option ThreadId}
    (hs : s.step tid (.schedule caller task thread) = some s') :
    s'.tasks = (scheduleNoLock s.tasks task thread).2 ∧ s'.tokens = s.tokens ∧
      (s'.Sleepy ↔ s.Sleepy) ∧
      ((∃ i, (s'.phase i).isFresh = true) ↔ ∃ i, (s.phase i).isFresh = true) ∧
      s'.outstanding = s.outstanding + s.tasks.isEmpty.toNat := by
  cases caller with
  | none =>
    obtain rfl := Option.some.inj hs
    refine ⟨rfl, rfl, Iff.rfl, Iff.rfl, ?_⟩
    change s.outside + s.tasks.isEmpty.toNat + ∑ j, (s.phase j).isTickling.toNat = _
    rw [outstanding]
    omega
  | some i =>
    obtain ⟨phase, hphase, rfl⟩ := Option.map_eq_some_iff.mp hs
    have hsum := outstanding_setPhase s i phase
    obtain ⟨hlate, hfresh, htickling, hnot⟩ := called_flags hphase
    refine ⟨rfl, rfl, exists_setPhase_iff WakePhase.isLate hlate,
      exists_setPhase_iff WakePhase.isFresh hfresh, ?_⟩
    rw [htickling, hnot] at hsum
    change (s.setPhase i phase).outstanding = _
    simpa using hsum

@[simp] theorem tickle_tasks (s : Wakeup n) : s.tickle.tasks = s.tasks := by
  rw [tickle]; split_ifs <;> rfl

@[simp] theorem tickle_phase (s : Wakeup n) : s.tickle.phase = s.phase := by
  rw [tickle]; split_ifs <;> rfl

@[simp] theorem tickle_outside (s : Wakeup n) : s.tickle.outside = s.outside := by
  rw [tickle]; split_ifs <;> rfl

theorem tickle_tokens (s : Wakeup n) :
    s.tickle.tokens = s.tokens + if s.idleThreadCount > 0 then 1 else 0 := by
  rw [tickle]; split_ifs <;> rfl

theorem tickle_outstanding (s : Wakeup n) : s.tickle.outstanding = s.outstanding := by
  simp [outstanding]

/-- A `Tickle` only takes the call away from its caller. -/
theorem tickled_flags {phase phase' : WakePhase} (h : phase.tickled = some phase') :
    phase'.isLate = phase.isLate ∧ phase'.isFresh = phase.isFresh ∧
      phase.isTickling = true ∧ phase'.isTickling = false := by
  cases phase with
  | scanned b | woken b | executing b => cases b <;> cases h <;> simp
  | loop | entering | idle | blocked => cases h

/-- What `Tickle` does. -/
theorem tickle_effect {caller : Option (Fin n)} (hs : s.step tid (.tickle caller) = some s') :
    s'.tasks = s.tasks ∧ s'.tokens = s.tokens + (if s.idleThreadCount > 0 then 1 else 0) ∧
      (s'.Sleepy ↔ s.Sleepy) ∧
      ((∃ i, (s'.phase i).isFresh = true) ↔ ∃ i, (s.phase i).isFresh = true) ∧
      s'.outstanding + 1 = s.outstanding := by
  cases caller with
  | none =>
    obtain ⟨hout, rfl⟩ := Option.ite_some_none_eq_some.mp hs
    simp only [Sleepy, tickle_tasks, tickle_phase, tickle_tokens, outstanding, true_and, iff_self]
    omega
  | some i =>
    obtain ⟨phase, hphase, rfl⟩ := Option.map_eq_some_iff.mp hs
    obtain ⟨hlate, hfresh, htickling, hnot⟩ := tickled_flags hphase
    have hsum := outstanding_setPhase s.tickle i phase
    rw [tickle_outstanding, tickle_phase, htickling, hnot] at hsum
    refine ⟨tickle_tasks s, tickle_tokens s, ?_, ?_, hsum⟩
    · rw [Sleepy, exists_setPhase_iff WakePhase.isLate (by rw [hlate, tickle_phase]), tickle_phase,
        Sleepy]
    · rw [exists_setPhase_iff WakePhase.isFresh (by rw [hfresh, tickle_phase]), tickle_phase]

/-- A scan that leaves a callback for any thread in the queue is followed by a `Tickle`. -/
theorem scan_covered {state : FiberId → FiberState} (hs : s.step tid (.scan i state) = some s')
    (hrun : s'.Runnable) : s'.Covered := by
  obtain ⟨hloop, hs⟩ := Option.ite_some_none_eq_some.mp hs
  rcases hdeq : dequeue state (tid i) s.tasks with ⟨taken, left, tickleMe⟩
  rw [hdeq] at hs
  obtain rfl := hs
  obtain ⟨x, hx, hfree⟩ := hrun
  obtain ⟨hothers, hrunning⟩ := not_isOthers_of_isFree hfree (tid i) state
  cases taken with
  | none =>
    obtain ⟨rfl, hall⟩ := dequeue_none hdeq
    rcases hall x hx with h | h
    · simp [hothers] at h
    · simp [hrunning] at h
  | some task =>
    obtain rfl := dequeue_tickleMe hdeq hx hrunning
    refine Or.inr (Or.inr ?_)
    have hle := isTickling_le_outstanding ({ s with tasks := left }.setPhase i (.scanned true)) i
    rw [phase_setPhase] at hle
    exact hle

/-- A thread that is going to scan. -/
theorem covered_of_setPhase {phase : WakePhase} (h : phase.isFresh = true) :
    (s.setPhase i phase).Covered :=
  Covered.of_fresh (i := i) (by rw [phase_setPhase, h])

theorem inv_of_covered (h : s.Covered) : s.Inv := fun _ _ => h

/-- A thread on its way to wait changes nothing. -/
theorem inv_setPhase_iff {phase : WakePhase} (hlate : phase.isLate = (s.phase i).isLate)
    (hfresh : phase.isFresh = (s.phase i).isFresh)
    (htickling : phase.isTickling = (s.phase i).isTickling) :
    (s.setPhase i phase).Inv ↔ s.Inv := by
  rw [Inv, Inv, covered_setPhase_iff hfresh htickling, Sleepy,
    exists_setPhase_iff WakePhase.isLate hlate]
  rfl

theorem Inv.schedule {caller : Option (Fin n)} {task : Option Task} {thread : Option ThreadId}
    (hi : s.Inv) (hg : s.Heard (.schedule caller task thread))
    (hs : s.step tid (.schedule caller task thread) = some s') : s'.Inv := by
  obtain ⟨htasks, htokens, hsleepy, hfresh, hout⟩ := scheduled_effect hs
  intro hrun hsl
  rw [hsleepy] at hsl
  have hkeep : s.Covered → s'.Covered := by
    rw [Covered, Covered, htokens, hfresh, hout]
    exact Or.imp_right (Or.imp_right (Nat.lt_add_right _))
  by_cases hempty : s.tasks = []
  · right; right
    simp [hout, hempty]
  · rw [Runnable, htasks, runnable_scheduled] at hrun
    by_cases hold : s.Runnable
    · exact hkeep (hi hold hsl)
    · obtain ⟨rfl, cb, rfl⟩ := hrun.resolve_left hold
      exact hkeep (hg hempty hold hsl)

theorem Inv.tickle {caller : Option (Fin n)} (hg : s.Heard (.tickle caller))
    (hs : s.step tid (.tickle caller) = some s') : s'.Inv := by
  obtain ⟨htasks, htokens, hsleepy, hfresh, hout⟩ := tickle_effect hs
  intro hrun hsl
  rw [Runnable, htasks] at hrun
  rw [hsleepy] at hsl
  rw [Covered, htokens, hfresh]
  by_cases hidle : s.idleThreadCount > 0
  · left
    simp [hidle]
  · rcases hg (by omega) hrun hsl with h | h | h
    · left; omega
    · right; left; exact h
    · right; right; omega

theorem Inv.step {op : WakeOp n} (hi : s.Inv) (hg : s.Heard op)
    (hs : s.step tid op = some s') : s'.Inv := by
  cases op with
  | schedule caller task thread => exact hi.schedule hg hs
  | tickle caller => exact Inv.tickle hg hs
  | scan i state => exact fun hrun _ => scan_covered hs hrun
  | enterIdle i =>
    obtain ⟨hphase, rfl⟩ := Option.ite_some_none_eq_some.mp hs
    exact (inv_setPhase_iff (by simp [hphase]) (by simp [hphase]) (by simp [hphase])).mpr hi
  | wait i =>
    obtain ⟨hphase, rfl⟩ := Option.ite_some_none_eq_some.mp hs
    exact (inv_setPhase_iff (by simp [hphase]) (by simp [hphase]) (by simp [hphase])).mpr hi
  | wake i =>
    obtain ⟨-, rfl⟩ := Option.ite_some_none_eq_some.mp hs
    exact inv_of_covered (covered_of_setPhase rfl)
  | drain i =>
    obtain ⟨hphase, rfl⟩ := Option.ite_some_none_eq_some.mp hs
    exact inv_of_covered (Covered.of_fresh (i := i) (by simp [hphase]))
  | yield i =>
    obtain ⟨-, rfl⟩ := Option.ite_some_none_eq_some.mp hs
    have hc : (s.setPhase i .loop).Covered := covered_of_setPhase rfl
    exact inv_of_covered hc
  | finish i =>
    obtain ⟨-, rfl⟩ := Option.ite_some_none_eq_some.mp hs
    exact inv_of_covered (covered_of_setPhase rfl)

theorem new_inv : (new : Wakeup n).Inv := by
  rintro ⟨x, hx, -⟩
  exact absurd hx List.not_mem_nil

theorem Lost.sleepy (h : s.Lost) : s.Sleepy := by
  obtain ⟨i, hi⟩ := h.blocked
  exact ⟨i, by simp [hi]⟩

theorem Lost.not_covered (h : s.Lost) : ¬ s.Covered := by
  have hphase : ∀ i, (s.phase i).isFresh = false ∧ (s.phase i).isTickling = false := by
    intro i
    rcases h.others i with hi | hi <;> simp [hi]
  rintro (htokens | ⟨i, hfresh⟩ | hout)
  · exact absurd h.tokens htokens.ne'
  · rw [(hphase i).1] at hfresh
    cases hfresh
  · simp only [outstanding, h.outside, (hphase _).2] at hout
    simp at hout

theorem Inv.not_lost (hi : s.Inv) : ¬ s.Lost :=
  fun h => h.not_covered (hi h.runnable h.sleepy)

/-- If nothing wakes a thread and none is going to scan, each of them waits, is about to or
executes. -/
theorem phase_of_not_covered (hc : ¬ s.Covered) (i : Fin n) :
    s.phase i = .entering ∨ s.phase i = .idle ∨ s.phase i = .blocked ∨
      s.phase i = .executing false := by
  have hfresh : (s.phase i).isFresh = false := by
    by_contra h
    exact hc (Covered.of_fresh (eq_true_of_ne_false h))
  have htickling : (s.phase i).isTickling.toNat = 0 := by
    by_contra h
    exact hc (Or.inr (Or.inr ((Nat.pos_of_ne_zero h).trans_le (isTickling_le_outstanding s i))))
  cases hp : s.phase i with
  | executing calling => cases calling <;> simp_all
  | loop | scanned | woken => simp_all
  | entering | idle | blocked => simp

/-- A thread that is about to wait makes a step. -/
theorem exists_step_toWait (tid : Fin n → ThreadId)
    (hi : s.phase i = .entering ∨ s.phase i = .idle) :
    ∃ op phase count, s.step tid op = some { s.setPhase i phase with idleThreadCount := count } ∧
      phase.isLate = true ∧ phase.isFresh = (s.phase i).isFresh ∧
      phase.isTickling = (s.phase i).isTickling ∧ phase.toWait < (s.phase i).toWait := by
  rcases hi with hi | hi
  · exact ⟨.enterIdle i, .idle, s.idleThreadCount + 1, by simp [step, hi], by simp [hi]⟩
  · exact ⟨.wait i, .blocked, s.idleThreadCount, by simp [step, hi, setPhase], by simp [hi]⟩

/-- Then the threads that are about to wait do so, and the callback is lost. -/
theorem lost_of_not_covered (tid : Fin n → ThreadId) (hrun : s.Runnable) (hsl : s.Sleepy)
    (hc : ¬ s.Covered) : ∃ more u, run (step tid) s more = some u ∧ u.Lost := by
  -- the measure counts the steps before all of them wait
  induction hk : ∑ i, (s.phase i).toWait using Nat.strong_induction_on generalizing s with
  | _ k ih =>
    by_cases hmove : ∃ i, s.phase i = .entering ∨ s.phase i = .idle
    · obtain ⟨i, hi⟩ := hmove
      obtain ⟨op, phase, count, hs, hlate, hfresh, htickling, hlt⟩ := exists_step_toWait tid hi
      have hsum := Tally.sum_update_add WakePhase.toWait s.phase i phase
      have hless : ∑ j, (Function.update s.phase i phase j).toWait < k := by omega
      obtain ⟨more, u, hr, hu⟩ := ih _ hless
        (s := { s.setPhase i phase with idleThreadCount := count }) hrun
        ⟨i, by simpa [phase_setPhase] using hlate⟩
        (mt (covered_setPhase_iff hfresh htickling).mp hc) rfl
      exact ⟨op :: more, u, run_cons_iff.mpr ⟨_, hs, hr⟩, hu⟩
    · have hothers : ∀ i, s.phase i = .blocked ∨ s.phase i = .executing false := by
        intro i
        rcases phase_of_not_covered hc i with h | h | h
        · exact absurd ⟨i, Or.inl h⟩ hmove
        · exact absurd ⟨i, Or.inr h⟩ hmove
        · exact h
      have hblocked : ∃ i, s.phase i = .blocked := by
        obtain ⟨i, hi⟩ := hsl
        refine ⟨i, (hothers i).resolve_right fun h => ?_⟩
        simp [h] at hi
      have htokens : s.tokens = 0 := by
        by_contra h
        exact hc (Or.inl (Nat.pos_of_ne_zero h))
      have hout : s.outside = 0 := by
        by_contra h
        exact hc (Or.inr (Or.inr (Nat.add_pos_left (Nat.pos_of_ne_zero h) _)))
      exact ⟨[], s, rfl, hrun, hblocked, htokens, hout, hothers⟩

/-- A step that is not heard leaves a callback behind that no thread is going to find. -/
theorem not_inv_of_not_heard {op : WakeOp n} (hs : s.step tid op = some s') (hg : ¬ s.Heard op) :
    s'.Runnable ∧ s'.Sleepy ∧ ¬ s'.Covered := by
  match op with
  | .schedule caller (some (.cb cb)) none =>
    obtain ⟨htasks, htokens, hsleepy, hfresh, hout⟩ := scheduled_effect hs
    simp only [Heard, Classical.not_imp] at hg
    obtain ⟨hne, -, hsl, hc⟩ := hg
    have hsame : s'.outstanding = s.outstanding := by
      rw [hout, List.isEmpty_eq_false_iff.mpr hne]
      rfl
    refine ⟨?_, hsleepy.mpr hsl, ?_⟩
    · rw [Runnable, htasks, runnable_scheduled]
      exact Or.inr ⟨rfl, cb, rfl⟩
    · rwa [Covered, htokens, hfresh, hsame]
  | .tickle caller =>
    obtain ⟨htasks, htokens, hsleepy, hfresh, hout⟩ := tickle_effect hs
    simp only [Heard, Classical.not_imp] at hg
    obtain ⟨hidle, hrun, hsl, hc⟩ := hg
    refine ⟨by rwa [Runnable, htasks], hsleepy.mpr hsl, ?_⟩
    rw [Covered, htokens, hfresh]
    rintro (h | h | h)
    · exact hc (Or.inl (by simpa [hidle] using h))
    · exact hc (Or.inr (Or.inl h))
    · exact hc (Or.inr (Or.inr (by omega)))
  | .schedule _ none _ | .schedule _ (some (.fiber _)) _ | .schedule _ (some (.cb _)) (some _)
  | .scan _ _ | .enterIdle _ | .wait _ | .wake _ | .drain _ | .yield _ | .finish _ =>
    exact absurd trivial hg

/-- As long as every step is heard, no callback is lost; after the first one that is not, threads
that only go on to wait lose one. -/
theorem never_lost_while_heard (tid : Fin n → ThreadId) {ops : List (WakeOp n)} {s : Wakeup n}
    (hr : run (step tid) new ops = some s) (hg : Meets (step tid) Heard new ops) :
    ¬ s.Lost ∧ ∀ op s', s.step tid op = some s' → ¬ s.Heard op →
      ∃ more u, run (step tid) s' more = some u ∧ u.Lost := by
  constructor
  · have hinv : s.Inv := run_invariant Inv (fun _ _ _ hi hg hs => hi.step hg hs) new_inv hg hr
    exact hinv.not_lost
  · intro op s' hs hng
    obtain ⟨hrun, hsl, hc⟩ := not_inv_of_not_heard hs hng
    exact lost_of_not_covered tid hrun hsl hc

/-- Two threads that wait; a callback is scheduled, and the second one is woken for it. -/
theorem never_lost_while_heard_waiting :
    let ops := [.scan 0 fun _ => .ready, .enterIdle 0, .wait 0, .scan 1 fun _ => .ready,
      .enterIdle 1, .wait 1, .schedule none (some (.cb 1)) none, .tickle none, .wake 1]
    ∃ s, run (step fun i : Fin 2 => i.val + 10) new ops = some s ∧ s.Runnable ∧ ¬ s.Lost := by
  intro ops
  have hr : (run (step fun i : Fin 2 => i.val + 10) new ops).isSome = true := rfl
  obtain ⟨s, hs⟩ := Option.isSome_iff_exists.mp hr
  exact ⟨s, hs, by cases hs; decide, (never_lost_while_heard _ hs (by decide)).1⟩

/-- Two threads; the first one executes a callback and another one is queued for it when the
second one goes to wait. A callback for any thread joins the queue, and nobody is told. -/
theorem lost_behind_pinned :
    ∃ ops s, run (step fun i : Fin 2 => i.val + 10) new ops = some s ∧ s.Lost := by
  refine ⟨[.schedule none (some (.cb 1)) (some 10), .tickle none, .scan 0 fun _ => .ready,
    .schedule none (some (.cb 2)) (some 10), .tickle none, .scan 1 fun _ => .ready,
    .tickle (some 1), .enterIdle 1, .wait 1, .schedule none (some (.cb 3)) none], _, rfl, ?_⟩
  exact ⟨⟨⟨.cb 3, none⟩, by decide, rfl⟩, ⟨1, rfl⟩, rfl, rfl, by decide⟩

-- without pinned tasks, a `Tickle` comes when the second thread has scanned, but is not counted yet
example : ∃ ops s, run (step fun i : Fin 2 => i.val + 10) new ops = some s ∧ s.Lost := by
  refine ⟨[.scan 1 fun _ => .ready, .schedule none (some (.cb 1)) none, .tickle none,
    .scan 0 fun _ => .ready, .schedule none (some (.cb 2)) none, .tickle none, .enterIdle 1,
    .wait 1], _, rfl, ?_⟩
  exact ⟨⟨⟨.cb 2, none⟩, by decide, rfl⟩, ⟨1, rfl⟩, rfl, rfl, by decide⟩

end Wakeup

end ServerFramework
