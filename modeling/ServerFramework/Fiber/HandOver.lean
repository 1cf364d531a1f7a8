import Mathlib.Logic.Function.Basic
import ServerFramework.Fiber.Scheduler
import ServerFramework.Lib.Transition

/-! # Handing a fiber from one thread to another

`Resume` sets the state to `RUNNING` and then switches into the context of the fiber; `Yield`
sets it to `READY` and then saves the context and leaves the fiber. `Run` takes a fiber off the
queue on the strength of its state alone. Each of these is a step of its own.
-/

namespace ServerFramework

/-- Where a thread is in `Run`. -/
inductive RunPhase where
  | inRun
  /-- The fiber has been dequeued. -/
  | taken (f : FiberId)
  /-- `Resume` has set the state. -/
  | resuming (f : FiberId)
  | executing (f : FiberId)
  /-- `Yield` has set the state; the context is not saved yet. -/
  | leaving (f : FiberId)
  deriving DecidableEq, Repr

def RunPhase.fiber : RunPhase → Option FiberId
  | inRun => none
  | taken f => some f
  | resuming f => some f
  | executing f => some f
  | leaving f => some f

structure HandOver where
  state : FiberId → FiberState
  created : ℕ
  tasks : List ScheduleTask
  phase : ThreadId → RunPhase

/-- The steps: a call of `Schedule` by anyone, and the steps of a scheduling thread. -/
inductive HandOverOp where
  | schedule (task : Task) (thread : Option ThreadId)
  | dequeue (t : ThreadId)
  | resume (t : ThreadId)
  | switchTo (t : ThreadId)
  | yield (t : ThreadId)
  | terminate (t : ThreadId)
  | save (t : ThreadId)
  deriving DecidableEq, Repr

namespace HandOver

def new : HandOver where
  state := fun _ => .ready
  created := 0
  tasks := []
  phase := fun _ => .inRun

def setPhase (s : HandOver) (t : ThreadId) (phase : RunPhase) : HandOver :=
  { s with phase := Function.update s.phase t phase }

def setState (s : HandOver) (f : FiberId) (state : FiberState) : HandOver :=
  { s with state := Function.update s.state f state }

/-- A fiber exists and is in the queue at most once. -/
def mayBeScheduled (s : HandOver) : Task → Bool
  | .fiber f => f < s.created && s.tasks.all fun x => x.task ≠ .fiber f
  | .cb _ => true

/-- One step; a failed assertion has no result. A callback gets a fiber of its own. -/
def step (s : HandOver) : HandOverOp → Option HandOver
  | .schedule task thread =>
    if s.mayBeScheduled task then
      some { s with tasks := (Scheduler.scheduleNoLock s.tasks (some task) thread).2 }
    else none
  | .dequeue t =>
    if s.phase t = .inRun then
      match Scheduler.dequeue s.state t s.tasks with
      | (none, _, _) => some s
      | (some ⟨.fiber f, _⟩, left, _) => some ({ s with tasks := left }.setPhase t (.taken f))
      | (some ⟨.cb _, _⟩, left, _) =>
        some ((({ s with tasks := left, created := s.created + 1 } : HandOver).setState s.created
          .ready).setPhase t (.taken s.created))
    else none
  | .resume t =>
    match s.phase t with
    | .taken f =>
      if s.state f = .ready then some ((s.setState f .running).setPhase t (.resuming f)) else none
    | _ => none
  | .switchTo t =>
    match s.phase t with
    | .resuming f => some (s.setPhase t (.executing f))
    | _ => none
  | .yield t =>
    match s.phase t with
    | .executing f =>
      match s.state f with
      | .running => some ((s.setState f .ready).setPhase t (.leaving f))
      | .term => some (s.setPhase t (.leaving f))
      | .ready => none
    | _ => none
  | .terminate t =>
    match s.phase t with
    | .executing f => some ((s.setState f .term).setPhase t (.leaving f))
    | _ => none
  | .save t =>
    match s.phase t with
    | .leaving _ => some (s.setPhase t .inRun)
    | _ => none

/-- A thread that has switched into the fiber and has not saved its context yet. -/
def Executes (s : HandOver) (t : ThreadId) (f : FiberId) : Prop :=
  s.phase t = .executing f ∨ s.phase t = .leaving f

/-- No fiber is executed by two threads. -/
def Exclusive (s : HandOver) : Prop :=
  ∀ f t u, s.Executes t f → s.Executes u f → t = u

/-- A fiber is dequeued only while no thread is about to resume it and none is about to save its
context. -/
def Separated (s : HandOver) : HandOverOp → Prop
  | .dequeue t => ∀ f thread, (Scheduler.dequeue s.state t s.tasks).1 = some ⟨.fiber f, thread⟩ →
      ∀ u, s.phase u ≠ .taken f ∧ s.phase u ≠ .leaving f
  | _ => True

/-- What separated runs preserve. -/
structure Inv (s : HandOver) : Prop where
  unique : ∀ t u f, (s.phase t).fiber = some f → (s.phase u).fiber = some f → t = u
  running : ∀ t f, s.phase t = .resuming f ∨ s.phase t = .executing f → s.state f = .running
  lt_created : ∀ t f, (s.phase t).fiber = some f → f < s.created
  queued : ∀ x ∈ s.tasks, ∀ f, x.task = .fiber f → f < s.created

variable {s s' : HandOver} {t : ThreadId} {f : FiberId}

theorem Executes.fiber (h : s.Executes t f) : (s.phase t).fiber = some f := by
  rcases h with h | h <;> rw [h] <;> rfl

theorem Inv.exclusive (h : s.Inv) : s.Exclusive :=
  fun f t u ht hu => h.unique t u f ht.fiber hu.fiber

theorem new_inv : new.Inv where
  unique := by simp [new, RunPhase.fiber]
  running := by simp [new]
  lt_created := by simp [new, RunPhase.fiber]
  queued := by simp [new]

/-- A thread may move to a phase whose fiber no other thread has, if it leaves the state of the
fibers of other threads alone. -/
theorem Inv.move (h : s.Inv) {phase : RunPhase}
    (hphase : s'.phase = Function.update s.phase t phase) (hcreated : s.created ≤ s'.created)
    (hlt : ∀ f, phase.fiber = some f → f < s'.created)
    (hfree : ∀ f, phase.fiber = some f → ∀ u ≠ t, (s.phase u).fiber ≠ some f)
    (hstate : ∀ f, ∀ u ≠ t, (s.phase u).fiber = some f → s'.state f = s.state f)
    (hnew : ∀ f, phase = .resuming f ∨ phase = .executing f → s'.state f = .running)
    (hqueued : ∀ x ∈ s'.tasks, ∀ f, x.task = .fiber f → f < s'.created) : s'.Inv := by
  have hself : s'.phase t = phase := by rw [hphase, Function.update_self]
  have hother : ∀ u ≠ t, s'.phase u = s.phase u := by
    intro u hu
    rw [hphase, Function.update_of_ne hu]
  refine ⟨?_, ?_, ?_, hqueued⟩
  · intro u v f hu hv
    by_cases hut : u = t <;> by_cases hvt : v = t
    · rw [hut, hvt]
    · rw [hut, hself] at hu
      rw [hother v hvt] at hv
      exact absurd hv (hfree f hu v hvt)
    · rw [hother u hut] at hu
      rw [hvt, hself] at hv
      exact absurd hu (hfree f hv u hut)
    · rw [hother u hut] at hu
      rw [hother v hvt] at hv
      exact h.unique u v f hu hv
  · intro u f hu
    by_cases hut : u = t
    · rw [hut, hself] at hu
      exact hnew f hu
    · rw [hother u hut] at hu
      have hfiber : (s.phase u).fiber = some f := by rcases hu with hu | hu <;> rw [hu] <;> rfl
      rw [hstate f u hut hfiber]
      exact h.running u f hu
  · intro u f hu
    by_cases hut : u = t
    · rw [hut, hself] at hu
      exact hlt f hu
    · rw [hother u hut] at hu
      exact Nat.lt_of_lt_of_le (h.lt_created u f hu) hcreated

/-- A thread may move on with the fiber it has. -/
theorem Inv.moveOn (h : s.Inv) (ht : (s.phase t).fiber = some f) {phase : RunPhase}
    (hfiber : ∀ x, phase.fiber = some x → x = f)
    (hphase : s'.phase = Function.update s.phase t phase) (hcreated : s'.created = s.created)
    (hstate : ∀ x ≠ f, s'.state x = s.state x)
    (hnew : ∀ x, phase = .resuming x ∨ phase = .executing x → s'.state x = .running)
    (htasks : s'.tasks = s.tasks) : s'.Inv := by
  have hfree : ∀ u ≠ t, (s.phase u).fiber ≠ some f := fun u hu hf => hu (h.unique u t f hf ht)
  refine h.move hphase (Nat.le_of_eq hcreated.symm) ?_ ?_ ?_ hnew ?_
  · intro x hx
    rw [hfiber x hx, hcreated]
    exact h.lt_created t f ht
  · intro x hx
    rw [hfiber x hx]
    exact hfree
  · rintro x u hu hx
    apply hstate x
    rintro rfl
    exact hfree u hu hx
  · rw [htasks, hcreated]
    exact h.queued

theorem setState_of_ne {state : FiberState} {x : FiberId} (hx : x ≠ f) :
    (s.setState f state).state x = s.state x := Function.update_of_ne hx _ _

theorem mem_of_dequeue {left : List ScheduleTask} {task : ScheduleTask} {tickleMe : Bool}
    (hd : Scheduler.dequeue s.state t s.tasks = (some task, left, tickleMe)) :
    task ∈ s.tasks ∧ ∀ x ∈ left, x ∈ s.tasks := by
  obtain ⟨-, -, front, back, hf, rfl, -⟩ := Scheduler.dequeue_some hd
  rw [hf]
  refine ⟨List.mem_append_right _ List.mem_cons_self, ?_⟩
  intro x hx
  rcases List.mem_append.mp hx with hx | hx
  · exact List.mem_append_left _ hx
  · exact List.mem_append_right _ (List.mem_cons_of_mem _ hx)

/-- A fiber that is dequeued is not running, so that no thread is between `Resume` and `Yield`
with it. -/
theorem Inv.dequeue_fiber (h : s.Inv) {left : List ScheduleTask} {thread : Option ThreadId}
    {tickleMe : Bool}
    (hd : Scheduler.dequeue s.state t s.tasks = (some ⟨.fiber f, thread⟩, left, tickleMe))
    (hsep : ∀ u, s.phase u ≠ .taken f ∧ s.phase u ≠ .leaving f) :
    ({ s with tasks := left }.setPhase t (.taken f)).Inv := by
  obtain ⟨-, hrun, -⟩ := Scheduler.dequeue_some hd
  obtain ⟨hmem, hleft⟩ := mem_of_dequeue hd
  have hnot : s.state f ≠ .running := by simpa [Scheduler.isRunning] using hrun
  refine h.move rfl (Nat.le_refl _) ?_ ?_ (fun _ _ _ _ => rfl) (by simp) ?_
  · intro x hx
    obtain rfl := Option.some.inj hx
    exact h.queued _ hmem f rfl
  · intro x hx u _ hu
    obtain rfl := Option.some.inj hx
    cases hp : s.phase u with
    | inRun =>
      rw [hp] at hu
      cases hu
    | taken y =>
      rw [hp] at hu
      obtain rfl := Option.some.inj hu
      exact (hsep u).1 hp
    | resuming y =>
      rw [hp] at hu
      obtain rfl := Option.some.inj hu
      exact hnot (h.running u _ (Or.inl hp))
    | executing y =>
      rw [hp] at hu
      obtain rfl := Option.some.inj hu
      exact hnot (h.running u _ (Or.inr hp))
    | leaving y =>
      rw [hp] at hu
      obtain rfl := Option.some.inj hu
      exact (hsep u).2 hp
  · intro x hx
    exact h.queued x (hleft x hx)

/-- The fiber made for a callback is nobody else's. -/
theorem Inv.dequeue_cb (h : s.Inv) {left : List ScheduleTask} {task : ScheduleTask}
    {tickleMe : Bool} (hd : Scheduler.dequeue s.state t s.tasks = (some task, left, tickleMe)) :
    ((({ s with tasks := left, created := s.created + 1 } : HandOver).setState s.created
      .ready).setPhase t (.taken s.created)).Inv := by
  refine h.move rfl (Nat.le_succ _) ?_ ?_ ?_ (by simp) ?_
  · intro x hx
    obtain rfl := Option.some.inj hx
    exact Nat.lt_succ_self _
  · intro x hx u _ hu
    obtain rfl := Option.some.inj hx
    exact Nat.lt_irrefl _ (h.lt_created u _ hu)
  · intro x u _ hu
    exact setState_of_ne (Nat.ne_of_lt (h.lt_created u x hu))
  · intro x hx y hy
    exact Nat.lt_succ_of_lt (h.queued x ((mem_of_dequeue hd).2 x hx) y hy)

theorem Inv.step {op : HandOverOp} (h : s.Inv) (hg : s.Separated op)
    (hs : s.step op = some s') : s'.Inv := by
  cases op with
  | schedule task thread =>
    simp only [HandOver.step, Option.ite_none_right_eq_some, Option.some.injEq] at hs
    obtain ⟨hmay, rfl⟩ := hs
    refine ⟨h.unique, h.running, h.lt_created, ?_⟩
    intro x hx f hf
    rcases List.mem_append.mp hx with hx | hx
    · exact h.queued x hx f hf
    · obtain rfl : x = ⟨task, thread⟩ := by simpa using hx
      obtain rfl : task = .fiber f := hf
      simp only [mayBeScheduled, Bool.and_eq_true, decide_eq_true_eq] at hmay
      exact hmay.1
  | dequeue t =>
    simp only [HandOver.step, Option.ite_none_right_eq_some] at hs
    obtain ⟨hp, hs⟩ := hs
    split at hs
    · obtain rfl := Option.some.inj hs
      exact h
    · rename_i f thread left tickleMe hd
      obtain rfl := Option.some.inj hs
      exact h.dequeue_fiber hd (hg f thread (by rw [hd]))
    · rename_i cb thread left tickleMe hd
      obtain rfl := Option.some.inj hs
      exact h.dequeue_cb hd
  | resume t =>
    cases hp : s.phase t with
    | taken f =>
      simp only [HandOver.step, hp, Option.ite_none_right_eq_some, Option.some.injEq] at hs
      obtain ⟨-, rfl⟩ := hs
      refine h.moveOn (f := f) (by rw [hp]; rfl) ?_ rfl rfl (fun x hx => setState_of_ne hx) ?_ rfl
      · simp [RunPhase.fiber]
      · intro x hx
        obtain rfl : f = x := by simpa using hx
        exact Function.update_self ..
    | _ => simp [HandOver.step, hp] at hs
  | switchTo t =>
    cases hp : s.phase t with
    | resuming f =>
      simp only [HandOver.step, hp, Option.some.injEq] at hs
      subst hs
      refine h.moveOn (f := f) (by rw [hp]; rfl) ?_ rfl rfl (fun x hx => rfl) ?_ rfl
      · simp [RunPhase.fiber]
      · intro x hx
        obtain rfl : f = x := by simpa using hx
        exact h.running t f (Or.inl hp)
    | _ => simp [HandOver.step, hp] at hs
  | yield t =>
    cases hp : s.phase t with
    | executing f =>
      simp only [HandOver.step, hp, h.running t f (Or.inr hp), Option.some.injEq] at hs
      subst hs
      refine h.moveOn (f := f) (by rw [hp]; rfl) ?_ rfl rfl (fun x hx => setState_of_ne hx) ?_ rfl
      · simp [RunPhase.fiber]
      · simp
    | _ => simp [HandOver.step, hp] at hs
  | terminate t =>
    cases hp : s.phase t with
    | executing f =>
      simp only [HandOver.step, hp, Option.some.injEq] at hs
      subst hs
      refine h.moveOn (f := f) (by rw [hp]; rfl) ?_ rfl rfl (fun x hx => setState_of_ne hx) ?_ rfl
      · simp [RunPhase.fiber]
      · simp
    | _ => simp [HandOver.step, hp] at hs
  | save t =>
    cases hp : s.phase t with
    | leaving f =>
      simp only [HandOver.step, hp, Option.some.injEq] at hs
      subst hs
      refine h.moveOn (f := f) (by rw [hp]; rfl) ?_ rfl rfl (fun _ _ => rfl) ?_ rfl
      · simp [RunPhase.fiber]
      · simp
    | _ => simp [HandOver.step, hp] at hs

/-- In every run whose dequeues are separated, no fiber is executed by two threads. -/
theorem exclusive_of_separated (ops : List HandOverOp) (s : HandOver)
    (hr : Transition.run step new ops = some s) (hg : Transition.Meets step Separated new ops) :
    s.Exclusive :=
  (Transition.run_invariant Inv (fun _ _ _ h hg hs => h.step hg hs) new_inv hg hr).exclusive

/-- A fiber schedules itself and yields; another thread takes it in between the two steps of
`Yield`. -/
def takenWhileYielding : List HandOverOp :=
  [.schedule (.cb 7) none, .dequeue 0, .resume 0, .switchTo 0, .schedule (.fiber 0) none,
    .dequeue 1, .yield 0, .dequeue 1, .resume 1, .switchTo 1]

theorem executed_by_two_threads : ∃ s,
    Transition.run step new takenWhileYielding = some s ∧ ¬ s.Exclusive := by
  refine ⟨_, rfl, ?_⟩
  intro h
  exact absurd (h 0 0 1 (Or.inr rfl) (Or.inl rfl)) (by decide)

/-- The same with the context saved first. -/
def takenAfterYield : List HandOverOp :=
  [.schedule (.cb 7) none, .dequeue 0, .resume 0, .switchTo 0, .schedule (.fiber 0) none,
    .dequeue 1, .yield 0, .save 0, .dequeue 1, .resume 1, .switchTo 1]

theorem exclusive_of_separated_takenAfterYield : ∃ s,
    Transition.run step new takenAfterYield = some s ∧ s.phase 1 = .executing 0 ∧
      s.Exclusive := by
  refine ⟨_, rfl, rfl, exclusive_of_separated takenAfterYield _ rfl ?_⟩
  simp [takenAfterYield, Transition.Meets, step, Separated, new, mayBeScheduled,
    Scheduler.scheduleNoLock, Scheduler.dequeue, Scheduler.isOthers, Scheduler.isRunning,
    setPhase, setState, Function.update_apply]

end HandOver

end ServerFramework
