import ServerFramework.Hook.Pending

/-! # Who wakes a suspended fiber

A fiber gives up its thread in a hooked call after it has registered for an event, or has armed a
timer whose callback schedules it, or has scheduled itself. From there its wake-up goes through the
event table or the timers, the hands of an idle thread, the queue and the threads of `Run`. What
happens to the context of a fiber that is resumed before it is saved is not looked at here.
-/

namespace ServerFramework

open Transition
open scoped BigOperators

/-- Where a thread of the manager is in `Run` and `Idle`. -/
inductive WorkPhase where
  | inRun
  | running (f : FiberId)
  /-- The fiber has given up the thread; its context is not saved yet. -/
  | leaving (f : FiberId)
  /-- A callback that a hooked sleep has bound is about to schedule its fiber. -/
  | waking (f : FiberId)
  /-- In `Idle`, before `ListExpiredCb`. -/
  | idle
  /-- The callbacks from `ListExpiredCb` that are still to be scheduled. -/
  | collected (cbs : List (Option Callback))
  deriving DecidableEq, Repr

/-- The fiber that a thread executes. -/
def WorkPhase.executes : WorkPhase → Option FiberId
  | .running f => some f
  | _ => none

/-- An `IOManager` with `m` threads. -/
structure WakeUps (m n : ℕ) where
  state : FiberId → FiberState
  created : ℕ
  tasks : List ScheduleTask
  log : EventLog n
  timers : TimerManager
  phase : Fin m → WorkPhase

/-- The steps of fibers, of threads and of those outside. -/
inductive WakeUpOp (m n : ℕ) where
  /-- A fiber is created and scheduled. -/
  | spawn (thread : Option ThreadId)
  | schedule (task : Task) (thread : Option ThreadId)
  | addEvent (t : Fin m) (fd : Fin n) (event : Event) (cb : Option Callback) (ok : Bool)
  | delEvent (fd : Fin n) (event : Event) (ok : Bool)
  | cancelEvent (fd : Fin n) (event : Event) (ok : Bool)
  | cancelAll (fd : Fin n) (ok : Bool)
  /-- The timer of a hooked sleep. -/
  | sleep (t : Fin m) (addr : ℕ) (ms : UInt64) (cb : Callback) (now : UInt64)
  | addTimer (addr : ℕ) (ms : UInt64) (cb : Callback) (recurring : Bool) (now : UInt64)
  | cancel (id : TimerId)
  | refresh (id : TimerId) (now : UInt64)
  | reset (id : TimerId) (ms : UInt64) (fromNow : Bool) (now : UInt64)
  | dequeue (t : Fin m)
  | wake (t : Fin m)
  | yield (t : Fin m)
  | finish (t : Fin m)
  | save (t : Fin m)
  | listExpiredCb (t : Fin m) (now : UInt64) (probeAddr : ℕ)
  | scheduleExpired (t : Fin m)
  | dispatch (t : Fin m) (fd : Fin n) (reported : Reported) (ok : Bool)
  | leaveIdle (t : Fin m)
  deriving DecidableEq, Repr

/-- The fiber that a task resumes, `wakes` telling which fiber a callback of a hooked sleep is
bound to. -/
def Task.wakes (wakes : Callback → Option FiberId) : Task → Option FiberId
  | .fiber f => some f
  | .cb c => wakes c

namespace WakeUps

variable {m n : ℕ}

def new (now : UInt64) : WakeUps m n where
  state := fun _ => .ready
  created := 0
  tasks := []
  log := .new
  timers := .new now
  phase := fun _ => .inRun

def setPhase (s : WakeUps m n) (t : Fin m) (phase : WorkPhase) : WakeUps m n :=
  { s with phase := Function.update s.phase t phase }

def setState (s : WakeUps m n) (f : FiberId) (state : FiberState) : WakeUps m n :=
  { s with state := Function.update s.state f state }

/-- `Schedule`. -/
def schedule (s : WakeUps m n) (task : Option Task) (thread : Option ThreadId) : WakeUps m n :=
  { s with tasks := (Scheduler.scheduleNoLock s.tasks task thread).2 }

def executing (s : WakeUps m n) (t : Fin m) : Option FiberId := (s.phase t).executes

/-- An operation on the event table, which calls `Schedule` for what it triggers. -/
def handle (s : WakeUps m n) (op : EventOp n) : Option (WakeUps m n) :=
  (s.log.step op).map fun log =>
    let calls := log.table.scheduled.drop s.log.table.scheduled.length
    calls.foldl (fun s c => s.schedule (some c.task) none) { s with log := log }

/-- The address is free for a new timer. -/
def Free (s : WakeUps m n) (addr : ℕ) : Prop :=
  ∀ id ∈ s.timers.timers, (s.timers.timer id).addr ≠ addr

instance (s : WakeUps m n) (addr : ℕ) : Decidable (s.Free addr) := by
  unfold Free
  infer_instance

variable (wakes : Callback → Option FiberId) (tid : Fin m → ThreadId)

/-- Somebody other than the hooked sleeps, who keep theirs to themselves, has the timer. -/
def Shared (s : WakeUps m n) (id : TimerId) : Prop :=
  id < s.timers.count ∧ (s.timers.timer id).cb.bind wakes = none

instance (s : WakeUps m n) (id : TimerId) : Decidable (s.Shared wakes id) := by
  unfold Shared
  infer_instance

/-- One step; a failed assertion has no result. Every callback that is not bound by a hooked sleep
gets a fiber of its own. -/
def step (s : WakeUps m n) : WakeUpOp m n → Option (WakeUps m n)
  | .spawn thread =>
    some ((({ s with created := s.created + 1 } : WakeUps m n).setState s.created .ready).schedule
      (some (.fiber s.created)) thread)
  | .schedule (.fiber f) thread =>
    if f < s.created then some (s.schedule (some (.fiber f)) thread) else none
  | .schedule (.cb cb) thread =>
    if wakes cb = none then some (s.schedule (some (.cb cb)) thread) else none
  | .addEvent t fd event cb ok =>
    (s.executing t).bind fun f =>
      if cb.bind wakes = none then s.handle (.addEvent fd event cb ⟨some 0, f, true⟩ ok) else none
  | .delEvent fd event ok => s.handle (.delEvent fd event ok)
  | .cancelEvent fd event ok => s.handle (.cancelEvent fd event ok)
  | .cancelAll fd ok => s.handle (.cancelAll fd ok)
  | .sleep t addr ms cb now =>
    (s.executing t).bind fun f =>
      if wakes cb = some f ∧ s.Free addr then
        some { s with timers := (s.timers.addTimer addr ms (some cb) false now).2 }
      else none
  | .addTimer addr ms cb recurring now =>
    if wakes cb = none ∧ s.Free addr then
      some { s with timers := (s.timers.addTimer addr ms (some cb) recurring now).2 }
    else none
  | .cancel id =>
    if s.Shared wakes id then (s.timers.cancel id).map fun r => { s with timers := r.2 } else none
  | .refresh id now =>
    if s.Shared wakes id then some { s with timers := (s.timers.refresh id now).2 } else none
  | .reset id ms fromNow now =>
    if s.Shared wakes id then some { s with timers := (s.timers.reset id ms fromNow now).2.2 }
    else none
  | .dequeue t =>
    if s.phase t = .inRun then
      match Scheduler.dequeue s.state (tid t) s.tasks with
      | (none, _, _) => some (s.setPhase t .idle)
      | (some ⟨.fiber f, _⟩, left, _) =>
        if s.state f = .ready then
          some ((({ s with tasks := left } : WakeUps m n).setState f .running).setPhase t
            (.running f))
        else none
      | (some ⟨.cb cb, _⟩, left, _) =>
        match wakes cb with
        | some f => some (({ s with tasks := left } : WakeUps m n).setPhase t (.waking f))
        | none =>
          some ((({ s with tasks := left, created := s.created + 1 } : WakeUps m n).setState
            s.created .running).setPhase t (.running s.created))
    else none
  | .wake t =>
    match s.phase t with
    | .waking f => some ((s.schedule (some (.fiber f)) none).setPhase t .inRun)
    | _ => none
  | .yield t =>
    (s.executing t).map fun f => (s.setState f .ready).setPhase t (.leaving f)
  | .finish t =>
    (s.executing t).map fun f => (s.setState f .term).setPhase t (.leaving f)
  | .save t =>
    match s.phase t with
    | .leaving _ => some (s.setPhase t .inRun)
    | _ => none
  | .listExpiredCb t now probeAddr =>
    if s.phase t = .idle then
      let (cbs, timers) := s.timers.listExpiredCb now probeAddr
      some (({ s with timers := timers } : WakeUps m n).setPhase t (.collected (cbs.map Prod.snd)))
    else none
  | .scheduleExpired t =>
    match s.phase t with
    | .collected (cb :: cbs) =>
      some ((s.schedule (cb.map .cb) none).setPhase t (.collected cbs))
    | _ => none
  | .dispatch t fd reported ok =>
    if s.phase t = .collected [] then s.handle (.dispatch fd reported ok) else none
  | .leaveIdle t => if s.phase t = .collected [] then some (s.setPhase t .inRun) else none

/-- The task resumes the fiber. -/
def resumes (f : FiberId) (task : Task) : Bool := task.wakes wakes = some f

/-- The callback schedules the fiber. -/
def schedules (f : FiberId) (cb : Option Callback) : Bool := cb.bind wakes = some f

/-- The wake-ups of the fiber that a thread has in its hands. -/
def inHands (f : FiberId) : WorkPhase → ℕ
  | .waking g => if g = f then 1 else 0
  | .collected cbs => cbs.countP (schedules wakes f)
  | _ => 0

/-- The wake-ups of the fiber that are on their way. -/
def onTheWay (s : WakeUps m n) (f : FiberId) : ℕ :=
  s.log.table.pending (resumes wakes f) + s.timers.pending (schedules wakes f) +
    (s.tasks.countP fun x => resumes wakes f x.task) + ∑ t, inHands wakes f (s.phase t)

/-- A suspended fiber has one wake-up on its way, one that has ended none, and one that runs at
most one. -/
def Attended (s : WakeUps m n) (f : FiberId) : Prop :=
  match s.state f with
  | .ready => s.onTheWay wakes f = 1
  | .running => s.onTheWay wakes f ≤ 1
  | .term => s.onTheWay wakes f = 0

instance (s : WakeUps m n) (f : FiberId) : Decidable (s.Attended wakes f) := by
  unfold Attended
  split <;> infer_instance

/-- No fiber is lost and none is woken twice. -/
def OneWakeUp (s : WakeUps m n) : Prop := ∀ f < s.created, s.Attended wakes f

/-- A fiber arranges for one wake-up while it runs and then yields, ends with none on its way, and
no event is deleted that a suspended fiber waits for. -/
def Disciplined (s : WakeUps m n) : WakeUpOp m n → Prop
  | .schedule (.fiber f) _ => s.state f = .running ∧ s.onTheWay wakes f = 0
  | .addEvent t _ _ none true | .sleep t _ _ _ _ | .finish t =>
    ∀ f ∈ s.executing t, s.onTheWay wakes f = 0
  | .delEvent fd event true =>
    ∀ c ∈ s.log.table.waiting fd event, ∀ f ∈ c.task.wakes wakes, s.state f = .running
  | .yield t => ∀ f ∈ s.executing t, s.onTheWay wakes f = 1
  | _ => True

instance (s : WakeUps m n) (op : WakeUpOp m n) : Decidable (s.Disciplined wakes op) := by
  unfold Disciplined
  split <;> infer_instance

variable {wakes tid} {s s' : WakeUps m n} {t : Fin m} {f : FiberId}

section Parts

variable (s) (task : Option Task) (thread : Option ThreadId) (phase : WorkPhase)

@[simp] theorem executing_setPhase :
    (s.setPhase t phase).executing = Function.update s.executing t phase.executes := by
  funext u
  simp only [executing, setPhase, Function.update_apply]
  split_ifs <;> rfl

@[simp] theorem executing_setState (state : FiberState) :
    (s.setState f state).executing = s.executing := rfl

@[simp] theorem phase_schedule : (s.schedule task thread).phase = s.phase := rfl

@[simp] theorem executing_schedule : (s.schedule task thread).executing = s.executing := rfl

theorem onTheWay_schedule : (s.schedule task thread).onTheWay wakes f =
    s.onTheWay wakes f + if task.any (resumes wakes f) then 1 else 0 := by
  cases task with
  | none => simp [schedule, Scheduler.scheduleNoLock, onTheWay]
  | some task =>
    simp only [schedule, Scheduler.scheduleNoLock, onTheWay, Option.map_some, Option.toList_some,
      List.countP_append, List.countP_singleton, Option.any_some]
    omega

theorem onTheWay_setPhase : (s.setPhase t phase).onTheWay wakes f + inHands wakes f (s.phase t) =
    s.onTheWay wakes f + inHands wakes f phase := by
  have hsum := Tally.sum_update_add (inHands wakes f) s.phase t phase
  simp only [onTheWay, setPhase]
  omega

end Parts

theorem inHands_of_executes {phase : WorkPhase} (h : phase.executes = some f) {g : FiberId} :
    inHands wakes g phase = 0 := by
  cases phase with
  | running f => rfl
  | inRun | leaving _ | waking _ | idle | collected _ => cases h

/-- The states of the fibers and the phases without wake-ups do not matter. -/
theorem onTheWay_place {g : FiberId} {state : FiberState} {phase : WorkPhase}
    (hold : inHands wakes g (s.phase t) = 0) (hnew : inHands wakes g phase = 0) :
    ((s.setState f state).setPhase t phase).onTheWay wakes g = s.onTheWay wakes g := by
  have hmove : ((s.setState f state).setPhase t phase).onTheWay wakes g +
      inHands wakes g (s.phase t) = s.onTheWay wakes g + inHands wakes g phase :=
    onTheWay_setPhase (s.setState f state) phase
  rwa [hold, hnew] at hmove

theorem foldl_schedule (calls : List (Scheduled n)) (s : WakeUps m n) :
    calls.foldl (fun s c => s.schedule (some c.task) none) s =
      { s with tasks := s.tasks ++ calls.map fun c => ⟨c.task, none⟩ } := by
  induction calls generalizing s with
  | nil => simp
  | cons c calls ih =>
    rw [List.foldl_cons, ih]
    simp [schedule, Scheduler.scheduleNoLock]

/-- What is triggered goes into the queue. -/
theorem handle_some (wakes : Callback → Option FiberId) {op : EventOp n}
    (hs : s.handle op = some s') {a b : (Task → Bool) → ℕ}
    (hop : ∀ log, s.log.step op = some log → ∃ calls,
      log.table.scheduled = s.log.table.scheduled ++ calls ∧
        ∀ p, log.table.pending p + (calls.countP fun c => p c.task) + b p =
          s.log.table.pending p + a p) :
    ∃ log tasks, s.log.step op = some log ∧ s' = { s with log := log, tasks := tasks } ∧
      ∀ f, s'.onTheWay wakes f + b (resumes wakes f) =
        s.onTheWay wakes f + a (resumes wakes f) := by
  obtain ⟨log, hlog, rfl⟩ := Option.map_eq_some_iff.mp hs
  obtain ⟨calls, hcalls, hcount⟩ := hop log hlog
  refine ⟨log, _, hlog, foldl_schedule _ _, ?_⟩
  intro f
  have hf := hcount (resumes wakes f)
  simp only [foldl_schedule, hcalls, List.drop_left, onTheWay, List.countP_append, List.countP_map,
    Function.comp_def]
  omega

/-- What a thread takes off the queue is no longer in it. -/
theorem onTheWay_dequeue {self : ThreadId} {task : ScheduleTask} {left : List ScheduleTask}
    {tickleMe : Bool} (h : Scheduler.dequeue s.state self s.tasks = (some task, left, tickleMe)) :
    ({ s with tasks := left } : WakeUps m n).onTheWay wakes f +
      (if resumes wakes f task.task then 1 else 0) = s.onTheWay wakes f := by
  obtain ⟨-, -, front, back, htasks, rfl, -⟩ := Scheduler.dequeue_some h
  simp only [onTheWay, htasks, List.countP_append, List.countP_cons]
  omega

/-- What a thread executes is in state `RUNNING`, and nobody else executes it. -/
structure Placed (s : WakeUps m n) : Prop where
  running : ∀ t f, s.executing t = some f → s.state f = .running ∧ f < s.created
  unique : ∀ t u f, s.executing t = some f → s.executing u = some f → t = u
  executed : ∀ f < s.created, s.state f = .running → ∃ t, s.executing t = some f

namespace Placed

theorem congr (h : s.Placed) (hexec : s'.executing = s.executing) (hstate : s'.state = s.state)
    (hcreated : s'.created = s.created) : s'.Placed := by
  obtain ⟨hr, hu, he⟩ := h
  refine ⟨?_, ?_, ?_⟩
  · rwa [hexec, hstate, hcreated]
  · rwa [hexec]
  · rwa [hexec, hstate, hcreated]

/-- A fiber is created that does not run yet. -/
theorem spawn (h : s.Placed) (hexec : s'.executing = s.executing)
    (hstate : s'.state = Function.update s.state s.created .ready)
    (hcreated : s'.created = s.created + 1) : s'.Placed := by
  have hold : ∀ f < s.created, s'.state f = s.state f := by
    intro f hf
    rw [hstate, Function.update_of_ne hf.ne]
  refine ⟨?_, ?_, ?_⟩
  · intro t f ht
    rw [hexec] at ht
    obtain ⟨hr, hf⟩ := h.running t f ht
    rw [hold f hf, hcreated]
    exact ⟨hr, hf.trans (Nat.lt_succ_self _)⟩
  · rw [hexec]
    exact h.unique
  · intro f hf hr
    rw [hexec]
    rcases (Nat.lt_succ_iff_lt_or_eq.mp (hcreated ▸ hf)) with hlt | rfl
    · rw [hold f hlt] at hr
      exact h.executed f hlt hr
    · rw [hstate, Function.update_self] at hr
      cases hr

/-- A thread that executes nothing starts a fiber that does not run. -/
theorem start (h : s.Placed) (hfree : s.executing t = none)
    (hexec : s'.executing = Function.update s.executing t (some f))
    (hstate : s'.state = Function.update s.state f .running)
    (hnot : f < s.created → s.state f ≠ .running) (hle : s.created ≤ s'.created)
    (hf : f < s'.created) (hnew : ∀ g < s'.created, g < s.created ∨ g = f) : s'.Placed := by
  have hother : ∀ u, s.executing u ≠ some f := by
    intro u hu
    obtain ⟨hr, hlt⟩ := h.running u f hu
    exact hnot hlt hr
  have hcase : ∀ u g, s'.executing u = some g ↔ (u = t ∧ g = f) ∨ s.executing u = some g := by
    intro u g
    rw [hexec, Function.update_apply]
    split_ifs with hu
    · subst hu
      simp [hfree, eq_comm]
    · simp [hu]
  refine ⟨?_, ?_, ?_⟩
  · intro u g hu
    rcases (hcase u g).mp hu with ⟨-, rfl⟩ | hu
    · rw [hstate, Function.update_self]
      exact ⟨rfl, hf⟩
    · obtain ⟨hr, hlt⟩ := h.running u g hu
      have hgf : g ≠ f := by
        rintro rfl
        exact hother u hu
      rw [hstate, Function.update_of_ne hgf]
      exact ⟨hr, Nat.lt_of_lt_of_le hlt hle⟩
  · intro u v g hu hv
    rcases (hcase u g).mp hu with ⟨rfl, rfl⟩ | hu <;> rcases (hcase v g).mp hv with ⟨rfl, hg⟩ | hv
    · rfl
    · exact absurd hv (hother v)
    · exact absurd (hg ▸ hu) (hother u)
    · exact h.unique u v g hu hv
  · intro g hg hr
    by_cases hgf : g = f
    · exact ⟨t, (hcase t g).mpr (.inl ⟨rfl, hgf⟩)⟩
    · rw [hstate, Function.update_of_ne hgf] at hr
      obtain ⟨u, hu⟩ := h.executed g ((hnew g hg).resolve_right hgf) hr
      exact ⟨u, (hcase u g).mpr (.inr hu)⟩

/-- A fiber gives up its thread. -/
theorem stop (h : s.Placed) (hf : s.executing t = some f) {state : FiberState}
    (hne : state ≠ .running) (hexec : s'.executing = Function.update s.executing t none)
    (hstate : s'.state = Function.update s.state f state) (hcreated : s'.created = s.created) :
    s'.Placed := by
  have hcase : ∀ u g, s'.executing u = some g ↔ u ≠ t ∧ s.executing u = some g := by
    intro u g
    rw [hexec, Function.update_apply]
    split_ifs with hu <;> simp [hu]
  refine ⟨?_, ?_, ?_⟩
  · intro u g hu
    obtain ⟨hut, hu⟩ := (hcase u g).mp hu
    have hgf : g ≠ f := by
      rintro rfl
      exact hut (h.unique u t g hu hf)
    rw [hstate, Function.update_of_ne hgf, hcreated]
    exact h.running u g hu
  · intro u v g hu hv
    exact h.unique u v g ((hcase u g).mp hu).2 ((hcase v g).mp hv).2
  · intro g hg hr
    have hgf : g ≠ f := by
      rintro rfl
      rw [hstate, Function.update_self] at hr
      exact hne hr
    rw [hstate, Function.update_of_ne hgf] at hr
    obtain ⟨u, hu⟩ := h.executed g (hcreated ▸ hg) hr
    refine ⟨u, (hcase u g).mpr ⟨?_, hu⟩⟩
    rintro rfl
    rw [hf] at hu
    exact hgf (Option.some.inj hu).symm

end Placed

/-- What holds of the parts in every run. -/
structure Sound (wakes : Callback → Option FiberId) (s : WakeUps m n) : Prop extends Placed s where
  table : s.log.Balanced
  timers : TimerManager.Inv [] s.timers
  oneShot : ∀ f, s.timers.OneShot (schedules wakes f)

theorem new_sound (now : UInt64) : Sound wakes (new now : WakeUps m n) where
  running := by simp [new, executing, WorkPhase.executes]
  unique := by simp [new, executing, WorkPhase.executes]
  executed := by simp [new]
  table := EventLog.balanced_new
  timers := TimerManager.new_inv now
  oneShot := fun f => TimerManager.oneShot_new (by simp [schedules]) now

/-- A step that leaves the fibers in their states; `a` wake-ups are sent on their way and `b` are
taken from it. -/
structure Settled (wakes : Callback → Option FiberId) (s s' : WakeUps m n) (a b : FiberId → ℕ) :
    Prop where
  sound : s'.Sound wakes
  state : s'.state = s.state
  created : s'.created = s.created
  onTheWay : ∀ f, s'.onTheWay wakes f + b f = s.onTheWay wakes f + a f

namespace Sound

/-- An operation on the event table. -/
theorem handle (h : s.Sound wakes) {op : EventOp n} (hs : s.handle op = some s')
    (hsched : s.log.HasScheduler op) {a b : (Task → Bool) → ℕ}
    (hop : ∀ log, s.log.step op = some log → ∃ calls,
      log.table.scheduled = s.log.table.scheduled ++ calls ∧
        ∀ p, log.table.pending p + (calls.countP fun c => p c.task) + b p =
          s.log.table.pending p + a p) :
    Settled wakes s s' (fun f => a (resumes wakes f)) fun f => b (resumes wakes f) := by
  obtain ⟨log, tasks, hlog, rfl, hsettled⟩ := handle_some wakes hs hop
  have htable : log.Balanced := (h.table.step_iff hlog).mpr hsched
  exact ⟨⟨h.toPlaced.congr rfl rfl rfl, htable, h.timers, h.oneShot⟩, rfl, rfl, hsettled⟩

/-- An operation that triggers events. -/
theorem triggers (h : s.Sound wakes) {op : EventOp n} (hs : s.handle op = some s')
    (hsched : s.log.HasScheduler op)
    (hop : ∀ log, s.log.step op = some log → s.log.table.HandsOn log.table) :
    Settled wakes s s' (fun _ => 0) fun _ => 0 :=
  h.handle (a := fun _ => 0) (b := fun _ => 0) hs hsched hop

theorem addEvent (h : s.Sound wakes) {fd : Fin n} {event : Event} {cb : Option Callback}
    {ok : Bool} (hs : s.handle (.addEvent fd event cb ⟨some 0, f, true⟩ ok) = some s') :
    Settled wakes s s'
      (fun g => if ok && resumes wakes g (cb.elim (.fiber f) .cb) then 1 else 0) fun _ => 0 := by
  refine h.handle (a := fun p => if ok && p (cb.elim (.fiber f) .cb) then 1 else 0)
    (b := fun _ => 0) hs (fun _ => rfl) ?_
  intro log hlog
  obtain ⟨r, hr, rfl⟩ := EventLog.toOption_map_eq_some hlog
  obtain ⟨hcalls, hp⟩ := EventTable.pending_addEvent h.table.interest rfl hr
  exact ⟨[], by simp [hcalls], fun p => by simpa using hp p⟩

theorem delEvent (h : s.Sound wakes) {fd : Fin n} {event : Event} {ok : Bool}
    (hs : s.handle (.delEvent fd event ok) = some s') :
    Settled wakes s s' (fun _ => 0)
      fun g => if ok then s.log.table.pendingOn (resumes wakes g) fd event else 0 := by
  refine h.handle (a := fun _ => 0)
    (b := fun p => if ok then s.log.table.pendingOn p fd event else 0) hs trivial ?_
  intro log hlog
  obtain ⟨r, hr, rfl⟩ := EventLog.toOption_map_eq_some hlog
  obtain ⟨hcalls, hp⟩ := EventTable.pending_delEvent h.table.interest hr
  exact ⟨[], by simp [hcalls], fun p => by simpa using hp p⟩

theorem cancelEvent (h : s.Sound wakes) {fd : Fin n} {event : Event} {ok : Bool}
    (hs : s.handle (.cancelEvent fd event ok) = some s') :
    Settled wakes s s' (fun _ => 0) fun _ => 0 := by
  apply h.triggers hs trivial
  intro log hlog
  obtain ⟨r, hr, rfl⟩ := EventLog.toOption_map_eq_some hlog
  exact EventTable.handsOn_triggering.cancelEvent h.table.interest hr

theorem cancelAll (h : s.Sound wakes) {fd : Fin n} {ok : Bool}
    (hs : s.handle (.cancelAll fd ok) = some s') :
    Settled wakes s s' (fun _ => 0) fun _ => 0 := by
  apply h.triggers hs trivial
  intro log hlog
  obtain ⟨r, hr, rfl⟩ := EventLog.toOption_map_eq_some hlog
  exact EventTable.handsOn_triggering.cancelAll h.table.interest hr

theorem dispatch (h : s.Sound wakes) {fd : Fin n} {reported : Reported} {ok : Bool}
    (hs : s.handle (.dispatch fd reported ok) = some s') :
    Settled wakes s s' (fun _ => 0) fun _ => 0 := by
  apply h.triggers hs trivial
  intro log hlog
  obtain ⟨r, hr, rfl⟩ := EventLog.toOption_map_eq_some hlog
  exact EventTable.handsOn_triggering.dispatch h.table.interest hr

/-- An operation on the timers. -/
theorem setTimers (h : s.Sound wakes) {timers : TimerManager} (hinv : TimerManager.Inv [] timers)
    (hone : ∀ f, timers.OneShot (schedules wakes f)) {a b : FiberId → ℕ}
    (hpending : ∀ f, timers.pending (schedules wakes f) + b f =
      s.timers.pending (schedules wakes f) + a f) :
    Settled wakes s { s with timers := timers } a b := by
  refine ⟨⟨h.toPlaced.congr rfl rfl rfl, h.table, hinv, hone⟩, rfl, rfl, ?_⟩
  intro f
  have hf := hpending f
  simp only [onTheWay]
  omega

theorem addTimer (h : s.Sound wakes) {addr : ℕ} (hfree : s.Free addr) (ms : UInt64) (cb : Callback)
    (recurring : Bool) (now : UInt64) (hrec : recurring = true → wakes cb = none) :
    Settled wakes s
      { s with timers := (s.timers.addTimer addr ms (some cb) recurring now).2 }
      (fun f => if wakes cb = some f then 1 else 0) fun _ => 0 := by
  refine h.setTimers (h.timers.addTimer addr ms cb recurring now hfree) ?_ ?_
  · intro f
    apply (h.oneShot f).addTimer
    intro hr
    simp [schedules, hrec hr]
  · intro f
    simpa [schedules] using TimerManager.pending_addTimer (p := schedules wakes f) h.timers addr ms
      (some cb) recurring now hfree

theorem schedules_none (wakes : Callback → Option FiberId) (f : FiberId) :
    schedules wakes f none = false := by simp [schedules]

theorem cancel (h : s.Sound wakes) {id : TimerId} (hid : s.Shared wakes id)
    {r : Bool × TimerManager} (hr : s.timers.cancel id = some r) :
    Settled wakes s { s with timers := r.2 } (fun _ => 0) fun _ => 0 := by
  obtain ⟨b, timers, he, hinv⟩ := h.timers.cancel hid.1
  obtain rfl := Option.some.inj (he.symm.trans hr)
  refine h.setTimers hinv (fun f => (h.oneShot f).cancel (schedules_none wakes f) hr) ?_
  intro f
  have hf := TimerManager.pending_cancel h.timers hid.1 hr (schedules_none wakes f)
  have hnot : schedules wakes f (s.timers.timer id).cb = false := by simp [schedules, hid.2]
  simpa [hnot] using hf

theorem refresh (h : s.Sound wakes) {id : TimerId} (hid : s.Shared wakes id) (now : UInt64) :
    Settled wakes s { s with timers := (s.timers.refresh id now).2 } (fun _ => 0) fun _ => 0 :=
  h.setTimers (h.timers.refresh hid.1 now)
    (fun f => (h.oneShot f).refresh (schedules_none wakes f) now)
    fun _ => TimerManager.pending_refresh h.timers hid.1 now

theorem reset (h : s.Sound wakes) {id : TimerId} (hid : s.Shared wakes id) (ms : UInt64)
    (fromNow : Bool) (now : UInt64) :
    Settled wakes s { s with timers := (s.timers.reset id ms fromNow now).2.2 } (fun _ => 0)
      fun _ => 0 := by
  refine h.setTimers ?_ (fun f => (h.oneShot f).reset (schedules_none wakes f) ms fromNow now)
    fun _ => TimerManager.pending_reset h.timers hid.1 ms fromNow now
  rw [TimerManager.reset]
  split
  · exact h.timers
  · exact h.timers.resetLocked hid.1 ms fromNow now

/-- A thread that executes no fiber goes on to a phase in which it executes none. -/
theorem setPhase (h : s.Sound wakes) (phase : WorkPhase) (hold : (s.phase t).executes = none)
    (hnew : phase.executes = none) :
    Settled wakes s (s.setPhase t phase) (fun f => inHands wakes f phase)
      fun f => inHands wakes f (s.phase t) := by
  have hexec : (s.setPhase t phase).executing = s.executing := by
    rw [executing_setPhase, hnew, ← hold]
    exact Function.update_eq_self t s.executing
  exact ⟨⟨h.toPlaced.congr hexec rfl rfl, h.table, h.timers, h.oneShot⟩, rfl, rfl,
    fun f => onTheWay_setPhase s phase⟩

theorem schedule (h : s.Sound wakes) (task : Option Task) (thread : Option ThreadId) :
    Settled wakes s (s.schedule task thread)
      (fun f => if task.any (resumes wakes f) then 1 else 0) fun _ => 0 :=
  ⟨⟨h.toPlaced.congr rfl rfl rfl, h.table, h.timers, h.oneShot⟩, rfl, rfl,
    fun _ => onTheWay_schedule s task thread⟩

end Sound

theorem Settled.trans {u : WakeUps m n} {a b a' b' : FiberId → ℕ} (h : Settled wakes s s' a b)
    (h' : Settled wakes s' u a' b') :
    Settled wakes s u (fun f => a f + a' f) fun f => b f + b' f := by
  refine ⟨h'.sound, h'.state.trans h.state, h'.created.trans h.created, ?_⟩
  intro f
  have hf := h.onTheWay f
  have hf' := h'.onTheWay f
  omega

theorem Settled.congr {a b a' b' : FiberId → ℕ} (h : Settled wakes s s' a b)
    (hab : ∀ f, a f + b' f = a' f + b f) : Settled wakes s s' a' b' := by
  refine ⟨h.sound, h.state, h.created, ?_⟩
  intro f
  have hf := h.onTheWay f
  have hf' := hab f
  omega

/-- A bound callback schedules its fiber. -/
theorem Sound.wake (h : s.Sound wakes) (hphase : s.phase t = .waking f) :
    Settled wakes s ((s.schedule (some (.fiber f)) none).setPhase t .inRun) (fun _ => 0)
      fun _ => 0 := by
  have hsched := h.schedule (some (.fiber f)) none
  have hexec : ((s.schedule (some (.fiber f)) none).phase t).executes = none := by
    rw [phase_schedule, hphase]
    rfl
  apply (hsched.trans (hsched.sound.setPhase .inRun hexec rfl)).congr
  intro g
  rw [phase_schedule, hphase]
  simp [inHands, resumes, Task.wakes]

theorem Sound.scheduleExpired (h : s.Sound wakes) {cb : Option Callback}
    {cbs : List (Option Callback)} (hphase : s.phase t = .collected (cb :: cbs)) :
    Settled wakes s ((s.schedule (cb.map .cb) none).setPhase t (.collected cbs)) (fun _ => 0)
      fun _ => 0 := by
  have hsched := h.schedule (cb.map .cb) none
  have hexec : ((s.schedule (cb.map .cb) none).phase t).executes = none := by
    rw [phase_schedule, hphase]
    rfl
  apply (hsched.trans (hsched.sound.setPhase (.collected cbs) hexec rfl)).congr
  intro g
  rw [phase_schedule, hphase]
  cases cb with
  | none => simp [inHands, schedules]
  | some c =>
    have hsame : resumes wakes g (.cb c) = schedules wakes g (some c) := rfl
    simp only [inHands, List.countP_cons, Option.map_some, Option.any_some, hsame]
    omega

theorem Sound.listExpiredCb (h : s.Sound wakes) (hphase : s.phase t = .idle) (now : UInt64)
    (probeAddr : ℕ) :
    Settled wakes s
      (({ s with timers := (s.timers.listExpiredCb now probeAddr).2 } : WakeUps m n).setPhase t
        (.collected ((s.timers.listExpiredCb now probeAddr).1.map Prod.snd)))
      (fun _ => 0) fun _ => 0 := by
  have hlist := fun f => TimerManager.pending_listExpiredCb (p := schedules wakes f) h.timers
    (h.oneShot f) (by simp [schedules]) now probeAddr
  have htimers := h.setTimers (a := fun _ => 0)
    (b := fun f => (s.timers.listExpiredCb now probeAddr).1.countP fun c => schedules wakes f c.2)
    (h.timers.listExpiredCb now probeAddr) (fun f => (hlist f).2) fun f => (hlist f).1
  have hexec : (s.phase t).executes = none := by
    rw [hphase]
    rfl
  apply (htimers.trans (htimers.sound.setPhase
    (.collected ((s.timers.listExpiredCb now probeAddr).1.map Prod.snd)) hexec rfl)).congr
  intro f
  rw [hphase]
  simp [inHands, List.countP_map, Function.comp_def]

/-- What holds in every run. -/
structure Inv (wakes : Callback → Option FiberId) (s : WakeUps m n) : Prop
    extends Sound wakes s where
  unborn : ∀ f, s.created ≤ f → s.onTheWay wakes f = 0

theorem new_inv (now : UInt64) : Inv wakes (new now : WakeUps m n) where
  toSound := new_sound now
  unborn := by
    intro f _
    simp [onTheWay, new, EventLog.new, EventTable.pending_new, TimerManager.pending_new, inHands]

theorem Attended.congr (h : s.Attended wakes f) (hstate : s'.state f = s.state f)
    (honTheWay : s'.onTheWay wakes f = s.onTheWay wakes f) : s'.Attended wakes f := by
  rwa [Attended, hstate, honTheWay]

/-- What a step does to the invariant, and when it keeps the property. -/
def Keeps (wakes : Callback → Option FiberId) (s s' : WakeUps m n) (good : Prop) : Prop :=
  s'.Inv wakes ∧ (s.OneWakeUp wakes → (s'.OneWakeUp wakes ↔ good))

section Keeps

variable {a b : FiberId → ℕ} (h : s.Inv wakes)

include h

theorem Settled.inv (hs : Settled wakes s s' a b) (ha : ∀ f, s.created ≤ f → a f = 0) :
    s'.Inv wakes := by
  refine ⟨hs.sound, ?_⟩
  intro f hf
  rw [hs.created] at hf
  have hon := hs.onTheWay f
  rw [h.unborn f hf, ha f hf] at hon
  omega

/-- A step that moves wake-ups on. -/
theorem Settled.keeps (hs : Settled wakes s s' (fun _ => 0) fun _ => 0) :
    Keeps wakes s s' True := by
  refine ⟨hs.inv h fun _ _ => rfl, fun hone => iff_of_true ?_ trivial⟩
  intro f hf
  rw [hs.created] at hf
  exact (hone f hf).congr (by rw [hs.state]) (hs.onTheWay f)

/-- A wake-up may be sent for a fiber that runs and has none yet. -/
theorem Settled.keeps_give {g : FiberId} (hg : g < s.created)
    (hs : Settled wakes s s' (fun f => if g = f then 1 else 0) fun _ => 0) :
    Keeps wakes s s' (s.state g = .running ∧ s.onTheWay wakes g = 0) := by
  refine ⟨hs.inv h fun f hf => if_neg (Nat.ne_of_lt (Nat.lt_of_lt_of_le hg hf)), fun hone => ?_⟩
  have hon := hs.onTheWay g
  rw [if_pos rfl, Nat.add_zero] at hon
  constructor
  · intro hone'
    have hold := hone g hg
    have hnew := hone' g (hs.created ▸ hg)
    rw [Attended, hs.state, hon] at hnew
    rw [Attended] at hold
    cases hstate : s.state g <;> simp only [hstate] at hold hnew
    · omega
    · exact ⟨rfl, by omega⟩
    · omega
  · rintro ⟨hstate, hzero⟩ f hf
    by_cases hfg : g = f
    · subst hfg
      rw [Attended, hs.state, hstate, hon, hzero]
    · have hsame := hs.onTheWay f
      rw [if_neg hfg] at hsame
      exact (hone f (hs.created ▸ hf)).congr (by rw [hs.state]) hsame

/-- A wake-up may be dropped for a fiber that runs. -/
theorem Settled.keeps_drop (hs : Settled wakes s s' (fun _ => 0) b) :
    Keeps wakes s s' (∀ f, b f ≠ 0 → s.state f = .running) := by
  refine ⟨hs.inv h fun _ _ => rfl, fun hone => ?_⟩
  constructor
  · intro hone' f hb
    have hon := hs.onTheWay f
    have hf : f < s.created := by
      by_contra hf
      have hzero := h.unborn f (Nat.le_of_not_lt hf)
      omega
    have hold := hone f hf
    have hnew := hone' f (hs.created ▸ hf)
    rw [Attended, hs.state] at hnew
    rw [Attended] at hold
    cases hstate : s.state f <;> simp only [hstate] at hold hnew
    · omega
    · rfl
    · omega
  · intro hrunning f hf
    have hon := hs.onTheWay f
    have hold := hone f (hs.created ▸ hf)
    by_cases hb : b f = 0
    · exact hold.congr (by rw [hs.state]) (by omega)
    · have hstate := hrunning f hb
      rw [Attended, hstate] at hold
      rw [Attended, hs.state, hstate]
      dsimp only at hold ⊢
      omega

/-- A fiber gives up its thread: to be resumed, or for good. -/
theorem Inv.keeps_stop (hf : s.executing t = some f) {state : FiberState} (hne : state ≠ .running) :
    Keeps wakes s ((s.setState f state).setPhase t (.leaving f))
      (s.onTheWay wakes f = if state = .ready then 1 else 0) := by
  have hplaced : ((s.setState f state).setPhase t (.leaving f)).Placed :=
    h.toPlaced.stop hf hne (executing_setPhase _ _) rfl rfl
  have hon : ∀ g, ((s.setState f state).setPhase t (.leaving f)).onTheWay wakes g =
      s.onTheWay wakes g := fun g => onTheWay_place (inHands_of_executes hf) rfl
  have hlt : f < s.created := (h.running t f hf).2
  have hstate : ∀ g, ((s.setState f state).setPhase t (.leaving f)).state g =
      if g = f then state else s.state g := fun g => Function.update_apply ..
  refine ⟨⟨⟨hplaced, h.table, h.timers, h.oneShot⟩, fun g hg => ?_⟩, fun hone => ?_⟩
  · rw [hon]
    exact h.unborn g hg
  constructor
  · intro hone'
    have hnew := hone' f hlt
    rw [Attended, hstate, if_pos rfl, hon] at hnew
    cases state with
    | ready => exact hnew
    | running => exact absurd rfl hne
    | term => exact hnew
  · intro hgood g hg
    by_cases hgf : g = f
    · subst hgf
      rw [Attended, hstate, if_pos rfl, hon, hgood]
      cases state with
      | ready => rfl
      | running => exact absurd rfl hne
      | term => rfl
    · exact (hone g hg).congr (by rw [hstate, if_neg hgf]) (hon g)

/-- A fiber is created and scheduled. -/
theorem Inv.keeps_spawn (thread : Option ThreadId) :
    Keeps wakes s ((({ s with created := s.created + 1 } : WakeUps m n).setState s.created
      .ready).schedule (some (.fiber s.created)) thread) True := by
  have hplaced : (({ s with created := s.created + 1 } : WakeUps m n).setState s.created
      .ready).Placed := h.toPlaced.spawn rfl rfl rfl
  have hsched := Sound.schedule ⟨hplaced, h.table, h.timers, h.oneShot⟩
    (some (.fiber s.created)) thread
  have hon : ∀ f, ((({ s with created := s.created + 1 } : WakeUps m n).setState s.created
      .ready).schedule (some (.fiber s.created)) thread).onTheWay wakes f =
        s.onTheWay wakes f + if s.created = f then 1 else 0 := by
    intro f
    have hf := hsched.onTheWay f
    simp only [Option.any_some, resumes, Task.wakes, Option.some.injEq, decide_eq_true_eq] at hf
    exact hf
  refine ⟨⟨hsched.sound, fun f hf => ?_⟩, fun hone => iff_of_true (fun f hf => ?_) trivial⟩
  · rw [hon, h.unborn f (Nat.le_of_succ_le hf), if_neg (Nat.ne_of_lt hf)]
  · rcases Nat.lt_succ_iff_lt_or_eq.mp hf with hlt | rfl
    · refine (hone f hlt).congr ?_ ?_
      · exact Function.update_of_ne hlt.ne ..
      · rw [hon, if_neg hlt.ne']
        rfl
    · have hstate : ((({ s with created := s.created + 1 } : WakeUps m n).setState s.created
          .ready).schedule (some (.fiber s.created)) thread).state s.created = .ready :=
        Function.update_self ..
      rw [Attended, hstate, hon, h.unborn _ (Nat.le_refl _), if_pos rfl]

section Dequeue

variable {task : ScheduleTask} {left : List ScheduleTask} {tickleMe : Bool} {self : ThreadId}
  (hphase : s.phase t = .inRun)
  (hd : Scheduler.dequeue s.state self s.tasks = (some task, left, tickleMe))

include hphase hd

/-- The thread goes on to execute a fiber, or a callback in a new one. -/
theorem Inv.start (hnot : f < s.created → s.state f ≠ .running) {created : ℕ}
    (hle : s.created ≤ created) (hf : f < created)
    (hnew : ∀ g < created, g < s.created ∨ g = f) :
    Inv wakes ((({ s with tasks := left, created := created } : WakeUps m n).setState f
      .running).setPhase t (.running f)) ∧
    ∀ g, ((({ s with tasks := left, created := created } : WakeUps m n).setState f
        .running).setPhase t (.running f)).onTheWay wakes g +
      (if resumes wakes g task.task then 1 else 0) = s.onTheWay wakes g := by
  have hfree : s.executing t = none := by
    rw [executing, hphase]
    rfl
  have hplaced : ((({ s with tasks := left, created := created } : WakeUps m n).setState f
      .running).setPhase t (.running f)).Placed :=
    h.toPlaced.start hfree (executing_setPhase _ _) rfl hnot hle hf hnew
  have hon : ∀ g, ((({ s with tasks := left, created := created } : WakeUps m n).setState f
      .running).setPhase t (.running f)).onTheWay wakes g +
        (if resumes wakes g task.task then 1 else 0) = s.onTheWay wakes g := by
    intro g
    rw [onTheWay_place (by rw [show WakeUps.phase _ t = .inRun from hphase]; rfl) rfl]
    exact onTheWay_dequeue hd
  refine ⟨⟨⟨hplaced, h.table, h.timers, h.oneShot⟩, fun g hg => ?_⟩, hon⟩
  have hzero := h.unborn g (Nat.le_trans hle hg)
  have hg := hon g
  omega

theorem Inv.keeps_resume {thread : Option ThreadId} (htask : task = ⟨.fiber f, thread⟩)
    (hready : s.state f = .ready) :
    Keeps wakes s ((({ s with tasks := left } : WakeUps m n).setState f .running).setPhase t
      (.running f)) True := by
  subst htask
  have hlt : f < s.created := by
    by_contra hlt
    have hzero := h.unborn f (Nat.le_of_not_lt hlt)
    have hone : ({ s with tasks := left } : WakeUps m n).onTheWay wakes f +
        (if resumes wakes f (.fiber f) then 1 else 0) = s.onTheWay wakes f := onTheWay_dequeue hd
    simp only [resumes, Task.wakes, decide_true, if_true] at hone
    omega
  obtain ⟨hinv, hon⟩ := h.start hphase hd (f := f) (fun _ => by simp [hready]) (Nat.le_refl _) hlt
    fun g hg => .inl hg
  refine ⟨hinv, fun hone => iff_of_true (fun g hg => ?_) trivial⟩
  have hg' := hon g
  have hstate : ((({ s with tasks := left } : WakeUps m n).setState f .running).setPhase t
      (.running f)).state g = if g = f then .running else s.state g := Function.update_apply ..
  by_cases hgf : g = f
  · subst hgf
    have hold := hone g hg
    rw [Attended, hready] at hold
    rw [Attended, hstate, if_pos rfl]
    dsimp only at hold ⊢
    omega
  · have hnot : resumes wakes g (.fiber f) = false := by simp [resumes, Task.wakes, Ne.symm hgf]
    rw [hnot] at hg'
    exact (hone g hg).congr (by rw [hstate, if_neg hgf]) hg'

theorem Inv.keeps_call {thread : Option ThreadId} {cb : Callback} (htask : task = ⟨.cb cb, thread⟩)
    (hcb : wakes cb = none) :
    Keeps wakes s ((({ s with tasks := left, created := s.created + 1 } : WakeUps m n).setState
      s.created .running).setPhase t (.running s.created)) True := by
  subst htask
  obtain ⟨hinv, hon⟩ := h.start hphase hd (f := s.created) (fun hlt => absurd rfl hlt.ne)
    (Nat.le_succ _) (Nat.lt_succ_self _) fun g hg => Nat.lt_succ_iff_lt_or_eq.mp hg
  have hsame : ∀ g, ((({ s with tasks := left, created := s.created + 1 } : WakeUps m n).setState
      s.created .running).setPhase t (.running s.created)).onTheWay wakes g =
        s.onTheWay wakes g := by
    intro g
    simpa [resumes, Task.wakes, hcb] using hon g
  refine ⟨hinv, fun hone => iff_of_true (fun g hg => ?_) trivial⟩
  have hstate : ((({ s with tasks := left, created := s.created + 1 } : WakeUps m n).setState
      s.created .running).setPhase t (.running s.created)).state g =
        if g = s.created then .running else s.state g := Function.update_apply ..
  rcases Nat.lt_succ_iff_lt_or_eq.mp hg with hlt | rfl
  · exact (hone g hlt).congr (by rw [hstate, if_neg hlt.ne]) (hsame g)
  · rw [Attended, hstate, if_pos rfl]
    dsimp only
    rw [hsame, h.unborn _ (Nat.le_refl _)]
    exact Nat.zero_le _

/-- A bound callback is taken off the queue. -/
theorem Inv.keeps_take {thread : Option ThreadId} {cb : Callback} (htask : task = ⟨.cb cb, thread⟩)
    (hcb : wakes cb = some f) :
    Keeps wakes s (({ s with tasks := left } : WakeUps m n).setPhase t (.waking f)) True := by
  subst htask
  apply Settled.keeps h
  have hfree : (s.phase t).executes = none := by
    rw [hphase]
    rfl
  have hleft : Settled wakes s { s with tasks := left } (fun _ => 0)
      fun g => if resumes wakes g (.cb cb) then 1 else 0 :=
    ⟨⟨h.toPlaced.congr rfl rfl rfl, h.table, h.timers, h.oneShot⟩, rfl, rfl,
      fun g => onTheWay_dequeue hd⟩
  apply (hleft.trans (hleft.sound.setPhase (.waking f) hfree rfl)).congr
  intro g
  rw [hphase]
  simp [inHands, resumes, Task.wakes, hcb]

end Dequeue

end Keeps

theorem Keeps.iff {P Q : Prop} (h : Keeps wakes s s' P) (hPQ : P ↔ Q) : Keeps wakes s s' Q :=
  ⟨h.1, fun hone => (h.2 hone).trans hPQ⟩

/-- Nobody waits for an event on the fiber's account. -/
theorem pendingOn_ne_zero_iff {fd : Fin n} {event : Event} :
    s.log.table.pendingOn (resumes wakes f) fd event ≠ 0 ↔
      ∃ c ∈ s.log.table.waiting fd event, c.task.wakes wakes = some f := by
  rw [EventTable.pendingOn, ← Nat.pos_iff_ne_zero, List.countP_pos_iff]
  simp [resumes]

theorem Inv.keeps_schedule (h : s.Inv wakes) {task : Task} {thread : Option ThreadId}
    (hs : s.step wakes tid (.schedule task thread) = some s') :
    Keeps wakes s s' (s.Disciplined wakes (.schedule task thread)) := by
  cases task with
  | fiber f =>
    simp only [step, Option.ite_none_right_eq_some, Option.some.injEq] at hs
    obtain ⟨hf, rfl⟩ := hs
    apply Settled.keeps_give h hf
    apply (h.toSound.schedule (some (.fiber f)) thread).congr
    intro g
    simp [resumes, Task.wakes]
  | cb cb =>
    simp only [step, Option.ite_none_right_eq_some, Option.some.injEq] at hs
    obtain ⟨hcb, rfl⟩ := hs
    apply Settled.keeps h
    apply (h.toSound.schedule (some (.cb cb)) thread).congr
    intro g
    simp [resumes, Task.wakes, hcb]

/-- An event without a callback of its own waits for the fiber that adds it. -/
theorem Inv.keeps_addEvent (h : s.Inv wakes) {fd : Fin n} {event : Event} {cb : Option Callback}
    {ok : Bool} (hs : s.step wakes tid (.addEvent t fd event cb ok) = some s') :
    Keeps wakes s s' (s.Disciplined wakes (.addEvent t fd event cb ok)) := by
  simp only [step, Option.bind_eq_some_iff, Option.ite_none_right_eq_some] at hs
  obtain ⟨f, hf, hcb, hs⟩ := hs
  have hadd := h.toSound.addEvent hs
  cases ok with
  | false =>
    have hkeeps := Settled.keeps h (hadd.congr fun g => by simp)
    cases cb <;> exact hkeeps
  | true =>
    cases cb with
    | none =>
      have hlt := (h.running t f hf).2
      refine (Settled.keeps_give h hlt (hadd.congr fun g => ?_)).iff ?_
      · simp [resumes, Task.wakes]
      · simp [Disciplined, hf, (h.running t f hf).1]
    | some cb =>
      refine Settled.keeps h (hadd.congr fun g => ?_)
      have hnone : wakes cb = none := hcb
      simp [resumes, Task.wakes, hnone]

theorem Inv.keeps_delEvent (h : s.Inv wakes) {fd : Fin n} {event : Event} {ok : Bool}
    (hs : s.step wakes tid (.delEvent fd event ok) = some s') :
    Keeps wakes s s' (s.Disciplined wakes (.delEvent fd event ok)) := by
  have hdel := h.toSound.delEvent hs
  cases ok with
  | false => exact Settled.keeps h (hdel.congr fun g => by simp)
  | true =>
    refine (Settled.keeps_drop h hdel).iff ?_
    simp only [if_true, pendingOn_ne_zero_iff, Disciplined]
    constructor
    · intro hd c hc f hf
      exact hd f ⟨c, hc, hf⟩
    · rintro hd f ⟨c, hc, hf⟩
      exact hd c hc f hf

theorem Inv.keeps_sleep (h : s.Inv wakes) {addr : ℕ} {ms : UInt64} {cb : Callback} {now : UInt64}
    (hs : s.step wakes tid (.sleep t addr ms cb now) = some s') :
    Keeps wakes s s' (s.Disciplined wakes (.sleep t addr ms cb now)) := by
  simp only [step, Option.bind_eq_some_iff, Option.ite_none_right_eq_some,
    Option.some.injEq] at hs
  obtain ⟨f, hf, ⟨hcb, hfree⟩, rfl⟩ := hs
  have hlt := (h.running t f hf).2
  have hadd := h.toSound.addTimer hfree ms cb false now nofun
  refine (Settled.keeps_give h hlt (hadd.congr fun g => ?_)).iff ?_
  · simp [hcb]
  · simp [Disciplined, hf, (h.running t f hf).1]

/-- A thread that executes no fiber goes from one place to another with empty hands. -/
theorem Inv.keeps_setPhase (h : s.Inv wakes) {phase : WorkPhase}
    (hidle : (s.phase t).executes = none) (hempty : ∀ f, inHands wakes f (s.phase t) = 0)
    (hidle' : phase.executes = none) (hempty' : ∀ f, inHands wakes f phase = 0) :
    Keeps wakes s (s.setPhase t phase) True := by
  apply Settled.keeps h ((h.toSound.setPhase phase hidle hidle').congr _)
  intro f
  rw [hempty, hempty']

theorem Inv.keeps_dequeue (h : s.Inv wakes) (hs : s.step wakes tid (.dequeue t) = some s') :
    Keeps wakes s s' True := by
  simp only [step, Option.ite_none_right_eq_some] at hs
  obtain ⟨hphase, hs⟩ := hs
  split at hs
  · obtain rfl := Option.some.inj hs
    exact h.keeps_setPhase (by rw [hphase]; rfl) (by rw [hphase]; exact fun _ => rfl) rfl
      fun _ => rfl
  · rename_i f thread left tickleMe hd
    simp only [Option.ite_none_right_eq_some, Option.some.injEq] at hs
    obtain ⟨hready, rfl⟩ := hs
    exact h.keeps_resume hphase hd rfl hready
  · rename_i cb thread left tickleMe hd
    split at hs
    · rename_i f hcb
      obtain rfl := Option.some.inj hs
      exact h.keeps_take hphase hd rfl hcb
    · rename_i hcb
      obtain rfl := Option.some.inj hs
      exact h.keeps_call hphase hd rfl hcb

theorem Inv.keeps_save (h : s.Inv wakes) (hs : s.step wakes tid (.save t) = some s') :
    Keeps wakes s s' True := by
  simp only [step] at hs
  split at hs
  · rename_i f hphase
    obtain rfl := Option.some.inj hs
    exact h.keeps_setPhase (by rw [hphase]; rfl) (by rw [hphase]; exact fun _ => rfl) rfl
      fun _ => rfl
  · cases hs

/-- A step keeps the invariant, and the property exactly if it is disciplined. -/
theorem Inv.keeps_step {op : WakeUpOp m n} (h : s.Inv wakes) (hs : s.step wakes tid op = some s') :
    Keeps wakes s s' (s.Disciplined wakes op) := by
  cases op with
  | spawn thread =>
    obtain rfl := Option.some.inj hs
    exact h.keeps_spawn thread
  | schedule task thread => exact h.keeps_schedule hs
  | addEvent t fd event cb ok => exact h.keeps_addEvent hs
  | delEvent fd event ok => exact h.keeps_delEvent hs
  | cancelEvent fd event ok => exact Settled.keeps h (h.toSound.cancelEvent hs)
  | cancelAll fd ok => exact Settled.keeps h (h.toSound.cancelAll hs)
  | sleep t addr ms cb now => exact h.keeps_sleep hs
  | addTimer addr ms cb recurring now =>
    simp only [step, Option.ite_none_right_eq_some, Option.some.injEq] at hs
    obtain ⟨⟨hcb, hfree⟩, rfl⟩ := hs
    have hadd := h.toSound.addTimer hfree ms cb recurring now fun _ => hcb
    exact Settled.keeps h (hadd.congr fun g => by simp [hcb])
  | cancel id =>
    simp only [step, Option.ite_none_right_eq_some] at hs
    obtain ⟨hid, hs⟩ := hs
    obtain ⟨r, hr, rfl⟩ := Option.map_eq_some_iff.mp hs
    exact Settled.keeps h (h.toSound.cancel hid hr)
  | refresh id now =>
    simp only [step, Option.ite_none_right_eq_some, Option.some.injEq] at hs
    obtain ⟨hid, rfl⟩ := hs
    exact Settled.keeps h (h.toSound.refresh hid now)
  | reset id ms fromNow now =>
    simp only [step, Option.ite_none_right_eq_some, Option.some.injEq] at hs
    obtain ⟨hid, rfl⟩ := hs
    exact Settled.keeps h (h.toSound.reset hid ms fromNow now)
  | dequeue t => exact h.keeps_dequeue hs
  | wake t =>
    simp only [step] at hs
    split at hs
    · rename_i f hphase
      obtain rfl := Option.some.inj hs
      exact Settled.keeps h (h.toSound.wake hphase)
    · cases hs
  | yield t =>
    obtain ⟨f, hf, rfl⟩ := Option.map_eq_some_iff.mp hs
    refine (h.keeps_stop hf (by simp)).iff ?_
    simp [Disciplined, hf]
  | finish t =>
    obtain ⟨f, hf, rfl⟩ := Option.map_eq_some_iff.mp hs
    refine (h.keeps_stop hf (by simp)).iff ?_
    simp [Disciplined, hf]
  | save t => exact h.keeps_save hs
  | listExpiredCb t now probeAddr =>
    simp only [step, Option.ite_none_right_eq_some, Option.some.injEq] at hs
    obtain ⟨hphase, rfl⟩ := hs
    exact Settled.keeps h (h.toSound.listExpiredCb hphase now probeAddr)
  | scheduleExpired t =>
    simp only [step] at hs
    split at hs
    · rename_i cb cbs hphase
      obtain rfl := Option.some.inj hs
      exact Settled.keeps h (h.toSound.scheduleExpired hphase)
    · cases hs
  | dispatch t fd reported ok =>
    simp only [step, Option.ite_none_right_eq_some] at hs
    exact Settled.keeps h (h.toSound.dispatch hs.2)
  | leaveIdle t =>
    simp only [step, Option.ite_none_right_eq_some, Option.some.injEq] at hs
    obtain ⟨hphase, rfl⟩ := hs
    exact h.keeps_setPhase (by rw [hphase]; rfl) (by rw [hphase]; exact fun _ => rfl) rfl
      fun _ => rfl

theorem new_oneWakeUp (now : UInt64) : OneWakeUp wakes (new now : WakeUps m n) :=
  fun _ hf => absurd hf (Nat.not_lt_zero _)

/-- In every run, a suspended fiber has exactly one wake-up on its way at every moment, and one that
has ended has none, if and only if every step is disciplined. -/
theorem oneWakeUp_iff_disciplined (wakes : Callback → Option FiberId) (tid : Fin m → ThreadId)
    (now : UInt64) (ops : List (WakeUpOp m n)) (s : WakeUps m n)
    (hr : run (step wakes tid) (new now) ops = some s) :
    Always (step wakes tid) (OneWakeUp wakes) (new now) ops ↔
      Meets (step wakes tid) (Disciplined wakes) (new now) ops :=
  always_iff_meets (Inv wakes) (fun _ _ _ h hs => (h.keeps_step hs).1)
    (fun _ _ _ h hone hs => (h.keeps_step hs).2 hone) (new_inv now) (new_oneWakeUp now) hr

/-- The callbacks from 100 on are bound by the sleeps of fibers. -/
def boundFrom100 (cb : Callback) : Option FiberId := if 100 ≤ cb then some (cb - 100) else none

/-- A fiber waits for a descriptor to become readable, sleeps, and ends. -/
def waitsAndSleeps (t : Fin 1) (fd : Fin 1) : List (WakeUpOp 1 1) :=
  [.spawn none, .dequeue t, .addEvent t fd .read none true, .yield t, .save t,
    .dequeue t, .listExpiredCb t 3 64, .dispatch t fd ⟨true, false, false⟩ true, .leaveIdle t,
    .dequeue t, .sleep t 32 10 100 3, .yield t, .save t,
    .dequeue t, .listExpiredCb t 13 64, .scheduleExpired t, .leaveIdle t,
    .dequeue t, .wake t, .dequeue t, .finish t, .save t]

theorem oneWakeUp_iff_disciplined_waitsAndSleeps : ∃ s,
    run (step boundFrom100 fun _ => 7) (new 0) (waitsAndSleeps 0 0) = some s ∧
      Always (step boundFrom100 fun _ => 7) (OneWakeUp boundFrom100) (new 0)
        (waitsAndSleeps 0 0) := by
  have hrun : (run (step boundFrom100 fun _ => 7) (new 0) (waitsAndSleeps 0 0)).isSome := by decide
  obtain ⟨s, hs⟩ := Option.isSome_iff_exists.mp hrun
  refine ⟨s, hs, (oneWakeUp_iff_disciplined boundFrom100 _ 0 _ s hs).mpr ?_⟩
  decide

end WakeUps

end ServerFramework
