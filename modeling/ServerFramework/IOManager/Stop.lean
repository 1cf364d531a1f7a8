import Mathlib.Data.Fintype.Fin
import ServerFramework.Fiber.Scheduler
import ServerFramework.Lib.Tally
import ServerFramework.Lib.Transition
import ServerFramework.Timer.Invariant

/-! # Stopping an IOManager

The scheduling threads between `Stop` and the end of `Run`. `Stopping` is three reads, and the
other threads move between any two of them; so the thread that ends the last idle fiber may do
so on a reading that no longer holds. Work is never lost as long as that does not happen.

The registered events are counted here and not told apart. `Tickle` has no step: `epoll_wait`
may return at any time.
-/

namespace ServerFramework

open scoped BigOperators

/-- Where a thread stands in `Run`. Outside the idle fiber, `idleTerm` tells whether it is in
state `TERM`. -/
inductive ThreadPhase where
  /-- at the head of the loop -/
  | loop (idleTerm : Bool)
  /-- a task is resumed -/
  | executing (idleTerm : Bool)
  /-- in `Idle`, about to call `Stopping` -/
  | idle
  /-- `GetNextTimer` returned `~0` -/
  | readTimer
  /-- and `pending_event_count_` was 0 -/
  | readPending
  /-- in `epoll_wait` -/
  | waiting
  /-- with the expired callbacks that are still to be scheduled -/
  | scheduling (cbs : List (Option Callback))
  /-- in the loop over the events reported -/
  | dispatching
  /-- after `TriggerEvent`, before the counter is decremented -/
  | triggered
  /-- `Run` has returned -/
  | left
  deriving DecidableEq, Repr

namespace ThreadPhase

/-- The idle fiber of the thread has ended. -/
@[simp] def idleEnded : ThreadPhase → Bool
  | loop idleTerm => idleTerm
  | executing idleTerm => idleTerm
  | left => true
  | _ => false

@[simp] def isExecuting : ThreadPhase → Bool
  | executing _ => true
  | _ => false

@[simp] def isTriggered : ThreadPhase → Bool
  | triggered => true
  | _ => false

end ThreadPhase

/-- The part of an `IOManager` that its end depends on; it has `n + 1` scheduling threads, since
the constructor asserts that there is one. -/
structure IOManager (n : ℕ) where
  tasks : List ScheduleTask
  stopping : Bool
  activeThreadCount : ℕ
  timers : TimerManager
  pendingEventCount : ℕ
  /-- the events in the descriptor contexts -/
  registered : ℕ
  /-- the events triggered by `CancelEvent` and `CancelAll` that are still counted -/
  cancelled : ℕ
  phase : Fin (n + 1) → ThreadPhase

/-- What happens to an `IOManager`. A caller is one of the tasks executing, or (`none`) code
outside the scheduler. -/
inductive StopLabel (n : ℕ) where
  | stop (now : UInt64)
  | schedule (caller : Option (Fin (n + 1))) (task : Option Task) (thread : Option ThreadId)
  | addTimer (caller : Option (Fin (n + 1))) (addr : ℕ) (ms : UInt64) (cb : Option Callback)
      (recurring : Bool) (now : UInt64)
  | cancelTimer (id : TimerId)
  | refreshTimer (id : TimerId) (now : UInt64)
  | resetTimer (id : TimerId) (ms : UInt64) (fromNow : Bool) (now : UInt64)
  | addEvent (caller : Option (Fin (n + 1)))
  | delEvent
  | cancelEvent (caller : Option (Fin (n + 1))) (task : Option Task)
  | uncount
  | dequeue (i : Fin (n + 1)) (state : FiberId → FiberState)
  | finish (i : Fin (n + 1))
  | getNextTimer (i : Fin (n + 1)) (now : UInt64)
  | readPending (i : Fin (n + 1))
  | readStopping (i : Fin (n + 1))
  | listExpiredCb (i : Fin (n + 1)) (now : UInt64) (probeAddr : ℕ)
  | scheduleExpired (i : Fin (n + 1))
  | trigger (i : Fin (n + 1)) (task : Option Task)
  | decrement (i : Fin (n + 1))
  | yield (i : Fin (n + 1))

namespace IOManager

variable {n : ℕ}

/-- The manager with its timers constructed at clock reading `now`. -/
def new (now : UInt64) : IOManager n where
  tasks := []
  stopping := false
  activeThreadCount := 0
  timers := .new now
  pendingEventCount := 0
  registered := 0
  cancelled := 0
  phase := fun _ => .loop false

def setPhase (s : IOManager n) (i : Fin (n + 1)) (p : ThreadPhase) : IOManager n :=
  { s with phase := Function.update s.phase i p }

def schedule (s : IOManager n) (task : Option Task) (thread : Option ThreadId) : IOManager n :=
  { s with tasks := (Scheduler.scheduleNoLock s.tasks task thread).2 }

/-- `Scheduler::Stopping`. -/
def schedulerStopping (s : IOManager n) : Bool :=
  s.stopping && s.tasks.isEmpty && s.activeThreadCount == 0

/-- Once `stopping_` is set, only the tasks executing create work. -/
def mayCreate (s : IOManager n) : Option (Fin (n + 1)) → Bool
  | none => !s.stopping
  | some i => (s.phase i).isExecuting

/-- One atomic step. Those of a thread in `Run` follow the source from one shared access to the
next; a step that its phase does not allow has no result. -/
def step (s : IOManager n) : StopLabel n → Option (IOManager n)
  | .stop now => some { s with stopping := true, timers := (s.timers.getNextTimer now).2 }
  | .schedule caller task thread =>
    if s.mayCreate caller then some (s.schedule task thread) else none
  | .addTimer caller addr ms cb recurring now =>
    if s.mayCreate caller then
      some { s with timers := (s.timers.addTimer addr ms cb recurring now).2 }
    else none
  | .cancelTimer id => (s.timers.cancel id).map fun r => { s with timers := r.2 }
  | .refreshTimer id now => some { s with timers := (s.timers.refresh id now).2 }
  | .resetTimer id ms fromNow now =>
    some { s with timers := (s.timers.reset id ms fromNow now).2.2 }
  | .addEvent caller =>
    if s.mayCreate caller then
      some { s with
        registered := s.registered + 1
        pendingEventCount := s.pendingEventCount + 1 }
    else none
  | .delEvent =>
    if 0 < s.registered then
      some { s with
        registered := s.registered - 1
        pendingEventCount := s.pendingEventCount - 1 }
    else none
  | .cancelEvent caller task =>
    if s.mayCreate caller ∧ 0 < s.registered then
      some { s.schedule task none with
        registered := s.registered - 1
        cancelled := s.cancelled + 1 }
    else none
  | .uncount =>
    if 0 < s.cancelled then
      some { s with
        cancelled := s.cancelled - 1
        pendingEventCount := s.pendingEventCount - 1 }
    else none
  | .dequeue i state =>
    match s.phase i, Scheduler.dequeue state i s.tasks with
    | .loop idleTerm, (some _, tasks, _) =>
      some { s.setPhase i (.executing idleTerm) with
        tasks := tasks
        activeThreadCount := s.activeThreadCount + 1 }
    | .loop idleTerm, (none, _, _) => some (s.setPhase i (if idleTerm then .left else .idle))
    | _, _ => none
  | .finish i =>
    match s.phase i with
    | .executing idleTerm =>
      some { s.setPhase i (.loop idleTerm) with activeThreadCount := s.activeThreadCount - 1 }
    | _ => none
  | .getNextTimer i now =>
    match s.phase i with
    | .idle =>
      let (timeout, timers) := s.timers.getNextTimer now
      some { s.setPhase i (if timeout = ~~~(0 : UInt64) then .readTimer else .waiting) with
        timers := timers }
    | _ => none
  | .readPending i =>
    match s.phase i with
    | .readTimer =>
      some (s.setPhase i (if s.pendingEventCount = 0 then .readPending else .waiting))
    | _ => none
  | .readStopping i =>
    match s.phase i with
    | .readPending => some (s.setPhase i (if s.schedulerStopping then .loop true else .waiting))
    | _ => none
  | .listExpiredCb i now probeAddr =>
    match s.phase i with
    | .waiting =>
      let (cbs, timers) := s.timers.listExpiredCb now probeAddr
      some { s.setPhase i (.scheduling (cbs.map Prod.snd)) with timers := timers }
    | _ => none
  | .scheduleExpired i =>
    match s.phase i with
    | .scheduling [] => some (s.setPhase i .dispatching)
    | .scheduling (cb :: cbs) =>
      some ((s.setPhase i (.scheduling cbs)).schedule (cb.map Task.cb) none)
    | _ => none
  | .trigger i task =>
    match s.phase i with
    | .dispatching =>
      if 0 < s.registered then
        some { (s.setPhase i .triggered).schedule task none with registered := s.registered - 1 }
      else none
    | _ => none
  | .decrement i =>
    match s.phase i with
    | .triggered =>
      some { s.setPhase i .dispatching with pendingEventCount := s.pendingEventCount - 1 }
    | _ => none
  | .yield i =>
    match s.phase i with
    | .dispatching => some (s.setPhase i (.loop false))
    | _ => none

@[simp] theorem phase_setPhase (s : IOManager n) (i : Fin (n + 1)) (p : ThreadPhase) :
    (s.setPhase i p).phase = Function.update s.phase i p := rfl

/-- The idle fibers of all threads have ended. -/
def AllEnded (s : IOManager n) : Prop := ∀ i, (s.phase i).idleEnded = true

theorem allEnded_of_update {f : Fin (n + 1) → ThreadPhase} {i : Fin (n + 1)} {p : ThreadPhase}
    (hi : (f i).idleEnded = true) (h : ∀ j, (Function.update f i p j).idleEnded = true) :
    ∀ j, (f j).idleEnded = true := by
  intro j
  by_cases hj : j = i
  · rwa [hj]
  · have hj' := h j
    rwa [Function.update_of_ne hj] at hj'

/-- There is no work left, and none is being done. -/
structure Drained (s : IOManager n) : Prop where
  tasks : s.tasks = []
  timers : s.timers.timers = []
  pending : s.pendingEventCount = 0
  active : s.activeThreadCount = 0

/-- The counters agree with where the threads stand, and no idle fiber ends before `Stop`. -/
structure Counted (s : IOManager n) : Prop where
  active : s.activeThreadCount = ∑ i, (s.phase i).isExecuting.toNat
  pending : s.pendingEventCount =
    s.registered + s.cancelled + ∑ i, (s.phase i).isTriggered.toNat
  stopping : ∀ i, (s.phase i).idleEnded = true → s.stopping = true

theorem counted_new (now : UInt64) : Counted (new now : IOManager n) where
  active := by simp [new, ThreadPhase.isExecuting]
  pending := by simp [new, ThreadPhase.isTriggered]
  stopping := by simp [new, ThreadPhase.idleEnded]

variable {s s' : IOManager n} {i : Fin (n + 1)} {p : ThreadPhase}

theorem Counted.active_pos (h : s.Counted) (hi : (s.phase i).isExecuting = true) :
    0 < s.activeThreadCount := by
  have hle := Tally.le_sum (fun p : ThreadPhase => p.isExecuting.toNat) s.phase i
  simp only [hi, Bool.toNat_true] at hle
  rw [h.active]
  exact hle

theorem Counted.pending_pos (h : s.Counted) (hi : (s.phase i).isTriggered = true) :
    0 < s.pendingEventCount := by
  have hle := Tally.le_sum (fun p : ThreadPhase => p.isTriggered.toNat) s.phase i
  simp only [hi, Bool.toNat_true] at hle
  have hpending := h.pending
  omega

/-- What a step of one thread has to show. -/
theorem Counted.move (h : s.Counted) (hphase : s'.phase = Function.update s.phase i p)
    (hstopping : s'.stopping = s.stopping)
    (hactive : s'.activeThreadCount + (s.phase i).isExecuting.toNat =
      s.activeThreadCount + p.isExecuting.toNat)
    (hpending : s'.pendingEventCount + s.registered + s.cancelled +
      (s.phase i).isTriggered.toNat =
        s.pendingEventCount + s'.registered + s'.cancelled + p.isTriggered.toNat)
    (hended : p.idleEnded = true → s.stopping = true) : s'.Counted := by
  have hx := Tally.sum_update_add (fun p : ThreadPhase => p.isExecuting.toNat) s.phase i p
  have ht := Tally.sum_update_add (fun p : ThreadPhase => p.isTriggered.toNat) s.phase i p
  have ha := h.active
  have hp := h.pending
  refine ⟨?_, ?_, ?_⟩
  · rw [hphase]
    omega
  · rw [hphase]
    omega
  · intro j hj
    rw [hstopping]
    rw [hphase, Function.update_apply] at hj
    split_ifs at hj
    · exact hended hj
    · exact h.stopping j hj

/-- Work is created only while an idle fiber is alive or a task is executing. -/
theorem Counted.not_drained (h : s.Counted) {caller : Option (Fin (n + 1))}
    (hc : s.mayCreate caller = true) (hall : s.AllEnded) : ¬ s.Drained := by
  intro hd
  cases caller with
  | none =>
    have hstop : s.stopping = true := h.stopping 0 (hall 0)
    simp [mayCreate, hstop] at hc
  | some i =>
    have hpos := h.active_pos hc
    rw [hd.active] at hpos
    exact Nat.lt_irrefl 0 hpos

/-- What a step can do. Creating work needs a caller that may; deleting work is up to anyone; a
thread moves on, it leaves `Run`, or its idle fiber ends. -/
inductive Effect (s : IOManager n) (l : StopLabel n) (s' : IOManager n) : Prop where
  | create (caller : Option (Fin (n + 1))) (hc : s.mayCreate caller = true)
      (hphase : s'.phase = s.phase) (hstopping : s'.stopping = s.stopping)
      (hactive : s'.activeThreadCount = s.activeThreadCount)
      (hpending : s'.pendingEventCount + s.registered + s.cancelled =
        s.pendingEventCount + s'.registered + s'.cancelled)
  | delete (hphase : s'.phase = s.phase) (hstopping : s.stopping = true → s'.stopping = true)
      (hactive : s'.activeThreadCount = s.activeThreadCount)
      (hpending : s'.pendingEventCount + s.registered + s.cancelled =
        s.pendingEventCount + s'.registered + s'.cancelled)
      (hle : s'.pendingEventCount ≤ s.pendingEventCount) (htasks : s'.tasks = s.tasks)
      (htimers : s.timers.timers = [] → s'.timers.timers = [])
  | move (i : Fin (n + 1)) (p : ThreadPhase) (hphase : s'.phase = Function.update s.phase i p)
      (hstopping : s'.stopping = s.stopping)
      (hactive : s'.activeThreadCount + (s.phase i).isExecuting.toNat =
        s.activeThreadCount + p.isExecuting.toNat)
      (hpending : s'.pendingEventCount + s.registered + s.cancelled +
        (s.phase i).isTriggered.toNat =
          s.pendingEventCount + s'.registered + s'.cancelled + p.isTriggered.toNat)
      (hwork : p.idleEnded = false ∨ p.idleEnded = (s.phase i).idleEnded ∧ ¬ s.Drained)
  | leave (i : Fin (n + 1)) (hi : s.phase i = .loop true) (hs' : s' = s.setPhase i .left)
  | idleEnd (i : Fin (n + 1)) (hl : l = .readStopping i) (hi : s.phase i = .readPending)
      (hstop : s.schedulerStopping = true) (hs' : s' = s.setPhase i (.loop true))

/-- A thread moves on and leaves the counters alone. -/
theorem Effect.quiet {l : StopLabel n} {tasks : List ScheduleTask} {timers : TimerManager}
    {q : ThreadPhase} (hi : s.phase i = q) (hx : p.isExecuting = q.isExecuting)
    (ht : p.isTriggered = q.isTriggered) (he : p.idleEnded = false) :
    Effect s l { s.setPhase i p with tasks := tasks, timers := timers } :=
  .move i p rfl rfl (by rw [hi, hx]; rfl) (by rw [hi, ht]; rfl) (Or.inl he)

/-- Taking a task out of the queue needs one. -/
theorem effect_dequeue {state : FiberId → FiberState}
    (hs : s.step (.dequeue i state) = some s') : Effect s (.dequeue i state) s' := by
  simp only [step] at hs
  split at hs
  · rename_i idleTerm task tasks _ hi htake
    obtain rfl := Option.some.inj hs
    refine .move i (.executing idleTerm) rfl rfl (by simp [hi]) (by simp [hi, setPhase])
      (Or.inr ?_)
    refine ⟨by simp [hi], fun hd => ?_⟩
    rw [hd.tasks] at htake
    cases htake
  · rename_i idleTerm _ _ hi _
    obtain rfl := Option.some.inj hs
    cases idleTerm with
    | false => exact .quiet hi rfl rfl rfl
    | true => exact .leave i hi rfl
  · cases hs

theorem Counted.effect_finish (h : s.Counted) (hs : s.step (.finish i) = some s') :
    Effect s (.finish i) s' := by
  simp only [IOManager.step] at hs
  split at hs
  · rename_i idleTerm hi
    obtain rfl := Option.some.inj hs
    have hpos := h.active_pos (i := i) (by rw [hi]; rfl)
    refine .move i (.loop idleTerm) rfl rfl ?_ (by simp [hi, setPhase]) (Or.inr ⟨by simp [hi], ?_⟩)
    · simp only [hi, ThreadPhase.isExecuting, Bool.toNat_true, Bool.toNat_false]
      omega
    · intro hd
      exact absurd hd.active hpos.ne'
  · cases hs

theorem effect_trigger {task : Option Task} (hs : s.step (.trigger i task) = some s') :
    Effect s (.trigger i task) s' := by
  simp only [step] at hs
  split at hs
  · rename_i hi
    obtain ⟨hpos, rfl⟩ := Option.ite_some_none_eq_some.mp hs
    refine .move i .triggered rfl rfl (by simp [hi, setPhase, schedule]) ?_ (Or.inl rfl)
    simp only [hi, setPhase, schedule, ThreadPhase.isTriggered, Bool.toNat_true,
      Bool.toNat_false]
    omega
  · cases hs

theorem Counted.effect_decrement (h : s.Counted) (hs : s.step (.decrement i) = some s') :
    Effect s (.decrement i) s' := by
  simp only [IOManager.step] at hs
  split at hs
  · rename_i hi
    obtain rfl := Option.some.inj hs
    have hpos := h.pending_pos (i := i) (by rw [hi]; rfl)
    refine .move i .dispatching rfl rfl (by simp [hi, setPhase]) ?_ (Or.inl rfl)
    simp only [hi, setPhase, ThreadPhase.isTriggered, Bool.toNat_true, Bool.toNat_false]
    omega
  · cases hs

theorem Counted.effect (h : s.Counted) {l : StopLabel n} (hs : s.step l = some s') :
    Effect s l s' := by
  have hp := h.pending
  cases l with
  | stop now =>
    obtain rfl := Option.some.inj hs
    exact .delete rfl (fun _ => rfl) rfl rfl le_rfl rfl id
  | schedule caller task thread =>
    obtain ⟨hc, rfl⟩ := Option.ite_some_none_eq_some.mp hs
    exact .create caller hc rfl rfl rfl rfl
  | addTimer caller addr ms cb recurring now =>
    obtain ⟨hc, rfl⟩ := Option.ite_some_none_eq_some.mp hs
    exact .create caller hc rfl rfl rfl rfl
  | cancelTimer id =>
    obtain ⟨r, hr, rfl⟩ := Option.map_eq_some_iff.mp hs
    exact .delete rfl (fun h => h) rfl rfl le_rfl rfl
      (fun hm => TimerManager.timers_cancel_nil hm hr)
  | refreshTimer id now =>
    obtain rfl := Option.some.inj hs
    exact .delete rfl (fun h => h) rfl rfl le_rfl rfl
      (fun hm => TimerManager.timers_refresh_nil hm now)
  | resetTimer id ms fromNow now =>
    obtain rfl := Option.some.inj hs
    exact .delete rfl (fun h => h) rfl rfl le_rfl rfl
      (fun hm => TimerManager.timers_reset_nil hm ms fromNow now)
  | addEvent caller =>
    obtain ⟨hc, rfl⟩ := Option.ite_some_none_eq_some.mp hs
    exact .create caller hc rfl rfl rfl (by simp only; omega)
  | delEvent =>
    obtain ⟨hpos, rfl⟩ := Option.ite_some_none_eq_some.mp hs
    exact .delete rfl (fun h => h) rfl (by simp only; omega) (Nat.sub_le _ _) rfl (fun h => h)
  | cancelEvent caller task =>
    obtain ⟨⟨hc, hpos⟩, rfl⟩ := Option.ite_some_none_eq_some.mp hs
    exact .create caller hc rfl rfl rfl (by simp only [IOManager.schedule]; omega)
  | uncount =>
    obtain ⟨hpos, rfl⟩ := Option.ite_some_none_eq_some.mp hs
    exact .delete rfl (fun h => h) rfl (by simp only; omega) (Nat.sub_le _ _) rfl (fun h => h)
  | dequeue i state => exact effect_dequeue hs
  | finish i => exact h.effect_finish hs
  | trigger i task => exact effect_trigger hs
  | decrement i => exact h.effect_decrement hs
  | readStopping i =>
    simp only [IOManager.step] at hs
    split at hs
    · rename_i hi
      obtain rfl := Option.some.inj hs
      split_ifs with hstop
      · exact .idleEnd i rfl hi hstop rfl
      · exact .quiet hi rfl rfl rfl
    · cases hs
  | getNextTimer i now =>
    simp only [IOManager.step] at hs
    split at hs
    · rename_i hi
      obtain rfl := Option.some.inj hs
      split_ifs <;> exact .quiet hi rfl rfl rfl
    · cases hs
  | readPending i =>
    simp only [IOManager.step] at hs
    split at hs
    · rename_i hi
      obtain rfl := Option.some.inj hs
      split_ifs <;> exact .quiet hi rfl rfl rfl
    · cases hs
  | listExpiredCb i now probeAddr =>
    simp only [IOManager.step] at hs
    split at hs
    · rename_i hi
      obtain rfl := Option.some.inj hs
      exact .quiet hi rfl rfl rfl
    · cases hs
  | scheduleExpired i =>
    simp only [IOManager.step] at hs
    split at hs
    · rename_i hi
      obtain rfl := Option.some.inj hs
      exact .quiet hi rfl rfl rfl
    · rename_i hi
      obtain rfl := Option.some.inj hs
      exact .quiet hi rfl rfl rfl
    · cases hs
  | yield i =>
    simp only [IOManager.step] at hs
    split at hs
    · rename_i hi
      obtain rfl := Option.some.inj hs
      exact .quiet hi rfl rfl rfl
    · cases hs

/-- The counters are kept by every step. -/
theorem Counted.step (h : s.Counted) {l : StopLabel n} (hs : s.step l = some s') :
    s'.Counted := by
  have ha := h.active
  have hp := h.pending
  cases h.effect hs with
  | create caller hc hphase hstopping hactive hpending =>
    refine ⟨by rw [hphase]; omega, by rw [hphase]; omega, ?_⟩
    rw [hphase, hstopping]
    exact h.stopping
  | delete hphase hstopping hactive hpending hle htasks htimers =>
    refine ⟨by rw [hphase]; omega, by rw [hphase]; omega, ?_⟩
    rw [hphase]
    exact fun j hj => hstopping (h.stopping j hj)
  | move i p hphase hstopping hactive hpending hwork =>
    apply h.move hphase hstopping hactive hpending
    intro hended
    rcases hwork with hfalse | ⟨hsame, -⟩
    · rw [hended] at hfalse
      cases hfalse
    · exact h.stopping i (hsame ▸ hended)
  | leave i hi hs' =>
    subst hs'
    exact h.move rfl rfl (by simp [hi, setPhase]) (by simp [hi, setPhase])
      (fun _ => h.stopping i (by rw [hi]; rfl))
  | idleEnd i hl hi hstop hs' =>
    subst hs'
    simp only [schedulerStopping, Bool.and_eq_true] at hstop
    exact h.move rfl rfl (by simp [hi, setPhase]) (by simp [hi, setPhase]) (fun _ => hstop.1.1)

/-- The thread that ends the last idle fiber does so on readings that still hold: when its call of
`Scheduler::Stopping` returns true, there is still no timer and no pending event. -/
def Fresh (s : IOManager n) : StopLabel n → Prop
  | .readStopping i => s.schedulerStopping = true → (∀ j ≠ i, (s.phase j).idleEnded = true) →
      s.timers.timers = [] ∧ s.pendingEventCount = 0
  | _ => True

instance (s : IOManager n) : ∀ l, Decidable (s.Fresh l)
  | .readStopping _ => inferInstanceAs (Decidable (_ → _))
  | .stop .. | .schedule .. | .addTimer .. | .cancelTimer .. | .refreshTimer .. | .resetTimer ..
  | .addEvent .. | .delEvent | .cancelEvent .. | .uncount | .dequeue .. | .finish ..
  | .getNextTimer .. | .readPending .. | .listExpiredCb .. | .scheduleExpired .. | .trigger ..
  | .decrement .. | .yield .. => isTrue trivial

/-- When all idle fibers have ended, there is no work left. -/
def Settled (s : IOManager n) : Prop := s.AllEnded → s.Drained

theorem Settled.step (hd : s.Settled) (h : s.Counted) {l : StopLabel n} (hf : s.Fresh l)
    (hs : s.step l = some s') : s'.Settled := by
  intro hall
  cases h.effect hs with
  | create caller hc hphase hstopping hactive hpending =>
    rw [AllEnded, hphase] at hall
    exact absurd (hd hall) (h.not_drained hc hall)
  | delete hphase hstopping hactive hpending hle htasks htimers =>
    rw [AllEnded, hphase] at hall
    obtain ⟨ht, hm, hp, ha⟩ := hd hall
    exact ⟨htasks.trans ht, htimers hm, by omega, hactive.trans ha⟩
  | move i p hphase hstopping hactive hpending hwork =>
    rw [AllEnded, hphase] at hall
    have hi := hall i
    rw [Function.update_self] at hi
    rcases hwork with hfalse | ⟨hsame, hnot⟩
    · rw [hi] at hfalse
      cases hfalse
    · exact absurd (hd (allEnded_of_update (hsame ▸ hi) hall)) hnot
  | leave i hi hs' =>
    subst hs'
    have hi' : (s.phase i).idleEnded = true := by rw [hi]; rfl
    obtain ⟨ht, hm, hp, ha⟩ := hd (allEnded_of_update hi' hall)
    exact ⟨ht, hm, hp, ha⟩
  | idleEnd i hl hi hstop hs' =>
    subst hs' hl
    have hothers : ∀ j ≠ i, (s.phase j).idleEnded = true := by
      intro j hj
      have hj' := hall j
      rwa [phase_setPhase, Function.update_of_ne hj] at hj'
    obtain ⟨hm, hp⟩ := hf hstop hothers
    simp only [schedulerStopping, Bool.and_eq_true, List.isEmpty_iff, beq_iff_eq] at hstop
    exact ⟨hstop.1.2, hm, hp, hstop.2⟩

theorem counted_run {now : UInt64} {labels : List (StopLabel n)}
    (hr : Transition.run step (new now) labels = some s) : s.Counted :=
  Transition.run_invariant (G := fun _ _ => True) Counted (fun _ _ _ h _ => h.step)
    (counted_new now) (Transition.meets_of_forall (fun _ _ => trivial) _ _) hr

theorem settled_run {now : UInt64} {labels : List (StopLabel n)}
    (hf : Transition.Meets step Fresh (new now) labels)
    (hr : Transition.run step (new now) labels = some s) : s.Settled := by
  refine (Transition.run_invariant (fun s => s.Counted ∧ s.Settled) ?_ ?_ hf hr).2
  · rintro s l s' ⟨hc, hd⟩ hl hs
    exact ⟨hc.step hs, hd.step hc hl hs⟩
  · refine ⟨counted_new now, fun hall => ?_⟩
    have h0 := hall 0
    simp [new] at h0

/-- Threads whose idle fibers have ended leave `Run` when there is no task. -/
theorem exists_run_left (threads : List (Fin (n + 1))) (s : IOManager n) (ht : s.tasks = [])
    (hp : ∀ j, s.phase j = .loop true ∨ s.phase j = .left) :
    ∃ labels s', Transition.run step s labels = some s' ∧ s'.timers = s.timers ∧
      s'.pendingEventCount = s.pendingEventCount ∧
      (∀ j, s.phase j = .left → s'.phase j = .left) ∧ ∀ j ∈ threads, s'.phase j = .left := by
  induction threads generalizing s with
  | nil => exact ⟨[], s, rfl, rfl, rfl, fun _ h => h, by simp⟩
  | cons i threads ih =>
    rcases hp i with hi | hi
    · have hstep : s.step (.dequeue i fun _ => .ready) = some (s.setPhase i .left) := by
        simp [step, hi, ht, Scheduler.dequeue]
      have hp' : ∀ j, (s.setPhase i .left).phase j = .loop true ∨
          (s.setPhase i .left).phase j = .left := by
        intro j
        rw [phase_setPhase, Function.update_apply]
        split_ifs
        · exact Or.inr rfl
        · exact hp j
      obtain ⟨labels, s', hr, hm, hpend, hkeep, hall⟩ := ih (s.setPhase i .left) ht hp'
      have hi' : s'.phase i = .left := hkeep i (by simp)
      refine ⟨_ :: labels, s', Transition.run_cons_iff.mpr ⟨_, hstep, hr⟩, hm, hpend, ?_,
        List.forall_mem_cons.mpr ⟨hi', hall⟩⟩
      intro j hj
      apply hkeep j
      rw [phase_setPhase, Function.update_apply, hj]
      exact ite_self _
    · obtain ⟨labels, s', hr, hm, hpend, hkeep, hall⟩ := ih s ht hp
      exact ⟨labels, s', hr, hm, hpend, hkeep, List.forall_mem_cons.mpr ⟨hkeep i hi, hall⟩⟩

/-- A thread whose idle fiber has ended is in the loop or has left it, unless it executes. -/
theorem Counted.loop_or_left (h : s.Counted) (ha : s.activeThreadCount = 0)
    (hi : (s.phase i).idleEnded = true) : s.phase i = .loop true ∨ s.phase i = .left := by
  have hx : (s.phase i).isExecuting ≠ true := fun hx => (h.active_pos hx).ne' ha
  generalize s.phase i = p at hi hx
  cases p with
  | loop idleTerm =>
    obtain rfl : idleTerm = true := hi
    exact Or.inl rfl
  | executing idleTerm => exact absurd rfl hx
  | left => exact Or.inr rfl
  | _ => cases hi

/-- In every run in which the last idle fiber ends on readings that still hold, no work is left
when all threads have left `Run`. Whenever those readings do not hold any more, there are steps
after which all threads have left and a timer or an event has not. -/
theorem no_work_lost_while_fresh (now : UInt64) (labels : List (StopLabel n)) (s : IOManager n)
    (hr : Transition.run step (new now) labels = some s) :
    (Transition.Meets step Fresh (new now) labels → (∀ i, s.phase i = .left) →
      s.tasks = [] ∧ s.timers.timers = [] ∧ s.pendingEventCount = 0) ∧
    ∀ i, s.phase i = .readPending → ¬ s.Fresh (.readStopping i) →
      ∃ more s', Transition.run step s (.readStopping i :: more) = some s' ∧
        (∀ j, s'.phase j = .left) ∧ ¬ (s'.timers.timers = [] ∧ s'.pendingEventCount = 0) := by
  constructor
  · intro hf hleft
    have hall : s.AllEnded := by
      intro i
      rw [hleft i]
      rfl
    have hd := settled_run hf hr hall
    exact ⟨hd.tasks, hd.timers, hd.pending⟩
  · intro i hi hstale
    simp only [Fresh, Classical.not_imp] at hstale
    obtain ⟨hstop, hothers, hwork⟩ := hstale
    have hstep : s.step (.readStopping i) = some (s.setPhase i (.loop true)) := by
      simp [step, hi, hstop]
    simp only [schedulerStopping, Bool.and_eq_true, List.isEmpty_iff, beq_iff_eq] at hstop
    have hp : ∀ j, (s.setPhase i (.loop true)).phase j = .loop true ∨
        (s.setPhase i (.loop true)).phase j = .left := by
      intro j
      by_cases hj : j = i
      · simp [hj]
      · rw [phase_setPhase, Function.update_of_ne hj]
        exact (counted_run hr).loop_or_left hstop.2 (hothers j hj)
    obtain ⟨more, s', hmore, hm, hpend, -, hall⟩ :=
      exists_run_left (List.finRange (n + 1)) (s.setPhase i (.loop true)) hstop.1.2 hp
    refine ⟨more, s', Transition.run_cons_iff.mpr ⟨_, hstep, hmore⟩, ?_, ?_⟩
    · exact fun j => hall j (List.mem_finRange j)
    · rw [hm, hpend]
      exact hwork

/-- After `Stop`, a task on the only thread adds a timer, which expires and is executed. -/
def timerAfterStop (i : Fin 1) : List (StopLabel 0) :=
  [.schedule none (some (.cb 1)) none, .stop 100, .dequeue i fun _ => .ready,
    .addTimer (some i) 64 5 (some 2) false 100, .finish i, .dequeue i fun _ => .ready,
    .getNextTimer i 101, .listExpiredCb i 105 128, .scheduleExpired i, .scheduleExpired i,
    .yield i, .dequeue i fun _ => .ready, .finish i, .dequeue i fun _ => .ready,
    .getNextTimer i 106, .readPending i, .readStopping i, .dequeue i fun _ => .ready]

theorem no_work_lost_while_fresh_timerAfterStop : ∃ s,
    Transition.run step (new 0) (timerAfterStop 0) = some s ∧ s.phase 0 = .left ∧
      s.timers.count = 1 ∧ s.timers.timers = [] := by
  have hrun : (Transition.run step (new 0) (timerAfterStop 0)).map
      (fun s => (s.phase 0, s.timers.count)) = some (.left, 1) := by decide
  obtain ⟨s, hs, hh⟩ := Option.map_eq_some_iff.mp hrun
  simp only [Prod.mk.injEq] at hh
  have hf : Transition.Meets step Fresh (new 0) (timerAfterStop 0) := by decide
  have hleft : ∀ i, s.phase i = .left := by
    intro i
    rw [Fin.fin_one_eq_zero i]
    exact hh.1
  exact ⟨s, hs, hh.1, hh.2, ((no_work_lost_while_fresh 0 _ s hs).1 hf hleft).2.1⟩

/-- The only thread has found no timer and no event; the caller adds a timer and calls `Stop`;
the thread goes on. -/
def timerBeforeStop (i : Fin 1) : List (StopLabel 0) :=
  [.dequeue i fun _ => .ready, .getNextTimer i 100, .readPending i,
    .addTimer none 64 5 (some 1) false 100, .stop 100, .readStopping i,
    .dequeue i fun _ => .ready]

theorem timer_lost_by_stop : ∃ s,
    Transition.run step (new 0) (timerBeforeStop 0) = some s ∧ (∀ i, s.phase i = .left) ∧
      ¬ (s.tasks = [] ∧ s.timers.timers = [] ∧ s.pendingEventCount = 0) := by
  have hrun : (Transition.run step (new 0) (timerBeforeStop 0)).map
      (fun s => (s.phase 0, s.timers.timers)) = some (.left, [0]) := by decide
  obtain ⟨s, hs, hh⟩ := Option.map_eq_some_iff.mp hrun
  simp only [Prod.mk.injEq] at hh
  refine ⟨s, hs, ?_, ?_⟩
  · intro i
    rw [Fin.fin_one_eq_zero i]
    exact hh.1
  · rintro ⟨-, hm, -⟩
    rw [hh.2] at hm
    cases hm

end IOManager

end ServerFramework
