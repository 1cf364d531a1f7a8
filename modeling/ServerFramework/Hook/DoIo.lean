import Mathlib.Data.Nat.Notation
import Mathlib.Logic.Function.Basic
import Mathlib.Tactic.SplitIfs
import ServerFramework.Lib.Transition

/-! # The timeout of hooked input and output

`do_io` on a managed blocking socket with a finite timeout. Each time the underlying call
would block, the fiber arms a timer of its own, registers its event and yields. The timer's
callback sets `cancelled` and cancels the event, on another thread and in its own time. All
callbacks of one call of `do_io` share `cancelled`.
-/

namespace ServerFramework

/-- Where the fiber is in `do_io`. -/
inductive WaitPhase where
  /-- At `retry`, before the underlying call. -/
  | trying
  /-- The call would block; before `AddConditionTimer`. -/
  | arming
  /-- Before `AddEvent`. -/
  | adding
  /-- The event is added; before `Yield`. -/
  | yielding
  | suspended
  /-- Resumed; before `timer->Cancel()`. -/
  | cancelling
  /-- Before the test of `cancelled`. -/
  | checking
  /-- `AddEvent` failed; before `timer->Cancel()`. -/
  | failing
  | returned
  deriving DecidableEq, Repr

/-- Where the timer of one wait is. -/
inductive TimeoutPhase where
  | absent
  | armed
  | cancelled
  /-- Handed out by `ListExpiredCb`; the callback has not started. -/
  | handed
  /-- The callback has found `cancelled` to be zero. -/
  | setting
  /-- The callback has set `cancelled`; before `CancelEvent`. -/
  | cancelling
  | finished
  deriving DecidableEq, Repr

/-- One call of `do_io`. `registered` tells whether its event is registered, and `woken` whether
its fiber has been scheduled by an event. -/
structure DoIo where
  phase : WaitPhase
  wait : ℕ
  timer : ℕ → TimeoutPhase
  cancelled : ℕ
  registered : Bool
  woken : Bool

/-- The steps of the fiber, of the timer callbacks by the number of their wait, and of the event
dispatch. -/
inductive DoIoOp where
  | call (again : Bool)
  | addConditionTimer
  | addEvent (ok : Bool)
  | yield
  | resume
  | cancelTimer
  | check
  | hand (wait : ℕ)
  | test (wait : ℕ)
  | set (wait : ℕ)
  | cancelEvent (wait : ℕ) (ok : Bool)
  | deliver
  deriving DecidableEq, Repr

namespace DoIo

def ETIMEDOUT : ℕ := 110

def new : DoIo where
  phase := .trying
  wait := 0
  timer := fun _ => .absent
  cancelled := 0
  registered := false
  woken := false

def setTimer (s : DoIo) (wait : ℕ) (timer : TimeoutPhase) : DoIo :=
  { s with timer := Function.update s.timer wait timer }

/-- The event is cleared and the fiber is scheduled. -/
def trigger (s : DoIo) : DoIo := { s with registered := false, woken := true }

/-- `timer->Cancel()`, which only disarms a timer that has not been handed out. -/
def cancelTimer (s : DoIo) : DoIo :=
  if s.timer s.wait = .armed then s.setTimer s.wait .cancelled else s

def step (s : DoIo) : DoIoOp → Option DoIo
  | .call again =>
    if s.phase = .trying then some { s with phase := if again then .arming else .returned }
    else none
  | .addConditionTimer =>
    if s.phase = .arming then some { s.setTimer s.wait .armed with phase := .adding } else none
  | .addEvent ok =>
    if s.phase = .adding then
      some (if ok then { s with registered := true, phase := .yielding }
        else { s with phase := .failing })
    else none
  | .yield => if s.phase = .yielding then some { s with phase := .suspended } else none
  | .resume =>
    if s.phase = .suspended ∧ s.woken then some { s with woken := false, phase := .cancelling }
    else none
  | .cancelTimer =>
    if s.phase = .cancelling then some { s.cancelTimer with phase := .checking }
    else if s.phase = .failing then some { s.cancelTimer with phase := .returned }
    else none
  | .check =>
    if s.phase = .checking then
      some (if s.cancelled ≠ 0 then { s with phase := .returned }
        else { s with phase := .trying, wait := s.wait + 1 })
    else none
  | .hand wait => if s.timer wait = .armed then some (s.setTimer wait .handed) else none
  | .test wait =>
    -- the locked pointer is null once `do_io` has returned
    if s.timer wait = .handed then
      some (s.setTimer wait (if s.phase = .returned ∨ s.cancelled ≠ 0 then .finished else .setting))
    else none
  | .set wait =>
    if s.timer wait = .setting then
      some { s.setTimer wait .cancelling with cancelled := ETIMEDOUT }
    else none
  | .cancelEvent wait ok =>
    if s.timer wait = .cancelling then
      let s := s.setTimer wait .finished
      some (if s.registered ∧ ok then s.trigger else s)
    else none
  | .deliver => if s.registered then some s.trigger else none

/-- The fiber is suspended, its event is registered, and its timer is consumed. -/
def Lost (s : DoIo) : Prop :=
  s.phase = .suspended ∧ s.registered = true ∧ s.timer s.wait = .finished

/-- The fiber has armed its timer and its event is still to be added, or is registered. -/
def Waiting (s : DoIo) : Prop := s.phase = .adding ∨ s.registered = true

/-- The callback of the current wait finds `cancelled` to be zero if the fiber is waiting; its
`CancelEvent` comes after `AddEvent`, and its `epoll_ctl` succeeds. -/
def InTime (s : DoIo) : DoIoOp → Prop
  | .test wait => wait = s.wait → s.Waiting → s.cancelled = 0
  | .cancelEvent wait ok => wait = s.wait → s.phase ≠ .adding ∧ (s.registered = true → ok = true)
  | _ => True

/-- The event has been added and the fiber has not been resumed. -/
def Added (s : DoIo) : Prop := s.phase = .yielding ∨ s.phase = .suspended

/-- What runs with callbacks in time preserve. -/
structure Inv (s : DoIo) : Prop where
  registered : s.registered = true → s.Added
  woken : s.woken = true → s.registered = false ∧ s.Added
  notFinished : s.Waiting → s.timer s.wait ≠ .finished

variable {s s' : DoIo}

theorem Inv.not_lost (h : s.Inv) : ¬ s.Lost :=
  fun ⟨_, hreg, hfin⟩ => h.notFinished (Or.inr hreg) hfin

theorem new_inv : new.Inv where
  registered := by simp [new]
  woken := by simp [new]
  notFinished := by simp [new]

theorem timer_setTimer (s : DoIo) (wait : ℕ) (timer : TimeoutPhase) (x : ℕ) :
    (s.setTimer wait timer).timer x = if x = wait then timer else s.timer x :=
  Function.update_apply ..

theorem Inv.not_added (h : s.Inv) (ha : ¬ s.Added) : s.registered = false ∧ s.woken = false :=
  ⟨eq_false_of_ne_true fun hr => ha (h.registered hr),
    eq_false_of_ne_true fun hw => ha (h.woken hw).2⟩

/-- A step outside a wait. -/
theorem Inv.outside (h : s.Inv) (ha : ¬ s.Added) (hreg : s'.registered = s.registered)
    (hwoken : s'.woken = s.woken) (hphase : s'.phase ≠ .adding) : s'.Inv := by
  obtain ⟨hr, hw⟩ := h.not_added ha
  refine ⟨?_, ?_, ?_⟩
  · simp [hreg, hr]
  · simp [hwoken, hw]
  · rintro (hp | hp)
    · exact absurd hp hphase
    · simp [hreg, hr] at hp

/-- A step of a timer that does not finish the current one while the fiber is waiting. -/
theorem Inv.setTimer (h : s.Inv) {wait : ℕ} {timer : TimeoutPhase}
    (ht : wait = s.wait → s.Waiting → timer ≠ .finished) : (s.setTimer wait timer).Inv := by
  refine ⟨h.registered, h.woken, ?_⟩
  intro hw
  change (s.setTimer wait timer).timer s.wait ≠ _
  rw [timer_setTimer]
  split_ifs with hwait
  · exact ht hwait.symm hw
  · exact h.notFinished hw

theorem Inv.trigger (h : s.Inv) (hreg : s.registered = true) : s.trigger.Inv := by
  have ha := h.registered hreg
  refine ⟨by simp [DoIo.trigger], fun _ => ⟨rfl, ha⟩, ?_⟩
  rintro (hp | hp)
  · exact h.notFinished (Or.inl hp)
  · simp [DoIo.trigger] at hp

theorem Inv.step {op : DoIoOp} (h : s.Inv) (hg : s.InTime op) (hs : s.step op = some s') :
    s'.Inv := by
  cases op with
  | call again =>
    obtain ⟨hp, rfl⟩ := Option.ite_some_none_eq_some.mp hs
    refine h.outside (by simp [Added, hp]) rfl rfl ?_
    cases again <;> simp
  | addConditionTimer =>
    obtain ⟨hp, rfl⟩ := Option.ite_some_none_eq_some.mp hs
    obtain ⟨hr, hw⟩ := h.not_added (by simp [Added, hp])
    refine ⟨by simp [DoIo.setTimer, hr], by simp [DoIo.setTimer, hw], ?_⟩
    intro _
    change (s.setTimer s.wait .armed).timer s.wait ≠ _
    simp [timer_setTimer]
  | addEvent ok =>
    obtain ⟨hp, rfl⟩ := Option.ite_some_none_eq_some.mp hs
    have ha : ¬ s.Added := by simp [Added, hp]
    cases ok with
    | false => exact h.outside ha rfl rfl (by simp)
    | true =>
      refine ⟨fun _ => Or.inl rfl, by simp [(h.not_added ha).2], ?_⟩
      intro _
      exact h.notFinished (Or.inl hp)
  | yield =>
    obtain ⟨hp, rfl⟩ := Option.ite_some_none_eq_some.mp hs
    refine ⟨fun _ => Or.inr rfl, fun hw => ⟨(h.woken hw).1, Or.inr rfl⟩, ?_⟩
    rintro (hp' | hr)
    · cases hp'
    · exact h.notFinished (Or.inr hr)
  | resume =>
    obtain ⟨⟨-, hw⟩, rfl⟩ := Option.ite_some_none_eq_some.mp hs
    have hr := (h.woken hw).1
    refine ⟨by simp [hr], by simp, ?_⟩
    rintro (hp' | hr')
    · cases hp'
    · simp [hr] at hr'
  | cancelTimer =>
    simp only [DoIo.step] at hs
    split_ifs at hs with hp hp'
    · obtain rfl := Option.some.inj hs
      refine h.outside (by simp [Added, hp]) ?_ ?_ (by simp) <;>
        simp only [DoIo.cancelTimer] <;> split_ifs <;> rfl
    · obtain rfl := Option.some.inj hs
      refine h.outside (by simp [Added, hp']) ?_ ?_ (by simp) <;>
        simp only [DoIo.cancelTimer] <;> split_ifs <;> rfl
  | check =>
    obtain ⟨hp, rfl⟩ := Option.ite_some_none_eq_some.mp hs
    refine h.outside (by simp [Added, hp]) ?_ ?_ ?_ <;> split_ifs <;> simp
  | hand wait =>
    obtain ⟨-, rfl⟩ := Option.ite_some_none_eq_some.mp hs
    exact h.setTimer (by simp)
  | test wait =>
    obtain ⟨-, rfl⟩ := Option.ite_some_none_eq_some.mp hs
    refine h.setTimer fun hwait hw => ?_
    have hc := hg hwait hw
    have hp : s.phase ≠ .returned := by
      intro hp
      rcases hw with hw | hw
      · simp [hp] at hw
      · rcases h.registered hw with ha | ha <;> simp [hp] at ha
    simp [hc, hp]
  | set wait =>
    obtain ⟨-, rfl⟩ := Option.ite_some_none_eq_some.mp hs
    have hset : (s.setTimer wait .cancelling).Inv := h.setTimer (by simp)
    exact ⟨hset.registered, hset.woken, hset.notFinished⟩
  | cancelEvent wait ok =>
    obtain ⟨-, rfl⟩ := Option.ite_some_none_eq_some.mp hs
    split_ifs with hr
    · have ha : s.Added := h.registered hr.1
      refine ⟨by simp [DoIo.trigger], fun _ => ⟨rfl, ha⟩, ?_⟩
      rintro (hp | hp)
      · rcases ha with ha | ha <;> cases ha.symm.trans hp
      · cases hp
    · refine h.setTimer fun hwait hw => ?_
      obtain ⟨hp, hok⟩ := hg hwait
      rcases hw with hw | hw
      · exact absurd hw hp
      · exact absurd ⟨hw, hok hw⟩ hr
  | deliver =>
    obtain ⟨hr, rfl⟩ := Option.ite_some_none_eq_some.mp hs
    exact h.trigger hr

/-- In every run whose callbacks are in time, no timeout is lost. -/
theorem not_lost_of_inTime (ops : List DoIoOp) (s : DoIo)
    (hr : Transition.run step new ops = some s) (hg : Transition.Meets step InTime new ops) :
    ¬ s.Lost :=
  (Transition.run_invariant Inv (fun _ _ _ h hg hs => h.step hg hs) new_inv hg hr).not_lost

/-- The timer fires and its callback runs before the event is added. -/
def firesBeforeAddEvent : List DoIoOp :=
  [.call true, .addConditionTimer, .hand 0, .test 0, .set 0, .cancelEvent 0 true,
    .addEvent true, .yield]

theorem timeout_lost : ∃ s,
    Transition.run step new firesBeforeAddEvent = some s ∧ s.Lost :=
  ⟨_, rfl, rfl, rfl, rfl⟩

/-- An event is delivered to the first wait, and the second one times out. -/
def firesWhileSuspended : List DoIoOp :=
  [.call true, .addConditionTimer, .addEvent true, .deliver, .yield, .resume, .cancelTimer,
    .check, .call true, .addConditionTimer, .addEvent true, .yield, .hand 1, .test 1, .set 1,
    .cancelEvent 1 true]

theorem not_lost_of_inTime_firesWhileSuspended : ∃ s,
    Transition.run step new firesWhileSuspended = some s ∧ s.phase = .suspended ∧
      s.woken = true ∧ ¬ s.Lost := by
  refine ⟨_, rfl, rfl, rfl, not_lost_of_inTime firesWhileSuspended _ rfl ?_⟩
  simp [firesWhileSuspended, Transition.Meets, step, InTime, Waiting, new, trigger, cancelTimer,
    setTimer, Function.update_apply]

end DoIo

end ServerFramework
