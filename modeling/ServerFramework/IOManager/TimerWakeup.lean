import Mathlib.Data.Fintype.Fin
import Mathlib.Data.Int.ModEq
import ServerFramework.Lib.Tally
import ServerFramework.Lib.Transition
import ServerFramework.Timer.Deadlines

/-! # Waking threads for timers

A scheduling thread waits in `epoll_wait` until the time that `GetNextTimer` gave it, unless there
is a token in the tickle pipe. A timer inserted at the front is announced by a `Tickle`, but only
once until the next `GetNextTimer`; `Refresh` and recurring timers are not announced at all.

Each thread fixes its wake time in `GetNextTimer`. The clock is read under the lock there, in
`Refresh` and in `reset`; `AddTimer` and `ListExpiredCb` read it earlier.
-/

namespace ServerFramework

open Transition TimerManager
open scoped BigOperators

/-- Where a scheduling thread stands. A wake time of `none` is never. -/
inductive TimedPhase where
  /-- In `Run`, not counted as idle. -/
  | running
  /-- Counted as idle; before `GetNextTimer`. -/
  | entered
  /-- Before `epoll_wait`. -/
  | computed (wake : Option ℕ)
  /-- In `epoll_wait`. -/
  | waiting (wake : Option ℕ)
  /-- `epoll_wait` has returned. -/
  | woken
  deriving DecidableEq, Repr

namespace TimedPhase

/-- The thread calls `GetNextTimer` before it waits. -/
def isAwake : TimedPhase → Bool
  | running | entered | woken => true
  | computed _ | waiting _ => false

/-- The thread is counted in `idle_thread_count_`. -/
def isIdle : TimedPhase → Bool
  | running => false
  | entered | computed _ | waiting _ | woken => true

def wakeTime : TimedPhase → Option ℕ
  | computed wake | waiting wake => wake
  | running | entered | woken => none

end TimedPhase

/-- The conversion of a `uint64_t` to `int`. -/
def toInt (x : UInt64) : ℤ := Int.bmod x.toNat (2 ^ 32)

/-- The timeout with which `Idle` calls `epoll_wait`. -/
def epollTimeout (nextTimeout : UInt64) : ℤ :=
  if nextTimeout ≠ ~~~(0 : UInt64) then min (toInt nextTimeout) 5000 else 5000

/-- The time `epoll_wait` returns at; it does not return by itself if the timeout is negative. -/
def wakeTime (clock : UInt64) (timeout : ℤ) : Option ℕ :=
  if timeout < 0 then none else some (clock.toNat + timeout.toNat)

/-- The timers, the clock, the tickle pipe and the threads; there is at least one. `outstanding`
counts the calls of `Tickle` still to be made. -/
structure TimerWakeup (n : ℕ) where
  timers : TimerManager
  clock : UInt64
  tokens : ℕ
  idleThreadCount : ℕ
  outstanding : ℕ
  phase : Fin (n + 1) → TimedPhase

inductive TimerWakeOp (n : ℕ) where
  | tick (clock : UInt64)
  /-- The locked section of `AddTimer`, on a timer constructed at `now`. -/
  | addTimer (addr : ℕ) (ms : UInt64) (cb : Option Callback) (recurring : Bool) (now : UInt64)
  | cancel (id : TimerId)
  | refresh (id : TimerId)
  | reset (id : TimerId) (ms : UInt64) (fromNow : Bool)
  /-- `Schedule` or `Run` is about to call `Tickle`. -/
  | request
  | tickle
  | enterIdle (i : Fin (n + 1))
  | getNextTimer (i : Fin (n + 1))
  | wait (i : Fin (n + 1))
  /-- `epoll_wait` returns, by a token, the timeout or another event. -/
  | wake (i : Fin (n + 1))
  | listExpiredCb (i : Fin (n + 1)) (now : UInt64) (probeAddr : ℕ)
  /-- Read the tokens. -/
  | drain (i : Fin (n + 1))
  /-- The idle fiber yields, and the thread is no longer counted as idle. -/
  | yield (i : Fin (n + 1))

/-- Intervals are below `2^31`; the clock is a non-negative `long` in `GetElapsedMS`. -/
def TimerWakeOp.InRange {n : ℕ} : TimerWakeOp n → Prop
  | tick clock => clock.toNat < 2 ^ 63
  | addTimer _ ms _ _ _ => ms.toNat < 2 ^ 31
  | reset _ ms _ => ms.toNat < 2 ^ 31
  | _ => True

namespace TimerWakeup

variable {n : ℕ}

def new (start : UInt64) : TimerWakeup n where
  timers := .new start
  clock := start
  tokens := 0
  idleThreadCount := 0
  outstanding := 0
  phase := fun _ => .running

def setPhase (s : TimerWakeup n) (i : Fin (n + 1)) (phase : TimedPhase) : TimerWakeup n :=
  { s with phase := Function.update s.phase i phase }

/-- After a locked section, `OnTimerInsertedAtFront` is to be called or not. -/
def setTimers (s : TimerWakeup n) (atFront : Bool) (timers : TimerManager) : TimerWakeup n :=
  { s with timers := timers, outstanding := s.outstanding + atFront.toNat }

/-- `IOManager::Tickle`. -/
def tickle (s : TimerWakeup n) : TimerWakeup n :=
  if s.idleThreadCount > 0 then { s with tokens := s.tokens + 1 } else s

/-- One step. The allocator never gives the address of a timer that the set keeps alive, and only
timers already added are operated on. -/
def step (s : TimerWakeup n) : TimerWakeOp n → Option (TimerWakeup n)
  | .tick clock => if s.clock ≤ clock then some { s with clock := clock } else none
  | .addTimer addr ms cb recurring now =>
    if now ≤ s.clock ∧ ∀ t ∈ s.timers.timers, (s.timers.timer t).addr ≠ addr then
      let (atFront, timers) := s.timers.addTimer addr ms cb recurring now
      some (s.setTimers atFront timers)
    else none
  | .cancel id =>
    if id < s.timers.count then (s.timers.cancel id).map fun r => s.setTimers false r.2 else none
  | .refresh id =>
    if id < s.timers.count then some (s.setTimers false (s.timers.refresh id s.clock).2) else none
  | .reset id ms fromNow =>
    if id < s.timers.count then
      let (_, atFront, timers) := s.timers.resetLocked id ms fromNow s.clock
      some (s.setTimers atFront timers)
    else none
  | .request => some { s with outstanding := s.outstanding + 1 }
  | .tickle =>
    if s.outstanding > 0 then some { s.tickle with outstanding := s.outstanding - 1 } else none
  | .enterIdle i =>
    if s.phase i = .running then
      some { s.setPhase i .entered with idleThreadCount := s.idleThreadCount + 1 }
    else none
  | .getNextTimer i =>
    if s.phase i = .entered then
      let (nextTimeout, timers) := s.timers.getNextTimer s.clock
      some ({ s with timers := timers }.setPhase i
        (.computed (wakeTime s.clock (epollTimeout nextTimeout))))
    else none
  | .wait i =>
    match s.phase i with
    | .computed wake => some (s.setPhase i (.waiting wake))
    | _ => none
  | .wake i =>
    match s.phase i with
    | .waiting _ => some (s.setPhase i .woken)
    | _ => none
  | .listExpiredCb i now probeAddr =>
    if s.phase i = .woken ∧ now ≤ s.clock then
      some { s with timers := (s.timers.listExpiredCb now probeAddr).2 }
    else none
  | .drain i => if s.phase i = .woken then some { s with tokens := 0 } else none
  | .yield i =>
    if s.phase i = .woken then
      some { s.setPhase i .running with idleThreadCount := s.idleThreadCount - 1 }
    else none

/-- All threads wait for a time to come, nothing is going to wake one of them, and the earliest
timer is due before that. -/
structure Missed (s : TimerWakeup n) : Prop where
  blocked : ∀ i, ∃ wake, s.phase i = .waiting wake ∧ ∀ w, wake = some w → s.clock.toNat < w
  tokens : s.tokens = 0
  outstanding : s.outstanding = 0
  early : ∃ first rest, s.timers.timers = first :: rest ∧
    ∀ i w, s.phase i = .waiting (some w) → (s.timers.timer first).next.toNat < w

/-- A thread is going to be woken, or to call `GetNextTimer`. -/
def Notified (s : TimerWakeup n) : Prop :=
  0 < s.outstanding ∨ 0 < s.tokens ∨ ∃ i, (s.phase i).isAwake = true

/-- A thread wakes up in time for all timers. -/
def Covered (s : TimerWakeup n) : Prop :=
  ∃ i w, (s.phase i).wakeTime = some w ∧ (w ≤ s.clock.toNat ∨ NoneBefore w s.timers)

structure Inv (s : TimerWakeup n) : Prop where
  clock : s.clock.toNat < 2 ^ 63
  sound : Sound s.clock [] s.timers
  idle : s.idleThreadCount = ∑ i, (s.phase i).isIdle.toNat
  /-- `tickled_` is only set as long as a notification is under way. -/
  tickled : s.timers.tickled = true → s.Notified
  covered : s.Notified ∨ s.Covered

variable {s s' : TimerWakeup n} {i : Fin (n + 1)}

theorem Notified.of_awake (h : (s.phase i).isAwake = true) : s.Notified := Or.inr (Or.inr ⟨i, h⟩)

/-- As long as something is notified, only the set and the count matter. -/
theorem Inv.of_notified (hclock : s.clock.toNat < 2 ^ 63) (hsound : Sound s.clock [] s.timers)
    (hidle : s.idleThreadCount = ∑ i, (s.phase i).isIdle.toNat) (h : s.Notified) : s.Inv :=
  ⟨hclock, hsound, hidle, fun _ => h, Or.inl h⟩

theorem new_inv {start : UInt64} (hstart : start.toNat < 2 ^ 63) :
    (new start : TimerWakeup n).Inv := by
  apply Inv.of_notified hstart (new_sound start start)
  · simp [new, TimedPhase.isIdle]
  · exact Notified.of_awake (i := 0) rfl

theorem phase_setPhase (s : TimerWakeup n) (i : Fin (n + 1)) (phase : TimedPhase) :
    (s.setPhase i phase).phase i = phase := Function.update_self ..

theorem sum_setPhase (s : TimerWakeup n) (i : Fin (n + 1)) (phase : TimedPhase) :
    ∑ j, ((s.setPhase i phase).phase j).isIdle.toNat + (s.phase i).isIdle.toNat =
      ∑ j, (s.phase j).isIdle.toNat + phase.isIdle.toNat :=
  Tally.sum_update_add (fun p : TimedPhase => p.isIdle.toNat) s.phase i phase

/-- A locked section that leaves the order of the set alone and tells about earlier timers. -/
theorem Inv.setTimers (hi : s.Inv) {atFront : Bool} {timers : TimerManager}
    (hsound : Sound s.clock [] timers) (htell : Telling atFront s.timers timers) :
    (s.setTimers atFront timers).Inv := by
  have hkeep : s.Notified → (s.setTimers atFront timers).Notified :=
    Or.imp_left (Nat.lt_add_right _)
  rcases htell with rfl | ⟨hsame, hlater⟩
  · exact .of_notified hi.clock hsound hi.idle (Or.inl (Nat.succ_pos _))
  · refine ⟨hi.clock, hsound, hi.idle, fun ht => hkeep (hi.tickled (hsame ▸ ht)), ?_⟩
    by_cases hn : s.Notified
    · exact Or.inl (hkeep hn)
    · have hnot : s.timers.tickled = false := eq_false_of_ne_true fun ht => hn (hi.tickled ht)
      obtain ⟨i, w, hw, hle⟩ := hi.covered.resolve_left hn
      exact Or.inr ⟨i, w, hw, hle.imp_right (hlater hnot w)⟩

/-- If no thread is counted as idle, all of them are awake. -/
theorem Inv.isAwake_of_idle (hi : s.Inv) (hzero : s.idleThreadCount = 0) (i : Fin (n + 1)) :
    (s.phase i).isAwake = true := by
  have hle : (s.phase i).isIdle.toNat ≤ ∑ j, (s.phase j).isIdle.toNat :=
    Tally.le_sum (fun p : TimedPhase => p.isIdle.toNat) s.phase i
  rw [← hi.idle, hzero, Nat.le_zero] at hle
  cases hp : s.phase i with
  | running => rfl
  | entered | computed | waiting | woken => simp [hp, TimedPhase.isIdle] at hle

theorem Inv.tickle (hi : s.Inv) (outstanding : ℕ) :
    ({ s.tickle with outstanding := outstanding } : TimerWakeup n).Inv := by
  unfold TimerWakeup.tickle
  split_ifs with hidle
  · exact .of_notified hi.clock hi.sound hi.idle (Or.inr (Or.inl (Nat.succ_pos _)))
  · have hawake := hi.isAwake_of_idle (Nat.eq_zero_of_not_pos hidle) 0
    exact .of_notified hi.clock hi.sound hi.idle (.of_awake hawake)

theorem toInt_of_lt {x : UInt64} (h : x.toNat < 2 ^ 31) : toInt x = x.toNat := by
  unfold toInt
  rw [Int.bmod_eq_of_le] <;> omega

theorem wakeTime_of_lt {answer : UInt64} (clock : UInt64) (h : answer.toNat < 2 ^ 31) :
    wakeTime clock (epollTimeout answer) = some (clock.toNat + min answer.toNat 5000) := by
  have hne : answer ≠ ~~~(0 : UInt64) := by
    rintro rfl
    exact absurd h (by decide)
  rw [epollTimeout, if_pos hne, toInt_of_lt h, wakeTime, if_neg (by omega)]
  congr 2
  omega

/-- The wake time is now, or no timer is due before it. -/
theorem wakeTime_cases {m : TimerManager} {clock : UInt64} (h : Sound clock [] m) :
    ∃ w, wakeTime clock (epollTimeout (m.getNextTimer clock).1) = some w ∧
      (w ≤ clock.toNat ∨ NoneBefore w m) := by
  rcases h.getNextTimer_cases with ⟨hnil, he⟩ | he | ⟨hlt, hnone⟩
  · refine ⟨clock.toNat + 5000, by simp [he, epollTimeout, wakeTime], Or.inr ?_⟩
    intro a ha
    rw [hnil] at ha
    exact absurd ha List.not_mem_nil
  · have hlt : (m.getNextTimer clock).1.toNat < 2 ^ 31 := by
      rw [he]
      decide
    refine ⟨_, wakeTime_of_lt clock hlt, Or.inl ?_⟩
    rw [he]
    exact le_rfl
  · refine ⟨_, wakeTime_of_lt clock hlt, Or.inr ?_⟩
    intro a ha
    have := hnone a ha
    omega

theorem Inv.getNextTimer (hi : s.Inv) (hs : s.step (.getNextTimer i) = some s') : s'.Inv := by
  obtain ⟨hphase, hs⟩ := Option.ite_some_none_eq_some.mp hs
  obtain ⟨w, hw, hle⟩ := wakeTime_cases hi.sound
  obtain rfl : { s with timers := (s.timers.getNextTimer s.clock).2 }.setPhase i
      (.computed (some w)) = s' := by
    rw [← hw]
    exact hs
  have ho := hi.sound.ordered
  have hsound : Sound s.clock [] (s.timers.getNextTimer s.clock).2 :=
    ⟨⟨ho.ascending, ho.nodup, ho.lt_count, ho.addr_inj⟩, hi.sound.started⟩
  have hsum := sum_setPhase s i (.computed (some w))
  rw [hphase] at hsum
  refine ⟨hi.clock, hsound, ?_, fun ht => ?_, Or.inr ⟨i, w, ?_, hle⟩⟩
  · exact hi.idle.trans (Nat.add_right_cancel hsum).symm
  · cases ht
  · rw [phase_setPhase]
    rfl

theorem Inv.wait (hi : s.Inv) (hs : s.step (.wait i) = some s') : s'.Inv := by
  cases hphase : s.phase i with
  | computed wake =>
    simp only [TimerWakeup.step, hphase, Option.some.injEq] at hs
    subst hs
    have hsum := sum_setPhase s i (.waiting wake)
    rw [hphase] at hsum
    have hn : (s.setPhase i (.waiting wake)).Notified ↔ s.Notified := by
      have hsame : TimedPhase.isAwake (.waiting wake) = (s.phase i).isAwake := by rw [hphase]; rfl
      simp only [Notified, TimerWakeup.setPhase, Tally.apply_update_of_eq TimedPhase.isAwake hsame]
    have hc : (s.setPhase i (.waiting wake)).Covered ↔ s.Covered := by
      have hsame : TimedPhase.wakeTime (.waiting wake) = (s.phase i).wakeTime := by
        rw [hphase]; rfl
      simp only [Covered, TimerWakeup.setPhase,
        Tally.apply_update_of_eq TimedPhase.wakeTime hsame]
    refine ⟨hi.clock, hi.sound, ?_, fun ht => hn.mpr (hi.tickled ht), ?_⟩
    · exact hi.idle.trans (Nat.add_right_cancel hsum).symm
    · rw [hn, hc]
      exact hi.covered
  | running | entered | waiting | woken => simp [TimerWakeup.step, hphase] at hs

theorem Inv.step {op : TimerWakeOp n} (hi : s.Inv) (hr : op.InRange)
    (hs : s.step op = some s') : s'.Inv := by
  cases op with
  | tick clock =>
    obtain ⟨hle, rfl⟩ := Option.ite_some_none_eq_some.mp hs
    refine ⟨hr, hi.sound.mono hle, hi.idle, hi.tickled, hi.covered.imp_right ?_⟩
    rintro ⟨i, w, hw, h⟩
    exact ⟨i, w, hw, h.imp_left fun h => h.trans (UInt64.le_iff_toNat_le.mp hle)⟩
  | addTimer addr ms cb recurring now =>
    obtain ⟨⟨hle, haddr⟩, rfl⟩ := Option.ite_some_none_eq_some.mp hs
    exact hi.setTimers (hi.sound.addTimer hi.clock cb recurring hle hr haddr)
      (hi.sound.ordered.addTimer_telling addr ms cb recurring now)
  | cancel id =>
    simp only [TimerWakeup.step, Option.ite_none_right_eq_some, Option.map_eq_some_iff] at hs
    obtain ⟨-, r, hr, rfl⟩ := hs
    exact hi.setTimers (hi.sound.cancel hr) (cancel_telling hr)
  | refresh id =>
    obtain ⟨hlt, rfl⟩ := Option.ite_some_none_eq_some.mp hs
    exact hi.setTimers (hi.sound.refresh hi.clock hlt) (hi.sound.refresh_telling hi.clock hlt)
  | reset id ms fromNow =>
    obtain ⟨hlt, rfl⟩ := Option.ite_some_none_eq_some.mp hs
    exact hi.setTimers (hi.sound.resetLocked hi.clock hlt fromNow hr)
      (hi.sound.ordered.resetLocked_telling hlt ms fromNow s.clock)
  | request =>
    obtain rfl := Option.some.inj hs
    exact .of_notified hi.clock hi.sound hi.idle (Or.inl (Nat.succ_pos _))
  | tickle =>
    obtain ⟨-, rfl⟩ := Option.ite_some_none_eq_some.mp hs
    exact hi.tickle _
  | enterIdle i =>
    obtain ⟨hphase, rfl⟩ := Option.ite_some_none_eq_some.mp hs
    have hsum := sum_setPhase s i .entered
    rw [hphase] at hsum
    refine .of_notified hi.clock hi.sound ?_ (.of_awake (i := i) ?_)
    · exact (congrArg (· + 1) hi.idle).trans hsum.symm
    · exact congrArg TimedPhase.isAwake (phase_setPhase s i .entered)
  | getNextTimer i => exact hi.getNextTimer hs
  | wait i => exact hi.wait hs
  | wake i =>
    cases hphase : s.phase i with
    | waiting wake =>
      simp only [TimerWakeup.step, hphase, Option.some.injEq] at hs
      subst hs
      have hsum := sum_setPhase s i .woken
      rw [hphase] at hsum
      refine .of_notified hi.clock hi.sound ?_ (.of_awake (i := i) ?_)
      · exact hi.idle.trans (Nat.add_right_cancel hsum).symm
      · rw [phase_setPhase]
        rfl
    | running | entered | computed | woken => simp [TimerWakeup.step, hphase] at hs
  | listExpiredCb i now probeAddr =>
    obtain ⟨⟨hphase, hle⟩, rfl⟩ := Option.ite_some_none_eq_some.mp hs
    exact .of_notified hi.clock (hi.sound.listExpiredCb hi.clock probeAddr hle) hi.idle
      (.of_awake (i := i) (congrArg TimedPhase.isAwake hphase))
  | drain i =>
    obtain ⟨hphase, rfl⟩ := Option.ite_some_none_eq_some.mp hs
    exact .of_notified hi.clock hi.sound hi.idle
      (.of_awake (i := i) (congrArg TimedPhase.isAwake hphase))
  | yield i =>
    obtain ⟨hphase, rfl⟩ := Option.ite_some_none_eq_some.mp hs
    have hsum := sum_setPhase s i .running
    rw [hphase] at hsum
    refine .of_notified hi.clock hi.sound ?_ (.of_awake (i := i) ?_)
    · exact (congrArg (· - 1) hi.idle).trans (Nat.sub_eq_of_eq_add hsum.symm)
    · exact congrArg TimedPhase.isAwake (phase_setPhase s i .running)

theorem Inv.not_missed (hi : s.Inv) : ¬ s.Missed := by
  rintro ⟨hblocked, htokens, hout, first, rest, hs, hearly⟩
  have hnot : ¬ s.Notified := by
    rintro (h | h | ⟨i, hawake⟩)
    · exact absurd hout h.ne'
    · exact absurd htokens h.ne'
    · obtain ⟨wake, hphase, -⟩ := hblocked i
      rw [hphase] at hawake
      cases hawake
  obtain ⟨i, w, hw, hle⟩ := hi.covered.resolve_left hnot
  obtain ⟨wake, hphase, hlater⟩ := hblocked i
  rw [hphase] at hw
  obtain rfl : wake = some w := hw
  rcases hle with hle | hnone
  · exact absurd (hlater w rfl) (Nat.not_lt.mpr hle)
  · have hfirst := hnone first (hs ▸ List.mem_cons_self)
    exact absurd (hearly i w hphase) (Nat.not_lt.mpr hfirst)

/-- In no run do all threads wait, unnotified, for longer than the earliest timer does. -/
theorem never_missed {start : UInt64} (hstart : start.toNat < 2 ^ 63) {ops : List (TimerWakeOp n)}
    (hops : ∀ op ∈ ops, op.InRange) {s : TimerWakeup n} (hr : run step (new start) ops = some s) :
    ¬ s.Missed := by
  have hinv : s.Inv := run_invariant Inv (fun _ _ _ hi hr hs => hi.step hr hs) (new_inv hstart)
    (meets_of_forall_mem hops _) hr
  exact hinv.not_missed

/-- Two threads wait for five seconds; a timer of ten milliseconds comes first, and is announced. -/
theorem never_missed_two_threads :
    let ops := [.enterIdle 0, .getNextTimer 0, .wait 0, .enterIdle 1, .getNextTimer 1, .wait 1,
      .tick 1500, .addTimer 8 10 (some 1) false 1400, .tickle]
    ∃ s, run step (new 1000 : TimerWakeup 1) ops = some s ∧ s.timers.timers = [0] ∧
      (∀ i, s.phase i = .waiting (some 6000)) ∧ s.tokens = 1 ∧ ¬ s.Missed := by
  intro ops
  have hr : (run step (new 1000 : TimerWakeup 1) ops).isSome = true := rfl
  obtain ⟨s, hs⟩ := Option.isSome_iff_exists.mp hr
  have hops : ∀ op ∈ ops, op.InRange := by
    simp [ops, TimerWakeOp.InRange]
  have hmissed := never_missed (by decide) hops hs
  cases hs
  exact ⟨_, rfl, rfl, by decide, rfl, hmissed⟩

end TimerWakeup

end ServerFramework
