import Mathlib.Logic.Function.Basic
import ServerFramework.Lib.OrderedSet

/-! # Timers and the timer manager

A timer object is known by its index in the order of creation; its address only serves to
break ties between equal deadlines. `timers_` is a set of timers ordered by deadline and
address under the current deadlines. Each function below is one locked section; the clock
readings it works with are arguments. Arithmetic on `uint64_t` wraps around.
-/

namespace ServerFramework

abbrev TimerId := ℕ

/-- A non-empty `std::function<void()>`. -/
abbrev Callback := ℕ

/-- A timer object; an empty `cb` is the empty function. -/
structure Timer where
  addr : ℕ
  recurring : Bool
  ms : UInt64
  next : UInt64
  cb : Option Callback
  deriving DecidableEq, Repr

namespace Timer

/-- `Timer::Comparator` on shared pointers, `none` being the null pointer. -/
def comparator : Option Timer → Option Timer → Bool
  | none, none => false
  | none, some _ => true
  | some _, none => false
  | some lhs, some rhs =>
    if lhs.next < rhs.next then true
    else if rhs.next < lhs.next then false
    else decide (lhs.addr < rhs.addr)

/-- The constructor called by `AddTimer`, at clock reading `now`. -/
def new (addr : ℕ) (ms : UInt64) (cb : Option Callback) (recurring : Bool) (now : UInt64) :
    Timer :=
  { addr := addr, recurring := recurring, ms := ms, next := now + ms, cb := cb }

/-- The constructor of the probe that `ListExpiredCb` searches with. -/
def probe (addr : ℕ) (next : UInt64) : Timer :=
  { addr := addr, recurring := false, ms := 0, next := next, cb := none }

end Timer

/-- The timer manager together with the timer objects created so far. -/
structure TimerManager where
  timer : TimerId → Timer
  count : ℕ
  timers : List TimerId
  tickled : Bool
  previousUseTime : UInt64

namespace TimerManager

/-- The manager constructed at clock reading `now`. -/
def new (now : UInt64) : TimerManager where
  timer := fun _ => Timer.probe 0 0
  count := 0
  timers := []
  tickled := false
  previousUseTime := now

/-- The comparator of `timers_`, under the current deadlines. -/
def before (m : TimerManager) (a b : TimerId) : Bool :=
  Timer.comparator (some (m.timer a)) (some (m.timer b))

/-- Change a timer object. -/
def modify (m : TimerManager) (id : TimerId) (f : Timer → Timer) : TimerManager :=
  { m with timer := Function.update m.timer id (f (m.timer id)) }

def insert (m : TimerManager) (id : TimerId) : TimerManager :=
  { m with timers := OrderedSet.insert m.before id m.timers }

/-- `timers_.find` on the timer itself. -/
def find (m : TimerManager) (id : TimerId) : Option TimerId :=
  OrderedSet.find m.before id m.timers

def erase (m : TimerManager) (it : TimerId) : TimerManager :=
  { m with timers := m.timers.erase it }

/-- The private `AddTimer`. The result tells whether `OnTimerInsertedAtFront` is called after
the lock is released. -/
def addTimerLocked (m : TimerManager) (val : TimerId) : Bool × TimerManager :=
  let m := m.insert val
  let atFront := m.timers.head? = some val && !m.tickled
  (atFront, if atFront then { m with tickled := true } else m)

/-- `AddTimer` of a timer at the given address, constructed at clock reading `now`. -/
def addTimer (m : TimerManager) (addr : ℕ) (ms : UInt64) (cb : Option Callback)
    (recurring : Bool) (now : UInt64) : Bool × TimerManager :=
  let m' := { m with
    timer := Function.update m.timer m.count (Timer.new addr ms cb recurring now)
    count := m.count + 1 }
  m'.addTimerLocked m.count

/-- `Timer::Cancel`. Erasing the end iterator is undefined and has no result. -/
def cancel (m : TimerManager) (id : TimerId) : Option (Bool × TimerManager) :=
  if (m.timer id).cb.isSome then
    let m := m.modify id fun t => { t with cb := none }
    match m.find id with
    | none => none
    | some it => some (true, m.erase it)
  else some (false, m)

def refresh (m : TimerManager) (id : TimerId) (now : UInt64) : Bool × TimerManager :=
  if (m.timer id).cb.isNone then (false, m)
  else
    match m.find id with
    | none => (false, m)
    | some it =>
      let m := m.erase it
      let m := m.modify id fun t => { t with next := now + t.ms }
      (true, m.insert id)

/-- The locked section of `Timer::reset`. The second component tells whether
`OnTimerInsertedAtFront` is called after the lock is released. -/
def resetLocked (m : TimerManager) (id : TimerId) (ms : UInt64) (fromNow : Bool) (now : UInt64) :
    Bool × Bool × TimerManager :=
  if (m.timer id).cb.isNone then (false, false, m)
  else
    match m.find id with
    | none => (false, false, m)
    | some it =>
      let m := m.erase it
      let start := if fromNow then now else (m.timer id).next - (m.timer id).ms
      let m := m.modify id fun t => { t with ms := ms, next := start + ms }
      let (atFront, m) := m.addTimerLocked id
      (true, atFront, m)

/-- `Timer::reset`. Its first test is made before the lock is taken. -/
def reset (m : TimerManager) (id : TimerId) (ms : UInt64) (fromNow : Bool) (now : UInt64) :
    Bool × Bool × TimerManager :=
  if ms = (m.timer id).ms && !fromNow then (true, false, m) else m.resetLocked id ms fromNow now

/-- `GetNextTimer`, `~0` being the answer when there is no timer. -/
def getNextTimer (m : TimerManager) (now : UInt64) : UInt64 × TimerManager :=
  let answer :=
    match m.timers with
    | [] => ~~~(0 : UInt64)
    | next :: _ =>
      if now ≥ (m.timer next).next then 0 else (m.timer next).next - now
  (answer, { m with tickled := false })

def detectClockRollover (m : TimerManager) (now : UInt64) : Bool × TimerManager :=
  let rollover := now < m.previousUseTime && now < m.previousUseTime - 60 * 60 * 1000
  (rollover, { m with previousUseTime := now })

/-- The timers in front of the iterator that `ListExpiredCb` erases up to, and those from it
on: `lower_bound` of the probe, moved over the timers due exactly now. -/
def splitExpired (m : TimerManager) (rollover : Bool) (now : UInt64) (probeAddr : ℕ) :
    List TimerId × List TimerId :=
  if rollover then (m.timers, [])
  else
    let probe := Timer.probe probeAddr now
    let less := fun id => Timer.comparator (some (m.timer id)) (some probe)
    let due := fun id => decide ((m.timer id).next = now)
    let tail := m.timers.dropWhile less
    (m.timers.takeWhile less ++ tail.takeWhile due, tail.dropWhile due)

/-- The body of the loop of `ListExpiredCb` over the expired timers. -/
def fire (now : UInt64) (m : TimerManager) (id : TimerId) : TimerManager :=
  if (m.timer id).recurring then (m.modify id fun t => { t with next := now + t.ms }).insert id
  else m.modify id fun t => { t with cb := none }

/-- The write-locked section of `ListExpiredCb`. The callbacks are listed with the timer they
come from. -/
def listExpiredCb (m : TimerManager) (now : UInt64) (probeAddr : ℕ) :
    List (TimerId × Option Callback) × TimerManager :=
  match m.timers with
  | [] => ([], m)
  | first :: _ =>
    let (rollover, m) := m.detectClockRollover now
    if !rollover && (m.timer first).next > now then ([], m)
    else
      let (expired, left) := m.splitExpired rollover now probeAddr
      (expired.map fun id => (id, (m.timer id).cb),
        expired.foldl (fire now) { m with timers := left })

end TimerManager

end ServerFramework
