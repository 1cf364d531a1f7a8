import Mathlib.Data.List.TakeWhile
import ServerFramework.Timer.Contract

/-! # Expiry under a shared clock

Threads read the clock before they take the lock in `ListExpiredCb`, so the reading that a
locked section works with may be older than the one stored by the section before it.
`DetectClockRollover` takes such a reading for a rollover if it is an hour behind, and, since
the subtraction wraps around, also if less than an hour has been stored.
-/

namespace ServerFramework.TimerManager

/-- Where a thread is in `ListExpiredCb`. -/
inductive Phase where
  | outside
  | hasRead (now : UInt64)
  | checked (now : UInt64)
  deriving DecidableEq, Repr

/-- The deadline of a timer whose callback is handed out, and the reading of that call. -/
structure Handed where
  next : UInt64
  now : UInt64
  deriving DecidableEq, Repr

/-- A manager used by threads that share a millisecond clock. -/
structure Clocked where
  recorded : Recorded
  clock : UInt64
  phase : ℕ → Phase
  handed : List Handed

/-- The manager is constructed at clock reading `start`. -/
def Clocked.init (start : UInt64) : Clocked where
  recorded := { manager := new start, history := [] }
  clock := start
  phase := fun _ => .outside
  handed := []

inductive ClockedOp where
  | tick (clock : UInt64)
  | read (thread : ℕ)
  | check (thread : ℕ)
  | list (thread : ℕ) (probeAddr : ℕ)
  | other (op : Op)
  deriving DecidableEq, Repr

/-- The clock reading an operation uses. -/
def Op.reading : Op → UInt64
  | .addTimer _ _ _ _ now => now
  | .cancel _ => 0
  | .refresh _ now => now
  | .reset _ _ _ now => now
  | .getNextTimer now => now
  | .listExpiredCb now _ => now

def Op.isListExpiredCb : Op → Bool
  | .listExpiredCb _ _ => true
  | _ => false

/-- The clock never goes back; `ListExpiredCb` is made in three steps: reading the clock, the
test under the read lock, and the section under the write lock. -/
def Clocked.step (s : Clocked) : ClockedOp → Option Clocked
  | .tick clock => if s.clock ≤ clock then some { s with clock := clock } else none
  | .read t =>
    if s.phase t = .outside then
      some { s with phase := Function.update s.phase t (.hasRead s.clock) }
    else none
  | .check t =>
    match s.phase t with
    | .hasRead now =>
      let phase := if s.recorded.manager.timers.isEmpty then .outside else .checked now
      some { s with phase := Function.update s.phase t phase }
    | _ => none
  | .list t probeAddr =>
    match s.phase t with
    | .checked now =>
      let cbs := (s.recorded.manager.listExpiredCb now probeAddr).1
      (s.recorded.step (.listExpiredCb now probeAddr)).map fun r =>
        { s with
          recorded := r
          phase := Function.update s.phase t .outside
          handed := s.handed ++ cbs.map fun c => ⟨(s.recorded.manager.timer c.1).next, now⟩ }
    | _ => none
  | .other op =>
    if op.isListExpiredCb = false ∧ op.reading ≤ s.clock then
      (s.recorded.step op).map fun r => { s with recorded := r }
    else none

/-- A reading that the manager does not take for a rollover: it is not behind the stored one, or
it is by at most an hour and the stored one is at least an hour. -/
def InStep (m : TimerManager) (now : UInt64) : Prop :=
  m.previousUseTime ≤ now ∨
    (3600000 ≤ m.previousUseTime.toNat ∧ m.previousUseTime.toNat ≤ now.toNat + 3600000)

/-- Every locked section of `ListExpiredCb` works with a reading in step, or has nothing to
expire early. -/
def Clocked.Steady (s : Clocked) : ClockedOp → Prop
  | .list t _ => ∀ now, s.phase t = .checked now → InStep s.recorded.manager now ∨
      ∀ id ∈ s.recorded.manager.timers, (s.recorded.manager.timer id).next ≤ now
  | _ => True

theorem detectClockRollover_iff (m : TimerManager) (now : UInt64) :
    (m.detectClockRollover now).1 = true ↔ ¬ InStep m now := by
  have hp := m.previousUseTime.toNat_lt
  have hn := now.toNat_lt
  simp only [detectClockRollover, InStep, Bool.and_eq_true, decide_eq_true_eq,
    UInt64.lt_iff_toNat_lt, UInt64.le_iff_toNat_le, UInt64.toNat_sub]
  have hour : (60 * 60 * 1000 : UInt64).toNat = 3600000 := rfl
  rw [hour]
  omega

@[simp] theorem timer_detectClockRollover (m : TimerManager) (now : UInt64) :
    (m.detectClockRollover now).2.timer = m.timer := rfl

@[simp] theorem timers_detectClockRollover (m : TimerManager) (now : UInt64) :
    (m.detectClockRollover now).2.timers = m.timers := rfl

theorem next_le_of_less {t : Timer} {now : UInt64} {probeAddr : ℕ}
    (h : Timer.comparator (some t) (some (Timer.probe probeAddr now)) = true) :
    t.next ≤ now := by
  simp only [Timer.comparator, Timer.probe] at h
  by_cases hgt : now < t.next
  · have hnot : ¬ t.next < now := UInt64.lt_asymm hgt
    simp [hnot, hgt] at h
  · exact UInt64.not_lt.mp hgt

/-- Without a rollover, only timers that are due are taken. -/
theorem splitExpired_due {m : TimerManager} {now : UInt64} {probeAddr : ℕ} {id : TimerId}
    (h : id ∈ (m.splitExpired false now probeAddr).1) : (m.timer id).next ≤ now := by
  simp only [splitExpired, Bool.false_eq_true, if_false, List.mem_append] at h
  rcases h with h | h
  · have hless := List.mem_takeWhile_imp h
    exact next_le_of_less hless
  · have hdue := List.mem_takeWhile_imp h
    exact UInt64.le_of_eq (of_decide_eq_true hdue)

/-- A call hands out only timers that are due exactly if its reading is in step or nothing in
the set is later. -/
theorem listExpiredCb_due_iff (m : TimerManager) (now : UInt64) (probeAddr : ℕ) :
    (∀ c ∈ (m.listExpiredCb now probeAddr).1, (m.timer c.1).next ≤ now) ↔
      InStep m now ∨ ∀ id ∈ m.timers, (m.timer id).next ≤ now := by
  cases hs : m.timers with
  | nil => simp [listExpiredCb, hs]
  | cons first rest =>
    cases hr : (m.detectClockRollover now).1 with
    | true =>
      have hin : ¬ InStep m now := (detectClockRollover_iff m now).mp hr
      have hl : (m.listExpiredCb now probeAddr).1 =
          m.timers.map fun id => (id, (m.timer id).cb) := by
        simp [listExpiredCb, hs, hr, splitExpired]
      simp [hl, hin, ← hs]
    | false =>
      have hin : InStep m now := by
        by_contra h
        rw [(detectClockRollover_iff m now).mpr h] at hr
        exact absurd hr (by simp)
      refine iff_of_true ?_ (Or.inl hin)
      intro c hc
      simp only [listExpiredCb, hs, hr] at hc
      split_ifs at hc with hlate
      · exact absurd hc List.not_mem_nil
      · obtain ⟨id, hid, rfl⟩ := List.mem_map.mp hc
        exact splitExpired_due hid

/-- No callback is handed out before its time. -/
def Clocked.NoneEarly (s : Clocked) : Prop := ∀ c ∈ s.handed, c.next ≤ c.now

/-- Only the write-locked section of `ListExpiredCb` hands out callbacks. -/
theorem Clocked.step_cases {s s' : Clocked} {op : ClockedOp} (h : s.step op = some s') :
    (s'.handed = s.handed ∧ s.Steady op) ∨
      ∃ t probeAddr now, op = .list t probeAddr ∧ s.phase t = .checked now ∧
        s'.handed = s.handed ++ (s.recorded.manager.listExpiredCb now probeAddr).1.map
          fun c => ⟨(s.recorded.manager.timer c.1).next, now⟩ := by
  cases op with
  | tick clock =>
    simp only [step, Option.ite_none_right_eq_some, Option.some.injEq] at h
    obtain ⟨-, rfl⟩ := h
    exact Or.inl ⟨rfl, trivial⟩
  | read t =>
    simp only [step, Option.ite_none_right_eq_some, Option.some.injEq] at h
    obtain ⟨-, rfl⟩ := h
    exact Or.inl ⟨rfl, trivial⟩
  | check t =>
    cases hp : s.phase t with
    | hasRead now =>
      simp only [step, hp, Option.some.injEq] at h
      subst h
      exact Or.inl ⟨rfl, trivial⟩
    | _ => simp [step, hp] at h
  | list t probeAddr =>
    cases hp : s.phase t with
    | checked now =>
      simp only [step, hp, Option.map_eq_some_iff] at h
      obtain ⟨r, -, rfl⟩ := h
      exact Or.inr ⟨t, probeAddr, now, rfl, hp, rfl⟩
    | _ => simp [step, hp] at h
  | other op =>
    simp only [step, Option.ite_none_right_eq_some, Option.map_eq_some_iff] at h
    obtain ⟨-, r, -, rfl⟩ := h
    exact Or.inl ⟨rfl, trivial⟩

theorem Clocked.step_noneEarly_iff {s s' : Clocked} {op : ClockedOp} (h : s.step op = some s') :
    s'.NoneEarly ↔ s.NoneEarly ∧ s.Steady op := by
  rcases step_cases h with ⟨he, hsteady⟩ | ⟨t, probeAddr, now, rfl, hp, he⟩
  · simp [NoneEarly, he, hsteady]
  · have hiff := listExpiredCb_due_iff s.recorded.manager now probeAddr
    simp only [NoneEarly, he, List.forall_mem_append, List.forall_mem_map, Steady, hp,
      Phase.checked.injEq, forall_eq', ← hiff]

/-- In every run, no callback is handed out early if and only if every write-locked section of
`ListExpiredCb` works with a reading in step or finds nothing later than it. -/
theorem none_early_iff_steady (start : UInt64) (ops : List ClockedOp) (s : Clocked)
    (hr : Transition.run Clocked.step (.init start) ops = some s) :
    s.NoneEarly ↔ Transition.Meets Clocked.step Clocked.Steady (.init start) ops := by
  have hinit : (Clocked.init start).NoneEarly := by simp [Clocked.NoneEarly, Clocked.init]
  rw [Transition.run_iff_meets (fun _ => True) Clocked.NoneEarly (fun _ _ _ _ _ => trivial)
    (fun _ _ _ _ => Clocked.step_noneEarly_iff) trivial hr]
  exact and_iff_right hinit

/-- One thread reads the clock, and another one reads it a millisecond later and takes the lock
first. One of two timers is due. -/
def staleReading (start : UInt64) : List ClockedOp :=
  [.other (.addTimer 64 5000 1 false start), .other (.addTimer 96 0 2 false start), .read 0,
    .tick (start + 1), .read 1, .check 0, .check 1, .list 1 128, .list 0 128]

/-- Two hours after boot this is harmless. -/
theorem none_early_iff_steady_two_hours : ∃ s,
    Transition.run Clocked.step (.init 7200000) (staleReading 7200000) = some s ∧
      s.handed = [⟨7200000, 7200001⟩] ∧
      Transition.Meets Clocked.step Clocked.Steady (.init 7200000) (staleReading 7200000) := by
  have hrun : (Transition.run Clocked.step (.init 7200000) (staleReading 7200000)).map
      Clocked.handed = some [⟨7200000, 7200001⟩] := by decide
  obtain ⟨s, hs, hh⟩ := Option.map_eq_some_iff.mp hrun
  refine ⟨s, hs, hh, (none_early_iff_steady 7200000 _ s hs).mp ?_⟩
  rw [Clocked.NoneEarly, hh]
  decide

/-- Shortly after boot, the timer due at 5100 is handed out at 100. -/
theorem handed_early_after_boot : ∃ s,
    Transition.run Clocked.step (.init 100) (staleReading 100) = some s ∧ ¬ s.NoneEarly := by
  have hrun : (Transition.run Clocked.step (.init 100) (staleReading 100)).map Clocked.handed =
      some [⟨100, 101⟩, ⟨5100, 100⟩] := by decide
  obtain ⟨s, hs, hh⟩ := Option.map_eq_some_iff.mp hrun
  refine ⟨s, hs, ?_⟩
  rw [Clocked.NoneEarly, hh]
  decide

end ServerFramework.TimerManager
