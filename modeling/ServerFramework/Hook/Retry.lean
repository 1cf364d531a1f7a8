import Mathlib.Data.List.Basic
import ServerFramework.Hook.DoIo
import ServerFramework.Hook.SockOpt

/-! # What hooked calls return

`do_io` repeats the underlying call until it answers something else than that it was interrupted or
would block. Whatever the timers do, at most one of the calls transfers anything, and it is the one
that is reported. A call that has waited several times can be timed out by the timer of an earlier
wait.
-/

namespace ServerFramework

/-- What the underlying call returns: a count, or `-1` and `errno`. -/
inductive SysResult where
  | done (n : ℕ)
  | failed (errno : ℕ)
  deriving DecidableEq, Repr

namespace SysResult

def eintr : SysResult := failed 4
def eagain : SysResult := failed 11

/-- The answers after which the call is made again. -/
def Repeated (a : SysResult) : Prop := a = eintr ∨ a = eagain

instance (a : SysResult) : Decidable a.Repeated := inferInstanceAs (Decidable (_ ∨ _))

end SysResult

/-- What the tests before the first call of `do_io` come to. -/
inductive IoMode where
  /-- The underlying call is made, and that is all. -/
  | plain
  | closed
  | managed (timeout : Option ℕ)
  deriving DecidableEq, Repr

def ioMode (hookEnable : Bool) (ctx : Option FdCtx) (timeoutSo : ℤ) : IoMode :=
  if !hookEnable then .plain
  else match ctx with
    | none => .plain
    | some ctx =>
      if ctx.isClosed then .closed
      else if !ctx.isSocket || ctx.userNonblock then .plain
      else .managed ((ctx.doIoTimeout timeoutSo).map UInt64.toNat)

/-- How `do_io` returns: with the last answer, with `EBADF`, with `ETIMEDOUT`, or after `AddEvent`
has failed. -/
inductive IoReturn where
  | answered (a : SysResult)
  | closed
  | timedOut
  | notAdded
  deriving DecidableEq, Repr

/-- A call of `do_io`, with the answers so far, the clock, when the timers of its waits were armed
and `timer->Cancel()` was called, and whose callback has set `cancelled` last. -/
structure IoCall where
  mode : IoMode
  io : DoIo
  answers : List SysResult
  clock : ℕ
  armedAt : ℕ → ℕ
  endedAt : ℕ → Option ℕ
  setBy : Option ℕ
  result : Option IoReturn

/-- The steps of `do_io`; `wait` is a step of its waits, their timers or the dispatch of events. -/
inductive IoOp where
  | tick (clock : ℕ)
  | refuse
  | call (a : SysResult)
  | skipTimer
  | wait (op : DoIoOp)
  deriving DecidableEq, Repr

namespace IoCall

open SysResult

def new (mode : IoMode) (clock : ℕ) : IoCall where
  mode := mode
  io := .new
  answers := []
  clock := clock
  armedAt := fun _ => 0
  endedAt := fun _ => none
  setBy := none
  result := none

/-- There is a timer for each wait. -/
def Timed (s : IoCall) : Prop := ∃ timeout, s.mode = .managed (some timeout)

instance (s : IoCall) : Decidable s.Timed :=
  match h : s.mode with
  | .managed (some timeout) => isTrue ⟨timeout, h⟩
  | .managed none => isFalse (by simp [Timed, h])
  | .plain => isFalse (by simp [Timed, h])
  | .closed => isFalse (by simp [Timed, h])

/-- A step of the wait after which `do_io` goes on as before. -/
def Quiet : DoIoOp → Prop
  | .call _ | .cancelTimer | .check => False
  | _ => True

/-- The record of a step of the wait. -/
def record (s : IoCall) (io : DoIo) : DoIoOp → IoCall
  | .addConditionTimer =>
    { s with io := io, armedAt := Function.update s.armedAt s.io.wait s.clock }
  | .set wait => { s with io := io, setBy := some wait }
  | .cancelTimer =>
    { s with
      io := io
      endedAt := Function.update s.endedAt s.io.wait (some s.clock)
      result := if s.io.phase = .failing then some .notAdded else s.result }
  | .check =>
    { s with io := io, result := if s.io.cancelled ≠ 0 then some .timedOut else s.result }
  | _ => { s with io := io }

/-- The call is made in its own step, and timers are armed only if there is a timeout. -/
def Allows (s : IoCall) : DoIoOp → Prop
  | .call _ => False
  | .addConditionTimer => s.Timed
  | _ => True

instance (s : IoCall) (op : DoIoOp) : Decidable (s.Allows op) := by
  cases op <;> simp only [Allows] <;> infer_instance

def step (s : IoCall) : IoOp → Option IoCall
  | .tick clock => if s.clock ≤ clock then some { s with clock := clock } else none
  | .refuse =>
    if s.mode = .closed ∧ s.io.phase = .trying then
      some { s with io := { s.io with phase := .returned }, result := some .closed }
    else none
  | .call a =>
    match s.mode with
    | .closed => none
    | .plain =>
      (s.io.step (.call false)).map fun io =>
        { s with io := io, answers := s.answers ++ [a], result := some (.answered a) }
    | .managed _ =>
      if a = eintr then
        if s.io.phase = .trying then some { s with answers := s.answers ++ [a] } else none
      else
        (s.io.step (.call (a = eagain))).map fun io =>
          { s with
            io := io
            answers := s.answers ++ [a]
            result := if a = eagain then none else some (.answered a) }
  | .skipTimer =>
    if s.mode = .managed none ∧ s.io.phase = .arming then
      some { s with io := { s.io with phase := .adding } }
    else none
  | .wait op => if s.Allows op then (s.io.step op).map fun io => s.record io op else none

/-- The last call would have blocked, and none has transferred anything. -/
structure Blocked (s : IoCall) : Prop where
  repeated : ∀ a ∈ s.answers, a.Repeated
  last : s.answers.getLast? = some eagain

/-- The timer of a wait is due. -/
def Due (s : IoCall) (wait : ℕ) : Prop :=
  ∃ timeout, s.mode = .managed (some timeout) ∧ s.armedAt wait + timeout ≤ s.clock

instance (s : IoCall) (wait : ℕ) : Decidable (s.Due wait) :=
  match h : s.mode with
  | .managed (some timeout) =>
    decidable_of_iff (s.armedAt wait + timeout ≤ s.clock) (by simp [Due, h])
  | .managed none => isFalse (by simp [Due, h])
  | .plain => isFalse (by simp [Due, h])
  | .closed => isFalse (by simp [Due, h])

/-- The wait has lasted for the timeout, from the arming of its timer to `timer->Cancel()`. -/
def Lasted (s : IoCall) (wait : ℕ) : Prop :=
  ∃ timeout, s.mode = .managed (some timeout) ∧
    s.armedAt wait + timeout ≤ (s.endedAt wait).getD s.clock

instance (s : IoCall) (wait : ℕ) : Decidable (s.Lasted wait) :=
  match h : s.mode with
  | .managed (some timeout) =>
    decidable_of_iff (s.armedAt wait + timeout ≤ (s.endedAt wait).getD s.clock)
      (by simp [Lasted, h])
  | .managed none => isFalse (by simp [Lasted, h])
  | .plain => isFalse (by simp [Lasted, h])
  | .closed => isFalse (by simp [Lasted, h])

/-- What has been returned is justified by the answers and the clock. -/
def Justified (s : IoCall) : IoReturn → Prop
  | .answered a =>
    (s.mode = .plain ∧ s.answers = [a]) ∨
      ((∃ timeout, s.mode = .managed timeout) ∧ ¬ a.Repeated ∧
        ∃ before, s.answers = before ++ [a] ∧ ∀ b ∈ before, b.Repeated)
  | .closed => s.mode = .closed ∧ s.answers = []
  | .timedOut => s.Blocked ∧ ∃ wait ≤ s.io.wait, s.Lasted wait
  | .notAdded => (∃ timeout, s.mode = .managed timeout) ∧ s.Blocked

/-- Timers are handed out when they are due. -/
def Punctual (s : IoCall) : IoOp → Prop
  | .wait (.hand wait) => s.Due wait
  | _ => True

instance (s : IoCall) (op : IoOp) : Decidable (s.Punctual op) := by
  unfold Punctual
  split <;> infer_instance

/-- When a wait arms its timer, nothing of the timers of earlier waits is to come. -/
def Settled (s : IoCall) : IoOp → Prop
  | .wait .addConditionTimer => s.io.cancelled = 0 ∧
      ∀ wait < s.io.wait, s.io.timer wait ≠ .handed ∧ s.io.timer wait ≠ .setting
  | _ => True

instance (s : IoCall) (op : IoOp) : Decidable (s.Settled op) := by
  unfold Settled
  split <;> infer_instance

/-- What has been answered agrees with where the fiber is. -/
structure Told (s : IoCall) : Prop where
  returned : s.result.isSome ↔ s.io.phase = .returned
  started : s.io.phase ≠ .trying → s.io.phase ≠ .returned →
    (∃ timeout, s.mode = .managed timeout) ∧ s.Blocked
  before : s.result = none → (∀ a ∈ s.answers, a.Repeated) ∧
    ((∃ timeout, s.mode = .managed timeout) ∨ s.answers = [])
  justified : ∀ r, s.result = some r → s.Justified r

/-- The wait has come to where its timer is armed. -/
def Armed (io : DoIo) (wait : ℕ) : Prop :=
  wait < io.wait ∨ (wait = io.wait ∧ io.phase ≠ .trying ∧ io.phase ≠ .arming)

/-- The wait has come to behind `timer->Cancel()`. -/
def Past (io : DoIo) (wait : ℕ) : Prop :=
  wait < io.wait ∨ (wait = io.wait ∧ (io.phase = .checking ∨ io.phase = .returned))

/-- The timer of a wait has been handed out and its callback is not through. -/
def Running (s : IoCall) (wait : ℕ) : Prop :=
  s.io.timer wait = .handed ∨ s.io.timer wait = .setting ∨ s.io.timer wait = .cancelling

/-- What is known of the timers. -/
structure Timers (s : IoCall) : Prop where
  used : ∀ wait, s.io.timer wait ≠ .absent → Armed s.io wait
  lasted : ∀ wait, s.Running wait → s.Lasted wait
  set : ∀ wait, s.setBy = some wait →
    (s.io.timer wait = .cancelling ∨ s.io.timer wait = .finished) ∧ s.Lasted wait
  cancelled : s.io.cancelled ≠ 0 → s.setBy.isSome
  past : ∀ wait, s.endedAt wait ≠ none → Past s.io wait
  unended : ∀ wait, s.io.timer wait = .armed → s.endedAt wait = none

variable {s s' : IoCall} {clock : ℕ} {mode : IoMode}

theorem new_told : (new mode clock).Told where
  returned := by simp [new, DoIo.new]
  started := by simp [new, DoIo.new]
  before := by simp [new]
  justified := by simp [new]

theorem new_timers : (new mode clock).Timers where
  used := by simp [new, DoIo.new]
  lasted := by simp [new, DoIo.new, Running]
  set := by simp [new]
  cancelled := by simp [new, DoIo.new]
  past := by simp [new]
  unended := by simp [new]

/-- What the clock and the timers do later does not take a justification away. -/
theorem Justified.mono {r : IoReturn} (h : s.Justified r) (hmode : s'.mode = s.mode)
    (hanswers : s'.answers = s.answers) (hwait : s'.io.wait = s.io.wait)
    (hlasted : ∀ wait, s.Lasted wait → s'.Lasted wait) : s'.Justified r := by
  cases r with
  | answered a => simpa [Justified, hmode, hanswers] using h
  | closed => simpa [Justified, hmode, hanswers] using h
  | timedOut =>
    obtain ⟨⟨hrep, hlast⟩, wait, hle, hl⟩ := h
    exact ⟨⟨by rwa [hanswers], by rwa [hanswers]⟩, wait, by rwa [hwait], hlasted wait hl⟩
  | notAdded =>
    obtain ⟨hm, hrep, hlast⟩ := h
    exact ⟨by rwa [hmode], by rwa [hanswers], by rwa [hanswers]⟩

/-- A step that is neither an answer nor a return. -/
theorem Told.keep (h : s.Told) (hmode : s'.mode = s.mode) (hanswers : s'.answers = s.answers)
    (hresult : s'.result = s.result)
    (hlater : s.result ≠ none → s'.io.wait = s.io.wait ∧ ∀ wait, s.Lasted wait → s'.Lasted wait)
    (hphase : s'.io.phase = .returned ↔ s.io.phase = .returned)
    (hstarted : s'.io.phase ≠ .trying → s.io.phase ≠ .trying) : s'.Told := by
  refine ⟨by rw [hresult, hphase, h.returned], ?_, ?_, ?_⟩
  · intro ht hr
    obtain ⟨hm, hrep, hlast⟩ := h.started (hstarted ht) (mt hphase.mpr hr)
    exact ⟨by rwa [hmode], by rwa [hanswers], by rwa [hanswers]⟩
  · rw [hresult, hmode, hanswers]
    exact h.before
  · intro r hr
    rw [hresult] at hr
    obtain ⟨hwait, hlasted⟩ := hlater (by simp [hr])
    exact (h.justified r hr).mono hmode hanswers hwait hlasted

theorem Lasted.mono {wait : ℕ} (h : s.Lasted wait) (hmode : s'.mode = s.mode)
    (harmed : s'.armedAt wait = s.armedAt wait)
    (hended : (s.endedAt wait).getD s.clock ≤ (s'.endedAt wait).getD s'.clock) :
    s'.Lasted wait := by
  obtain ⟨timeout, hm, hle⟩ := h
  exact ⟨timeout, hmode.trans hm, by omega⟩

theorem Past.keep {io io' : DoIo} {wait : ℕ} (h : Past io wait) (hwait : io'.wait = io.wait)
    (hphase : io.phase = .checking ∨ io.phase = .returned →
      io'.phase = .checking ∨ io'.phase = .returned) : Past io' wait := by
  rw [Past, hwait]
  exact h.imp_right fun hw => ⟨hw.1, hphase hw.2⟩

theorem endedAt_le {wait : ℕ} (hended : s'.endedAt wait = s.endedAt wait)
    (hclock : s.clock ≤ s'.clock) :
    (s.endedAt wait).getD s.clock ≤ (s'.endedAt wait).getD s'.clock := by
  rw [hended]
  cases s.endedAt wait with
  | none => exact hclock
  | some t => exact le_rfl

/-- A wait that goes on has lasted for the timeout when its timer is due. -/
theorem Due.lasted {wait : ℕ} (h : s.Due wait) (hended : s.endedAt wait = none) :
    s.Lasted wait := by
  obtain ⟨timeout, hm, hle⟩ := h
  exact ⟨timeout, hm, by rwa [hended]⟩

/-- Before `do_io` returns, it has no result. -/
theorem Told.result_eq_none (h : s.Told) (hp : s.io.phase ≠ .returned) : s.result = none := by
  rw [← Option.not_isSome_iff_eq_none, h.returned]
  exact hp

theorem Told.of_returned {r : IoReturn} (hresult : s.result = some r)
    (hphase : s.io.phase = .returned) (hj : s.Justified r) : s.Told where
  returned := by simp [hresult, hphase]
  started := fun _ hr => absurd hphase hr
  before := by simp [hresult]
  justified := by
    intro r' hr
    obtain rfl : r = r' := by simpa [hresult] using hr
    exact hj

theorem Told.call (h : s.Told) {a : SysResult} (hs : s.step (.call a) = some s') : s'.Told := by
  simp only [step] at hs
  cases hm : s.mode with
  | closed => simp [hm] at hs
  | plain =>
    simp only [hm, Option.map_eq_some_iff] at hs
    obtain ⟨io, hio, rfl⟩ := hs
    obtain ⟨hp, rfl⟩ := Option.ite_some_none_eq_some.mp hio
    have hnil : s.answers = [] := by
      have := (h.before (h.result_eq_none (by simp [hp]))).2
      simpa [hm] using this
    exact Told.of_returned rfl rfl (.inl ⟨rfl, by simp [hnil]⟩)
  | managed timeout =>
    simp only [hm] at hs
    by_cases heintr : a = eintr
    · rw [if_pos heintr] at hs
      obtain ⟨hp, rfl⟩ := Option.ite_some_none_eq_some.mp hs
      have hnone := h.result_eq_none (by simp [hp])
      refine ⟨by simp [hnone, hp], fun ht => absurd hp ht, fun _ => ⟨?_, .inl ⟨timeout, rfl⟩⟩, ?_⟩
      · simp only [List.forall_mem_append, List.forall_mem_singleton]
        exact ⟨(h.before hnone).1, .inl heintr⟩
      · simp [hnone]
    · rw [if_neg heintr, Option.map_eq_some_iff] at hs
      obtain ⟨io, hio, rfl⟩ := hs
      obtain ⟨hp, rfl⟩ := Option.ite_some_none_eq_some.mp hio
      have hbefore := (h.before (h.result_eq_none (by simp [hp]))).1
      by_cases heagain : a = eagain
      · have hall : ∀ b ∈ s.answers ++ [a], b.Repeated := by
          simp only [List.forall_mem_append, List.forall_mem_singleton]
          exact ⟨hbefore, .inr heagain⟩
        refine ⟨by simp [heagain], fun _ _ => ⟨⟨timeout, rfl⟩, hall, by simp [heagain]⟩,
          fun _ => ⟨hall, .inl ⟨timeout, rfl⟩⟩, by simp [heagain]⟩
      · have hnot : ¬ a.Repeated := not_or.mpr ⟨heintr, heagain⟩
        exact Told.of_returned (if_neg heagain) (by simp [heagain])
          (Or.inr ⟨⟨timeout, rfl⟩, hnot, s.answers, rfl, hbefore⟩)

theorem quiet_step {io io' : DoIo} {op : DoIoOp} (hq : Quiet op) (hs : io.step op = some io') :
    io'.wait = io.wait ∧ (io'.phase = .returned ↔ io.phase = .returned) ∧
      (io'.phase ≠ .trying → io.phase ≠ .trying) := by
  cases op with
  | call again => cases hq
  | cancelTimer => cases hq
  | check => cases hq
  | addConditionTimer =>
    obtain ⟨hp, rfl⟩ := Option.ite_some_none_eq_some.mp hs
    simp [DoIo.setTimer, hp]
  | addEvent ok =>
    obtain ⟨hp, rfl⟩ := Option.ite_some_none_eq_some.mp hs
    cases ok <;> simp [hp]
  | yield =>
    obtain ⟨hp, rfl⟩ := Option.ite_some_none_eq_some.mp hs
    simp [hp]
  | resume =>
    obtain ⟨⟨hp, -⟩, rfl⟩ := Option.ite_some_none_eq_some.mp hs
    simp [hp]
  | hand wait | test wait | set wait | deliver =>
    obtain ⟨-, rfl⟩ := Option.ite_some_none_eq_some.mp hs
    exact ⟨rfl, Iff.rfl, id⟩
  | cancelEvent wait ok =>
    obtain ⟨-, rfl⟩ := Option.ite_some_none_eq_some.mp hs
    split_ifs <;> exact ⟨rfl, Iff.rfl, id⟩

theorem record_quiet {op : DoIoOp} (hq : Quiet op) (io : DoIo) :
    (s.record io op).mode = s.mode ∧ (s.record io op).answers = s.answers ∧
      (s.record io op).result = s.result ∧ (s.record io op).io = io := by
  cases op <;> first | exact ⟨rfl, rfl, rfl, rfl⟩ | exact hq.elim

theorem Told.wait (h : s.Told) (ht : s.Timers) {op : DoIoOp} {io : DoIo}
    (hs : s.io.step op = some io) (hcall : ∀ again, op ≠ .call again) : (s.record io op).Told := by
  by_cases hq : Quiet op
  · obtain ⟨hwait, hphase, hstarted⟩ := quiet_step hq hs
    obtain ⟨hmode, hanswers, hresult, hio⟩ := record_quiet (s := s) hq io
    refine h.keep hmode hanswers hresult ?_ (by rwa [hio]) (by rwa [hio])
    intro hne
    have hp : s.io.phase = .returned := h.returned.mp (Option.isSome_iff_ne_none.mpr hne)
    refine ⟨by rw [hio, hwait], fun wait hl => ?_⟩
    cases op with
    | addConditionTimer =>
      obtain ⟨harming, -⟩ := Option.ite_some_none_eq_some.mp hs
      rw [harming] at hp
      cases hp
    | call again => exact hq.elim
    | cancelTimer => exact hq.elim
    | check => exact hq.elim
    | _ => exact hl
  · cases op with
    | call again => exact absurd rfl (hcall again)
    | cancelTimer =>
      simp only [DoIo.step] at hs
      split_ifs at hs with hp hp'
      · obtain rfl := Option.some.inj hs
        have hnone := h.result_eq_none (by simp [hp])
        refine h.keep rfl rfl (by simp [record, hp]) (absurd hnone) ?_ ?_ <;> simp [record, hp]
      · obtain rfl := Option.some.inj hs
        obtain ⟨hm, hblocked⟩ := h.started (by simp [hp']) (by simp [hp'])
        exact Told.of_returned (if_pos hp') rfl ⟨hm, hblocked.repeated, hblocked.last⟩
    | check =>
      obtain ⟨hp, rfl⟩ := Option.ite_some_none_eq_some.mp hs
      have hnone := h.result_eq_none (by simp [hp])
      obtain ⟨-, hblocked⟩ := h.started (by simp [hp]) (by simp [hp])
      by_cases hc : s.io.cancelled = 0
      · refine h.keep rfl rfl (by simp [record, hc]) (absurd hnone) ?_ ?_ <;>
          simp [record, hc, hp]
      · obtain ⟨wait, hwait⟩ := Option.isSome_iff_exists.mp (ht.cancelled hc)
        obtain ⟨hset, hlasted⟩ := ht.set wait hwait
        have hle : wait ≤ s.io.wait := by
          rcases ht.used wait (by rcases hset with h | h <;> simp [h]) with hlt | ⟨he, -⟩
          · exact hlt.le
          · exact he.le
        refine Told.of_returned (if_pos hc) (by simp [record, hc]) ?_
        refine ⟨⟨hblocked.repeated, hblocked.last⟩, wait, ?_, hlasted⟩
        simpa [record, hc] using hle
    | _ => exact absurd trivial hq

theorem Told.step (h : s.Told) (ht : s.Timers) {op : IoOp} (hs : s.step op = some s') :
    s'.Told := by
  cases op with
  | tick clock =>
    obtain ⟨hle, rfl⟩ := Option.ite_some_none_eq_some.mp hs
    have hlater : ∀ wait, s.Lasted wait → ({ s with clock := clock } : IoCall).Lasted wait :=
      fun _ hl => hl.mono rfl rfl (endedAt_le rfl hle)
    exact h.keep rfl rfl rfl (fun _ => ⟨rfl, hlater⟩) Iff.rfl id
  | refuse =>
    obtain ⟨⟨hm, hp⟩, rfl⟩ := Option.ite_some_none_eq_some.mp hs
    have hbefore := (h.before (h.result_eq_none (by simp [hp]))).2
    exact Told.of_returned rfl rfl ⟨hm, by simpa [hm] using hbefore⟩
  | call a => exact h.call hs
  | skipTimer =>
    obtain ⟨⟨-, hp⟩, rfl⟩ := Option.ite_some_none_eq_some.mp hs
    exact h.keep rfl rfl rfl (fun _ => ⟨rfl, fun _ hl => hl⟩) (by simp [hp]) (by simp [hp])
  | wait op =>
    simp only [IoCall.step, Option.ite_none_right_eq_some, Option.map_eq_some_iff] at hs
    obtain ⟨hallows, io, hio, rfl⟩ := hs
    refine h.wait ht hio ?_
    rintro again rfl
    exact hallows

/-- A step that leaves the timers alone. -/
theorem Timers.keep (h : s.Timers) (hmode : s'.mode = s.mode) (harmed : s'.armedAt = s.armedAt)
    (hended : s'.endedAt = s.endedAt) (hset : s'.setBy = s.setBy) (hclock : s.clock ≤ s'.clock)
    (htimer : s'.io.timer = s.io.timer) (hcancelled : s'.io.cancelled = s.io.cancelled)
    (hused : ∀ wait, Armed s.io wait → Armed s'.io wait)
    (hpast : ∀ wait, Past s.io wait → Past s'.io wait) : s'.Timers := by
  have hlasted : ∀ wait, s.Lasted wait → s'.Lasted wait := fun wait hl =>
    hl.mono hmode (congrFun harmed wait) (endedAt_le (congrFun hended wait) hclock)
  refine ⟨?_, ?_, ?_, by rw [hcancelled, hset]; exact h.cancelled, ?_, ?_⟩
  · intro wait hne
    rw [htimer] at hne
    exact hused wait (h.used wait hne)
  · intro wait hrun
    rw [Running, htimer] at hrun
    exact hlasted wait (h.lasted wait hrun)
  · intro wait hw
    rw [htimer]
    rw [hset] at hw
    exact ⟨(h.set wait hw).1, hlasted wait (h.set wait hw).2⟩
  · intro wait hne
    rw [hended] at hne
    exact hpast wait (h.past wait hne)
  · rw [htimer, hended]
    exact h.unended

/-- A step of the timer of one wait. -/
theorem Timers.setTimer (h : s.Timers) {wait : ℕ} {t : TimeoutPhase} {io : DoIo}
    (htimer : io.timer = Function.update s.io.timer wait t)
    (hcancelled : io.cancelled = s.io.cancelled)
    (hused : ∀ w, Armed s.io w → Armed io w) (hpast : ∀ w, Past s.io w → Past io w)
    (hne : s.io.timer wait ≠ .absent) (ht : t ≠ .armed)
    (hlasted : t = .handed ∨ t = .setting ∨ t = .cancelling → s.Lasted wait)
    (hset : s.setBy = some wait → t = .cancelling ∨ t = .finished) :
    ({ s with io := io } : IoCall).Timers := by
  refine ⟨?_, ?_, ?_, by simpa [hcancelled] using h.cancelled,
    fun w hw => hpast w (h.past w hw), ?_⟩
  · intro w hw
    apply hused
    by_cases he : w = wait
    · exact he ▸ h.used wait hne
    · refine h.used w ?_
      simpa [htimer, Function.update_of_ne he] using hw
  · intro w hrun
    simp only [Running, htimer] at hrun
    by_cases he : w = wait
    · subst he
      rw [Function.update_self] at hrun
      exact hlasted hrun
    · rw [Function.update_of_ne he] at hrun
      exact h.lasted w hrun
  · intro w hw
    simp only [htimer]
    by_cases he : w = wait
    · subst he
      rw [Function.update_self]
      exact ⟨hset hw, (h.set w hw).2⟩
    · rw [Function.update_of_ne he]
      exact h.set w hw
  · intro w hw
    simp only [htimer] at hw
    by_cases he : w = wait
    · rw [he, Function.update_self] at hw
      exact absurd hw ht
    · rw [Function.update_of_ne he] at hw
      exact h.unended w hw

/-- The wait is over once its timer cannot be handed out any more. -/
theorem Timers.endWait (h : s.Timers) (hphase : s.io.phase = .checking ∨ s.io.phase = .returned)
    (harmed : s.io.timer s.io.wait ≠ .armed) (hopen : s.endedAt s.io.wait = none) :
    ({ s with endedAt := Function.update s.endedAt s.io.wait (some s.clock) } : IoCall).Timers := by
  have hlasted : ∀ w, s.Lasted w → Lasted
      { s with endedAt := Function.update s.endedAt s.io.wait (some s.clock) } w := by
    intro w hl
    refine hl.mono rfl rfl ?_
    by_cases he : w = s.io.wait
    · simp [he, hopen]
    · simp [Function.update_of_ne he]
  refine ⟨h.used, fun w hw => hlasted w (h.lasted w hw),
    fun w hw => ⟨(h.set w hw).1, hlasted w (h.set w hw).2⟩, h.cancelled, ?_, ?_⟩
  · intro w hw
    by_cases he : w = s.io.wait
    · exact .inr ⟨he, hphase⟩
    · exact h.past w (by simpa [Function.update_of_ne he] using hw)
  · intro w hw
    have he : w ≠ s.io.wait := by
      rintro rfl
      exact harmed hw
    simpa [Function.update_of_ne he] using h.unended w hw

/-- Before `timer->Cancel()` the wait is not over. -/
theorem Timers.over_eq_none (h : s.Timers) (hchecking : s.io.phase ≠ .checking)
    (hreturned : s.io.phase ≠ .returned) : s.endedAt s.io.wait = none := by
  by_contra hne
  rcases h.past _ hne with hlt | ⟨-, hp | hp⟩
  · exact lt_irrefl _ hlt
  · exact hchecking hp
  · exact hreturned hp

theorem Timers.addConditionTimer (h : s.Timers) {io : DoIo}
    (hs : s.io.step .addConditionTimer = some io) : (s.record io .addConditionTimer).Timers := by
  obtain ⟨hp, rfl⟩ := Option.ite_some_none_eq_some.mp hs
  have habsent : s.io.timer s.io.wait = .absent := by
    by_contra hne
    rcases h.used _ hne with hlt | ⟨-, -, harming⟩
    · exact absurd hlt (lt_irrefl _)
    · exact harming hp
  have hused : ∀ w, Armed s.io w →
      Armed { s.io.setTimer s.io.wait .armed with phase := .adding } w := by
    rintro w (hlt | ⟨he, -⟩)
    · exact .inl hlt
    · exact .inr ⟨he, by simp⟩
  have hlasted : ∀ w ≠ s.io.wait, s.Lasted w →
      (s.record { s.io.setTimer s.io.wait .armed with phase := .adding }
        .addConditionTimer).Lasted w := by
    intro w hne hl
    exact hl.mono rfl (Function.update_of_ne hne _ _) le_rfl
  refine ⟨?_, ?_, ?_, h.cancelled, ?_, ?_⟩
  · intro w hw
    by_cases he : w = s.io.wait
    · exact .inr ⟨he, by simp [record]⟩
    · refine hused w (h.used w ?_)
      simpa [record, DoIo.timer_setTimer, he] using hw
  · intro w hrun
    have he : w ≠ s.io.wait := by
      rintro rfl
      simp [Running, record, DoIo.timer_setTimer] at hrun
    refine hlasted w he (h.lasted w ?_)
    simpa [Running, record, DoIo.timer_setTimer, he] using hrun
  · intro w hw
    obtain ⟨hset, hl⟩ := h.set w hw
    have he : w ≠ s.io.wait := by
      rintro rfl
      simp [habsent] at hset
    exact ⟨by simpa [record, DoIo.timer_setTimer, he] using hset, hlasted w he hl⟩
  · intro w hw
    rcases h.past w hw with hlt | ⟨-, hp' | hp'⟩
    · exact .inl hlt
    · simp [hp] at hp'
    · simp [hp] at hp'
  · intro w hw
    by_cases he : w = s.io.wait
    · exact he ▸ h.over_eq_none (by simp [hp]) (by simp [hp])
    · exact h.unended w (by simpa [record, DoIo.timer_setTimer, he] using hw)

theorem Timers.cancelTimer (h : s.Timers) {phase : WaitPhase}
    (hphase : phase = .checking ∨ phase = .returned) (hchecking : s.io.phase ≠ .checking)
    (hreturned : s.io.phase ≠ .returned) :
    ({ s with
      io := { s.io.cancelTimer with phase := phase }
      endedAt := Function.update s.endedAt s.io.wait (some s.clock) } : IoCall).Timers := by
  have hused : ∀ w, Armed s.io w → Armed { s.io with phase := phase } w := by
    rintro w (hlt | ⟨he, -⟩)
    · exact .inl hlt
    · exact .inr ⟨he, by rcases hphase with rfl | rfl <;> simp⟩
  have hpast : ∀ w, Past s.io w → Past { s.io with phase := phase } w :=
    fun w => Or.imp_right fun hw => ⟨hw.1, hphase⟩
  have hopen := h.over_eq_none hchecking hreturned
  unfold DoIo.cancelTimer
  split_ifs with harmed
  · have hcancelled : ({ s with
        io := { s.io.setTimer s.io.wait .cancelled with phase := phase } } : IoCall).Timers :=
      h.setTimer rfl rfl hused hpast (by simp [harmed]) (by simp) (by simp)
        fun hw => by simpa [harmed] using (h.set _ hw).1
    exact hcancelled.endWait hphase (by simp [DoIo.setTimer]) hopen
  · have hkept : ({ s with io := { s.io with phase := phase } } : IoCall).Timers :=
      h.keep rfl rfl rfl rfl le_rfl rfl rfl hused hpast
    exact hkept.endWait hphase harmed hopen

theorem Timers.wait (h : s.Timers) {op : DoIoOp} {io : DoIo} (hs : s.io.step op = some io)
    (hpunctual : s.Punctual (.wait op)) : (s.record io op).Timers := by
  cases op with
  | call again =>
    obtain ⟨hp, rfl⟩ := Option.ite_some_none_eq_some.mp hs
    refine h.keep rfl rfl rfl rfl le_rfl rfl rfl ?_ fun w hw => hw.keep rfl (by simp [hp])
    rintro w (hlt | ⟨-, htrying, -⟩)
    · exact .inl hlt
    · exact absurd hp htrying
  | addConditionTimer => exact h.addConditionTimer hs
  | addEvent ok =>
    obtain ⟨hp, rfl⟩ := Option.ite_some_none_eq_some.mp hs
    cases ok <;> refine h.keep rfl rfl rfl rfl le_rfl rfl rfl ?_
      fun w hw => hw.keep rfl (by simp [hp]) <;>
      exact fun w hw => hw.imp id fun hw => ⟨hw.1, by simp [record]⟩
  | yield =>
    obtain ⟨hp, rfl⟩ := Option.ite_some_none_eq_some.mp hs
    refine h.keep rfl rfl rfl rfl le_rfl rfl rfl ?_ fun w hw => hw.keep rfl (by simp [hp])
    exact fun w hw => hw.imp id fun hw => ⟨hw.1, by simp [record]⟩
  | resume =>
    obtain ⟨⟨hp, -⟩, rfl⟩ := Option.ite_some_none_eq_some.mp hs
    refine h.keep rfl rfl rfl rfl le_rfl rfl rfl ?_ fun w hw => hw.keep rfl (by simp [hp])
    exact fun w hw => hw.imp id fun hw => ⟨hw.1, by simp [record]⟩
  | deliver =>
    obtain ⟨-, rfl⟩ := Option.ite_some_none_eq_some.mp hs
    exact h.keep rfl rfl rfl rfl le_rfl rfl rfl (fun w hw => hw) fun w hw => hw
  | cancelTimer =>
    simp only [DoIo.step] at hs
    split_ifs at hs with hp hp'
    · obtain rfl := Option.some.inj hs
      have hcancel := h.cancelTimer (.inl rfl) (by simp [hp]) (by simp [hp])
      exact hcancel.keep rfl rfl rfl rfl le_rfl rfl rfl (fun w hw => hw) fun w hw => hw
    · obtain rfl := Option.some.inj hs
      have hcancel := h.cancelTimer (.inr rfl) (by simp [hp']) (by simp [hp'])
      exact hcancel.keep rfl rfl rfl rfl le_rfl rfl rfl (fun w hw => hw) fun w hw => hw
  | check =>
    obtain ⟨hp, rfl⟩ := Option.ite_some_none_eq_some.mp hs
    by_cases hc : s.io.cancelled = 0
    · have hlater : ∀ w, w < s.io.wait ∨ w = s.io.wait → w < s.io.wait + 1 := by
        intro w hw
        omega
      refine h.keep rfl rfl rfl rfl le_rfl (by simp [record, hc]) (by simp [record, hc]) ?_ ?_
      · exact fun w hw => .inl (by simpa [record, hc] using hlater w (hw.imp_right And.left))
      · exact fun w hw => .inl (by simpa [record, hc] using hlater w (hw.imp_right And.left))
    · refine h.keep rfl rfl rfl rfl le_rfl (by simp [record, hc]) (by simp [record, hc]) ?_ ?_
      · rintro w (hlt | ⟨he, -⟩)
        · exact .inl (by simpa [record, hc] using hlt)
        · exact .inr (by simp [record, hc, he])
      · exact fun w hw => hw.keep (by simp [record, hc]) (by simp [record, hc])
  | hand wait =>
    obtain ⟨harmed, rfl⟩ := Option.ite_some_none_eq_some.mp hs
    have hdue : s.Due wait := hpunctual
    exact h.setTimer rfl rfl (fun w hw => hw) (fun w hw => hw) (by simp [harmed]) (by simp)
      (fun _ => hdue.lasted (h.unended wait harmed)) fun hw => by
        simpa [harmed] using (h.set wait hw).1
  | test wait =>
    obtain ⟨hhanded, rfl⟩ := Option.ite_some_none_eq_some.mp hs
    exact h.setTimer rfl rfl (fun w hw => hw) (fun w hw => hw) (by simp [hhanded])
      (by split_ifs <;> simp) (fun _ => h.lasted wait (.inl hhanded)) fun hw => by
        simpa [hhanded] using (h.set wait hw).1
  | set wait =>
    obtain ⟨hsetting, rfl⟩ := Option.ite_some_none_eq_some.mp hs
    have hl := h.lasted wait (.inr (.inl hsetting))
    have hold : ({ s with io := s.io.setTimer wait .cancelling } : IoCall).Timers :=
      h.setTimer rfl rfl (fun w hw => hw) (fun w hw => hw) (by simp [hsetting]) (by simp)
        (fun _ => hl) (by simp)
    refine ⟨hold.used, hold.lasted, ?_, fun _ => rfl, hold.past, hold.unended⟩
    intro w hw
    obtain rfl := Option.some.inj hw
    exact ⟨.inl (Function.update_self ..), hl⟩
  | cancelEvent wait ok =>
    obtain ⟨hcancelling, rfl⟩ := Option.ite_some_none_eq_some.mp hs
    have hold : ({ s with io := s.io.setTimer wait .finished } : IoCall).Timers :=
      h.setTimer rfl rfl (fun w hw => hw) (fun w hw => hw) (by simp [hcancelling]) (by simp)
        (by simp) (by simp)
    split_ifs <;>
      exact hold.keep rfl rfl rfl rfl le_rfl rfl rfl (fun w hw => hw) fun w hw => hw

theorem Timers.step (h : s.Timers) {op : IoOp} (hpunctual : s.Punctual op)
    (hs : s.step op = some s') : s'.Timers := by
  cases op with
  | tick clock =>
    obtain ⟨hle, rfl⟩ := Option.ite_some_none_eq_some.mp hs
    exact h.keep rfl rfl rfl rfl hle rfl rfl (fun w hw => hw) fun w hw => hw
  | refuse =>
    obtain ⟨⟨-, hp⟩, rfl⟩ := Option.ite_some_none_eq_some.mp hs
    refine h.keep rfl rfl rfl rfl le_rfl rfl rfl ?_ fun w hw => hw.keep rfl (by simp [hp])
    exact fun w hw => hw.imp id fun hw => ⟨hw.1, by simp⟩
  | call a =>
    simp only [IoCall.step] at hs
    split at hs
    · cases hs
    · obtain ⟨io, hio, rfl⟩ := Option.map_eq_some_iff.mp hs
      exact (h.wait hio trivial).keep rfl rfl rfl rfl le_rfl rfl rfl (fun w hw => hw) fun w hw => hw
    · split at hs
      · obtain ⟨-, rfl⟩ := Option.ite_some_none_eq_some.mp hs
        exact h.keep rfl rfl rfl rfl le_rfl rfl rfl (fun w hw => hw) fun w hw => hw
      · obtain ⟨io, hio, rfl⟩ := Option.map_eq_some_iff.mp hs
        exact (h.wait hio trivial).keep rfl rfl rfl rfl le_rfl rfl rfl (fun w hw => hw)
          fun w hw => hw
  | skipTimer =>
    obtain ⟨⟨-, hp⟩, rfl⟩ := Option.ite_some_none_eq_some.mp hs
    refine h.keep rfl rfl rfl rfl le_rfl rfl rfl ?_ fun w hw => hw.keep rfl (by simp [hp])
    exact fun w hw => hw.imp id fun hw => ⟨hw.1, by simp⟩
  | wait op =>
    simp only [IoCall.step, Option.ite_none_right_eq_some, Option.map_eq_some_iff] at hs
    obtain ⟨-, io, hio, rfl⟩ := hs
    exact h.wait hio hpunctual

/-- In every run in which timers are handed out when they are due, what `do_io` returns is
justified: it is the answer of its last call, the calls before having transferred nothing, or the
last call would have blocked and a wait has lasted for the timeout, or its event was not added. -/
theorem justified_of_punctual (hookEnable : Bool) (ctx : Option FdCtx) (timeoutSo : ℤ) (clock : ℕ)
    (ops : List IoOp) (s : IoCall)
    (hr : Transition.run step (new (ioMode hookEnable ctx timeoutSo) clock) ops = some s)
    (hp : Transition.Meets step Punctual (new (ioMode hookEnable ctx timeoutSo) clock) ops)
    (r : IoReturn) (hresult : s.result = some r) : s.Justified r := by
  have hinv : s.Told ∧ s.Timers := by
    refine Transition.run_invariant (fun s => s.Told ∧ s.Timers) ?_ ⟨new_told, new_timers⟩ hp hr
    rintro s op s' ⟨htold, htimers⟩ hpunctual hs
    exact ⟨htold.step htimers hs, htimers.step hpunctual hs⟩
  exact hinv.1.justified r hresult

/-- A managed socket with a receive timeout. -/
def timedSocket : FdCtx := { (FdCtx.new (some ⟨true, 0x2⟩)).1 with recvTimeout := 100 }

/-- The call is interrupted, would block once and then transfers five bytes. -/
def blocksOnce : List IoOp :=
  [.call eintr, .call eagain, .wait .addConditionTimer, .wait (.addEvent true), .wait .yield,
    .tick 1040, .wait .deliver, .wait .resume, .wait .cancelTimer, .wait .check, .call (.done 5)]

theorem justified_of_punctual_blocksOnce : ∃ s,
    Transition.run step (new (ioMode true (some timedSocket) soRcvtimeo) 1000) blocksOnce =
        some s ∧
      s.answers = [eintr, eagain, .done 5] ∧ s.result = some (.answered (.done 5)) ∧
      s.Justified (.answered (.done 5)) := by
  have hrun : (Transition.run step (new (ioMode true (some timedSocket) soRcvtimeo) 1000)
      blocksOnce).map (fun s => (s.answers, s.result)) =
        some ([eintr, eagain, .done 5], some (.answered (.done 5))) := by decide
  obtain ⟨s, hs, hh⟩ := Option.map_eq_some_iff.mp hrun
  obtain ⟨hanswers, hresult⟩ := Prod.mk.inj hh
  exact ⟨s, hs, hanswers, hresult,
    justified_of_punctual _ _ _ _ blocksOnce s hs (by decide) _ hresult⟩

/-- The fiber is between arming its timer and testing `cancelled`. -/
def Waits (io : DoIo) : Prop :=
  io.phase ≠ .trying ∧ io.phase ≠ .arming ∧ io.phase ≠ .returned

/-- While the fiber waits, only the timer of its own wait is at work. -/
structure Own (s : IoCall) : Prop where
  armed : ∀ wait, s.io.timer wait = .armed →
    wait = s.io.wait ∧ Waits s.io ∧ s.io.phase ≠ .checking
  others : s.Timed → Waits s.io → ∀ wait < s.io.wait,
    s.io.timer wait ≠ .handed ∧ s.io.timer wait ≠ .setting
  setBy : s.Timed → Waits s.io → s.io.cancelled ≠ 0 → s.setBy = some s.io.wait
  notEarly : s.result = some .timedOut → s.Lasted s.io.wait

/-- A step that leaves the timers alone and does not go into or out of a wait. -/
theorem Own.keep (h : s.Own) (hmode : s'.mode = s.mode) (harmed : s'.armedAt = s.armedAt)
    (hended : s'.endedAt = s.endedAt) (hset : s'.setBy = s.setBy) (hclock : s.clock ≤ s'.clock)
    (hresult : s'.result = some .timedOut → s.result = some .timedOut)
    (htimer : s'.io.timer = s.io.timer) (hcancelled : s'.io.cancelled = s.io.cancelled)
    (hwait : s'.io.wait = s.io.wait) (hwaits : Waits s'.io ↔ Waits s.io)
    (hchecking : s'.io.phase = .checking ↔ s.io.phase = .checking) : s'.Own := by
  have htimed : s'.Timed ↔ s.Timed := by rw [Timed, hmode, Timed]
  refine ⟨?_, ?_, ?_, ?_⟩
  · rw [htimer, hwait, hwaits, Ne, hchecking]
    exact h.armed
  · rw [htimed, hwaits, hwait, htimer]
    exact h.others
  · rw [htimed, hwaits, hcancelled, hset, hwait]
    exact h.setBy
  · rw [hwait]
    exact fun hr => (h.notEarly (hresult hr)).mono hmode (congrFun harmed _)
      (endedAt_le (congrFun hended _) hclock)

/-- A step of the timer of one wait. -/
theorem Own.setTimer (h : s.Own) {wait : ℕ} {t : TimeoutPhase} (ht : t ≠ .armed)
    (hother : s.Timed → Waits s.io → wait < s.io.wait → t ≠ .handed ∧ t ≠ .setting) :
    ({ s with io := s.io.setTimer wait t } : IoCall).Own := by
  refine ⟨?_, ?_, h.setBy, h.notEarly⟩
  · intro w hw
    by_cases he : w = wait
    · subst he
      simp [DoIo.timer_setTimer, ht] at hw
    · refine h.armed w ?_
      simpa [DoIo.timer_setTimer, he] using hw
  · intro htimed hwaits w hlt
    by_cases he : w = wait
    · subst he
      simpa [DoIo.timer_setTimer] using hother htimed hwaits hlt
    · simpa [DoIo.timer_setTimer, he] using h.others htimed hwaits w hlt

theorem Own.not_armed (h : s.Own) (hp : ¬ Waits s.io) (wait : ℕ) : s.io.timer wait ≠ .armed :=
  fun harmed => hp (h.armed wait harmed).2.1

theorem Own.addConditionTimer (h : s.Own) (ht : s.Told) {io : DoIo}
    (hsettled : s.Settled (.wait .addConditionTimer))
    (hs : s.io.step .addConditionTimer = some io) : (s.record io .addConditionTimer).Own := by
  obtain ⟨hp, rfl⟩ := Option.ite_some_none_eq_some.mp hs
  obtain ⟨hzero, hothers⟩ := hsettled
  have hnone := h.not_armed (by simp [Waits, hp])
  refine ⟨?_, ?_, ?_, ?_⟩
  · intro w hw
    by_cases he : w = s.io.wait
    · exact ⟨he, by simp [Waits, record], by simp [record]⟩
    · refine absurd ?_ (hnone w)
      simpa [record, DoIo.timer_setTimer, he] using hw
  · intro _ _ w hlt
    have hlt' : w < s.io.wait := hlt
    simpa [record, DoIo.timer_setTimer, hlt'.ne] using hothers w hlt'
  · exact fun _ _ hne => absurd hzero hne
  · intro hr
    have hnot := ht.result_eq_none (by simp [hp])
    exact absurd (hnot.symm.trans hr) (by simp)

theorem Own.check (h : s.Own) (htold : s.Told) (ht : s.Timers) {io : DoIo}
    (hs : s.io.step .check = some io) : (s.record io .check).Own := by
  obtain ⟨hp, rfl⟩ := Option.ite_some_none_eq_some.mp hs
  have hnone := htold.result_eq_none (by simp [hp])
  have harmed : ∀ w, s.io.timer w ≠ .armed := fun w hw => (h.armed w hw).2.2 hp
  by_cases hc : s.io.cancelled = 0
  · refine ⟨?_, ?_, ?_, ?_⟩
    · exact fun w hw => absurd (by simpa [record, hc] using hw) (harmed w)
    · exact fun _ hw => absurd hw (by simp [Waits, record, hc])
    · exact fun _ hw => absurd hw (by simp [Waits, record, hc])
    · exact fun hr => absurd hr (by simp [record, hc, hnone])
  · obtain ⟨w, hw⟩ := Option.isSome_iff_exists.mp (ht.cancelled hc)
    have hlasted := (ht.set w hw).2
    obtain ⟨timeout, hmode, -⟩ := id hlasted
    have hown := h.setBy ⟨timeout, hmode⟩ (by simp [Waits, hp]) hc
    obtain rfl : w = s.io.wait := Option.some.inj (hw.symm.trans hown)
    refine ⟨?_, ?_, ?_, ?_⟩
    · exact fun w hw => absurd (by simpa [record, hc] using hw) (harmed w)
    · exact fun _ hw => absurd hw (by simp [Waits, record, hc])
    · exact fun _ hw => absurd hw (by simp [Waits, record, hc])
    · exact fun _ => by simpa [Lasted, record, hc] using hlasted

theorem Own.cancelTimer (h : s.Own) (htold : s.Told) {io : DoIo}
    (hs : s.io.step .cancelTimer = some io) : (s.record io .cancelTimer).Own := by
  have hnone : ∀ w, s.io.cancelTimer.timer w ≠ .armed := by
    intro w hw
    unfold DoIo.cancelTimer at hw
    split_ifs at hw with harmed
    · rw [DoIo.timer_setTimer] at hw
      split_ifs at hw with he
      exact he (h.armed w hw).1
    · exact harmed ((h.armed w hw).1 ▸ hw)
  have hkept : ∀ w < s.io.wait, s.io.cancelTimer.timer w = s.io.timer w := by
    intro w hlt
    unfold DoIo.cancelTimer
    split_ifs
    · rw [DoIo.timer_setTimer, if_neg hlt.ne]
    · rfl
  have hwait : s.io.cancelTimer.wait = s.io.wait := by
    unfold DoIo.cancelTimer
    split_ifs <;> rfl
  have hcancelled : s.io.cancelTimer.cancelled = s.io.cancelled := by
    unfold DoIo.cancelTimer
    split_ifs <;> rfl
  simp only [DoIo.step] at hs
  split_ifs at hs with hp hp'
  · obtain rfl := Option.some.inj hs
    have hwaits : Waits s.io := by simp [Waits, hp]
    refine ⟨fun w hw => absurd hw (hnone w), ?_, ?_, ?_⟩
    · intro htimed _ w hlt
      have hlt' : w < s.io.wait := by simpa [record, hwait] using hlt
      simpa [record, hkept w hlt'] using h.others htimed hwaits w hlt'
    · intro htimed _ hne
      simpa [record, hwait] using h.setBy htimed hwaits (by simpa [record, hcancelled] using hne)
    · exact fun hr => absurd hr (by simp [record, hp, htold.result_eq_none])
  · obtain rfl := Option.some.inj hs
    refine ⟨fun w hw => absurd hw (hnone w), ?_, ?_, ?_⟩
    · exact fun _ hw => absurd hw (by simp [Waits, record])
    · exact fun _ hw => absurd hw (by simp [Waits, record])
    · exact fun hr => absurd hr (by simp [record, hp'])

theorem Own.wait (h : s.Own) (htold : s.Told) (ht : s.Timers) {op : DoIoOp} {io : DoIo}
    (hs : s.io.step op = some io) (hcall : ∀ again, op ≠ .call again)
    (hsettled : s.Settled (.wait op)) : (s.record io op).Own := by
  cases op with
  | call again => exact absurd rfl (hcall again)
  | addConditionTimer => exact h.addConditionTimer htold hsettled hs
  | check => exact h.check htold ht hs
  | cancelTimer => exact h.cancelTimer htold hs
  | addEvent ok =>
    obtain ⟨hp, rfl⟩ := Option.ite_some_none_eq_some.mp hs
    cases ok <;> refine h.keep rfl rfl rfl rfl le_rfl id rfl rfl rfl ?_ ?_ <;>
      simp [record, Waits, hp]
  | yield =>
    obtain ⟨hp, rfl⟩ := Option.ite_some_none_eq_some.mp hs
    refine h.keep rfl rfl rfl rfl le_rfl id rfl rfl rfl ?_ ?_ <;> simp [record, Waits, hp]
  | resume =>
    obtain ⟨⟨hp, -⟩, rfl⟩ := Option.ite_some_none_eq_some.mp hs
    refine h.keep rfl rfl rfl rfl le_rfl id rfl rfl rfl ?_ ?_ <;> simp [record, Waits, hp]
  | deliver =>
    obtain ⟨-, rfl⟩ := Option.ite_some_none_eq_some.mp hs
    exact h.keep rfl rfl rfl rfl le_rfl id rfl rfl rfl Iff.rfl Iff.rfl
  | hand wait =>
    obtain ⟨harmed, rfl⟩ := Option.ite_some_none_eq_some.mp hs
    refine h.setTimer (by simp) fun _ _ hlt => ?_
    exact absurd hlt (by simp [(h.armed wait harmed).1])
  | test wait =>
    obtain ⟨hhanded, rfl⟩ := Option.ite_some_none_eq_some.mp hs
    refine h.setTimer (by split_ifs <;> simp) fun htimed hwaits hlt => ?_
    exact absurd hhanded (h.others htimed hwaits wait hlt).1
  | set wait =>
    obtain ⟨hsetting, rfl⟩ := Option.ite_some_none_eq_some.mp hs
    have hold : ({ s with io := s.io.setTimer wait .cancelling } : IoCall).Own :=
      h.setTimer (by simp) (by simp)
    refine ⟨hold.armed, hold.others, ?_, hold.notEarly⟩
    intro htimed hwaits _
    have hused := ht.used wait (by simp [hsetting])
    rcases hused with hlt | ⟨he, -⟩
    · exact absurd hsetting (h.others htimed hwaits wait hlt).2
    · exact congrArg some he
  | cancelEvent wait ok =>
    obtain ⟨-, rfl⟩ := Option.ite_some_none_eq_some.mp hs
    have hold : ({ s with io := s.io.setTimer wait .finished } : IoCall).Own :=
      h.setTimer (by simp) (by simp)
    split_ifs <;> exact hold.keep rfl rfl rfl rfl le_rfl id rfl rfl rfl Iff.rfl Iff.rfl

theorem Own.call (h : s.Own) {a : SysResult} (hs : s.step (.call a) = some s') : s'.Own := by
  simp only [IoCall.step] at hs
  split at hs
  · cases hs
  · obtain ⟨io, hio, rfl⟩ := Option.map_eq_some_iff.mp hs
    obtain ⟨hp, rfl⟩ := Option.ite_some_none_eq_some.mp hio
    refine h.keep rfl rfl rfl rfl le_rfl (by simp) rfl rfl rfl ?_ ?_ <;> simp [Waits, hp]
  · split at hs
    · obtain ⟨hp, rfl⟩ := Option.ite_some_none_eq_some.mp hs
      exact h.keep rfl rfl rfl rfl le_rfl id rfl rfl rfl Iff.rfl Iff.rfl
    · obtain ⟨io, hio, rfl⟩ := Option.map_eq_some_iff.mp hs
      obtain ⟨hp, rfl⟩ := Option.ite_some_none_eq_some.mp hio
      have hresult : ∀ {b : Prop} [Decidable b],
          (if b then none else some (IoReturn.answered a)) ≠ some .timedOut := by
        intro b _
        split_ifs <;> simp
      refine h.keep rfl rfl rfl rfl le_rfl (fun hr => absurd hr hresult) rfl rfl rfl ?_ ?_ <;>
        split_ifs <;> simp [Waits, hp]

theorem Own.step (h : s.Own) (htold : s.Told) (ht : s.Timers) {op : IoOp}
    (hsettled : s.Settled op) (hs : s.step op = some s') : s'.Own := by
  cases op with
  | tick clock =>
    obtain ⟨hle, rfl⟩ := Option.ite_some_none_eq_some.mp hs
    exact h.keep rfl rfl rfl rfl hle id rfl rfl rfl Iff.rfl Iff.rfl
  | refuse =>
    obtain ⟨⟨-, hp⟩, rfl⟩ := Option.ite_some_none_eq_some.mp hs
    refine h.keep rfl rfl rfl rfl le_rfl (by simp) rfl rfl rfl ?_ ?_ <;> simp [Waits, hp]
  | call a => exact h.call hs
  | skipTimer =>
    obtain ⟨⟨hm, hp⟩, rfl⟩ := Option.ite_some_none_eq_some.mp hs
    have huntimed : ¬ s.Timed := by simp [Timed, hm]
    refine ⟨?_, fun htimed => absurd htimed huntimed, fun htimed => absurd htimed huntimed,
      h.notEarly⟩
    exact fun w hw => absurd hw (h.not_armed (by simp [Waits, hp]) w)
  | wait op =>
    simp only [IoCall.step, Option.ite_none_right_eq_some, Option.map_eq_some_iff] at hs
    obtain ⟨hallows, io, hio, rfl⟩ := hs
    refine h.wait htold ht hio ?_ hsettled
    rintro again rfl
    exact hallows

/-- The timer of the first wait has been handed out when its event comes, and sets `cancelled`
after the second wait has begun. -/
def lateCallback : List IoOp :=
  [.call eagain, .wait .addConditionTimer, .wait (.addEvent true), .wait .yield, .tick 1100,
    .wait (.hand 0), .wait (.test 0), .wait .deliver, .wait .resume, .wait .cancelTimer,
    .wait .check, .call eagain, .wait .addConditionTimer, .wait (.set 0), .wait (.addEvent true),
    .wait .yield, .wait (.cancelEvent 0 true), .wait .resume, .wait .cancelTimer, .wait .check]

/-- The second wait times out as soon as it has begun. -/
theorem timedOut_early : ∃ s,
    Transition.run step (new (ioMode true (some timedSocket) soRcvtimeo) 1000) lateCallback =
        some s ∧ s.result = some .timedOut ∧ ¬ s.Lasted s.io.wait := by
  have hrun : (Transition.run step (new (ioMode true (some timedSocket) soRcvtimeo) 1000)
      lateCallback).map (fun s => (s.result, decide (s.Lasted s.io.wait))) =
        some (some .timedOut, false) := by decide
  obtain ⟨s, hs, hh⟩ := Option.map_eq_some_iff.mp hrun
  obtain ⟨hresult, hlasted⟩ := Prod.mk.inj hh
  exact ⟨s, hs, hresult, of_decide_eq_false hlasted⟩

end IoCall

end ServerFramework
