import ServerFramework.Hook.DoIo

/-! # The hooked `connect`

`connect_with_timeout` on a managed blocking socket. If the kernel's call is in progress, the
fiber arms a timer, waits until the descriptor is writable, and asks for the pending error of the
socket. That error is zero while the connection is in progress, so the answer is worth something
only if the fiber has been woken for the right reason.
-/

namespace ServerFramework

/-- What the kernel has made of the connection. -/
inductive Connection where
  | inProgress
  | established
  | failed (error : ℕ)
  deriving DecidableEq, Repr

/-- `SO_ERROR`. -/
def Connection.soError : Connection → ℕ
  | inProgress => 0
  | established => 0
  | failed error => error

/-- Where the fiber is in `connect_with_timeout`. -/
inductive ConnectPhase where
  /-- Before `connect_f`. -/
  | calling
  | arming
  | adding
  | yielding
  | suspended
  /-- Resumed; before `timer->Cancel()`. -/
  | cancelling
  /-- Before the test of `cancelled`. -/
  | checking
  /-- `AddEvent` failed; before `timer->Cancel()`. -/
  | failing
  /-- Before `getsockopt`. -/
  | asking
  /-- Zero is success. -/
  | returned (error : ℕ)
  deriving DecidableEq, Repr

/-- One call of `connect_with_timeout`, with a finite timeout if it is `timed`. -/
structure Connect where
  timed : Bool
  phase : ConnectPhase
  timer : TimeoutPhase
  cancelled : ℕ
  registered : Bool
  woken : Bool
  connection : Connection
  deriving DecidableEq, Repr

/-- The steps of the fiber, of the kernel, of the timer callback, of the event dispatch and of
others that cancel the event. -/
inductive ConnectOp where
  | connectF (connection : Connection)
  | addConditionTimer
  | addEvent (ok : Bool)
  | yield
  | resume
  | cancelTimer
  | check
  /-- `getsockopt` may fail itself. -/
  | getsockopt (error : Option ℕ)
  | complete (connection : Connection)
  | hand
  | test
  | set
  | cancelEvent (ok : Bool)
  | deliver
  | cancelByOther
  deriving DecidableEq, Repr

namespace Connect

open DoIo (ETIMEDOUT)

def new (timed : Bool) : Connect where
  timed := timed
  phase := .calling
  timer := .absent
  cancelled := 0
  registered := false
  woken := false
  connection := .inProgress

/-- The event is cleared and the fiber is scheduled. -/
def trigger (s : Connect) : Connect := { s with registered := false, woken := true }

/-- `timer->Cancel()`, if there is a timer; it only disarms one that has not been handed out. -/
def cancelTimer (s : Connect) : Connect :=
  if s.timer = .armed then { s with timer := .cancelled } else s

/-- One step. The descriptor becomes writable when the connection is no longer in progress. -/
def step (s : Connect) : ConnectOp → Option Connect
  | .connectF connection =>
    if s.phase = .calling then
      some { s with
        connection := connection
        phase := match connection with
          | .inProgress => if s.timed then .arming else .adding
          | _ => .returned connection.soError }
    else none
  | .addConditionTimer =>
    if s.phase = .arming then some { s with timer := .armed, phase := .adding } else none
  | .addEvent ok =>
    if s.phase = .adding then
      some (if ok then { s with registered := true, phase := .yielding }
        else { s with phase := .failing })
    else none
  | .yield => if s.phase = .yielding then some { s with phase := .suspended } else none
  | .resume =>
    if s.phase = .suspended ∧ s.woken then some { s with woken := false, phase := .cancelling }
    else none
  | .cancelTimer =>
    if s.phase = .cancelling then some { s.cancelTimer with phase := .checking }
    else if s.phase = .failing then some { s.cancelTimer with phase := .asking }
    else none
  | .check =>
    if s.phase = .checking then
      some { s with phase := if s.cancelled ≠ 0 then .returned s.cancelled else .asking }
    else none
  | .getsockopt error =>
    if s.phase = .asking then some { s with phase := .returned (error.getD s.connection.soError) }
    else none
  | .complete connection =>
    if s.connection = .inProgress ∧ s.phase ≠ .calling then
      some { s with connection := connection }
    else none
  | .hand => if s.timer = .armed then some { s with timer := .handed } else none
  | .test =>
    -- the locked pointer is null once the call has returned
    if s.timer = .handed then
      some { s with
        timer := match s.phase with
          | .returned _ => .finished
          | _ => if s.cancelled ≠ 0 then .finished else .setting }
    else none
  | .set =>
    if s.timer = .setting then some { s with timer := .cancelling, cancelled := ETIMEDOUT }
    else none
  | .cancelEvent ok =>
    if s.timer = .cancelling then
      let s := { s with timer := .finished }
      some (if s.registered ∧ ok then s.trigger else s)
    else none
  | .deliver =>
    if s.registered ∧ s.connection ≠ .inProgress then some s.trigger else none
  | .cancelByOther => if s.registered then some s.trigger else none

/-- Success is reported of an established connection, and an error is that of the connection or
the timeout. -/
def Truthful (s : Connect) : Prop :=
  ∀ error, s.phase = .returned error →
    (error = 0 ∧ s.connection = .established) ∨ (error ≠ 0 ∧ s.connection = .failed error) ∨
      (error = ETIMEDOUT ∧ s.cancelled = ETIMEDOUT)

/-- `AddEvent` and `getsockopt` succeed, and nobody else cancels the event of a connection in
progress. A failure has an error. -/
def Undisturbed (s : Connect) : ConnectOp → Prop
  | .connectF connection | .complete connection => connection ≠ .failed 0
  | .addEvent ok => ok = true
  | .getsockopt error => error = none
  | .cancelByOther => s.connection ≠ .inProgress
  | _ => True

instance (s : Connect) (op : ConnectOp) : Decidable (s.Undisturbed op) := by
  unfold Undisturbed
  split <;> infer_instance

/-- There is a reason to go on: the connection is no longer in progress, or the timeout is over. -/
def Decided (s : Connect) : Prop := s.connection ≠ .inProgress ∨ s.cancelled = ETIMEDOUT

/-- What undisturbed runs preserve. -/
structure Inv (s : Connect) : Prop where
  calling : s.phase = .calling → s.connection = .inProgress
  truthful : s.Truthful
  noZero : s.connection ≠ .failed 0
  cancelled : s.cancelled = 0 ∨ s.cancelled = ETIMEDOUT
  timedOut : s.timer = .cancelling → s.cancelled = ETIMEDOUT
  woken : s.woken = true → s.Decided
  resumed : s.phase = .cancelling ∨ s.phase = .checking → s.Decided
  asking : s.phase = .asking → s.connection ≠ .inProgress
  notFailing : s.phase ≠ .failing
  /-- A suspended fiber is registered or has been scheduled. -/
  attended : s.phase = .yielding ∨ s.phase = .suspended → s.registered = true ∨ s.woken = true

variable {s s' : Connect}

theorem new_inv (timed : Bool) : (new timed).Inv where
  calling := fun _ => rfl
  truthful := by simp [Truthful, new]
  noZero := by simp [new]
  cancelled := .inl rfl
  timedOut := by simp [new]
  woken := by simp [new]
  resumed := by simp [new]
  asking := by simp [new]
  notFailing := by simp [new]
  attended := by simp [new]

theorem soError_cases {connection : Connection} (hprogress : connection ≠ .inProgress)
    (hzero : connection ≠ .failed 0) :
    (connection.soError = 0 ∧ connection = .established) ∨
      (connection.soError ≠ 0 ∧ connection = .failed connection.soError) := by
  cases connection with
  | inProgress => exact absurd rfl hprogress
  | established => exact .inl ⟨rfl, rfl⟩
  | failed error => exact .inr ⟨fun h => hzero (congrArg _ h), rfl⟩

/-- Whoever triggers the event has a reason. -/
theorem Inv.trigger (h : s.Inv) (hd : s.Decided) : s.trigger.Inv where
  calling := h.calling
  truthful := h.truthful
  noZero := h.noZero
  cancelled := h.cancelled
  timedOut := h.timedOut
  woken := fun _ => hd
  resumed := h.resumed
  asking := h.asking
  notFailing := h.notFailing
  attended := fun _ => .inr rfl

/-- A step of the fiber that neither returns nor asks. -/
theorem Inv.move (h : s.Inv) (phase : ConnectPhase) (hcalling : phase ≠ .calling)
    (hreturned : ∀ error, phase ≠ .returned error)
    (hresumed : phase = .cancelling ∨ phase = .checking → s.Decided)
    (hasking : phase = .asking → s.connection ≠ .inProgress) (hfailing : phase ≠ .failing)
    (hattended : phase = .yielding ∨ phase = .suspended → s.registered = true ∨ s.woken = true) :
    { s with phase := phase }.Inv where
  calling := fun hc => absurd hc hcalling
  truthful := fun error he => absurd he (hreturned error)
  noZero := h.noZero
  cancelled := h.cancelled
  timedOut := h.timedOut
  woken := h.woken
  resumed := hresumed
  asking := hasking
  notFailing := hfailing
  attended := hattended

/-- The fiber returns with an error that is true. -/
theorem Inv.leave (h : s.Inv) {error : ℕ}
    (htruthful : (error = 0 ∧ s.connection = .established) ∨
      (error ≠ 0 ∧ s.connection = .failed error) ∨
        (error = ETIMEDOUT ∧ s.cancelled = ETIMEDOUT)) :
    { s with phase := .returned error }.Inv where
  calling := by simp
  truthful := by
    intro e he
    obtain rfl := ConnectPhase.returned.inj he
    exact htruthful
  noZero := h.noZero
  cancelled := h.cancelled
  timedOut := h.timedOut
  woken := h.woken
  resumed := by simp
  asking := by simp
  notFailing := by simp
  attended := by simp

/-- A step of the timer that does not come to `CancelEvent`. -/
theorem Inv.setTimer (h : s.Inv) (timer : TimeoutPhase) (ht : timer ≠ .cancelling) :
    { s with timer := timer }.Inv where
  calling := h.calling
  truthful := h.truthful
  noZero := h.noZero
  cancelled := h.cancelled
  timedOut := fun hc => absurd hc ht
  woken := h.woken
  resumed := h.resumed
  asking := h.asking
  notFailing := h.notFailing
  attended := h.attended

theorem Inv.cancelTimer (h : s.Inv) : s.cancelTimer.Inv := by
  rw [Connect.cancelTimer]
  split_ifs
  · exact h.setTimer _ (by simp)
  · exact h

theorem Decided.cancelTimer (h : s.Decided) : s.cancelTimer.Decided := by
  rw [Connect.cancelTimer]
  split_ifs
  · exact h
  · exact h

/-- The connection is decided. -/
theorem Inv.complete (h : s.Inv) (hprogress : s.connection = .inProgress) {connection : Connection}
    (hzero : connection ≠ .failed 0) (hcalling : s.phase ≠ .calling) :
    { s with connection := connection }.Inv := by
  have hdecided : s.Decided → { s with connection := connection }.Decided := by
    rintro (hd | hd)
    · exact absurd hprogress hd
    · exact .inr hd
  refine ⟨fun hc => absurd hc hcalling, ?_, hzero, h.cancelled, h.timedOut,
    fun hw => hdecided (h.woken hw), fun hr => hdecided (h.resumed hr), ?_, h.notFailing,
    h.attended⟩
  · intro error he
    rcases h.truthful error he with ⟨-, hc⟩ | ⟨-, hc⟩ | ht
    · rw [hprogress] at hc
      cases hc
    · rw [hprogress] at hc
      cases hc
    · exact .inr (.inr ht)
  · intro ha
    exact absurd hprogress (h.asking ha)

/-- `connect_f` answers at once. -/
theorem Inv.answer (h : s.Inv) {connection : Connection} (hprogress : connection ≠ .inProgress)
    (hzero : connection ≠ .failed 0) :
    { s with connection := connection, phase := .returned connection.soError }.Inv where
  calling := by simp
  truthful := by
    intro error he
    obtain rfl := ConnectPhase.returned.inj he
    exact (soError_cases hprogress hzero).imp_right .inl
  noZero := hzero
  cancelled := h.cancelled
  timedOut := h.timedOut
  woken := fun _ => .inl hprogress
  resumed := by simp
  asking := by simp
  notFailing := by simp
  attended := by simp

theorem Inv.step {op : ConnectOp} (h : s.Inv) (hg : s.Undisturbed op) (hs : s.step op = some s') :
    s'.Inv := by
  cases op with
  | connectF connection =>
    obtain ⟨hp, rfl⟩ := Option.ite_some_none_eq_some.mp hs
    by_cases hc : connection = .inProgress
    · subst hc
      have hphase : ∀ phase : ConnectPhase, phase = .arming ∨ phase = .adding →
          { s with phase := phase }.Inv := by
        rintro phase (rfl | rfl)
        · exact h.move _ (by simp) (by simp) (by simp) (by simp) (by simp) (by simp)
        · exact h.move _ (by simp) (by simp) (by simp) (by simp) (by simp) (by simp)
      have hmove := hphase (if s.timed then .arming else .adding) (by split_ifs <;> simp)
      rwa [h.calling hp] at hmove
    · have hleave := h.answer hc hg
      cases connection with
      | inProgress => exact absurd rfl hc
      | established => exact hleave
      | failed error => exact hleave
  | addConditionTimer =>
    obtain ⟨hp, rfl⟩ := Option.ite_some_none_eq_some.mp hs
    exact (h.setTimer .armed (by simp)).move _ (by simp) (by simp) (by simp) (by simp)
      (by simp) (by simp)
  | addEvent ok =>
    obtain ⟨hp, rfl⟩ := Option.ite_some_none_eq_some.mp hs
    obtain rfl : ok = true := hg
    have hreg : { s with registered := true }.Inv :=
      ⟨h.calling, h.truthful, h.noZero, h.cancelled, h.timedOut, h.woken, h.resumed, h.asking,
        h.notFailing, fun _ => .inl rfl⟩
    exact hreg.move _ (by simp) (by simp) (by simp) (by simp) (by simp) fun _ => .inl rfl
  | yield =>
    obtain ⟨hp, rfl⟩ := Option.ite_some_none_eq_some.mp hs
    exact h.move _ (by simp) (by simp) (by simp) (by simp) (by simp) fun _ => h.attended (.inl hp)
  | resume =>
    obtain ⟨⟨hp, hw⟩, rfl⟩ := Option.ite_some_none_eq_some.mp hs
    have hd := h.woken hw
    have hmove :=
      h.move .cancelling (by simp) (by simp) (fun _ => hd) (by simp) (by simp) (by simp)
    exact ⟨hmove.calling, hmove.truthful, hmove.noZero, hmove.cancelled, hmove.timedOut, by simp,
      fun _ => hd, by simp, by simp, by simp⟩
  | cancelTimer =>
    simp only [Connect.step] at hs
    split_ifs at hs with hp hp'
    · obtain rfl := Option.some.inj hs
      have hd := (h.resumed (.inl hp)).cancelTimer
      exact h.cancelTimer.move _ (by simp) (by simp) (fun _ => hd) (by simp) (by simp) (by simp)
    · exact absurd hp' h.notFailing
  | check =>
    obtain ⟨hp, rfl⟩ := Option.ite_some_none_eq_some.mp hs
    have hd := h.resumed (.inr hp)
    split_ifs with hc
    · have ht : s.cancelled = ETIMEDOUT := h.cancelled.resolve_left hc
      exact h.leave (.inr (.inr ⟨ht, ht⟩))
    · refine h.move _ (by simp) (by simp) (by simp) (fun _ => ?_) (by simp) (by simp)
      refine hd.resolve_right fun ht => hc ?_
      rw [ht]
      decide
  | getsockopt error =>
    obtain ⟨hp, rfl⟩ := Option.ite_some_none_eq_some.mp hs
    obtain rfl : error = none := hg
    apply h.leave
    rcases soError_cases (h.asking hp) h.noZero with hok | hfailed
    · exact .inl hok
    · exact .inr (.inl hfailed)
  | complete connection =>
    obtain ⟨⟨hp, hcalling⟩, rfl⟩ := Option.ite_some_none_eq_some.mp hs
    exact h.complete hp hg hcalling
  | hand =>
    obtain ⟨-, rfl⟩ := Option.ite_some_none_eq_some.mp hs
    exact h.setTimer _ (by simp)
  | test =>
    obtain ⟨-, rfl⟩ := Option.ite_some_none_eq_some.mp hs
    apply h.setTimer
    split
    · simp
    · split_ifs <;> simp
  | set =>
    obtain ⟨ht, rfl⟩ := Option.ite_some_none_eq_some.mp hs
    refine ⟨h.calling, ?_, h.noZero, .inr rfl, fun _ => rfl, fun _ => .inr rfl,
      fun _ => .inr rfl, h.asking, h.notFailing, h.attended⟩
    intro error he
    rcases h.truthful error he with hok | hfailed | ⟨he, -⟩
    · exact .inl hok
    · exact .inr (.inl hfailed)
    · exact .inr (.inr ⟨he, rfl⟩)
  | cancelEvent ok =>
    obtain ⟨ht, rfl⟩ := Option.ite_some_none_eq_some.mp hs
    have hfinished : { s with timer := .finished }.Inv := h.setTimer _ (by simp)
    split_ifs
    · exact hfinished.trigger (.inr (h.timedOut ht))
    · exact hfinished
  | deliver =>
    obtain ⟨⟨-, hc⟩, rfl⟩ := Option.ite_some_none_eq_some.mp hs
    exact h.trigger (.inl hc)
  | cancelByOther =>
    obtain ⟨-, rfl⟩ := Option.ite_some_none_eq_some.mp hs
    exact h.trigger (.inl hg)

/-- If `AddEvent` fails, success is reported of a connection in progress. -/
theorem not_truthful_of_addEvent_fails : ∃ s,
    Transition.run step (new false)
      [.connectF .inProgress, .addEvent false, .cancelTimer, .getsockopt none] = some s ∧
      ¬ s.Truthful := by
  refine ⟨_, rfl, fun h => ?_⟩
  rcases h 0 rfl with ⟨-, hc⟩ | ⟨hne, -⟩ | ⟨he, -⟩
  · cases hc
  · exact hne rfl
  · cases he

end Connect

end ServerFramework
