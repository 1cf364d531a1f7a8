import ServerFramework.IOManager.Accounting

/-! # Closing a descriptor that fibers wait on

The hooked calls register the waiting fiber with the `IOManager` of its thread. The hooked `close`
cancels the events that the `IOManager` of its own thread has for the descriptor, removes its
context and closes it. There may be other managers, and what they have registered stays; so does
what is registered between the cancellation and the closing.
-/

namespace ServerFramework

open Transition
open scoped BigOperators

namespace EventTable

variable {n : ℕ} {t t' : EventTable n} {fd : Fin n} {event : Event} {waited : List (Scheduled n)}

/-- What is scheduled when the event is triggered, if it is registered. -/
def waiting (t : EventTable n) (fd : Fin n) (event : Event) : List (Scheduled n) :=
  if (t.events fd).has event then
    match ((t.fdContexts fd).context event).scheduler with
    | none => []
    | some scheduler =>
      (((t.fdContexts fd).context event).task.map (⟨fd, event, scheduler, ·⟩)).toList
  else []

/-- Of those who have waited, all but the ones still waiting have been scheduled, each once and
in their order. -/
def Tracked (waited : List (Scheduled n)) (t : EventTable n) : Prop :=
  ∀ fd, ∀ event ≠ .none, waited.filter (Scheduled.isFor fd event) =
    t.scheduled.filter (Scheduled.isFor fd event) ++ t.waiting fd event

theorem tracked_new : Tracked [] (new : EventTable n) := by
  intro fd event _
  simp [new, waiting, events, FdContext.new]

theorem waiting_congr {x : Fin n} {e : Event}
    (h : t'.fdContexts x = t.fdContexts x) : t'.waiting x e = t.waiting x e := by
  rw [waiting, waiting, events, events, h]

theorem filter_waiting (t : EventTable n) (fd x : Fin n) (event e : Event) :
    (t.waiting fd event).filter (Scheduled.isFor x e) =
      if x = fd ∧ e = event then t.waiting fd event else [] := by
  unfold waiting
  split_ifs with hhas hxe hxe
  · obtain ⟨rfl, rfl⟩ := hxe
    split
    · rfl
    · cases ((t.fdContexts x).context e).task <;> simp [Scheduled.isFor]
  · split
    · rfl
    · rename_i scheduler _
      cases ((t.fdContexts fd).context event).task with
      | none => rfl
      | some task =>
        have hnot : Scheduled.isFor x e ⟨fd, event, scheduler, task⟩ = false := by
          simp only [Scheduled.isFor, decide_eq_false_iff_not]
          exact fun h => hxe ⟨h.1.symm, h.2.symm⟩
        simp [hnot]
  · rfl
  · rfl

/-- After an event has been cleared, nobody waits for it, and for the others as before. -/
theorem waiting_finished (t : EventTable n) (fd x : Fin n) (event : Event) {e : Event}
    (he : e ≠ .none) (calls : List (Scheduled n)) :
    (t.finished fd event calls).waiting x e =
      if x = fd ∧ e = event then [] else t.waiting x e := by
  by_cases hx : x = fd
  · subst hx
    have hctx : (t.finished x event calls).fdContexts x = (t.fdContexts x).unregister event :=
      Function.update_self ..
    have hcontext : ((t.fdContexts x).unregister event).context e =
        if e = event then .reset else (t.fdContexts x).context e := by
      rw [FdContext.unregister, FdContext.context_setEventContext _ _ he, FdContext.context_events]
    by_cases hee : e = event
    · subst hee
      simp [waiting, events_finished, Events.has_clear]
    · rw [if_neg fun h => hee h.2, waiting, waiting, events_finished, if_pos rfl, hctx, hcontext,
        if_neg hee, Events.has_clear]
      simp [hee]
  · rw [if_neg fun h => hx h.1]
    exact waiting_congr (Function.update_of_ne hx ..)

theorem Tracked.trigger (h : Tracked waited t) (ht : t.trigger fd event = .ok t') :
    Tracked waited t' := by
  obtain ⟨hhas, scheduler, hsch, rfl⟩ := trigger_ok ht
  have hcalls : (((t.fdContexts fd).context event).task.map (⟨fd, event, scheduler, ·⟩)).toList =
      t.waiting fd event := by
    rw [waiting, if_pos hhas, hsch]
  rw [hcalls]
  intro x e he
  rw [h x e he, waiting_finished t fd x event he]
  change _ = (t.scheduled ++ t.waiting fd event).filter _ ++ _
  rw [List.filter_append, filter_waiting]
  split_ifs with hxe
  · obtain ⟨rfl, rfl⟩ := hxe
    simp
  · simp

/-- What the operations do that only take events away. -/
structure Shrinks (t t' : EventTable n) : Prop where
  tracked : ∀ waited, Tracked waited t → Tracked waited t'
  events : ∀ x, t.events x = .empty → t'.events x = .empty

theorem Shrinks.refl (t : EventTable n) : Shrinks t t := ⟨fun _ h => h, fun _ h => h⟩

theorem Shrinks.trans {u : EventTable n} (h : Shrinks t u) (h' : Shrinks u t') : Shrinks t t' :=
  ⟨fun _ ht => h'.tracked _ (h.tracked _ ht), fun x hx => h'.events x (h.events x hx)⟩

theorem shrinks_setInterest (t : EventTable n) (fd : Fin n) (interest : Option EpollMask) :
    Shrinks t (t.setInterest fd interest) := ⟨fun _ h => h, fun _ h => h⟩

theorem shrinks_trigger (ht : t.trigger fd event = .ok t') : Shrinks t t' := by
  refine ⟨fun _ h => h.trigger ht, fun x hx => ?_⟩
  rw [events_trigger ht]
  split_ifs with hfd
  · rw [← hfd, hx]
    cases event <;> rfl
  · exact hx

theorem shrinks_triggerRegistered (ht : t.triggerRegistered fd event = .ok t') :
    Shrinks t t' := by
  rw [EventTable.triggerRegistered] at ht
  split_ifs at ht
  · exact shrinks_trigger ht
  · obtain rfl := Except.ok.inj ht
    exact .refl t

theorem shrinks_foldlM_trigger {events : List Event}
    (ht : events.foldlM (EventTable.trigger fd) t = .ok t') : Shrinks t t' := by
  induction events generalizing t with
  | nil =>
    obtain rfl := Except.ok.inj ht
    exact .refl t
  | cons event events ih =>
    obtain ⟨u, hu, ht⟩ := EventTable.foldlM_trigger_cons ht
    exact (shrinks_trigger hu).trans (ih ht)

theorem shrinks_cancelEvent (hi : t.Interested) {ok : Bool} {r : Bool × EventTable n}
    (hr : t.cancelEvent fd event ok = .ok r) : Shrinks t r.2 := by
  rcases cancelEvent_cases hi hr with rfl | ⟨-, -, ht⟩
  · exact .refl t
  · exact (shrinks_setInterest t fd _).trans (shrinks_trigger ht)

theorem shrinks_dispatch (hi : t.Interested) {ok : Bool} {reported : Reported}
    (hr : t.dispatch fd reported ok = .ok t') : Shrinks t t' := by
  rw [dispatch_eq hi] at hr
  split_ifs at hr
  · obtain rfl := Except.ok.inj hr
    exact .refl t
  · exact (shrinks_setInterest t fd _).trans (shrinks_foldlM_trigger hr)

theorem shrinks_cancelAll (hi : t.Interested) {ok : Bool} {r : Bool × EventTable n}
    (hr : t.cancelAll fd ok = .ok r) : Shrinks t r.2 := by
  rcases cancelAll_cases hi hr with rfl | ⟨-, u, hu, hv, -⟩
  · exact .refl t
  · exact (shrinks_setInterest t fd none).trans
      ((shrinks_triggerRegistered hu).trans (shrinks_triggerRegistered hv))

/-- `CancelAll` leaves no event if its `epoll_ctl` succeeds. -/
theorem cancelAll_empty (hi : t.Interested) {ok : Bool} {r : Bool × EventTable n}
    (hr : t.cancelAll fd ok = .ok r) (hok : t.events fd ≠ .empty → ok = true) :
    r.2.events fd = .empty := by
  by_cases he : t.events fd = .empty
  · exact (shrinks_cancelAll hi hr).events fd he
  · rcases cancelAll_cases hi hr with rfl | ⟨-, u, -, -, hempty⟩
    · obtain rfl := hok he
      rw [EventTable.cancelAll, if_neg he, hi, Events.wanted, if_neg he] at hr
      simp only [epollCtl] at hr
      split at hr
      · cases hr
      · split at hr
        · cases hr
        · split_ifs at hr
          cases hr
    · exact hempty

/-- A fiber registers for an event that nobody waits for. -/
theorem Tracked.registered (h : Tracked waited t) (hne : event ≠ .none)
    (hhas : (t.events fd).has event = false) {scheduler : SchedulerId} {fiber : FiberId}
    {c : EventContext} (hc : c = ⟨some scheduler, some fiber, none⟩) :
    Tracked (waited ++ [⟨fd, event, scheduler, .fiber fiber⟩]) (t.registered fd event c) := by
  subst hc
  intro x e he
  rw [List.filter_append, h x e he]
  change _ = t.scheduled.filter _ ++ (t.registered fd event _).waiting x e
  rw [List.append_assoc]
  congr 1
  by_cases hx : x = fd
  · subst hx
    have hctx : (t.registered x event ⟨some scheduler, some fiber, none⟩).fdContexts x =
        (t.fdContexts x).register event ⟨some scheduler, some fiber, none⟩ :=
      Function.update_self ..
    have hcontext : ((t.fdContexts x).register event ⟨some scheduler, some fiber, none⟩).context e
        = if e = event then ⟨some scheduler, some fiber, none⟩ else (t.fdContexts x).context e := by
      rw [FdContext.register, FdContext.context_setEventContext _ _ he, FdContext.context_events]
    by_cases hee : e = event
    · subst hee
      simp [waiting, events_registered, Events.has_set _ he, hhas, hctx, hcontext, Scheduled.isFor,
        EventContext.task]
    · simp [waiting, events_registered, Events.has_set _ he, hctx, hcontext, Scheduled.isFor, hee,
        Ne.symm hee]
  · have hnot : Scheduled.isFor x e ⟨fd, event, scheduler, .fiber fiber⟩ = false := by
      simp only [Scheduled.isFor, decide_eq_false_iff_not]
      exact fun h => hx h.1.symm
    rw [List.filter_singleton, hnot, cond_false, List.append_nil]
    exact (waiting_congr (Function.update_of_ne hx ..)).symm

end EventTable

/-- Where a thread is in the hooked `close`. -/
inductive ClosePhase (n : ℕ) where
  | outside
  /-- `CancelAll` has returned; before `Del`. -/
  | cancelled (fd : Fin n)
  /-- Before `close_f`. -/
  | deleted (fd : Fin n)
  deriving DecidableEq, Repr

/-- The thread has begun to close the descriptor. -/
def ClosePhase.isClosing {n : ℕ} (fd : Fin n) (p : ClosePhase n) : Bool :=
  p = cancelled fd ∨ p = deleted fd

/-- `m` managers and `p` threads that close. `managed` tells which descriptors have an `FdCtx`. For
each manager there is a record of the fibers that have waited, and `returned` is the descriptor
whose `close` has just returned. -/
structure Managers (p m n : ℕ) where
  log : Fin m → EventLog n
  waited : Fin m → List (Scheduled n)
  isOpen : Fin n → Bool
  managed : Fin n → Bool
  phase : Fin p → ClosePhase n
  returned : Option (Fin n)

/-- The steps of the threads, with the outcome of `epoll_ctl`. -/
inductive CloseOp (p m n : ℕ) where
  /-- The hooked `socket` or `accept` returns a descriptor. -/
  | openF (fd : Fin n)
  /-- `do_io` of a fiber under the manager calls `AddEvent`. -/
  | register (j : Fin m) (fd : Fin n) (event : Event) (fiber : FiberId) (ok : Bool)
  /-- The timeout of `do_io`. -/
  | cancelEvent (j : Fin m) (fd : Fin n) (event : Event) (ok : Bool)
  | dispatch (j : Fin m) (fd : Fin n) (reported : Reported) (ok : Bool)
  /-- The hooked `close` under the manager, up to the return of `CancelAll`. -/
  | close (t : Fin p) (j : Fin m) (fd : Fin n) (ok : Bool)
  | del (t : Fin p)
  | closeF (t : Fin p)
  deriving DecidableEq, Repr

namespace Managers

variable {p m n : ℕ}

def new : Managers p m n where
  log := fun _ => .new
  waited := fun _ => []
  isOpen := fun _ => false
  managed := fun _ => false
  phase := fun _ => .outside
  returned := none

/-- An operation on the events of one manager. -/
def eventStep (s : Managers p m n) (j : Fin m) (op : EventOp n) : Option (Managers p m n) :=
  ((s.log j).step op).map fun log =>
    { s with log := Function.update s.log j log, returned := none }

def setPhase (s : Managers p m n) (t : Fin p) (phase : ClosePhase n) : Managers p m n :=
  { s with phase := Function.update s.phase t phase, returned := none }

/-- A descriptor that is closed leaves the interest sets of all managers. -/
def forget (s : Managers p m n) (fd : Fin n) : Managers p m n :=
  { s with
    log := fun j => { s.log j with table := (s.log j).table.setInterest fd none }
    isOpen := Function.update s.isOpen fd false }

/-- One step; `epoll_ctl` fails on a descriptor that is not open. -/
def step (s : Managers p m n) : CloseOp p m n → Option (Managers p m n)
  | .openF fd =>
    if s.isOpen fd then none
    else some { s with
      isOpen := Function.update s.isOpen fd true
      managed := Function.update s.managed fd true
      returned := none }
  | .register j fd event fiber ok =>
    (s.eventStep j (.addEvent fd event none ⟨some j, fiber, true⟩ (ok && s.isOpen fd))).map
      fun s' => { s' with
        waited := if ok && s.isOpen fd then
          Function.update s.waited j (s.waited j ++ [⟨fd, event, j, .fiber fiber⟩])
          else s.waited }
  | .cancelEvent j fd event ok => s.eventStep j (.cancelEvent fd event (ok && s.isOpen fd))
  | .dispatch j fd reported ok => s.eventStep j (.dispatch fd reported (ok && s.isOpen fd))
  | .close t j fd ok =>
    if s.phase t = .outside then
      if s.managed fd then
        (s.eventStep j (.cancelAll fd (ok && s.isOpen fd))).map (·.setPhase t (.cancelled fd))
      else some (s.setPhase t (.deleted fd))
    else none
  | .del t =>
    match s.phase t with
    | .cancelled fd =>
      some { s.setPhase t (.deleted fd) with managed := Function.update s.managed fd false }
    | _ => none
  | .closeF t =>
    match s.phase t with
    | .deleted fd => some { (s.forget fd).setPhase t .outside with returned := some fd }
    | _ => none

/-- No manager has an event of the descriptor or counts one, and all who have waited on it have
been scheduled, each once. -/
structure Released (s : Managers p m n) (fd : Fin n) : Prop where
  events : ∀ j, (s.log j).table.events fd = .empty
  scheduled : ∀ j, ∀ event ≠ .none, (s.waited j).filter (Scheduled.isFor fd event) =
    (s.log j).table.scheduled.filter (Scheduled.isFor fd event)
  pending : ∀ j, (s.log j).table.pendingEventCount =
    ∑ x ∈ Finset.univ.erase fd, (((s.log j).table.events x).card : ℤ)

/-- A `close` finds no events of the descriptor in other managers than its own, and can cancel those
it finds there; and no fiber registers on a descriptor that is being closed. -/
def Separate (s : Managers p m n) : CloseOp p m n → Prop
  | .close _ k fd ok => ∀ j, (s.log j).table.events fd ≠ .empty →
      j = k ∧ s.managed fd = true ∧ (ok && s.isOpen fd) = true
  | .register _ fd _ _ ok =>
    (ok && s.isOpen fd) = true → ∀ t, (s.phase t).isClosing fd = false
  | _ => True

instance (s : Managers p m n) : ∀ op, Decidable (s.Separate op)
  | .close _ k fd ok => inferInstanceAs (Decidable (∀ j, (s.log j).table.events fd ≠ .empty →
      j = k ∧ s.managed fd = true ∧ (ok && s.isOpen fd) = true))
  | .register _ fd _ _ ok => inferInstanceAs (Decidable ((ok && s.isOpen fd) = true →
      ∀ t, (s.phase t).isClosing fd = false))
  | .openF _ | .cancelEvent .. | .dispatch .. | .del _ | .closeF _ => isTrue trivial

/-- The invariant of the runs in which closing is separate. -/
structure Inv (s : Managers p m n) : Prop where
  balanced : ∀ j, (s.log j).Balanced
  tracked : ∀ j, (s.log j).table.Tracked (s.waited j)
  closing : ∀ t fd, (s.phase t).isClosing fd = true → ∀ j, (s.log j).table.events fd = .empty

variable {s s' : Managers p m n} {fd : Fin n} {j k : Fin m} {t : Fin p} {op : EventOp n}
  {log : EventLog n}

theorem new_inv : Inv (new : Managers p m n) where
  balanced := fun _ => EventLog.balanced_new
  tracked := fun _ => EventTable.tracked_new
  closing := by simp [new, ClosePhase.isClosing]

/-- Without events of the descriptor it is released. -/
theorem Inv.released (h : s.Inv) (hempty : ∀ j, (s.log j).table.events fd = .empty) :
    s.Released fd := by
  refine ⟨hempty, ?_, ?_⟩
  · intro j event hne
    rw [h.tracked j fd event hne, EventTable.waiting, hempty j, Events.has_empty]
    simp
  · intro j
    have hcard : (((s.log j).table.events fd).card : ℤ) = 0 := by
      rw [hempty j]
      rfl
    rw [(h.balanced j).pending, ← Finset.add_sum_erase Finset.univ _ (Finset.mem_univ fd), hcard,
      zero_add]

/-- The other fields do not matter. -/
theorem Inv.congr (h : s.Inv) (hlog : s'.log = s.log) (hwaited : s'.waited = s.waited)
    (hphase : ∀ t fd, (s'.phase t).isClosing fd = true → (s.phase t).isClosing fd = true) :
    s'.Inv := by
  refine ⟨?_, ?_, ?_⟩
  · rw [hlog]
    exact h.balanced
  · rw [hlog, hwaited]
    exact h.tracked
  · intro t fd hclosing
    rw [hlog]
    exact h.closing t fd (hphase t fd hclosing)

/-- A change to the events of one manager. -/
theorem Inv.updateLog (h : s.Inv) {waited : List (Scheduled n)} (hbalanced : log.Balanced)
    (htracked : log.table.Tracked waited)
    (hclosing : ∀ t fd, (s.phase t).isClosing fd = true → log.table.events fd = .empty) :
    Inv { s with
      log := Function.update s.log j log
      waited := Function.update s.waited j waited
      returned := none } := by
  refine ⟨?_, ?_, ?_⟩
  · intro k
    by_cases hk : k = j
    · subst hk
      simpa using hbalanced
    · simpa [hk] using h.balanced k
  · intro k
    by_cases hk : k = j
    · subst hk
      simpa using htracked
    · simpa [hk] using h.tracked k
  · intro t fd ht k
    by_cases hk : k = j
    · subst hk
      simpa using hclosing t fd ht
    · simpa [hk] using h.closing t fd ht k

/-- An operation that only takes events away. -/
theorem Inv.shrink (h : s.Inv) (hlog : (s.log j).step op = some log)
    (hop : (s.log j).HasScheduler op)
    (hshrinks : EventTable.Shrinks (s.log j).table log.table) :
    Inv { s with log := Function.update s.log j log, returned := none } := by
  have hinv := h.updateLog (j := j) (((h.balanced j).step_iff hlog).mpr hop)
    (hshrinks.tracked _ (h.tracked j))
    (fun t fd ht => hshrinks.events fd (h.closing t fd ht j))
  simpa using hinv

theorem Inv.register {event : Event} {fiber : FiberId} {ok : Bool} (h : s.Inv)
    (hg : ok = true → ∀ t, (s.phase t).isClosing fd = false)
    (hlog : (s.log j).step (.addEvent fd event none ⟨some j, fiber, true⟩ ok) = some log) :
    Inv { s with
      log := Function.update s.log j log
      waited := if ok then
        Function.update s.waited j (s.waited j ++ [⟨fd, event, j, .fiber fiber⟩]) else s.waited
      returned := none } := by
  have hbalanced := ((h.balanced j).step_iff hlog).mpr fun _ => rfl
  have hi := (h.balanced j).interest
  rw [EventLog.step] at hlog
  obtain ⟨r, hr, rfl⟩ := EventLog.toOption_map_eq_some hlog
  rcases EventTable.addEvent_cases hi hr with ⟨rfl, rfl⟩ | ⟨rfl, hne, hhas, rfl⟩
  · have hinv := h.updateLog (j := j) hbalanced (h.tracked j) fun t fd ht => h.closing t fd ht j
    simpa using hinv
  · refine h.updateLog hbalanced ((h.tracked j).registered hne hhas rfl) ?_
    intro t x hx
    have hxfd : x ≠ fd := by
      rintro rfl
      rw [hg rfl t] at hx
      cases hx
    change ((s.log j).table.registered fd event _).events x = .empty
    rw [EventTable.events_registered, if_neg hxfd]
    exact h.closing t x hx j

theorem isClosing_update {phase : ClosePhase n} {u : Fin p} {x : Fin n}
    (h : (Function.update s.phase t phase u).isClosing x = true) :
    (u = t ∧ phase.isClosing x = true) ∨ (s.phase u).isClosing x = true := by
  rw [Function.update_apply] at h
  split_ifs at h with hu
  · exact Or.inl ⟨hu, h⟩
  · exact Or.inr h

/-- A thread goes on with the closing of a descriptor without events. -/
theorem Inv.setPhase (h : s.Inv) {phase : ClosePhase n}
    (hphase : ∀ x, phase.isClosing x = true → ∀ j, (s.log j).table.events x = .empty) :
    (s.setPhase t phase).Inv := by
  refine ⟨h.balanced, h.tracked, ?_⟩
  intro u x hx
  rcases isClosing_update hx with ⟨-, hx⟩ | hx
  · exact hphase x hx
  · exact h.closing u x hx

theorem isClosing_cancelled {x : Fin n} :
    (ClosePhase.cancelled fd).isClosing x = true ↔ fd = x := by
  simp [ClosePhase.isClosing]

theorem isClosing_deleted {x : Fin n} : (ClosePhase.deleted fd).isClosing x = true ↔ fd = x := by
  simp [ClosePhase.isClosing]

/-- Without events the kernel has no interest to forget. -/
theorem Inv.forget (h : s.Inv) (hempty : ∀ j, (s.log j).table.events fd = .empty) :
    (s.forget fd).log = s.log := by
  funext j
  have hnone : (s.log j).table.interest fd = none := by
    rw [(h.balanced j).interest fd, hempty j]
    rfl
  have hsame : (s.log j).table.setInterest fd none = (s.log j).table := by
    rw [EventTable.setInterest, ← hnone, Function.update_eq_self]
  change { s.log j with table := (s.log j).table.setInterest fd none } = s.log j
  rw [hsame]

theorem eventStep_eq_some (hs : s.eventStep j op = some s') :
    ∃ log, (s.log j).step op = some log ∧
      s' = { s with log := Function.update s.log j log, returned := none } := by
  obtain ⟨log, hlog, rfl⟩ := Option.map_eq_some_iff.mp hs
  exact ⟨log, hlog, rfl⟩

/-- `close` up to the return of `CancelAll`. -/
theorem Inv.close {ok : Bool} (h : s.Inv) (hg : s.Separate (.close t k fd ok))
    (hs : s.step (.close t k fd ok) = some s') : s'.Inv ∧ s'.returned = none := by
  simp only [step] at hs
  split_ifs at hs with hout hmanaged
  · obtain ⟨s₁, hs₁, rfl⟩ := Option.map_eq_some_iff.mp hs
    obtain ⟨log, hlog, rfl⟩ := eventStep_eq_some hs₁
    have hi := (h.balanced k).interest
    have hlog' := hlog
    rw [EventLog.step] at hlog'
    obtain ⟨r, hr, rfl⟩ := EventLog.toOption_map_eq_some hlog'
    have hinv := h.shrink hlog trivial (EventTable.shrinks_cancelAll hi hr)
    refine ⟨hinv.setPhase ?_, rfl⟩
    intro x hx j
    obtain rfl := isClosing_cancelled.mp hx
    change (Function.update s.log k _ j).table.events fd = .empty
    by_cases hj : j = k
    · subst hj
      rw [Function.update_self]
      exact EventTable.cancelAll_empty hi hr fun hne => (hg j hne).2.2
    · rw [Function.update_of_ne hj]
      by_contra hne
      exact hj (hg j hne).1
  · obtain rfl := Option.some.inj hs
    refine ⟨h.setPhase ?_, rfl⟩
    intro x hx j
    obtain rfl := isClosing_deleted.mp hx
    by_contra hne
    exact hmanaged (hg j hne).2.1

/-- A step keeps the invariant, and the descriptor whose `close` returns is released. -/
theorem Inv.step {op : CloseOp p m n} (h : s.Inv) (hg : s.Separate op)
    (hs : s.step op = some s') : s'.Inv ∧ ∀ fd, s'.returned = some fd → s'.Released fd := by
  cases op with
  | openF fd =>
    simp only [Managers.step] at hs
    split_ifs at hs
    obtain rfl := Option.some.inj hs
    exact ⟨h.congr rfl rfl fun _ _ hx => hx, fun _ hret => by cases hret⟩
  | register j fd event fiber ok =>
    simp only [Managers.step] at hs
    obtain ⟨s₁, hs₁, rfl⟩ := Option.map_eq_some_iff.mp hs
    obtain ⟨log, hlog, rfl⟩ := eventStep_eq_some hs₁
    exact ⟨h.register hg hlog, fun _ hret => by cases hret⟩
  | cancelEvent j fd event ok =>
    obtain ⟨log, hlog, rfl⟩ := eventStep_eq_some hs
    have hlog' := hlog
    rw [EventLog.step] at hlog'
    obtain ⟨r, hr, rfl⟩ := EventLog.toOption_map_eq_some hlog'
    exact ⟨h.shrink hlog trivial (EventTable.shrinks_cancelEvent (h.balanced j).interest hr),
      fun _ hret => by cases hret⟩
  | dispatch j fd reported ok =>
    obtain ⟨log, hlog, rfl⟩ := eventStep_eq_some hs
    have hlog' := hlog
    rw [EventLog.step] at hlog'
    obtain ⟨table, hr, rfl⟩ := EventLog.toOption_map_eq_some hlog'
    exact ⟨h.shrink hlog trivial (EventTable.shrinks_dispatch (h.balanced j).interest hr),
      fun _ hret => by cases hret⟩
  | close t k fd ok =>
    obtain ⟨hinv, hnone⟩ := h.close hg hs
    refine ⟨hinv, fun fd hret => ?_⟩
    rw [hnone] at hret
    cases hret
  | del t =>
    simp only [Managers.step] at hs
    split at hs
    · rename_i fd hphase
      obtain rfl := Option.some.inj hs
      have hinv : (s.setPhase t (.deleted fd)).Inv := by
        refine h.setPhase fun x hx => ?_
        obtain rfl := isClosing_deleted.mp hx
        exact h.closing t fd (by rw [hphase, isClosing_cancelled])
      exact ⟨hinv.congr rfl rfl fun _ _ hx => hx, fun _ hret => by cases hret⟩
    · cases hs
  | closeF t =>
    simp only [Managers.step] at hs
    split at hs
    · rename_i fd hphase
      obtain rfl := Option.some.inj hs
      have hempty := h.closing t fd (by rw [hphase, isClosing_deleted])
      have hforget := h.forget hempty
      have hinv : (s.setPhase t .outside).Inv :=
        h.setPhase fun x hx => by simp [ClosePhase.isClosing] at hx
      have hinv' : Inv { (s.forget fd).setPhase t .outside with returned := some fd } :=
        hinv.congr hforget rfl fun _ _ hx => hx
      refine ⟨hinv', ?_⟩
      intro x hx
      obtain rfl : fd = x := Option.some.inj hx
      refine hinv'.released fun j => ?_
      change ((s.forget fd).log j).table.events fd = .empty
      rw [hforget]
      exact hempty j
    · cases hs

/-- An event left in a manager is still there when the `close` in progress returns. -/
theorem not_released_of_closing (hphase : (s.phase t).isClosing fd = true)
    (hne : (s.log j).table.events fd ≠ .empty) :
    ∃ more u x, run step s more = some u ∧ u.returned = some x ∧ ¬ u.Released x := by
  have hforget : ∀ v : Managers p m n, v.log = s.log → v.phase t = .deleted fd →
      ∃ u, v.step (.closeF t) = some u ∧ u.returned = some fd ∧ ¬ u.Released fd := by
    intro v hlog hv
    refine ⟨{ (v.forget fd).setPhase t .outside with returned := some fd }, ?_, rfl, ?_⟩
    · simp only [step, hv]
    · intro hrel
      have hevents := hrel.events j
      change (v.log j).table.events fd = .empty at hevents
      rw [hlog] at hevents
      exact hne hevents
  simp only [ClosePhase.isClosing, decide_eq_true_eq] at hphase
  rcases hphase with hphase | hphase
  · obtain ⟨u, hu, hret, hnot⟩ := hforget
      { s.setPhase t (.deleted fd) with managed := Function.update s.managed fd false } rfl
      (Function.update_self ..)
    refine ⟨[.del t, .closeF t], u, fd, ?_, hret, hnot⟩
    refine run_cons_iff.mpr ⟨_, ?_, run_cons_iff.mpr ⟨u, hu, rfl⟩⟩
    simp only [step, hphase]
  · obtain ⟨u, hu, hret, hnot⟩ := hforget s rfl hphase
    exact ⟨[.closeF t], u, fd, run_cons_iff.mpr ⟨u, hu, rfl⟩, hret, hnot⟩

/-- A `close` leaves the events of other managers, and its own if it cannot cancel them. -/
theorem event_left_of_close {ok : Bool} (h : s.Inv) (hs : s.step (.close t k fd ok) = some s')
    (hne : (s.log j).table.events fd ≠ .empty)
    (hnot : ¬ (j = k ∧ s.managed fd = true ∧ (ok && s.isOpen fd) = true)) :
    (s'.phase t).isClosing fd = true ∧ (s'.log j).table.events fd ≠ .empty := by
  simp only [step] at hs
  split_ifs at hs with hout hmanaged
  · obtain ⟨s₁, hs₁, rfl⟩ := Option.map_eq_some_iff.mp hs
    obtain ⟨log, hlog, rfl⟩ := eventStep_eq_some hs₁
    have hphase : Function.update s.phase t (.cancelled fd) t = .cancelled fd :=
      Function.update_self ..
    refine ⟨(congrArg _ hphase).trans (isClosing_cancelled.mpr rfl), ?_⟩
    change (Function.update s.log k log j).table.events fd ≠ .empty
    by_cases hj : j = k
    · subst hj
      have hok : (ok && s.isOpen fd) = false := by
        cases hok : (ok && s.isOpen fd) with
        | false => rfl
        | true => exact absurd ⟨rfl, hmanaged, hok⟩ hnot
      have hfalse : (EventOp.cancelAll fd (ok && s.isOpen fd)).ok = false := hok
      obtain rfl := EventLog.step_of_not_ok (h.balanced j).interest hfalse hlog
      rwa [Function.update_self]
    · rwa [Function.update_of_ne hj]
  · obtain rfl := Option.some.inj hs
    have hphase : Function.update s.phase t (.deleted fd) t = .deleted fd :=
      Function.update_self ..
    exact ⟨(congrArg _ hphase).trans (isClosing_deleted.mpr rfl), hne⟩

/-- In every run in which closing is separate, the descriptor whose `close` returns is released in
all managers. Whenever a step is not, there are steps after it that end with the return of a
`close` that has not released its descriptor. -/
theorem released_while_separate (ops : List (CloseOp p m n)) (s : Managers p m n)
    (hr : run step new ops = some s) (hg : Meets step Separate new ops) :
    (∀ fd, s.returned = some fd → s.Released fd) ∧
    ∀ op s', s.step op = some s' → ¬ s.Separate op →
      ∃ more u fd, run step s' more = some u ∧ u.returned = some fd ∧ ¬ u.Released fd := by
  obtain ⟨h, hreleased⟩ := run_invariant
    (fun s : Managers p m n => s.Inv ∧ ∀ fd, s.returned = some fd → s.Released fd)
    (fun _ _ _ h => h.1.step) ⟨new_inv, by simp [new]⟩ hg hr
  refine ⟨hreleased, ?_⟩
  intro op s' hs hnot
  cases op with
  | close t k fd ok =>
    simp only [Separate, not_forall] at hnot
    obtain ⟨j, hne, hnot⟩ := hnot
    obtain ⟨hclosing, hleft⟩ := event_left_of_close h hs hne hnot
    exact not_released_of_closing hclosing hleft
  | register j fd event fiber ok =>
    simp only [Separate, not_forall, Bool.not_eq_false] at hnot
    obtain ⟨hok, t, hclosing⟩ := hnot
    simp only [step, hok] at hs
    obtain ⟨s₁, hs₁, rfl⟩ := Option.map_eq_some_iff.mp hs
    obtain ⟨log, hlog, rfl⟩ := eventStep_eq_some hs₁
    rw [EventLog.step] at hlog
    obtain ⟨r, hr', rfl⟩ := EventLog.toOption_map_eq_some hlog
    have hset : r.2.events fd ≠ .empty := by
      rcases EventTable.addEvent_cases (h.balanced j).interest hr' with
        ⟨hfalse, -⟩ | ⟨-, hne, -, rfl⟩
      · cases hfalse
      · have hhas : (((s.log j).table.events fd).set event).has event = true := by
          simp [Events.has_set _ hne]
        rw [EventTable.events_registered, if_pos rfl]
        exact Events.ne_empty_of_has hhas
    refine not_released_of_closing hclosing (j := j) ?_
    change ((Function.update s.log j _) j).table.events fd ≠ .empty
    rwa [Function.update_self]
  | _ => exact absurd trivial hnot

/-- A fiber of the only manager waits for input; another one of it closes the descriptor. -/
def closedBySame (t j : Fin 1) (fd : Fin 4) : List (CloseOp 1 1 4) :=
  [.openF fd, .register j fd .read 7 true, .close t j fd true, .del t, .closeF t]

theorem released_while_separate_closedBySame : ∃ s,
    run step (new : Managers 1 1 4) (closedBySame 0 0 3) = some s ∧ s.returned = some 3 ∧
      s.Released 3 := by
  have hg : Meets step Separate (new : Managers 1 1 4) (closedBySame 0 0 3) := by decide
  exact ⟨_, rfl, rfl, (released_while_separate (closedBySame 0 0 3) _ rfl hg).1 3 rfl⟩

/-- A fiber of the first manager waits to accept; one of the second closes the socket. -/
def closedByOther (t : Fin 1) (i j : Fin 2) (fd : Fin 4) : List (CloseOp 1 2 4) :=
  [.openF fd, .register i fd .read 7 true, .close t j fd true, .del t, .closeF t]

theorem not_released_by_other : ∃ s,
    run step (new : Managers 1 2 4) (closedByOther 0 0 1 3) = some s ∧ s.returned = some 3 ∧
      (s.log 0).table.events 3 = ⟨true, false⟩ ∧ (s.log 0).table.scheduled = [] ∧
      (s.log 0).table.pendingEventCount = 1 ∧ ¬ s.Released 3 := by
  refine ⟨_, rfl, rfl, rfl, rfl, rfl, ?_⟩
  intro h
  exact absurd (h.events 0) (by decide)

end Managers

end ServerFramework
