import ServerFramework.IOManager.Event
import ServerFramework.Lib.Transition

/-! # Runs of the event operations

What each event operation can do to the event table, and the kernel's interest set, which
in every run is the one that belongs to the registered events.
-/

namespace ServerFramework

namespace Events

@[simp] theorem has_empty (event : Event) : empty.has event = false := by cases event <;> rfl

@[simp] theorem has_none (events : Events) : events.has .none = false := rfl

theorem has_set (events : Events) {event e : Event} (he : e ≠ .none) :
    (events.set event).has e = (events.has e || decide (e = event)) := by
  cases event <;> cases e <;> simp_all [has, set]

theorem has_clear (events : Events) (event e : Event) :
    (events.clear event).has e = (events.has e && decide (e ≠ event)) := by
  cases event <;> cases e <;> simp [has, clear]

/-- Clearing the events of a mask one after the other. -/
theorem foldl_clear_toList (events mask : Events) :
    mask.toList.foldl clear events = events.diff mask := by
  obtain ⟨r, w⟩ := mask
  cases r <;> cases w <;> simp [toList, clear, diff]

theorem ne_none_of_has {events : Events} {event : Event} (h : events.has event = true) :
    event ≠ .none := by
  rintro rfl
  exact absurd h (by simp)

theorem ne_empty_of_has {events : Events} {event : Event} (h : events.has event = true) :
    events ≠ empty := by
  rintro rfl
  exact absurd h (by simp)

theorem ne_empty_of_inter {a b : Events} (h : a.inter b ≠ empty) : a ≠ empty := by
  rintro rfl
  exact h rfl

end Events

namespace FdContext

variable {ctx : FdContext} {event : Event}

def context (ctx : FdContext) : Event → EventContext
  | .read => ctx.readCtx
  | .write => ctx.writeCtx
  | .none => .reset

theorem getEventContext_eq (ctx : FdContext) (he : event ≠ .none) :
    ctx.getEventContext event = .ok (ctx.context event) := by
  cases event <;> simp_all [getEventContext, context]

@[simp] theorem events_setEventContext (ctx : FdContext) (event : Event) (c : EventContext) :
    (ctx.setEventContext event c).events = ctx.events := by
  cases event <;> rfl

@[simp] theorem context_events (ctx : FdContext) (events : Events) :
    ({ ctx with events := events } : FdContext).context = ctx.context := by
  funext event
  cases event <;> rfl

/-- The context after an event has been added. -/
def register (ctx : FdContext) (event : Event) (c : EventContext) : FdContext :=
  { ctx with events := ctx.events.set event }.setEventContext event c

@[simp] theorem events_register (ctx : FdContext) (event : Event) (c : EventContext) :
    (ctx.register event c).events = ctx.events.set event := events_setEventContext _ _ _

/-- The context after an event has been triggered or deleted. -/
def unregister (ctx : FdContext) (event : Event) : FdContext :=
  { ctx with events := ctx.events.clear event }.setEventContext event .reset

@[simp] theorem events_unregister (ctx : FdContext) (event : Event) :
    (ctx.unregister event).events = ctx.events.clear event := events_setEventContext _ _ _

theorem triggerEvent_ok {r : FdContext × SchedulerId × Option Task}
    (h : ctx.triggerEvent event = .ok r) : ctx.events.has event = true ∧
      ∃ scheduler, (ctx.context event).scheduler = some scheduler ∧
        r = (ctx.unregister event, scheduler, (ctx.context event).task) := by
  unfold triggerEvent at h
  split_ifs at h with hhas
  have hne := Events.ne_none_of_has hhas
  simp only [getEventContext_eq _ hne, context_events] at h
  split at h
  · cases h
  · rename_i scheduler hsch
    exact ⟨hhas, scheduler, hsch, (Except.ok.inj h).symm⟩

theorem triggerEvent_assertion (he : event ≠ .none)
    (h : ctx.triggerEvent event = .error .assertion) : ctx.events.has event = false := by
  unfold triggerEvent at h
  split_ifs at h with hhas
  · simp only [getEventContext_eq _ he] at h
    split at h <;> cases h
  · exact eq_false_of_ne_true hhas

end FdContext

/-- The interest that belongs to a set of registered events. -/
def Events.wanted (events : Events) : Option EpollMask :=
  if events = .empty then none else some ⟨true, events⟩

namespace EventTable

variable {n : ℕ} {t t' : EventTable n} {fd : Fin n} {event : Event} {ok : Bool}

/-- The kernel's interest set belongs to the registered events. -/
def Interested (t : EventTable n) : Prop := ∀ fd, t.interest fd = (t.events fd).wanted

theorem events_setContext (t : EventTable n) (fd : Fin n) (ctx : FdContext) (x : Fin n) :
    (t.setContext fd ctx).events x = if x = fd then ctx.events else t.events x := by
  simp only [events, setContext, Function.update_apply]
  split_ifs <;> rfl

theorem interest_setInterest (t : EventTable n) (fd : Fin n) (i : Option EpollMask) (x : Fin n) :
    (t.setInterest fd i).interest x = if x = fd then i else t.interest x :=
  Function.update_apply ..

theorem epollCtl_add (events : Events) (mask : EpollMask) (ok : Bool) :
    epollCtl events.wanted (if events = .empty then .add else .mod) mask ok =
      if ok then some (some mask) else none := by
  by_cases he : events = .empty <;> cases ok <;> simp [Events.wanted, epollCtl, he]

theorem epollCtl_shrink {events : Events} (he : events ≠ .empty) (left : Events) (ok : Bool) :
    epollCtl events.wanted (if left = .empty then .del else .mod) ⟨true, left⟩ ok =
      if ok then some left.wanted else none := by
  by_cases hl : left = .empty <;> cases ok <;> simp [Events.wanted, epollCtl, he, hl]

/-- The context that `AddEvent` fills in. -/
def newContext (cb : Option Callback) (caller : Caller) : EventContext :=
  match cb with
  | some cb => ⟨caller.scheduler, none, some cb⟩
  | none => ⟨caller.scheduler, some caller.fiber, none⟩

/-- The table after an event has been registered. -/
def registered (t : EventTable n) (fd : Fin n) (event : Event) (c : EventContext) :
    EventTable n :=
  { (t.setInterest fd ((t.events fd).set event).wanted).setContext fd
      ((t.fdContexts fd).register event c) with
    pendingEventCount := t.pendingEventCount + 1 }

/-- The table after an event has been cleared and `calls` of `Schedule` have been made. -/
def finished (t : EventTable n) (fd : Fin n) (event : Event) (calls : List (Scheduled n)) :
    EventTable n :=
  { t.setContext fd ((t.fdContexts fd).unregister event) with
    pendingEventCount := t.pendingEventCount - 1
    scheduled := t.scheduled ++ calls }

theorem events_registered (t : EventTable n) (fd : Fin n) (event : Event) (c : EventContext)
    (x : Fin n) : (t.registered fd event c).events x =
      if x = fd then (t.events fd).set event else t.events x := by
  have h := events_setContext t fd ((t.fdContexts fd).register event c) x
  rwa [FdContext.events_register] at h

theorem events_finished (t : EventTable n) (fd : Fin n) (event : Event)
    (calls : List (Scheduled n)) (x : Fin n) : (t.finished fd event calls).events x =
      if x = fd then (t.events fd).clear event else t.events x := by
  have h := events_setContext t fd ((t.fdContexts fd).unregister event) x
  rwa [FdContext.events_unregister] at h

theorem addEvent_cases (hi : t.Interested) {cb : Option Callback} {caller : Caller}
    {r : ℤ × EventTable n} (h : t.addEvent fd event cb caller ok = .ok r) :
    (ok = false ∧ r = (-1, t)) ∨
      (ok = true ∧ event ≠ .none ∧ (t.events fd).has event = false ∧
        r = (0, t.registered fd event (newContext cb caller))) := by
  unfold addEvent at h
  dsimp only at h
  by_cases hhas : (t.fdContexts fd).events.has event = true
  · rw [if_pos hhas] at h
    cases h
  rw [if_neg hhas, show (t.fdContexts fd).events = t.events fd from rfl, hi, epollCtl_add] at h
  cases ok with
  | false => exact Or.inl ⟨rfl, (Except.ok.inj h).symm⟩
  | true =>
    right
    have hne : event ≠ .none := by
      rintro rfl
      cases h
    simp only [if_true, FdContext.getEventContext_eq _ hne, FdContext.context_events] at h
    split_ifs at h
    have hset : ((t.events fd).set event).has event = true := by simp [Events.has_set _ hne]
    refine ⟨rfl, hne, eq_false_of_ne_true hhas, ?_⟩
    rw [registered, Events.wanted, if_neg (Events.ne_empty_of_has hset)]
    exact (Except.ok.inj h).symm

/-- An event is given up only if it is registered and `epoll_ctl` succeeds. -/
theorem clear_cases (hi : t.Interested) {β : Type} {k : Option EpollMask → β} {failed r : β}
    (h : (if !(t.events fd).has event then failed
      else
        match epollCtl (t.interest fd) (if (t.events fd).clear event = .empty then .del else .mod)
          ⟨true, (t.events fd).clear event⟩ ok with
        | none => failed
        | some interest => k interest) = r) :
    r = failed ∨ (ok = true ∧ (t.events fd).has event = true ∧
      r = k ((t.events fd).clear event).wanted) := by
  rw [hi] at h
  cases hhas : (t.events fd).has event with
  | false =>
    rw [hhas] at h
    exact .inl h.symm
  | true =>
    rw [hhas, epollCtl_shrink (Events.ne_empty_of_has hhas)] at h
    cases ok with
    | false => exact .inl h.symm
    | true => exact .inr ⟨rfl, rfl, h.symm⟩

theorem delEvent_cases (hi : t.Interested) {r : Bool × EventTable n}
    (h : t.delEvent fd event ok = .ok r) :
    r = (false, t) ∨ (ok = true ∧ (t.events fd).has event = true ∧
      r = (true, (t.setInterest fd ((t.events fd).clear event).wanted).finished fd event [])) := by
  rcases clear_cases hi h with hr | ⟨hok, hhas, hr⟩
  · exact .inl (Except.ok.inj hr)
  · refine .inr ⟨hok, hhas, ?_⟩
    simp only [FdContext.getEventContext_eq _ (Events.ne_none_of_has hhas), Except.ok.injEq] at hr
    rw [hr, finished, List.append_nil]
    rfl

theorem cancelEvent_cases (hi : t.Interested) {r : Bool × EventTable n}
    (h : t.cancelEvent fd event ok = .ok r) :
    r = (false, t) ∨ (ok = true ∧ (t.events fd).has event = true ∧
      (t.setInterest fd ((t.events fd).clear event).wanted).trigger fd event = .ok r.2) := by
  rcases clear_cases hi h with hr | ⟨hok, hhas, hr⟩
  · exact .inl (Except.ok.inj hr)
  · refine .inr ⟨hok, hhas, ?_⟩
    cases ht : (t.setInterest fd ((t.events fd).clear event).wanted).trigger fd event with
    | error fault =>
      rw [ht] at hr
      cases hr
    | ok u =>
      rw [ht] at hr
      rw [Except.ok.inj hr]

theorem cancelAll_cases (hi : t.Interested) {r : Bool × EventTable n}
    (h : t.cancelAll fd ok = .ok r) :
    r = (false, t) ∨ ok = true ∧ ∃ u, (t.setInterest fd none).triggerRegistered fd .read = .ok u ∧
      u.triggerRegistered fd .write = .ok r.2 ∧ r.2.events fd = .empty := by
  unfold cancelAll at h
  by_cases he : t.events fd = .empty
  · rw [if_pos he] at h
    exact Or.inl (Except.ok.inj h).symm
  rw [if_neg he, hi, Events.wanted, if_neg he] at h
  cases ok with
  | false => exact Or.inl (Except.ok.inj h).symm
  | true =>
    simp only [epollCtl] at h
    split at h
    · cases h
    · rename_i u hu
      split at h
      · cases h
      · rename_i v hv
        split_ifs at h with hempty
        obtain rfl := Except.ok.inj h
        exact Or.inr ⟨rfl, u, hu, hv, hempty⟩

/-- The events reported are given up unless none of them is registered or `epoll_ctl` fails. -/
theorem diff_eq (hi : t.Interested) {β : Type} (k : Option EpollMask → β) (unchanged : β)
    (fd : Fin n) (reported : Events) (ok : Bool) :
    (if (t.events fd).inter reported = .empty then unchanged
      else
        match epollCtl (t.interest fd) (if (t.events fd).diff reported = .empty then .del else .mod)
          ⟨true, (t.events fd).diff reported⟩ ok with
        | none => unchanged
        | some interest => k interest) =
      if ok = false ∨ (t.events fd).inter reported = .empty then unchanged
      else k ((t.events fd).diff reported).wanted := by
  by_cases hin : (t.events fd).inter reported = .empty
  · simp [hin]
  · rw [if_neg hin, hi, epollCtl_shrink (Events.ne_empty_of_inter hin)]
    cases ok <;> simp [hin]

/-- `dispatch` does nothing, or it triggers the events reported. -/
theorem dispatch_eq (hi : t.Interested) (fd : Fin n) (reported : Reported) (ok : Bool) :
    t.dispatch fd reported ok =
      if ok = false ∨ (t.events fd).inter (t.realEvents fd reported) = .empty then .ok t
      else (t.realEvents fd reported).toList.foldlM (trigger fd)
        (t.setInterest fd ((t.events fd).diff (t.realEvents fd reported)).wanted) :=
  diff_eq hi (fun interest => (t.realEvents fd reported).toList.foldlM (trigger fd)
    (t.setInterest fd interest)) (.ok t) fd (t.realEvents fd reported) ok

theorem trigger_ok (h : t.trigger fd event = .ok t') : (t.events fd).has event = true ∧
    ∃ scheduler, ((t.fdContexts fd).context event).scheduler = some scheduler ∧
      t' = t.finished fd event
        (((t.fdContexts fd).context event).task.map (⟨fd, event, scheduler, ·⟩)).toList := by
  unfold trigger at h
  split at h
  · cases h
  · rename_i ctx scheduler task htrig
    obtain ⟨hhas, sch, hsch, heq⟩ := FdContext.triggerEvent_ok htrig
    simp only [Prod.mk.injEq] at heq
    obtain ⟨rfl, rfl, rfl⟩ := heq
    exact ⟨hhas, scheduler, hsch, (Except.ok.inj h).symm⟩

theorem trigger_assertion (he : event ≠ .none) (h : t.trigger fd event = .error .assertion) :
    (t.events fd).has event = false := by
  unfold trigger at h
  split at h
  · rename_i fault htrig
    obtain rfl := Except.error.inj h
    exact FdContext.triggerEvent_assertion he htrig
  · cases h

/-- Only the event that is triggered is cleared. -/
theorem events_trigger (h : t.trigger fd event = .ok t') (x : Fin n) :
    t'.events x = if x = fd then (t.events fd).clear event else t.events x := by
  obtain ⟨-, scheduler, -, rfl⟩ := trigger_ok h
  exact events_finished t fd event _ x

theorem interest_trigger (h : t.trigger fd event = .ok t') : t'.interest = t.interest := by
  obtain ⟨-, scheduler, -, rfl⟩ := trigger_ok h
  rfl

/-- The first event is triggered before the others. -/
theorem foldlM_trigger_cons {events : List Event}
    (h : (event :: events).foldlM (trigger fd) t = .ok t') :
    ∃ u, t.trigger fd event = .ok u ∧ events.foldlM (trigger fd) u = .ok t' := by
  rw [List.foldlM_cons] at h
  cases hu : t.trigger fd event with
  | error fault =>
    rw [hu] at h
    cases h
  | ok u =>
    rw [hu] at h
    exact ⟨u, rfl, h⟩

theorem foldlM_trigger {events : List Event} (h : events.foldlM (trigger fd) t = .ok t') :
    t'.interest = t.interest ∧ ∀ x, t'.events x =
      if x = fd then events.foldl Events.clear (t.events fd) else t.events x := by
  induction events generalizing t with
  | nil =>
    obtain rfl := Except.ok.inj h
    refine ⟨rfl, ?_⟩
    intro x
    split_ifs with hx
    · rw [hx, List.foldl_nil]
    · rfl
  | cons event events ih =>
    obtain ⟨u, hu, h⟩ := foldlM_trigger_cons h
    obtain ⟨hi, hev⟩ := ih h
    refine ⟨hi.trans (interest_trigger hu), ?_⟩
    intro x
    rw [hev x, List.foldl_cons, events_trigger hu fd, events_trigger hu x, if_pos rfl]
    split_ifs <;> rfl

theorem triggerRegistered_events (h : t.triggerRegistered fd event = .ok t') :
    t'.interest = t.interest ∧ ∀ x ≠ fd, t'.events x = t.events x := by
  rw [triggerRegistered] at h
  split_ifs at h
  · exact ⟨interest_trigger h, fun x hx => (events_trigger h x).trans (if_neg hx)⟩
  · obtain rfl := Except.ok.inj h
    exact ⟨rfl, fun _ _ => rfl⟩

/-- An operation that leaves a descriptor with the interest for its events keeps the interest
set in order. -/
theorem Interested.update (h : t.Interested) {events : Events}
    (hi : t'.interest = (t.setInterest fd events.wanted).interest)
    (hev : ∀ x, t'.events x = if x = fd then events else t.events x) : t'.Interested := by
  intro x
  rw [hi, hev, interest_setInterest]
  split_ifs
  · rfl
  · exact h x

theorem Interested.addEvent (h : t.Interested) {cb : Option Callback} {caller : Caller}
    {r : ℤ × EventTable n} (hr : t.addEvent fd event cb caller ok = .ok r) : r.2.Interested := by
  rcases addEvent_cases h hr with ⟨-, rfl⟩ | ⟨-, -, -, rfl⟩
  · exact h
  · exact h.update rfl (events_registered t fd event _)

theorem Interested.delEvent (h : t.Interested) {r : Bool × EventTable n}
    (hr : t.delEvent fd event ok = .ok r) : r.2.Interested := by
  rcases delEvent_cases h hr with rfl | ⟨-, -, rfl⟩
  · exact h
  · exact h.update rfl (events_finished _ fd event [])

theorem Interested.cancelEvent (h : t.Interested) {r : Bool × EventTable n}
    (hr : t.cancelEvent fd event ok = .ok r) : r.2.Interested := by
  rcases cancelEvent_cases h hr with rfl | ⟨-, -, ht⟩
  · exact h
  · have hev := events_trigger ht
    exact h.update (interest_trigger ht) hev

theorem Interested.cancelAll (h : t.Interested) {r : Bool × EventTable n}
    (hr : t.cancelAll fd ok = .ok r) : r.2.Interested := by
  rcases cancelAll_cases h hr with rfl | ⟨-, u, hu, hv, hempty⟩
  · exact h
  · obtain ⟨hi, hev⟩ := triggerRegistered_events hu
    obtain ⟨hi', hev'⟩ := triggerRegistered_events hv
    have hinterest : r.2.interest = (t.setInterest fd Events.empty.wanted).interest := hi'.trans hi
    refine h.update hinterest fun x => ?_
    split_ifs with hx
    · rw [hx]
      exact hempty
    · exact (hev' x hx).trans (hev x hx)

theorem Interested.dispatch (h : t.Interested) {reported : Reported}
    (hr : t.dispatch fd reported ok = .ok t') : t'.Interested := by
  rw [dispatch_eq h] at hr
  split_ifs at hr
  · obtain rfl := Except.ok.inj hr
    exact h
  · obtain ⟨hi, hev⟩ := foldlM_trigger hr
    rw [Events.foldl_clear_toList] at hev
    exact h.update hi hev

end EventTable

/-- The event operations of any thread on any descriptor, with the outcome of `epoll_ctl`. -/
inductive EventOp (n : ℕ) where
  | addEvent (fd : Fin n) (event : Event) (cb : Option Callback) (caller : Caller) (ok : Bool)
  | delEvent (fd : Fin n) (event : Event) (ok : Bool)
  | cancelEvent (fd : Fin n) (event : Event) (ok : Bool)
  | cancelAll (fd : Fin n) (ok : Bool)
  | dispatch (fd : Fin n) (reported : Reported) (ok : Bool)
  deriving DecidableEq, Repr

/-- The outcome of the `epoll_ctl` call of an operation. -/
def EventOp.ok {n : ℕ} : EventOp n → Bool
  | .addEvent _ _ _ _ ok => ok
  | .delEvent _ _ ok => ok
  | .cancelEvent _ _ ok => ok
  | .cancelAll _ ok => ok
  | .dispatch _ _ ok => ok

/-- The event table with the successful calls of `AddEvent` and `DelEvent` so far. -/
structure EventLog (n : ℕ) where
  table : EventTable n
  added : List (Fin n × Event)
  deleted : List (Fin n × Event)

namespace EventLog

variable {n : ℕ}

def new : EventLog n := ⟨.new, [], []⟩

/-- One operation; a fault ends the run. -/
def step (s : EventLog n) : EventOp n → Option (EventLog n)
  | .addEvent fd event cb caller ok =>
    (s.table.addEvent fd event cb caller ok).toOption.map fun r =>
      { s with table := r.2, added := s.added ++ if r.1 = (0 : ℤ) then [(fd, event)] else [] }
  | .delEvent fd event ok =>
    (s.table.delEvent fd event ok).toOption.map fun r =>
      { s with table := r.2, deleted := s.deleted ++ if r.1 then [(fd, event)] else [] }
  | .cancelEvent fd event ok =>
    (s.table.cancelEvent fd event ok).toOption.map fun r => { s with table := r.2 }
  | .cancelAll fd ok => (s.table.cancelAll fd ok).toOption.map fun r => { s with table := r.2 }
  | .dispatch fd reported ok =>
    (s.table.dispatch fd reported ok).toOption.map fun table => { s with table := table }

theorem toOption_map_eq_some {α β : Type*} {x : Except Fault α} {f : α → β} {b : β}
    (h : x.toOption.map f = some b) : ∃ a, x = .ok a ∧ f a = b := by
  cases x with
  | error fault => cases h
  | ok a => exact ⟨a, rfl, Option.some.inj h⟩

theorem interested_new : (new : EventLog n).table.Interested := fun _ => rfl

/-- Whatever an operation returns, the interest set stays in order. -/
theorem interested_step {s s' : EventLog n} {op : EventOp n} (h : s.table.Interested)
    (hs : s.step op = some s') : s'.table.Interested := by
  cases op with
  | addEvent fd event cb caller ok =>
    rw [step] at hs
    obtain ⟨r, hr, rfl⟩ := toOption_map_eq_some hs
    exact h.addEvent hr
  | delEvent fd event ok =>
    rw [step] at hs
    obtain ⟨r, hr, rfl⟩ := toOption_map_eq_some hs
    exact h.delEvent hr
  | cancelEvent fd event ok =>
    rw [step] at hs
    obtain ⟨r, hr, rfl⟩ := toOption_map_eq_some hs
    exact h.cancelEvent hr
  | cancelAll fd ok =>
    rw [step] at hs
    obtain ⟨r, hr, rfl⟩ := toOption_map_eq_some hs
    exact h.cancelAll hr
  | dispatch fd reported ok =>
    rw [step] at hs
    obtain ⟨t, hr, rfl⟩ := toOption_map_eq_some hs
    exact h.dispatch hr

theorem interested_run {ops : List (EventOp n)} {s : EventLog n}
    (hr : Transition.run step new ops = some s) : s.table.Interested :=
  Transition.run_invariant (G := fun _ _ => True) (fun s => s.table.Interested)
    (fun _ _ _ h _ => interested_step h) interested_new
    (Transition.meets_of_forall (fun _ _ => trivial) _ _) hr

end EventLog

end ServerFramework
