import Mathlib.Algebra.BigOperators.Fin
import Mathlib.Data.List.Count
import ServerFramework.IOManager.Interest
import ServerFramework.Lib.Tally

/-! # Event accounting

In every run of the event operations the counter of pending events, the event contexts, the
kernel's interest set and the tasks scheduled agree with the registered events, as long as
events are added by threads that have a scheduler.
-/

namespace ServerFramework

open scoped BigOperators

theorem Events.card_set {events : Events} {event : Event} (he : event ≠ .none)
    (h : events.has event = false) : (events.set event).card = events.card + 1 := by
  obtain ⟨r, w⟩ := events
  cases event <;> simp_all [has, set, card]
  omega

theorem Events.card_clear {events : Events} {event : Event} (h : events.has event = true) :
    (events.clear event).card + 1 = events.card := by
  obtain ⟨r, w⟩ := events
  cases event <;> simp_all [has, clear, card]
  omega

/-- An event context that can be triggered. -/
def EventContext.Armed (c : EventContext) : Prop :=
  c.scheduler.isSome ∧ Xor (c.cb.isSome = true) (c.fiber.isSome = true)

theorem EventContext.Armed.task_isSome {c : EventContext} (h : c.Armed) : c.task.isSome := by
  rcases h.2 with ⟨hcb, -⟩ | ⟨hf, hcb⟩
  · obtain ⟨cb, hcb⟩ := Option.isSome_iff_exists.mp hcb
    simp [task, hcb]
  · have hcb : c.cb = none := by simpa using hcb
    simpa [task, hcb] using hf

theorem EventTable.newContext_armed_iff (cb : Option Callback) (caller : Caller) :
    (newContext cb caller).Armed ↔ caller.scheduler.isSome := by
  cases cb <;> simp [newContext, EventContext.Armed, Xor]

namespace FdContext

variable {ctx : FdContext} {event : Event}

/-- The contexts of the registered events are armed and the others are reset. -/
def Consistent (ctx : FdContext) : Prop :=
  ∀ event ≠ .none,
    if ctx.events.has event then (ctx.context event).Armed else ctx.context event = .reset

theorem context_setEventContext (ctx : FdContext) (c : EventContext) {e : Event}
    (he : e ≠ .none) :
    (ctx.setEventContext event c).context e = if e = event then c else ctx.context e := by
  cases event <;> cases e <;> simp_all [setEventContext, context]

theorem new_consistent : Consistent new := by
  intro event _
  cases event <;> simp [new, context]

theorem Consistent.register_iff (h : ctx.Consistent) (hne : event ≠ .none) (c : EventContext) :
    (ctx.register event c).Consistent ↔ c.Armed := by
  have hctx : ∀ e ≠ .none, (ctx.register event c).context e =
      if e = event then c else ctx.context e := by
    intro e he
    rw [register, context_setEventContext _ _ he, context_events]
  constructor
  · intro hr
    simpa [events_register, Events.has_set _ hne, hctx event hne] using hr event hne
  · intro hc e he
    rw [events_register, Events.has_set _ he, hctx e he]
    by_cases hee : e = event
    · simp [hee, hc]
    · simpa [hee] using h e he

theorem Consistent.unregister (h : ctx.Consistent) (event : Event) :
    (ctx.unregister event).Consistent := by
  intro e he
  rw [events_unregister, Events.has_clear, FdContext.unregister, context_setEventContext _ _ he,
    context_events]
  by_cases hee : e = event
  · simp [hee]
  · simpa [hee] using h e he

end FdContext

def Scheduled.isFor {n : ℕ} (fd : Fin n) (event : Event) (c : Scheduled n) : Bool :=
  c.fd = fd ∧ c.event = event

namespace EventLog

variable {n : ℕ} {s : EventLog n} {fd : Fin n} {event : Event}

/-- As many events were added as were scheduled, deleted or are still registered. -/
def Delivered (s : EventLog n) (fd : Fin n) (event : Event) : Prop :=
  s.added.count (fd, event) = s.table.scheduled.countP (Scheduled.isFor fd event) +
    s.deleted.count (fd, event) + ((s.table.events fd).has event).toNat

/-- What holds between any two operations, the interest set apart. -/
structure Accounted (s : EventLog n) : Prop where
  pending : s.table.pendingEventCount = ∑ fd, ((s.table.events fd).card : ℤ)
  contexts : ∀ fd, (s.table.fdContexts fd).Consistent
  delivered : ∀ fd, ∀ event ≠ .none, s.Delivered fd event

/-- What holds between any two operations. -/
structure Balanced (s : EventLog n) : Prop extends Accounted s where
  interest : s.table.Interested

/-- What an operation on one descriptor has to show. -/
theorem Accounted.update (h : Accounted s) {s' : EventLog n} {ctx : FdContext}
    (hc : s'.table.fdContexts = Function.update s.table.fdContexts fd ctx)
    (hctx : ctx.Consistent)
    (hp : s'.table.pendingEventCount =
      s.table.pendingEventCount - (s.table.events fd).card + ctx.events.card)
    (hd : ∀ x, ∀ e ≠ .none, s'.Delivered x e) : Accounted s' := by
  refine ⟨?_, ?_, hd⟩
  · have hsum := Tally.sum_update_add (fun c : FdContext => (c.events.card : ℤ))
      s.table.fdContexts fd ctx
    simp only [h.pending, EventTable.events] at hp
    simp only [EventTable.events, hc, hp]
    omega
  · intro x
    rw [hc]
    by_cases hx : x = fd
    · subst hx
      rwa [Function.update_self]
    · rw [Function.update_of_ne hx]
      exact h.contexts x

theorem count_pair (fd x : Fin n) (event e : Event) :
    [(fd, event)].count (x, e) = if x = fd ∧ e = event then 1 else 0 := by
  simp only [List.count_singleton, beq_iff_eq, Prod.mk.injEq, eq_comm (a := fd),
    eq_comm (a := event)]

/-- An event that is registered is counted. -/
theorem Accounted.registered (h : Accounted s) {c : EventContext} (hne : event ≠ .none)
    (hhas : (s.table.events fd).has event = false) (hc : c.Armed) :
    Accounted { s with
      table := s.table.registered fd event c, added := s.added ++ [(fd, event)] } := by
  refine h.update rfl (((h.contexts fd).register_iff hne c).mpr hc) ?_ ?_
  · have hcard := Events.card_set hne hhas
    simp only [FdContext.events_register, EventTable.events, EventTable.registered] at hcard ⊢
    omega
  · intro x e he
    have hold := h.delivered x e he
    have hbit : (((s.table.registered fd event c).events x).has e).toNat =
        ((s.table.events x).has e).toNat + if x = fd ∧ e = event then 1 else 0 := by
      rw [EventTable.events_registered]
      by_cases hx : x = fd
      · subst hx
        by_cases hee : e = event
        · subst hee
          simp [Events.has_set _ he, hhas]
        · simp [Events.has_set _ he, hee]
      · simp [hx]
    simp only [Delivered, List.count_append, count_pair, hbit] at hold ⊢
    rw [hold]
    exact Nat.add_assoc _ _ _

/-- An event that is cleared has been scheduled or deleted. -/
theorem Accounted.finished (h : Accounted s) (hhas : (s.table.events fd).has event = true)
    {calls : List (Scheduled n)} {deleted : List (Fin n × Event)}
    (hfin : ∀ x e, calls.countP (Scheduled.isFor x e) + deleted.count (x, e) =
      if x = fd ∧ e = event then 1 else 0) :
    Accounted { s with
      table := s.table.finished fd event calls, deleted := s.deleted ++ deleted } := by
  refine h.update rfl ((h.contexts fd).unregister event) ?_ ?_
  · have hcard := Events.card_clear hhas
    simp only [FdContext.events_unregister, EventTable.events, EventTable.finished] at hcard ⊢
    omega
  · intro x e he
    have hold := h.delivered x e he
    have hbit : ((s.table.events x).has e).toNat = (if x = fd ∧ e = event then 1 else 0) +
        (((s.table.finished fd event calls).events x).has e).toNat := by
      rw [EventTable.events_finished]
      by_cases hx : x = fd
      · subst hx
        by_cases hee : e = event
        · subst hee
          simp [Events.has_clear, hhas]
        · simp [Events.has_clear, hee]
      · simp [hx]
    have hcalls : (s.table.finished fd event calls).scheduled.countP (Scheduled.isFor x e) =
        s.table.scheduled.countP (Scheduled.isFor x e) + calls.countP (Scheduled.isFor x e) :=
      List.countP_append
    have hone := hfin x e
    simp only [Delivered, List.count_append, hcalls] at hold ⊢
    omega

theorem Accounted.setInterest (h : Accounted s) (fd : Fin n) (interest : Option EpollMask) :
    Accounted { s with table := s.table.setInterest fd interest } :=
  ⟨h.pending, h.contexts, h.delivered⟩

/-- Triggering an event schedules one task for it. -/
theorem Accounted.trigger (h : Accounted s) {t : EventTable n}
    (ht : s.table.trigger fd event = .ok t) : Accounted { s with table := t } := by
  obtain ⟨hhas, scheduler, -, rfl⟩ := EventTable.trigger_ok ht
  have harmed : ((s.table.fdContexts fd).context event).Armed := by
    have hctx := h.contexts fd event (Events.ne_none_of_has hhas)
    rwa [show (s.table.fdContexts fd).events = s.table.events fd from rfl, if_pos hhas] at hctx
  obtain ⟨task, htask⟩ := Option.isSome_iff_exists.mp harmed.task_isSome
  rw [htask]
  have hone : ∀ x e, [(⟨fd, event, scheduler, task⟩ : Scheduled n)].countP (Scheduled.isFor x e) +
      ([] : List (Fin n × Event)).count (x, e) = if x = fd ∧ e = event then 1 else 0 := by
    intro x e
    simp only [List.countP_singleton, Scheduled.isFor, decide_eq_true_eq, eq_comm (a := fd),
      eq_comm (a := event), List.count_nil, Nat.add_zero]
  simpa using h.finished hhas hone

theorem Accounted.foldlM_trigger {events : List Event} (h : Accounted s) {t : EventTable n}
    (ht : events.foldlM (EventTable.trigger fd) s.table = .ok t) :
    Accounted { s with table := t } := by
  induction events generalizing s with
  | nil =>
    obtain rfl := Except.ok.inj ht
    exact h
  | cons event events ih =>
    obtain ⟨u, hu, ht⟩ := EventTable.foldlM_trigger_cons ht
    exact ih (s := { s with table := u }) (h.trigger hu) ht

theorem Accounted.triggerRegistered (h : Accounted s) {t : EventTable n}
    (ht : s.table.triggerRegistered fd event = .ok t) : Accounted { s with table := t } := by
  rw [EventTable.triggerRegistered] at ht
  split_ifs at ht
  · exact h.trigger ht
  · obtain rfl := Except.ok.inj ht
    exact h

theorem balanced_new : Balanced (new : EventLog n) where
  pending := by simp [new, EventTable.new, EventTable.events, FdContext.new, Events.card,
    Events.empty]
  contexts := fun _ => FdContext.new_consistent
  delivered := by
    intro fd event _
    simp [Delivered, new, EventTable.new, EventTable.events, FdContext.new]
  interest := interested_new

/-- An event is added only by a thread that has a scheduler. -/
def HasScheduler (_ : EventLog n) : EventOp n → Prop
  | .addEvent _ _ _ caller ok => ok = true → caller.scheduler.isSome
  | _ => True

/-- An operation keeps the accounts if and only if an event it adds gets a scheduler. -/
theorem Balanced.accounted_step_iff {op : EventOp n} {s' : EventLog n} (h : Balanced s)
    (hs : s.step op = some s') : Accounted s' ↔ s.HasScheduler op := by
  obtain ⟨ha, hi⟩ := h
  cases op with
  | addEvent fd event cb caller ok =>
    rw [step] at hs
    obtain ⟨r, hr, rfl⟩ := toOption_map_eq_some hs
    rcases EventTable.addEvent_cases hi hr with ⟨rfl, rfl⟩ | ⟨rfl, hne, hhas, rfl⟩
    · simpa [HasScheduler] using ha
    · simp only [HasScheduler, true_implies, if_true, ← EventTable.newContext_armed_iff cb]
      constructor
      · intro ha'
        have hctx := ha'.contexts fd
        rw [← (ha.contexts fd).register_iff hne]
        simpa [EventTable.registered, EventTable.setContext] using hctx
      · exact ha.registered hne hhas
  | delEvent fd event ok =>
    rw [step] at hs
    obtain ⟨r, hr, rfl⟩ := toOption_map_eq_some hs
    refine iff_of_true ?_ trivial
    rcases EventTable.delEvent_cases hi hr with rfl | ⟨-, hhas, rfl⟩
    · simpa using ha
    · apply (ha.setInterest fd _).finished hhas
      intro x e
      simpa using count_pair fd x event e
  | cancelEvent fd event ok =>
    rw [step] at hs
    obtain ⟨r, hr, rfl⟩ := toOption_map_eq_some hs
    refine iff_of_true ?_ trivial
    rcases EventTable.cancelEvent_cases hi hr with rfl | ⟨-, -, ht⟩
    · exact ha
    · exact (ha.setInterest fd _).trigger ht
  | cancelAll fd ok =>
    rw [step] at hs
    obtain ⟨r, hr, rfl⟩ := toOption_map_eq_some hs
    refine iff_of_true ?_ trivial
    rcases EventTable.cancelAll_cases hi hr with rfl | ⟨-, u, hu, hv, -⟩
    · exact ha
    · exact ((ha.setInterest fd none).triggerRegistered hu).triggerRegistered hv
  | dispatch fd reported ok =>
    rw [step] at hs
    obtain ⟨t, hr, rfl⟩ := toOption_map_eq_some hs
    refine iff_of_true ?_ trivial
    rw [EventTable.dispatch_eq hi] at hr
    split_ifs at hr
    · obtain rfl := Except.ok.inj hr
      exact ha
    · exact (ha.setInterest fd _).foldlM_trigger hr

theorem Balanced.step_iff {op : EventOp n} {s' : EventLog n} (h : Balanced s)
    (hs : s.step op = some s') : Balanced s' ↔ s.HasScheduler op := by
  rw [← h.accounted_step_iff hs]
  exact ⟨Balanced.toAccounted, fun ha => ⟨ha, interested_step h.interest hs⟩⟩

/-- A failing `epoll_ctl` changes nothing. -/
theorem step_of_not_ok {op : EventOp n} {s' : EventLog n} (hi : s.table.Interested)
    (hop : op.ok = false) (hs : s.step op = some s') : s' = s := by
  cases op with
  | addEvent fd event cb caller b =>
    obtain rfl : b = false := hop
    rw [step] at hs
    obtain ⟨r, hr, rfl⟩ := toOption_map_eq_some hs
    rcases EventTable.addEvent_cases hi hr with ⟨-, rfl⟩ | ⟨hb, -⟩
    · simp
    · cases hb
  | delEvent fd event b =>
    obtain rfl : b = false := hop
    rw [step] at hs
    obtain ⟨r, hr, rfl⟩ := toOption_map_eq_some hs
    rcases EventTable.delEvent_cases hi hr with rfl | ⟨hb, -⟩
    · simp
    · cases hb
  | cancelEvent fd event b =>
    obtain rfl : b = false := hop
    rw [step] at hs
    obtain ⟨r, hr, rfl⟩ := toOption_map_eq_some hs
    rcases EventTable.cancelEvent_cases hi hr with rfl | ⟨hb, -⟩
    · rfl
    · cases hb
  | cancelAll fd b =>
    obtain rfl : b = false := hop
    rw [step] at hs
    obtain ⟨r, hr, rfl⟩ := toOption_map_eq_some hs
    rcases EventTable.cancelAll_cases hi hr with rfl | ⟨hb, -⟩
    · rfl
    · cases hb
  | dispatch fd reported b =>
    obtain rfl : b = false := hop
    rw [step] at hs
    obtain ⟨t, hr, rfl⟩ := toOption_map_eq_some hs
    rw [EventTable.dispatch_eq hi, if_pos (Or.inl rfl)] at hr
    obtain rfl := Except.ok.inj hr
    rfl

/-- In every run, the balance holds between any two operations if and only if every event added
gets a scheduler; a failing `epoll_ctl` never changes anything. -/
theorem balanced_iff_hasScheduler (ops : List (EventOp n)) (s : EventLog n)
    (hr : Transition.run step new ops = some s) :
    (Transition.Always step Balanced new ops ↔ Transition.Meets step HasScheduler new ops) ∧
      ∀ op s', op.ok = false → s.step op = some s' → s' = s := by
  constructor
  · exact Transition.always_iff_meets (fun _ => True) (fun _ _ _ _ _ => trivial)
      (fun _ _ _ _ => Balanced.step_iff) trivial balanced_new hr
  · exact fun _ _ => step_of_not_ok (interested_run hr)

/-- A callback and a fiber wait on one descriptor, one is delivered and one is deleted. -/
def twoEvents : List (EventOp 2) :=
  [.addEvent 1 .read (some 7) ⟨some 0, 3, true⟩ true,
    .addEvent 1 .write none ⟨some 0, 4, true⟩ true,
    .dispatch 1 ⟨true, false, false⟩ true, .delEvent 1 .write false, .delEvent 1 .write true]

theorem balanced_iff_hasScheduler_twoEvents : ∃ s,
    Transition.run step new twoEvents = some s ∧
      s.table.scheduled = [⟨1, .read, 0, .cb 7⟩] ∧ s.deleted = [(1, .write)] ∧
      Transition.Always step Balanced new twoEvents := by
  have hrun : (Transition.run step new twoEvents).map (fun s => (s.table.scheduled, s.deleted)) =
      some ([⟨1, .read, 0, .cb 7⟩], [(1, .write)]) := by decide
  obtain ⟨s, hs, hh⟩ := Option.map_eq_some_iff.mp hrun
  obtain ⟨hsched, hdel⟩ := Prod.mk.inj hh
  refine ⟨s, hs, hsched, hdel, (balanced_iff_hasScheduler twoEvents s hs).1.mpr ?_⟩
  simp [twoEvents, Transition.Meets, HasScheduler]

/-- An event added by a thread without a scheduler has none to be delivered to. -/
theorem not_balanced_without_scheduler : ∃ s : EventLog 1,
    Transition.run step new [.addEvent 0 .read (some 7) ⟨none, 3, true⟩ true] = some s ∧
      ¬ Balanced s := by
  refine ⟨_, rfl, ?_⟩
  intro h
  have hctx := h.contexts 0 .read (by decide)
  exact absurd hctx.1 (by decide)

end EventLog

end ServerFramework
