import ServerFramework.IOManager.Interest

/-! # Dispatching reported events

Between the report of `epoll_wait` and the moment at which `Idle` locks the descriptor, other
threads may change what is registered. `Idle` tests whether one of the reported events is
still registered and then triggers all of them.
-/

namespace ServerFramework

namespace EventTable

variable {n : ℕ} {t t' : EventTable n} {fd : Fin n}

/-- The calls of `TriggerEvent` made for the given events, each with the value that it asserts.
A fault ends the loop. -/
def triggerCalls (t : EventTable n) (fd : Fin n) : List Event → List (Event × Bool)
  | [] => []
  | event :: events =>
    (event, (t.events fd).has event) ::
      match t.trigger fd event with
      | .ok t => t.triggerCalls fd events
      | .error _ => []

/-- The calls of `TriggerEvent` made by `dispatch`. -/
def dispatchCalls (t : EventTable n) (fd : Fin n) (reported : Reported) (ok : Bool) :
    List (Event × Bool) :=
  let realEvents := t.realEvents fd reported
  if (t.events fd).inter realEvents = .empty then []
  else
    let leftEvents := (t.events fd).diff realEvents
    let op : EpollCtlOp := if leftEvents = .empty then .del else .mod
    match epollCtl (t.interest fd) op ⟨true, leftEvents⟩ ok with
    | none => []
    | some interest => (t.setInterest fd interest).triggerCalls fd realEvents.toList

theorem triggerCalls_of_ok {events : List Event} (h : events.foldlM (trigger fd) t = .ok t') :
    (∀ c ∈ t.triggerCalls fd events, c.2 = true) ∧ ∀ e ∈ events, (t.events fd).has e = true := by
  induction events generalizing t with
  | nil => simp [triggerCalls]
  | cons event events ih =>
    obtain ⟨u, hu, h⟩ := foldlM_trigger_cons h
    obtain ⟨hcalls, hevents⟩ := ih h
    have hhas := (trigger_ok hu).1
    constructor
    · simpa [triggerCalls, hu, hhas] using hcalls
    · rw [List.forall_mem_cons]
      refine ⟨hhas, fun e he => ?_⟩
      have hcleared := hevents e he
      rw [events_trigger hu fd, if_pos rfl, Events.has_clear, Bool.and_eq_true] at hcleared
      exact hcleared.1

theorem exists_unregistered {events : List Event} (hnodup : events.Nodup)
    (hnone : .none ∉ events) (h : events.foldlM (trigger fd) t = .error .assertion) :
    ∃ e ∈ events, (t.events fd).has e = false := by
  induction events generalizing t with
  | nil => cases h
  | cons event events ih =>
    rw [List.foldlM_cons] at h
    obtain ⟨hnot, hnodup⟩ := List.nodup_cons.mp hnodup
    obtain ⟨hne, hnone⟩ := List.ne_and_not_mem_of_not_mem_cons hnone
    cases hu : t.trigger fd event with
    | error fault =>
      rw [hu] at h
      obtain rfl := Except.error.inj h
      have hhas := trigger_assertion (Ne.symm hne) hu
      exact ⟨event, List.mem_cons_self, hhas⟩
    | ok u =>
      rw [hu] at h
      obtain ⟨e, he, hcleared⟩ := ih hnodup hnone h
      have hee : e ≠ event := fun hee => hnot (hee ▸ he)
      rw [events_trigger hu fd, if_pos rfl, Events.has_clear] at hcleared
      exact ⟨e, List.mem_cons_of_mem _ he, by simpa [hee] using hcleared⟩

/-- The events reported are still registered. -/
def StillRegistered (t : EventTable n) (fd : Fin n) (reported : Reported) : Prop :=
  (reported.epollIn = true → (t.events fd).has .read = true) ∧
    (reported.epollOut = true → (t.events fd).has .write = true)

/-- The case in which `dispatch` triggers registered events only: its `epoll_ctl` fails, or no
event it is about to trigger is registered, or all that was reported still is. -/
def Sound (t : EventTable n) (fd : Fin n) (reported : Reported) (ok : Bool) : Prop :=
  ok = false ∨ (t.events fd).inter (t.realEvents fd reported) = .empty ∨
    t.StillRegistered fd reported

theorem stillRegistered_iff (t : EventTable n) (fd : Fin n) (reported : Reported) :
    t.StillRegistered fd reported ↔
      ∀ e ∈ (t.realEvents fd reported).toList, (t.events fd).has e = true := by
  obtain ⟨epollIn, epollOut, errOrHup⟩ := reported
  cases epollIn <;> cases epollOut <;> cases errOrHup <;> cases hr : (t.events fd).read <;>
    cases hw : (t.events fd).write <;>
    simp [StillRegistered, realEvents, Events.toList, Events.has, hr, hw]

theorem dispatchCalls_eq (hi : t.Interested) (fd : Fin n) (reported : Reported) (ok : Bool) :
    t.dispatchCalls fd reported ok =
      if ok = false ∨ (t.events fd).inter (t.realEvents fd reported) = .empty then []
      else (t.setInterest fd ((t.events fd).diff (t.realEvents fd reported)).wanted).triggerCalls fd
        (t.realEvents fd reported).toList :=
  diff_eq hi (fun interest => (t.setInterest fd interest).triggerCalls fd
    (t.realEvents fd reported).toList) [] fd (t.realEvents fd reported) ok
/-- If `dispatch` returns, it has triggered registered events only. -/
theorem Interested.dispatch_ok (hi : t.Interested) {reported : Reported} {ok : Bool}
    (h : t.dispatch fd reported ok = .ok t') : t.Sound fd reported ok ∧
      ∀ c ∈ t.dispatchCalls fd reported ok, c.2 = true := by
  rw [dispatch_eq hi] at h
  rw [dispatchCalls_eq hi]
  split_ifs at h ⊢ with hskip
  · refine ⟨?_, by simp⟩
    rcases hskip with hok | hin
    · exact Or.inl hok
    · exact Or.inr (Or.inl hin)
  · obtain ⟨hcalls, hevents⟩ := triggerCalls_of_ok h
    exact ⟨Or.inr (Or.inr ((stillRegistered_iff t fd reported).mpr hevents)), hcalls⟩

/-- If an assertion fails in `dispatch`, an event reported is not registered. -/
theorem Interested.dispatch_assertion (hi : t.Interested) {reported : Reported} {ok : Bool}
    (h : t.dispatch fd reported ok = .error .assertion) : ¬ t.Sound fd reported ok := by
  rw [dispatch_eq hi] at h
  split_ifs at h with hskip
  have hnodup : (t.realEvents fd reported).toList.Nodup := by
    unfold Events.toList
    split_ifs <;> decide
  have hnone : .none ∉ (t.realEvents fd reported).toList := by
    unfold Events.toList
    split_ifs <;> decide
  obtain ⟨e, he, hhas⟩ := exists_unregistered hnodup hnone h
  rintro (hok | hin | hreg)
  · exact hskip (Or.inl hok)
  · exact hskip (Or.inr hin)
  · have hstill := (stillRegistered_iff t fd reported).mp hreg e he
    exact absurd (hstill.symm.trans hhas) (by decide)

end EventTable

/-- The event table used by threads in `Idle`: the reports of `epoll_wait` that are still to be
dispatched, the calls of `TriggerEvent` that dispatching has made, each with the value that it
asserts, and whether an assertion has failed. -/
structure Polled (n : ℕ) where
  log : EventLog n
  reports : List (Fin n × Reported)
  calls : List (Event × Bool)
  aborted : Bool

inductive PolledOp (n : ℕ) where
  | report (fd : Fin n) (reported : Reported)
  | dispatch (index : ℕ) (ok : Bool)
  | other (op : EventOp n)
  deriving DecidableEq, Repr

/-- What `epoll_wait` may report: events in the interest set, and errors. -/
def Reported.isWithin (reported : Reported) : Option EpollMask → Bool
  | none => false
  | some mask =>
    (!reported.epollIn || mask.events.read) && (!reported.epollOut || mask.events.write)

def EventOp.isDispatch {n : ℕ} : EventOp n → Bool
  | dispatch _ _ _ => true
  | _ => false

namespace Polled

variable {n : ℕ} {s s' : Polled n}

def new : Polled n := ⟨.new, [], [], false⟩

def step (s : Polled n) : PolledOp n → Option (Polled n)
  | .report fd reported =>
    if !s.aborted && reported.isWithin (s.log.table.interest fd) then
      some { s with reports := s.reports ++ [(fd, reported)] }
    else none
  | .dispatch index ok =>
    if s.aborted then none
    else
      s.reports[index]?.bind fun r =>
        let s := { s with
          reports := s.reports.eraseIdx index
          calls := s.calls ++ s.log.table.dispatchCalls r.1 r.2 ok }
        match s.log.table.dispatch r.1 r.2 ok with
        | .ok table => some { s with log := { s.log with table := table } }
        | .error .assertion => some { s with aborted := true }
        | .error .nullPointer => none
  | .other op =>
    if !s.aborted && !op.isDispatch then (s.log.step op).map fun log => { s with log := log }
    else none

/-- Only registered events have been triggered, and no assertion has failed. -/
def OnlyRegistered (s : Polled n) : Prop := (∀ c ∈ s.calls, c.2 = true) ∧ s.aborted = false

/-- Every report is dispatched in a sound case. -/
def Sound (s : Polled n) : PolledOp n → Prop
  | .dispatch index ok => ∀ fd reported, s.reports[index]? = some (fd, reported) →
      s.log.table.Sound fd reported ok
  | _ => True

/-- A dispatch that returns or fails an assertion. -/
theorem step_dispatch {index : ℕ} {ok : Bool} (h : s.step (.dispatch index ok) = some s') :
    s.aborted = false ∧ ∃ fd reported, s.reports[index]? = some (fd, reported) ∧
      s'.calls = s.calls ++ s.log.table.dispatchCalls fd reported ok ∧
      ((∃ table, s.log.table.dispatch fd reported ok = .ok table ∧
          s'.log.table = table ∧ s'.aborted = false) ∨
        (s.log.table.dispatch fd reported ok = .error .assertion ∧ s'.log = s.log ∧
          s'.aborted = true)) := by
  rw [step] at h
  split_ifs at h with hab
  obtain ⟨⟨fd, reported⟩, hr, h⟩ := Option.bind_eq_some_iff.mp h
  refine ⟨eq_false_of_ne_true hab, fd, reported, hr, ?_⟩
  dsimp only at h
  split at h
  · rename_i table ht
    obtain rfl := Option.some.inj h
    exact ⟨rfl, Or.inl ⟨table, ht, rfl, eq_false_of_ne_true hab⟩⟩
  · rename_i ht
    obtain rfl := Option.some.inj h
    exact ⟨rfl, Or.inr ⟨ht, rfl, rfl⟩⟩
  · cases h

theorem interested_step {op : PolledOp n} (hi : s.log.table.Interested)
    (h : s.step op = some s') : s'.log.table.Interested := by
  cases op with
  | report fd reported =>
    simp only [step, Option.ite_none_right_eq_some, Option.some.injEq] at h
    obtain ⟨-, rfl⟩ := h
    exact hi
  | dispatch index ok =>
    obtain ⟨-, fd, reported, -, -, ⟨table, ht, rfl, -⟩ | ⟨-, hlog, -⟩⟩ := step_dispatch h
    · exact hi.dispatch ht
    · rwa [hlog]
  | other op =>
    simp only [step, Option.ite_none_right_eq_some, Option.map_eq_some_iff] at h
    obtain ⟨-, log, hlog, rfl⟩ := h
    exact EventLog.interested_step hi hlog

/-- A step triggers registered events only if and only if it dispatches in a sound case. -/
theorem step_onlyRegistered_iff {op : PolledOp n} (hi : s.log.table.Interested)
    (h : s.step op = some s') : s'.OnlyRegistered ↔ s.OnlyRegistered ∧ s.Sound op := by
  cases op with
  | report fd reported =>
    simp only [step, Option.ite_none_right_eq_some, Option.some.injEq] at h
    obtain ⟨-, rfl⟩ := h
    simp [OnlyRegistered, Sound]
  | dispatch index ok =>
    obtain ⟨hab, fd, reported, hr, hcalls, hcase⟩ := step_dispatch h
    simp only [OnlyRegistered, Sound, hcalls, List.forall_mem_append, hab, hr, Option.some.injEq,
      Prod.mk.injEq, and_imp, forall_apply_eq_imp_iff, forall_eq']
    rcases hcase with ⟨table, ht, -, hab'⟩ | ⟨ht, -, hab'⟩
    · obtain ⟨hsound, hset⟩ := hi.dispatch_ok ht
      constructor
      · rintro ⟨⟨hold, -⟩, -⟩
        exact ⟨⟨hold, trivial⟩, hsound⟩
      · rintro ⟨⟨hold, -⟩, -⟩
        exact ⟨⟨hold, hset⟩, hab'⟩
    · simp [hi.dispatch_assertion ht, hab']
  | other op =>
    simp only [step, Option.ite_none_right_eq_some, Option.map_eq_some_iff] at h
    obtain ⟨-, log, hlog, rfl⟩ := h
    simp [OnlyRegistered, Sound]

/-- In every run, dispatching triggers registered events only if and only if every dispatch is
in a sound case. -/
theorem onlyRegistered_iff_sound (ops : List (PolledOp n)) (s : Polled n)
    (hr : Transition.run step new ops = some s) :
    s.OnlyRegistered ↔ Transition.Meets step Sound new ops := by
  have hnew : (new : Polled n).OnlyRegistered := by simp [OnlyRegistered, new]
  rw [Transition.run_iff_meets (fun s => s.log.table.Interested) OnlyRegistered
    (fun _ _ _ => interested_step) (fun _ _ _ => step_onlyRegistered_iff)
    EventLog.interested_new hr]
  exact and_iff_right hnew

/-- Both events of a descriptor are registered and reported, and one of them is cancelled before
the report is dispatched. -/
def cancelledAfterReport : List (PolledOp 1) :=
  [.other (.addEvent 0 .read (some 7) ⟨some 0, 3, true⟩ true),
    .other (.addEvent 0 .write (some 8) ⟨some 0, 3, true⟩ true), .report 0 ⟨true, true, false⟩,
    .other (.cancelEvent 0 .write true), .dispatch 0 true]

/-- The other event is triggered, and then the one that is gone. -/
theorem triggers_unregistered : ∃ s : Polled 1,
    Transition.run step new cancelledAfterReport = some s ∧
      s.calls = [(.read, true), (.write, false)] ∧ ¬ s.OnlyRegistered := by
  have hrun : (Transition.run step new cancelledAfterReport).map Polled.calls =
      some [(.read, true), (.write, false)] := by decide
  obtain ⟨s, hs, hcalls⟩ := Option.map_eq_some_iff.mp hrun
  refine ⟨s, hs, hcalls, ?_⟩
  rw [OnlyRegistered, hcalls]
  simp

/-- Nothing is lost if both events are cancelled. -/
def allCancelledAfterReport : List (PolledOp 1) :=
  [.other (.addEvent 0 .read (some 7) ⟨some 0, 3, true⟩ true),
    .other (.addEvent 0 .write (some 8) ⟨some 0, 3, true⟩ true), .report 0 ⟨true, true, false⟩,
    .report 0 ⟨true, false, true⟩, .dispatch 1 true, .other (.cancelAll 0 true),
    .dispatch 0 true]

theorem onlyRegistered_iff_sound_allCancelled : ∃ s : Polled 1,
    Transition.run step new allCancelledAfterReport = some s ∧
      s.calls = [(.read, true), (.write, true)] ∧
      Transition.Meets step Sound new allCancelledAfterReport := by
  have hrun : (Transition.run step new allCancelledAfterReport).map
      (fun s => (s.calls, s.aborted)) = some ([(.read, true), (.write, true)], false) := by decide
  obtain ⟨s, hs, hh⟩ := Option.map_eq_some_iff.mp hrun
  obtain ⟨hcalls, hab⟩ := Prod.mk.inj hh
  refine ⟨s, hs, hcalls, (onlyRegistered_iff_sound _ s hs).mp ?_⟩
  rw [OnlyRegistered, hcalls]
  exact ⟨by decide, hab⟩

end Polled

end ServerFramework
