import ServerFramework.Hook.Close
import ServerFramework.Timer.Invariant

/-! # What is pending

The tasks that wait for an event and the callbacks that wait for a deadline. The operations of the
event table and of the timer manager hand them on; they drop and double none.
-/

namespace ServerFramework

open scoped BigOperators

namespace EventTable

variable {n : ℕ} {t t' : EventTable n} {fd : Fin n} {event : Event} {ok : Bool}

/-- A relation between tables that triggering an event keeps to. -/
structure Triggering (R : EventTable n → EventTable n → Prop) : Prop where
  refl : ∀ t, R t t
  trans : ∀ {t u v}, R t u → R u v → R t v
  setInterest : ∀ t fd interest, R t (t.setInterest fd interest)
  trigger : ∀ {t t' fd event}, t.trigger fd event = .ok t' → R t t'

namespace Triggering

variable {R : EventTable n → EventTable n → Prop} (hR : Triggering R)

include hR

theorem triggerRegistered (ht : t.triggerRegistered fd event = .ok t') : R t t' := by
  rw [EventTable.triggerRegistered] at ht
  split_ifs at ht
  · exact hR.trigger ht
  · obtain rfl := Except.ok.inj ht
    exact hR.refl t

theorem foldlM_trigger {events : List Event}
    (ht : events.foldlM (EventTable.trigger fd) t = .ok t') : R t t' := by
  induction events generalizing t with
  | nil =>
    obtain rfl := Except.ok.inj ht
    exact hR.refl t
  | cons event events ih =>
    obtain ⟨u, hu, ht⟩ := foldlM_trigger_cons ht
    exact hR.trans (hR.trigger hu) (ih ht)

theorem cancelEvent (hi : t.Interested) {r : Bool × EventTable n}
    (hr : t.cancelEvent fd event ok = .ok r) : R t r.2 := by
  rcases cancelEvent_cases hi hr with rfl | ⟨-, -, ht⟩
  · exact hR.refl t
  · exact hR.trans (hR.setInterest t fd _) (hR.trigger ht)

theorem cancelAll (hi : t.Interested) {r : Bool × EventTable n}
    (hr : t.cancelAll fd ok = .ok r) : R t r.2 := by
  rcases cancelAll_cases hi hr with rfl | ⟨-, u, hu, hv, -⟩
  · exact hR.refl t
  · apply hR.trans (hR.setInterest t fd none)
    exact hR.trans (hR.triggerRegistered hu) (hR.triggerRegistered hv)

theorem dispatch (hi : t.Interested) {reported : Reported}
    (hr : t.dispatch fd reported ok = .ok t') : R t t' := by
  rw [dispatch_eq hi] at hr
  split_ifs at hr
  · obtain rfl := Except.ok.inj hr
    exact hR.refl t
  · exact hR.trans (hR.setInterest t fd _) (hR.foldlM_trigger hr)

end Triggering

section Pending

variable (p : Task → Bool)

/-- How many of the tasks that wait for the event have the property. -/
def pendingOn (t : EventTable n) (fd : Fin n) (event : Event) : ℕ :=
  (t.waiting fd event).countP fun c => p c.task

/-- How many of the tasks that wait for an event have the property. -/
def pending (t : EventTable n) : ℕ := ∑ fd, (t.pendingOn p fd .read + t.pendingOn p fd .write)

variable {p}

/-- If one event of one descriptor changes, the sum changes by as much. -/
theorem pending_add (fd : Fin n) {c d : ℕ} (hne : event ≠ .none)
    (hself : t'.pendingOn p fd event + c = t.pendingOn p fd event + d)
    (hother : ∀ x e, e ≠ .none → ¬ (x = fd ∧ e = event) → t'.pendingOn p x e = t.pendingOn p x e) :
    t'.pending p + c = t.pending p + d := by
  have hsum : ∀ x, t'.pendingOn p x .read + t'.pendingOn p x .write + (if x = fd then c else 0) =
      t.pendingOn p x .read + t.pendingOn p x .write + if x = fd then d else 0 := by
    intro x
    by_cases hx : x = fd
    · subst hx
      rw [if_pos rfl, if_pos rfl]
      cases event with
      | none => exact absurd rfl hne
      | read =>
        have hw := hother x .write (by simp) (by simp)
        omega
      | write =>
        have hr := hother x .read (by simp) (by simp)
        omega
    · rw [if_neg hx, if_neg hx, hother x .read (by simp) fun h => hx h.1,
        hother x .write (by simp) fun h => hx h.1]
  have htotal := Finset.sum_congr rfl fun x (_ : x ∈ Finset.univ) => hsum x
  simpa only [Finset.sum_add_distrib, Finset.sum_ite_eq', Finset.mem_univ, if_true, pending]
    using htotal

/-- After an event has been cleared, nobody waits for it. -/
theorem pending_finished (t : EventTable n) (fd : Fin n) (hne : event ≠ .none)
    (calls : List (Scheduled n)) :
    (t.finished fd event calls).pending p + t.pendingOn p fd event = t.pending p := by
  apply pending_add fd (d := 0) hne
  · simp [pendingOn, waiting_finished t fd fd event hne]
  · intro x e he hxe
    rw [pendingOn, pendingOn, waiting_finished t fd x event he, if_neg hxe]

/-- After an event has been registered with a scheduler, its task waits. -/
theorem pending_registered (hne : event ≠ .none) (hhas : (t.events fd).has event = false)
    {c : EventContext} (hc : c.scheduler.isSome) {task : Task} (htask : c.task = some task) :
    (t.registered fd event c).pending p = t.pending p + if p task then 1 else 0 := by
  apply pending_add fd (c := 0) hne
  · obtain ⟨scheduler, hs⟩ := Option.isSome_iff_exists.mp hc
    have hctx : (t.registered fd event c).fdContexts fd = (t.fdContexts fd).register event c :=
      Function.update_self ..
    have hcontext : ((t.fdContexts fd).register event c).context event = c := by
      rw [FdContext.register, FdContext.context_setEventContext _ _ hne, if_pos rfl]
    simp [pendingOn, waiting, events_registered, Events.has_set _ hne, hhas, hctx, hcontext, hs,
      htask, List.countP_singleton]
  · intro x e he hxe
    by_cases hx : x = fd
    · subst hx
      have hee : e ≠ event := fun h => hxe ⟨rfl, h⟩
      have hctx : (t.registered x event c).fdContexts x = (t.fdContexts x).register event c :=
        Function.update_self ..
      have hcontext : ((t.fdContexts x).register event c).context e =
          (t.fdContexts x).context e := by
        rw [FdContext.register, FdContext.context_setEventContext _ _ he, if_neg hee,
          FdContext.context_events]
      simp [pendingOn, waiting, events_registered, Events.has_set _ he, hctx, hcontext, hee]
    · rw [pendingOn, pendingOn]
      congr 1
      exact waiting_congr (Function.update_of_ne hx ..)

end Pending

/-- The tasks of the events that are gone have been scheduled. -/
def HandsOn (t t' : EventTable n) : Prop :=
  ∃ calls, t'.scheduled = t.scheduled ++ calls ∧
    ∀ p, t'.pending p + (calls.countP fun c => p c.task) = t.pending p

theorem handsOn_triggering : Triggering (HandsOn (n := n)) where
  refl := fun t => ⟨[], (List.append_nil _).symm, fun _ => rfl⟩
  trans := by
    rintro t u v ⟨calls, hu, hp⟩ ⟨calls', hv, hp'⟩
    refine ⟨calls ++ calls', ?_, ?_⟩
    · rw [hv, hu, List.append_assoc]
    · intro p
      rw [List.countP_append, ← hp p, ← hp' p]
      omega
  setInterest := fun t _ _ => ⟨[], (List.append_nil _).symm, fun _ => rfl⟩
  trigger := by
    intro t t' fd event ht
    obtain ⟨hhas, scheduler, hs, rfl⟩ := trigger_ok ht
    have hcalls : (((t.fdContexts fd).context event).task.map (⟨fd, event, scheduler, ·⟩)).toList =
        t.waiting fd event := by
      rw [waiting, if_pos hhas, hs]
    rw [hcalls]
    exact ⟨t.waiting fd event, rfl, fun p =>
      pending_finished t fd (Events.ne_none_of_has hhas) (t.waiting fd event)⟩

/-- `AddEvent` makes its callback, or the fiber of its caller, wait. -/
theorem pending_addEvent (hi : t.Interested) {cb : Option Callback} {caller : Caller}
    (hcaller : caller.scheduler.isSome) {r : ℤ × EventTable n}
    (hr : t.addEvent fd event cb caller ok = .ok r) :
    r.2.scheduled = t.scheduled ∧ ∀ p : Task → Bool, r.2.pending p =
      t.pending p + if ok && p (cb.elim (.fiber caller.fiber) .cb) then 1 else 0 := by
  rcases addEvent_cases hi hr with ⟨rfl, rfl⟩ | ⟨rfl, hne, hhas, rfl⟩
  · simp
  · refine ⟨rfl, fun p => ?_⟩
    have hsched : (newContext cb caller).scheduler.isSome := by cases cb <;> exact hcaller
    have htask : (newContext cb caller).task = some (cb.elim (.fiber caller.fiber) .cb) := by
      cases cb <;> rfl
    simpa using pending_registered (p := p) hne hhas hsched htask

/-- `DelEvent` drops who waits for the event. -/
theorem pending_delEvent (hi : t.Interested) {r : Bool × EventTable n}
    (hr : t.delEvent fd event ok = .ok r) : r.2.scheduled = t.scheduled ∧
      ∀ p : Task → Bool, r.2.pending p + (if ok then t.pendingOn p fd event else 0) =
        t.pending p := by
  rcases delEvent_cases hi hr with rfl | ⟨rfl, hhas, rfl⟩
  · refine ⟨rfl, fun p => ?_⟩
    split_ifs with hok
    · subst hok
      have hhas : (t.events fd).has event = false := by
        by_contra hhas
        have hhas := eq_true_of_ne_false hhas
        have hne := Events.ne_none_of_has hhas
        unfold delEvent at hr
        simp only [events] at hhas hi
        simp [hhas, hi fd, events, epollCtl_shrink (Events.ne_empty_of_has hhas),
          FdContext.getEventContext_eq _ hne] at hr
      simp [pendingOn, waiting, hhas]
    · rfl
  · refine ⟨by simp [finished, setContext, setInterest], fun p => ?_⟩
    exact pending_finished (t.setInterest fd _) fd (Events.ne_none_of_has hhas) []

theorem pending_new (p : Task → Bool) : (new : EventTable n).pending p = 0 := by
  simp [pending, pendingOn, waiting, new, events, FdContext.new]

end EventTable

namespace TimerManager

variable {m m' : TimerManager} {id : TimerId} {owed : List TimerId} {p : Option Callback → Bool}

/-- How many of the callbacks of the timers in the set have the property. -/
def pending (p : Option Callback → Bool) (m : TimerManager) : ℕ :=
  m.timers.countP fun id => p (m.timer id).cb

theorem pending_congr (htimers : m'.timers = m.timers)
    (hcb : ∀ a ∈ m.timers, (m'.timer a).cb = (m.timer a).cb) : m'.pending p = m.pending p := by
  rw [pending, pending, htimers]
  apply List.countP_congr
  intro a ha
  rw [hcb a ha]

/-- A timer that is put in brings its callback. -/
theorem pending_insert (h : Ordered (id :: owed) m) :
    (m.insert id).pending p = m.pending p + if p (m.timer id).cb then 1 else 0 := by
  have hperm : (m.insert id).timers.Perm (id :: m.timers) :=
    OrderedSet.insert_perm m.before_iff h.key_ne
  rw [pending, hperm.countP_eq, List.countP_cons]
  rfl

/-- A timer that is taken out takes its callback with it. -/
theorem pending_erase (hm : id ∈ m.timers) :
    m.pending p = (m.erase id).pending p + if p (m.timer id).cb then 1 else 0 := by
  rw [pending, (List.perm_cons_erase hm).countP_eq, List.countP_cons]
  rfl

/-- Changing a timer that is not in the set. -/
theorem pending_modify (hid : id ∉ m.timers) (f : Timer → Timer) :
    (m.modify id f).pending p = m.pending p := by
  apply pending_congr
  · rfl
  · intro a ha
    rw [timer_modify_of_ne f]
    rintro rfl
    exact hid ha

theorem pending_addTimerLocked (m : TimerManager) (id : TimerId) :
    (m.addTimerLocked id).2.pending p = (m.insert id).pending p := by
  apply pending_congr
  · exact timers_addTimerLocked m id
  · simp

theorem pending_addTimer (h : Inv [] m) (addr : ℕ) (ms : UInt64) (cb : Option Callback)
    (recurring : Bool) (now : UInt64) (haddr : ∀ t ∈ m.timers, (m.timer t).addr ≠ addr) :
    (m.addTimer addr ms cb recurring now).2.pending p =
      m.pending p + if p cb then 1 else 0 := by
  have hnew := h.ordered.allocate (Timer.new addr ms cb recurring now) haddr
  rw [addTimer, pending_addTimerLocked, pending_insert hnew]
  have hold : ({ m with
      timer := Function.update m.timer m.count (Timer.new addr ms cb recurring now)
      count := m.count + 1 } : TimerManager).pending p = m.pending p := by
    apply pending_congr
    · rfl
    · intro a ha
      simp [Function.update_of_ne (h.lt_count a (by simpa using ha)).ne]
  rw [hold]
  simp [Timer.new]

/-- `Cancel` drops the callback of its timer. -/
theorem pending_cancel (h : Inv [] m) (hlt : id < m.count) {r : Bool × TimerManager}
    (hr : m.cancel id = some r) (hp : p none = false) :
    r.2.pending p + (if p (m.timer id).cb then 1 else 0) = m.pending p := by
  cases hcb : (m.timer id).cb with
  | none =>
    rw [cancel_of_none hcb] at hr
    obtain rfl := Option.some.inj hr
    simp [hp]
  | some cb =>
    have hm := h.mem_of_cb hlt (by simp [hcb])
    rw [h.cancel_eq hlt (by simp [hcb])] at hr
    obtain rfl := Option.some.inj hr
    rw [pending_modify (h.ordered.erase hm).not_mem_timers, pending_erase hm, hcb]

/-- A timer that is taken out and put back with another deadline. -/
theorem pending_move (h : Inv [] m) (hm : id ∈ m.timers) {f : Timer → Timer}
    (haddr : (f (m.timer id)).addr = (m.timer id).addr)
    (hcb : (f (m.timer id)).cb = (m.timer id).cb) :
    (((m.erase id).modify id f).insert id).pending p = m.pending p := by
  have hout := h.ordered.erase hm
  rw [pending_insert (hout.modify haddr), pending_modify hout.not_mem_timers, timer_modify_self,
    timer_erase, hcb, ← pending_erase hm]

theorem pending_refresh (h : Inv [] m) (hlt : id < m.count) (now : UInt64) :
    (m.refresh id now).2.pending p = m.pending p := by
  cases hcb : (m.timer id).cb with
  | none => rw [refresh_of_none hcb]
  | some cb =>
    have hsome : (m.timer id).cb.isSome := by simp [hcb]
    rw [h.refresh_eq hlt hsome]
    exact pending_move h (h.mem_of_cb hlt hsome) rfl rfl

theorem pending_reset (h : Inv [] m) (hlt : id < m.count) (ms : UInt64) (fromNow : Bool)
    (now : UInt64) : (m.reset id ms fromNow now).2.2.pending p = m.pending p := by
  rw [reset]
  split_ifs
  · rfl
  cases hcb : (m.timer id).cb with
  | none => rw [resetLocked_of_none hcb]
  | some cb =>
    have hsome : (m.timer id).cb.isSome := by simp [hcb]
    obtain ⟨next, he⟩ := h.resetLocked_eq hlt hsome ms fromNow now
    rw [he, pending_addTimerLocked]
    exact pending_move h (h.mem_of_cb hlt hsome) rfl rfl

/-- No timer that recurs has a callback with the property. -/
def OneShot (p : Option Callback → Bool) (m : TimerManager) : Prop :=
  ∀ id, (m.timer id).recurring = true → p (m.timer id).cb = false

theorem OneShot.congr (h : OneShot p m) (hp : p none = false)
    (hrec : ∀ a, (m'.timer a).recurring = (m.timer a).recurring)
    (hcb : ∀ a, (m'.timer a).cb = (m.timer a).cb ∨ (m'.timer a).cb = none) : OneShot p m' := by
  intro a ha
  rw [hrec a] at ha
  rcases hcb a with hcb | hcb
  · rw [hcb]
    exact h a ha
  · rwa [hcb]

theorem oneShot_new (hp : p none = false) (now : UInt64) : OneShot p (new now) := fun _ _ => hp

theorem OneShot.addTimer (h : OneShot p m) (addr : ℕ) (ms : UInt64) {cb : Option Callback}
    {recurring : Bool} (now : UInt64) (hcb : recurring = true → p cb = false) :
    OneShot p (m.addTimer addr ms cb recurring now).2 := by
  intro a
  simp only [TimerManager.addTimer, timer_addTimerLocked, Function.update_apply]
  split_ifs
  · exact hcb
  · exact h a

theorem OneShot.modify (h : OneShot p m) (hp : p none = false) {f : Timer → Timer}
    (hrec : (f (m.timer id)).recurring = (m.timer id).recurring)
    (hcb : (f (m.timer id)).cb = (m.timer id).cb ∨ (f (m.timer id)).cb = none) :
    OneShot p (m.modify id f) := by
  apply h.congr hp (modify_keeps Timer.recurring hrec)
  intro a
  by_cases ha : a = id
  · subst ha
    rwa [timer_modify_self]
  · rw [timer_modify_of_ne f ha]
    exact .inl rfl

theorem OneShot.cancel (h : OneShot p m) (hp : p none = false) {r : Bool × TimerManager}
    (hr : m.cancel id = some r) : OneShot p r.2 := by
  have hdisarm : OneShot p (m.modify id fun t => { t with cb := none }) :=
    h.modify hp rfl (.inr rfl)
  unfold TimerManager.cancel at hr
  dsimp only at hr
  split_ifs at hr
  · split at hr
    · cases hr
    · obtain rfl := Option.some.inj hr
      exact hdisarm
  · obtain rfl := Option.some.inj hr
    exact h

theorem OneShot.refresh (h : OneShot p m) (hp : p none = false) (now : UInt64) :
    OneShot p (m.refresh id now).2 := by
  have hmove : OneShot p (m.modify id fun t => { t with next := now + t.ms }) :=
    h.modify hp rfl (.inl rfl)
  unfold TimerManager.refresh
  split_ifs
  · exact h
  · split
    · exact h
    · exact hmove

theorem OneShot.reset (h : OneShot p m) (hp : p none = false) (ms : UInt64) (fromNow : Bool)
    (now : UInt64) : OneShot p (m.reset id ms fromNow now).2.2 := by
  have hmove : ∀ next : UInt64,
      OneShot p (m.modify id fun t => { t with ms := ms, next := next }) :=
    fun _ => h.modify hp rfl (.inl rfl)
  rw [TimerManager.reset]
  split
  · exact h
  rw [TimerManager.resetLocked]
  split
  · exact h
  split
  · exact h
  · intro a
    simp only [timer_addTimerLocked]
    exact hmove _ a

/-- Firing a timer that has been taken out changes nothing for the others; one that recurs is put
back. -/
theorem pending_fire (h : Inv (id :: owed) m) (hone : OneShot p m) (now : UInt64) :
    (fire now m id).pending p = m.pending p := by
  unfold fire
  split_ifs with hrec
  · have hf := h.ordered.modify (f := fun t => { t with next := now + t.ms }) rfl
    rw [pending_insert hf, pending_modify h.ordered.not_mem_timers, timer_modify_self]
    simp [hone id hrec]
  · exact pending_modify h.ordered.not_mem_timers _

theorem OneShot.fire (h : OneShot p m) (hp : p none = false) (now : UInt64) :
    OneShot p (fire now m id) := by
  have hmove : OneShot p (m.modify id fun t => { t with next := now + t.ms }) :=
    h.modify hp rfl (.inl rfl)
  unfold TimerManager.fire
  split_ifs
  · exact hmove
  · exact h.modify hp rfl (.inr rfl)

theorem foldl_fire {expired : List TimerId} (h : Inv expired m) (hone : OneShot p m)
    (hp : p none = false) (now : UInt64) :
    (expired.foldl (fire now) m).pending p = m.pending p ∧
      OneShot p (expired.foldl (fire now) m) := by
  induction expired generalizing m with
  | nil => exact ⟨rfl, hone⟩
  | cons id expired ih =>
    obtain ⟨hpending, hone'⟩ := ih (h.fire now) (hone.fire hp now)
    exact ⟨hpending.trans (pending_fire h hone now), hone'⟩

/-- `ListExpiredCb` hands on the callbacks of the timers it takes out for good. -/
theorem pending_listExpiredCb (h : Inv [] m) (hone : OneShot p m) (hp : p none = false)
    (now : UInt64) (probeAddr : ℕ) :
    (m.listExpiredCb now probeAddr).2.pending p +
        ((m.listExpiredCb now probeAddr).1.countP fun c => p c.2) = m.pending p ∧
      OneShot p (m.listExpiredCb now probeAddr).2 := by
  obtain ⟨expired, left, previous, hs, he⟩ := listExpiredCb_cases m now probeAddr
  have hsplit : Inv expired { m with timers := left, previousUseTime := previous } := by
    have hi := h.split hs
    exact ⟨hi.ascending, hi.nodup, hi.lt_count, hi.addr_inj, hi.mem_iff⟩
  obtain ⟨hpending, hone'⟩ := foldl_fire hsplit (p := p) hone hp now
  rw [he]
  refine ⟨?_, hone'⟩
  rw [hpending, List.countP_map, pending, pending, hs, List.countP_append]
  exact Nat.add_comm _ _

theorem pending_new (now : UInt64) : (new now).pending p = 0 := rfl

end TimerManager

end ServerFramework
