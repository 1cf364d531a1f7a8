import ServerFramework.Timer.Contract
import ServerFramework.Timer.Expiry

/-! # What the timer operations report

A timer that was added with a callback has one as long as it is in `timers_`, whatever else is
there; timers may also be added with an empty function. So the operations on it report truthfully
whether it is pending. `reset` is the exception: it answers a call that changes nothing before it
looks whether the timer is pending at all.
-/

namespace ServerFramework.TimerManager

/-- The sections of those who may give `AddTimer` an empty function. -/
abbrev Call := LockedSection (Option Callback)

/-- A manager, and the timers that were added with a callback. -/
structure Used where
  manager : TimerManager
  callable : List TimerId

/-- The manager is constructed at clock reading `now`. -/
def Used.init (now : UInt64) : Used := ⟨new now, []⟩

/-- The timers with a callback after a locked section. -/
def Used.called (s : Used) : Call → List TimerId
  | .addTimer _ _ (some _) _ _ => s.manager.count :: s.callable
  | _ => s.callable

def Used.step (s : Used) (call : Call) : Option Used :=
  (s.manager.execute id call).map fun r => { manager := r.1, callable := s.called call }

/-- `Cancel` tells whether the timer is pending, and changes nothing if it is not. -/
def CancelTruthful (m : TimerManager) (id : TimerId) : Prop :=
  ∃ b m', m.cancel id = some (b, m') ∧ (b = true ↔ id ∈ m.timers) ∧ (b = false → m' = m)

/-- So does `Refresh`, at any clock reading. -/
def RefreshTruthful (m : TimerManager) (id : TimerId) (now : UInt64) : Prop :=
  ((m.refresh id now).1 = true ↔ id ∈ m.timers) ∧
    ((m.refresh id now).1 = false → (m.refresh id now).2 = m)

/-- So does `reset`, and if it succeeds the timer is pending with the new interval, counted from
now or from its previous start. -/
structure ResetTruthful (m : TimerManager) (id : TimerId) (ms : UInt64) (fromNow : Bool)
    (now : UInt64) : Prop where
  reports : (m.reset id ms fromNow now).1 = true ↔ id ∈ m.timers
  unchanged : (m.reset id ms fromNow now).1 = false → (m.reset id ms fromNow now).2.2 = m
  pending : (m.reset id ms fromNow now).1 = true → id ∈ (m.reset id ms fromNow now).2.2.timers
  ms_eq : (m.reset id ms fromNow now).1 = true →
    ((m.reset id ms fromNow now).2.2.timer id).ms = ms
  next_eq : (m.reset id ms fromNow now).1 = true →
    ((m.reset id ms fromNow now).2.2.timer id).next =
      (if fromNow then now else (m.timer id).next - (m.timer id).ms) + ms

/-- The timers with a callback are those that were added with one and are in the set. -/
structure Live (callable : List TimerId) (m : TimerManager) : Prop where
  ordered : Ordered [] m
  lt_count : ∀ id ∈ callable, id < m.count
  cb_iff : ∀ id < m.count,
    (m.timer id).cb.isSome = true ↔ id ∈ callable ∧ id ∈ m.timers

variable {m m' : TimerManager} {id : TimerId} {callable : List TimerId}

theorem new_live (now : UInt64) : Live [] (new now) :=
  ⟨(new_inv now).ordered, by simp, by simp [new]⟩

/-- A section that keeps the timers, their callbacks and who is in the set. -/
theorem Live.congr (h : Live callable m) (ho : Ordered [] m') (hcount : m'.count = m.count)
    (hcb : ∀ a, (m'.timer a).cb = (m.timer a).cb) (hmem : ∀ a, a ∈ m'.timers ↔ a ∈ m.timers) :
    Live callable m' := by
  refine ⟨ho, fun a ha => hcount ▸ h.lt_count a ha, fun a ha => ?_⟩
  rw [hcb, hmem]
  exact h.cb_iff a (hcount ▸ ha)

theorem Live.mem_of_cb (h : Live callable m) (hlt : id < m.count)
    (hcb : (m.timer id).cb.isSome) : id ∈ m.timers := ((h.cb_iff id hlt).mp hcb).2

/-- Taking a timer out and putting it back leaves the same timers in the set. -/
theorem Ordered.mem_reinsert (h : Ordered [] m) (hm : id ∈ m.timers) {f : Timer → Timer}
    (haddr : (f (m.timer id)).addr = (m.timer id).addr) (a : TimerId) :
    a ∈ (((m.erase id).modify id f).insert id).timers ↔ a ∈ m.timers := by
  have hmod : Ordered [id] ((m.erase id).modify id f) := (h.erase hm).modify haddr
  have hnodup : m.timers.Nodup := by simpa using h.nodup
  rw [hmod.mem_insert]
  change a = id ∨ a ∈ m.timers.erase id ↔ _
  rw [hnodup.mem_erase_iff]
  by_cases he : a = id
  · subst he
    simp [hm]
  · simp [he]

theorem Live.cancel (h : Live callable m) (hlt : id < m.count) {r : Bool × TimerManager}
    (hr : m.cancel id = some r) : Live callable r.2 := by
  cases hcb : (m.timer id).cb with
  | none =>
    obtain rfl : (false, m) = r := by simpa [cancel_of_none hcb] using hr
    exact h
  | some cb =>
    have hsome : (m.timer id).cb.isSome := by simp [hcb]
    have hm := h.mem_of_cb hlt hsome
    have hnodup : m.timers.Nodup := by simpa using h.ordered.nodup
    rw [h.ordered.cancel_eq hm hsome, Option.some.injEq] at hr
    subst hr
    have ho : Ordered [id] ((m.erase id).modify id fun t => { t with cb := none }) :=
      (h.ordered.erase hm).modify rfl
    refine ⟨ho.drop, h.lt_count, fun a ha => ?_⟩
    change _ ↔ _ ∧ a ∈ m.timers.erase id
    rw [hnodup.mem_erase_iff]
    by_cases he : a = id
    · subst he
      simp
    · rw [timer_modify_of_ne _ he]
      simpa [he] using h.cb_iff a ha

theorem Live.refresh (h : Live callable m) (hlt : id < m.count) (now : UInt64) :
    Live callable (m.refresh id now).2 := by
  cases hcb : (m.timer id).cb with
  | none => rwa [refresh_of_none hcb]
  | some cb =>
    have hsome : (m.timer id).cb.isSome := by simp [hcb]
    have hm := h.mem_of_cb hlt hsome
    rw [h.ordered.refresh_eq hm hsome]
    refine h.congr ((h.ordered.erase hm).modify rfl).insert rfl ?_ (h.ordered.mem_reinsert hm rfl)
    intro a
    rw [timer_insert]
    exact modify_keeps (m := m.erase id) Timer.cb rfl a

theorem Live.resetLocked (h : Live callable m) (hlt : id < m.count) (ms : UInt64)
    (fromNow : Bool) (now : UInt64) : Live callable (m.resetLocked id ms fromNow now).2.2 := by
  cases hcb : (m.timer id).cb with
  | none => rwa [resetLocked_of_none hcb]
  | some cb =>
    have hsome : (m.timer id).cb.isSome := by simp [hcb]
    have hm := h.mem_of_cb hlt hsome
    rw [(h.ordered.resetLocked_eq hm hsome ms fromNow now).2]
    refine h.congr ((h.ordered.erase hm).modify rfl).addTimerLocked ?_ ?_ ?_
    · rw [count_addTimerLocked]
      rfl
    · intro a
      rw [timer_addTimerLocked]
      exact modify_keeps (m := m.erase id) Timer.cb rfl a
    · rw [timers_addTimerLocked]
      exact h.ordered.mem_reinsert hm rfl

/-- A new timer is in the set, with the function it was given. -/
theorem Live.addTimer (h : Live callable m) {addr : ℕ} (ms : UInt64) (cb : Option Callback)
    (recurring : Bool) (now : UInt64) (haddr : ∀ t ∈ m.timers, (m.timer t).addr ≠ addr) :
    Live (if cb.isSome then m.count :: callable else callable)
      (m.addTimer addr ms cb recurring now).2 := by
  have ho := h.ordered.allocate (Timer.new addr ms cb recurring now) haddr
  have hnot : m.count ∉ callable := fun hc => (h.lt_count _ hc).false
  refine ⟨ho.addTimerLocked, ?_, ?_⟩
  · intro a ha
    simp only [TimerManager.addTimer, count_addTimerLocked]
    split_ifs at ha
    · rcases List.mem_cons.mp ha with rfl | ha
      · exact Nat.lt_succ_self _
      · exact Nat.lt_succ_of_lt (h.lt_count a ha)
    · exact Nat.lt_succ_of_lt (h.lt_count a ha)
  · intro a ha
    simp only [TimerManager.addTimer, count_addTimerLocked] at ha
    simp only [TimerManager.addTimer, timer_addTimerLocked, timers_addTimerLocked, ho.mem_insert]
    by_cases he : a = m.count
    · subst he
      split_ifs with hcb <;> simp [Timer.new, hcb, hnot]
    · have hlt : a < m.count := lt_of_le_of_ne (Nat.lt_succ_iff.mp ha) he
      have hold := h.cb_iff a hlt
      split_ifs <;> simpa [he] using hold

theorem Live.listExpiredCb (h : Live callable m) (now : UInt64) (probeAddr : ℕ) :
    Live callable (m.listExpiredCb now probeAddr).2 := by
  obtain ⟨expired, left, p, hs, he⟩ := listExpiredCb_cases m now probeAddr
  have hp : Ordered [] { m with previousUseTime := p } :=
    ⟨h.ordered.ascending, h.ordered.nodup, h.ordered.lt_count, h.ordered.addr_inj⟩
  obtain ⟨ho, hmem, htimer⟩ := (hp.split hs).foldl_fire now
  have hdisj : ∀ a ∈ expired, a ∉ left := by
    have hnodup := h.ordered.nodup
    rw [List.append_nil, hs] at hnodup
    exact fun a ha hl => (List.nodup_append.mp hnodup).2.2 a ha a hl rfl
  rw [he]
  refine ⟨ho, ?_, ?_⟩
  · intro a ha
    rw [count_foldl_fire]
    exact h.lt_count a ha
  · intro a ha
    rw [count_foldl_fire] at ha
    have hold := h.cb_iff a ha
    rw [hs, List.mem_append] at hold
    rw [htimer, hmem]
    split_ifs with hexp
    · have hleft := hdisj a hexp
      unfold fired
      split_ifs with hrec <;> simp_all
    · simpa [hexp] using hold

theorem Live.step {s s' : Used} {call : Call} (h : Live s.callable s.manager)
    (hs : s.step call = some s') : Live s'.callable s'.manager := by
  obtain ⟨r, hr, rfl⟩ := Option.map_eq_some_iff.mp hs
  cases call with
  | addTimer addr ms cb recurring now =>
    obtain ⟨haddr, rfl⟩ := Option.ite_some_none_eq_some.mp hr
    have hadded := h.addTimer ms cb recurring now haddr
    cases cb <;> exact hadded
  | cancel id =>
    simp only [execute, Option.ite_none_right_eq_some, Option.map_eq_some_iff] at hr
    obtain ⟨hlt, c, hc, rfl⟩ := hr
    exact h.cancel hlt hc
  | refresh id now =>
    obtain ⟨hlt, rfl⟩ := Option.ite_some_none_eq_some.mp hr
    exact h.refresh hlt now
  | reset id ms fromNow now =>
    obtain ⟨hlt, rfl⟩ := Option.ite_some_none_eq_some.mp hr
    exact h.resetLocked hlt ms fromNow now
  | getNextTimer now =>
    obtain rfl := Option.some.inj hr
    have ho : Ordered [] (s.manager.getNextTimer now).2 :=
      ⟨h.ordered.ascending, h.ordered.nodup, h.ordered.lt_count, h.ordered.addr_inj⟩
    exact h.congr ho rfl (fun _ => rfl) fun _ => Iff.rfl
  | listExpiredCb now probeAddr =>
    obtain rfl := Option.some.inj hr
    exact h.listExpiredCb now probeAddr

theorem live_of_run {now : UInt64} {calls : List Call} {s : Used}
    (hr : Transition.run Used.step (.init now) calls = some s) : Live s.callable s.manager := by
  refine Transition.run_invariant (G := fun _ _ => True)
    (fun s : Used => Live s.callable s.manager) ?_ (new_live now)
    (Transition.meets_of_forall (fun _ _ => trivial) _ _) hr
  intro s call s' h _ hs
  exact h.step hs

section Reports

variable (h : Live callable m) (hid : id ∈ callable)

include h hid

theorem Live.isSome_iff : (m.timer id).cb.isSome = true ↔ id ∈ m.timers :=
  (h.cb_iff id (h.lt_count id hid)).trans (and_iff_right hid)

theorem Live.cb_of_not_mem (hm : id ∉ m.timers) : (m.timer id).cb = none := by
  rwa [← h.isSome_iff hid, Option.not_isSome_iff_eq_none] at hm

theorem Live.cancelTruthful : CancelTruthful m id := by
  by_cases hm : id ∈ m.timers
  · refine ⟨true, _, h.ordered.cancel_eq hm ((h.isSome_iff hid).mpr hm), ?_, ?_⟩
    · exact iff_of_true rfl hm
    · intro hf
      cases hf
  · exact ⟨false, m, cancel_of_none (h.cb_of_not_mem hid hm), by simp [hm], fun _ => rfl⟩

theorem Live.refreshTruthful (now : UInt64) : RefreshTruthful m id now := by
  by_cases hm : id ∈ m.timers
  · rw [RefreshTruthful, h.ordered.refresh_eq hm ((h.isSome_iff hid).mpr hm)]
    simp [hm]
  · rw [RefreshTruthful, refresh_of_none (h.cb_of_not_mem hid hm)]
    simp [hm]

/-- The locked section of `reset` on a timer that is pending. -/
theorem Live.resetTruthful_of_mem (hm : id ∈ m.timers) (ms : UInt64) (fromNow : Bool)
    (now : UInt64) : ResetTruthful m id ms fromNow now := by
  by_cases hshort : ms = (m.timer id).ms && !fromNow
  · have hreset : m.reset id ms fromNow now = (true, false, m) := if_pos hshort
    obtain ⟨rfl, hnow⟩ : ms = (m.timer id).ms ∧ fromNow = false := by simpa using hshort
    constructor <;> rw [hreset] <;> simp [hm, hnow]
  · have hreset : m.reset id ms fromNow now = m.resetLocked id ms fromNow now := if_neg hshort
    obtain ⟨hfst, hlast⟩ :=
      h.ordered.resetLocked_eq hm ((h.isSome_iff hid).mpr hm) ms fromNow now
    constructor <;> rw [hreset]
    · exact iff_of_true hfst hm
    · intro hf
      rw [hfst] at hf
      cases hf
    · intro _
      rw [hlast, timers_addTimerLocked]
      exact (h.ordered.mem_reinsert hm rfl id).mpr hm
    · intro _
      rw [hlast, timer_addTimerLocked, timer_modify_self]
    · intro _
      rw [hlast, timer_addTimerLocked, timer_modify_self]

theorem Live.resetTruthful_iff (ms : UInt64) (fromNow : Bool) (now : UInt64) :
    ResetTruthful m id ms fromNow now ↔
      id ∈ m.timers ∨ ms ≠ (m.timer id).ms ∨ fromNow = true := by
  by_cases hm : id ∈ m.timers
  · exact iff_of_true (h.resetTruthful_of_mem hid hm ms fromNow now) (Or.inl hm)
  · rw [or_iff_right hm]
    by_cases hshort : ms = (m.timer id).ms && !fromNow
    · refine iff_of_false (fun ht => hm (ht.reports.mp ?_)) ?_
      · rw [show m.reset id ms fromNow now = (true, false, m) from if_pos hshort]
      · simpa [not_or] using hshort
    · have hreset : m.reset id ms fromNow now = (false, false, m) :=
        (if_neg hshort).trans (resetLocked_of_none (h.cb_of_not_mem hid hm) ms fromNow now)
      refine iff_of_true ?_ ?_
      · constructor <;> rw [hreset] <;> simp [hm]
      · simpa [or_iff_not_imp_left] using hshort

end Reports

/-- In every run, `Cancel` and `Refresh` report truthfully on a timer added with a callback, and
`reset` does if and only if the timer is pending or the call would change something. -/
theorem reports_truthful_iff (start : UInt64) (calls : List Call) (s : Used)
    (hr : Transition.run Used.step (.init start) calls = some s) (id : TimerId)
    (hid : id ∈ s.callable) :
    CancelTruthful s.manager id ∧ (∀ now, RefreshTruthful s.manager id now) ∧
      ∀ ms fromNow now, ResetTruthful s.manager id ms fromNow now ↔
        id ∈ s.manager.timers ∨ ms ≠ (s.manager.timer id).ms ∨ fromNow = true := by
  have h := live_of_run hr
  exact ⟨h.cancelTruthful hid, h.refreshTruthful hid, h.resetTruthful_iff hid⟩

/-- A timer with an empty function next to a recurring one that has fired once. -/
def besideEmpty : List Call :=
  [.addTimer 64 10 none false 5, .addTimer 32 20 (some 1) true 5, .listExpiredCb 25 128]

theorem reports_truthful_iff_besideEmpty : ∃ s,
    Transition.run Used.step (.init 5) besideEmpty = some s ∧ s.manager.timers = [1] ∧
      CancelTruthful s.manager 1 ∧ ResetTruthful s.manager 1 20 false 30 := by
  have hrun : (Transition.run Used.step (.init 5) besideEmpty).map
      (fun s => (s.callable, s.manager.timers)) = some ([1], [1]) := by decide
  obtain ⟨s, hs, hst⟩ := Option.map_eq_some_iff.mp hrun
  obtain ⟨hc, ht⟩ := Prod.mk.inj hst
  obtain ⟨hcancel, -, hreset⟩ := reports_truthful_iff 5 besideEmpty s hs 1 (by simp [hc])
  exact ⟨s, hs, ht, hcancel, (hreset 20 false 30).mpr (Or.inl (by simp [ht]))⟩

/-- A one-shot timer that has fired is reset successfully to the interval that it had. -/
theorem reset_reports_fired_timer : ∃ s,
    Transition.run Used.step (.init 5) [.addTimer 64 10 (some 1) false 5, .listExpiredCb 15 128] =
      some s ∧ 0 ∈ s.callable ∧ ¬ ResetTruthful s.manager 0 10 false 20 := by
  refine ⟨_, rfl, by decide, fun h => ?_⟩
  exact absurd (h.reports.mp (by decide)) (by decide)

end ServerFramework.TimerManager
