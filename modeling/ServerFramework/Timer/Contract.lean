import Mathlib.Data.List.Count
import ServerFramework.Lib.Transition
import ServerFramework.Timer.Invariant

/-! # The contract of timers

Runs of the locked sections, by any threads and at any clock readings, are recorded in a
history of the callbacks handed out and the cancellations that succeeded. A one-shot timer
is at any time armed, or once handed out, or once cancelled; after its cancellation a timer
of either kind is never handed out.
-/

namespace ServerFramework.TimerManager

/-- What a locked section tells its caller about a timer: its callback is handed out by
`ListExpiredCb`, or `Cancel` returns true. -/
inductive Event where
  | handed (id : TimerId)
  | cancelled (id : TimerId)
  deriving DecidableEq, Repr

/-- The locked sections with their arguments and the clock readings they use. The address of a
new timer is chosen by the allocator; the test that `reset` makes before it takes the lock changes
nothing. -/
inductive LockedSection (κ : Type) where
  | addTimer (addr : ℕ) (ms : UInt64) (cb : κ) (recurring : Bool) (now : UInt64)
  | cancel (id : TimerId)
  | refresh (id : TimerId) (now : UInt64)
  | reset (id : TimerId) (ms : UInt64) (fromNow : Bool) (now : UInt64)
  | getNextTimer (now : UInt64)
  | listExpiredCb (now : UInt64) (probeAddr : ℕ)
  deriving DecidableEq, Repr

/-- One locked section and what it reports. The allocator never gives the address of a timer that
the set keeps alive, and only timers already added are operated on. -/
def execute {κ : Type} (given : κ → Option Callback) (m : TimerManager) :
    LockedSection κ → Option (TimerManager × List Event)
  | .addTimer addr ms cb recurring now =>
    if ∀ t ∈ m.timers, (m.timer t).addr ≠ addr then
      some ((m.addTimer addr ms (given cb) recurring now).2, [])
    else none
  | .cancel id =>
    if id < m.count then
      (m.cancel id).map fun r => (r.2, if r.1 then [.cancelled id] else [])
    else none
  | .refresh id now => if id < m.count then some ((m.refresh id now).2, []) else none
  | .reset id ms fromNow now =>
    if id < m.count then some ((m.resetLocked id ms fromNow now).2.2, []) else none
  | .getNextTimer now => some ((m.getNextTimer now).2, [])
  | .listExpiredCb now probeAddr =>
    let (cbs, m) := m.listExpiredCb now probeAddr
    some (m, cbs.map fun c => .handed c.1)

/-- The sections of those who give every timer a callback. -/
abbrev Op := LockedSection Callback

/-- A manager and what its operations have reported so far. -/
structure Recorded where
  manager : TimerManager
  history : List Event

def Recorded.step (s : Recorded) (op : Op) : Option Recorded :=
  (s.manager.execute some op).map fun r => { manager := r.1, history := s.history ++ r.2 }

def Event.timer : Event → TimerId
  | handed id => id
  | cancelled id => id

/-- The history accounts for the callbacks that are gone. -/
structure Accounted (m : TimerManager) (h : List Event) : Prop where
  lt_count : ∀ e ∈ h, e.timer < m.count
  disarmed : ∀ id, .cancelled id ∈ h → (m.timer id).cb = none
  oneShot : ∀ id < m.count, (m.timer id).recurring = false →
    h.count (.handed id) + h.count (.cancelled id) + (m.timer id).cb.toList.length = 1
  ordered : h.Pairwise fun x y => ∀ id, x = .cancelled id → y ≠ .handed id

variable {m m' : TimerManager} {h : List Event} {id : TimerId}

theorem Accounted.congr (ha : Accounted m h) (hcount : m'.count = m.count)
    (hcb : ∀ a, (m'.timer a).cb = (m.timer a).cb)
    (hrec : ∀ a, (m'.timer a).recurring = (m.timer a).recurring) : Accounted m' h := by
  refine ⟨?_, ?_, ?_, ha.ordered⟩
  · rw [hcount]
    exact ha.lt_count
  · intro a hm
    rw [hcb]
    exact ha.disarmed a hm
  · intro a hlt
    rw [hcount] at hlt
    rw [hcb, hrec]
    exact ha.oneShot a hlt

/-- An armed timer may be reported, if it loses its callback in the cases that demand it. -/
theorem Accounted.record (ha : Accounted m h) {e : Event} (id : TimerId) (he : e.timer = id)
    (hlt : id < m.count) (hsome : (m.timer id).cb.isSome) (hcount : m'.count = m.count)
    (hcb : ∀ a ≠ id, (m'.timer a).cb = (m.timer a).cb)
    (hrec : ∀ a, (m'.timer a).recurring = (m.timer a).recurring)
    (hnone : (m.timer id).recurring = false ∨ e = .cancelled id → (m'.timer id).cb = none) :
    Accounted m' (h ++ [e]) := by
  subst he
  have hfresh : .cancelled e.timer ∉ h := by
    intro hm
    rw [ha.disarmed _ hm] at hsome
    exact absurd hsome (by simp)
  refine ⟨?_, ?_, ?_, ?_⟩
  · intro x hx
    rw [hcount]
    rcases List.mem_append.mp hx with hx | hx
    · exact ha.lt_count x hx
    · rwa [List.mem_singleton.mp hx]
  · intro a hm
    rcases List.mem_append.mp hm with hm | hm
    · have hne : a ≠ e.timer := fun he => hfresh (he ▸ hm)
      rw [hcb a hne]
      exact ha.disarmed a hm
    · obtain rfl := List.mem_singleton.mp hm
      exact hnone (Or.inr rfl)
  · intro a hlt' hone
    rw [hcount] at hlt'
    rw [hrec] at hone
    have hold := ha.oneShot a hlt' hone
    by_cases he : a = e.timer
    · subst he
      obtain ⟨cb, hcb'⟩ := Option.isSome_iff_exists.mp hsome
      rw [hcb'] at hold
      rw [hnone (Or.inl hone)]
      simp only [Option.toList_some, List.length_singleton, Option.toList_none,
        List.length_nil, List.count_append] at hold ⊢
      cases e <;> simp_all [Event.timer]
    · have hnot : ∀ x : Event, x.timer = a → [e].count x = 0 := by
        rintro x rfl
        refine List.count_eq_zero_of_not_mem fun hm => he ?_
        rw [List.mem_singleton.mp hm]
      rw [hcb a he, List.count_append, List.count_append, hnot _ rfl, hnot _ rfl]
      exact hold
  · refine List.pairwise_append.mpr ⟨ha.ordered, List.pairwise_singleton _ _, ?_⟩
    rintro x hx y hy a rfl rfl
    rw [← List.mem_singleton.mp hy] at hfresh
    exact hfresh hx

theorem Accounted.new (now : UInt64) : Accounted (new now) [] where
  lt_count := by simp
  disarmed := by simp
  oneShot := by simp [TimerManager.new]
  ordered := List.Pairwise.nil

/-- A new timer is armed and has not been reported. -/
theorem Accounted.addTimer (ha : Accounted m h) (addr : ℕ) (ms : UInt64) (cb : Callback)
    (recurring : Bool) (now : UInt64) :
    Accounted (m.addTimer addr ms (some cb) recurring now).2 h := by
  have hne : ∀ e ∈ h, e.timer ≠ m.count := fun e he => (ha.lt_count e he).ne
  refine ⟨?_, ?_, ?_, ha.ordered⟩
  · intro e he
    simp only [TimerManager.addTimer, count_addTimerLocked]
    exact Nat.lt_succ_of_lt (ha.lt_count e he)
  · intro a hm
    simp only [TimerManager.addTimer, timer_addTimerLocked]
    have hne' : a ≠ m.count := hne _ hm
    rw [Function.update_of_ne hne']
    exact ha.disarmed a hm
  · intro a hlt hone
    simp only [TimerManager.addTimer, timer_addTimerLocked, count_addTimerLocked] at hlt hone ⊢
    by_cases he : a = m.count
    · subst he
      have hnot : ∀ x : Event, x.timer = m.count → h.count x = 0 := fun x hx =>
        List.count_eq_zero_of_not_mem fun hm => hne x hm hx
      simp [hnot (.handed _) rfl, hnot (.cancelled _) rfl, Timer.new]
    · rw [Function.update_of_ne he] at hone ⊢
      exact ha.oneShot a (lt_of_le_of_ne (Nat.lt_succ_iff.mp hlt) he) hone

theorem Accounted.disarm (ha : Accounted m h) {e : Event} (id : TimerId) (he : e.timer = id)
    (hlt : id < m.count) (hsome : (m.timer id).cb.isSome) :
    Accounted (m.modify id fun t => { t with cb := none }) (h ++ [e]) := by
  refine ha.record id he hlt hsome rfl ?_ (modify_keeps Timer.recurring rfl) ?_
  · intro a hne
    rw [timer_modify_of_ne _ hne]
  · intro _
    rw [timer_modify_self]

theorem Accounted.fire (ha : Accounted m h) (hlt : id < m.count)
    (hsome : (m.timer id).cb.isSome) (now : UInt64) :
    Accounted (fire now m id) (h ++ [.handed id]) := by
  unfold TimerManager.fire
  split_ifs with hrec
  · refine ha.record id rfl hlt hsome rfl ?_ ?_ ?_
    · intro a _
      rw [timer_insert]
      exact modify_keeps Timer.cb rfl a
    · intro a
      rw [timer_insert]
      exact modify_keeps Timer.recurring rfl a
    · simp [hrec]
  · exact ha.disarm id rfl hlt hsome

/-- Each expired timer is armed until the loop comes to it. -/
theorem Accounted.foldl_fire {expired : List TimerId} (ha : Accounted m h) (hi : Inv expired m)
    (now : UInt64) : Accounted (expired.foldl (TimerManager.fire now) m)
      (h ++ expired.map fun id => .handed id) := by
  induction expired generalizing m h with
  | nil => simpa using ha
  | cons id expired ih =>
    have hm : id ∈ m.timers ++ id :: expired := by simp
    have hlt := hi.lt_count id hm
    have := ih (ha.fire hlt ((hi.mem_iff id hlt).mp hm) now) (hi.fire now)
    simpa using this

/-- The invariant of the recorded runs. -/
structure Recorded.Inv (s : Recorded) : Prop where
  set : TimerManager.Inv [] s.manager
  accounted : Accounted s.manager s.history

/-- Changing the deadline of a timer in the set reports nothing. -/
theorem Accounted.refresh (ha : Accounted m h) (hi : Inv [] m) (hlt : id < m.count)
    (now : UInt64) : Accounted (m.refresh id now).2 h := by
  cases hcb : (m.timer id).cb with
  | none => rwa [refresh_of_none hcb]
  | some cb =>
    rw [hi.refresh_eq hlt (by simp [hcb])]
    refine ha.congr rfl ?_ ?_
    · intro a
      rw [timer_insert]
      exact modify_keeps (m := m.erase id) Timer.cb rfl a
    · intro a
      rw [timer_insert]
      exact modify_keeps (m := m.erase id) Timer.recurring rfl a

theorem Accounted.resetLocked (ha : Accounted m h) (hi : Inv [] m) (hlt : id < m.count)
    (ms : UInt64) (fromNow : Bool) (now : UInt64) :
    Accounted (m.resetLocked id ms fromNow now).2.2 h := by
  cases hcb : (m.timer id).cb with
  | none => rwa [resetLocked_of_none hcb]
  | some cb =>
    obtain ⟨next, he⟩ := hi.resetLocked_eq hlt (by simp [hcb]) ms fromNow now
    rw [he]
    refine ha.congr ?_ ?_ ?_
    · rw [count_addTimerLocked]
      rfl
    · intro a
      rw [timer_addTimerLocked]
      exact modify_keeps (m := m.erase id) Timer.cb rfl a
    · intro a
      rw [timer_addTimerLocked]
      exact modify_keeps (m := m.erase id) Timer.recurring rfl a

/-- Every locked section keeps the invariant. -/
theorem Recorded.Inv.step {s s' : Recorded} {op : Op} (hs : s.Inv) (h : s.step op = some s') :
    s'.Inv := by
  obtain ⟨hi, ha⟩ := hs
  rw [← List.append_nil s.history] at ha
  obtain ⟨r, hr, rfl⟩ := Option.map_eq_some_iff.mp h
  cases op with
  | addTimer addr ms cb recurring now =>
    obtain ⟨haddr, rfl⟩ := Option.ite_some_none_eq_some.mp hr
    exact ⟨hi.addTimer addr ms cb recurring now haddr, ha.addTimer addr ms cb recurring now⟩
  | cancel id =>
    simp only [execute, Option.ite_none_right_eq_some, Option.map_eq_some_iff] at hr
    obtain ⟨hlt, c, hc, rfl⟩ := hr
    rw [List.append_nil] at ha
    cases hcb : (s.manager.timer id).cb with
    | none =>
      obtain rfl : (false, s.manager) = c := by simpa [cancel_of_none hcb] using hc
      exact ⟨hi, by simpa using ha⟩
    | some cb =>
      have hsome : (s.manager.timer id).cb.isSome := by simp [hcb]
      have hm := hi.mem_of_cb hlt hsome
      rw [hi.cancel_eq hlt hsome, Option.some.injEq] at hc
      subst hc
      have ha' : Accounted (s.manager.erase id) s.history :=
        ha.congr rfl (fun _ => rfl) fun _ => rfl
      exact ⟨(hi.erase hm).disarm, ha'.disarm id rfl hlt hsome⟩
  | refresh id now =>
    obtain ⟨hlt, rfl⟩ := Option.ite_some_none_eq_some.mp hr
    exact ⟨hi.refresh hlt now, ha.refresh hi hlt now⟩
  | reset id ms fromNow now =>
    obtain ⟨hlt, rfl⟩ := Option.ite_some_none_eq_some.mp hr
    exact ⟨hi.resetLocked hlt ms fromNow now, ha.resetLocked hi hlt ms fromNow now⟩
  | getNextTimer now =>
    obtain rfl := Option.some.inj hr
    exact ⟨hi.getNextTimer now, ha.congr rfl (fun _ => rfl) fun _ => rfl⟩
  | listExpiredCb now probeAddr =>
    simp only [execute, Option.some.injEq] at hr
    subst hr
    rw [List.append_nil] at ha
    refine ⟨hi.listExpiredCb now probeAddr, ?_⟩
    obtain ⟨expired, left, p, hsplit, he⟩ := listExpiredCb_cases s.manager now probeAddr
    have hp : TimerManager.Inv [] { s.manager with previousUseTime := p } :=
      ⟨hi.ascending, hi.nodup, hi.lt_count, hi.addr_inj, hi.mem_iff⟩
    have ha' : Accounted { s.manager with timers := left, previousUseTime := p } s.history :=
      ha.congr rfl (fun _ => rfl) fun _ => rfl
    rw [he]
    simpa [List.map_map, Function.comp_def] using ha'.foldl_fire (hp.split hsplit) now

/-- What holds between any two locked sections. -/
structure Recorded.Contract (s : Recorded) : Prop where
  /-- `timers_` is strictly ordered by deadline and address. -/
  ascending : OrderedSet.Ascending s.manager.key s.manager.timers
  nodup : s.manager.timers.Nodup
  mem_iff : ∀ id < s.manager.count, id ∈ s.manager.timers ↔ (s.manager.timer id).cb.isSome
  /-- The `find` of `Cancel` never yields the end. -/
  cancel_defined : ∀ id < s.manager.count, (s.manager.cancel id).isSome
  handed_once : ∀ id < s.manager.count, (s.manager.timer id).recurring = false →
    s.history.count (.handed id) ≤ 1
  cancelled_not_handed : ∀ id < s.manager.count, (s.manager.timer id).recurring = false →
    .cancelled id ∈ s.history → .handed id ∉ s.history
  /-- Nothing is handed out after its cancellation. -/
  not_handed_after : s.history.Pairwise fun x y => ∀ id, x = .cancelled id → y ≠ .handed id
  kept : ∀ id < s.manager.count, (s.manager.timer id).recurring = false →
    .handed id ∉ s.history → .cancelled id ∉ s.history → id ∈ s.manager.timers

theorem Recorded.Inv.contract {s : Recorded} (hs : s.Inv) : s.Contract := by
  obtain ⟨hi, ha⟩ := hs
  refine ⟨hi.ascending, ?_, ?_, ?_, ?_, ?_, ha.ordered, ?_⟩
  · simpa using hi.nodup
  · simpa using hi.mem_iff
  · intro id hlt
    obtain ⟨b, m', he, -⟩ := hi.cancel hlt
    simp [he]
  · intro id hlt hone
    have := ha.oneShot id hlt hone
    omega
  · intro id hlt hone hc hh
    have := ha.oneShot id hlt hone
    have := List.count_pos_iff.mpr hc
    have := List.count_pos_iff.mpr hh
    omega
  · intro id hlt hone hh hc
    have := ha.oneShot id hlt hone
    rw [List.count_eq_zero_of_not_mem hh, List.count_eq_zero_of_not_mem hc] at this
    apply hi.mem_of_cb hlt
    cases hcb : (s.manager.timer id).cb with
    | none => simp [hcb] at this
    | some cb => rfl

/-- In every run of the locked sections from a new manager the contract holds. -/
theorem timers_contract (now : UInt64) (ops : List Op) (s : Recorded)
    (hr : Transition.run Recorded.step { manager := new now, history := [] } ops = some s) :
    s.Contract := by
  apply Recorded.Inv.contract
  refine Transition.run_invariant (G := fun _ _ => True) Recorded.Inv ?_ ?_
    (Transition.meets_of_forall (fun _ _ => trivial) _ _) hr
  · intro s op s' hs _ h
    exact hs.step h
  · exact ⟨new_inv now, Accounted.new now⟩

/-- Two timers fire at the same time, one of them is then cancelled, a third is moved up. -/
def threeTimers : List Op :=
  [.addTimer 64 10 1 false 5, .addTimer 32 10 2 true 5, .addTimer 96 50 3 false 6,
    .refresh 0 9, .listExpiredCb 19 128, .cancel 1, .reset 2 5 true 20, .listExpiredCb 25 128]

theorem timers_contract_three_timers : ∃ s,
    Transition.run Recorded.step { manager := new 5, history := [] } threeTimers = some s ∧
      s.history = [.handed 1, .handed 0, .cancelled 1, .handed 2] ∧ s.Contract := by
  have hrun : (Transition.run Recorded.step { manager := new 5, history := [] } threeTimers).map
      Recorded.history = some [.handed 1, .handed 0, .cancelled 1, .handed 2] := by decide
  obtain ⟨s, hs, hh⟩ := Option.map_eq_some_iff.mp hrun
  exact ⟨s, hs, hh, timers_contract 5 threeTimers s hs⟩

end ServerFramework.TimerManager
