import ServerFramework.Timer.Expiry

/-! # Intervals

The interval of a timer counts from a reading of the clock: the one when it was created, refreshed,
reset from now or last handed out. As long as deadlines do not wrap around, a timer is never handed
out before its interval is over exactly if nothing is handed out before its deadline.
-/

namespace ServerFramework

/-- The deadline of a timer that is armed is its interval after the reading. -/
structure Timer.Counts (clock since : ℕ) (t : Timer) : Prop where
  ms_lt : t.ms.toNat < 2 ^ 63
  since_le : since ≤ clock
  next : t.cb.isSome → t.next.toNat = since + t.ms.toNat

namespace TimerManager

/-- A callback that has been handed out: the reading that the interval of its timer counted from,
the interval, and the reading of the call. -/
structure Period where
  id : TimerId
  since : ℕ
  ms : UInt64
  now : UInt64
  deriving DecidableEq, Repr

/-- What the intervals count from after a locked section. -/
def sinceAfter (m : TimerManager) (since : TimerId → ℕ) : Op → TimerId → ℕ
  | .addTimer _ _ _ _ now => Function.update since m.count now.toNat
  | .refresh id now =>
    if (m.refresh id now).1 then Function.update since id now.toNat else since
  | .reset id ms fromNow now =>
    if (m.resetLocked id ms fromNow now).1 && fromNow then Function.update since id now.toNat
    else since
  | .listExpiredCb now probeAddr => fun id =>
    if id ∈ (m.listExpiredCb now probeAddr).1.map Prod.fst then now.toNat else since id
  | .cancel _ | .getNextTimer _ => since

def Op.IntervalBounded : Op → Prop
  | .addTimer _ ms _ _ _ | .reset _ ms _ _ => ms.toNat < 2 ^ 63
  | _ => True

/-- The clock and the intervals are too small for deadlines to wrap around. -/
def ClockedOp.Bounded : ClockedOp → Prop
  | .tick clock => clock.toNat < 2 ^ 63
  | .other op => op.IntervalBounded
  | _ => True

/-- A manager used by threads, with what the intervals count from. -/
structure Periodic where
  clocked : Clocked
  since : TimerId → ℕ
  periods : List Period

namespace Periodic

def init (start : UInt64) : Periodic := ⟨.init start, fun _ => 0, []⟩

def manager (s : Periodic) : TimerManager := s.clocked.recorded.manager

/-- The record of a step that has been made. -/
def record (s : Periodic) (clocked : Clocked) : ClockedOp → Periodic
  | .list t probeAddr =>
    match s.clocked.phase t with
    | .checked now =>
      { clocked := clocked
        since := sinceAfter s.manager s.since (.listExpiredCb now probeAddr)
        periods := s.periods ++ (s.manager.listExpiredCb now probeAddr).1.map fun c =>
          ⟨c.1, s.since c.1, (s.manager.timer c.1).ms, now⟩ }
    | _ => { s with clocked := clocked }
  | .other op => { s with clocked := clocked, since := sinceAfter s.manager s.since op }
  | _ => { s with clocked := clocked }

def step (s : Periodic) (op : ClockedOp) : Option Periodic :=
  (s.clocked.step op).map fun clocked => s.record clocked op

/-- No timer is handed out before its interval is over. -/
def KeepsIntervals (s : Periodic) : Prop := ∀ p ∈ s.periods, p.since + p.ms.toNat ≤ p.now.toNat

end Periodic

/-- The timers count from the readings given. -/
def Counting (clock : ℕ) (since : TimerId → ℕ) (m : TimerManager) : Prop :=
  ∀ id < m.count, (m.timer id).Counts clock (since id)

variable {m : TimerManager} {id : TimerId} {clock : ℕ} {since : TimerId → ℕ} {now : UInt64}

theorem counts_of_start {t : Timer} (hclock : clock < 2 ^ 63) (hle : now.toNat ≤ clock)
    (hms : t.ms.toNat < 2 ^ 63) (hnext : t.next = now + t.ms) : t.Counts clock now.toNat := by
  refine ⟨hms, hle, fun _ => ?_⟩
  rw [hnext, UInt64.toNat_add]
  omega

theorem Counting.mono {clock' : ℕ} (h : Counting clock since m) (hle : clock ≤ clock') :
    Counting clock' since m :=
  fun a ha => ⟨(h a ha).ms_lt, (h a ha).since_le.trans hle, (h a ha).next⟩

/-- A timer is changed, and perhaps what it counts from. -/
theorem Counting.modify (h : Counting clock since m) {f : Timer → Timer} {start : ℕ}
    (hf : (f (m.timer id)).Counts clock start) :
    Counting clock (Function.update since id start) (m.modify id f) := by
  intro a ha
  by_cases he : a = id
  · subst he
    rwa [timer_modify_self, Function.update_self]
  · rw [timer_modify_of_ne f he, Function.update_of_ne he]
    exact h a ha

theorem Counting.addTimerLocked (h : Counting clock since m) (id : TimerId) :
    Counting clock since (m.addTimerLocked id).2 := by
  intro a ha
  rw [count_addTimerLocked] at ha
  rw [timer_addTimerLocked]
  exact h a ha

theorem Counting.addTimer (h : Counting clock since m) (hclock : clock < 2 ^ 63) {ms : UInt64}
    (hms : ms.toNat < 2 ^ 63) (hle : now.toNat ≤ clock) (addr : ℕ) (cb : Callback)
    (recurring : Bool) : Counting clock (sinceAfter m since (.addTimer addr ms cb recurring now))
      (m.addTimer addr ms (some cb) recurring now).2 := by
  intro a ha
  simp only [TimerManager.addTimer, timer_addTimerLocked, count_addTimerLocked] at ha ⊢
  by_cases he : a = m.count
  · subst he
    rw [sinceAfter, Function.update_self, Function.update_self]
    exact counts_of_start hclock hle hms rfl
  · rw [sinceAfter, Function.update_of_ne he, Function.update_of_ne he]
    exact h a (lt_of_le_of_ne (Nat.lt_succ_iff.mp ha) he)

theorem Counting.cancel (h : Counting clock since m) (hi : Inv [] m) (hlt : id < m.count)
    {r : Bool × TimerManager} (hr : m.cancel id = some r) : Counting clock since r.2 := by
  cases hcb : (m.timer id).cb with
  | none =>
    obtain rfl : (false, m) = r := by simpa [cancel_of_none hcb] using hr
    exact h
  | some cb =>
    rw [hi.cancel_eq hlt (by simp [hcb]), Option.some.injEq] at hr
    subst hr
    have hsame : Function.update since id (since id) = since := Function.update_eq_self id since
    rw [← hsame]
    exact Counting.modify (m := m.erase id) h ⟨(h id hlt).ms_lt, (h id hlt).since_le, by simp⟩

theorem Counting.refresh (h : Counting clock since m) (hi : Inv [] m) (hclock : clock < 2 ^ 63)
    (hlt : id < m.count) (hle : now.toNat ≤ clock) :
    Counting clock (sinceAfter m since (.refresh id now)) (m.refresh id now).2 := by
  cases hcb : (m.timer id).cb with
  | none => simpa [sinceAfter, refresh_of_none hcb] using h
  | some cb =>
    have heq := hi.refresh_eq hlt (by simp [hcb]) now
    simp only [sinceAfter, heq, if_true]
    have hcounts : ({ m.timer id with next := now + (m.timer id).ms } : Timer).Counts clock
        now.toNat := counts_of_start hclock hle (h id hlt).ms_lt rfl
    exact Counting.modify (m := m.erase id) (f := fun t => { t with next := now + t.ms }) h hcounts

/-- The reading that an armed timer counts from. -/
theorem start_of_counts {t : Timer} {start : ℕ} (h : t.Counts clock start) (hcb : t.cb.isSome) :
    (t.next - t.ms).toNat = start := by
  have hnext := h.next hcb
  have hle : t.ms ≤ t.next := by
    rw [UInt64.le_iff_toNat_le]
    omega
  rw [UInt64.toNat_sub_of_le _ _ hle]
  omega

theorem Counting.reset (h : Counting clock since m) (hi : Inv [] m) (hclock : clock < 2 ^ 63)
    (hlt : id < m.count) {ms : UInt64} (hms : ms.toNat < 2 ^ 63) (fromNow : Bool)
    (hle : now.toNat ≤ clock) : Counting clock (sinceAfter m since (.reset id ms fromNow now))
      (m.resetLocked id ms fromNow now).2.2 := by
  cases hcb : (m.timer id).cb with
  | none => simpa [sinceAfter, resetLocked_of_none hcb] using h
  | some cb =>
    have hsome : (m.timer id).cb.isSome := by simp [hcb]
    obtain ⟨hok, heq⟩ := hi.ordered.resetLocked_eq (hi.mem_of_cb hlt hsome) hsome ms fromNow now
    set start := if fromNow then now else (m.timer id).next - (m.timer id).ms
    have hstart : start.toNat ≤ clock := by
      cases fromNow with
      | true => exact hle
      | false => exact (start_of_counts (h id hlt) hsome).trans_le (h id hlt).since_le
    have hsince : sinceAfter m since (.reset id ms fromNow now) =
        Function.update since id start.toNat := by
      cases fromNow with
      | true => simp [sinceAfter, hok, start]
      | false =>
        have hself : start.toNat = since id := start_of_counts (h id hlt) hsome
        simp [sinceAfter, hself]
    rw [hsince, heq]
    apply Counting.addTimerLocked
    exact Counting.modify (m := m.erase id) h (counts_of_start hclock hstart hms rfl)

theorem Counting.listExpiredCb (h : Counting clock since m) (hi : Inv [] m)
    (hclock : clock < 2 ^ 63) (hle : now.toNat ≤ clock) (probeAddr : ℕ) :
    Counting clock (sinceAfter m since (.listExpiredCb now probeAddr))
      (m.listExpiredCb now probeAddr).2 := by
  obtain ⟨expired, left, p, hs, he⟩ := listExpiredCb_cases m now probeAddr
  have ho : Ordered [] { m with previousUseTime := p } :=
    ⟨hi.ordered.ascending, hi.ordered.nodup, hi.ordered.lt_count, hi.ordered.addr_inj⟩
  obtain ⟨-, -, htimer⟩ := (ho.split hs).foldl_fire now
  have hcbs : (expired.map fun id => (id, (m.timer id).cb)).map Prod.fst = expired := by
    simp [List.map_map, Function.comp_def]
  intro a ha
  rw [he, count_foldl_fire] at ha
  have hold := h a ha
  simp only [sinceAfter, he, hcbs, htimer]
  split_ifs with hexp
  · rw [fired]
    split_ifs
    · exact counts_of_start hclock hle hold.ms_lt rfl
    · exact ⟨hold.ms_lt, hle, by simp⟩
  · exact hold

/-- Every locked section that works with a reading of the clock lets the timers count on. -/
theorem Counting.step {s s' : Recorded} {op : Op} (h : Counting clock since s.manager)
    (hs : s.Inv) (hclock : clock < 2 ^ 63) (hle : op.reading.toNat ≤ clock)
    (hms : op.IntervalBounded) (hstep : s.step op = some s') :
    Counting clock (sinceAfter s.manager since op) s'.manager := by
  obtain ⟨r, hr, rfl⟩ := Option.map_eq_some_iff.mp hstep
  cases op with
  | addTimer addr ms cb recurring now =>
    obtain ⟨-, rfl⟩ := Option.ite_some_none_eq_some.mp hr
    exact h.addTimer hclock hms hle addr cb recurring
  | cancel id =>
    simp only [execute, Option.ite_none_right_eq_some, Option.map_eq_some_iff] at hr
    obtain ⟨hlt, c, hc, rfl⟩ := hr
    exact h.cancel hs.set hlt hc
  | refresh id now =>
    obtain ⟨hlt, rfl⟩ := Option.ite_some_none_eq_some.mp hr
    exact h.refresh hs.set hclock hlt hle
  | reset id ms fromNow now =>
    obtain ⟨hlt, rfl⟩ := Option.ite_some_none_eq_some.mp hr
    exact h.reset hs.set hclock hlt hms fromNow hle
  | getNextTimer now =>
    obtain rfl := Option.some.inj hr
    exact h
  | listExpiredCb now probeAddr =>
    obtain rfl := Option.some.inj hr
    exact h.listExpiredCb hs.set hclock hle probeAddr

/-- The reading that a thread has brought from outside. -/
def Phase.ReadBy (clock : UInt64) : Phase → Prop
  | .outside => True
  | .hasRead now | .checked now => now ≤ clock

theorem Phase.ReadBy.mono {clock clock' : UInt64} {p : Phase} (h : p.ReadBy clock)
    (hle : clock ≤ clock') : p.ReadBy clock' := by
  cases p with
  | outside => trivial
  | hasRead now => exact UInt64.le_trans h hle
  | checked now => exact UInt64.le_trans h hle

theorem readBy_update {clock : UInt64} {f : ℕ → Phase} (h : ∀ t, (f t).ReadBy clock) {t : ℕ}
    {p : Phase} (hp : p.ReadBy clock) (u : ℕ) : (Function.update f t p u).ReadBy clock := by
  by_cases he : u = t
  · rwa [he, Function.update_self]
  · rw [Function.update_of_ne he]
    exact h u

/-- Only timers of the set are handed out. -/
theorem mem_of_listExpiredCb {probeAddr : ℕ} {c : TimerId × Option Callback}
    (hc : c ∈ (m.listExpiredCb now probeAddr).1) : c.1 ∈ m.timers := by
  obtain ⟨expired, left, p, hs, he⟩ := listExpiredCb_cases m now probeAddr
  rw [he] at hc
  obtain ⟨id, hid, rfl⟩ := List.mem_map.mp hc
  rw [hs]
  exact List.mem_append_left left hid

namespace Periodic

variable {s s' : Periodic} {op : ClockedOp}

/-- The readings are of the past, and what has been recorded of the intervals agrees with the
deadlines. -/
structure Inv (s : Periodic) : Prop where
  recorded : s.clocked.recorded.Inv
  clock_lt : s.clocked.clock.toNat < 2 ^ 63
  readBy : ∀ t, (s.clocked.phase t).ReadBy s.clocked.clock
  counting : Counting s.clocked.clock.toNat s.since s.manager
  agree : s.periods.map (fun p => (p.since + p.ms.toNat, p.now)) =
    s.clocked.handed.map fun h => (h.next.toNat, h.now)

theorem Inv.init {start : UInt64} (hstart : start.toNat < 2 ^ 63) : (init start).Inv where
  recorded := ⟨new_inv start, Accounted.new start⟩
  clock_lt := hstart
  readBy := fun _ => trivial
  counting := fun id hlt => absurd hlt (Nat.not_lt_zero id)
  agree := rfl

/-- The deadlines that a call works with are the ends of the intervals. -/
theorem Inv.agree_list (h : s.Inv) (now : UInt64) (probeAddr : ℕ) :
    ((s.manager.listExpiredCb now probeAddr).1.map fun c =>
        (⟨c.1, s.since c.1, (s.manager.timer c.1).ms, now⟩ : Period)).map
        (fun p => (p.since + p.ms.toNat, p.now)) =
      ((s.manager.listExpiredCb now probeAddr).1.map fun c =>
        (⟨(s.manager.timer c.1).next, now⟩ : Handed)).map fun h => (h.next.toNat, h.now) := by
  rw [List.map_map, List.map_map]
  apply List.map_congr_left
  rintro ⟨id, cb⟩ hc
  have hset := h.recorded.set
  have hm : id ∈ s.manager.timers := mem_of_listExpiredCb hc
  have hm' : id ∈ s.clocked.recorded.manager.timers ++ [] := by rwa [List.append_nil]
  have hlt : id < s.manager.count := hset.lt_count id hm'
  have hsome : (s.manager.timer id).cb.isSome := (hset.mem_iff id hlt).mp hm'
  simp [(h.counting id hlt).next hsome]

theorem Inv.step (h : s.Inv) (hb : op.Bounded) (hstep : s.step op = some s') : s'.Inv := by
  obtain ⟨c, hc, rfl⟩ := Option.map_eq_some_iff.mp hstep
  cases op with
  | tick clock =>
    simp only [Clocked.step, Option.ite_none_right_eq_some, Option.some.injEq] at hc
    obtain ⟨hle, rfl⟩ := hc
    refine ⟨h.recorded, hb, ?_, h.counting.mono (UInt64.le_iff_toNat_le.mp hle), h.agree⟩
    exact fun t => (h.readBy t).mono hle
  | read t =>
    simp only [Clocked.step, Option.ite_none_right_eq_some, Option.some.injEq] at hc
    obtain ⟨-, rfl⟩ := hc
    refine ⟨h.recorded, h.clock_lt, ?_, h.counting, h.agree⟩
    exact readBy_update h.readBy (UInt64.le_refl _)
  | check t =>
    have hread := h.readBy t
    cases hp : s.clocked.phase t with
    | hasRead now =>
      simp only [Clocked.step, hp, Option.some.injEq] at hc
      subst hc
      rw [hp] at hread
      refine ⟨h.recorded, h.clock_lt, readBy_update h.readBy ?_, h.counting, h.agree⟩
      split_ifs
      · trivial
      · exact hread
    | _ => simp [Clocked.step, hp] at hc
  | list t probeAddr =>
    have hread := h.readBy t
    cases hp : s.clocked.phase t with
    | checked now =>
      simp only [Clocked.step, hp, Option.map_eq_some_iff] at hc
      obtain ⟨r, hr, rfl⟩ := hc
      rw [hp] at hread
      have hcount : Counting s.clocked.clock.toNat
          (sinceAfter s.manager s.since (.listExpiredCb now probeAddr)) r.manager :=
        h.counting.step h.recorded h.clock_lt (UInt64.le_iff_toNat_le.mp hread) trivial hr
      simp only [record, hp]
      refine ⟨h.recorded.step hr, h.clock_lt, readBy_update h.readBy trivial, hcount, ?_⟩
      rw [List.map_append, List.map_append, h.agree, h.agree_list]
      rfl
    | _ => simp [Clocked.step, hp] at hc
  | other op =>
    simp only [Clocked.step, Option.ite_none_right_eq_some, Option.map_eq_some_iff] at hc
    obtain ⟨⟨-, hle⟩, r, hr, rfl⟩ := hc
    refine ⟨h.recorded.step hr, h.clock_lt, h.readBy, ?_, h.agree⟩
    exact h.counting.step h.recorded h.clock_lt (UInt64.le_iff_toNat_le.mp hle) hb hr

/-- A callback is handed out before its deadline exactly if its interval is not over. -/
theorem Inv.keepsIntervals_iff (h : s.Inv) : s.KeepsIntervals ↔ s.clocked.NoneEarly := by
  have hperiods : s.KeepsIntervals ↔
      ∀ x ∈ s.periods.map (fun p => (p.since + p.ms.toNat, p.now)), x.1 ≤ x.2.toNat := by
    simp [KeepsIntervals]
  rw [hperiods, h.agree]
  simp [Clocked.NoneEarly, UInt64.le_iff_toNat_le]

theorem step_keepsIntervals_iff (h : s.Inv) (hb : op.Bounded) (hstep : s.step op = some s') :
    s'.KeepsIntervals ↔ s.KeepsIntervals ∧ s.clocked.Steady op := by
  rw [(h.step hb hstep).keepsIntervals_iff, h.keepsIntervals_iff]
  obtain ⟨c, hc, rfl⟩ := Option.map_eq_some_iff.mp hstep
  have hclocked : (s.record c op).clocked = c := by
    unfold record
    split
    · split <;> rfl
    · rfl
    · rfl
  rw [hclocked]
  exact Clocked.step_noneEarly_iff hc

end Periodic

/-- In every run in which deadlines do not wrap around, no callback is handed out before the
interval of its timer is over, counted from its creation, its last refresh or its last call, if
and only if every write-locked section of `ListExpiredCb` works with a reading in step or finds
nothing later than it. -/
theorem keepsIntervals_iff_steady (start : UInt64) (hstart : start.toNat < 2 ^ 63)
    (ops : List ClockedOp) (hb : ∀ op ∈ ops, op.Bounded) (s : Periodic)
    (hr : Transition.run Periodic.step (.init start) ops = some s) :
    s.KeepsIntervals ↔
      Transition.Meets Periodic.step (fun s op => s.clocked.Steady op) (.init start) ops := by
  have hinit : (Periodic.init start).KeepsIntervals := by
    simp [Periodic.KeepsIntervals, Periodic.init]
  rw [Transition.run_iff_meets_of_meets Periodic.Inv Periodic.KeepsIntervals
    (fun _ _ _ h hb => h.step hb) (fun _ _ _ h hb => Periodic.step_keepsIntervals_iff h hb)
    (Periodic.Inv.init hstart) (Transition.meets_of_forall_mem hb _) hr]
  exact and_iff_right hinit

/-- A recurring timer of five seconds is handed out twice; in between its interval is reset to
one second, from now. -/
def fiveThenOne : List ClockedOp :=
  [.other (.addTimer 64 5000 1 true 7200000), .tick 7205000, .read 0, .check 0, .list 0 128,
    .tick 7205500, .other (.reset 0 1000 true 7205500), .tick 7206600, .read 1, .check 1,
    .list 1 128]

theorem keepsIntervals_iff_steady_fiveThenOne : ∃ s,
    Transition.run Periodic.step (.init 7200000) fiveThenOne = some s ∧
      s.periods = [⟨0, 7200000, 5000, 7205000⟩, ⟨0, 7205500, 1000, 7206600⟩] ∧
      Transition.Meets Periodic.step (fun s op => s.clocked.Steady op) (.init 7200000)
        fiveThenOne := by
  have hrun : (Transition.run Periodic.step (.init 7200000) fiveThenOne).map
      Periodic.periods = some [⟨0, 7200000, 5000, 7205000⟩, ⟨0, 7205500, 1000, 7206600⟩] := by
    decide
  obtain ⟨s, hs, hp⟩ := Option.map_eq_some_iff.mp hrun
  have hb : ∀ op ∈ fiveThenOne, op.Bounded := by
    simp [fiveThenOne, ClockedOp.Bounded, Op.IntervalBounded]
  refine ⟨s, hs, hp, (keepsIntervals_iff_steady 7200000 (by decide) _ hb s hs).mp ?_⟩
  rw [Periodic.KeepsIntervals, hp]
  decide

end TimerManager

end ServerFramework
