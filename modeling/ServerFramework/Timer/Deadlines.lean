import Mathlib.Algebra.Group.Nat.Defs
import ServerFramework.Timer.Invariant

/-! # Deadlines

A timer's deadline is its interval after some earlier reading of the clock. So `Refresh` never
moves a deadline forward, and what `AddTimer` and `reset` insert behind the front is not due
before the timers in front of it.
-/

namespace ServerFramework

/-- The interval is below `2^31` and counts from a reading of the clock. -/
structure Timer.Started (clock : UInt64) (t : Timer) : Prop where
  ms_lt : t.ms.toNat < 2 ^ 31
  ms_le : t.ms.toNat ≤ t.next.toNat
  next_le : t.next.toNat ≤ clock.toNat + t.ms.toNat

theorem Timer.Started.mono {clock clock' : UInt64} {t : Timer} (h : t.Started clock)
    (hle : clock ≤ clock') : t.Started clock' :=
  ⟨h.ms_lt, h.ms_le, h.next_le.trans (Nat.add_le_add_right (UInt64.le_iff_toNat_le.mp hle) _)⟩

theorem Timer.Started.congr {clock : UInt64} {t t' : Timer} (h : t.Started clock)
    (hms : t'.ms = t.ms) (hnext : t'.next = t.next) : t'.Started clock :=
  ⟨hms ▸ h.ms_lt, hms ▸ hnext ▸ h.ms_le, hms ▸ hnext ▸ h.next_le⟩

/-- Deadlines fit into 64 bits. -/
theorem toNat_add_of_lt {clock start ms : UInt64} (hclock : clock.toNat < 2 ^ 63)
    (hle : start ≤ clock) (hms : ms.toNat < 2 ^ 31) :
    (start + ms).toNat = start.toNat + ms.toNat := by
  have := UInt64.le_iff_toNat_le.mp hle
  rw [UInt64.toNat_add]
  omega

theorem Timer.Started.of_start {clock start : UInt64} {t : Timer}
    (hclock : clock.toNat < 2 ^ 63) (hle : start ≤ clock)
    (hms : t.ms.toNat < 2 ^ 31) (hnext : t.next = start + t.ms) : t.Started clock := by
  have hsum := toNat_add_of_lt hclock hle hms
  have := UInt64.le_iff_toNat_le.mp hle
  constructor
  · exact hms
  · rw [hnext]
    omega
  · rw [hnext]
    omega

namespace TimerManager

open OrderedSet

/-- The set is ordered and the deadlines count from readings of the clock. -/
structure Sound (clock : UInt64) (owed : List TimerId) (m : TimerManager) : Prop where
  ordered : Ordered owed m
  started : ∀ id < m.count, (m.timer id).Started clock

/-- No timer is due before the given time. -/
def NoneBefore (time : ℕ) (m : TimerManager) : Prop :=
  ∀ id ∈ m.timers, time ≤ (m.timer id).next.toNat

variable {m : TimerManager} {id : TimerId} {owed : List TimerId} {clock : UInt64} {time : ℕ}

theorem new_sound (clock now : UInt64) : Sound clock [] (new now) :=
  ⟨(new_inv now).ordered, fun _ h => absurd h (Nat.not_lt_zero _)⟩

theorem Sound.mono {clock' : UInt64} (h : Sound clock owed m) (hle : clock ≤ clock') :
    Sound clock' owed m := ⟨h.ordered, fun a ha => (h.started a ha).mono hle⟩

theorem started_modify {f : Timer → Timer} (h : ∀ a < m.count, (m.timer a).Started clock)
    (hf : (f (m.timer id)).Started clock) :
    ∀ a < (m.modify id f).count, ((m.modify id f).timer a).Started clock := by
  intro a ha
  by_cases he : a = id
  · subst he
    rwa [timer_modify_self]
  · rw [timer_modify_of_ne f he]
    exact h a ha

theorem Sound.modify (h : Sound clock (id :: owed) m) {f : Timer → Timer}
    (haddr : (f (m.timer id)).addr = (m.timer id).addr)
    (hf : (f (m.timer id)).Started clock) : Sound clock (id :: owed) (m.modify id f) :=
  ⟨h.ordered.modify haddr, started_modify h.started hf⟩

theorem Sound.insert (h : Sound clock (id :: owed) m) : Sound clock owed (m.insert id) :=
  ⟨h.ordered.insert, h.started⟩

theorem Sound.addTimerLocked (h : Sound clock (id :: owed) m) :
    Sound clock owed (m.addTimerLocked id).2 := by
  refine ⟨h.ordered.addTimerLocked, ?_⟩
  rw [timer_addTimerLocked, count_addTimerLocked]
  exact h.started

/-- `find` goes by the key. The timer looked for takes the place of the one found. -/
theorem Ordered.erase_found {it : TimerId} (h : Ordered [] m) (hlt : id < m.count)
    (hf : m.find id = some it) : Ordered [id] (m.erase it) := by
  obtain ⟨hit, hkey⟩ := find_some m.before_iff hf
  have he := h.erase hit
  apply he.drop.owe hlt
  intro a ha haddr
  have hsame : (m.timer it).addr = (m.timer id).addr := congrArg (fun k => (ofLex k).2) hkey
  obtain rfl : a = it := he.addr_inj a (List.mem_append_left _ ha) it
    (List.mem_append_right _ List.mem_cons_self) (haddr.trans hsame.symm)
  exact he.not_mem_timers ha

theorem Sound.erase_found {it : TimerId} (h : Sound clock [] m) (hlt : id < m.count)
    (hf : m.find id = some it) : Sound clock [id] (m.erase it) :=
  ⟨h.ordered.erase_found hlt hf, h.started⟩

/-- What `Cancel` does to the set. -/
theorem cancel_cases {r : Bool × TimerManager} (hr : m.cancel id = some r) :
    r.2 = m ∨ ∃ it ∈ m.timers, r.2 = (m.modify id fun t => { t with cb := none }).erase it := by
  unfold cancel at hr
  split_ifs at hr
  · dsimp only at hr
    split at hr
    · cases hr
    · next it hf =>
      obtain rfl := Option.some.inj hr
      exact Or.inr ⟨it, (find_some (before_iff _) hf).1, rfl⟩
  · obtain rfl := Option.some.inj hr
    exact Or.inl rfl

/-- What `Refresh` does. -/
theorem refresh_cases (m : TimerManager) (id : TimerId) (now : UInt64) :
    (m.refresh id now).2 = m ∨ ∃ it, m.find id = some it ∧ (m.refresh id now).2 =
      ((m.erase it).modify id fun t => { t with next := now + t.ms }).insert id := by
  unfold refresh
  split_ifs
  · exact Or.inl rfl
  · cases m.find id with
    | none => exact Or.inl rfl
    | some it => exact Or.inr ⟨it, rfl, rfl⟩

/-- What `reset` does. -/
theorem resetLocked_cases (m : TimerManager) (id : TimerId) (ms : UInt64) (fromNow : Bool)
    (now : UInt64) :
    (m.resetLocked id ms fromNow now).2 = (false, m) ∨ ∃ it, m.find id = some it ∧
      (m.resetLocked id ms fromNow now).2 = ((m.erase it).modify id fun t =>
        { t with
          ms := ms
          next := (if fromNow then now else (m.timer id).next - (m.timer id).ms) + ms
        }).addTimerLocked id := by
  unfold resetLocked
  by_cases hcb : (m.timer id).cb.isNone
  · exact Or.inl (by rw [if_pos hcb])
  · rw [if_neg hcb]
    cases m.find id with
    | none => exact Or.inl rfl
    | some it => exact Or.inr ⟨it, rfl, rfl⟩

theorem Sound.cancel (h : Sound clock [] m) {r : Bool × TimerManager}
    (hr : m.cancel id = some r) : Sound clock [] r.2 := by
  rcases cancel_cases hr with he | ⟨it, hit, he⟩ <;> rw [he]
  · exact h
  · have ho : Ordered [] (m.modify id fun t => { t with cb := none }) := by
      refine ⟨key_disarm.symm ▸ h.ordered.ascending, h.ordered.nodup, h.ordered.lt_count, ?_⟩
      intro a ha b hb hab
      rw [modify_keeps Timer.addr rfl, modify_keeps Timer.addr rfl] at hab
      exact h.ordered.addr_inj a ha b hb hab
    refine ⟨(ho.erase hit).drop, ?_⟩
    intro a ha
    rw [timer_erase]
    exact (h.started a ha).congr (modify_keeps Timer.ms rfl a) (modify_keeps Timer.next rfl a)

section Sections

variable (hclock : clock.toNat < 2 ^ 63)

include hclock

theorem Sound.addTimer (h : Sound clock [] m) {addr : ℕ} {ms : UInt64} {now : UInt64}
    (cb : Option Callback) (recurring : Bool) (hle : now ≤ clock) (hms : ms.toNat < 2 ^ 31)
    (haddr : ∀ a ∈ m.timers, (m.timer a).addr ≠ addr) :
    Sound clock [] (m.addTimer addr ms cb recurring now).2 := by
  have ht : (Timer.new addr ms cb recurring now).Started clock := .of_start hclock hle hms rfl
  apply Sound.addTimerLocked
  refine ⟨h.ordered.allocate (Timer.new addr ms cb recurring now) haddr, ?_⟩
  intro a ha
  by_cases he : a = m.count
  · subst he
    simpa using ht
  · have hlt : a < m.count := lt_of_le_of_ne (Nat.lt_succ_iff.mp ha) he
    simpa [he] using h.started a hlt

theorem Sound.refresh (h : Sound clock [] m) (hlt : id < m.count) :
    Sound clock [] (m.refresh id clock).2 := by
  rcases refresh_cases m id clock with he | ⟨it, hf, he⟩ <;> rw [he]
  · exact h
  · refine ((h.erase_found hlt hf).modify rfl ?_).insert
    exact .of_start hclock (UInt64.le_refl _) (h.started id hlt).ms_lt rfl

theorem Sound.resetLocked (h : Sound clock [] m) (hlt : id < m.count) {ms : UInt64}
    (fromNow : Bool) (hms : ms.toNat < 2 ^ 31) :
    Sound clock [] (m.resetLocked id ms fromNow clock).2.2 := by
  have ht := h.started id hlt
  rcases resetLocked_cases m id ms fromNow clock with he | ⟨it, hf, he⟩ <;> rw [he]
  · exact h
  · refine ((h.erase_found hlt hf).modify rfl (.of_start hclock ?_ hms rfl)).addTimerLocked
    -- a reading of the clock, or the one that the timer counted from
    cases fromNow with
    | true => exact UInt64.le_refl _
    | false =>
      have hle : (m.timer id).ms ≤ (m.timer id).next := UInt64.le_iff_toNat_le.mpr ht.ms_le
      have hnext := ht.next_le
      rw [UInt64.le_iff_toNat_le, if_neg Bool.false_ne_true, UInt64.toNat_sub_of_le _ _ hle]
      omega

theorem Sound.fire (h : Sound clock (id :: owed) m) {now : UInt64} (hle : now ≤ clock) :
    Sound clock owed (TimerManager.fire now m id) := by
  have hid : id ∈ m.timers ++ id :: owed := List.mem_append_right _ List.mem_cons_self
  have ht := h.started id (h.ordered.lt_count id hid)
  unfold TimerManager.fire
  split_ifs
  · exact (h.modify rfl (.of_start hclock hle ht.ms_lt rfl)).insert
  · have hm := h.modify (f := fun t => { t with cb := none }) rfl (ht.congr rfl rfl)
    exact ⟨hm.ordered.drop, hm.started⟩

theorem Sound.foldl_fire {expired : List TimerId} (h : Sound clock expired m) {now : UInt64}
    (hle : now ≤ clock) : Sound clock [] (expired.foldl (TimerManager.fire now) m) := by
  induction expired generalizing m with
  | nil => exact h
  | cons id expired ih => exact ih (h.fire hclock hle)

theorem Sound.listExpiredCb (h : Sound clock [] m) {now : UInt64} (probeAddr : ℕ)
    (hle : now ≤ clock) : Sound clock [] (m.listExpiredCb now probeAddr).2 := by
  obtain ⟨expired, left, p, hs, he⟩ := listExpiredCb_cases m now probeAddr
  have ho : Ordered [] { m with previousUseTime := p } :=
    ⟨h.ordered.ascending, h.ordered.nodup, h.ordered.lt_count, h.ordered.addr_inj⟩
  have hsplit : Sound clock expired { m with timers := left, previousUseTime := p } :=
    ⟨ho.split hs, h.started⟩
  rw [he]
  exact hsplit.foldl_fire hclock hle

end Sections

/-- What a section does to those who wait for a timer, given whether it calls
`OnTimerInsertedAtFront`: if it does not, `tickled_` stays as it is, and nothing is due earlier
unless it is set. -/
def Telling (told : Bool) (m m' : TimerManager) : Prop :=
  told = true ∨ m'.tickled = m.tickled ∧
    (m.tickled = false → ∀ time, NoneBefore time m → NoneBefore time m')

theorem telling_self (m : TimerManager) : Telling false m m := Or.inr ⟨rfl, fun _ _ h => h⟩

/-- What comes before in the section. -/
theorem Telling.of_left {told : Bool} {m₁ m' : TimerManager} (h : Telling told m₁ m')
    (htickled : m₁.tickled = m.tickled)
    (hnone : ∀ time, NoneBefore time m → NoneBefore time m₁) : Telling told m m' := by
  refine h.imp_right ?_
  rintro ⟨hsame, hlater⟩
  refine ⟨hsame.trans htickled, fun ht time hn => ?_⟩
  exact hlater (htickled.trans ht) time (hnone time hn)

theorem next_le_of_before {a b : TimerId} (h : m.before a b = true) :
    (m.timer a).next.toNat ≤ (m.timer b).next.toNat := by
  rcases Prod.Lex.toLex_lt_toLex.mp ((before_iff m a b).mp h) with hlt | ⟨he, -⟩
  · exact hlt.le
  · exact he.le

theorem addTimerLocked_telling (m : TimerManager) (id : TimerId) :
    Telling (m.addTimerLocked id).1 m (m.addTimerLocked id).2 := by
  unfold addTimerLocked
  dsimp only
  split_ifs with hfront
  · exact Or.inl hfront
  · refine Or.inr ⟨rfl, fun ht time hn x hx => ?_⟩
    rcases head_insert_or m.before id m.timers with hhead | ⟨y, hy, hyid⟩ | he
    · exact absurd (show _ = true by simpa [insert, ht] using hhead) hfront
    · rcases mem_of_mem_insert hx with rfl | hx
      · exact (hn y hy).trans (next_le_of_before hyid)
      · exact hn x hx
    · exact hn x (he ▸ hx)

theorem Ordered.addTimer_telling (h : Ordered [] m) (addr : ℕ) (ms : UInt64)
    (cb : Option Callback) (recurring : Bool) (now : UInt64) :
    Telling (m.addTimer addr ms cb recurring now).1 m (m.addTimer addr ms cb recurring now).2 := by
  refine (addTimerLocked_telling _ _).of_left rfl ?_
  intro time hn a ha
  have hne : a ≠ m.count := (h.lt_count a (List.mem_append_left _ ha)).ne
  simpa [hne] using hn a ha

theorem cancel_telling {r : Bool × TimerManager} (hr : m.cancel id = some r) :
    Telling false m r.2 := by
  rcases cancel_cases hr with he | ⟨it, hit, he⟩ <;> rw [he]
  · exact telling_self m
  · refine Or.inr ⟨rfl, fun _ time hn a ha => ?_⟩
    rw [timer_erase, modify_keeps Timer.next rfl]
    exact hn a (List.mem_of_mem_erase ha)

theorem Ordered.resetLocked_telling (h : Ordered [] m) (hlt : id < m.count) (ms : UInt64)
    (fromNow : Bool) (now : UInt64) :
    Telling (m.resetLocked id ms fromNow now).2.1 m (m.resetLocked id ms fromNow now).2.2 := by
  rcases resetLocked_cases m id ms fromNow now with he | ⟨it, hf, he⟩ <;> rw [he]
  · exact telling_self m
  · refine (addTimerLocked_telling _ _).of_left rfl ?_
    intro time hn a ha
    have hne : a ≠ id := by
      rintro rfl
      exact (h.erase_found hlt hf).not_mem_timers ha
    rw [timer_modify_of_ne _ hne]
    exact hn a (List.mem_of_mem_erase ha)

theorem Sound.refresh_telling (h : Sound clock [] m) (hclock : clock.toNat < 2 ^ 63)
    (hlt : id < m.count) : Telling false m (m.refresh id clock).2 := by
  rcases refresh_cases m id clock with he | ⟨it, hf, he⟩ <;> rw [he]
  · exact telling_self m
  · obtain ⟨hit, hkey⟩ := find_some m.before_iff hf
    have ht := h.started id hlt
    refine Or.inr ⟨rfl, fun _ time hn a ha => ?_⟩
    rw [timer_insert]
    rcases mem_of_mem_insert ha with rfl | ha
    · have hnext : (m.timer it).next.toNat = (m.timer a).next.toNat :=
        congrArg (fun k => (ofLex k).1) hkey
      have hsum := toNat_add_of_lt hclock (UInt64.le_refl clock) ht.ms_lt
      have hle := ht.next_le
      have hold := hn it hit
      rw [timer_modify_self, timer_erase]
      change time ≤ (clock + (m.timer a).ms).toNat
      omega
    · have hne : a ≠ id := by
        rintro rfl
        exact (h.ordered.erase_found hlt hf).not_mem_timers ha
      rw [timer_modify_of_ne _ hne]
      exact hn a (List.mem_of_mem_erase ha)

/-- The first timer is due first. -/
theorem Ordered.noneBefore_first {first : TimerId} {rest : List TimerId} (h : Ordered [] m)
    (hs : m.timers = first :: rest) : NoneBefore (m.timer first).next.toNat m := by
  have hasc := h.ascending
  rw [hs] at hasc
  intro a ha
  rw [hs] at ha
  rcases List.mem_cons.mp ha with rfl | ha
  · exact le_rfl
  · exact next_le_of_before ((before_iff m _ _).mpr ((List.pairwise_cons.mp hasc).1 a ha))

/-- What `GetNextTimer` answers: there is no timer, or one is due, or none is due before the time
answered, which is below `2^31`. -/
theorem Sound.getNextTimer_cases (h : Sound clock [] m) :
    (m.timers = [] ∧ (m.getNextTimer clock).1 = ~~~(0 : UInt64)) ∨
      (m.getNextTimer clock).1 = 0 ∨
      (m.getNextTimer clock).1.toNat < 2 ^ 31 ∧
        NoneBefore (clock.toNat + (m.getNextTimer clock).1.toNat) m := by
  cases hs : m.timers with
  | nil => exact Or.inl ⟨rfl, by simp [getNextTimer, hs]⟩
  | cons first rest =>
    right
    by_cases hdue : clock ≥ (m.timer first).next
    · left
      simp [getNextTimer, hs, hdue]
    · right
      have hlt := h.ordered.lt_count first (by simp [hs])
      have ht := h.started first hlt
      have hnext := ht.next_le
      have hms := ht.ms_lt
      have hle : clock ≤ (m.timer first).next := UInt64.le_of_lt (UInt64.not_le.mp hdue)
      have hanswer : (m.getNextTimer clock).1.toNat =
          (m.timer first).next.toNat - clock.toNat := by
        simp only [getNextTimer, hs, if_neg hdue]
        exact UInt64.toNat_sub_of_le _ _ hle
      have hle' := UInt64.le_iff_toNat_le.mp hle
      rw [hanswer]
      refine ⟨by omega, ?_⟩
      rw [Nat.add_sub_cancel' hle']
      exact h.ordered.noneBefore_first hs

end TimerManager

end ServerFramework
