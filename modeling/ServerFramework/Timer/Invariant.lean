import Mathlib.Data.List.Nodup
import Mathlib.Data.Prod.Lex
import ServerFramework.Timer.Basic

/-! # The invariant of the timer set

`Inv owed m` says that `timers_` is strictly ordered by deadline and address and that the
timers with a callback are those in `timers_` and those in `owed`, which an operation has
taken out and still has to put back or to disarm. Between locked sections nothing is owed.
`Ordered` leaves the callbacks out; it also holds of sets with empty functions.
-/

namespace ServerFramework.TimerManager

open OrderedSet

/-- The key of a timer in `timers_`. -/
def key (m : TimerManager) (id : TimerId) : ℕ ×ₗ ℕ :=
  toLex ((m.timer id).next.toNat, (m.timer id).addr)

theorem before_iff (m : TimerManager) (a b : TimerId) :
    m.before a b = true ↔ m.key a < m.key b := by
  simp only [before, Timer.comparator, key, Prod.Lex.toLex_lt_toLex, UInt64.lt_iff_toNat_lt]
  split_ifs with hab hba
  · simp [hab]
  · simp only [false_iff]
    omega
  · have he : (m.timer a).next.toNat = (m.timer b).next.toNat := by omega
    simp [he]

structure Inv (owed : List TimerId) (m : TimerManager) : Prop where
  ascending : Ascending m.key m.timers
  nodup : (m.timers ++ owed).Nodup
  lt_count : ∀ id ∈ m.timers ++ owed, id < m.count
  addr_inj : ∀ a ∈ m.timers ++ owed, ∀ b ∈ m.timers ++ owed,
    (m.timer a).addr = (m.timer b).addr → a = b
  mem_iff : ∀ id < m.count, id ∈ m.timers ++ owed ↔ (m.timer id).cb.isSome

variable {m : TimerManager} {id : TimerId} {owed : List TimerId}

theorem timer_modify_of_ne (f : Timer → Timer) {a : TimerId} (h : a ≠ id) :
    (m.modify id f).timer a = m.timer a := Function.update_of_ne h _ _

@[simp] theorem timer_modify_self (f : Timer → Timer) :
    (m.modify id f).timer id = f (m.timer id) := Function.update_self ..

/-- What a change of one timer keeps of it is kept of all timers. -/
theorem modify_keeps {β : Type*} (g : Timer → β) {f : Timer → Timer}
    (hf : g (f (m.timer id)) = g (m.timer id)) (a : TimerId) :
    g ((m.modify id f).timer a) = g (m.timer a) := by
  by_cases h : a = id
  · subst h
    rw [timer_modify_self, hf]
  · rw [timer_modify_of_ne f h]

@[simp] theorem timer_insert : (m.insert id).timer = m.timer := rfl

@[simp] theorem timer_erase : (m.erase id).timer = m.timer := rfl

theorem key_modify_of_ne (f : Timer → Timer) {a : TimerId} (h : a ≠ id) :
    (m.modify id f).key a = m.key a := by
  rw [key, key, timer_modify_of_ne f h]

/-- The comparator does not look at the callback. -/
theorem key_disarm : (m.modify id fun t => { t with cb := none }).key = m.key := by
  funext a
  by_cases he : a = id
  · subst he
    simp [key]
  · exact key_modify_of_ne _ he

theorem new_inv (now : UInt64) : Inv [] (new now) where
  ascending := List.Pairwise.nil
  nodup := List.nodup_nil
  lt_count := by simp [new]
  addr_inj := by simp [new]
  mem_iff := by simp [new]

/-- `timers_` is strictly ordered, and no two of the timers in it and of those taken out are at
one address. -/
structure Ordered (owed : List TimerId) (m : TimerManager) : Prop where
  ascending : Ascending m.key m.timers
  nodup : (m.timers ++ owed).Nodup
  lt_count : ∀ id ∈ m.timers ++ owed, id < m.count
  addr_inj : ∀ a ∈ m.timers ++ owed, ∀ b ∈ m.timers ++ owed,
    (m.timer a).addr = (m.timer b).addr → a = b

theorem Inv.ordered (h : Inv owed m) : Ordered owed m :=
  ⟨h.ascending, h.nodup, h.lt_count, h.addr_inj⟩

theorem Ordered.inv (h : Ordered owed m)
    (hm : ∀ id < m.count, id ∈ m.timers ++ owed ↔ (m.timer id).cb.isSome) : Inv owed m :=
  ⟨h.ascending, h.nodup, h.lt_count, h.addr_inj, hm⟩

theorem Ordered.not_mem_timers (h : Ordered (id :: owed) m) : id ∉ m.timers := fun hm =>
  (List.nodup_append.mp h.nodup).2.2 id hm id List.mem_cons_self rfl

theorem Ordered.find_eq (h : Ordered owed m) (hm : id ∈ m.timers) : m.find id = some id :=
  find_of_mem m.before_iff h.ascending hm

section Perm

variable {owed' back : List TimerId} (hasc : Ascending m.key back)
  (hperm : (back ++ owed').Perm (m.timers ++ owed))

include hasc hperm

/-- Timers may be taken out of the set and put back in order. -/
theorem Ordered.perm (h : Ordered owed m) : Ordered owed' { m with timers := back } where
  ascending := hasc
  nodup := hperm.nodup_iff.mpr h.nodup
  lt_count := fun a ha => h.lt_count a (hperm.mem_iff.mp ha)
  addr_inj := fun a ha b hb => h.addr_inj a (hperm.mem_iff.mp ha) b (hperm.mem_iff.mp hb)

theorem Inv.perm (h : Inv owed m) : Inv owed' { m with timers := back } :=
  (h.ordered.perm hasc hperm).inv fun a ha => hperm.mem_iff.trans (h.mem_iff a ha)

end Perm

theorem split_perm {front back : List TimerId} (hs : m.timers = front ++ back) :
    (back ++ front).Perm (m.timers ++ []) := by
  rw [hs, List.append_nil]
  exact List.perm_append_comm

theorem Ordered.split_ascending {front back : List TimerId} (h : Ordered [] m)
    (hs : m.timers = front ++ back) : Ascending m.key back :=
  h.ascending.sublist (hs ▸ List.sublist_append_right front back)

/-- Taking timers out of the front of the set leaves them owed. -/
theorem Ordered.split {front back : List TimerId} (h : Ordered [] m)
    (hs : m.timers = front ++ back) : Ordered front { m with timers := back } :=
  h.perm (h.split_ascending hs) (split_perm hs)

theorem Inv.split {front back : List TimerId} (h : Inv [] m) (hs : m.timers = front ++ back) :
    Inv front { m with timers := back } :=
  h.perm (h.ordered.split_ascending hs) (split_perm hs)

theorem erase_perm (hm : id ∈ m.timers) :
    (m.timers.erase id ++ [id]).Perm (m.timers ++ []) := by
  rw [List.append_nil]
  exact (List.perm_append_singleton _ _).trans (List.perm_cons_erase hm).symm

/-- Erasing a timer leaves it owed. -/
theorem Ordered.erase (h : Ordered [] m) (hm : id ∈ m.timers) : Ordered [id] (m.erase id) :=
  h.perm (h.ascending.sublist List.erase_sublist) (erase_perm hm)

theorem Inv.erase (h : Inv [] m) (hm : id ∈ m.timers) : Inv [id] (m.erase id) :=
  h.perm (h.ascending.sublist List.erase_sublist) (erase_perm hm)

/-- An owed timer may change its deadline. -/
theorem Ordered.modify (h : Ordered (id :: owed) m) {f : Timer → Timer}
    (haddr : (f (m.timer id)).addr = (m.timer id).addr) :
    Ordered (id :: owed) (m.modify id f) := by
  refine ⟨?_, h.nodup, h.lt_count, ?_⟩
  · apply h.ascending.congr
    intro a ha
    exact key_modify_of_ne f fun he => h.not_mem_timers (he ▸ ha)
  · intro a ha b hb hab
    rw [modify_keeps Timer.addr haddr, modify_keeps Timer.addr haddr] at hab
    exact h.addr_inj a ha b hb hab

theorem Inv.modify (h : Inv (id :: owed) m) {f : Timer → Timer}
    (haddr : (f (m.timer id)).addr = (m.timer id).addr)
    (hcb : (f (m.timer id)).cb = (m.timer id).cb) : Inv (id :: owed) (m.modify id f) := by
  apply (h.ordered.modify haddr).inv
  intro a ha
  rw [modify_keeps Timer.cb hcb]
  exact h.mem_iff a ha

theorem Ordered.key_ne (h : Ordered (id :: owed) m) : ∀ y ∈ m.timers, m.key y ≠ m.key id := by
  intro y hy he
  have haddr : (m.timer y).addr = (m.timer id).addr := congrArg (fun k => (ofLex k).2) he
  have hid : id ∈ m.timers ++ id :: owed := List.mem_append_right _ List.mem_cons_self
  have hyid := h.addr_inj y (List.mem_append_left _ hy) id hid haddr
  exact h.not_mem_timers (hyid ▸ hy)

theorem Ordered.insert_perm (h : Ordered (id :: owed) m) :
    (OrderedSet.insert m.before id m.timers ++ owed).Perm (m.timers ++ id :: owed) :=
  ((OrderedSet.insert_perm m.before_iff h.key_ne).append_right owed).trans List.perm_middle.symm

/-- An owed timer may be put back. -/
theorem Ordered.insert (h : Ordered (id :: owed) m) : Ordered owed (m.insert id) :=
  h.perm (insert_ascending m.before_iff h.ascending) h.insert_perm

theorem Inv.insert (h : Inv (id :: owed) m) : Inv owed (m.insert id) :=
  h.perm (insert_ascending m.before_iff h.ascending) h.ordered.insert_perm

/-- An owed timer may be given up. -/
theorem Ordered.drop (h : Ordered (id :: owed) m) : Ordered owed m := by
  have hsub : ∀ a ∈ m.timers ++ owed, a ∈ m.timers ++ id :: owed := by
    intro a ha
    rcases List.mem_append.mp ha with ha | ha
    · exact List.mem_append_left _ ha
    · exact List.mem_append_right _ (List.mem_cons_of_mem _ ha)
  refine ⟨h.ascending, ?_, fun a ha => h.lt_count a (hsub a ha),
    fun a ha b hb => h.addr_inj a (hsub a ha) b (hsub b hb)⟩
  exact (List.nodup_cons.mp (List.perm_middle.nodup_iff.mp h.nodup)).2

/-- An owed timer may lose its callback instead. -/
theorem Inv.disarm (h : Inv (id :: owed) m) :
    Inv owed (m.modify id fun t => { t with cb := none }) := by
  have hnot : id ∉ m.timers ++ owed :=
    (List.nodup_cons.mp (List.perm_middle.nodup_iff.mp h.nodup)).1
  have hd : Ordered owed (m.modify id fun t => { t with cb := none }) :=
    (h.ordered.modify rfl).drop
  apply hd.inv
  intro a ha
  change a ∈ m.timers ++ owed ↔ _
  by_cases he : a = id
  · subst he
    simp [hnot]
  · rw [timer_modify_of_ne _ he, ← h.mem_iff a ha]
    simp [he]

@[simp] theorem timer_addTimerLocked (m : TimerManager) (id : TimerId) :
    (m.addTimerLocked id).2.timer = m.timer := by
  unfold TimerManager.addTimerLocked
  dsimp only
  split_ifs <;> rfl

@[simp] theorem timers_addTimerLocked (m : TimerManager) (id : TimerId) :
    (m.addTimerLocked id).2.timers = (m.insert id).timers := by
  unfold TimerManager.addTimerLocked
  dsimp only
  split_ifs <;> rfl

@[simp] theorem count_addTimerLocked (m : TimerManager) (id : TimerId) :
    (m.addTimerLocked id).2.count = m.count := by
  unfold TimerManager.addTimerLocked
  dsimp only
  split_ifs <;> rfl

theorem Ordered.addTimerLocked (h : Ordered (id :: owed) m) :
    Ordered owed (m.addTimerLocked id).2 := by
  have hi := h.insert
  unfold TimerManager.addTimerLocked
  dsimp only
  split_ifs
  · exact ⟨hi.ascending, hi.nodup, hi.lt_count, hi.addr_inj⟩
  · exact hi

theorem Inv.addTimerLocked (h : Inv (id :: owed) m) : Inv owed (m.addTimerLocked id).2 := by
  have hi := h.insert
  apply h.ordered.addTimerLocked.inv
  rw [timer_addTimerLocked, timers_addTimerLocked, count_addTimerLocked]
  exact hi.mem_iff

/-- A timer at an address of its own may be owed. -/
theorem Ordered.owe (h : Ordered [] m) (hlt : id < m.count)
    (haddr : ∀ a ∈ m.timers, (m.timer a).addr ≠ (m.timer id).addr) : Ordered [id] m := by
  refine ⟨h.ascending, ?_, ?_, ?_⟩
  · have hn : m.timers.Nodup := by simpa using h.nodup
    refine List.nodup_append.mpr ⟨hn, List.nodup_singleton _, ?_⟩
    rintro a ha b hb rfl
    exact haddr a ha (List.mem_singleton.mp hb ▸ rfl)
  · intro a ha
    rcases List.mem_append.mp ha with ha | ha
    · exact h.lt_count a (List.mem_append_left _ ha)
    · rwa [List.mem_singleton.mp ha]
  · intro a ha b hb hab
    rcases List.mem_append.mp ha with ha | ha <;> rcases List.mem_append.mp hb with hb | hb
    · exact h.addr_inj a (List.mem_append_left _ ha) b (List.mem_append_left _ hb) hab
    · exact absurd (List.mem_singleton.mp hb ▸ hab) (haddr a ha)
    · exact absurd (List.mem_singleton.mp ha ▸ hab.symm) (haddr b hb)
    · rw [List.mem_singleton.mp ha, List.mem_singleton.mp hb]

/-- A new timer at an address that the set does not keep alive is owed. -/
theorem Ordered.allocate (h : Ordered [] m) (t : Timer)
    (haddr : ∀ a ∈ m.timers, (m.timer a).addr ≠ t.addr) :
    Ordered [m.count] { m with
      timer := Function.update m.timer m.count t
      count := m.count + 1 } := by
  have hold : ∀ a ∈ m.timers ++ [], Function.update m.timer m.count t a = m.timer a :=
    fun a ha => Function.update_of_ne (h.lt_count a ha).ne _ _
  have hsame : Ordered [] { m with
      timer := Function.update m.timer m.count t
      count := m.count + 1 } := by
    refine ⟨?_, h.nodup, fun a ha => Nat.lt_succ_of_lt (h.lt_count a ha), ?_⟩
    · apply h.ascending.congr
      intro a ha
      simp only [key, hold a (List.mem_append_left _ ha)]
    · intro a ha b hb hab
      simp only [hold a ha, hold b hb] at hab
      exact h.addr_inj a ha b hb hab
  apply hsame.owe (Nat.lt_succ_self _)
  intro a ha
  simp only [hold a (List.mem_append_left _ ha), Function.update_self]
  exact haddr a ha

theorem Inv.addTimer (h : Inv [] m) (addr : ℕ) (ms : UInt64) (cb : Callback) (recurring : Bool)
    (now : UInt64) (haddr : ∀ t ∈ m.timers, (m.timer t).addr ≠ addr) :
    Inv [] (m.addTimer addr ms (some cb) recurring now).2 := by
  have ho := h.ordered.allocate (Timer.new addr ms (some cb) recurring now) haddr
  apply Inv.addTimerLocked
  apply ho.inv
  intro a ha
  by_cases he : a = m.count
  · subst he
    simp [Timer.new]
  · have hlt : a < m.count := lt_of_le_of_ne (Nat.lt_succ_iff.mp ha) he
    have hm := h.mem_iff a hlt
    simp only [List.append_nil] at hm
    simp [hm, he]

/-- A timer with a callback is in the set, so that `find` never yields the end. -/
theorem Inv.mem_of_cb (h : Inv [] m) (hlt : id < m.count) (hcb : (m.timer id).cb.isSome) :
    id ∈ m.timers := by
  simpa using (h.mem_iff id hlt).mpr hcb

section Found

variable (h : Ordered [] m) (hm : id ∈ m.timers) (hcb : (m.timer id).cb.isSome)

include h hm hcb

theorem Ordered.cancel_eq :
    m.cancel id = some (true, (m.erase id).modify id fun t => { t with cb := none }) := by
  have hfind : (m.modify id fun t => { t with cb := none }).find id = some id :=
    find_of_mem (before_iff _) (key_disarm.symm ▸ h.ascending) hm
  rw [TimerManager.cancel, if_pos hcb]
  dsimp only
  rw [hfind]
  rfl

theorem Ordered.refresh_eq (now : UInt64) : m.refresh id now =
    (true, ((m.erase id).modify id fun t => { t with next := now + t.ms }).insert id) := by
  have hcb' : ¬ (m.timer id).cb.isNone := by simpa [Option.isSome_iff_ne_none] using hcb
  rw [TimerManager.refresh, if_neg hcb', h.find_eq hm]

theorem Ordered.resetLocked_eq (ms : UInt64) (fromNow : Bool) (now : UInt64) :
    (m.resetLocked id ms fromNow now).1 = true ∧
      (m.resetLocked id ms fromNow now).2.2 = (((m.erase id).modify id fun t =>
        { t with
          ms := ms
          next := (if fromNow then now else (m.timer id).next - (m.timer id).ms) + ms
        }).addTimerLocked id).2 := by
  have hcb' : ¬ (m.timer id).cb.isNone := by simpa [Option.isSome_iff_ne_none] using hcb
  rw [TimerManager.resetLocked, if_neg hcb', h.find_eq hm]
  exact ⟨rfl, rfl⟩

end Found

theorem Inv.cancel_eq (h : Inv [] m) (hlt : id < m.count) (hcb : (m.timer id).cb.isSome) :
    m.cancel id = some (true, (m.erase id).modify id fun t => { t with cb := none }) :=
  h.ordered.cancel_eq (h.mem_of_cb hlt hcb) hcb

theorem cancel_of_none (hcb : (m.timer id).cb = none) : m.cancel id = some (false, m) := by
  simp [TimerManager.cancel, hcb]

theorem refresh_of_none (hcb : (m.timer id).cb = none) (now : UInt64) :
    m.refresh id now = (false, m) := by
  simp [TimerManager.refresh, hcb]

theorem resetLocked_of_none (hcb : (m.timer id).cb = none) (ms : UInt64) (fromNow : Bool)
    (now : UInt64) : m.resetLocked id ms fromNow now = (false, false, m) := by
  simp [TimerManager.resetLocked, hcb]

theorem Inv.refresh_eq (h : Inv [] m) (hlt : id < m.count) (hcb : (m.timer id).cb.isSome)
    (now : UInt64) : m.refresh id now =
      (true, ((m.erase id).modify id fun t => { t with next := now + t.ms }).insert id) :=
  h.ordered.refresh_eq (h.mem_of_cb hlt hcb) hcb now

theorem Inv.resetLocked_eq (h : Inv [] m) (hlt : id < m.count) (hcb : (m.timer id).cb.isSome)
    (ms : UInt64) (fromNow : Bool) (now : UInt64) : ∃ next : UInt64,
      (m.resetLocked id ms fromNow now).2.2 =
        (((m.erase id).modify id fun t =>
          { t with ms := ms, next := next }).addTimerLocked id).2 :=
  ⟨_, (h.ordered.resetLocked_eq (h.mem_of_cb hlt hcb) hcb ms fromNow now).2⟩

theorem Inv.cancel (h : Inv [] m) (hlt : id < m.count) :
    ∃ b m', m.cancel id = some (b, m') ∧ Inv [] m' := by
  cases hcb : (m.timer id).cb with
  | none => exact ⟨false, m, cancel_of_none hcb, h⟩
  | some cb =>
    have hsome : (m.timer id).cb.isSome := by simp [hcb]
    exact ⟨true, _, h.cancel_eq hlt hsome, (h.erase (h.mem_of_cb hlt hsome)).disarm⟩

theorem Inv.refresh (h : Inv [] m) (hlt : id < m.count) (now : UInt64) :
    Inv [] (m.refresh id now).2 := by
  cases hcb : (m.timer id).cb with
  | none => rwa [refresh_of_none hcb]
  | some cb =>
    have hsome : (m.timer id).cb.isSome := by simp [hcb]
    rw [h.refresh_eq hlt hsome]
    exact ((h.erase (h.mem_of_cb hlt hsome)).modify rfl rfl).insert

theorem Inv.resetLocked (h : Inv [] m) (hlt : id < m.count) (ms : UInt64) (fromNow : Bool)
    (now : UInt64) : Inv [] (m.resetLocked id ms fromNow now).2.2 := by
  cases hcb : (m.timer id).cb with
  | none => rwa [resetLocked_of_none hcb]
  | some cb =>
    have hsome : (m.timer id).cb.isSome := by simp [hcb]
    obtain ⟨next, he⟩ := h.resetLocked_eq hlt hsome ms fromNow now
    rw [he]
    exact ((h.erase (h.mem_of_cb hlt hsome)).modify rfl rfl).addTimerLocked

theorem Inv.getNextTimer (h : Inv [] m) (now : UInt64) : Inv [] (m.getNextTimer now).2 :=
  ⟨h.ascending, h.nodup, h.lt_count, h.addr_inj, h.mem_iff⟩

theorem splitExpired_append (m : TimerManager) (rollover : Bool) (now : UInt64) (probeAddr : ℕ) :
    (m.splitExpired rollover now probeAddr).1 ++ (m.splitExpired rollover now probeAddr).2 =
      m.timers := by
  cases rollover <;> simp [splitExpired, List.takeWhile_append_dropWhile]

theorem Inv.fire (h : Inv (id :: owed) m) (now : UInt64) :
    Inv owed (TimerManager.fire now m id) := by
  unfold TimerManager.fire
  split_ifs
  · exact (h.modify rfl rfl).insert
  · exact h.disarm

theorem Inv.foldl_fire {expired : List TimerId} (h : Inv expired m) (now : UInt64) :
    Inv [] (expired.foldl (TimerManager.fire now) m) := by
  induction expired generalizing m with
  | nil => exact h
  | cons id expired ih => exact ih (h.fire now)

/-- What `ListExpiredCb` does: it fires a front part of the set, in order. -/
theorem listExpiredCb_cases (m : TimerManager) (now : UInt64) (probeAddr : ℕ) :
    ∃ expired left p, m.timers = expired ++ left ∧
      m.listExpiredCb now probeAddr =
        (expired.map fun id => (id, (m.timer id).cb),
          expired.foldl (fire now) { m with timers := left, previousUseTime := p }) := by
  unfold listExpiredCb
  split
  · exact ⟨[], m.timers, m.previousUseTime, rfl, rfl⟩
  · dsimp only
    split_ifs
    · exact ⟨[], m.timers, now, rfl, rfl⟩
    · exact ⟨_, _, now,
        (splitExpired_append (m.detectClockRollover now).2 _ now probeAddr).symm, rfl⟩

theorem Inv.listExpiredCb (h : Inv [] m) (now : UInt64) (probeAddr : ℕ) :
    Inv [] (m.listExpiredCb now probeAddr).2 := by
  obtain ⟨expired, left, p, hs, he⟩ := listExpiredCb_cases m now probeAddr
  have hp : Inv [] { m with previousUseTime := p } :=
    ⟨h.ascending, h.nodup, h.lt_count, h.addr_inj, h.mem_iff⟩
  rw [he]
  exact (hp.split hs).foldl_fire now

/-- Only `AddTimer` puts a timer into an empty set. -/
theorem timers_cancel_nil (hm : m.timers = []) {r : Bool × TimerManager}
    (hr : m.cancel id = some r) : r.2.timers = [] := by
  unfold cancel at hr
  split_ifs at hr
  · simp [find, modify, hm, OrderedSet.find] at hr
  · obtain rfl := Option.some.inj hr
    exact hm

theorem timers_refresh_nil (hm : m.timers = []) (now : UInt64) :
    (m.refresh id now).2.timers = [] := by
  unfold refresh
  split_ifs <;> simp [find, hm, OrderedSet.find]

theorem timers_reset_nil (hm : m.timers = []) (ms : UInt64) (fromNow : Bool) (now : UInt64) :
    (m.reset id ms fromNow now).2.2.timers = [] := by
  unfold reset resetLocked
  split_ifs <;> simp [find, hm, OrderedSet.find]

end ServerFramework.TimerManager
