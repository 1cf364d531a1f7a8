import ServerFramework.Timer.Clock
import ServerFramework.Timer.Deadlines

/-! # What expires

Without a rollover `ListExpiredCb` takes exactly the timers that are due, whatever the addresses
of the timers and of its probe are: the probe cuts the timers due exactly now anywhere, and the
loop behind it moves the cut over them.
-/

namespace ServerFramework.TimerManager

open OrderedSet

variable {m : TimerManager} {id : TimerId} {owed : List TimerId}

/-- What one call of `ListExpiredCb` at the given reading appends and leaves. -/
structure Expiry (m : TimerManager) (now : UInt64) (cbs : List (TimerId × Option Callback))
    (m' : TimerManager) : Prop where
  mem_iff : ∀ c, c ∈ cbs ↔
    c.1 ∈ m.timers ∧ (m.timer c.1).next ≤ now ∧ c.2 = (m.timer c.1).cb
  once : (cbs.map Prod.fst).Nodup
  inOrder : cbs.Pairwise fun c d => (m.timer c.1).next ≤ (m.timer d.1).next
  timers : ∀ id, id ∈ m'.timers ↔
    id ∈ m.timers ∧ (now < (m.timer id).next ∨ (m.timer id).recurring = true)
  unchanged : ∀ id, (id ∈ m.timers → now < (m.timer id).next) → m'.timer id = m.timer id
  recurring : ∀ id ∈ m.timers, (m.timer id).next ≤ now → (m.timer id).recurring = true →
    m'.timer id = { m.timer id with next := now + (m.timer id).ms }
  oneShot : ∀ id ∈ m.timers, (m.timer id).next ≤ now → (m.timer id).recurring = false →
    m'.timer id = { m.timer id with cb := none }
  /-- `timers_` is in order again. -/
  ordered : Ordered [] m'

/-- The timers in front of `lower_bound` of the probe. -/
theorem less_probe_iff {t : Timer} {now : UInt64} {probeAddr : ℕ} :
    Timer.comparator (some t) (some (Timer.probe probeAddr now)) = true ↔
      t.next < now ∨ t.next = now ∧ t.addr < probeAddr := by
  change (if t.next < now then true else if now < t.next then false
    else decide (t.addr < probeAddr)) = true ↔ _
  rw [← UInt64.toNat_inj]
  simp only [UInt64.lt_iff_toNat_lt]
  split_ifs with hlt hgt
  · exact iff_of_true rfl (Or.inl hlt)
  · simp only [false_iff]
    omega
  · rw [decide_eq_true_iff]
    omega

theorem Ordered.pairwise_next (h : Ordered owed m) :
    m.timers.Pairwise fun a b => (m.timer a).next.toNat ≤ (m.timer b).next.toNat := by
  refine h.ascending.imp ?_
  intro a b hab
  exact next_le_of_before ((before_iff m a b).mpr hab)

/-- `lower_bound` of the probe passes all timers that were due before. -/
theorem Ordered.le_next_of_mem_dropWhile (h : Ordered owed m) (now : UInt64) (probeAddr : ℕ) :
    ∀ a ∈ m.timers.dropWhile
        (fun id => Timer.comparator (some (m.timer id)) (some (Timer.probe probeAddr now))),
      now.toNat ≤ (m.timer a).next.toNat := by
  set less := fun id => Timer.comparator (some (m.timer id)) (some (Timer.probe probeAddr now))
  have hless : m.timers.Pairwise fun a b => less b = true → less a = true := by
    refine h.ascending.imp ?_
    intro a b hab hb
    simp only [less, less_probe_iff, UInt64.lt_iff_toNat_lt, ← UInt64.toNat_inj] at hb ⊢
    rcases Prod.Lex.toLex_lt_toLex.mp hab with hlt | ⟨he, hlt⟩
    · change (m.timer a).next.toNat < (m.timer b).next.toNat at hlt
      omega
    · change (m.timer a).next.toNat = (m.timer b).next.toNat at he
      change (m.timer a).addr < (m.timer b).addr at hlt
      omega
  intro a ha
  have hn := not_of_mem_dropWhile hless a ha
  simp only [less, less_probe_iff, UInt64.lt_iff_toNat_lt] at hn
  omega

/-- What lies behind the cut is due later. -/
theorem Ordered.splitExpired_late (h : Ordered owed m) (now : UInt64) (probeAddr : ℕ) :
    ∀ id ∈ (m.splitExpired false now probeAddr).2, now < (m.timer id).next := by
  have hnot := h.le_next_of_mem_dropWhile now probeAddr
  simp only [splitExpired, Bool.false_eq_true, if_false]
  set less := fun id => Timer.comparator (some (m.timer id)) (some (Timer.probe probeAddr now))
  set due := fun id => decide ((m.timer id).next = now)
  have hsub : (m.timers.dropWhile less).Pairwise fun a b =>
      (m.timer a).next.toNat ≤ (m.timer b).next.toNat :=
    h.pairwise_next.sublist (List.dropWhile_sublist less)
  have hdue : (m.timers.dropWhile less).Pairwise fun a b => due b = true → due a = true := by
    refine hsub.imp_of_mem ?_
    intro a b ha _ hab hb
    have := hnot a ha
    simp only [due, decide_eq_true_eq, ← UInt64.toNat_inj] at hb ⊢
    omega
  intro a ha
  have hle := hnot a ((List.dropWhile_sublist due).subset ha)
  have hne := not_of_mem_dropWhile hdue a ha
  simp only [due, decide_eq_true_eq, ← UInt64.toNat_inj] at hne
  rw [UInt64.lt_iff_toNat_lt]
  omega

/-- What the loop over the expired timers makes of one of them. -/
def fired (now : UInt64) (t : Timer) : Timer :=
  if t.recurring then { t with next := now + t.ms } else { t with cb := none }

theorem Ordered.mem_insert (h : Ordered (id :: owed) m) {a : TimerId} :
    a ∈ (m.insert id).timers ↔ a = id ∨ a ∈ m.timers :=
  (OrderedSet.insert_perm m.before_iff h.key_ne).mem_iff.trans List.mem_cons

theorem timer_fire (now : UInt64) (m : TimerManager) (id : TimerId) :
    (fire now m id).timer = (m.modify id (fired now)).timer := by
  funext a
  by_cases he : a = id
  · subst he
    unfold fire fired
    split_ifs with hrec <;> simp [hrec]
  · unfold fire
    split_ifs <;> simp [timer_modify_of_ne _ he]

theorem count_fire (now : UInt64) (m : TimerManager) (id : TimerId) :
    (fire now m id).count = m.count := by
  unfold fire
  split_ifs <;> rfl

theorem count_foldl_fire (now : UInt64) (m : TimerManager) (expired : List TimerId) :
    (expired.foldl (fire now) m).count = m.count := by
  induction expired generalizing m with
  | nil => rfl
  | cons id expired ih => rw [List.foldl_cons, ih, count_fire]

theorem Ordered.fire (h : Ordered (id :: owed) m) (now : UInt64) :
    Ordered owed (fire now m id) := by
  unfold TimerManager.fire
  split_ifs
  · exact (h.modify rfl).insert
  · exact (h.modify rfl).drop

theorem Ordered.mem_fire (h : Ordered (id :: owed) m) (now : UInt64) (a : TimerId) :
    a ∈ (TimerManager.fire now m id).timers ↔
      a ∈ m.timers ∨ a = id ∧ (m.timer id).recurring = true := by
  unfold TimerManager.fire
  split_ifs with hrec
  · have hm : Ordered (id :: owed) (m.modify id fun t => { t with next := now + t.ms }) :=
      h.modify rfl
    rw [hm.mem_insert, and_iff_left hrec, or_comm]
    rfl
  · simp only [hrec, Bool.false_eq_true, and_false, or_false]
    rfl

/-- The loop over the expired timers. -/
theorem Ordered.foldl_fire {expired : List TimerId} (h : Ordered expired m) (now : UInt64) :
    Ordered [] (expired.foldl (TimerManager.fire now) m) ∧
      (∀ a, a ∈ (expired.foldl (TimerManager.fire now) m).timers ↔
        a ∈ m.timers ∨ a ∈ expired ∧ (m.timer a).recurring = true) ∧
      ∀ a, (expired.foldl (TimerManager.fire now) m).timer a =
        if a ∈ expired then fired now (m.timer a) else m.timer a := by
  induction expired generalizing m with
  | nil => exact ⟨h, by simp, by simp⟩
  | cons id expired ih =>
    have hnot : id ∉ expired :=
      (List.nodup_cons.mp ((List.nodup_append.mp h.nodup).2.1)).1
    obtain ⟨ho, hmem, htimer⟩ := ih (h.fire now)
    have hrec : ∀ a, ((TimerManager.fire now m id).timer a).recurring = (m.timer a).recurring := by
      intro a
      rw [timer_fire]
      refine modify_keeps Timer.recurring ?_ a
      unfold fired
      split_ifs <;> rfl
    refine ⟨ho, ?_, ?_⟩
    · intro a
      rw [List.foldl_cons, hmem, h.mem_fire, hrec, List.mem_cons, or_assoc]
      by_cases he : a = id
      · subst he
        simp [hnot]
      · simp [he]
    · intro a
      rw [List.foldl_cons, htimer, timer_fire]
      by_cases he : a = id
      · subst he
        rw [if_neg hnot, timer_modify_self, if_pos List.mem_cons_self]
      · simp [timer_modify_of_ne _ he, he]

/-- Without a rollover, the timers that are due are fired in order and the others are left. -/
theorem Ordered.listExpiredCb_eq (h : Ordered [] m) {now : UInt64}
    (hr : (m.detectClockRollover now).1 = false) (probeAddr : ℕ) :
    ∃ expired left p, m.timers = expired ++ left ∧
      (∀ a ∈ expired, (m.timer a).next ≤ now) ∧ (∀ a ∈ left, now < (m.timer a).next) ∧
      m.listExpiredCb now probeAddr =
        (expired.map fun id => (id, (m.timer id).cb),
          expired.foldl (TimerManager.fire now)
            { m with timers := left, previousUseTime := p }) := by
  unfold TimerManager.listExpiredCb
  split
  · next hs => exact ⟨[], m.timers, m.previousUseTime, rfl, by simp, by simp [hs], rfl⟩
  · next first rest hs =>
    dsimp only
    rw [hr, Bool.not_false, Bool.true_and]
    split_ifs with hlate
    · refine ⟨[], m.timers, now, rfl, by simp, ?_, rfl⟩
      intro a ha
      have hfirst := h.noneBefore_first hs a ha
      rw [UInt64.lt_iff_toNat_lt]
      exact (UInt64.lt_iff_toNat_lt.mp (of_decide_eq_true hlate)).trans_le hfirst
    · exact ⟨_, _, now, (splitExpired_append m false now probeAddr).symm,
        fun a ha => splitExpired_due ha, h.splitExpired_late now probeAddr, rfl⟩

section Split

variable {now : UInt64} {expired left : List TimerId} (hs : m.timers = expired ++ left)
  (hdue : ∀ a ∈ expired, (m.timer a).next ≤ now) (hlate : ∀ a ∈ left, now < (m.timer a).next)

include hs hdue hlate

/-- A list that is cut at the deadline. -/
theorem mem_expired_iff (a : TimerId) :
    a ∈ expired ↔ a ∈ m.timers ∧ (m.timer a).next ≤ now := by
  rw [hs, List.mem_append]
  constructor
  · exact fun ha => ⟨Or.inl ha, hdue a ha⟩
  · rintro ⟨ha | ha, hle⟩
    · exact ha
    · exact absurd (hlate a ha) (UInt64.not_lt.mpr hle)

theorem mem_left_or_iff (a : TimerId) :
    a ∈ left ∨ a ∈ expired ∧ (m.timer a).recurring = true ↔
      a ∈ m.timers ∧ (now < (m.timer a).next ∨ (m.timer a).recurring = true) := by
  have hsplit : a ∈ m.timers ↔ a ∈ expired ∨ a ∈ left := by rw [hs, List.mem_append]
  constructor
  · rintro (ha | ⟨ha, hrec⟩)
    · exact ⟨hsplit.mpr (Or.inr ha), Or.inl (hlate a ha)⟩
    · exact ⟨hsplit.mpr (Or.inl ha), Or.inr hrec⟩
  · rintro ⟨ha, hor⟩
    rcases hsplit.mp ha with ha | ha
    · have hnot : ¬ now < (m.timer a).next := UInt64.not_lt.mpr (hdue a ha)
      exact Or.inr ⟨ha, hor.resolve_left hnot⟩
    · exact Or.inl ha

end Split

/-- Without a rollover `ListExpiredCb` appends the callbacks of the timers that are due and of no
others, once and in the order of their deadlines; of these it keeps the recurring ones, a period
later than now. -/
theorem listExpiredCb_exact (m : TimerManager) (h : Ordered [] m) (now : UInt64)
    (hr : (m.detectClockRollover now).1 = false) (probeAddr : ℕ) :
    Expiry m now (m.listExpiredCb now probeAddr).1 (m.listExpiredCb now probeAddr).2 := by
  obtain ⟨expired, left, p, hs, hdue, hlate, he⟩ := h.listExpiredCb_eq hr probeAddr
  have hp : Ordered [] { m with previousUseTime := p } :=
    ⟨h.ascending, h.nodup, h.lt_count, h.addr_inj⟩
  obtain ⟨ho, hmem, htimer⟩ := (hp.split hs).foldl_fire now
  have hexp := mem_expired_iff hs hdue hlate
  have hnodup : expired.Nodup := by
    have := h.nodup
    rw [List.append_nil, hs] at this
    exact (List.nodup_append.mp this).1
  rw [he]
  refine ⟨?_, ?_, ?_, ?_, ?_, ?_, ?_, ho⟩
  · rintro ⟨a, cb⟩
    simp only [List.mem_map, Prod.mk.injEq, hexp]
    constructor
    · rintro ⟨b, ⟨hb, hle⟩, rfl, rfl⟩
      exact ⟨hb, hle, rfl⟩
    · rintro ⟨ha, hle, rfl⟩
      exact ⟨a, ⟨ha, hle⟩, rfl, rfl⟩
  · simpa [List.map_map, Function.comp_def] using hnodup
  · have hnext := h.pairwise_next
    rw [hs] at hnext
    simp only [List.pairwise_map, UInt64.le_iff_toNat_le]
    exact (List.pairwise_append.mp hnext).1
  · intro a
    rw [hmem]
    exact mem_left_or_iff hs hdue hlate a
  · intro a hlater
    have hnot : a ∉ expired := by
      rw [hexp]
      rintro ⟨ha, hle⟩
      exact absurd (hlater ha) (UInt64.not_lt.mpr hle)
    rw [htimer, if_neg hnot]
  · intro a ha hle hrec
    rw [htimer, if_pos ((hexp a).mpr ⟨ha, hle⟩)]
    exact if_pos hrec
  · intro a ha hle hrec
    rw [htimer, if_pos ((hexp a).mpr ⟨ha, hle⟩)]
    exact if_neg (ne_true_of_eq_false hrec)

/-- Two timers due exactly now, on either side of the probe, and one due later. -/
theorem listExpiredCb_exact_three_timers : ∃ m : TimerManager, Ordered [] m ∧
    m.timers = [1, 0, 2] ∧
    (m.listExpiredCb 15 48).1 = [(1, some 2), (0, some 1)] ∧
    Expiry m 15 (m.listExpiredCb 15 48).1 (m.listExpiredCb 15 48).2 := by
  have h₁ := (new_inv 5).addTimer 64 10 1 false 5 (by decide)
  have h₂ := h₁.addTimer 32 10 2 true 5 (by decide)
  have h₃ := h₂.addTimer 96 50 3 false 6 (by decide)
  exact ⟨_, h₃.ordered, by decide, by decide,
    listExpiredCb_exact _ h₃.ordered 15 (by decide) 48⟩

end ServerFramework.TimerManager
