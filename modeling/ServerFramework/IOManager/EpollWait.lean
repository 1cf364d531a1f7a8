import ServerFramework.IOManager.TimerWakeup
import ServerFramework.Lib.Machine

/-! # The timeouts of `epoll_wait`

`Idle` converts the time that `GetNextTimer` answers to `int` before it takes the minimum with
five seconds, and stores the result in the variable that held the answer. When `epoll_wait` is
interrupted, what it has stored goes through the same lines again.
-/

namespace ServerFramework

/-- What `Idle` stores in `next_timeout` before it calls `epoll_wait`. -/
def clampTimeout (nextTimeout : UInt64) : UInt64 :=
  if nextTimeout ≠ ~~~(0 : UInt64) then UInt64.ofInt (min (toInt nextTimeout) 5000) else 5000

/-- The timeouts that are passed to `epoll_wait` until it has been interrupted the given number of
times. -/
def epollTimeouts (nextTimeout : UInt64) : ℕ → List ℤ
  | 0 => [toInt (clampTimeout nextTimeout)]
  | retries + 1 => toInt (clampTimeout nextTimeout) ::
      epollTimeouts (clampTimeout nextTimeout) retries

/-- The timeout is the time left, but at most five seconds. -/
def WaitBounded (nextTimeout : UInt64) (timeout : ℤ) : Prop :=
  timeout = min (nextTimeout.toNat : ℤ) 5000 ∧ 0 ≤ timeout ∧ timeout ≤ 5000

theorem toInt_cases (x : UInt64) :
    (toInt x = (x.toNat % 2 ^ 32 : ℕ) ∧ x.toNat % 2 ^ 32 < 2 ^ 31) ∨
      (toInt x = (x.toNat % 2 ^ 32 : ℕ) - 2 ^ 32 ∧ 2 ^ 31 ≤ x.toNat % 2 ^ 32) := by
  unfold toInt
  have hmod := Int.bmod_def x.toNat (2 ^ 32)
  generalize x.toNat = n at *
  split_ifs at hmod <;> omega

/-- An `int` survives being stored in a `uint64_t`. -/
theorem toInt_ofInt {z : ℤ} (hle : -2 ^ 31 ≤ z) (hlt : z < 2 ^ 31) :
    toInt (UInt64.ofInt z) = z := by
  rcases toInt_cases (UInt64.ofInt z) with ⟨he, hm⟩ | ⟨he, hm⟩ <;>
    rw [toNat_ofInt] at he hm <;> omega

theorem toInt_clampTimeout (nextTimeout : UInt64) :
    toInt (clampTimeout nextTimeout) = epollTimeout nextTimeout := by
  unfold clampTimeout epollTimeout
  split_ifs
  · have := toInt_cases nextTimeout
    rw [toInt_ofInt] <;> omega
  · decide

theorem epollTimeout_eq_iff (nextTimeout : UInt64) :
    epollTimeout nextTimeout = min (nextTimeout.toNat : ℤ) 5000 ↔
      nextTimeout = ~~~(0 : UInt64) ∨ nextTimeout.toNat < 5000 ∨
        5000 ≤ nextTimeout.toNat % 2 ^ 32 ∧ nextTimeout.toNat % 2 ^ 32 < 2 ^ 31 := by
  unfold epollTimeout
  split_ifs with hne
  · have := toInt_cases nextTimeout
    rw [or_iff_right hne]
    omega
  · obtain rfl := not_not.mp hne
    exact iff_of_true (by decide) (Or.inl rfl)

/-- Once the timeout is right, what is stored is that timeout. -/
theorem toNat_clampTimeout {nextTimeout : UInt64}
    (h : epollTimeout nextTimeout = min (nextTimeout.toNat : ℤ) 5000) :
    (clampTimeout nextTimeout).toNat = min nextTimeout.toNat 5000 := by
  have he := toInt_clampTimeout nextTimeout
  unfold clampTimeout epollTimeout at *
  split_ifs at * with hne
  · rw [h, toNat_ofInt]
    omega
  · obtain rfl := not_not.mp hne
    rfl

theorem epollTimeouts_of_eq {nextTimeout : UInt64}
    (h : epollTimeout nextTimeout = min (nextTimeout.toNat : ℤ) 5000) (retries : ℕ) :
    ∀ t ∈ epollTimeouts nextTimeout retries, t = min (nextTimeout.toNat : ℤ) 5000 := by
  induction retries generalizing nextTimeout with
  | zero =>
    intro t ht
    rw [List.mem_singleton.mp ht, toInt_clampTimeout, h]
  | succ retries ih =>
    have hstored := toNat_clampTimeout h
    have hmin : min ((clampTimeout nextTimeout).toNat : ℤ) 5000 =
        min (nextTimeout.toNat : ℤ) 5000 := by omega
    have hnext : epollTimeout (clampTimeout nextTimeout) =
        min ((clampTimeout nextTimeout).toNat : ℤ) 5000 :=
      (epollTimeout_eq_iff _).mpr (by omega)
    intro t ht
    rw [epollTimeouts, List.mem_cons, toInt_clampTimeout, h] at ht
    rcases ht with he | ht
    · exact he
    · rw [ih hnext t ht, hmin]

/-- However often `epoll_wait` is interrupted, it is called with the time left, but at most five
seconds, if and only if that time is less or still at least that much as an `int`. -/
theorem wait_bounded_iff (nextTimeout : UInt64) (retries : ℕ) :
    (∀ t ∈ epollTimeouts nextTimeout retries, WaitBounded nextTimeout t) ↔
      nextTimeout = ~~~(0 : UInt64) ∨ nextTimeout.toNat < 5000 ∨
        5000 ≤ nextTimeout.toNat % 2 ^ 32 ∧ nextTimeout.toNat % 2 ^ 32 < 2 ^ 31 := by
  rw [← epollTimeout_eq_iff]
  constructor
  · intro h
    have hfirst : toInt (clampTimeout nextTimeout) ∈ epollTimeouts nextTimeout retries := by
      cases retries <;> exact List.mem_cons_self
    rw [← toInt_clampTimeout]
    exact (h _ hfirst).1
  · intro h t ht
    have he := epollTimeouts_of_eq h retries t ht
    exact ⟨he, by omega, by omega⟩

/-- With a timer in `2^31` milliseconds the wait has no end. -/
theorem wait_not_bounded : ∃ m : TimerManager,
    m = ((TimerManager.new 5).addTimer 64 0x80000000 (some 1) false 5).2 ∧
      ¬ ∀ t ∈ epollTimeouts (m.getNextTimer 5).1 0, WaitBounded (m.getNextTimer 5).1 t := by
  refine ⟨_, rfl, fun h => ?_⟩
  exact absurd (h (-0x80000000) (by decide)).2.1 (by decide)

end ServerFramework
