import Mathlib.Data.Int.ModEq
import ServerFramework.Lib.Machine
import ServerFramework.Timer.Basic

/-! # Hooked sleeps

`sleep`, `usleep` and `nanosleep` of a fiber arm a timer that schedules the fiber again, and yield.
The durations are converted to milliseconds in `unsigned int`, `useconds_t` and `long`, the last
one by way of an `int`.
-/

namespace ServerFramework

/-- A valid `timespec`. -/
structure Timespec where
  tvSec : ℕ
  tvNsec : ℕ
  tvSec_lt : tvSec < 2 ^ 63
  tvNsec_lt : tvNsec < 10 ^ 9

/-- The calls of the hooked functions. -/
inductive SleepCall where
  | sleep (seconds : UInt32)
  | usleep (usec : UInt32)
  | nanosleep (req : Timespec)

namespace SleepCall

/-- The time asked for, in nanoseconds. -/
def nanoseconds : SleepCall → ℕ
  | sleep seconds => seconds.toNat * 10 ^ 9
  | usleep usec => usec.toNat * 10 ^ 3
  | nanosleep req => req.tvSec * 10 ^ 9 + req.tvNsec

/-- The argument of `AddTimer`. -/
def timeoutMs : SleepCall → Option UInt64
  | sleep seconds => some (seconds * 1000).toUInt64
  | usleep usec => some (usec / 1000).toUInt64
  | nanosleep req => do
    let ms ← signedResult 64 (req.tvSec * 1000)
    let ms ← signedResult 64 (ms + (req.tvNsec / 1000 / 1000 : ℕ))
    -- `int timeout_ms`
    return UInt64.ofInt (Int.bmod ms (2 ^ 32))

/-- The timer that is armed at clock reading `now`. -/
def timer (call : SleepCall) (addr : ℕ) (cb : Callback) (now : UInt64) : Option Timer :=
  call.timeoutMs.map fun ms => Timer.new addr ms (some cb) false now

/-- The deadline of the timer is not before the time asked for is over. -/
def NotEarly (call : SleepCall) (addr : ℕ) (cb : Callback) (now : UInt64) : Prop :=
  ∃ t, call.timer addr cb now = some t ∧
    now.toNat * 10 ^ 6 + call.nanoseconds ≤ t.next.toNat * 10 ^ 6

/-- The time asked for is a number of milliseconds that the conversions and the clock can hold; or
the conversion to `int` makes it negative so early that the clock does not wrap around with it. -/
def InRange (now : UInt64) : SleepCall → Prop
  | sleep seconds =>
    seconds.toNat * 1000 < 2 ^ 32 ∧ now.toNat + seconds.toNat * 1000 < 2 ^ 64
  | usleep usec => 1000 ∣ usec.toNat ∧ now.toNat + usec.toNat / 1000 < 2 ^ 64
  | nanosleep req =>
    let ms := req.tvSec * 1000 + req.tvNsec / 10 ^ 6
    (ms < 2 ^ 31 ∧ 10 ^ 6 ∣ req.tvNsec ∧ now.toNat + ms < 2 ^ 64) ∨
      (ms < 2 ^ 63 ∧ 2 ^ 31 ≤ ms % 2 ^ 32 ∧ now.toNat + ms % 2 ^ 32 < 2 ^ 32)

/-- The call does not return early if and only if the interval holds the time asked for and the
deadline does not wrap around. -/
theorem notEarly_iff {call : SleepCall} {ms : UInt64} (h : call.timeoutMs = some ms) (addr : ℕ)
    (cb : Callback) (now : UInt64) :
    call.NotEarly addr cb now ↔
      now.toNat + ms.toNat < 2 ^ 64 ∧ call.nanoseconds ≤ ms.toNat * 10 ^ 6 := by
  have hnext : (now + ms).toNat = (now.toNat + ms.toNat) % 2 ^ 64 := UInt64.toNat_add ..
  have hnow := now.toNat_lt
  have hms := ms.toNat_lt
  simp only [NotEarly, timer, h, Option.map_some, Option.some.injEq, exists_eq_left', Timer.new,
    hnext]
  omega

/-- The interval of `nanosleep`. -/
theorem toNat_ofInt_bmod (ms : ℕ) :
    (UInt64.ofInt (Int.bmod ms (2 ^ 32))).toNat =
      if ms % 2 ^ 32 < 2 ^ 31 then ms % 2 ^ 32 else 2 ^ 64 - 2 ^ 32 + ms % 2 ^ 32 := by
  rw [toNat_ofInt]
  have hmod := Int.bmod_def ms (2 ^ 32)
  split_ifs at hmod ⊢ <;> omega

/-- The seconds are added to the milliseconds as long as the sum fits. -/
theorem timeoutMs_nanosleep (req : Timespec) :
    (nanosleep req).timeoutMs =
      if req.tvSec * 1000 + req.tvNsec / 10 ^ 6 < 2 ^ 63 then
        some (UInt64.ofInt (Int.bmod (req.tvSec * 1000 + req.tvNsec / 10 ^ 6 : ℕ) (2 ^ 32)))
      else none := by
  have hdiv : req.tvNsec / 1000 / 1000 = req.tvNsec / 10 ^ 6 := by omega
  have hcast : ((req.tvSec * 1000 + req.tvNsec / 10 ^ 6 : ℕ) : ℤ) =
      req.tvSec * 1000 + (req.tvNsec / 10 ^ 6 : ℕ) := by omega
  simp only [timeoutMs, hdiv, Option.bind_eq_bind]
  by_cases hmul : Representable 64 (req.tvSec * 1000 : ℤ)
  · rw [signedResult_of_representable hmul, Option.bind_some, ← hcast]
    split_ifs with hlt
    · rw [signedResult_of_representable (representable_64_iff.mpr (by omega))]
      rfl
    · rw [signedResult_of_not (by rw [representable_64_iff]; omega)]
      rfl
  · rw [signedResult_of_not hmul, if_neg (by rw [representable_64_iff] at hmul; omega)]
    rfl

/-- A hooked sleep does not return early if and only if the time asked for is in range. -/
theorem notEarly_iff_inRange (call : SleepCall) (addr : ℕ) (cb : Callback) (now : UInt64) :
    call.NotEarly addr cb now ↔ call.InRange now := by
  have hnow := now.toNat_lt
  cases call with
  | sleep seconds =>
    have hlt := seconds.toNat_lt
    have hms : (seconds * 1000).toUInt64.toNat = seconds.toNat * 1000 % 2 ^ 32 := by
      rw [UInt32.toNat_toUInt64, UInt32.toNat_mul]
      rfl
    have hto : (sleep seconds).timeoutMs = some _ := rfl
    rw [notEarly_iff hto, hms]
    simp only [nanoseconds, InRange]
    omega
  | usleep usec =>
    have hms : (usec / 1000).toUInt64.toNat = usec.toNat / 1000 := by
      rw [UInt32.toNat_toUInt64, UInt32.toNat_div]
      rfl
    have hto : (usleep usec).timeoutMs = some _ := rfl
    rw [notEarly_iff hto, hms]
    simp only [nanoseconds, InRange]
    omega
  | nanosleep req =>
    have hnsec := req.tvNsec_lt
    have hto := timeoutMs_nanosleep req
    simp only [InRange]
    split_ifs at hto with hlt
    · rw [notEarly_iff hto, toNat_ofInt_bmod]
      simp only [nanoseconds]
      split_ifs <;> omega
    · refine iff_of_false ?_ (by omega)
      rintro ⟨t, ht, -⟩
      simp only [timer, hto, Option.map_none] at ht
      cases ht

/-- About 49.7 days, and less than a millisecond. -/
theorem sleeps_early :
    ¬ (sleep 4294968).NotEarly 64 1 100 ∧ ¬ (usleep 999).NotEarly 64 1 100 ∧
      ¬ (nanosleep ⟨0, 999999, by decide, by decide⟩).NotEarly 64 1 100 := by
  refine ⟨?_, ?_, ?_⟩ <;> rintro ⟨t, ht, hle⟩ <;> obtain rfl := Option.some.inj ht <;>
    exact absurd hle (by decide)

end SleepCall

end ServerFramework
