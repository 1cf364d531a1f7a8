import Mathlib.Data.List.Induction
import ServerFramework.Hook.SockOpt

/-! # The timeouts of a Socket

`SetSendTimeout` and `SetRecvTimeout` pass milliseconds to `setsockopt` as a `timeval` made of two
`int`; `GetSendTimeout` and `GetRecvTimeout` ask the context of the descriptor.
-/

namespace ServerFramework

namespace Socket

/-- The `timeval` that is made of milliseconds. -/
def timeval (v : Int64) : Timeval where
  tvSec := (Int32.ofInt (v.toInt.tdiv 1000)).toInt64
  tvUsec := (Int32.ofInt (v.toInt.tmod 1000 * 1000)).toInt64

/-- A call of `SetSendTimeout` or `SetRecvTimeout`, in a thread with or without hooks, and what the
kernel says to it. -/
structure TimeoutCall where
  hookEnable : Bool
  opt : TimeoutOpt
  v : Int64
  rt : ℤ
  deriving DecidableEq

/-- The context of the descriptor after a call. -/
def setTimeout (ctx : Option FdCtx) (c : TimeoutCall) : Option (Option FdCtx) :=
  (setsockopt c.hookEnable ctx solSocket c.opt.optname (timeval c.v) c.rt).map Prod.snd

/-- `GetSendTimeout` and `GetRecvTimeout`. -/
def getTimeout (ctx : Option FdCtx) (opt : TimeoutOpt) : Int64 :=
  match ctx with
  | some ctx => (ctx.getTimeout opt.optname).toInt64
  | none => -1

/-- The milliseconds that a call stores. -/
def storedMs (v : Int64) : ℤ := (v.toInt.tdiv 1000).bmod (2 ^ 32) * 1000 + v.toInt.tmod 1000

section Call

variable (v : Int64)

theorem tmod_bounds : -1000 < v.toInt.tmod 1000 ∧ v.toInt.tmod 1000 < 1000 :=
  ⟨Int.lt_tmod_of_pos _ (by decide), Int.tmod_lt_of_pos _ (by decide)⟩

theorem representable_bmod (z : ℤ) : Representable 32 (z.bmod (2 ^ 32)) :=
  ⟨Int.le_bmod (by decide), Int.bmod_lt (by decide)⟩

theorem timeoutMs_timeval : (timeval v).timeoutMs = some (UInt64.ofInt (storedMs v)) := by
  obtain ⟨hle, hlt⟩ := tmod_bounds v
  obtain ⟨hle', hlt'⟩ := representable_bmod (v.toInt.tdiv 1000)
  have hsec : (timeval v).tvSec.toInt = (v.toInt.tdiv 1000).bmod (2 ^ 32) := by
    simp [timeval, Int32.size]
  have husec : (timeval v).tvUsec.toInt = v.toInt.tmod 1000 * 1000 := by
    rw [timeval, Int32.toInt_toInt64, Int32.toInt_ofInt_of_le (by omega) (by omega)]
  rw [Timeval.timeoutMs_eq_some_iff, hsec, husec, Int.mul_tdiv_cancel _ (by decide)]
  refine ⟨?_, ?_, rfl⟩
  · rw [representable_64_iff]
    omega
  · rw [representable_64_iff]
    omega

theorem storedMs_eq_iff : storedMs v = v.toInt ↔ Representable 32 (v.toInt.tdiv 1000) := by
  have hsplit := Int.mul_tdiv_add_tmod v.toInt 1000
  have hbmod := representable_bmod (v.toInt.tdiv 1000)
  constructor
  · intro h
    have heq : (v.toInt.tdiv 1000).bmod (2 ^ 32) = v.toInt.tdiv 1000 := by
      rw [storedMs] at h
      omega
    rwa [heq] at hbmod
  · intro h
    have heq : (v.toInt.tdiv 1000).bmod (2 ^ 32) = v.toInt.tdiv 1000 := by
      obtain ⟨hle, hlt⟩ := h
      exact Int.bmod_eq_of_le (by omega) (by omega)
    rw [storedMs, heq]
    omega

/-- Whatever a call in a thread with hooks stores is in the range of `int64_t`. -/
theorem toInt_toInt64_ofInt : (UInt64.ofInt (storedMs v)).toInt64.toInt = storedMs v := by
  obtain ⟨hle, hlt⟩ := tmod_bounds v
  obtain ⟨hle', hlt'⟩ := representable_bmod (v.toInt.tdiv 1000)
  have hms : -2 ^ 63 ≤ storedMs v ∧ storedMs v < 2 ^ 63 := by
    rw [storedMs]
    omega
  have hnonneg : 0 ≤ storedMs v % 2 ^ 64 := Int.emod_nonneg _ (by decide)
  rw [UInt64.ofInt, UInt64.toInt64_ofNat', Int64.toInt_ofNat', Int.toNat_of_nonneg hnonneg]
  refine (Int.emod_bmod _ _).trans (Int.bmod_eq_of_le ?_ ?_)
  · push_cast
    omega
  · push_cast
    omega

end Call

section Run

variable (ctx : FdCtx) (c : TimeoutCall)

theorem setTimeout_of_hooked (h : c.hookEnable = true) : setTimeout (some ctx) c =
    some (some (ctx.setTimeout c.opt.optname (UInt64.ofInt (storedMs c.v)))) := by
  have hopt : c.opt.optname = soRcvtimeo ∨ c.opt.optname = soSndtimeo := by
    cases c.opt <;> decide
  simp [setTimeout, setsockopt, h, hopt, timeoutMs_timeval]

theorem setTimeout_of_not (h : c.hookEnable = false) :
    setTimeout (some ctx) c = some (some ctx) := by
  simp [setTimeout, setsockopt, h]

/-- The last call in a thread with hooks that sets a direction. -/
def lastCall (calls : List TimeoutCall) (opt : TimeoutOpt) : Option TimeoutCall :=
  (calls.filter fun c => c.hookEnable ∧ c.opt = opt).getLast?

theorem exists_run (calls : List TimeoutCall) (opt : TimeoutOpt) :
    ∃ ctx', calls.foldlM setTimeout (some ctx) = some (some ctx') ∧
      ctx'.getTimeout opt.optname = match lastCall calls opt with
        | none => ctx.getTimeout opt.optname
        | some c => UInt64.ofInt (storedMs c.v) := by
  induction calls using List.reverseRecOn with
  | nil => exact ⟨ctx, rfl, rfl⟩
  | append_singleton calls c ih =>
    obtain ⟨ctx', hrun, hget⟩ := ih
    rw [List.foldlM_append, hrun]
    cases hhook : c.hookEnable with
    | false =>
      refine ⟨ctx', by simp [setTimeout_of_not _ _ hhook], ?_⟩
      simpa [lastCall, hhook] using hget
    | true =>
      refine ⟨ctx'.setTimeout c.opt.optname (UInt64.ofInt (storedMs c.v)),
        by simp [setTimeout_of_hooked _ _ hhook], ?_⟩
      by_cases hopt : c.opt = opt
      · subst hopt
        simp [lastCall, hhook]
      · have hother : opt = c.opt.other := by
          cases hc : c.opt <;> cases opt <;> simp_all [TimeoutOpt.other]
        rw [hother, FdCtx.getTimeout_setTimeout_other, ← hother, hget]
        simp [lastCall, hopt]

/-- After any calls for a socket that is managed, `GetSendTimeout` and `GetRecvTimeout` return what
the last call for their direction has set, the kernel's answers aside, if and only if its seconds
fit an `int`. Calls in threads without hooks change nothing. -/
theorem getTimeout_iff (ctx : FdCtx) (calls : List TimeoutCall) (opt : TimeoutOpt) :
    ∃ ctx', calls.foldlM setTimeout (some ctx) = some (some ctx') ∧
      match lastCall calls opt with
      | none => getTimeout (some ctx') opt = getTimeout (some ctx) opt
      | some c => getTimeout (some ctx') opt = c.v ↔ Representable 32 (c.v.toInt.tdiv 1000) := by
  obtain ⟨ctx', hrun, hget⟩ := exists_run ctx calls opt
  refine ⟨ctx', hrun, ?_⟩
  cases hlast : lastCall calls opt with
  | none =>
    rw [hlast] at hget
    simp only [getTimeout, hget]
  | some c =>
    rw [hlast] at hget
    simp only [getTimeout, hget]
    rw [← Int64.toInt_inj, toInt_toInt64_ofInt, storedMs_eq_iff]

end Run

end Socket

end ServerFramework
