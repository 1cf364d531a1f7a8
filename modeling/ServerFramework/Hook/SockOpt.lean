import ServerFramework.Hook.FdCtx
import ServerFramework.Hook.Sleep

/-! # Socket timeouts

The hooked `setsockopt` keeps the timeouts of a managed descriptor in its context, in milliseconds
and before the kernel is asked; `do_io` takes them from there. No timeout is zero for the kernel,
and `-1` in the context.
-/

namespace ServerFramework

def solSocket : ℤ := 1
def soRcvtimeo : ℤ := 20
def soSndtimeo : ℤ := 21

/-- A `timeval`. -/
structure Timeval where
  tvSec : Int64
  tvUsec : Int64
  deriving DecidableEq, Repr

namespace FdCtx

def setTimeout (ctx : FdCtx) (type : ℤ) (v : UInt64) : FdCtx :=
  if type = soRcvtimeo then { ctx with recvTimeout := v } else { ctx with sendTimeout := v }

def getTimeout (ctx : FdCtx) (type : ℤ) : UInt64 :=
  if type = soRcvtimeo then ctx.recvTimeout else ctx.sendTimeout

/-- How long `do_io` waits in a direction, `none` being without a timer. -/
def doIoTimeout (ctx : FdCtx) (timeoutSo : ℤ) : Option UInt64 :=
  let timeout := ctx.getTimeout timeoutSo
  if timeout ≠ -1 then some timeout else none

end FdCtx

/-- The value that `setsockopt` hands to `SetTimeout`. -/
def Timeval.timeoutMs (v : Timeval) : Option UInt64 := do
  let ms ← signedResult 64 (v.tvSec.toInt * 1000)
  let ms ← signedResult 64 (ms + v.tvUsec.toInt.tdiv 1000)
  return UInt64.ofInt ms

/-- The hooked `setsockopt`, on an option that points to a `timeval`; `setsockopt_f` returns `rt`.
The context is that of the descriptor. -/
def setsockopt (hookEnable : Bool) (ctx : Option FdCtx) (level optname : ℤ) (v : Timeval)
    (rt : ℤ) : Option (ℤ × Option FdCtx) :=
  if !hookEnable then some (rt, ctx)
  else if level = solSocket ∧ (optname = soRcvtimeo ∨ optname = soSndtimeo) then
    match ctx with
    | none => some (rt, none)
    | some ctx => v.timeoutMs.map fun ms => (rt, some (ctx.setTimeout optname ms))
  else some (rt, ctx)

/-- The options for the two directions. -/
inductive TimeoutOpt where
  | recv
  | send
  deriving DecidableEq, Repr

namespace TimeoutOpt

def optname : TimeoutOpt → ℤ
  | recv => soRcvtimeo
  | send => soSndtimeo

def other : TimeoutOpt → TimeoutOpt
  | recv => send
  | send => recv

end TimeoutOpt

/-- The timeouts of the context after the call mean what they mean to the kernel, which has
returned `rt`. -/
structure TimeoutKept (ctx ctx' : FdCtx) (opt : TimeoutOpt) (v : Timeval) (rt : ℤ) : Prop where
  unlimited_iff : rt = 0 → (ctx'.doIoTimeout opt.optname = none ↔ v = ⟨0, 0⟩)
  not_shorter : rt = 0 → ∀ ms, ctx'.doIoTimeout opt.optname = some ms →
    v.tvSec.toInt * 10 ^ 6 + v.tvUsec.toInt ≤ ms.toNat * 1000
  rejected : rt ≠ 0 → ctx'.getTimeout opt.optname = ctx.getTimeout opt.optname
  other : ctx'.getTimeout opt.other.optname = ctx.getTimeout opt.other.optname

/-- The call has a result, and it means the same to `do_io` as to the kernel. -/
def TimeoutMeant (ctx : FdCtx) (opt : TimeoutOpt) (v : Timeval) (rt : ℤ) : Prop :=
  ∃ ctx', setsockopt true (some ctx) solSocket opt.optname v rt = some (rt, some ctx') ∧
    TimeoutKept ctx ctx' opt v rt

/-- The milliseconds fit a `long`. If the call is accepted, they are a positive number and exact,
or negative other than `-1`; if it is rejected, they are what the context holds already. -/
def Timeval.Faithful (v : Timeval) (held : UInt64) (rt : ℤ) : Prop :=
  let sec := v.tvSec.toInt
  let usec := v.tvUsec.toInt
  Representable 64 (sec * 1000) ∧ Representable 64 (sec * 1000 + usec.tdiv 1000) ∧
    (rt = 0 → 0 ≤ sec ∧ 0 < sec * 10 ^ 6 + usec ∧ 1000 ∣ usec ∨
      sec < 0 ∧ ¬ (sec = -1 ∧ 999000 ≤ usec)) ∧
    (rt ≠ 0 → held = UInt64.ofInt (sec * 1000 + usec.tdiv 1000))

namespace FdCtx

variable (ctx : FdCtx) (opt : TimeoutOpt) (v : UInt64)

@[simp] theorem getTimeout_setTimeout :
    (ctx.setTimeout opt.optname v).getTimeout opt.optname = v := by
  cases opt <;> rfl

@[simp] theorem getTimeout_setTimeout_other :
    (ctx.setTimeout opt.optname v).getTimeout opt.other.optname =
      ctx.getTimeout opt.other.optname := by
  cases opt <;> rfl

theorem doIoTimeout_setTimeout :
    (ctx.setTimeout opt.optname v).doIoTimeout opt.optname = if v ≠ -1 then some v else none := by
  simp only [doIoTimeout, getTimeout_setTimeout]

end FdCtx

theorem Timeval.timeoutMs_eq_some_iff {v : Timeval} {ms : UInt64} :
    v.timeoutMs = some ms ↔
      Representable 64 (v.tvSec.toInt * 1000) ∧
        Representable 64 (v.tvSec.toInt * 1000 + v.tvUsec.toInt.tdiv 1000) ∧
        UInt64.ofInt (v.tvSec.toInt * 1000 + v.tvUsec.toInt.tdiv 1000) = ms := by
  simp only [timeoutMs, Option.bind_eq_bind, Option.bind_eq_some_iff, signedResult_eq_some_iff]
  constructor
  · rintro ⟨z, ⟨hmul, rfl⟩, z', ⟨hadd, rfl⟩, he⟩
    exact ⟨hmul, hadd, Option.some.inj he⟩
  · rintro ⟨hmul, hadd, rfl⟩
    exact ⟨_, ⟨hmul, rfl⟩, _, ⟨hadd, rfl⟩, rfl⟩

/-- The hooked call stores the milliseconds, whatever the kernel answers. -/
theorem timeoutMeant_iff (ctx : FdCtx) (opt : TimeoutOpt) (v : Timeval) (rt : ℤ) :
    TimeoutMeant ctx opt v rt ↔
      ∃ ms, v.timeoutMs = some ms ∧ TimeoutKept ctx (ctx.setTimeout opt.optname ms) opt v rt := by
  have hopt : solSocket = solSocket ∧ (opt.optname = soRcvtimeo ∨ opt.optname = soSndtimeo) := by
    cases opt <;> decide
  have hset : setsockopt true (some ctx) solSocket opt.optname v rt =
      v.timeoutMs.map fun ms => (rt, some (ctx.setTimeout opt.optname ms)) := if_pos hopt
  simp only [TimeoutMeant, hset, Option.map_eq_some_iff, Prod.mk.injEq, true_and,
    Option.some.injEq]
  constructor
  · rintro ⟨ctx', ⟨ms, hms, rfl⟩, hkept⟩
    exact ⟨ms, hms, hkept⟩
  · rintro ⟨ms, hms, hkept⟩
    exact ⟨_, ⟨ms, hms, rfl⟩, hkept⟩

/-- What the call does to the timeouts, by the value that it stores. -/
theorem timeoutKept_iff (ctx : FdCtx) (opt : TimeoutOpt) (v : Timeval) (rt : ℤ) (ms : UInt64) :
    TimeoutKept ctx (ctx.setTimeout opt.optname ms) opt v rt ↔
      (rt = 0 → (ms = -1 ↔ v = ⟨0, 0⟩) ∧
        (ms ≠ -1 → v.tvSec.toInt * 10 ^ 6 + v.tvUsec.toInt ≤ ms.toNat * 1000)) ∧
      (rt ≠ 0 → ctx.getTimeout opt.optname = ms) := by
  have hnone : (ctx.setTimeout opt.optname ms).doIoTimeout opt.optname = none ↔ ms = -1 := by
    simp [FdCtx.doIoTimeout_setTimeout]
  have hsome : ∀ t, (ctx.setTimeout opt.optname ms).doIoTimeout opt.optname = some t ↔
      ms ≠ -1 ∧ ms = t := by
    simp [FdCtx.doIoTimeout_setTimeout]
  constructor
  · intro h
    refine ⟨fun hrt => ⟨hnone.symm.trans (h.unlimited_iff hrt), fun hne => ?_⟩, fun hrt => ?_⟩
    · exact h.not_shorter hrt ms ((hsome ms).mpr ⟨hne, rfl⟩)
    · rw [← h.rejected hrt, FdCtx.getTimeout_setTimeout]
  · rintro ⟨hacc, hrej⟩
    refine ⟨fun hrt => hnone.trans (hacc hrt).1, fun hrt t ht => ?_, fun hrt => ?_, ?_⟩
    · obtain ⟨hne, rfl⟩ := (hsome t).mp ht
      exact (hacc hrt).2 hne
    · rw [hrej hrt, FdCtx.getTimeout_setTimeout]
    · exact FdCtx.getTimeout_setTimeout_other ..

theorem ofInt_eq_neg_one_iff {z : ℤ} (h : Representable 64 z) : UInt64.ofInt z = -1 ↔ z = -1 := by
  obtain ⟨hle, hlt⟩ := h
  have hone : (-1 : UInt64).toNat = 2 ^ 64 - 1 := rfl
  rw [← UInt64.toNat_inj, toNat_ofInt, hone]
  omega

theorem Timeval.eq_zero_iff (v : Timeval) :
    v = ⟨0, 0⟩ ↔ v.tvSec.toInt = 0 ∧ v.tvUsec.toInt = 0 := by
  rw [← Int64.toInt_zero, Int64.toInt_inj, Int64.toInt_inj]
  constructor
  · rintro rfl
    exact ⟨rfl, rfl⟩
  · rintro ⟨hsec, husec⟩
    cases v
    exact congrArg₂ Timeval.mk hsec husec

/-- The timeouts of a managed socket mean to `do_io` what they mean to the kernel if and only if
the call is faithful. The kernel accepts microseconds below a million only. -/
theorem timeoutMeant_iff_faithful (ctx : FdCtx) (opt : TimeoutOpt) (v : Timeval) (rt : ℤ)
    (h : rt = 0 → 0 ≤ v.tvUsec.toInt ∧ v.tvUsec.toInt < 10 ^ 6) :
    TimeoutMeant ctx opt v rt ↔ v.Faithful (ctx.getTimeout opt.optname) rt := by
  simp only [timeoutMeant_iff, Timeval.timeoutMs_eq_some_iff, and_assoc, exists_and_left,
    exists_eq_left', timeoutKept_iff, Timeval.Faithful]
  refine and_congr_right fun hmul => and_congr_right fun hadd => and_congr_left fun _ => ?_
  refine forall_congr' fun hrt => ?_
  obtain ⟨hge, hlt⟩ := h hrt
  have hdiv : v.tvUsec.toInt.tdiv 1000 = v.tvUsec.toInt / 1000 := Int.tdiv_eq_ediv_of_nonneg hge
  rw [Ne, ofInt_eq_neg_one_iff hadd, Timeval.eq_zero_iff, toNat_ofInt, hdiv]
  obtain ⟨hle, hlt'⟩ := hadd
  rw [hdiv] at hle hlt'
  omega

/-- One and a half seconds. -/
theorem timeoutMeant_iff_faithful_accepted :
    TimeoutMeant (FdCtx.new (some ⟨true, 0x2⟩)).1 .recv ⟨1, 500000⟩ 0 := by
  refine (timeoutMeant_iff_faithful _ _ _ _ (by decide)).mpr ?_
  unfold Timeval.Faithful
  decide

/-- A zero timeout is accepted, and an invalid one rejected. -/
theorem timeout_not_meant :
    ¬ TimeoutMeant (FdCtx.new (some ⟨true, 0x2⟩)).1 .recv ⟨0, 0⟩ 0 ∧
      ¬ TimeoutMeant (FdCtx.new (some ⟨true, 0x2⟩)).1 .send ⟨5, 2000000⟩ (-1) := by
  constructor
  · rintro ⟨ctx', hset, hkept⟩
    obtain rfl := Option.some.inj (Prod.mk.inj (Option.some.inj hset)).2
    exact absurd ((hkept.unlimited_iff rfl).mpr rfl) (by decide)
  · rintro ⟨ctx', hset, hkept⟩
    obtain rfl := Option.some.inj (Prod.mk.inj (Option.some.inj hset)).2
    exact absurd (hkept.rejected (by decide)) (by decide)

end ServerFramework
