import Mathlib.Tactic.SplitIfs
import ServerFramework.Lib.Transition

/-! # Non-blocking mode of managed sockets

A managed socket is non-blocking for the kernel, so that a call which would block can yield
instead. What the user asked for is kept in its context, and the hooked `fcntl` and `ioctl`
translate between the two. `ioctl` hands the user's value on to the kernel, though, so the
kernel's flag survives exactly the runs in which nobody asks `ioctl` for blocking mode.
-/

namespace ServerFramework

/-- `O_NONBLOCK`. -/
def oNonblock : BitVec 32 := 0x800

/-- The flags that `F_SETFL` can change: `O_APPEND`, `O_NONBLOCK`, `O_ASYNC`, `O_DIRECT` and
`O_NOATIME`. -/
def settableFlags : BitVec 32 := 0x46C00

/-- An open file of the kernel with its status flags. -/
structure File where
  isSocket : Bool
  flags : BitVec 32
  deriving DecidableEq, Repr

namespace File

def nonblock (file : File) : Bool := file.flags &&& oNonblock ≠ 0

/-- `fcntl_f(fd, F_SETFL, arg)`. -/
def setfl (file : File) (arg : BitVec 32) : File :=
  { file with flags := (file.flags &&& ~~~settableFlags) ||| (arg &&& settableFlags) }

/-- `ioctl_f(fd, FIONBIO, &v)`. -/
def fionbio (file : File) (v : BitVec 32) : File :=
  { file with
    flags := if v ≠ 0 then file.flags ||| oNonblock else file.flags &&& ~~~oNonblock }

end File

@[simp] theorem getElem_oNonblock : oNonblock[11] = true := by decide

@[simp] theorem getElem_settableFlags : settableFlags[11] = true := by decide

theorem and_oNonblock_ne_zero (x : BitVec 32) : x &&& oNonblock ≠ 0 ↔ x[11] = true := by
  have htwo : oNonblock = BitVec.twoPow 32 11 := by decide
  rw [htwo, BitVec.and_twoPow, BitVec.getLsbD_eq_getElem (by decide)]
  cases x[11] <;> decide

namespace File

theorem nonblock_iff (file : File) : file.nonblock = true ↔ file.flags[11] = true := by
  rw [nonblock, decide_eq_true_iff, and_oNonblock_ne_zero]

theorem nonblock_setfl (file : File) (arg : BitVec 32) :
    (file.setfl arg).nonblock = true ↔ arg[11] = true := by
  simp [nonblock_iff, setfl]

theorem nonblock_fionbio (file : File) (v : BitVec 32) :
    (file.fionbio v).nonblock = true ↔ v ≠ 0 := by
  rw [nonblock_iff, fionbio]
  split_ifs with hv
  · exact iff_of_true (by simp) hv
  · exact iff_of_false (by simp) hv

end File

/-- `FdCtx`. -/
structure FdCtx where
  isInit : Bool
  isSocket : Bool
  sysNonblock : Bool
  userNonblock : Bool
  isClosed : Bool
  recvTimeout : UInt64
  sendTimeout : UInt64
  deriving DecidableEq, Repr

namespace FdCtx

/-- The constructor with `Init`, for the file that the descriptor is open on. `fstat` fails if it
is not open. -/
def new : Option File → FdCtx × Option File
  | none =>
    ({ isInit := false, isSocket := false, sysNonblock := false, userNonblock := false,
       isClosed := false, recvTimeout := -1, sendTimeout := -1 }, none)
  | some file =>
    ({ isInit := true, isSocket := file.isSocket, sysNonblock := file.isSocket,
       userNonblock := false, isClosed := false, recvTimeout := -1, sendTimeout := -1 },
      some (if file.isSocket && !file.nonblock then file.setfl (file.flags ||| oNonblock)
        else file))

end FdCtx

/-- The hooked `fcntl` with `F_SETFL`. -/
def fcntlSetfl (ctx : Option FdCtx) (file : File) (arg : BitVec 32) : Option FdCtx × File :=
  match ctx with
  | none => (none, file.setfl arg)
  | some ctx =>
    if ctx.isClosed || !ctx.isSocket then (some ctx, file.setfl arg)
    else
      let ctx := { ctx with userNonblock := arg &&& oNonblock ≠ 0 }
      (some ctx, file.setfl (if ctx.sysNonblock then arg ||| oNonblock else arg &&& ~~~oNonblock))

/-- The hooked `fcntl` with `F_GETFL`. -/
def fcntlGetfl (ctx : Option FdCtx) (file : File) : BitVec 32 :=
  match ctx with
  | none => file.flags
  | some ctx =>
    if ctx.isClosed || !ctx.isSocket then file.flags
    else if ctx.userNonblock then file.flags ||| oNonblock
    else file.flags &&& ~~~oNonblock

/-- The hooked `ioctl` with `FIONBIO`. -/
def ioctlFionbio (ctx : Option FdCtx) (file : File) (v : BitVec 32) : Option FdCtx × File :=
  match ctx with
  | none => (none, file.fionbio v)
  | some ctx =>
    if ctx.isClosed || !ctx.isSocket then (some ctx, file.fionbio v)
    else (some { ctx with userNonblock := v ≠ 0 }, file.fionbio v)

/-- The calls by which a user sets the mode of a descriptor. -/
inductive ModeCall where
  | fcntl (arg : BitVec 32)
  | ioctl (v : BitVec 32)
  deriving DecidableEq, Repr

/-- Whether the call asks for non-blocking mode. -/
def ModeCall.nonblock : ModeCall → Bool
  | fcntl arg => arg &&& oNonblock ≠ 0
  | ioctl v => v ≠ 0

/-- A managed descriptor, and whether the last call asked for non-blocking mode. -/
structure ManagedFd where
  ctx : Option FdCtx
  file : File
  requested : Bool
  deriving DecidableEq, Repr

namespace ManagedFd

/-- A socket that has just got its context. -/
def new (flags : BitVec 32) : ManagedFd :=
  let (ctx, file) := FdCtx.new (some ⟨true, flags⟩)
  ⟨some ctx, file.getD ⟨true, flags⟩, false⟩

def step (s : ManagedFd) (call : ModeCall) : Option ManagedFd :=
  match call with
  | .fcntl arg =>
    let (ctx, file) := fcntlSetfl s.ctx s.file arg
    some ⟨ctx, file, call.nonblock⟩
  | .ioctl v =>
    let (ctx, file) := ioctlFionbio s.ctx s.file v
    some ⟨ctx, file, call.nonblock⟩

/-- The kernel's flag is set, and the user sees the mode that was asked for. -/
def Virtualised (s : ManagedFd) : Prop :=
  s.file.nonblock = true ∧
    (fcntlGetfl s.ctx s.file &&& oNonblock ≠ 0 ↔ s.requested = true)

/-- The context is that of an open socket, and knows what was asked for. -/
def Managed (s : ManagedFd) : Prop :=
  ∃ ctx, s.ctx = some ctx ∧ ctx.isClosed = false ∧ ctx.isSocket = true ∧
    ctx.sysNonblock = true ∧ ctx.userNonblock = s.requested

theorem new_managed (flags : BitVec 32) : (new flags).Managed :=
  ⟨_, rfl, rfl, rfl, rfl, rfl⟩

theorem new_nonblock (flags : BitVec 32) : (new flags).file.nonblock = true := by
  simp only [new, FdCtx.new, Option.getD_some, Bool.true_and]
  cases h : (File.mk true flags).nonblock with
  | true => simpa using h
  | false => simp [File.nonblock_setfl]

theorem exists_step (s : ManagedFd) (call : ModeCall) : ∃ s', s.step call = some s' := by
  cases call <;> exact ⟨_, rfl⟩

variable {s s' : ManagedFd} {call : ModeCall}

/-- A call keeps the context in order, and the kernel's flag is then set unless `ioctl` was asked
for blocking mode. -/
theorem Managed.step (h : s.Managed) (hs : s.step call = some s') :
    s'.Managed ∧ (s'.file.nonblock = true ↔ call ≠ .ioctl 0) := by
  obtain ⟨ctx, hctx, hclosed, hsocket, hsys, -⟩ := h
  cases call with
  | fcntl arg =>
    simp only [ManagedFd.step, fcntlSetfl, hctx, hclosed, hsocket, hsys, Bool.not_true,
      Bool.or_false, if_true, Bool.false_eq_true, if_false, Option.some.injEq] at hs
    subst hs
    refine ⟨⟨_, rfl, rfl, rfl, rfl, rfl⟩, ?_⟩
    simp [File.nonblock_setfl]
  | ioctl v =>
    simp only [ManagedFd.step, ioctlFionbio, hctx, hclosed, hsocket, Bool.not_true,
      Bool.or_false, Bool.false_eq_true, if_false, Option.some.injEq] at hs
    subst hs
    refine ⟨⟨_, rfl, rfl, rfl, hsys, rfl⟩, ?_⟩
    simp [File.nonblock_fionbio]

/-- The user always sees the mode that was asked for. -/
theorem Managed.getfl (h : s.Managed) :
    fcntlGetfl s.ctx s.file &&& oNonblock ≠ 0 ↔ s.requested = true := by
  obtain ⟨ctx, hctx, hclosed, hsocket, -, huser⟩ := h
  rw [and_oNonblock_ne_zero, ← huser]
  simp only [fcntlGetfl, hctx, hclosed, hsocket, Bool.not_true, Bool.or_false, Bool.false_eq_true,
    if_false]
  split_ifs with hu <;> simp [hu]

/-- A socket stays non-blocking for the kernel, with the user's view kept apart, if and only if
`ioctl` is never asked for blocking mode. -/
theorem virtualised_iff_no_blocking_ioctl (flags : BitVec 32) (calls : List ModeCall) :
    Transition.Always step Virtualised (new flags) calls ↔ ∀ call ∈ calls, call ≠ .ioctl 0 := by
  obtain ⟨s, hr⟩ := Transition.exists_run exists_step (new flags) calls
  have hnew : (new flags).Virtualised := ⟨new_nonblock flags, (new_managed flags).getfl⟩
  rw [← Transition.meets_iff_forall_mem exists_step (new flags)]
  refine Transition.always_iff_meets Managed (fun _ _ _ h hs => (h.step hs).1) ?_
    (new_managed flags) hnew hr
  intro s call s' h _ hs
  obtain ⟨hm, hnonblock⟩ := h.step hs
  exact ⟨fun hv => hnonblock.mp hv.1, fun hc => ⟨hnonblock.mpr hc, hm.getfl⟩⟩

/-- Blocking mode asked for by `ioctl` reaches the kernel. -/
theorem not_virtualised_after_ioctl :
    ¬ Transition.Always step Virtualised (new 0x802) [.fcntl 0x2, .ioctl 0] := by
  intro h
  have hlast := (h.2 _ rfl).2 _ rfl
  exact absurd hlast.1 (by decide)

end ManagedFd

end ServerFramework
