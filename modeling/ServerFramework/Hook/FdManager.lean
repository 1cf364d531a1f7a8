import Mathlib.Data.Fintype.Fin
import Mathlib.Logic.Function.Basic
import ServerFramework.Hook.FdCtx

/-! # The contexts of descriptors

`FdManager` keeps the contexts of descriptors by number. The hooked `socket` and `accept` ask
for the context of the number they got from the kernel, which is created only if there is none;
`close` removes it if hooking is enabled for its thread. The kernel reuses numbers. So a context
that outlives its descriptor is found again by the next one.
-/

namespace ServerFramework

/-- A context with the time of its creation. -/
structure StoredCtx where
  ctx : FdCtx
  created : ℕ
  deriving DecidableEq, Repr

/-- Where a thread is in `socket` or `accept`, or in `close`. `hooked` tells whether hooking is
enabled for the thread. -/
inductive FdPhase where
  | outside
  /-- The kernel has returned the number; before the read-locked section of `Get`. -/
  | opened (fd : ℕ) (hooked : Bool)
  /-- There was no context; before the write-locked section of `Get`. -/
  | missed (fd : ℕ) (hooked : Bool)
  /-- `close` has found a context; before `Del`. -/
  | deleting (fd : ℕ)
  /-- Before `close_f`. -/
  | closing (fd : ℕ)
  deriving DecidableEq, Repr

/-- A call with hooking enabled that got the number from the kernel has not returned yet. -/
def FdPhase.isOpening (fd : ℕ) (p : FdPhase) : Bool := p = opened fd true ∨ p = missed fd true

/-- The descriptors of the process, with `datas_` of the manager. `opened` has the time at which
each number was last opened, and `returned` the number that a call with hooking enabled has just
returned. -/
structure Descriptors (n : ℕ) where
  file : ℕ → Option File
  opened : ℕ → ℕ
  datas : List (Option StoredCtx)
  time : ℕ
  phase : Fin n → FdPhase
  returned : Option ℕ

/-- The steps of the threads. -/
inductive FdOp (n : ℕ) where
  /-- `socket_f` or `accept_f` returns a number. -/
  | openF (t : Fin n) (fd : ℕ) (flags : BitVec 32) (hooked accept : Bool)
  | get (t : Fin n)
  | create (t : Fin n)
  | close (t : Fin n) (fd : ℕ) (hooked : Bool)
  | del (t : Fin n)
  | closeF (t : Fin n)
  deriving DecidableEq, Repr

namespace Descriptors

variable {n : ℕ}

def new : Descriptors n where
  file := fun _ => none
  opened := fun _ => 0
  datas := List.replicate 64 none
  time := 0
  phase := fun _ => .outside
  returned := none

/-- `Get(fd)` without `auto_create`. -/
def slot (s : Descriptors n) (fd : ℕ) : Option StoredCtx :=
  if s.datas.length ≤ fd then none else (s.datas[fd]?).join

def setPhase (s : Descriptors n) (t : Fin n) (phase : FdPhase) : Descriptors n :=
  { s with phase := Function.update s.phase t phase }

/-- `socket` or `accept` returns. -/
def returnFd (s : Descriptors n) (t : Fin n) (fd : ℕ) (hooked : Bool) : Descriptors n :=
  { s.setPhase t .outside with returned := if hooked then some fd else none }

/-- The write-locked section of `Get`. -/
def createCtx (s : Descriptors n) (fd : ℕ) : Descriptors n :=
  let (ctx, file) := FdCtx.new (s.file fd)
  let datas := if fd ≥ s.datas.length then
    s.datas ++ List.replicate (fd * 3 / 2 - s.datas.length) none else s.datas
  { s with
    file := Function.update s.file fd file
    datas := datas.set fd (some ⟨ctx, s.time⟩)
    time := s.time + 1 }

/-- `Del`. -/
def delCtx (s : Descriptors n) (fd : ℕ) : Descriptors n :=
  if s.datas.length ≤ fd then s else { s with datas := s.datas.set fd none }

/-- One step. The kernel gives any number that is not open. -/
def step (s : Descriptors n) : FdOp n → Option (Descriptors n)
  | .openF t fd flags hooked accept =>
    if s.phase t = .outside ∧ s.file fd = none then
      -- without hooking, `socket` returns at once and `accept` asks for the context all the same
      some { s.setPhase t (if hooked || accept then .opened fd hooked else .outside) with
        file := Function.update s.file fd (some ⟨true, flags⟩)
        opened := Function.update s.opened fd s.time
        time := s.time + 1
        returned := none }
    else none
  | .get t =>
    match s.phase t with
    | .opened fd hooked =>
      if (s.slot fd).isSome then some (s.returnFd t fd hooked)
      else some { s.setPhase t (.missed fd hooked) with returned := none }
    | _ => none
  | .create t =>
    match s.phase t with
    | .missed fd hooked => some ((s.createCtx fd).returnFd t fd hooked)
    | _ => none
  | .close t fd hooked =>
    if s.phase t = .outside then
      some { s.setPhase t (if hooked && (s.slot fd).isSome then .deleting fd else .closing fd) with
        returned := none }
    else none
  | .del t =>
    match s.phase t with
    | .deleting fd => some { (s.delCtx fd).setPhase t (.closing fd) with returned := none }
    | _ => none
  | .closeF t =>
    match s.phase t with
    | .closing fd =>
      some { s.setPhase t .outside with
        file := Function.update s.file fd none
        returned := none }
    | _ => none

/-- The context stored for the number was created after the number was last opened, it is as its
constructor left it, and the kernel's descriptor is non-blocking. -/
def Fresh (s : Descriptors n) (fd : ℕ) : Prop :=
  ∃ st, s.slot fd = some st ∧ s.opened fd < st.created ∧ st.ctx.userNonblock = false ∧
    st.ctx.recvTimeout = -1 ∧ st.ctx.sendTimeout = -1 ∧
    ∃ file, s.file fd = some file ∧ file.nonblock = true

def Opening (s : Descriptors n) (fd : ℕ) : Prop := ∃ t, (s.phase t).isOpening fd = true

/-- A number that the kernel gives to a call with hooking enabled has no context, and it is not
closed before that call returns. -/
def Paired (s : Descriptors n) : FdOp n → Prop
  | .openF _ fd _ hooked _ => hooked = true → s.slot fd = none
  | .closeF t =>
    match s.phase t with
    | .closing fd => ¬ s.Opening fd
    | _ => True
  | _ => True

instance (s : Descriptors n) (fd : ℕ) : Decidable (s.Opening fd) :=
  inferInstanceAs (Decidable (∃ t, (s.phase t).isOpening fd = true))

instance (s : Descriptors n) : ∀ op, Decidable (s.Paired op)
  | .openF .. => inferInstanceAs (Decidable (_ → _))
  | .closeF t =>
    match h : s.phase t with
    | .closing fd => decidable_of_iff (¬ s.Opening fd) (by simp [Paired, h])
    | .outside | .opened .. | .missed .. | .deleting _ => isTrue (by simp [Paired, h])
  | .get _ | .create _ | .close .. | .del _ => isTrue trivial

variable {s s' : Descriptors n} {fd : ℕ} {t : Fin n}

theorem slot_eq (s : Descriptors n) (fd : ℕ) : s.slot fd = (s.datas[fd]?).join := by
  rw [slot]
  split_ifs with h
  · rw [List.getElem?_eq_none h]
    rfl
  · rfl

theorem slot_delCtx (s : Descriptors n) (fd x : ℕ) :
    (s.delCtx fd).slot x = if x = fd then none else s.slot x := by
  rw [slot_eq, slot_eq, delCtx]
  by_cases hx : x = fd
  · subst hx
    rw [if_pos rfl]
    split_ifs with h
    · rw [List.getElem?_eq_none h]
      rfl
    · rw [List.getElem?_set_self (Nat.lt_of_not_le h)]
      rfl
  · split_ifs
    · rfl
    · rw [List.getElem?_set_ne (Ne.symm hx)]

theorem slot_createCtx (h : 64 ≤ s.datas.length) (fd x : ℕ) :
    (s.createCtx fd).slot x =
      if x = fd then some ⟨(FdCtx.new (s.file fd)).1, s.time⟩ else s.slot x := by
  rw [slot_eq, slot_eq, createCtx]
  by_cases hx : x = fd
  · subst hx
    rw [if_pos rfl, List.getElem?_set_self]
    · rfl
    · split_ifs
      · simp only [List.length_append, List.length_replicate]
        omega
      · omega
  · rw [if_neg hx, List.getElem?_set_ne (Ne.symm hx)]
    split_ifs with hlen
    · by_cases hin : x < s.datas.length
      · rw [List.getElem?_append_left hin]
      · rw [List.getElem?_append_right (Nat.le_of_not_lt hin), List.getElem?_replicate,
          List.getElem?_eq_none (Nat.le_of_not_lt hin)]
        split_ifs <;> rfl
    · rfl

theorem slot_new (fd : ℕ) : (new : Descriptors n).slot fd = none := by
  rw [slot_eq]
  change ((List.replicate 64 none)[fd]?).join = none
  rw [List.getElem?_replicate]
  split_ifs <;> rfl

/-- What holds in every run. -/
structure Stored (s : Descriptors n) : Prop where
  length : 64 ≤ s.datas.length
  created : ∀ fd st, s.slot fd = some st → st.created < s.time
  untouched : ∀ fd st, s.slot fd = some st → st.ctx.userNonblock = false ∧
    st.ctx.recvTimeout = -1 ∧ st.ctx.sendTimeout = -1
  socket : ∀ fd file, s.file fd = some file → file.isSocket = true
  opened : ∀ fd file, s.file fd = some file → s.opened fd < s.time

theorem new_stored : Stored (new : Descriptors n) where
  length := by simp [new]
  created := by simp [slot_new]
  untouched := by simp [slot_new]
  socket := by simp [new]
  opened := by simp [new]

/-- A step that changes neither the table nor the files. -/
theorem Stored.congr (h : s.Stored) (hdatas : s'.datas = s.datas) (htime : s'.time = s.time)
    (hfile : s'.file = s.file) (hopened : s'.opened = s.opened) : s'.Stored := by
  have hslot : s'.slot = s.slot := by
    funext fd
    rw [slot_eq, slot_eq, hdatas]
  obtain ⟨hlength, hcreated, huntouched, hsocket, hlt⟩ := h
  refine ⟨?_, ?_, ?_, ?_, ?_⟩
  · rwa [hdatas]
  · rwa [hslot, htime]
  · rwa [hslot]
  · rwa [hfile]
  · rwa [hfile, htime, hopened]

theorem new_untouched (file : Option File) : (FdCtx.new file).1.userNonblock = false ∧
    (FdCtx.new file).1.recvTimeout = -1 ∧ (FdCtx.new file).1.sendTimeout = -1 := by
  cases file <;> exact ⟨rfl, rfl, rfl⟩

theorem new_socket {file : File} (h : file.isSocket = true) : ∃ file',
    (FdCtx.new (some file)).2 = some file' ∧ file'.isSocket = true ∧ file'.nonblock = true := by
  cases hn : file.nonblock with
  | true => exact ⟨file, by simp [FdCtx.new, hn], h, hn⟩
  | false =>
    refine ⟨file.setfl (file.flags ||| oNonblock), by simp [FdCtx.new, h, hn], h, ?_⟩
    simp [File.nonblock_setfl]

/-- A context that is created leaves every file open, and a socket a socket. -/
theorem file_createCtx {fd x : ℕ} {file : File} (hx : (s.createCtx fd).file x = some file) :
    ∃ old, s.file x = some old ∧ (old.isSocket = true → file.isSocket = true) := by
  simp only [Descriptors.createCtx, Function.update_apply] at hx
  split_ifs at hx with hxf
  · cases hfile : s.file fd with
    | none =>
      rw [hfile] at hx
      cases hx
    | some old =>
      refine ⟨old, hxf ▸ hfile, ?_⟩
      intro hsocket
      obtain ⟨file', hnew, hsocket', -⟩ := new_socket hsocket
      rw [hfile, hnew] at hx
      obtain rfl := Option.some.inj hx
      exact hsocket'
  · exact ⟨file, hx, id⟩

theorem Stored.createCtx (h : s.Stored) (fd : ℕ) : (s.createCtx fd).Stored := by
  have hslot := slot_createCtx h.length fd
  refine ⟨?_, ?_, ?_, ?_, ?_⟩
  · have hlen := h.length
    simp only [Descriptors.createCtx, List.length_set]
    split_ifs
    · rw [List.length_append]
      omega
    · exact hlen
  · intro x st hst
    rw [hslot] at hst
    change st.created < s.time + 1
    split_ifs at hst
    · obtain rfl := Option.some.inj hst
      exact Nat.lt_succ_self _
    · exact Nat.lt_succ_of_lt (h.created x st hst)
  · intro x st hst
    rw [hslot] at hst
    split_ifs at hst
    · obtain rfl := Option.some.inj hst
      exact new_untouched _
    · exact h.untouched x st hst
  · intro x file hx
    obtain ⟨old, hold, hsocket⟩ := file_createCtx hx
    exact hsocket (h.socket x old hold)
  · intro x file hx
    obtain ⟨old, hold, -⟩ := file_createCtx hx
    exact Nat.lt_succ_of_lt (h.opened x old hold)

theorem Stored.delCtx (h : s.Stored) (fd : ℕ) : (s.delCtx fd).Stored := by
  have hsame : ∀ x st, (s.delCtx fd).slot x = some st → s.slot x = some st := by
    intro x st hst
    rw [slot_delCtx] at hst
    split_ifs at hst
    exact hst
  have hrest : (s.delCtx fd).file = s.file ∧ (s.delCtx fd).time = s.time ∧
      (s.delCtx fd).opened = s.opened ∧ (s.delCtx fd).datas.length = s.datas.length := by
    unfold Descriptors.delCtx
    split_ifs <;> simp
  obtain ⟨hfile, htime, hopened, hlength⟩ := hrest
  refine ⟨?_, ?_, ?_, ?_, ?_⟩
  · rw [hlength]
    exact h.length
  · intro x st hst
    rw [htime]
    exact h.created x st (hsame x st hst)
  · exact fun x st hst => h.untouched x st (hsame x st hst)
  · rw [hfile]
    exact h.socket
  · rw [hfile, htime, hopened]
    exact h.opened

theorem Stored.openF (h : s.Stored) (fd : ℕ) (flags : BitVec 32) {phase : Fin n → FdPhase} :
    Stored { s with
      file := Function.update s.file fd (some ⟨true, flags⟩)
      opened := Function.update s.opened fd s.time
      time := s.time + 1
      phase := phase
      returned := none } := by
  refine ⟨h.length, ?_, h.untouched, ?_, ?_⟩
  · exact fun x st hst => Nat.lt_succ_of_lt (h.created x st hst)
  · intro x file hx
    simp only [Function.update_apply] at hx
    split_ifs at hx
    · obtain rfl := Option.some.inj hx
      rfl
    · exact h.socket x file hx
  · intro x file hx
    simp only [Function.update_apply] at hx ⊢
    split_ifs at hx ⊢
    · exact Nat.lt_succ_self _
    · exact Nat.lt_succ_of_lt (h.opened x file hx)

theorem Stored.closeF (h : s.Stored) (fd : ℕ) {phase : Fin n → FdPhase} :
    Stored { s with
      file := Function.update s.file fd none
      phase := phase
      returned := none } := by
  have hsame : ∀ x file, Function.update s.file fd none x = some file → s.file x = some file := by
    intro x file hx
    rw [Function.update_apply] at hx
    split_ifs at hx
    exact hx
  exact ⟨h.length, h.created, h.untouched, fun x file hx => h.socket x file (hsame x file hx),
    fun x file hx => h.opened x file (hsame x file hx)⟩

theorem Stored.step {op : FdOp n} (h : s.Stored) (hs : s.step op = some s') : s'.Stored := by
  cases op with
  | openF t fd flags hooked accept =>
    obtain ⟨-, rfl⟩ := Option.ite_some_none_eq_some.mp hs
    exact h.openF fd flags
  | get t =>
    simp only [Descriptors.step] at hs
    split at hs
    · split_ifs at hs <;> obtain rfl := Option.some.inj hs <;> exact h.congr rfl rfl rfl rfl
    · cases hs
  | create t =>
    simp only [Descriptors.step] at hs
    split at hs
    · obtain rfl := Option.some.inj hs
      exact (h.createCtx _).congr rfl rfl rfl rfl
    · cases hs
  | close t fd hooked =>
    obtain ⟨-, rfl⟩ := Option.ite_some_none_eq_some.mp hs
    exact h.congr rfl rfl rfl rfl
  | del t =>
    simp only [Descriptors.step] at hs
    split at hs
    · obtain rfl := Option.some.inj hs
      exact (h.delCtx _).congr rfl rfl rfl rfl
    · cases hs
  | closeF t =>
    simp only [Descriptors.step] at hs
    split at hs
    · obtain rfl := Option.some.inj hs
      exact h.closeF _
    · cases hs

/-- While a number is being opened it is open, and a context it has got since is fresh. -/
structure Inv (s : Descriptors n) : Prop extends Stored s where
  isOpen : ∀ fd, s.Opening fd → ∃ file, s.file fd = some file
  fresh : ∀ fd, s.Opening fd → ∀ st, s.slot fd = some st → s.Fresh fd

theorem new_inv : Inv (new : Descriptors n) where
  toStored := new_stored
  isOpen := by simp [Opening, new, FdPhase.isOpening]
  fresh := by simp [slot_new]

theorem Fresh.congr (h : s.Fresh fd) (hslot : s'.slot fd = s.slot fd)
    (hopened : s'.opened fd = s.opened fd) (hfile : s'.file fd = s.file fd) : s'.Fresh fd := by
  rwa [Fresh, hslot, hopened, hfile]

/-- A thread that does not start to open a number leaves the numbers being opened. -/
theorem opening_of_update {p : FdPhase} (hphase : s'.phase = Function.update s.phase t p)
    (hp : p.isOpening fd = true → (s.phase t).isOpening fd = true) (h : s'.Opening fd) :
    s.Opening fd := by
  obtain ⟨u, hu⟩ := h
  rw [hphase, Function.update_apply] at hu
  split_ifs at hu with hut
  · exact ⟨t, hp hu⟩
  · exact ⟨u, hu⟩

/-- What a step has to show that opens no number for a call with hooking enabled and touches none
that is being opened. -/
theorem Inv.frame (h : s.Inv) (hstored : s'.Stored) (ho : ∀ fd, s'.Opening fd → s.Opening fd)
    (hslot : ∀ fd st, s'.Opening fd → s'.slot fd = some st → s.slot fd = some st)
    (hopened : s'.opened = s.opened) (hfile : ∀ fd, s'.Opening fd → s'.file fd = s.file fd) :
    s'.Inv := by
  refine ⟨hstored, ?_, ?_⟩
  · intro fd hfd
    rw [hfile fd hfd]
    exact h.isOpen fd (ho fd hfd)
  · intro fd hfd st hst
    have hold := hslot fd st hfd hst
    exact (h.fresh fd (ho fd hfd) st hold).congr (hst.trans hold.symm) (congrFun hopened fd)
      (hfile fd hfd)

/-- A step within a call. -/
theorem Inv.setPhase (h : s.Inv) {p : FdPhase} {returned : Option ℕ}
    (hp : ∀ fd, p.isOpening fd = true → (s.phase t).isOpening fd = true) :
    Inv { s.setPhase t p with returned := returned } :=
  h.frame (h.congr rfl rfl rfl rfl) (fun fd => opening_of_update rfl (hp fd))
    (fun _ _ _ hst => hst) rfl (fun _ _ => rfl)

/-- A context created for a number that is being opened is fresh. -/
theorem Inv.fresh_createCtx (h : s.Inv) (ho : s.Opening fd) : (s.createCtx fd).Fresh fd := by
  obtain ⟨file, hfile⟩ := h.isOpen fd ho
  obtain ⟨file', hnew, -, hnonblock⟩ := new_socket (h.socket fd file hfile)
  obtain ⟨huser, hrecv, hsend⟩ := new_untouched (s.file fd)
  have hlt : s.opened fd < s.time := h.opened fd file hfile
  refine ⟨⟨(FdCtx.new (s.file fd)).1, s.time⟩, ?_, hlt, huser, hrecv, hsend, file', ?_, hnonblock⟩
  · rw [slot_createCtx h.length, if_pos rfl]
  · simp [createCtx, hfile, hnew]

theorem Inv.createCtx (h : s.Inv) (fd : ℕ) : (s.createCtx fd).Inv := by
  refine ⟨h.toStored.createCtx fd, ?_, ?_⟩
  · intro x hx
    by_cases hxf : x = fd
    · subst hxf
      obtain ⟨-, -, -, -, -, -, file, hfile, -⟩ := h.fresh_createCtx hx
      exact ⟨file, hfile⟩
    · obtain ⟨file, hfile⟩ := h.isOpen x hx
      exact ⟨file, (Function.update_of_ne hxf ..).trans hfile⟩
  · intro x hx st hst
    by_cases hxf : x = fd
    · subst hxf
      exact h.fresh_createCtx hx
    · have hslot : (s.createCtx fd).slot x = s.slot x := by
        rw [slot_createCtx h.length, if_neg hxf]
      exact (h.fresh x hx st (hslot.symm.trans hst)).congr hslot rfl
        (Function.update_of_ne hxf ..)

theorem Inv.delCtx (h : s.Inv) (fd : ℕ) : (s.delCtx fd).Inv := by
  have hrest : (s.delCtx fd).phase = s.phase ∧ (s.delCtx fd).opened = s.opened ∧
      (s.delCtx fd).file = s.file := by
    unfold Descriptors.delCtx
    split_ifs <;> exact ⟨rfl, rfl, rfl⟩
  obtain ⟨hphase, hopened, hfile⟩ := hrest
  refine h.frame (h.toStored.delCtx fd) ?_ ?_ hopened (fun x _ => congrFun hfile x)
  · intro x hx
    rwa [Opening, hphase] at hx
  · intro x st _ hst
    rw [slot_delCtx] at hst
    split_ifs at hst
    exact hst

/-- The kernel gives a number, without a context if hooking is enabled. -/
theorem Inv.openF (h : s.Inv) (hclosed : s.file fd = none) (flags : BitVec 32) {p : FdPhase}
    (hp : ∀ x, p.isOpening x = true → x = fd ∧ s.slot fd = none) :
    Inv { s.setPhase t p with
      file := Function.update s.file fd (some ⟨true, flags⟩)
      opened := Function.update s.opened fd s.time
      time := s.time + 1
      returned := none } := by
  -- the number was not being opened before, since it was closed
  have hnot : ¬ s.Opening fd := by
    intro ho
    obtain ⟨file, hfile⟩ := h.isOpen fd ho
    rw [hclosed] at hfile
    cases hfile
  have hold : ∀ x, x ≠ fd → (s.setPhase t p).Opening x → s.Opening x :=
    fun x hx => opening_of_update rfl fun hpx => absurd (hp x hpx).1 hx
  refine ⟨h.toStored.openF fd flags, ?_, ?_⟩
  · intro x hx
    by_cases hxf : x = fd
    · subst hxf
      exact ⟨_, Function.update_self ..⟩
    · obtain ⟨file, hfile⟩ := h.isOpen x (hold x hxf hx)
      exact ⟨file, (Function.update_of_ne hxf ..).trans hfile⟩
  · intro x hx st hst
    have hst' : s.slot x = some st := hst
    by_cases hxf : x = fd
    · subst hxf
      have hnone : s.slot x = none := by
        by_contra hsome
        exact hnot (opening_of_update rfl (fun hpx => absurd (hp x hpx).2 hsome) hx)
      rw [hnone] at hst'
      cases hst'
    · exact (h.fresh x (hold x hxf hx) st hst').congr rfl (Function.update_of_ne hxf ..)
        (Function.update_of_ne hxf ..)

/-- A number is closed that is not being opened. -/
theorem Inv.closeF (h : s.Inv) (hnot : ¬ s.Opening fd) :
    Inv { s.setPhase t .outside with
      file := Function.update s.file fd none
      returned := none } := by
  have hold : ∀ x, (s.setPhase t .outside).Opening x → s.Opening x :=
    fun x => opening_of_update rfl (by simp [FdPhase.isOpening])
  refine h.frame (h.toStored.closeF fd) hold (fun _ _ _ hst => hst) rfl ?_
  intro x hx
  have hne : x ≠ fd := by
    rintro rfl
    exact hnot (hold x hx)
  exact Function.update_of_ne hne ..

theorem eq_of_returnFd {hooked : Bool} {x : ℕ}
    (h : (s.returnFd t fd hooked).returned = some x) : hooked = true ∧ fd = x := by
  cases hooked with
  | false => cases h
  | true => exact ⟨rfl, Option.some.inj h⟩

/-- A step keeps the invariant, and what it returns is fresh. -/
theorem Inv.step {op : FdOp n} (h : s.Inv) (hg : s.Paired op) (hs : s.step op = some s') :
    s'.Inv ∧ ∀ fd, s'.returned = some fd → s'.Fresh fd := by
  cases op with
  | openF t x flags hooked accept =>
    obtain ⟨⟨-, hclosed⟩, rfl⟩ := Option.ite_some_none_eq_some.mp hs
    refine ⟨h.openF hclosed flags ?_, fun _ hret => by cases hret⟩
    intro y hy
    split_ifs at hy
    · simp only [FdPhase.isOpening, FdPhase.opened.injEq, reduceCtorEq, or_false,
        decide_eq_true_eq] at hy
      exact ⟨hy.1.symm, hg hy.2⟩
    · simp [FdPhase.isOpening] at hy
  | get t =>
    simp only [Descriptors.step] at hs
    split at hs
    · rename_i fd hooked hp
      by_cases hsome : (s.slot fd).isSome = true
      · rw [if_pos hsome] at hs
        obtain rfl := Option.some.inj hs
        refine ⟨h.setPhase (by simp [FdPhase.isOpening]), ?_⟩
        intro x hx
        obtain ⟨rfl, rfl⟩ := eq_of_returnFd hx
        obtain ⟨st, hst⟩ := Option.isSome_iff_exists.mp hsome
        exact (h.fresh fd ⟨t, by simp [hp, FdPhase.isOpening]⟩ st hst).congr rfl rfl rfl
      · rw [if_neg hsome] at hs
        obtain rfl := Option.some.inj hs
        exact ⟨h.setPhase (by simp [hp, FdPhase.isOpening]), fun _ hret => by cases hret⟩
    · cases hs
  | create t =>
    simp only [Descriptors.step] at hs
    split at hs
    · rename_i fd hooked hp
      obtain rfl := Option.some.inj hs
      refine ⟨(h.createCtx fd).setPhase (by simp [FdPhase.isOpening]), ?_⟩
      intro x hx
      obtain ⟨rfl, rfl⟩ := eq_of_returnFd hx
      exact (h.fresh_createCtx ⟨t, by simp [hp, FdPhase.isOpening]⟩).congr rfl rfl rfl
    · cases hs
  | close t fd hooked =>
    obtain ⟨-, rfl⟩ := Option.ite_some_none_eq_some.mp hs
    refine ⟨h.setPhase ?_, fun _ hret => by cases hret⟩
    split_ifs <;> simp [FdPhase.isOpening]
  | del t =>
    simp only [Descriptors.step] at hs
    split at hs
    · rename_i fd hp
      obtain rfl := Option.some.inj hs
      exact ⟨(h.delCtx fd).setPhase (by simp [FdPhase.isOpening]), fun _ hret => by cases hret⟩
    · cases hs
  | closeF t =>
    simp only [Descriptors.step] at hs
    split at hs
    · rename_i fd hp
      obtain rfl := Option.some.inj hs
      simp only [Paired, hp] at hg
      exact ⟨h.closeF hg, fun _ hret => by cases hret⟩
    · cases hs

/-- A context older than the descriptor is found by the call that opens it. -/
theorem stale_after_openF {flags : BitVec 32} {accept : Bool} (h : s.Stored)
    (hs : s.step (.openF t fd flags true accept) = some s') (hslot : s.slot fd ≠ none) :
    ∃ more u x, Transition.run step s' more = some u ∧ u.returned = some x ∧ ¬ u.Fresh x := by
  obtain ⟨-, hs'⟩ := Option.ite_some_none_eq_some.mp hs
  have hphase : s'.phase t = .opened fd true := by
    rw [← hs']
    exact Function.update_self ..
  have hopened : s'.opened fd = s.time := by
    rw [← hs']
    exact Function.update_self ..
  have hsame : s'.slot fd = s.slot fd := by
    rw [← hs']
    rfl
  have hsome : (s'.slot fd).isSome = true := by
    rw [hsame]
    exact Option.isSome_iff_ne_none.mpr hslot
  refine ⟨[.get t], s'.returnFd t fd true, fd, ?_, rfl, ?_⟩
  · simp [Transition.run, step, hphase, hsome]
  · rintro ⟨st, hst, hlt, -⟩
    change s'.slot fd = some st at hst
    change s'.opened fd < st.created at hlt
    rw [hsame] at hst
    rw [hopened] at hlt
    exact Nat.lt_asymm hlt (h.created fd st hst)

theorem not_fresh_of_closed (hfile : s.file fd = none) : ¬ s.Fresh fd := by
  rintro ⟨-, -, -, -, -, -, file, hopen, -⟩
  rw [hfile] at hopen
  cases hopen

/-- A call that opens a number returns it even though it has been closed again. -/
theorem closed_after_closeF (ho : s.Opening fd) (hfile : s.file fd = none) :
    ∃ more u x, Transition.run step s more = some u ∧ u.returned = some x ∧ ¬ u.Fresh x := by
  obtain ⟨t, ht⟩ := ho
  have hcreate : ((s.createCtx fd).returnFd t fd true).file fd = none := by
    simp [returnFd, setPhase, createCtx, hfile, FdCtx.new]
  simp only [FdPhase.isOpening, decide_eq_true_eq] at ht
  rcases ht with ht | ht
  · by_cases hsome : (s.slot fd).isSome = true
    · refine ⟨[.get t], s.returnFd t fd true, fd, ?_, rfl, not_fresh_of_closed hfile⟩
      simp [Transition.run, step, ht, hsome]
    · refine ⟨[.get t, .create t], _, fd, ?_, rfl, not_fresh_of_closed hcreate⟩
      simp only [Transition.run, step, ht, if_neg hsome, Option.bind_some, setPhase,
        Function.update_self, createCtx, returnFd, Function.update_idem]
  · refine ⟨[.create t], _, fd, ?_, rfl, not_fresh_of_closed hcreate⟩
    simp [Transition.run, step, ht]

/-- In every run in which opens and closes are paired, what a call with hooking enabled returns
is fresh. Whenever a step is not, there are steps after it that end with the return of a number
that is not fresh. -/
theorem returned_fresh_while_paired (ops : List (FdOp n)) (s : Descriptors n)
    (hr : Transition.run step new ops = some s) :
    (Transition.Meets step Paired new ops → ∀ fd, s.returned = some fd → s.Fresh fd) ∧
    ∀ op s', s.step op = some s' → ¬ s.Paired op →
      ∃ more u fd, Transition.run step s' more = some u ∧ u.returned = some fd ∧
        ¬ u.Fresh fd := by
  constructor
  · intro hg
    refine (Transition.run_invariant (fun s => s.Inv ∧ ∀ fd, s.returned = some fd → s.Fresh fd)
      ?_ ⟨new_inv, by simp [new]⟩ hg hr).2
    rintro s op s' ⟨h, -⟩ hop hs
    exact h.step hop hs
  · intro op s' hs hnot
    have hstored : s.Stored := Transition.run_invariant (G := fun _ _ => True) Stored
      (fun _ _ _ h _ => h.step) new_stored (Transition.meets_of_forall (fun _ _ => trivial) _ _) hr
    cases op with
    | openF t fd flags hooked accept =>
      simp only [Paired, Classical.not_imp] at hnot
      obtain ⟨rfl, hslot⟩ := hnot
      exact stale_after_openF hstored hs hslot
    | closeF t =>
      simp only [step] at hs
      split at hs
      swap
      · cases hs
      rename_i fd hp
      obtain rfl := Option.some.inj hs
      simp only [Paired, hp, not_not] at hnot
      obtain ⟨u, hu⟩ := hnot
      have hne : u ≠ t := by
        rintro rfl
        simp [hp, FdPhase.isOpening] at hu
      have hopening : (Function.update s.phase t .outside u).isOpening fd = true := by
        rwa [Function.update_of_ne hne]
      exact closed_after_closeF ⟨u, hopening⟩ (Function.update_self ..)
    | _ => exact absurd trivial hnot

/-- A socket is opened and closed with hooking enabled, and its number is opened again. -/
def reopened (t : Fin 1) : List (FdOp 1) :=
  [.openF t 5 2 true false, .get t, .create t, .close t 5 true, .del t, .closeF t,
    .openF t 5 2 true true, .get t, .create t]

theorem returned_fresh_while_paired_reopened : ∃ s,
    Transition.run step new (reopened 0) = some s ∧ s.returned = some 5 ∧ s.Fresh 5 := by
  have hg : Transition.Meets step Paired (new : Descriptors 1) (reopened 0) := by decide
  exact ⟨_, rfl, rfl, (returned_fresh_while_paired (reopened 0) _ rfl).1 hg 5 rfl⟩

/-- The same with a `close` by a thread without hooking. -/
def closedUnhooked (t u : Fin 2) : List (FdOp 2) :=
  [.openF t 5 2 true false, .get t, .create t, .close u 5 false, .closeF u,
    .openF t 5 2 true false, .get t]

theorem returned_stale_after_unhooked_close : ∃ s,
    Transition.run step new (closedUnhooked 0 1) = some s ∧ s.returned = some 5 ∧ ¬ s.Fresh 5 := by
  refine ⟨_, rfl, rfl, ?_⟩
  rintro ⟨st, hst, hlt, -⟩
  obtain rfl := Option.some.inj hst
  exact absurd hlt (by decide)

end Descriptors

end ServerFramework
