import Mathlib.Data.Fintype.Basic
import ServerFramework.Lib.Transition

/-! # The descriptors of Sockets

A `Socket` keeps the number of its descriptor in `sock_`, without a lock. Threads create and close
descriptors through it and pass the number to system calls, while the kernel gives out the numbers
of closed descriptors again, also to code that has nothing to do with Sockets.
-/

namespace ServerFramework

abbrev SocketId := ℕ

/-- What a descriptor stands for: a file opened for a Socket, or one of other code. -/
inductive OpenFile where
  | of (k : SocketId)
  | other
  deriving DecidableEq, Repr

/-- Who calls `NewSock`. -/
inductive NewSockCaller where
  | createUDP
  | bind
  | connect
  deriving DecidableEq, Repr

/-- Where a thread is in an operation of a Socket. `read` is the number of times that `sock_` had
been cleared when the thread read it. -/
inductive SocketPhase where
  | outside
  /-- Before `IsValid()` in `bind` and `connect`. -/
  | validating (k : SocketId) (caller : NewSockCaller)
  /-- Before `socket` in `NewSock`. -/
  | creating (k : SocketId) (caller : NewSockCaller)
  /-- Before the assignment of `sock_`. -/
  | created (k : SocketId) (fd : Option ℕ) (caller : NewSockCaller)
  /-- Before `sock_` is read for a system call. -/
  | reading (k : SocketId)
  /-- In a system call on the descriptor. -/
  | calling (k : SocketId) (fd : Option ℕ) (read : ℕ)
  /-- Before `sock_` is read for `::connect`. -/
  | dialing (k : SocketId)
  /-- In `::connect`. -/
  | connecting (k : SocketId) (fd : Option ℕ) (read : ℕ)
  /-- In `::accept` on behalf of a new Socket. -/
  | accepting (l : SocketId) (fd : Option ℕ) (read : ℕ) (k : SocketId)
  /-- Before `Init`. -/
  | accepted (k : SocketId) (fd : ℕ)
  /-- In `close`, before its first test. -/
  | closing (k : SocketId) (destroy : Bool)
  /-- Before `is_connected_ = false`. -/
  | disconnecting (k : SocketId) (destroy : Bool)
  /-- Before the test of `sock_`. -/
  | testing (k : SocketId) (destroy : Bool)
  /-- Before `sock_` is read for `::close`. -/
  | passing (k : SocketId) (destroy : Bool)
  /-- In `::close`. -/
  | closeF (k : SocketId) (fd : Option ℕ) (destroy : Bool)
  /-- Before `sock_ = -1`. -/
  | clearing (k : SocketId) (destroy : Bool)
  deriving DecidableEq, Repr

namespace SocketPhase

/-- The Socket that a thread creates or closes a descriptor of. -/
def changes : SocketPhase → Option SocketId
  | outside | reading _ | calling .. => none
  | validating k _ | creating k _ | created k _ _ | dialing k | connecting k _ _ => some k
  | accepting _ _ _ k | accepted k _ => some k
  | closing k _ | disconnecting k _ | testing k _ | passing k _ | closeF k _ _ | clearing k _ =>
    some k

/-- The Socket that a thread passes the descriptor of. -/
def uses : SocketPhase → Option SocketId
  | reading k | calling k _ _ | connecting k _ _ | accepting k _ _ _ => some k
  | _ => none

end SocketPhase

/-- Where `NewSock` returns to. -/
def NewSockCaller.next (k : SocketId) : NewSockCaller → SocketPhase
  | createUDP => .outside
  | bind => .reading k
  | connect => .dialing k

/-- A system call on the descriptor of a Socket: the number passed and what it stood for. The call
is `disturbed` if the descriptor has been closed since the number was read, or the number was read
after `::close` and before `sock_ = -1`. -/
structure SocketCall where
  sock : SocketId
  fd : Option ℕ
  file : Option OpenFile
  disturbed : Bool
  deriving DecidableEq, Repr

/-- The Sockets of a process. -/
structure Sockets (m : ℕ) where
  /-- The kernel's table of descriptors. -/
  file : ℕ → Option OpenFile
  /-- `sock_`. -/
  sock : SocketId → Option ℕ
  isConnected : SocketId → Bool
  phase : Fin m → SocketPhase
  made : ℕ
  destroyed : SocketId → Bool
  /-- How many times `::close` has been called, and `sock_` has been cleared. -/
  closed : SocketId → ℕ
  cleared : SocketId → ℕ
  calls : List SocketCall
  /-- The Sockets that have called `::close`, with what they closed. -/
  closes : List (SocketId × Option OpenFile)

/-- The steps of the threads and of other code. The kernel chooses the numbers of descriptors and
the results of its calls. -/
inductive SocketOp (m : ℕ) where
  | createTCP
  | createUDP (t : Fin m)
  | bind (t : Fin m) (k : SocketId)
  | connect (t : Fin m) (k : SocketId)
  | isValid (t : Fin m)
  | socketF (t : Fin m) (fd : Option ℕ)
  | assign (t : Fin m)
  /-- The address is of another family, or in use. -/
  | refuse (t : Fin m)
  | listen (t : Fin m) (k : SocketId)
  | sendOrRecv (t : Fin m) (k : SocketId)
  | setOption (t : Fin m) (k : SocketId)
  | pass (t : Fin m)
  | call (t : Fin m)
  | connectF (t : Fin m) (ok : Bool)
  | accept (t : Fin m) (l : SocketId)
  | acceptF (t : Fin m) (newsock : Option ℕ)
  | init (t : Fin m) (ok : Bool)
  | close (t : Fin m) (k : SocketId)
  | destroy (t : Fin m) (k : SocketId)
  | test (t : Fin m)
  | disconnect (t : Fin m)
  | testSock (t : Fin m)
  | closeF (t : Fin m)
  | clear (t : Fin m)
  | otherOpen (fd : ℕ)
  | otherClose (fd : ℕ)
  deriving DecidableEq, Repr

namespace Sockets

variable {m : ℕ}

def new (m : ℕ) : Sockets m where
  file := fun _ => none
  sock := fun _ => none
  isConnected := fun _ => false
  phase := fun _ => .outside
  made := 0
  destroyed := fun _ => false
  closed := fun _ => 0
  cleared := fun _ => 0
  calls := []
  closes := []

/-- There is a pointer to the Socket. -/
def Alive (s : Sockets m) (k : SocketId) : Prop := k < s.made ∧ s.destroyed k = false

/-- No thread creates or closes a descriptor of the Socket. -/
def Unchanging (s : Sockets m) (k : SocketId) : Prop := ∀ t, (s.phase t).changes ≠ some k

/-- No thread passes its descriptor to a system call. -/
def Unused (s : Sockets m) (k : SocketId) : Prop := ∀ t, (s.phase t).uses ≠ some k

instance (s : Sockets m) (k : SocketId) : Decidable (s.Alive k) :=
  inferInstanceAs (Decidable (_ ∧ _))

instance (s : Sockets m) (k : SocketId) : Decidable (s.Unchanging k) :=
  inferInstanceAs (Decidable (∀ _, _))

instance (s : Sockets m) (k : SocketId) : Decidable (s.Unused k) :=
  inferInstanceAs (Decidable (∀ _, _))

def setPhase (s : Sockets m) (t : Fin m) (phase : SocketPhase) : Sockets m :=
  { s with phase := Function.update s.phase t phase }

def setSock (s : Sockets m) (k : SocketId) (fd : Option ℕ) : Sockets m :=
  { s with sock := Function.update s.sock k fd }

def setConnected (s : Sockets m) (k : SocketId) (b : Bool) : Sockets m :=
  { s with isConnected := Function.update s.isConnected k b }

def setFile (s : Sockets m) (fd : ℕ) (file : Option OpenFile) : Sockets m :=
  { s with file := Function.update s.file fd file }

/-- The kernel opens a file under a free number. -/
def openFile (s : Sockets m) (fd : ℕ) (file : OpenFile) : Option (Sockets m) :=
  if s.file fd = none then some (s.setFile fd (some file)) else none

/-- A system call is made with the number that was read. -/
def record (s : Sockets m) (k : SocketId) (fd : Option ℕ) (read : ℕ) : Sockets m :=
  { s with calls := s.calls ++ [⟨k, fd, fd.bind s.file, decide (s.closed k ≠ read)⟩] }

/-- `close_f`. -/
def closeFile (s : Sockets m) (k : SocketId) (fd : Option ℕ) : Sockets m where
  file := match fd with
    | some fd => Function.update s.file fd none
    | none => s.file
  sock := s.sock
  isConnected := s.isConnected
  phase := s.phase
  made := s.made
  destroyed := s.destroyed
  closed := Function.update s.closed k (s.closed k + 1)
  cleared := s.cleared
  calls := s.calls
  closes := s.closes ++ [(k, fd.bind s.file)]

def clearSock (s : Sockets m) (k : SocketId) : Sockets m :=
  { s.setSock k none with cleared := Function.update s.cleared k (s.cleared k + 1) }

/-- The end of `close`, or of the destructor. -/
def leave (s : Sockets m) (t : Fin m) (k : SocketId) (destroy : Bool) : Sockets m :=
  { s.setPhase t .outside with
    destroyed := if destroy then Function.update s.destroyed k true else s.destroyed }

/-- A thread outside begins an operation. -/
def enter (s : Sockets m) (t : Fin m) (phase : SocketPhase) : Option (Sockets m) :=
  if s.phase t = .outside then some (s.setPhase t phase) else none

/-- The destructor is only called when no other thread has a pointer to the Socket. -/
def step (s : Sockets m) : SocketOp m → Option (Sockets m)
  | .createTCP => some { s with made := s.made + 1 }
  | .createUDP t => { s with made := s.made + 1 }.enter t (.creating s.made .createUDP)
  | .bind t k => if s.Alive k then s.enter t (.validating k .bind) else none
  | .connect t k => if s.Alive k then s.enter t (.validating k .connect) else none
  | .isValid t =>
    match s.phase t with
    | .validating k caller =>
      some (s.setPhase t (if (s.sock k).isSome then caller.next k else .creating k caller))
    | _ => none
  | .socketF t fd =>
    match s.phase t, fd with
    | .creating k caller, some fd =>
      (s.openFile fd (.of k)).map fun s => s.setPhase t (.created k (some fd) caller)
    | .creating k caller, none => some (s.setPhase t (.created k none caller))
    | _, _ => none
  | .assign t =>
    match s.phase t with
    | .created k fd caller =>
      -- `CreateUDP` does not ask whether there is a descriptor
      let s := s.setSock k fd
      let s := if caller = .createUDP then s.setConnected k true else s
      some (s.setPhase t (if fd.isSome then caller.next k else .outside))
    | _ => none
  | .refuse t =>
    match s.phase t with
    | .reading _ | .dialing _ => some (s.setPhase t .outside)
    | _ => none
  | .listen t k => if s.Alive k ∧ (s.sock k).isSome then s.enter t (.reading k) else none
  | .sendOrRecv t k => if s.Alive k ∧ s.isConnected k then s.enter t (.reading k) else none
  | .setOption t k => if s.Alive k then s.enter t (.reading k) else none
  | .pass t =>
    match s.phase t with
    | .reading k => some (s.setPhase t (.calling k (s.sock k) (s.cleared k)))
    | .dialing k => some (s.setPhase t (.connecting k (s.sock k) (s.cleared k)))
    | .passing k destroy => some (s.setPhase t (.closeF k (s.sock k) destroy))
    | _ => none
  | .call t =>
    match s.phase t with
    | .calling k fd read => some ((s.record k fd read).setPhase t .outside)
    | _ => none
  | .connectF t ok =>
    match s.phase t with
    | .connecting k fd read =>
      let s := s.record k fd read
      some (if ok then (s.setConnected k true).setPhase t .outside
        else s.setPhase t (.closing k false))
    | _ => none
  | .accept t l =>
    if s.Alive l then
      { s with made := s.made + 1 }.enter t (.accepting l (s.sock l) (s.cleared l) s.made)
    else none
  | .acceptF t newsock =>
    match s.phase t, newsock with
    | .accepting l fd read k, some newsock =>
      ((s.record l fd read).openFile newsock (.of k)).map fun s =>
        s.setPhase t (.accepted k newsock)
    | .accepting l fd read k, none => some ((s.record l fd read).leave t k true)
    | _, _ => none
  | .init t ok =>
    match s.phase t with
    | .accepted k fd =>
      some (if ok then ((s.setSock k (some fd)).setConnected k true).setPhase t .outside
        else s.leave t k true)
    | _ => none
  | .close t k => if s.Alive k then s.enter t (.closing k false) else none
  | .destroy t k =>
    if s.Alive k ∧ s.Unchanging k ∧ s.Unused k then s.enter t (.closing k true) else none
  | .test t =>
    match s.phase t with
    | .closing k destroy =>
      some (if !s.isConnected k && (s.sock k).isNone then s.leave t k destroy
        else s.setPhase t (.disconnecting k destroy))
    | _ => none
  | .disconnect t =>
    match s.phase t with
    | .disconnecting k destroy =>
      some ((s.setConnected k false).setPhase t (.testing k destroy))
    | _ => none
  | .testSock t =>
    match s.phase t with
    | .testing k destroy =>
      some (if (s.sock k).isSome then s.setPhase t (.passing k destroy) else s.leave t k destroy)
    | _ => none
  | .closeF t =>
    match s.phase t with
    | .closeF k fd destroy => some ((s.closeFile k fd).setPhase t (.clearing k destroy))
    | _ => none
  | .clear t =>
    match s.phase t with
    | .clearing k destroy => some ((s.clearSock k).leave t k destroy)
    | _ => none
  | .otherOpen fd => s.openFile fd .other
  | .otherClose fd => some (s.setFile fd none)

/-- Nobody creates or closes a descriptor of a Socket while another thread does, what `accept`
returns is known to `FdMgr`, and other code closes its own descriptors. -/
def Alone (s : Sockets m) : SocketOp m → Prop
  | .bind _ k | .connect _ k | .close _ k => s.Unchanging k
  | .init _ ok => ok = true
  | .otherClose fd => s.file fd = some .other
  | _ => True

instance (s : Sockets m) (op : SocketOp m) : Decidable (s.Alone op) := by
  unfold Alone
  split <;> infer_instance

/-- What is right about the descriptors. -/
structure Owned (s : Sockets m) : Prop where
  /-- A descriptor opened for a Socket is in its `sock_`, or about to be. -/
  kept : ∀ fd k, s.file fd = some (.of k) → s.sock k = some fd ∨
    ∃ t, s.phase t = .accepted k fd ∨ ∃ caller, s.phase t = .created k (some fd) caller
  /-- Except for the moment after `::close`, what is in `sock_` has been opened for the Socket. -/
  own : ∀ k fd, s.sock k = some fd → s.file fd = some (.of k) ∨
    ∃ t destroy, s.phase t = .clearing k destroy
  closes : ∀ e ∈ s.closes, e.2 = some (.of e.1)
  calls : ∀ e ∈ s.calls, e.disturbed = false → e.fd.isSome → e.file = some (.of e.sock)
  destroyed : ∀ k, s.destroyed k = true → ∀ fd, s.file fd ≠ some (.of k)

end Sockets

namespace SocketPhase

/-- The descriptor opened for the Socket that a thread in this phase changes. -/
def holds (sock : Option ℕ) : SocketPhase → Option ℕ
  | created _ fd _ => fd
  | accepted _ fd => some fd
  | clearing _ _ => none
  | _ => sock

/-- What the thread relies on. -/
def Fits (sock : Option ℕ) : SocketPhase → Prop
  | creating _ _ | created _ _ _ | accepting _ _ _ _ | accepted _ _ => sock = none
  | passing _ _ => sock.isSome
  | closeF _ fd _ => fd = sock ∧ fd.isSome
  | _ => True

/-- Whether `::close` has been called and `sock_` has not been cleared. -/
def behind : SocketPhase → ℕ
  | clearing _ _ => 1
  | _ => 0

end SocketPhase

namespace Sockets

variable {m : ℕ}

/-- What holds of a Socket that a thread in this phase changes, or nobody. -/
structure Settled (s : Sockets m) (k : SocketId) (phase : SocketPhase) : Prop where
  file : ∀ fd, s.file fd = some (.of k) ↔ phase.holds (s.sock k) = some fd
  fits : phase.Fits (s.sock k)
  closed : s.closed k = s.cleared k + phase.behind

/-- A number that was read is that of the Socket's descriptor, as long as it is not closed. -/
def Passed (s : Sockets m) (k : SocketId) (fd : Option ℕ) (read : ℕ) : Prop :=
  read ≤ s.cleared k ∧ (s.closed k = read → ∀ n ∈ fd, s.file n = some (.of k))

def PassedIn (s : Sockets m) : SocketPhase → Prop
  | .calling k fd read | .connecting k fd read | .accepting k fd read _ => s.Passed k fd read
  | _ => True

structure Inv (s : Sockets m) : Prop where
  alone : ∀ t u k, (s.phase t).changes = some k → (s.phase u).changes = some k → t = u
  changing : ∀ t k, (s.phase t).changes = some k → s.Settled k (s.phase t)
  quiet : ∀ k, s.Unchanging k → s.Settled k .outside
  passed : ∀ t, s.PassedIn (s.phase t)
  /-- Without a pointer to it, a Socket is not touched any more. -/
  gone : ∀ k, ¬ s.Alive k → s.Unchanging k ∧ s.sock k = none
  made : ∀ k, s.destroyed k = true → k < s.made
  calls : ∀ e ∈ s.calls, e.disturbed = false → e.fd.isSome → e.file = some (.of e.sock)
  closes : ∀ e ∈ s.closes, e.2 = some (.of e.1)

variable {s s' : Sockets m} {t : Fin m} {k : SocketId} {phase : SocketPhase}

theorem new_inv (m : ℕ) : (new m).Inv where
  alone := by simp [new, SocketPhase.changes]
  changing := by simp [new, SocketPhase.changes]
  quiet := fun k _ => ⟨by simp [new, SocketPhase.holds], trivial, rfl⟩
  passed := fun t => trivial
  gone := fun k _ => ⟨fun t => by simp [new, SocketPhase.changes], rfl⟩
  made := by simp [new]
  calls := by simp [new]
  closes := by simp [new]

/-- The phase that a Socket is settled in. -/
theorem Inv.exists_settled (h : s.Inv) (k : SocketId) :
    s.Settled k .outside ∨ ∃ t, (s.phase t).changes = some k ∧ s.Settled k (s.phase t) := by
  by_cases hq : s.Unchanging k
  · exact .inl (h.quiet k hq)
  · obtain ⟨t, ht⟩ := not_forall_not.mp hq
    exact .inr ⟨t, ht, h.changing t k ht⟩

theorem Inv.cleared_le (h : s.Inv) (k : SocketId) : s.cleared k ≤ s.closed k := by
  rcases h.exists_settled k with hk | ⟨t, -, hk⟩ <;> exact hk.closed ▸ Nat.le_add_right _ _

/-- What is in `sock_` has been opened for the Socket, unless it is just being closed. -/
theorem Settled.file_of_sock (h : s.Settled k phase) (hb : phase.behind = 0) {n : ℕ}
    (hn : s.sock k = some n) : s.file n = some (.of k) := by
  have hfits := h.fits
  rw [h.file, ← hn]
  cases phase <;> simp_all [SocketPhase.Fits, SocketPhase.holds, SocketPhase.behind]

theorem Inv.passed_now (h : s.Inv) (k : SocketId) : s.Passed k (s.sock k) (s.cleared k) := by
  refine ⟨le_rfl, fun hc n hn => ?_⟩
  rcases h.exists_settled k with hk | ⟨t, -, hk⟩
  · exact hk.file_of_sock rfl hn
  · have hb := hk.closed
    exact hk.file_of_sock (by omega) hn

/-- What another Socket's step leaves alone. -/
structure Frame (s s' : Sockets m) (k : SocketId) : Prop where
  sock : s'.sock k = s.sock k
  closed : s'.closed k = s.closed k
  cleared : s'.cleared k = s.cleared k
  file : ∀ fd, s'.file fd = some (.of k) ↔ s.file fd = some (.of k)

theorem Frame.settled (hf : Frame s s' k) (h : s.Settled k phase) : s'.Settled k phase := by
  refine ⟨fun fd => ?_, ?_, ?_⟩
  · rw [hf.file, hf.sock]
    exact h.file fd
  · rw [hf.sock]
    exact h.fits
  · rw [hf.closed, hf.cleared]
    exact h.closed

/-- The numbers read stay right if the counters only grow and a descriptor is only closed when
`closed` does. -/
theorem Passed.mono {fd : Option ℕ} {read : ℕ} (h : s.Passed k fd read)
    (hle : s.cleared k ≤ s.closed k) (hclosed : s.closed k ≤ s'.closed k)
    (hcleared : s.cleared k ≤ s'.cleared k)
    (hfile : s'.closed k = s.closed k → ∀ n, s.file n = some (.of k) → s'.file n = some (.of k)) :
    s'.Passed k fd read := by
  refine ⟨h.1.trans hcleared, fun hc n hn => ?_⟩
  have hread := h.1
  have hsame : s'.closed k = s.closed k := by omega
  exact hfile hsame n (h.2 (hsame ▸ hc) n hn)

theorem PassedIn.mono (h : s.PassedIn phase)
    (hmono : ∀ k fd read, s.Passed k fd read → s'.Passed k fd read) : s'.PassedIn phase := by
  cases phase with
  | calling k fd read => exact hmono k fd read h
  | connecting k fd read => exact hmono k fd read h
  | accepting k fd read l => exact hmono k fd read h
  | _ => trivial

theorem Settled.outside (h : s.Settled k phase) (hc : phase.changes = none) :
    s.Settled k .outside := by
  cases phase <;> first | exact ⟨h.file, trivial, h.closed⟩ | cases hc

/-- At most this thread changes the Socket, and it changes no other one. -/
structure Mine (s : Sockets m) (t : Fin m) (k : SocketId) : Prop where
  other : ∀ u, u ≠ t → (s.phase u).changes ≠ some k
  self : ∀ j, (s.phase t).changes = some j → j = k

theorem Inv.mine (h : s.Inv) (hc : (s.phase t).changes = some k) : s.Mine t k where
  other := fun u hu hk => hu (h.alone u t k hk hc)
  self := fun _ hj => Option.some.inj (hj.symm.trans hc)

theorem Unchanging.mine (h : s.Unchanging k) (hc : (s.phase t).changes = none) : s.Mine t k where
  other := fun u _ => h u
  self := by simp [hc]

/-- A thread's step that concerns one Socket, which no other thread changes. -/
theorem Inv.update (h : s.Inv) (hphase : s'.phase = Function.update s.phase t phase)
    (hm : s.Mine t k) (hnew : ∀ j, phase.changes = some j → j = k)
    (hframe : ∀ j, j ≠ k → Frame s s' j) (hsettled : s'.Settled k phase)
    (hclosed : s.closed k ≤ s'.closed k) (hcleared : s.cleared k ≤ s'.cleared k)
    (hfile : s'.closed k = s.closed k → ∀ n, s.file n = some (.of k) → s'.file n = some (.of k))
    (hpassed : s'.PassedIn phase)
    (hgone : ∀ j, ¬ s'.Alive j → j ≠ k ∧ ¬ s.Alive j ∨
      j = k ∧ phase.changes = none ∧ s'.sock k = none)
    (hmade : ∀ j, s'.destroyed j = true → j < s'.made)
    (hcalls : ∀ e ∈ s'.calls, e.disturbed = false → e.fd.isSome → e.file = some (.of e.sock))
    (hcloses : ∀ e ∈ s'.closes, e.2 = some (.of e.1)) : s'.Inv := by
  have hself : s'.phase t = phase := by rw [hphase, Function.update_self]
  have hother : ∀ u, u ≠ t → s'.phase u = s.phase u := by
    intro u hu
    rw [hphase, Function.update_of_ne hu]
  have hmono : ∀ j fd read, s.Passed j fd read → s'.Passed j fd read := by
    intro j fd read hp
    by_cases hj : j = k
    · subst hj
      exact hp.mono (h.cleared_le j) hclosed hcleared hfile
    · have hf := hframe j hj
      exact hp.mono (h.cleared_le j) hf.closed.ge hf.cleared.ge fun _ n => (hf.file n).mpr
  refine ⟨?_, ?_, ?_, ?_, ?_, hmade, hcalls, hcloses⟩
  · intro u v j hu hv
    by_cases hut : u = t <;> by_cases hvt : v = t
    · rw [hut, hvt]
    · rw [hut, hself] at hu
      rw [hother v hvt, hnew j hu] at hv
      exact absurd hv (hm.other v hvt)
    · rw [hvt, hself] at hv
      rw [hother u hut, hnew j hv] at hu
      exact absurd hu (hm.other u hut)
    · rw [hother u hut] at hu
      rw [hother v hvt] at hv
      exact h.alone u v j hu hv
  · intro u j hu
    by_cases hut : u = t
    · subst hut
      rw [hself] at hu ⊢
      rw [hnew j hu]
      exact hsettled
    · rw [hother u hut] at hu ⊢
      have hj : j ≠ k := fun hj => hm.other u hut (hj ▸ hu)
      exact (hframe j hj).settled (h.changing u j hu)
  · intro j hj
    by_cases hjk : j = k
    · subst hjk
      apply hsettled.outside
      cases hc : phase.changes with
      | none => rfl
      | some i => exact absurd (hself.symm ▸ hnew i hc ▸ hc) (hj t)
    · refine (hframe j hjk).settled (h.quiet j fun u hu => ?_)
      by_cases hut : u = t
      · exact hjk (hm.self j (hut ▸ hu))
      · exact hj u ((hother u hut).symm ▸ hu)
  · intro u
    by_cases hut : u = t
    · rwa [hut, hself]
    · exact hother u hut ▸ (h.passed u).mono hmono
  · intro j hj
    rcases hgone j hj with ⟨hjk, hj⟩ | ⟨rfl, hc, hs⟩
    · obtain ⟨hquiet, hsock⟩ := h.gone j hj
      refine ⟨fun u hu => ?_, (hframe j hjk).sock.trans hsock⟩
      by_cases hut : u = t
      · rw [hut, hself] at hu
        exact hjk (hnew j hu)
      · exact hquiet u ((hother u hut) ▸ hu)
    · refine ⟨fun u hu => ?_, hs⟩
      by_cases hut : u = t
      · rw [hut, hself, hc] at hu
        cases hu
      · exact hm.other u hut ((hother u hut) ▸ hu)

theorem Inv.alive (h : s.Inv) (hc : (s.phase t).changes = some k) : s.Alive k := by
  by_contra ha
  exact (h.gone k ha).1 t hc

/-- Nothing but the phase of the thread changes. -/
theorem Inv.setPhase (h : s.Inv) (hm : s.Mine t k) (hnew : ∀ j, phase.changes = some j → j = k)
    (hsettled : s.Settled k phase) (hpassed : s.PassedIn phase)
    (ha : s.Alive k ∨ phase.changes = none) : (s.setPhase t phase).Inv := by
  refine h.update rfl hm hnew (fun j _ => ⟨rfl, rfl, rfl, fun _ => Iff.rfl⟩)
    ⟨hsettled.file, hsettled.fits, hsettled.closed⟩ le_rfl le_rfl (fun _ _ => id) hpassed ?_
    h.made h.calls h.closes
  intro j hj
  by_cases hjk : j = k
  · subst hjk
    exact .inr ⟨rfl, ha.resolve_left hj, (h.gone j hj).2⟩
  · exact .inl ⟨hjk, hj⟩

/-- A thread goes on with the Socket that it changes. -/
theorem Inv.move (h : s.Inv) (hc : (s.phase t).changes = some k)
    (hnew : ∀ j, phase.changes = some j → j = k) (hsettled : s.Settled k phase)
    (hpassed : s.PassedIn phase) : (s.setPhase t phase).Inv :=
  h.setPhase (h.mine hc) hnew hsettled hpassed (.inl (h.alive hc))

/-- A thread that changes no Socket does not begin to. -/
theorem Inv.stay (h : s.Inv) (hold : (s.phase t).changes = none) (hnew : phase.changes = none)
    (hpassed : s.PassedIn phase) : (s.setPhase t phase).Inv := by
  have hfresh : ¬ s.Alive s.made := fun ha => lt_irrefl _ ha.1
  have hquiet := (h.gone s.made hfresh).1
  have hsettled := h.quiet s.made hquiet
  refine h.setPhase (hquiet.mine hold) (by simp [hnew]) ?_ hpassed (.inr hnew)
  cases phase <;> first | exact ⟨hsettled.file, trivial, hsettled.closed⟩ | cases hnew

theorem Inv.setConnected (h : s.Inv) (k : SocketId) (b : Bool) : (s.setConnected k b).Inv where
  alone := h.alone
  changing := fun t k hc => ⟨(h.changing t k hc).file, (h.changing t k hc).fits,
    (h.changing t k hc).closed⟩
  quiet := fun k hq => ⟨(h.quiet k hq).file, trivial, (h.quiet k hq).closed⟩
  passed := h.passed
  gone := h.gone
  made := h.made
  calls := h.calls
  closes := h.closes

/-- A call with a number that is right unless it is disturbed. -/
theorem Inv.record (h : s.Inv) {fd : Option ℕ} {read : ℕ} (hp : s.Passed k fd read) :
    (s.record k fd read).Inv where
  alone := h.alone
  changing := fun t k hc => ⟨(h.changing t k hc).file, (h.changing t k hc).fits,
    (h.changing t k hc).closed⟩
  quiet := fun k hq => ⟨(h.quiet k hq).file, trivial, (h.quiet k hq).closed⟩
  passed := h.passed
  gone := h.gone
  made := h.made
  calls := by
    intro e he hd hs
    rcases List.mem_append.mp he with he | he
    · exact h.calls e he hd hs
    · obtain rfl := List.mem_singleton.mp he
      obtain ⟨n, rfl⟩ := Option.isSome_iff_exists.mp hs
      exact hp.2 (by simpa using hd) n rfl
  closes := h.closes

theorem Inv.made_leave (h : s.Inv) (hc : (s.phase t).changes = some k) (destroy : Bool) :
    ∀ j, (s.leave t k destroy).destroyed j = true → j < s.made := by
  intro j hj
  cases destroy with
  | false => exact h.made j hj
  | true =>
    by_cases hjk : j = k
    · exact hjk ▸ (h.alive hc).1
    · exact h.made j (by simpa [Sockets.leave, hjk] using hj)

theorem Inv.not_destroyed (h : s.Inv) : s.destroyed s.made = false := by
  by_contra hd
  exact lt_irrefl _ (h.made s.made (by simpa using hd))

/-- The end of an operation that leaves nothing behind. -/
theorem Inv.leave (h : s.Inv) (hc : (s.phase t).changes = some k) (hs : s.Settled k .outside)
    (destroy : Bool) (hd : destroy = true → s.sock k = none) : (s.leave t k destroy).Inv := by
  refine h.update rfl (h.mine hc) (by simp [SocketPhase.changes])
    (fun j _ => ⟨rfl, rfl, rfl, fun _ => Iff.rfl⟩) ⟨hs.file, trivial, hs.closed⟩ le_rfl le_rfl
    (fun _ _ => id) trivial ?_ ?_ h.calls h.closes
  intro j hj
  by_cases hjk : j = k
  · subst hjk
    cases destroy with
    | true => exact .inr ⟨rfl, rfl, hd rfl⟩
    | false => exact absurd (h.alive hc) hj
  · refine .inl ⟨hjk, fun ha => hj ⟨ha.1, ?_⟩⟩
    cases destroy with
    | true => simpa [Sockets.leave, hjk] using ha.2
    | false => exact ha.2
  · exact h.made_leave hc destroy

/-- `new Socket`. -/
theorem Inv.construct (h : s.Inv) : { s with made := s.made + 1 }.Inv where
  alone := h.alone
  changing := fun t k hc => ⟨(h.changing t k hc).file, (h.changing t k hc).fits,
    (h.changing t k hc).closed⟩
  quiet := fun k hq => ⟨(h.quiet k hq).file, trivial, (h.quiet k hq).closed⟩
  passed := h.passed
  gone := fun k hk => h.gone k fun ha => hk ⟨ha.1.trans (Nat.lt_succ_self _), ha.2⟩
  made := fun k hk => (h.made k hk).trans (Nat.lt_succ_self _)
  calls := h.calls
  closes := h.closes

theorem file_setFile_of_ne {fd : ℕ} {file : Option OpenFile} (hnew : file ≠ some (.of k))
    (hold : s.file fd ≠ some (.of k)) (n : ℕ) :
    (s.setFile fd file).file n = some (.of k) ↔ s.file n = some (.of k) := by
  by_cases hn : n = fd
  · subst hn
    simp [setFile, hnew, hold]
  · simp [setFile, hn]

/-- Other code opens or closes a descriptor of its own. -/
theorem Inv.setFile_other (h : s.Inv) {fd : ℕ} {file : Option OpenFile}
    (hnew : ∀ k, file ≠ some (.of k)) (hold : ∀ k, s.file fd ≠ some (.of k)) :
    (s.setFile fd file).Inv := by
  have hfile : ∀ k n, (s.setFile fd file).file n = some (.of k) ↔ s.file n = some (.of k) :=
    fun k n => file_setFile_of_ne (hnew k) (hold k) n
  have hframe : ∀ k, Frame s (s.setFile fd file) k := fun k => ⟨rfl, rfl, rfl, hfile k⟩
  exact ⟨h.alone, fun t k hc => (hframe k).settled (h.changing t k hc),
    fun k hq => (hframe k).settled (h.quiet k hq), fun t => (h.passed t).mono fun k _ _ hp =>
      hp.mono (h.cleared_le k) le_rfl le_rfl fun _ n => (hfile k n).mpr, h.gone, h.made,
    h.calls, h.closes⟩

/-- The kernel opens a file for a Socket that has none. -/
theorem Inv.open (h : s.Inv) (hc : (s.phase t).changes = some k) (hfits : s.sock k = none)
    (hsettled : s.Settled k .outside) {fd : ℕ} (hfree : s.file fd = none)
    (hnew : phase.changes = some k) (hphase : phase.Fits none) (hholds : phase.holds none = some fd)
    (hbehind : phase.behind = 0) (hpassed : ∀ s : Sockets m, s.PassedIn phase) :
    ((s.setFile fd (some (.of k))).setPhase t phase).Inv := by
  have hnone : ∀ n, s.file n ≠ some (.of k) := by
    intro n hn
    have hs : s.sock k = some n := (hsettled.file n).mp hn
    rw [hfits] at hs
    cases hs
  refine h.update rfl (h.mine hc) (fun j hj => Option.some.inj (hj.symm.trans hnew)) ?_ ⟨?_, ?_, ?_⟩
    le_rfl le_rfl ?_ (hpassed _) ?_ h.made h.calls h.closes
  · intro j hj
    refine ⟨rfl, rfl, rfl, file_setFile_of_ne (fun he => hj ?_) (by simp [hfree])⟩
    exact (OpenFile.of.inj (Option.some.inj he)).symm
  · intro n
    have hs : ((s.setFile fd (some (.of k))).setPhase t phase).sock k = none := hfits
    rw [hs, hholds]
    by_cases hn : n = fd
    · subst hn
      simp [Sockets.setPhase, setFile]
    · have hne : fd ≠ n := fun he => hn he.symm
      simpa [Sockets.setPhase, setFile, hn, hne] using hnone n
  · exact hfits.symm ▸ hphase
  · rw [hbehind]
    exact hsettled.closed
  · intro _ n hn
    exact absurd hn (hnone n)
  · intro j hj
    refine .inl ⟨?_, hj⟩
    rintro rfl
    exact hj (h.alive hc)

/-- A descriptor that has been opened for the Socket gets into `sock_`. -/
theorem Inv.setSock (h : s.Inv) (hc : (s.phase t).changes = some k) {fd : Option ℕ}
    (hsettled : s.Settled k (s.phase t)) (hholds : (s.phase t).holds (s.sock k) = fd)
    (hbehind : (s.phase t).behind = 0) (hnew : ∀ j, phase.changes = some j → j = k)
    (hphase : ∀ sock, phase.holds sock = sock ∧ phase.behind = 0 ∧ phase.Fits sock)
    (hpassed : ∀ s : Sockets m, s.PassedIn phase) :
    ((s.setSock k fd).setPhase t phase).Inv := by
  obtain ⟨hself, hzero, hfits⟩ := hphase fd
  have hsock : ((s.setSock k fd).setPhase t phase).sock k = fd := by
    simp [Sockets.setPhase, Sockets.setSock]
  refine h.update rfl (h.mine hc) hnew ?_ ⟨?_, ?_, ?_⟩ le_rfl le_rfl (fun _ _ => id) (hpassed _) ?_
    h.made h.calls h.closes
  · intro j hj
    refine ⟨?_, rfl, rfl, fun _ => Iff.rfl⟩
    simp [Sockets.setPhase, Sockets.setSock, hj]
  · intro n
    rw [hsock, hself, ← hholds]
    exact hsettled.file n
  · rwa [hsock]
  · rw [hzero, ← hbehind]
    exact hsettled.closed
  · intro j hj
    refine .inl ⟨?_, hj⟩
    rintro rfl
    exact hj (h.alive hc)

/-- `::close` closes the descriptor of the Socket. -/
theorem Inv.closeFile (h : s.Inv) {fd : Option ℕ} {destroy : Bool}
    (hp : s.phase t = .closeF k fd destroy) :
    ((s.closeFile k fd).setPhase t (.clearing k destroy)).Inv := by
  have hc : (s.phase t).changes = some k := by rw [hp, SocketPhase.changes]
  have hsettled := hp ▸ h.changing t k hc
  obtain ⟨hsock, hsome⟩ := hsettled.fits
  obtain ⟨n, rfl⟩ := Option.isSome_iff_exists.mp hsome
  have hfile : ∀ x, s.file x = some (.of k) ↔ n = x := by
    intro x
    rw [hsettled.file]
    simp [SocketPhase.holds, ← hsock]
  have hclosed : s.closed k = s.cleared k := hsettled.closed
  refine h.update rfl (h.mine hc) (by simp [SocketPhase.changes]) ?_ ⟨?_, trivial, ?_⟩ ?_ le_rfl ?_
    trivial ?_ h.made h.calls ?_
  · intro j hj
    refine ⟨rfl, ?_, rfl, fun x => ?_⟩
    · simp [Sockets.closeFile, Sockets.setPhase, hj]
    · apply file_setFile_of_ne (by simp)
      rw [(hfile n).mpr rfl]
      exact fun he => hj (OpenFile.of.inj (Option.some.inj he)).symm
  · intro x
    by_cases hx : x = n
    · simp [Sockets.closeFile, Sockets.setPhase, hx, SocketPhase.holds]
    · have hne : s.file x ≠ some (.of k) := fun he => hx ((hfile x).mp he).symm
      simpa [Sockets.closeFile, Sockets.setPhase, hx, SocketPhase.holds] using hne
  · simp [Sockets.closeFile, Sockets.setPhase, SocketPhase.behind, hclosed]
  · simp [Sockets.closeFile, Sockets.setPhase]
  · intro he
    simp [Sockets.closeFile, Sockets.setPhase] at he
  · intro j hj
    refine .inl ⟨?_, hj⟩
    rintro rfl
    exact hj (h.alive hc)
  · intro e he
    rcases List.mem_append.mp he with he | he
    · exact h.closes e he
    · obtain rfl := List.mem_singleton.mp he
      exact (hfile n).mpr rfl

/-- `sock_ = -1`. -/
theorem Inv.clearSock (h : s.Inv) {destroy : Bool} (hp : s.phase t = .clearing k destroy) :
    ((s.clearSock k).leave t k destroy).Inv := by
  have hc : (s.phase t).changes = some k := by rw [hp, SocketPhase.changes]
  have hsettled := hp ▸ h.changing t k hc
  have hclosed : s.closed k = s.cleared k + 1 := hsettled.closed
  have hsock : ((s.clearSock k).leave t k destroy).sock k = none := by
    simp [Sockets.clearSock, Sockets.leave, Sockets.setPhase, Sockets.setSock]
  refine h.update rfl (h.mine hc) (by simp [SocketPhase.changes]) ?_ ⟨?_, trivial, ?_⟩ le_rfl ?_
    (fun _ _ => id) trivial ?_ ?_ h.calls h.closes
  · intro j hj
    refine ⟨?_, rfl, ?_, fun _ => Iff.rfl⟩
    all_goals simp [Sockets.clearSock, Sockets.leave, Sockets.setPhase, Sockets.setSock, hj]
  · intro x
    rw [hsock]
    exact hsettled.file x
  · simpa [Sockets.clearSock, Sockets.leave, Sockets.setPhase, Sockets.setSock,
      SocketPhase.behind] using hclosed
  · simp [Sockets.clearSock, Sockets.leave, Sockets.setPhase, Sockets.setSock]
  · intro j hj
    by_cases hjk : j = k
    · exact .inr ⟨hjk, rfl, hsock⟩
    · refine .inl ⟨hjk, fun ha => hj ⟨ha.1, ?_⟩⟩
      cases destroy with
      | true => simpa [Sockets.clearSock, Sockets.setSock, Sockets.leave, hjk] using ha.2
      | false => exact ha.2
  · exact h.made_leave hc destroy

/-- A thread begins to change a Socket that no other thread changes. -/
theorem Inv.enter (h : s.Inv) (hs : s.enter t phase = some s') (ha : s.Alive k)
    (hq : s.Unchanging k) (hnew : phase.changes = some k) (hpassed : s.PassedIn phase)
    (hsettled : s.Settled k .outside → s.Settled k phase) : s'.Inv := by
  obtain ⟨hout, rfl⟩ := Option.ite_some_none_eq_some.mp hs
  exact h.setPhase (hq.mine (by rw [hout, SocketPhase.changes]))
    (fun j hj => Option.some.inj (hj.symm.trans hnew)) (hsettled (h.quiet k hq)) hpassed (.inl ha)

theorem NewSockCaller.next_plain (caller : NewSockCaller) :
    (∀ j, (caller.next k).changes = some j → j = k) ∧
      (∀ sock, (caller.next k).holds sock = sock ∧ (caller.next k).behind = 0 ∧
        (caller.next k).Fits sock) ∧ ∀ s : Sockets m, s.PassedIn (caller.next k) := by
  cases caller <;>
    simp [NewSockCaller.next, SocketPhase.changes, SocketPhase.holds, SocketPhase.behind,
      SocketPhase.Fits, PassedIn, eq_comm]

/-- A phase in which nothing more is known. -/
theorem Settled.plain (h : s.Settled k .outside)
    (hphase : ∀ sock, phase.holds sock = sock ∧ phase.behind = 0 ∧ phase.Fits sock) :
    s.Settled k phase := by
  obtain ⟨hholds, hbehind, hfits⟩ := hphase (s.sock k)
  refine ⟨fun fd => ?_, hfits, ?_⟩
  · rw [hholds]
    exact h.file fd
  · rw [hbehind]
    exact h.closed

theorem Settled.of_phase (h : s.Settled k phase) (hholds : phase.holds (s.sock k) = s.sock k)
    (hbehind : phase.behind = 0) : s.Settled k .outside := by
  refine ⟨fun fd => ?_, trivial, ?_⟩
  · rw [h.file fd, hholds]
    rfl
  · rw [h.closed, hbehind]
    rfl

/-- What is known in a phase that changes a Socket. -/
theorem Inv.of_phase (h : s.Inv) (hp : s.phase t = phase) (hc : phase.changes = some k) :
    (s.phase t).changes = some k ∧ s.Settled k phase := by
  subst hp
  exact ⟨hc, h.changing t k hc⟩

/-- A call that only passes the descriptor on. -/
theorem Inv.enter_reading (h : s.Inv) (hs : s.enter t (.reading k) = some s') : s'.Inv := by
  obtain ⟨hout, rfl⟩ := Option.ite_some_none_eq_some.mp hs
  exact h.stay (by rw [hout, SocketPhase.changes]) rfl trivial

theorem Inv.step_createUDP (h : s.Inv) (hs : s.step (.createUDP t) = some s') : s'.Inv := by
  have hfresh : ¬ s.Alive s.made := fun ha => lt_irrefl _ ha.1
  obtain ⟨hquiet, hsock⟩ := h.gone s.made hfresh
  exact h.construct.enter hs ⟨Nat.lt_succ_self _, h.not_destroyed⟩ hquiet rfl trivial fun hk =>
    ⟨hk.file, hsock, hk.closed⟩

theorem Inv.step_isValid (h : s.Inv) (hs : s.step (.isValid t) = some s') : s'.Inv := by
  simp only [Sockets.step] at hs
  split at hs
  case h_1 k caller hp =>
    obtain rfl := Option.some.inj hs
    obtain ⟨hc, hk⟩ := h.of_phase hp rfl
    obtain ⟨hnew, hplain, hpassed⟩ := NewSockCaller.next_plain (m := m) (k := k) caller
    split_ifs with hv
    · exact h.move hc hnew ((hk.of_phase rfl rfl).plain hplain) (hpassed s)
    · exact h.move hc (by simp [SocketPhase.changes, eq_comm])
        ⟨hk.file, by simpa [SocketPhase.Fits] using hv, hk.closed⟩ trivial
  case h_2 => cases hs

theorem Inv.step_socketF {fd : Option ℕ} (h : s.Inv) (hs : s.step (.socketF t fd) = some s') :
    s'.Inv := by
  simp only [Sockets.step] at hs
  split at hs
  case h_1 k caller fd hp =>
    obtain ⟨hc, hk⟩ := h.of_phase hp rfl
    obtain ⟨s₁, hs₁, rfl⟩ := Option.map_eq_some_iff.mp hs
    obtain ⟨hfree, rfl⟩ := Option.ite_some_none_eq_some.mp hs₁
    exact h.open hc hk.fits (hk.of_phase rfl rfl) hfree rfl rfl rfl rfl fun _ => trivial
  case h_2 k caller hp =>
    obtain ⟨hc, hk⟩ := h.of_phase hp rfl
    obtain rfl := Option.some.inj hs
    have hnone : s.sock k = none := hk.fits
    refine h.move hc (by simp [SocketPhase.changes, eq_comm]) ⟨?_, hnone, hk.closed⟩ trivial
    intro fd
    rw [hk.file, ← hnone]
    rfl
  case h_3 => cases hs

theorem Inv.step_assign (h : s.Inv) (hs : s.step (.assign t) = some s') : s'.Inv := by
  simp only [Sockets.step] at hs
  split at hs
  case h_1 k fd caller hp =>
    obtain ⟨hc, hk⟩ := h.of_phase hp rfl
    obtain rfl := Option.some.inj hs
    obtain ⟨hnew, hplain, hpassed⟩ := NewSockCaller.next_plain (m := m) (k := k) caller
    have hset : ((s.setSock k fd).setPhase t
        (if fd.isSome then caller.next k else .outside)).Inv := by
      split_ifs
      · exact h.setSock hc (hp ▸ hk) (by rw [hp, SocketPhase.holds]) (by rw [hp]; rfl) hnew hplain
          hpassed
      · exact h.setSock hc (hp ▸ hk) (by rw [hp, SocketPhase.holds]) (by rw [hp]; rfl)
          (by simp [SocketPhase.changes]) (fun _ => ⟨rfl, rfl, trivial⟩) fun _ => trivial
    by_cases hcaller : caller = .createUDP
    · subst hcaller
      exact hset.setConnected k true
    · simpa only [if_neg hcaller] using hset
  case h_2 => cases hs

theorem Inv.step_refuse (h : s.Inv) (hs : s.step (.refuse t) = some s') : s'.Inv := by
  simp only [Sockets.step] at hs
  split at hs
  case h_1 k hp =>
    obtain rfl := Option.some.inj hs
    exact h.stay (by rw [hp, SocketPhase.changes]) rfl trivial
  case h_2 k hp =>
    obtain ⟨hc, hk⟩ := h.of_phase hp rfl
    obtain rfl := Option.some.inj hs
    exact h.move hc (by simp [SocketPhase.changes]) (hk.of_phase rfl rfl) trivial
  case h_3 => cases hs

theorem Inv.step_pass (h : s.Inv) (hs : s.step (.pass t) = some s') : s'.Inv := by
  simp only [Sockets.step] at hs
  split at hs
  case h_1 k hp =>
    obtain rfl := Option.some.inj hs
    exact h.stay (by rw [hp, SocketPhase.changes]) rfl (h.passed_now k)
  case h_2 k hp =>
    obtain ⟨hc, hk⟩ := h.of_phase hp rfl
    obtain rfl := Option.some.inj hs
    exact h.move hc (by simp [SocketPhase.changes, eq_comm]) ⟨hk.file, trivial, hk.closed⟩
      (h.passed_now k)
  case h_3 k destroy hp =>
    obtain ⟨hc, hk⟩ := h.of_phase hp rfl
    obtain rfl := Option.some.inj hs
    exact h.move hc (by simp [SocketPhase.changes, eq_comm])
      ⟨hk.file, ⟨rfl, hk.fits⟩, hk.closed⟩ trivial
  case h_4 => cases hs

theorem Inv.step_call (h : s.Inv) (hs : s.step (.call t) = some s') : s'.Inv := by
  simp only [Sockets.step] at hs
  split at hs
  case h_1 k fd read hp =>
    obtain rfl := Option.some.inj hs
    have hpassed : s.Passed k fd read := by simpa [hp, PassedIn] using h.passed t
    have hnone : (s.phase t).changes = none := by rw [hp, SocketPhase.changes]
    exact (h.record hpassed).stay hnone rfl trivial
  case h_2 => cases hs

theorem Inv.step_connectF {ok : Bool} (h : s.Inv) (hs : s.step (.connectF t ok) = some s') :
    s'.Inv := by
  simp only [Sockets.step] at hs
  split at hs
  case h_1 k fd read hp =>
    obtain rfl := Option.some.inj hs
    have hpassed : s.Passed k fd read := by simpa [hp, PassedIn] using h.passed t
    obtain ⟨hc, hk⟩ := (h.record hpassed).of_phase hp rfl
    split_ifs
    · exact ((h.record hpassed).setConnected k true).move hc (by simp [SocketPhase.changes])
        ⟨hk.file, trivial, hk.closed⟩ trivial
    · exact (h.record hpassed).move hc (by simp [SocketPhase.changes, eq_comm])
        ⟨hk.file, trivial, hk.closed⟩ trivial
  case h_2 => cases hs

theorem Inv.step_accept {l : SocketId} (h : s.Inv) (hs : s.step (.accept t l) = some s') :
    s'.Inv := by
  obtain ⟨ha, hs⟩ := Option.ite_none_right_eq_some.mp hs
  have hfresh : ¬ s.Alive s.made := fun ha => lt_irrefl _ ha.1
  obtain ⟨hquiet, hsock⟩ := h.gone s.made hfresh
  exact h.construct.enter hs ⟨Nat.lt_succ_self _, h.not_destroyed⟩ hquiet rfl (h.passed_now l)
    fun hk => ⟨hk.file, hsock, hk.closed⟩

theorem Inv.step_acceptF {newsock : Option ℕ} (h : s.Inv)
    (hs : s.step (.acceptF t newsock) = some s') : s'.Inv := by
  simp only [Sockets.step] at hs
  split at hs
  case h_1 l fd read k newsock hp =>
    have hpassed : s.Passed l fd read := by simpa [hp, PassedIn] using h.passed t
    obtain ⟨hc, hk⟩ := (h.record hpassed).of_phase hp rfl
    obtain ⟨s₁, hs₁, rfl⟩ := Option.map_eq_some_iff.mp hs
    obtain ⟨hfree, rfl⟩ := Option.ite_some_none_eq_some.mp hs₁
    exact (h.record hpassed).open hc hk.fits (hk.of_phase rfl rfl) hfree rfl rfl rfl rfl
      fun _ => trivial
  case h_2 l fd read k hp =>
    have hpassed : s.Passed l fd read := by simpa [hp, PassedIn] using h.passed t
    obtain ⟨hc, hk⟩ := (h.record hpassed).of_phase hp rfl
    obtain rfl := Option.some.inj hs
    exact (h.record hpassed).leave hc (hk.of_phase rfl rfl) true fun _ => hk.fits
  case h_3 => cases hs

theorem Inv.step_init (h : s.Inv) (hs : s.step (.init t true) = some s') : s'.Inv := by
  simp only [Sockets.step] at hs
  split at hs
  case h_1 k fd hp =>
    obtain ⟨hc, hk⟩ := h.of_phase hp rfl
    obtain rfl := Option.some.inj hs
    have hset : ((s.setSock k (some fd)).setPhase t .outside).Inv :=
      h.setSock hc (hp ▸ hk) (by rw [hp, SocketPhase.holds]) (by rw [hp]; rfl)
        (by simp [SocketPhase.changes]) (fun _ => ⟨rfl, rfl, trivial⟩) fun _ => trivial
    exact hset.setConnected k true
  case h_2 => cases hs

theorem Inv.step_destroy (h : s.Inv) (hs : s.step (.destroy t k) = some s') : s'.Inv := by
  obtain ⟨⟨ha, hq, -⟩, hs⟩ := Option.ite_none_right_eq_some.mp hs
  exact h.enter hs ha hq rfl trivial fun hk => ⟨hk.file, trivial, hk.closed⟩

theorem Inv.step_test (h : s.Inv) (hs : s.step (.test t) = some s') : s'.Inv := by
  simp only [Sockets.step] at hs
  split at hs
  case h_1 k destroy hp =>
    obtain ⟨hc, hk⟩ := h.of_phase hp rfl
    obtain rfl := Option.some.inj hs
    split_ifs with hn
    · exact h.leave hc (hk.of_phase rfl rfl) destroy fun _ => by simp_all
    · exact h.move hc (by simp [SocketPhase.changes, eq_comm]) ⟨hk.file, trivial, hk.closed⟩
        trivial
  case h_2 => cases hs

theorem Inv.step_disconnect (h : s.Inv) (hs : s.step (.disconnect t) = some s') : s'.Inv := by
  simp only [Sockets.step] at hs
  split at hs
  case h_1 k destroy hp =>
    obtain ⟨hc, hk⟩ := h.of_phase hp rfl
    obtain rfl := Option.some.inj hs
    exact (h.setConnected k false).move hc (by simp [SocketPhase.changes, eq_comm])
      ⟨hk.file, trivial, hk.closed⟩ trivial
  case h_2 => cases hs

theorem Inv.step_testSock (h : s.Inv) (hs : s.step (.testSock t) = some s') : s'.Inv := by
  simp only [Sockets.step] at hs
  split at hs
  case h_1 k destroy hp =>
    obtain ⟨hc, hk⟩ := h.of_phase hp rfl
    obtain rfl := Option.some.inj hs
    split_ifs with hv
    · exact h.move hc (by simp [SocketPhase.changes, eq_comm]) ⟨hk.file, hv, hk.closed⟩ trivial
    · exact h.leave hc (hk.of_phase rfl rfl) destroy fun _ => by simpa using hv
  case h_2 => cases hs

theorem Inv.step_closeF (h : s.Inv) (hs : s.step (.closeF t) = some s') : s'.Inv := by
  simp only [Sockets.step] at hs
  split at hs
  case h_1 k fd destroy hp =>
    obtain rfl := Option.some.inj hs
    exact h.closeFile hp
  case h_2 => cases hs

theorem Inv.step_clear (h : s.Inv) (hs : s.step (.clear t) = some s') : s'.Inv := by
  simp only [Sockets.step] at hs
  split at hs
  case h_1 k destroy hp =>
    obtain rfl := Option.some.inj hs
    exact h.clearSock hp
  case h_2 => cases hs

theorem Inv.step {op : SocketOp m} (h : s.Inv) (hg : s.Alone op) (hs : s.step op = some s') :
    s'.Inv := by
  cases op with
  | createTCP =>
    obtain rfl := Option.some.inj hs
    exact h.construct
  | createUDP t => exact h.step_createUDP hs
  | bind t k =>
    obtain ⟨ha, hs⟩ := Option.ite_none_right_eq_some.mp hs
    exact h.enter hs ha hg rfl trivial fun hk => ⟨hk.file, trivial, hk.closed⟩
  | connect t k =>
    obtain ⟨ha, hs⟩ := Option.ite_none_right_eq_some.mp hs
    exact h.enter hs ha hg rfl trivial fun hk => ⟨hk.file, trivial, hk.closed⟩
  | isValid t => exact h.step_isValid hs
  | socketF t fd => exact h.step_socketF hs
  | assign t => exact h.step_assign hs
  | refuse t => exact h.step_refuse hs
  | listen t k =>
    obtain ⟨-, hs⟩ := Option.ite_none_right_eq_some.mp hs
    exact h.enter_reading hs
  | sendOrRecv t k =>
    obtain ⟨-, hs⟩ := Option.ite_none_right_eq_some.mp hs
    exact h.enter_reading hs
  | setOption t k =>
    obtain ⟨-, hs⟩ := Option.ite_none_right_eq_some.mp hs
    exact h.enter_reading hs
  | pass t => exact h.step_pass hs
  | call t => exact h.step_call hs
  | connectF t ok => exact h.step_connectF hs
  | accept t l => exact h.step_accept hs
  | acceptF t newsock => exact h.step_acceptF hs
  | init t ok =>
    obtain rfl : ok = true := hg
    exact h.step_init hs
  | close t k =>
    obtain ⟨ha, hs⟩ := Option.ite_none_right_eq_some.mp hs
    exact h.enter hs ha hg rfl trivial fun hk => ⟨hk.file, trivial, hk.closed⟩
  | destroy t k => exact h.step_destroy hs
  | test t => exact h.step_test hs
  | disconnect t => exact h.step_disconnect hs
  | testSock t => exact h.step_testSock hs
  | closeF t => exact h.step_closeF hs
  | clear t => exact h.step_clear hs
  | otherOpen fd =>
    obtain ⟨hfree, rfl⟩ := Option.ite_some_none_eq_some.mp hs
    exact h.setFile_other (by simp) (by simp [hfree])
  | otherClose fd =>
    obtain rfl := Option.some.inj hs
    have hother : s.file fd = some .other := hg
    exact h.setFile_other (by simp) (by simp [hother])

theorem Inv.owned (h : s.Inv) : s.Owned where
  kept := by
    intro fd k hfile
    rcases h.exists_settled k with hk | ⟨t, hc, hk⟩
    · exact .inl ((hk.file fd).mp hfile)
    · have hholds := (hk.file fd).mp hfile
      cases hp : s.phase t with
      | created j fd' caller =>
        rw [hp] at hc hholds
        obtain rfl := Option.some.inj hc
        obtain rfl : fd' = some fd := hholds
        exact .inr ⟨t, .inr ⟨caller, hp⟩⟩
      | accepted j fd' =>
        rw [hp] at hc hholds
        obtain rfl := Option.some.inj hc
        obtain rfl := Option.some.inj hholds
        exact .inr ⟨t, .inl hp⟩
      | clearing j destroy =>
        rw [hp] at hholds
        cases hholds
      | _ =>
        rw [hp] at hholds
        exact .inl hholds
  own := by
    intro k fd hsock
    rcases h.exists_settled k with hk | ⟨t, hc, hk⟩
    · exact .inl ((hk.file fd).mpr hsock)
    · by_cases hb : (s.phase t).behind = 0
      · exact .inl (hk.file_of_sock hb hsock)
      · cases hp : s.phase t with
        | clearing j destroy =>
          rw [hp] at hc
          obtain rfl := Option.some.inj hc
          exact .inr ⟨t, destroy, hp⟩
        | _ => exact absurd (by rw [hp]; rfl) hb
  closes := h.closes
  calls := h.calls
  destroyed := by
    intro k hd fd hfile
    have hgone : ¬ s.Alive k := fun ha => by simp [ha.2] at hd
    obtain ⟨hquiet, hsock⟩ := h.gone k hgone
    have hholds : s.sock k = some fd := ((h.quiet k hquiet).file fd).mp hfile
    rw [hsock] at hholds
    cases hholds

/-- In every run in which no two threads create or close the descriptor of one Socket at the same
time, `Init` does not fail and other code only closes its own descriptors, each descriptor belongs
to the Socket that it was opened for. -/
theorem owned_of_alone (ops : List (SocketOp m)) (s : Sockets m)
    (hr : Transition.run step (new m) ops = some s)
    (hg : Transition.Meets step Alone (new m) ops) : s.Owned :=
  (Transition.run_invariant Inv (fun _ _ _ h hg hs => h.step hg hs) (new_inv m) hg hr).owned

/-- A listening Socket is closed while a thread is in `accept`; its number is given out again. -/
def closedInAccept (t u : Fin 2) : List (SocketOp 2) :=
  [.createTCP, .bind t 0, .isValid t, .socketF t (some 5), .assign t, .pass t, .call t, .accept t 0,
    .close u 0, .test u, .disconnect u, .testSock u, .pass u, .closeF u, .otherOpen 5,
    .acceptF t none, .clear u]

theorem owned_of_alone_closedInAccept : ∃ s,
    Transition.run step (new 2) (closedInAccept 0 1) = some s ∧
      s.calls = [⟨0, some 5, some (.of 0), false⟩, ⟨0, some 5, some .other, true⟩] ∧ s.Owned := by
  have hrun : (Transition.run step (new 2) (closedInAccept 0 1)).map calls =
      some [⟨0, some 5, some (.of 0), false⟩, ⟨0, some 5, some .other, true⟩] := by decide
  obtain ⟨s, hs, hh⟩ := Option.map_eq_some_iff.mp hrun
  exact ⟨s, hs, hh, owned_of_alone (closedInAccept 0 1) s hs (by decide)⟩

/-- Two threads close a Socket, and the second one closes a descriptor of other code. -/
theorem not_owned_of_two_close : ∃ s,
    Transition.run step (new 2)
      [.createTCP, .bind 0 0, .isValid 0, .socketF 0 (some 5), .assign 0, .pass 0, .call 0,
        .close 0 0, .test 0, .disconnect 0, .close 1 0, .test 1, .disconnect 1, .testSock 0,
        .testSock 1, .pass 0, .pass 1, .closeF 0, .otherOpen 5, .closeF 1] = some s ∧
      ¬ s.Owned := by
  refine ⟨_, rfl, fun h => ?_⟩
  have hclose := h.closes (0, some .other) (by decide)
  cases hclose

end Sockets

end ServerFramework
