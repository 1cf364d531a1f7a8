import Mathlib.Data.Finset.SDiff
import Mathlib.Data.Fintype.Basic

/-! # Binding a TCP server

`TcpServer::bind` either listens on all addresses or drops all its Sockets, those of earlier calls
too. A Socket closes its descriptor when the last pointer to it goes.
-/

namespace ServerFramework

/-- An address to bind to, with what the system says to it. -/
structure BindAddress where
  isUnix : Bool
  /-- A connection to it is accepted. -/
  inUse : Bool
  canBind : Bool
  canListen : Bool
  deriving DecidableEq, Repr

/-- The open descriptors of the process, as far as nobody else opens or closes them, and how often
`socket` has been called. -/
@[ext]
structure OpenFds where
  fds : Finset ℕ
  asked : ℕ
  deriving DecidableEq

/-- What `socks_` has a pointer to: a Socket with its descriptor, unless it has been closed, and
whether somebody else has a pointer to it too, as an accept loop has. -/
structure ListeningSock where
  fd : Option ℕ
  held : Bool
  deriving DecidableEq, Repr

/-- The open descriptors, what is in `socks_`, and the addresses that have failed. -/
structure Listening where
  opened : OpenFds
  socks : List ListeningSock
  fails : List BindAddress
  deriving DecidableEq

namespace OpenFds

def close (opened : OpenFds) (fd : ℕ) : OpenFds := { opened with fds := opened.fds.erase fd }

end OpenFds

namespace TcpServer

section Bind

-- the answer of each call of `socket`
variable (alloc : ℕ → Finset ℕ → Option ℕ)

def socketF (opened : OpenFds) : Option ℕ × OpenFds :=
  match alloc opened.asked opened.fds with
  | some fd => (some fd, ⟨insert fd opened.fds, opened.asked + 1⟩)
  | none => (none, ⟨opened.fds, opened.asked + 1⟩)

/-- The connection that `Socket::bind` tries to a Unix address. It is closed in any case. -/
def probe (opened : OpenFds) (addr : BindAddress) : Bool × OpenFds :=
  match socketF alloc opened with
  | (some fd, opened) => (addr.inUse, opened.close fd)
  | (none, opened) => (false, opened)

/-- `Socket::bind` of a new Socket. -/
def bindSocket (opened : OpenFds) (addr : BindAddress) : Bool × Option ℕ × OpenFds :=
  match socketF alloc opened with
  | (none, opened) => (false, none, opened)
  | (some fd, opened) =>
    let (inUse, opened) := if addr.isUnix then probe alloc opened addr else (false, opened)
    (!inUse && addr.canBind, some fd, opened)

/-- One round of the loop of `bind`. A Socket that is not kept is closed by its destructor. -/
def bindStep (s : Listening) (addr : BindAddress) : Listening :=
  match bindSocket alloc s.opened addr with
  | (ok, some fd, opened) =>
    if ok && addr.canListen then { s with opened := opened, socks := s.socks ++ [⟨some fd, false⟩] }
    else { s with opened := opened.close fd, fails := s.fails ++ [addr] }
  | (_, none, opened) => { s with opened := opened, fails := s.fails ++ [addr] }

/-- The descriptors that go with the last pointers to their Sockets. -/
def unheld (socks : List ListeningSock) : Finset ℕ :=
  (socks.filterMap fun sock => if sock.held then none else sock.fd).toFinset

/-- `socks_.clear()`. -/
def clearSocks (s : Listening) : Listening :=
  { s with opened := { s.opened with fds := s.opened.fds \ unheld s.socks }, socks := [] }

def bind (s : Listening) (addrs : List BindAddress) : Bool × Listening :=
  let s := addrs.foldl (bindStep alloc) s
  if s.fails.isEmpty then (true, s) else (false, clearSocks s)

/-- The system refuses the address. -/
def Refused (addr : BindAddress) : Bool :=
  addr.isUnix && addr.inUse || !addr.canBind || !addr.canListen

/-- What `bind` does. When it fails it drops the Sockets of earlier calls too, of which those stay
open that somebody else has a pointer to; and it fails when it is given addresses that have failed
before. -/
structure AllOrNothing (s : Listening) (addrs : List BindAddress) (r : Bool × Listening) :
    Prop where
  ok_iff : r.1 = true ↔ r.2.fails = []
  fails : ∃ failed, failed.Sublist addrs ∧ r.2.fails = s.fails ++ failed
  refused : (∀ i fds, (alloc i fds).isSome) → r.2.fails = s.fails ++ addrs.filter Refused
  all : r.1 = true → ∃ fds : List ℕ, r.2.socks = s.socks ++ fds.map (⟨some ·, false⟩) ∧
    fds.length = addrs.length ∧ fds.Nodup ∧ (∀ fd ∈ fds, fd ∉ s.opened.fds) ∧
    r.2.opened.fds = s.opened.fds ∪ fds.toFinset
  nothing : r.1 = false → r.2.socks = [] ∧ r.2.opened.fds = s.opened.fds \ unheld s.socks

variable {alloc} {s s' : Listening} {addrs : List BindAddress} {addr : BindAddress}

section Free

variable (halloc : ∀ i fds fd, alloc i fds = some fd → fd ∉ fds)

include halloc

/-- The connection that is tried leaves no descriptor open. -/
theorem probe_fds (opened : OpenFds) (addr : BindAddress) :
    (probe alloc opened addr).2.fds = opened.fds := by
  cases hfd : alloc opened.asked opened.fds with
  | none => simp [probe, socketF, hfd]
  | some fd =>
    simp [probe, socketF, hfd, OpenFds.close, Finset.erase_insert (halloc _ _ fd hfd)]

theorem bindSocket_eq {opened : OpenFds} {fd : ℕ} (hfd : alloc opened.asked opened.fds = some fd)
    (addr : BindAddress) :
    ∃ ok asked, bindSocket alloc opened addr = (ok, some fd, ⟨insert fd opened.fds, asked⟩) := by
  have hprobe : (probe alloc ⟨insert fd opened.fds, opened.asked + 1⟩ addr).2.fds =
    insert fd opened.fds := probe_fds halloc _ addr
  simp only [bindSocket, socketF, hfd]
  split_ifs
  · generalize probe alloc _ addr = r at hprobe ⊢
    rw [← hprobe]
    exact ⟨_, r.2.asked, rfl⟩
  · exact ⟨_, _, rfl⟩

/-- A round keeps one new descriptor or none. -/
theorem bindStep_cases (s : Listening) (addr : BindAddress) :
    ∃ asked, (∃ fd, fd ∉ s.opened.fds ∧ bindStep alloc s addr =
      { s with
        opened := ⟨insert fd s.opened.fds, asked⟩
        socks := s.socks ++ [⟨some fd, false⟩] }) ∨
      bindStep alloc s addr =
        { s with opened := ⟨s.opened.fds, asked⟩, fails := s.fails ++ [addr] } := by
  cases hfd : alloc s.opened.asked s.opened.fds with
  | none =>
    refine ⟨s.opened.asked + 1, .inr ?_⟩
    simp [bindStep, bindSocket, socketF, hfd]
  | some fd =>
    have hnew := halloc _ _ fd hfd
    obtain ⟨ok, asked, hok⟩ := bindSocket_eq halloc hfd addr
    refine ⟨asked, ?_⟩
    simp only [bindStep, hok]
    split_ifs
    · exact .inl ⟨fd, hnew, rfl⟩
    · right
      rw [OpenFds.close, Finset.erase_insert hnew]

end Free

/-- With enough descriptors a round fails for the addresses that are refused. -/
theorem bindStep_fails (hsome : ∀ i fds, (alloc i fds).isSome) (s : Listening)
    (addr : BindAddress) :
    (bindStep alloc s addr).fails = s.fails ++ if Refused addr then [addr] else [] := by
  obtain ⟨fd, hfd⟩ := Option.isSome_iff_exists.mp (hsome s.opened.asked s.opened.fds)
  obtain ⟨fd', hfd'⟩ := Option.isSome_iff_exists.mp
    (hsome (s.opened.asked + 1) (insert fd s.opened.fds))
  obtain ⟨isUnix, inUse, canBind, canListen⟩ := addr
  simp only [bindStep, bindSocket, probe, socketF, hfd, hfd', Refused]
  cases isUnix <;> cases inUse <;> cases canBind <;> cases canListen <;> simp

/-- What the loop of `bind` has done after some addresses. -/
structure Tried (s : Listening) (addrs : List BindAddress) (s' : Listening) (fds : List ℕ)
    (failed : List BindAddress) : Prop where
  socks : s'.socks = s.socks ++ fds.map (⟨some ·, false⟩)
  fails : s'.fails = s.fails ++ failed
  sublist : failed.Sublist addrs
  length : fds.length + failed.length = addrs.length
  nodup : fds.Nodup
  fresh : ∀ fd ∈ fds, fd ∉ s.opened.fds
  opened : s'.opened.fds = s.opened.fds ∪ fds.toFinset

/-- A round that keeps a descriptor. -/
theorem Tried.keep {fds : List ℕ} {failed : List BindAddress} (h : Tried s addrs s' fds failed)
    {fd asked : ℕ} (hfd : fd ∉ s'.opened.fds) :
    Tried s (addrs ++ [addr])
      { s' with
        opened := ⟨insert fd s'.opened.fds, asked⟩
        socks := s'.socks ++ [⟨some fd, false⟩] } (fds ++ [fd]) failed := by
  have hlength := h.length
  rw [h.opened, Finset.mem_union, not_or, List.mem_toFinset] at hfd
  refine ⟨?_, h.fails, h.sublist.trans (List.sublist_append_left _ _), ?_, ?_, ?_, ?_⟩
  · rw [h.socks, List.map_append, List.append_assoc, List.map_singleton]
  · simp only [List.length_append, List.length_singleton]
    omega
  · exact List.nodup_append.mpr ⟨h.nodup, List.nodup_singleton _, by
      rintro a ha b hb rfl
      exact hfd.2 (List.mem_singleton.mp hb ▸ ha)⟩
  · intro a ha
    rcases List.mem_append.mp ha with ha | ha
    · exact h.fresh a ha
    · exact List.mem_singleton.mp ha ▸ hfd.1
  · rw [h.opened]
    ext a
    simp only [Finset.mem_insert, Finset.mem_union, List.mem_toFinset, List.mem_append,
      List.mem_singleton]
    tauto

/-- A round that fails. -/
theorem Tried.refuse {fds : List ℕ} {failed : List BindAddress} (h : Tried s addrs s' fds failed)
    (asked : ℕ) :
    Tried s (addrs ++ [addr])
      { s' with opened := ⟨s'.opened.fds, asked⟩, fails := s'.fails ++ [addr] } fds
        (failed ++ [addr]) := by
  have hlength := h.length
  refine ⟨h.socks, ?_, h.sublist.append_right _, ?_, h.nodup, h.fresh, h.opened⟩
  · rw [h.fails, List.append_assoc]
  · simp only [List.length_append, List.length_singleton]
    omega

theorem tried_foldl (halloc : ∀ i fds fd, alloc i fds = some fd → fd ∉ fds)
    (addrs : List BindAddress) (s : Listening) :
    ∃ fds failed, Tried s addrs (addrs.foldl (bindStep alloc) s) fds failed := by
  induction addrs using List.reverseRecOn with
  | nil => exact ⟨[], [], by simp, by simp, by simp, rfl, by simp, by simp, by simp⟩
  | append_singleton addrs addr ih =>
    obtain ⟨fds, failed, h⟩ := ih
    rw [List.foldl_concat]
    obtain ⟨asked, ⟨fd, hfd, he⟩ | he⟩ :=
      bindStep_cases halloc (addrs.foldl (bindStep alloc) s) addr
    · exact ⟨_, _, he ▸ h.keep hfd⟩
    · exact ⟨_, _, he ▸ h.refuse asked⟩

theorem fails_foldl (hsome : ∀ i fds, (alloc i fds).isSome) (addrs : List BindAddress)
    (s : Listening) :
    (addrs.foldl (bindStep alloc) s).fails = s.fails ++ addrs.filter Refused := by
  induction addrs generalizing s with
  | nil => simp
  | cons addr addrs ih =>
    rw [List.foldl_cons, ih, bindStep_fails hsome, List.filter_cons]
    split_ifs <;> simp

/-- Nobody else has a pointer to a new Socket. -/
theorem unheld_append_new (socks : List ListeningSock) (fds : List ℕ) :
    unheld (socks ++ fds.map (⟨some ·, false⟩)) = unheld socks ∪ fds.toFinset := by
  have hnew : (fds.map fun fd => (⟨some fd, false⟩ : ListeningSock)).filterMap
      (fun sock => if sock.held then none else sock.fd) = fds := by
    rw [List.filterMap_map]
    exact List.filterMap_some
  rw [unheld, List.filterMap_append, hnew, List.toFinset_append, unheld]

/-- Whatever the kernel answers, `bind` listens on all addresses or leaves no descriptor open. -/
theorem bind_allOrNothing (halloc : ∀ i fds fd, alloc i fds = some fd → fd ∉ fds)
    (s : Listening) (addrs : List BindAddress) :
    AllOrNothing alloc s addrs (bind alloc s addrs) := by
  obtain ⟨fds, failed, h⟩ := tried_foldl halloc addrs s
  have hfails : (bind alloc s addrs).2.fails = (addrs.foldl (bindStep alloc) s).fails := by
    simp only [bind, clearSocks]
    split_ifs <;> rfl
  constructor
  · rw [hfails]
    simp only [bind]
    split_ifs with he
    · simpa using he
    · simpa using he
  · exact ⟨failed, h.sublist, hfails.trans h.fails⟩
  · intro hsome
    exact hfails.trans (fails_foldl hsome addrs s)
  · intro hok
    simp only [bind] at hok ⊢
    split_ifs at hok ⊢ with he
    have hnone : s.fails ++ failed = [] := h.fails ▸ List.isEmpty_iff.mp he
    obtain rfl := (List.append_eq_nil_iff.mp hnone).2
    exact ⟨fds, h.socks, by simpa using h.length, h.nodup, h.fresh, h.opened⟩
  · intro hok
    simp only [bind] at hok ⊢
    split_ifs at hok ⊢ with he
    refine ⟨rfl, ?_⟩
    ext a
    have hfresh := h.fresh a
    simp only [clearSocks, h.opened, h.socks, unheld_append_new, Finset.mem_sdiff,
      Finset.mem_union, List.mem_toFinset]
    tauto

/-- The lowest number up to seven, but nothing at the third call. -/
def lowestButThird (i : ℕ) (fds : Finset ℕ) : Option ℕ :=
  if i = 2 then none else (List.range 8).find? fun fd => fd ∉ fds

/-- A Unix address is in use and for the last address there is no descriptor left; of the Sockets of
earlier calls, the one stays open that an accept loop has a pointer to. -/
theorem bind_allOrNothing_unixInUse :
    bind lowestButThird ⟨⟨{0, 1, 2, 3}, 0⟩, [⟨some 2, false⟩, ⟨some 3, true⟩, ⟨none, true⟩], []⟩
        [⟨true, true, true, true⟩, ⟨false, false, true, true⟩, ⟨false, false, true, true⟩] =
      (false, ⟨⟨{0, 1, 3}, 4⟩, [], [⟨true, true, true, true⟩, ⟨false, false, true, true⟩]⟩) ∧
    AllOrNothing lowestButThird
      ⟨⟨{0, 1, 2, 3}, 0⟩, [⟨some 2, false⟩, ⟨some 3, true⟩, ⟨none, true⟩], []⟩
      [⟨true, true, true, true⟩, ⟨false, false, true, true⟩, ⟨false, false, true, true⟩]
      (false, ⟨⟨{0, 1, 3}, 4⟩, [], [⟨true, true, true, true⟩, ⟨false, false, true, true⟩]⟩) := by
  have heq : bind lowestButThird
      ⟨⟨{0, 1, 2, 3}, 0⟩, [⟨some 2, false⟩, ⟨some 3, true⟩, ⟨none, true⟩], []⟩
      [⟨true, true, true, true⟩, ⟨false, false, true, true⟩, ⟨false, false, true, true⟩] =
        (false, ⟨⟨{0, 1, 3}, 4⟩, [], [⟨true, true, true, true⟩, ⟨false, false, true, true⟩]⟩) := by
    decide
  refine ⟨heq, heq ▸ bind_allOrNothing ?_ _ _⟩
  intro i fds fd hfd
  unfold lowestButThird at hfd
  split_ifs at hfd
  simpa using List.find?_some hfd

end Bind

end TcpServer

end ServerFramework
