import ServerFramework.Lib.Tally
import ServerFramework.Lib.Transition

/-! # Locks and their guards

The guards `ScopedLockImpl`, `ReadScopedLockImpl` and `WriteScopedLockImpl` keep in `locked_`
whether they hold their lock, so that it is released once however often they are locked and
unlocked. A guard can be copied; the copy of one that holds the lock releases it a second time.
A lock can be refused to a thread, as an `RWMutex` is to the one that writes; the guard does not
look at that and takes the lock for its own.
-/

namespace ServerFramework

inductive LockMode where
  /-- `rdlock`. -/
  | read
  /-- `wrlock`, or `lock`. -/
  | write
  deriving DecidableEq, Repr

/-- How a lock is held: by a number of readers, or by a writer. -/
inductive Held where
  | shared (n : ℕ)
  | exclusive
  deriving DecidableEq, Repr

namespace Held

def writers : Held → ℕ
  | shared _ => 0
  | exclusive => 1

def readers : Held → ℕ
  | shared n => n
  | exclusive => 0

/-- Who holds the lock when it is taken, if it can be. -/
def take : LockMode → Held → Option Held
  | .read, shared n => some (shared (n + 1))
  | .write, shared 0 => some exclusive
  | _, _ => none

def drop : Held → Held
  | shared n => shared (n - 1)
  | exclusive => shared 0

theorem take_of_eq_some {mode : LockMode} {h h' : Held} (ht : h.take mode = some h') :
    h'.writers = h.writers + (mode == .write).toNat ∧
      h'.readers = h.readers + (mode == .read).toNat := by
  cases mode with
  | read =>
    cases h with
    | shared n =>
      obtain rfl := Option.some.inj ht
      exact ⟨rfl, rfl⟩
    | exclusive => cases ht
  | write =>
    rcases h with ⟨_ | n⟩ | _
    · obtain rfl := Option.some.inj ht
      exact ⟨rfl, rfl⟩
    · cases ht
    · cases ht

/-- One of those who hold the lock releases it. -/
theorem drop_of_le {mode : LockMode} {h : Held} (hw : (mode == .write).toNat ≤ h.writers)
    (hr : (mode == .read).toNat ≤ h.readers) :
    h ≠ shared 0 ∧ h.drop.writers + (mode == .write).toNat = h.writers ∧
      h.drop.readers + (mode == .read).toNat = h.readers := by
  cases mode <;> cases h <;> simp_all [drop, writers, readers]
  omega

end Held

/-- What a try to take a lock comes to. -/
inductive LockResult where
  | waits
  | taken
  /-- The call returns an error number instead. -/
  | refused
  deriving DecidableEq, Repr

/-- A type of locks, with what its words say about who holds the lock. -/
structure LockType (L : Type) where
  init : L
  supports : LockMode → Bool
  /-- One try of `lock`, `rdlock` or `wrlock` by a thread. -/
  take : ℕ → LockMode → L → LockResult × L
  /-- `unlock`, by a thread that holds the lock. -/
  drop : L → L
  held : L → Held
  held_init : held init = .shared 0
  held_taken : ∀ t mode l, supports mode = true → (take t mode l).1 = .taken →
    (held l).take mode = some (held (take t mode l).2)
  held_kept : ∀ t mode l, supports mode = true → (take t mode l).1 ≠ .taken →
    held (take t mode l).2 = held l
  held_drop : ∀ l, held l ≠ .shared 0 → held (drop l) = (held l).drop

/-- The words of a `pthread_rwlock_t`: how many threads read, or which one writes. -/
inductive RWLock where
  | shared (n : ℕ)
  | exclusive (writer : ℕ)
  deriving DecidableEq, Repr

namespace RWLock

def held : RWLock → Held
  | shared n => .shared n
  | exclusive _ => .exclusive

/-- The thread that writes is told that it would wait for itself (`EDEADLK`), a reader that there
are too many (`EAGAIN`). -/
def take (maxReaders t : ℕ) : LockMode → RWLock → LockResult × RWLock
  | .read, shared n =>
    if n < maxReaders then (.taken, shared (n + 1)) else (.refused, shared n)
  | .write, shared 0 => (.taken, exclusive t)
  | .write, shared (n + 1) => (.waits, shared (n + 1))
  | _, exclusive writer => (if writer = t then .refused else .waits, exclusive writer)

def drop : RWLock → RWLock
  | shared n => shared (n - 1)
  | exclusive _ => shared 0

theorem take_eq_refused_iff {maxReaders t : ℕ} {mode : LockMode} {l : RWLock} :
    (take maxReaders t mode l).1 = .refused ↔
      l = exclusive t ∨ mode = .read ∧ ∃ n, maxReaders ≤ n ∧ l = shared n := by
  cases l with
  | exclusive writer => cases mode <;> simp [take]
  | shared n =>
    cases mode with
    | read =>
      by_cases hn : n < maxReaders
      · simp [take, hn]
      · have hle : maxReaders ≤ n := Nat.le_of_not_lt hn
        simp [take, hn, hle]
    | write => cases n <;> simp [take]

theorem held_taken {maxReaders t : ℕ} {mode : LockMode} {l : RWLock}
    (ht : (take maxReaders t mode l).1 = .taken) :
    l.held.take mode = some (take maxReaders t mode l).2.held := by
  cases l with
  | exclusive writer =>
    have hne : (if writer = t then LockResult.refused else .waits) ≠ .taken := by
      split_ifs <;> simp
    cases mode <;> exact absurd ht hne
  | shared n =>
    cases mode with
    | read =>
      have hn : n < maxReaders := by
        by_contra hn
        simp [take, hn] at ht
      simp [take, hn, held, Held.take]
    | write =>
      cases n with
      | zero => rfl
      | succ n => cases ht

theorem held_kept {maxReaders t : ℕ} {mode : LockMode} {l : RWLock}
    (ht : (take maxReaders t mode l).1 ≠ .taken) :
    (take maxReaders t mode l).2.held = l.held := by
  cases l with
  | exclusive writer => cases mode <;> rfl
  | shared n =>
    cases mode with
    | read =>
      have hn : ¬ n < maxReaders := by
        intro hn
        simp [take, hn] at ht
      simp [take, hn]
    | write =>
      cases n with
      | zero => exact absurd rfl ht
      | succ n => rfl

end RWLock

/-- `RWMutex`, by what POSIX and glibc say of `pthread_rwlock_t`. -/
def RWMutex (maxReaders : ℕ) : LockType RWLock where
  init := .shared 0
  supports _ := true
  take := RWLock.take maxReaders
  drop := RWLock.drop
  held := RWLock.held
  held_init := rfl
  held_taken _ _ _ _ := RWLock.held_taken
  held_kept _ _ _ _ := RWLock.held_kept
  held_drop l _ := by cases l <;> rfl

/-- A lock that is a flag, and only knows `lock`: a thread that has locked it waits for itself. -/
def FlagLock : LockType Bool where
  init := false
  supports := (· == .write)
  take _ _ flag := (if flag then .waits else .taken, true)
  drop _ := false
  held flag := if flag then .exclusive else .shared 0
  held_init := rfl
  held_taken _ mode flag h ht := by
    obtain rfl : mode = .write := by simpa using h
    cases flag with
    | false => rfl
    | true => cases ht
  held_kept _ _ flag _ ht := by
    cases flag with
    | false => exact absurd rfl ht
    | true => rfl
  held_drop flag h := by
    cases flag with
    | false => exact absurd rfl h
    | true => rfl

/-- A `pthread_mutex_t` of the default kind. -/
def Mutex : LockType Bool := FlagLock

/-- A `pthread_spinlock_t`. -/
def Spinlock : LockType Bool := FlagLock

/-- `test_and_set` in a loop, and `clear`. -/
def CASLock : LockType Bool := FlagLock

inductive GuardPhase where
  | gone
  | idle
  /-- Before the lock is taken. -/
  | taking
  /-- Before `locked_ = true`. -/
  | marking
  /-- Before the lock is released; the destructor calls `unlock` too. -/
  | dropping (destroy : Bool)
  /-- Before `locked_ = false`. -/
  | clearing (destroy : Bool)
  deriving DecidableEq, Repr

/-- A guard, a `ReadScopedLockImpl` or one of the others, and the thread that uses it. -/
structure ScopedLock where
  thread : ℕ
  mode : LockMode
  locked : Bool
  phase : GuardPhase
  deriving DecidableEq, Repr

namespace ScopedLock

/-- The guard has taken the lock and not released it. -/
def holds (g : ScopedLock) : Bool :=
  match g.phase with
  | .marking => true
  | .idle | .dropping _ => g.locked
  | .gone | .taking | .clearing _ => false

def writes (g : ScopedLock) : ℕ := (g.holds && g.mode == .write).toNat

def reads (g : ScopedLock) : ℕ := (g.holds && g.mode == .read).toNat

/-- Guards that hold the lock in one way count alike. -/
theorem counts_eq {g g' : ScopedLock} (hholds : g.holds = g'.holds)
    (hmode : g.holds = true → g.mode = g'.mode) : g.writes = g'.writes ∧ g.reads = g'.reads := by
  rw [writes, writes, reads, reads, ← hholds]
  cases hg : g.holds with
  | false => exact ⟨rfl, rfl⟩
  | true =>
    rw [hmode hg]
    exact ⟨rfl, rfl⟩

/-- `locked_` is what it should be at each point of `lock` and `unlock`. -/
def Marked (g : ScopedLock) : Prop :=
  match g.phase with
  | .gone | .idle => True
  | .taking | .marking => g.locked = false
  | .dropping _ | .clearing _ => g.locked = true

end ScopedLock

/-- A lock and its guards. -/
structure Guards (L : Type) (m : ℕ) where
  lock : L
  guard : Fin m → ScopedLock

/-- The steps of those who use the guards; `construct` and `copy` are by a thread that uses the new
guard from then on. -/
inductive GuardOp (m : ℕ) where
  | construct (t : ℕ) (i : Fin m) (mode : LockMode)
  | copy (t : ℕ) (i j : Fin m)
  | lock (i : Fin m)
  | take (i : Fin m)
  | mark (i : Fin m)
  | unlock (i : Fin m) (destroy : Bool)
  | drop (i : Fin m)
  | clear (i : Fin m)
  deriving DecidableEq, Repr

namespace Guards

variable {L : Type} {m : ℕ} (T : LockType L)

def new (m : ℕ) : Guards L m where
  lock := T.init
  guard _ := { thread := 0, mode := .write, locked := false, phase := .gone }

def setGuard (s : Guards L m) (i : Fin m) (g : ScopedLock) : Guards L m :=
  { s with guard := Function.update s.guard i g }

/-- Where a guard is after `unlock`, or its destructor. -/
def left : Bool → GuardPhase
  | true => .gone
  | false => .idle

def step (s : Guards L m) : GuardOp m → Option (Guards L m)
  | .construct t i mode =>
    if (s.guard i).phase = .gone ∧ T.supports mode = true then
      some (s.setGuard i { thread := t, mode := mode, locked := false, phase := .taking })
    else none
  | .copy t i j =>
    if (s.guard i).phase = .idle ∧ (s.guard j).phase = .gone then
      some (s.setGuard j { s.guard i with thread := t })
    else none
  | .lock i =>
    if (s.guard i).phase = .idle then
      some (if (s.guard i).locked then s
        else s.setGuard i { s.guard i with phase := .taking })
    else none
  | .take i =>
    if (s.guard i).phase = .taking then
      let r := T.take (s.guard i).thread (s.guard i).mode s.lock
      let s' := { s with lock := r.2 }
      some (if r.1 = .waits then s' else s'.setGuard i { s.guard i with phase := .marking })
    else none
  | .mark i =>
    if (s.guard i).phase = .marking then
      some (s.setGuard i { s.guard i with locked := true, phase := .idle })
    else none
  | .unlock i destroy =>
    if (s.guard i).phase = .idle then
      some (s.setGuard i { s.guard i with
        phase := if (s.guard i).locked then .dropping destroy else left destroy })
    else none
  | .drop i =>
    match (s.guard i).phase with
    | .dropping destroy =>
      some ({ s with lock := T.drop s.lock }.setGuard i
        { s.guard i with phase := .clearing destroy })
    | _ => none
  | .clear i =>
    match (s.guard i).phase with
    | .clearing destroy =>
      some (s.setGuard i { s.guard i with locked := false, phase := left destroy })
    | _ => none

/-- The lock is not refused to a guard that goes on as if it had it. -/
def Granted (s : Guards L m) (i : Fin m) : Prop :=
  (s.guard i).phase = .taking → (T.take (s.guard i).thread (s.guard i).mode s.lock).1 ≠ .refused

instance (s : Guards L m) (i : Fin m) : Decidable (s.Granted T i) :=
  inferInstanceAs (Decidable (_ → _))

/-- No guard is copied that holds the lock, and none is refused it. -/
def Careful (s : Guards L m) : GuardOp m → Prop
  | .copy _ i _ => (s.guard i).locked = false
  | .take i => s.Granted T i
  | _ => True

instance (s : Guards L m) : ∀ op, Decidable (s.Careful T op)
  | .copy .. => inferInstanceAs (Decidable (_ = _))
  | .take i => inferInstanceAs (Decidable (s.Granted T i))
  | .construct .. | .lock _ | .mark _ | .unlock .. | .drop _ | .clear _ => isTrue trivial

/-- Guards that hold the lock together are readers, and the lock counts those that hold it. -/
structure Exclusive (s : Guards L m) : Prop where
  apart : ∀ i j, i ≠ j → (s.guard i).holds = true → (s.guard j).holds = true →
    (s.guard i).mode = .read ∧ (s.guard j).mode = .read
  writers : ∑ i, (s.guard i).writes = (T.held s.lock).writers
  readers : ∑ i, (s.guard i).reads = (T.held s.lock).readers

section Count

variable {T} {s s' : Guards L m} {i j : Fin m} {g : ScopedLock}

theorem writes_add_le (hij : i ≠ j) :
    (s.guard i).writes + (s.guard j).writes ≤ ∑ k, (s.guard k).writes :=
  Finset.add_le_sum (f := fun k => (s.guard k).writes) (fun _ _ => Nat.zero_le _)
    (Finset.mem_univ i) (Finset.mem_univ j) hij

theorem sum_writes_setGuard (s : Guards L m) (i : Fin m) (g : ScopedLock) :
    ∑ k, ((s.setGuard i g).guard k).writes + (s.guard i).writes =
      ∑ k, (s.guard k).writes + g.writes :=
  Tally.sum_update_add ScopedLock.writes s.guard i g

theorem sum_reads_setGuard (s : Guards L m) (i : Fin m) (g : ScopedLock) :
    ∑ k, ((s.setGuard i g).guard k).reads + (s.guard i).reads =
      ∑ k, (s.guard k).reads + g.reads :=
  Tally.sum_update_add ScopedLock.reads s.guard i g

theorem writes_le (s : Guards L m) (i : Fin m) :
    (s.guard i).writes ≤ ∑ k, (s.guard k).writes :=
  Tally.le_sum ScopedLock.writes s.guard i

theorem reads_le (s : Guards L m) (i : Fin m) :
    (s.guard i).reads ≤ ∑ k, (s.guard k).reads :=
  Tally.le_sum ScopedLock.reads s.guard i

/-- The lock counts those that hold it. -/
def Counted (T : LockType L) (s : Guards L m) : Prop :=
  ∑ i, (s.guard i).writes = (T.held s.lock).writers ∧
    ∑ i, (s.guard i).reads = (T.held s.lock).readers

/-- A counted lock lets no guard in beside a writer. -/
theorem Counted.exclusive (h : Counted T s) : s.Exclusive T := by
  obtain ⟨hw, hr⟩ := h
  refine ⟨?_, hw, hr⟩
  intro i j hij hi hj
  have hsum := writes_add_le (s := s) hij
  have hiw := writes_le s i
  have hjw := writes_le s j
  have hir := reads_le s i
  have hjr := reads_le s j
  rw [hw] at hsum hiw hjw
  rw [hr] at hir hjr
  simp only [ScopedLock.writes, ScopedLock.reads, hi, hj, Bool.true_and] at hsum hiw hjw hir hjr
  cases hmi : (s.guard i).mode <;> cases hmj : (s.guard j).mode <;>
    cases hheld : T.held s.lock <;> simp_all [Held.writers, Held.readers]

end Count

/-- What the guards do to the lock adds up. -/
structure Inv (s : Guards L m) : Prop where
  marked : ∀ i, (s.guard i).Marked
  supported : ∀ i, (s.guard i).phase ≠ .gone → T.supports (s.guard i).mode = true
  counted : Counted T s

section Steps

variable {T} {s s' : Guards L m} {i j : Fin m} {g : ScopedLock}

theorem new_inv (T : LockType L) (m : ℕ) : (new T m).Inv T where
  marked _ := trivial
  supported _ h := absurd rfl h
  counted := by simp [Counted, new, T.held_init, ScopedLock.writes, ScopedLock.reads,
    ScopedLock.holds, Held.writers, Held.readers]

/-- A guard moves, and the lock follows. -/
theorem Inv.move (h : s.Inv T) (lock : L) (hmarked : g.Marked)
    (hsupported : g.phase ≠ .gone → T.supports g.mode = true)
    (hwrites : (T.held lock).writers + (s.guard i).writes = (T.held s.lock).writers + g.writes)
    (hreads : (T.held lock).readers + (s.guard i).reads = (T.held s.lock).readers + g.reads) :
    Inv T ({ s with lock := lock }.setGuard i g) := by
  obtain ⟨hm, hs, hw, hr⟩ := h
  have hsumw := sum_writes_setGuard s i g
  have hsumr := sum_reads_setGuard s i g
  refine ⟨?_, ?_, ?_, ?_⟩
  · intro k
    by_cases hk : k = i
    · subst hk
      simpa [setGuard] using hmarked
    · simpa [setGuard, hk] using hm k
  · intro k
    by_cases hk : k = i
    · subst hk
      simpa [setGuard] using hsupported
    · simpa [setGuard, hk] using hs k
  · change ∑ k, ((s.setGuard i g).guard k).writes = (T.held lock).writers
    omega
  · change ∑ k, ((s.setGuard i g).guard k).reads = (T.held lock).readers
    omega

/-- A guard moves and holds the lock as before. -/
theorem Inv.setGuard (h : s.Inv T) (hmarked : g.Marked)
    (hsupported : g.phase ≠ .gone → T.supports g.mode = true)
    (hholds : g.holds = (s.guard i).holds) (hmode : g.holds = true → g.mode = (s.guard i).mode) :
    (s.setGuard i g).Inv T := by
  obtain ⟨hwrites, hreads⟩ := ScopedLock.counts_eq hholds hmode
  exact h.move s.lock hmarked hsupported (by rw [hwrites]) (by rw [hreads])

theorem Inv.take (h : s.Inv T) (hg : s.Granted T i)
    (hs : s.step T (.take i) = some s') : s'.Inv T := by
  by_cases hi : (s.guard i).phase = .taking
  · have hmarked := h.marked i
    have hsupported := h.supported i (by simp [hi])
    simp only [ScopedLock.Marked, hi] at hmarked
    simp only [Guards.step, if_pos hi, Option.some.injEq] at hs
    subst hs
    split_ifs with hwaits
    · have hkept := T.held_kept (s.guard i).thread _ s.lock hsupported (by simp [hwaits])
      refine ⟨h.marked, h.supported, ?_, ?_⟩
      · rw [hkept]
        exact h.counted.1
      · rw [hkept]
        exact h.counted.2
    · have htaken : (T.take (s.guard i).thread (s.guard i).mode s.lock).1 = .taken := by
        have hgranted := hg hi
        revert hgranted hwaits
        cases (T.take (s.guard i).thread (s.guard i).mode s.lock).1 <;> simp
      obtain ⟨hwriters, hreaders⟩ := Held.take_of_eq_some (T.held_taken _ _ _ hsupported htaken)
      refine h.move _ (by simpa [ScopedLock.Marked] using hmarked) (fun _ => hsupported) ?_ ?_
      · simp [hwriters, ScopedLock.writes, ScopedLock.holds, hi]
      · simp [hreaders, ScopedLock.reads, ScopedLock.holds, hi]
  · simp [Guards.step, hi] at hs

theorem Inv.drop (h : s.Inv T) {destroy : Bool} (hi : (s.guard i).phase = .dropping destroy) :
    Inv T ({ s with lock := T.drop s.lock }.setGuard i
      { s.guard i with phase := .clearing destroy }) := by
  have hlocked := h.marked i
  simp only [ScopedLock.Marked, hi] at hlocked
  have hw := writes_le s i
  have hr := reads_le s i
  rw [h.counted.1] at hw
  rw [h.counted.2] at hr
  simp only [ScopedLock.writes, ScopedLock.reads, ScopedLock.holds, hi, hlocked,
    Bool.true_and] at hw hr
  obtain ⟨hne, hwriters, hreaders⟩ := Held.drop_of_le hw hr
  refine h.move _ (by simpa [ScopedLock.Marked] using hlocked)
    (fun _ => h.supported i (by simp [hi])) ?_ ?_
  · rw [T.held_drop _ hne]
    simpa [ScopedLock.writes, ScopedLock.holds, hi, hlocked] using hwriters
  · rw [T.held_drop _ hne]
    simpa [ScopedLock.reads, ScopedLock.holds, hi, hlocked] using hreaders

/-- The destructor of a guard leaves `locked_` alone when it is not set. -/
theorem holds_left (g : ScopedLock) (destroy : Bool) (hlocked : g.locked = false) :
    ScopedLock.holds { g with phase := left destroy } = false := by
  cases destroy <;> simp [ScopedLock.holds, left, hlocked]

theorem Inv.step (h : s.Inv T) {op : GuardOp m} (hg : s.Careful T op)
    (hs : s.step T op = some s') : s'.Inv T := by
  cases op with
  | construct t i mode =>
    simp only [Guards.step] at hs
    split_ifs at hs with hi
    obtain ⟨hgone, hmode⟩ := hi
    cases hs
    refine h.setGuard rfl (fun _ => hmode) ?_ (by simp [ScopedLock.holds])
    simp [ScopedLock.holds, hgone]
  | copy t i j =>
    simp only [Guards.step] at hs
    split_ifs at hs with hi
    obtain ⟨hidle, hgone⟩ := hi
    cases hs
    have hlocked : (s.guard i).locked = false := hg
    refine h.setGuard (h.marked i) (fun hne => h.supported i hne) ?_ ?_
    · simp [ScopedLock.holds, hidle, hgone, hlocked]
    · simp [ScopedLock.holds, hidle, hlocked]
  | lock i =>
    simp only [Guards.step] at hs
    split_ifs at hs with hidle hlocked
    · cases hs
      exact h
    · cases hs
      have hlocked : (s.guard i).locked = false := by simpa using hlocked
      refine h.setGuard hlocked (fun _ => h.supported i (by simp [hidle])) ?_ fun _ => rfl
      simp [ScopedLock.holds, hidle, hlocked]
  | take i => exact h.take hg hs
  | mark i =>
    simp only [Guards.step] at hs
    split_ifs at hs with hi
    cases hs
    refine h.setGuard trivial (fun _ => h.supported i (by simp [hi])) ?_ fun _ => rfl
    simp [ScopedLock.holds, hi]
  | unlock i destroy =>
    simp only [Guards.step] at hs
    split_ifs at hs with hidle hlocked
    · cases hs
      refine h.setGuard hlocked (fun _ => h.supported i (by simp [hidle])) ?_ fun _ => rfl
      simp [ScopedLock.holds, hidle]
    · cases hs
      have hlocked : (s.guard i).locked = false := by simpa using hlocked
      have hleft := holds_left (s.guard i) destroy hlocked
      refine h.setGuard ?_ (fun _ => h.supported i (by simp [hidle])) ?_ fun _ => rfl
      · cases destroy <;> trivial
      · rw [hleft]
        simp [ScopedLock.holds, hidle, hlocked]
  | drop i =>
    simp only [Guards.step] at hs
    split at hs
    · rename_i destroy hi
      cases hs
      exact h.drop hi
    · cases hs
  | clear i =>
    simp only [Guards.step] at hs
    split at hs
    · rename_i destroy hi
      cases hs
      have hleft := holds_left { s.guard i with locked := false } destroy rfl
      refine h.setGuard ?_ (fun _ => h.supported i (by simp [hi])) ?_ fun _ => rfl
      · cases destroy <;> trivial
      · rw [hleft]
        simp [ScopedLock.holds, hi]
    · cases hs

/-- A guard that holds what the lock does not count. -/
theorem Inv.not_exclusive_setGuard (h : s.Inv T) {lock : L} (hheld : T.held lock = T.held s.lock)
    (hfree : (s.guard i).holds = false) (hg : g.holds = true) :
    ¬ Exclusive T ({ s with lock := lock }.setGuard i g) := by
  intro hex
  have hw := sum_writes_setGuard s i g
  have hr := sum_reads_setGuard s i g
  have hwriters : ∑ k, ((s.setGuard i g).guard k).writes = (T.held lock).writers := hex.writers
  have hreaders : ∑ k, ((s.setGuard i g).guard k).reads = (T.held lock).readers := hex.readers
  rw [hwriters, hheld, h.counted.1] at hw
  rw [hreaders, hheld, h.counted.2] at hr
  simp only [ScopedLock.writes, ScopedLock.reads, hfree, hg] at hw hr
  cases hmode : g.mode <;> simp [hmode] at hw hr

theorem Inv.not_exclusive (h : s.Inv T) {op : GuardOp m} (hs : s.step T op = some s')
    (hg : ¬ s.Careful T op) : ¬ s'.Exclusive T := by
  cases op with
  | copy t i j =>
    -- a second guard holds what was taken once
    have hlocked : (s.guard i).locked = true := by simpa [Careful] using hg
    simp only [Guards.step] at hs
    split_ifs at hs with hi
    obtain ⟨hidle, hgone⟩ := hi
    cases hs
    exact h.not_exclusive_setGuard rfl (by simp [ScopedLock.holds, hgone])
      (by simp [ScopedLock.holds, hidle, hlocked])
  | take i =>
    obtain ⟨hi, hrefused⟩ : (s.guard i).phase = .taking ∧
        (T.take (s.guard i).thread (s.guard i).mode s.lock).1 = .refused := by
      simpa [Careful, Granted] using hg
    simp only [Guards.step, if_pos hi, hrefused, reduceCtorEq, if_false, Option.some.injEq] at hs
    subst hs
    have hkept := T.held_kept (s.guard i).thread (s.guard i).mode s.lock
      (h.supported i (by simp [hi])) (by simp [hrefused])
    exact h.not_exclusive_setGuard hkept (by simp [ScopedLock.holds, hi])
      (by simp [ScopedLock.holds])
  | construct t i mode => exact absurd trivial hg
  | lock i => exact absurd trivial hg
  | mark i => exact absurd trivial hg
  | unlock i destroy => exact absurd trivial hg
  | drop i => exact absurd trivial hg
  | clear i => exact absurd trivial hg

end Steps

/-- In every run, guards that hold the lock at once are readers and the lock counts its holders, as
long as no guard is copied that holds it and none is refused it. -/
theorem exclusive_iff_careful (T : LockType L) {m : ℕ} {ops : List (GuardOp m)} {s : Guards L m}
    (hr : Transition.run (step T) (new T m) ops = some s) :
    Transition.Always (step T) (Exclusive T) (new T m) ops ↔
      Transition.Meets (step T) (Careful T) (new T m) ops := by
  refine Transition.always_iff_meets_of_inv (Q := Inv T) ?_ ?_ ?_ (new_inv T m) hr
  · exact fun s h => h.counted.exclusive
  · exact fun s op s' h hg hs => h.step hg hs
  · exact fun s op s' h hs hg => h.not_exclusive hs hg

/-- Two threads read at once; then one of them writes, after it has waited for the other. -/
def readersThenWriter (i j : Fin 2) : List (GuardOp 2) :=
  [.construct 1 i .read, .take i, .construct 2 j .read, .take j, .mark i, .mark j,
    .unlock i true, .drop i, .clear i, .construct 1 i .write, .take i, .unlock j false, .drop j,
    .take i, .mark i, .clear j, .unlock i true, .drop i, .clear i, .lock j, .take j, .mark j]

theorem exclusive_iff_careful_readersThenWriter :
    (∃ s, Transition.run (step (RWMutex 8)) (new (RWMutex 8) 2) (readersThenWriter 0 1) = some s) ∧
      Transition.Always (step (RWMutex 8)) (Exclusive (RWMutex 8)) (new (RWMutex 8) 2)
        (readersThenWriter 0 1) := by
  have hs : (Transition.run (step (RWMutex 8)) (new (RWMutex 8) 2)
      (readersThenWriter 0 1)).isSome := by decide
  obtain ⟨s, hr⟩ := Option.isSome_iff_exists.mp hs
  exact ⟨⟨s, hr⟩, (exclusive_iff_careful (RWMutex 8) hr).mpr (by decide)⟩

end Guards

end ServerFramework
