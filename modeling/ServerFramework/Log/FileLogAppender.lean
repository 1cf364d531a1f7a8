import Mathlib.Algebra.Group.Nat.Defs
import ServerFramework.Fiber.Scheduler
import ServerFramework.Lib.Transition

/-! # Logging into a file

An appender opens its file again when an event comes three seconds after the one that it was last
opened for, so that a log that has been moved away is left behind. Several threads log at once;
only `Reopen` and the formatting are done under the lock. A stream whose write has failed is not
closed before it is opened again, and opening an open stream fails.
-/

namespace ServerFramework

/-- Where a thread is in `FileLogAppender::Log`, with the time of its event. -/
inductive LogPhase where
  | outside
  /-- Before `Reopen`. -/
  | reopening (now : ℕ)
  /-- Before the assignment of `last_time_`. -/
  | stamping (now : ℕ)
  /-- Before the test of `reopen_error_`. -/
  | testing (now : ℕ)
  /-- Before the locked section that formats. -/
  | formatting (now : ℕ)
  deriving DecidableEq, Repr

/-- A `Reopen`: the time of the event that `Log` calls it for, the file that the path named then,
and whether it could be opened. A caller of its own has no event. -/
structure Reopening where
  now : Option ℕ
  path : ℕ
  ok : Bool
  deriving DecidableEq, Repr

/-- What became of an event. -/
inductive LogResult where
  /-- Nothing was handed to the system. -/
  | dropped
  /-- The system refused the write. -/
  | failed
  | written (file : ℕ)
  deriving DecidableEq, Repr

/-- An event, with the `Reopen`s before it, the last one first. -/
structure LogOutcome where
  now : ℕ
  result : LogResult
  reopened : List Reopening
  deriving DecidableEq, Repr

/-- A `FileLogAppender` used by several threads. Files have numbers, and the path names one of
them, until it is moved away. -/
structure FileLogAppender where
  /-- The stream's buffer is open, on `file`. -/
  isOpen : Bool
  file : ℕ
  /-- `failbit` or `badbit`. -/
  fail : Bool
  reopenError : Bool
  lastTime : ℕ
  path : ℕ
  phase : ThreadId → LogPhase
  /-- The last one first, as in `outcomes`. -/
  reopened : List Reopening
  outcomes : List LogOutcome

/-- The steps of the threads. Whether the file can be opened, and whether a write succeeds, is up
to the system. -/
inductive LogOp where
  | log (t : ThreadId) (now : ℕ)
  | reopenFor (t : ThreadId) (ok : Bool)
  | stamp (t : ThreadId)
  | test (t : ThreadId)
  | format (t : ThreadId) (ok : Bool)
  /-- Somebody calls `Reopen`. -/
  | reopen (ok : Bool)
  /-- The file is moved away. -/
  | rotate
  deriving DecidableEq, Repr

namespace FileLogAppender

/-- `file_stream_.close()`. -/
def close (s : FileLogAppender) : FileLogAppender :=
  if s.isOpen then { s with isOpen := false } else { s with fail := true }

/-- `file_stream_.open(file_name_)`, which fails on an open stream and clears the error when it
succeeds. -/
def openStream (s : FileLogAppender) (ok : Bool) : FileLogAppender :=
  if s.isOpen then { s with fail := true }
  else if ok then { s with isOpen := true, file := s.path, fail := false }
  else { s with fail := true }

/-- `Reopen`, on behalf of an event or not. -/
def reopen (s : FileLogAppender) (now : Option ℕ) (ok : Bool) : FileLogAppender :=
  let s := if s.fail then s else s.close
  let s := s.openStream ok
  { s with
    reopenError := s.fail
    reopened := ⟨now, s.path, ok⟩ :: s.reopened }

/-- The members before the constructor's `Reopen`. -/
def unopened : FileLogAppender where
  isOpen := false
  file := 0
  fail := false
  reopenError := false
  lastTime := 0
  path := 0
  phase := fun _ => .outside
  reopened := []
  outcomes := []

/-- The constructor's `Reopen` is for the time that `last_time_` starts with. -/
def new (ok : Bool) : FileLogAppender := unopened.reopen (some 0) ok

def setPhase (s : FileLogAppender) (t : ThreadId) (phase : LogPhase) : FileLogAppender :=
  { s with phase := Function.update s.phase t phase }

/-- The thread returns. -/
def finish (s : FileLogAppender) (t : ThreadId) (now : ℕ) (result : LogResult) : FileLogAppender :=
  { s.setPhase t .outside with outcomes := ⟨now, result, s.reopened⟩ :: s.outcomes }

def step (s : FileLogAppender) : LogOp → Option FileLogAppender
  | .log t now =>
    if s.phase t = .outside then
      some (s.setPhase t
        (if (s.lastTime + 3) % 2 ^ 64 ≤ now then .reopening now else .testing now))
    else none
  | .reopenFor t ok =>
    match s.phase t with
    | .reopening now => some ((s.reopen (some now) ok).setPhase t (.stamping now))
    | _ => none
  | .stamp t =>
    match s.phase t with
    | .stamping now => some { s.setPhase t (.testing now) with lastTime := now }
    | _ => none
  | .test t =>
    match s.phase t with
    | .testing now =>
      some (if s.reopenError then s.finish t now .dropped else s.setPhase t (.formatting now))
    | _ => none
  | .format t ok =>
    match s.phase t with
    | .formatting now =>
      -- nothing is written to a stream in error
      some (if s.fail then s.finish t now .dropped
        else if ok then s.finish t now (.written s.file)
        else { s.finish t now .failed with fail := true })
    | _ => none
  | .reopen ok => some (s.reopen none ok)
  | .rotate => some { s with path := s.path + 1 }

/-- A write has failed. -/
def Broken (outcomes : List LogOutcome) : Prop := ∃ o ∈ outcomes, o.result = .failed

/-- The last `Reopen` could open the file. -/
def openable : List Reopening → Bool
  | [] => false
  | r :: _ => r.ok

/-- Some `Reopen` is for an event less than three seconds older. -/
def Recent (reopened : List Reopening) (now : ℕ) : Prop :=
  ∃ r ∈ reopened, ∃ event, r.now = some event ∧ now < event + 3

/-- An event is dropped if and only if a write has failed before or the last `Reopen` could not
open the file. What is written goes to a file as new as the path's at every `Reopen` before, among
them one for an event less than three seconds older. -/
def Right (o : LogOutcome) (earlier : List LogOutcome) : Prop :=
  (o.result = .dropped ↔ Broken earlier ∨ openable o.reopened = false) ∧
    ∀ file, o.result = .written file →
      (∀ r ∈ o.reopened, r.path ≤ file) ∧ Recent o.reopened o.now

def AllRight (outcomes : List LogOutcome) : Prop :=
  ∀ o earlier, (o :: earlier) <:+ outcomes → Right o earlier

/-- What a thread in this phase relies on. -/
def Grounded (reopened : List Reopening) : LogPhase → Prop
  | .outside | .reopening _ => True
  | .stamping now => ∃ r ∈ reopened, r.now = some now
  | .testing now | .formatting now => Recent reopened now

structure Inv (s : FileLogAppender) : Prop where
  allRight : AllRight s.outcomes
  grounded : ∀ t, Grounded s.reopened (s.phase t)
  lastTime : ∃ r ∈ s.reopened, r.now = some s.lastTime
  paths : ∀ r ∈ s.reopened, r.path ≤ s.path
  files : s.fail = false → ∀ r ∈ s.reopened, r.path ≤ s.file
  /-- After a failed write the stream stays open, in error. -/
  broken : Broken s.outcomes → s.isOpen = true ∧ s.fail = true
  sound : ¬ Broken s.outcomes → s.isOpen = openable s.reopened ∧
    s.fail = !openable s.reopened ∧ s.reopenError = !openable s.reopened

variable {s s' : FileLogAppender} {t : ThreadId} {now : ℕ}

@[simp] theorem close_reopened (s : FileLogAppender) : s.close.reopened = s.reopened := by
  rw [close]
  split_ifs <;> rfl

theorem Grounded.cons {reopened : List Reopening} {phase : LogPhase} (h : Grounded reopened phase)
    (r : Reopening) : Grounded (r :: reopened) phase := by
  cases phase with
  | outside => trivial
  | reopening now => trivial
  | stamping now =>
    obtain ⟨e, he, hn⟩ := h
    exact ⟨e, List.mem_cons_of_mem r he, hn⟩
  | testing now =>
    obtain ⟨e, he, hn⟩ := h
    exact ⟨e, List.mem_cons_of_mem r he, hn⟩
  | formatting now =>
    obtain ⟨e, he, hn⟩ := h
    exact ⟨e, List.mem_cons_of_mem r he, hn⟩

theorem AllRight.cons {outcomes : List LogOutcome} {o : LogOutcome} (h : AllRight outcomes)
    (ho : Right o outcomes) : AllRight (o :: outcomes) := by
  intro p earlier hp
  rcases List.suffix_cons_iff.mp hp with heq | hp
  · obtain ⟨rfl, rfl⟩ := List.cons.inj heq
    exact ho
  · exact h p earlier hp

theorem broken_cons {outcomes : List LogOutcome} {o : LogOutcome} (ho : o.result ≠ .failed) :
    Broken (o :: outcomes) ↔ Broken outcomes := by
  simp [Broken, ho]

/-- A `Reopen` leaves everything but the stream and its own record alone. -/
theorem reopen_frame (s : FileLogAppender) (now : Option ℕ) (ok : Bool) :
    (s.reopen now ok).reopened = ⟨now, s.path, ok⟩ :: s.reopened ∧
      (s.reopen now ok).outcomes = s.outcomes ∧ (s.reopen now ok).phase = s.phase ∧
      (s.reopen now ok).lastTime = s.lastTime ∧ (s.reopen now ok).path = s.path := by
  simp only [reopen, openStream, close]
  split_ifs <;> exact ⟨rfl, rfl, rfl, rfl, rfl⟩

/-- An open stream in error stays as it is. -/
theorem reopen_stuck (now : Option ℕ) (hopen : s.isOpen = true) (hfail : s.fail = true)
    (ok : Bool) : (s.reopen now ok).isOpen = true ∧ (s.reopen now ok).fail = true := by
  simp [reopen, openStream, hopen, hfail]

/-- A stream that is open without an error, or in error and not open, is opened if the system can;
so is the one that has not been used. -/
theorem reopen_healthy (now : Option ℕ) (h : s.fail = true → s.isOpen = false) (ok : Bool) :
    (s.reopen now ok).isOpen = ok ∧ (s.reopen now ok).fail = !ok ∧
      (s.reopen now ok).reopenError = !ok ∧
        (ok = true → (s.reopen now ok).file = s.path) := by
  cases hfail : s.fail with
  | true => cases ok <;> simp [reopen, openStream, hfail, h hfail]
  | false =>
    cases hopen : s.isOpen <;> cases ok <;> simp [reopen, openStream, close, hfail, hopen]

theorem Inv.closed_of_fail (h : s.Inv) (hb : ¬ Broken s.outcomes) :
    s.fail = true → s.isOpen = false := by
  obtain ⟨hopen, hfail, -⟩ := h.sound hb
  intro hf
  rw [hopen]
  simpa [hf] using hfail

theorem new_inv (ok : Bool) : (new ok).Inv := by
  obtain ⟨hreopened, houtcomes, hphase, hlast, hpath⟩ := reopen_frame unopened (some 0) ok
  obtain ⟨hopen, hfail, herror, hfile⟩ :=
    reopen_healthy (s := unopened) (some 0) (by simp [unopened]) ok
  refine ⟨?_, ?_, ?_, ?_, ?_, ?_, ?_⟩
  all_goals simp only [new]
  · rw [houtcomes]
    intro o earlier ho
    simp [unopened] at ho
  · rw [hphase]
    exact fun t => trivial
  · rw [hreopened, hlast]
    exact ⟨_, List.mem_cons_self, rfl⟩
  · rw [hreopened, hpath]
    simp [unopened]
  · rw [hreopened, hfail]
    intro hok
    rw [hfile (by simpa using hok)]
    simp [unopened]
  · rw [houtcomes]
    rintro ⟨o, ho, -⟩
    simp [unopened] at ho
  · rw [hreopened]
    exact fun _ => ⟨hopen, hfail, herror⟩

theorem Inv.reopen (h : s.Inv) (now : Option ℕ) (ok : Bool) : (s.reopen now ok).Inv := by
  obtain ⟨hreopened, houtcomes, hphase, hlast, hpath⟩ := reopen_frame s now ok
  have hpaths : ∀ r ∈ (⟨now, s.path, ok⟩ : Reopening) :: s.reopened, r.path ≤ s.path :=
    List.forall_mem_cons.mpr ⟨le_rfl, h.paths⟩
  by_cases hb : Broken s.outcomes
  · obtain ⟨hopen, hfail⟩ := h.broken hb
    obtain ⟨hopen', hfail'⟩ := reopen_stuck now hopen hfail ok
    refine ⟨houtcomes ▸ h.allRight, ?_, ?_, ?_, ?_, fun _ => ⟨hopen', hfail'⟩, ?_⟩
    · rw [hreopened, hphase]
      exact fun t => (h.grounded t).cons _
    · rw [hreopened, hlast]
      exact h.lastTime.imp fun r => And.imp_left (List.mem_cons_of_mem _)
    · rwa [hreopened, hpath]
    · intro hf
      rw [hfail'] at hf
      cases hf
    · rw [houtcomes]
      exact fun hn => absurd hb hn
  · obtain ⟨hopen, hfail, herror, hfile⟩ := reopen_healthy now (h.closed_of_fail hb) ok
    refine ⟨houtcomes ▸ h.allRight, ?_, ?_, ?_, ?_, ?_, ?_⟩
    · rw [hreopened, hphase]
      exact fun t => (h.grounded t).cons _
    · rw [hreopened, hlast]
      exact h.lastTime.imp fun r => And.imp_left (List.mem_cons_of_mem _)
    · rwa [hreopened, hpath]
    · intro hf
      rw [hreopened, hfile (by simpa [hfail] using hf)]
      exact hpaths
    · rw [houtcomes]
      exact fun hb' => absurd hb' hb
    · rw [hreopened]
      exact fun _ => ⟨hopen, hfail, herror⟩

/-- A thread goes on, if what it then relies on holds. -/
theorem Inv.setPhase (h : s.Inv) {phase : LogPhase} (hp : Grounded s.reopened phase) :
    (s.setPhase t phase).Inv where
  allRight := h.allRight
  grounded := by
    intro u
    by_cases hu : u = t
    · subst hu
      simpa [FileLogAppender.setPhase] using hp
    · simpa [FileLogAppender.setPhase, hu] using h.grounded u
  lastTime := h.lastTime
  paths := h.paths
  files := h.files
  broken := h.broken
  sound := h.sound

/-- A thread outside relies on nothing. -/
theorem Inv.outside (h : s.Inv) (t u : ThreadId) :
    Grounded s.reopened ((s.setPhase t .outside).phase u) :=
  have hout : Grounded s.reopened .outside := trivial
  (h.setPhase hout).grounded u

/-- An event is dropped when the stream, or the last `Reopen`, is in error. -/
theorem Inv.drop (h : s.Inv) (he : s.fail = true ∨ s.reopenError = true) :
    (s.finish t now .dropped).Inv where
  allRight := by
    apply h.allRight.cons
    refine ⟨iff_of_true rfl ?_, by simp⟩
    by_cases hb : Broken s.outcomes
    · exact .inl hb
    · obtain ⟨-, hfail, herror⟩ := h.sound hb
      rw [hfail, herror, or_self] at he
      exact .inr (by simpa using he)
  grounded := h.outside t
  lastTime := h.lastTime
  paths := h.paths
  files := h.files
  broken := fun hb => h.broken ((broken_cons (by simp)).mp hb)
  sound := fun hb => h.sound fun hb' => hb ((broken_cons (by simp)).mpr hb')

/-- Without an error the last `Reopen` has opened the file. -/
theorem Inv.openable_of_fail (h : s.Inv) (hf : s.fail = false) :
    ¬ Broken s.outcomes ∧ openable s.reopened = true := by
  have hb : ¬ Broken s.outcomes := by
    intro hb
    rw [(h.broken hb).2] at hf
    cases hf
  refine ⟨hb, ?_⟩
  simpa [hf] using (h.sound hb).2.1

theorem Inv.write (h : s.Inv) (hf : s.fail = false) (hr : Recent s.reopened now) :
    (s.finish t now (.written s.file)).Inv where
  allRight := by
    apply h.allRight.cons
    obtain ⟨hb, hok⟩ := h.openable_of_fail hf
    refine ⟨iff_of_false (by simp) (by simp [hb, hok]), ?_⟩
    rintro file hfile
    obtain rfl := LogResult.written.inj hfile
    exact ⟨h.files hf, hr⟩
  grounded := h.outside t
  lastTime := h.lastTime
  paths := h.paths
  files := h.files
  broken := fun hb => h.broken ((broken_cons (by simp)).mp hb)
  sound := fun hb => h.sound fun hb' => hb ((broken_cons (by simp)).mpr hb')

theorem Inv.fail (h : s.Inv) (hf : s.fail = false) :
    { s.finish t now .failed with fail := true }.Inv := by
  obtain ⟨hb, hok⟩ := h.openable_of_fail hf
  have hopen : s.isOpen = true := (h.sound hb).1.trans hok
  have hbroken : Broken (⟨now, .failed, s.reopened⟩ :: s.outcomes) :=
    ⟨_, List.mem_cons_self, rfl⟩
  refine ⟨h.allRight.cons ⟨iff_of_false (by simp) (by simp [hb, hok]), by simp⟩,
    h.outside t, h.lastTime, h.paths, by simp,
    fun _ => ⟨hopen, rfl⟩, fun hn => absurd hbroken hn⟩

theorem Inv.step {op : LogOp} (h : s.Inv) (hs : s.step op = some s') : s'.Inv := by
  cases op with
  | log t now =>
    obtain ⟨-, rfl⟩ := Option.ite_some_none_eq_some.mp hs
    apply h.setPhase
    split_ifs with hn
    · trivial
    · obtain ⟨r, hr, hlast⟩ := h.lastTime
      have hle := Nat.mod_le (s.lastTime + 3) (2 ^ 64)
      exact ⟨r, hr, s.lastTime, hlast, by omega⟩
  | reopenFor t ok =>
    simp only [FileLogAppender.step] at hs
    split at hs
    case h_1 now hp =>
      obtain rfl := Option.some.inj hs
      apply (h.reopen (some now) ok).setPhase
      rw [(reopen_frame s (some now) ok).1]
      exact ⟨_, List.mem_cons_self, rfl⟩
    case h_2 => cases hs
  | stamp t =>
    simp only [FileLogAppender.step] at hs
    split at hs
    case h_1 now hp =>
      obtain rfl := Option.some.inj hs
      obtain ⟨r, hr, hn⟩ : ∃ r ∈ s.reopened, r.now = some now := by
        simpa [hp, Grounded] using h.grounded t
      have hphase : (s.setPhase t (.testing now)).Inv := h.setPhase ⟨r, hr, now, hn, by omega⟩
      exact ⟨hphase.allRight, hphase.grounded, ⟨r, hr, hn⟩, h.paths, h.files, h.broken, h.sound⟩
    case h_2 => cases hs
  | test t =>
    simp only [FileLogAppender.step] at hs
    split at hs
    case h_1 now hp =>
      obtain rfl := Option.some.inj hs
      have hrecent : Recent s.reopened now := by simpa [hp, Grounded] using h.grounded t
      split_ifs with he
      · exact h.drop (.inr he)
      · exact h.setPhase hrecent
    case h_2 => cases hs
  | format t ok =>
    simp only [FileLogAppender.step] at hs
    split at hs
    case h_1 now hp =>
      obtain rfl := Option.some.inj hs
      have hrecent : Recent s.reopened now := by simpa [hp, Grounded] using h.grounded t
      split_ifs with hf hok
      · exact h.drop (.inl hf)
      · exact h.write (by simpa using hf) hrecent
      · exact h.fail (by simpa using hf)
    case h_2 => cases hs
  | reopen ok =>
    obtain rfl := Option.some.inj hs
    exact h.reopen none ok
  | rotate =>
    obtain rfl := Option.some.inj hs
    exact ⟨h.allRight, h.grounded, h.lastTime, fun r hr => (h.paths r hr).trans (Nat.le_succ _),
      h.files, h.broken, h.sound⟩

end FileLogAppender

end ServerFramework
