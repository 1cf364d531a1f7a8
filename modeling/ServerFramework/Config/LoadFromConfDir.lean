import Mathlib.Logic.Function.Basic
import Mathlib.Tactic.SplitIfs
import ServerFramework.Lib.Transition

/-! # Incremental reload

`LoadFromConfDir` skips the files whose modification time it has on record. It records the time
before it tries to load a file, and a file that it has never seen counts as recorded at time 0.
-/

namespace ServerFramework

open Transition

namespace ConfDir

/-- A `.yml` file when it is looked at: `loads` if neither `YAML::LoadFile` nor `LoadFromYaml`
throws. -/
structure ConfFile where
  path : String
  mtime : Int64
  loads : Bool
  deriving DecidableEq, Repr

/-- A try to load a file, which is logged as ok or as failed. -/
structure Attempt where
  path : String
  mtime : Int64
  ok : Bool
  deriving DecidableEq, Repr

/-- The log, and `s_file2modifytime`, where `operator[]` finds 0 under a path that is not there. -/
structure Reload where
  file2modifytime : String → UInt64
  log : List Attempt

/-- A call of `LoadFromConfDir` with the files there are. -/
structure Call where
  force : Bool
  files : List ConfFile
  nodup : (files.map ConfFile.path).Nodup

def new : Reload where
  file2modifytime := fun _ => 0
  log := []

namespace Reload

/-- The file is skipped. -/
def skips (s : Reload) (force : Bool) (i : ConfFile) : Bool :=
  !force && s.file2modifytime i.path == i.mtime.toUInt64

/-- The body of the loop of `LoadFromConfDir`. -/
def loadFile (force : Bool) (s : Reload) (i : ConfFile) : Reload :=
  if s.skips force i then s
  else
    { file2modifytime := Function.update s.file2modifytime i.path i.mtime.toUInt64
      log := s.log ++ [⟨i.path, i.mtime, i.loads⟩] }

/-- `Config::LoadFromConfDir`. -/
def loadFromConfDir (s : Reload) (call : Call) : Reload :=
  call.files.foldl (loadFile call.force) s

def step (s : Reload) (call : Call) : Option Reload := some (s.loadFromConfDir call)

/-- The file has been loaded as it is. -/
def Applied (s : Reload) (i : ConfFile) : Prop := ⟨i.path, i.mtime, true⟩ ∈ s.log

/-- Whatever the call skips has been applied by an earlier one, and the call is not forced. -/
def SkipsRight (s : Reload) (call : Call) : Prop :=
  ∀ before i after, call.files = before ++ i :: after →
    (before.foldl (loadFile call.force) s).skips call.force i = true →
    call.force = false ∧ s.Applied i

/-- The last try to load the file. -/
def lastAttempt (s : Reload) (path : String) : Option Attempt :=
  s.log.reverse.find? (·.path = path)

/-- An unforced call finds no file at time 0 that was never tried, and none that has failed at the
time it has and was not applied before that. -/
def Careful (s : Reload) (call : Call) : Prop :=
  call.force = false → ∀ i ∈ call.files,
    match s.lastAttempt i.path with
    | none => i.mtime ≠ 0
    | some a => a.mtime = i.mtime → a.ok = false → s.Applied i

/-- The recorded time is that of the last try. -/
def Recorded (s : Reload) : Prop :=
  ∀ path, s.file2modifytime path = (s.lastAttempt path).elim 0 fun a => a.mtime.toUInt64

variable {s : Reload} {i : ConfFile} {force : Bool} {call : Call}

theorem new_recorded : new.Recorded := fun _ => rfl

theorem lastAttempt_append (s : Reload) (times : String → UInt64) (a : Attempt) (path : String) :
    lastAttempt ⟨times, s.log ++ [a]⟩ path =
      if a.path = path then some a else s.lastAttempt path := by
  rw [lastAttempt, List.reverse_append, List.reverse_singleton, List.singleton_append,
    List.find?_cons]
  by_cases h : a.path = path <;> simp [h, lastAttempt]

theorem loadFile_recorded (h : s.Recorded) (force : Bool) (i : ConfFile) :
    (loadFile force s i).Recorded := by
  rw [loadFile]
  split_ifs
  · exact h
  · intro path
    rw [lastAttempt_append]
    by_cases hpath : i.path = path
    · subst hpath
      simp
    · simpa [hpath, Function.update_of_ne (Ne.symm hpath)] using h path

theorem step_recorded (s : Reload) (call : Call) (s' : Reload) (h : s.Recorded)
    (hstep : step s call = some s') : s'.Recorded := by
  obtain rfl := Option.some.inj hstep
  rw [loadFromConfDir]
  induction call.files generalizing s with
  | nil => exact h
  | cons i is ih => exact ih _ (loadFile_recorded h call.force i) rfl

theorem skips_iff (h : s.Recorded) :
    s.skips force i = true ↔ force = false ∧
      (s.lastAttempt i.path).elim 0 (fun a => a.mtime) = i.mtime := by
  have htime : ∀ a b : Int64, a.toUInt64 = b.toUInt64 ↔ a = b :=
    fun a b => ⟨fun h => congrArg Int64.ofUInt64 h, congrArg Int64.toUInt64⟩
  rw [skips, Bool.and_eq_true, Bool.not_eq_true', beq_iff_eq, h i.path]
  cases s.lastAttempt i.path with
  | none => exact and_congr_right fun _ => htime 0 i.mtime
  | some a => exact and_congr_right fun _ => htime a.mtime i.mtime

/-- Other files of a call make no difference. -/
theorem skips_foldl {before : List ConfFile} (h : i.path ∉ before.map ConfFile.path) :
    (before.foldl (loadFile force) s).skips force i = s.skips force i := by
  induction before generalizing s with
  | nil => rfl
  | cons j before ih =>
    rw [List.map_cons, List.mem_cons, not_or] at h
    rw [List.foldl_cons, ih h.2, loadFile]
    split_ifs
    · rfl
    · have htime : Function.update s.file2modifytime j.path j.mtime.toUInt64 i.path =
          s.file2modifytime i.path := Function.update_of_ne h.1 ..
      simp only [skips, htime]

theorem skipsRight_iff_forall (s : Reload) (call : Call) :
    s.SkipsRight call ↔
      ∀ i ∈ call.files, s.skips call.force i = true → call.force = false ∧ s.Applied i := by
  have hbefore : ∀ before i after, call.files = before ++ i :: after →
      i.path ∉ before.map ConfFile.path := by
    intro before i after hfiles hmem
    have hnodup := call.nodup
    rw [hfiles, List.map_append, List.map_cons] at hnodup
    exact (List.nodup_append.mp hnodup).2.2 _ hmem _ List.mem_cons_self rfl
  constructor
  · intro h i hi hskips
    obtain ⟨before, after, hfiles⟩ := List.append_of_mem hi
    refine h before i after hfiles ?_
    rwa [skips_foldl (hbefore before i after hfiles)]
  · intro h before i after hfiles hskips
    rw [skips_foldl (hbefore before i after hfiles)] at hskips
    exact h i (by simp [hfiles]) hskips

theorem lastAttempt_of_applied (h : s.Applied i) : s.lastAttempt i.path ≠ none := by
  rw [lastAttempt, ne_eq, List.find?_eq_none]
  intro hnone
  exact hnone _ (List.mem_reverse.mpr h) (by simp)

theorem applied_of_lastAttempt {a : Attempt} (h : s.lastAttempt i.path = some a)
    (htime : a.mtime = i.mtime) (hok : a.ok = true) : s.Applied i := by
  have hmem := List.mem_reverse.mp (List.mem_of_find?_eq_some h)
  have hpath : a.path = i.path := by simpa using List.find?_some h
  rwa [Applied, ← hpath, ← htime, ← hok]

theorem skipsRight_iff_careful (s : Reload) (call : Call) (h : s.Recorded) :
    s.SkipsRight call ↔ s.Careful call := by
  rw [skipsRight_iff_forall, Careful]
  constructor
  · intro hright hforce i hi
    have hskips : s.skips call.force i = true ↔ _ := skips_iff h
    cases hlast : s.lastAttempt i.path with
    | none =>
      rw [hlast] at hskips
      intro htime
      have happlied := (hright i hi (hskips.mpr ⟨hforce, htime.symm⟩)).2
      exact lastAttempt_of_applied happlied hlast
    | some a =>
      rw [hlast] at hskips
      intro htime _
      exact (hright i hi (hskips.mpr ⟨hforce, htime⟩)).2
  · intro hcareful i hi hskips
    obtain ⟨hforce, htime⟩ := (skips_iff h).mp hskips
    have hfile := hcareful hforce i hi
    refine ⟨hforce, ?_⟩
    cases hlast : s.lastAttempt i.path with
    | none =>
      rw [hlast] at htime hfile
      exact absurd htime.symm hfile
    | some a =>
      rw [hlast] at htime hfile
      by_cases hok : a.ok = true
      · exact applied_of_lastAttempt hlast htime hok
      · exact hfile htime (by simpa using hok)

end Reload

open Reload

/-- A sequence of calls skips only what was applied if and only if all of them are careful. -/
theorem skipsRight_iff_careful_run (calls : List Call) :
    Meets step SkipsRight new calls ↔ Meets step Careful new calls :=
  meets_congr Recorded step_recorded skipsRight_iff_careful new_recorded calls

/-- The file fails to load, and is skipped by the next call. -/
theorem not_skipsRight_failed :
    ¬ Meets step SkipsRight new
      [⟨false, [⟨"a.yml", 1, false⟩], by simp⟩, ⟨false, [⟨"a.yml", 1, false⟩], by simp⟩] := by
  rintro ⟨-, h⟩
  have happlied := ((h _ rfl).1 [] ⟨"a.yml", 1, false⟩ [] rfl (by decide)).2
  exact absurd happlied (by unfold Applied; decide)

end ConfDir

end ServerFramework
