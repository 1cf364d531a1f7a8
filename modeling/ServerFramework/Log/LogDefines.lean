import Mathlib.Data.List.Chain
import Mathlib.Data.String.Basic
import Mathlib.Logic.Function.Basic
import ServerFramework.Lib.OrderedSet
import ServerFramework.Lib.Transition

/-! # Loading the configuration of the loggers

The variable `logs` holds a set of definitions, ordered by name. `SetValue` returns at once if the
new set equals the stored one; otherwise the listener sets up the loggers that are new and clears
those that are gone. The equality of definitions compares the appenders of one side with
themselves, and a logger whose definition has changed is looked up but not assigned.
-/

namespace ServerFramework

open Transition

/-- `LogLevel::Level`. -/
inductive LogLevel where
  | fatal
  | alert
  | crit
  | error
  | warn
  | notice
  | info
  | debug
  | notset
  deriving DecidableEq, Repr

/-- The types 1 and 2 of an appender's definition. -/
inductive AppenderType where
  | file
  | stdout
  deriving DecidableEq, Repr

structure LogAppenderDefine where
  type : AppenderType
  pattern : String
  file : String
  deriving DecidableEq, Repr

structure LogDefine where
  name : String
  level : LogLevel
  appenders : List LogAppenderDefine
  deriving DecidableEq, Repr

/-- `std::set<LogDefine>`. -/
structure LogDefines where
  elems : List LogDefine
  ascending : OrderedSet.Ascending LogDefine.name elems

/-- A `LogAppender` with the pattern of its formatter. -/
inductive Appender where
  | file (file pattern : String)
  | stdout (pattern : String)
  deriving DecidableEq, Repr

/-- The part of a `Logger` that can be configured. -/
structure Logger where
  level : LogLevel
  appenders : List Appender
  deriving DecidableEq, Repr

/-- The pattern of a `LogFormatter` that is given none. -/
def defaultPattern : String :=
  "%d\x7b%Y-%m-%d %H:%M:%S\x7d [%rms]%T%t%T%N%T%F%T[%p]%T[%c]%T%f:%l%T%m%n"

/-- The appender that the listener makes; there is none on the terminal of a daemon. -/
def LogAppenderDefine.appender (daemon : Bool) (a : LogAppenderDefine) : Option Appender :=
  let pattern := if a.pattern = "" then defaultPattern else a.pattern
  match a.type with
  | .file => some (.file a.file pattern)
  | .stdout => if daemon then none else some (.stdout pattern)

namespace LogDefine

/-- `operator==`. -/
def eq (a b : LogDefine) : Bool :=
  a.name = b.name && a.level = b.level && a.appenders = a.appenders

/-- `operator<`. -/
def lt (a b : LogDefine) : Bool := a.name < b.name

/-- The logger as the definition describes it. -/
def logger (daemon : Bool) (a : LogDefine) : Logger :=
  ⟨a.level, a.appenders.filterMap (LogAppenderDefine.appender daemon)⟩

end LogDefine

namespace LogDefines

def empty : LogDefines := ⟨[], List.Pairwise.nil⟩

/-- `operator==` of sets. -/
def eq (v w : LogDefines) : Bool := v.elems.isEqv w.elems LogDefine.eq

def find (v : LogDefines) (i : LogDefine) : Option LogDefine :=
  OrderedSet.find LogDefine.lt i v.elems

/-- A definition of the name is there. -/
def Names (v : LogDefines) (name : String) : Prop := ∃ d ∈ v.elems, d.name = name

end LogDefines

/-- What `LOG_NAME` finds under each name. -/
abbrev Loggers := String → Logger

/-- The loop of the listener over the new definitions; without a result if the null `logger` is
followed. -/
def applyDefine (daemon : Bool) (old : LogDefines) (loggers : Loggers) (i : LogDefine) :
    Option Loggers :=
  match old.find i with
  | none => some (Function.update loggers i.name (i.logger daemon))
  | some it =>
    -- `logger == LOG_NAME(i.name)` does not assign
    if !i.eq it then none else some loggers

/-- The loop of the listener over the old definitions. -/
def dropDefine (new : LogDefines) (loggers : Loggers) (i : LogDefine) : Loggers :=
  if (new.find i).isNone then Function.update loggers i.name ⟨.notset, []⟩ else loggers

/-- The listener of `logs`. -/
def onLogsChanged (daemon : Bool) (old new : LogDefines) (loggers : Loggers) : Option Loggers :=
  (new.elems.foldlM (applyDefine daemon old) loggers).map fun loggers' =>
    old.elems.foldl (dropDefine new) loggers'

/-- The loggers and the variable, with the value passed last and the names passed so far. -/
structure LogConfig where
  loggers : Loggers
  val : LogDefines
  crashed : Bool
  passed : LogDefines
  named : List String

namespace LogConfig

def new (loggers : Loggers) : LogConfig where
  loggers := loggers
  val := .empty
  crashed := false
  passed := .empty
  named := []

/-- `g_log_defines->SetValue(v)`. -/
def setValue (daemon : Bool) (s : LogConfig) (v : LogDefines) : LogConfig :=
  let s' := { s with passed := v, named := s.named ++ v.elems.map LogDefine.name }
  if s.crashed || v.eq s.val then s'
  else
    match onLogsChanged daemon s.val v s.loggers with
    | none => { s' with crashed := true }
    | some loggers => { s' with loggers := loggers, val := v }

def step (s : LogConfig) (v : LogDefines) : Option LogConfig := some (s.setValue false v)

/-- No null logger was followed, the loggers are as the value passed last says, and those named
before and not there have no appenders. -/
structure Converged (s : LogConfig) : Prop where
  completed : s.crashed = false
  configured : ∀ d ∈ s.passed.elems, s.loggers d.name = d.logger false
  cleared : ∀ name ∈ s.named, ¬ s.passed.Names name → (s.loggers name).appenders = []

end LogConfig

/-- A logger defined in both sets is described alike. -/
def Compatible (old new : LogDefines) : Prop :=
  ∀ d ∈ old.elems, ∀ i ∈ new.elems, d.name = i.name → d.logger false = i.logger false

theorem LogDefine.eq_iff (a b : LogDefine) :
    a.eq b = true ↔ a.name = b.name ∧ a.level = b.level := by
  simp [LogDefine.eq]

theorem LogDefine.lt_iff (a b : LogDefine) : a.lt b = true ↔ a.name < b.name :=
  decide_eq_true_iff

namespace LogDefines

variable {v w : LogDefines}

theorem find_some {i it : LogDefine} (h : v.find i = some it) :
    it ∈ v.elems ∧ it.name = i.name :=
  OrderedSet.find_some LogDefine.lt_iff h

theorem find_eq_none_iff {i : LogDefine} : v.find i = none ↔ ¬ v.Names i.name := by
  constructor
  · rintro h ⟨d, hd, hname⟩
    exact OrderedSet.ne_of_find_none LogDefine.lt_iff v.ascending h d hd hname
  · intro h
    rw [Option.eq_none_iff_forall_ne_some]
    exact fun it hit => h ⟨it, find_some hit⟩

theorem eq_of_name {a b : LogDefine} (ha : a ∈ v.elems) (hb : b ∈ v.elems)
    (hname : a.name = b.name) : a = b :=
  v.ascending.eq_of_key ha hb hname

/-- The sets have the same names with the same levels. -/
structure Alike (v w : LogDefines) : Prop where
  left : ∀ i ∈ v.elems, ∃ j ∈ w.elems, i.name = j.name ∧ i.level = j.level
  right : ∀ j ∈ w.elems, ∃ i ∈ v.elems, i.name = j.name ∧ i.level = j.level

theorem Alike.refl (v : LogDefines) : v.Alike v :=
  ⟨fun i hi => ⟨i, hi, rfl, rfl⟩, fun i hi => ⟨i, hi, rfl, rfl⟩⟩

theorem Alike.names (h : v.Alike w) (name : String) : v.Names name ↔ w.Names name := by
  constructor
  · rintro ⟨d, hd, rfl⟩
    obtain ⟨j, hj, hname, -⟩ := h.left d hd
    exact ⟨j, hj, hname.symm⟩
  · rintro ⟨d, hd, rfl⟩
    obtain ⟨i, hi, hname, -⟩ := h.right d hd
    exact ⟨i, hi, hname⟩

theorem alike_of_eq (h : v.eq w = true) : v.Alike w := by
  have hall : ∀ l m : List LogDefine, l.isEqv m LogDefine.eq = true →
      (∀ i ∈ l, ∃ j ∈ m, i.eq j = true) ∧ ∀ j ∈ m, ∃ i ∈ l, i.eq j = true := by
    intro l
    induction l with
    | nil =>
      intro m hm
      cases m with
      | nil => simp
      | cons b m => cases hm
    | cons a l ih =>
      intro m hm
      cases m with
      | nil => cases hm
      | cons b m =>
        obtain ⟨hab, hlm⟩ := Bool.and_eq_true_iff.mp hm
        obtain ⟨hl, hr⟩ := ih m hlm
        constructor
        · refine List.forall_mem_cons.mpr ⟨⟨b, List.mem_cons_self, hab⟩, fun i hi => ?_⟩
          obtain ⟨j, hj, hij⟩ := hl i hi
          exact ⟨j, List.mem_cons_of_mem _ hj, hij⟩
        · refine List.forall_mem_cons.mpr ⟨⟨a, List.mem_cons_self, hab⟩, fun j hj => ?_⟩
          obtain ⟨i, hi, hij⟩ := hr j hj
          exact ⟨i, List.mem_cons_of_mem _ hi, hij⟩
  obtain ⟨hl, hr⟩ := hall _ _ h
  simp only [LogDefine.eq_iff] at hl hr
  exact ⟨hl, hr⟩

end LogDefines

section Listener

variable {daemon : Bool} {old : LogDefines} {loggers : Loggers}

/-- No definition changes the level of an old one. -/
def SameLevels (old : LogDefines) (l : List LogDefine) : Prop :=
  ∀ i ∈ l, ∀ it ∈ old.elems, it.name = i.name → it.level = i.level

/-- What happens to a name that is not in the list, or that is not new. -/
theorem applyDefines_some (daemon : Bool) (loggers : Loggers) {l : List LogDefine}
    (hl : SameLevels old l) (hasc : OrderedSet.Ascending LogDefine.name l) :
    ∃ loggers', l.foldlM (applyDefine daemon old) loggers = some loggers' ∧
      (∀ i ∈ l, ¬ old.Names i.name → loggers' i.name = i.logger daemon) ∧
      ∀ name, ((∀ i ∈ l, i.name ≠ name) ∨ old.Names name) → loggers' name = loggers name := by
  induction l generalizing loggers with
  | nil => exact ⟨loggers, rfl, by simp, fun _ _ => rfl⟩
  | cons i l ih =>
    obtain ⟨hi, hasc'⟩ := List.pairwise_cons.mp hasc
    have hl' : SameLevels old l := fun j hj => hl j (List.mem_cons_of_mem _ hj)
    rw [List.foldlM_cons]
    cases hfind : old.find i with
    | none =>
      have hnew := LogDefines.find_eq_none_iff.mp hfind
      obtain ⟨loggers', hrun, hset, hsame⟩ :=
        ih (Function.update loggers i.name (i.logger daemon)) hl' hasc'
      refine ⟨loggers', ?_, ?_, ?_⟩
      · rw [applyDefine, hfind]
        exact hrun
      · refine List.forall_mem_cons.mpr ⟨fun _ => ?_, hset⟩
        rw [hsame i.name (Or.inl fun j hj => (hi j hj).ne'), Function.update_self]
      · intro name hname
        have hne : name ≠ i.name := by
          rintro rfl
          rcases hname with hname | hname
          · exact hname i List.mem_cons_self rfl
          · exact hnew hname
        rw [hsame name (hname.imp_left fun h j hj => h j (List.mem_cons_of_mem _ hj)),
          Function.update_of_ne hne]
    | some it =>
      obtain ⟨hit, hname⟩ := LogDefines.find_some hfind
      have heq : i.eq it = true :=
        (LogDefine.eq_iff _ _).mpr ⟨hname.symm, (hl i List.mem_cons_self it hit hname).symm⟩
      obtain ⟨loggers', hrun, hset, hsame⟩ := ih loggers hl' hasc'
      refine ⟨loggers', ?_, ?_, ?_⟩
      · rw [applyDefine, hfind]
        simpa [heq] using hrun
      · exact List.forall_mem_cons.mpr ⟨fun hnew => absurd ⟨it, hit, hname⟩ hnew, hset⟩
      · intro name hn
        exact hsame name (hn.imp_left fun h j hj => h j (List.mem_cons_of_mem _ hj))

/-- A changed level makes the listener follow the null logger. -/
theorem applyDefines_none {l : List LogDefine} (hl : ¬ SameLevels old l) :
    l.foldlM (applyDefine daemon old) loggers = none := by
  induction l generalizing loggers with
  | nil => exact absurd (by simp [SameLevels]) hl
  | cons i l ih =>
    rw [List.foldlM_cons]
    cases happly : applyDefine daemon old loggers i with
    | none => rfl
    | some loggers' =>
      refine ih fun hrest => hl (List.forall_mem_cons.mpr ⟨?_, hrest⟩)
      intro it hit hname
      cases hfind : old.find i with
      | none => exact absurd ⟨it, hit, hname⟩ (LogDefines.find_eq_none_iff.mp hfind)
      | some it' =>
        obtain ⟨hit', hname'⟩ := LogDefines.find_some hfind
        obtain rfl := LogDefines.eq_of_name hit hit' (hname.trans hname'.symm)
        rw [applyDefine, hfind] at happly
        by_contra hlevel
        have hne : i.eq it = false := by
          rw [← Bool.not_eq_true, LogDefine.eq_iff]
          exact fun h => hlevel h.2.symm
        simp [hne] at happly

theorem dropDefines_kept {new : LogDefines} {l : List LogDefine} {name : String}
    (h : new.Names name ∨ ∀ i ∈ l, i.name ≠ name) :
    l.foldl (dropDefine new) loggers name = loggers name := by
  induction l generalizing loggers with
  | nil => rfl
  | cons i l ih =>
    rw [List.foldl_cons, ih (h.imp_right fun hl j hj => hl j (List.mem_cons_of_mem _ hj)),
      dropDefine]
    split_ifs with hgone
    · have hne : name ≠ i.name := by
        rintro rfl
        rcases h with hnew | hl
        · exact LogDefines.find_eq_none_iff.mp (Option.isNone_iff_eq_none.mp hgone) hnew
        · exact hl i List.mem_cons_self rfl
      rw [Function.update_of_ne hne]
    · rfl

theorem dropDefines_gone {new : LogDefines} {l : List LogDefine} {name : String}
    (hnew : ¬ new.Names name) (hl : ∃ i ∈ l, i.name = name) :
    l.foldl (dropDefine new) loggers name = ⟨.notset, []⟩ := by
  induction l generalizing loggers with
  | nil =>
    obtain ⟨i, hi, -⟩ := hl
    exact absurd hi List.not_mem_nil
  | cons j l ih =>
    rw [List.foldl_cons]
    by_cases hrest : ∃ i ∈ l, i.name = name
    · exact ih hrest
    · obtain ⟨i, hi, rfl⟩ := hl
      have hij : i = j := by
        rcases List.mem_cons.mp hi with hij | hi
        · exact hij
        · exact absurd ⟨i, hi, rfl⟩ hrest
      have hgone : (new.find j).isNone = true := by
        rw [Option.isNone_iff_eq_none, LogDefines.find_eq_none_iff, ← hij]
        exact hnew
      rw [dropDefines_kept (Or.inr fun k hk hname => hrest ⟨k, hk, hname⟩), dropDefine,
        if_pos hgone, hij, Function.update_self]

end Listener

namespace LogConfig

variable {s s' : LogConfig} {v : LogDefines}

/-- The value stored and the one passed last have the same names and levels. -/
def Inv (s : LogConfig) : Prop := s.crashed = false → s.passed.Alike s.val

theorem setValue_of_eq (h : v.eq s.val = true) : s.setValue false v =
    { s with passed := v, named := s.named ++ v.elems.map LogDefine.name } := by
  simp [setValue, h]

theorem setValue_passed (s : LogConfig) (v : LogDefines) : (s.setValue false v).passed = v := by
  unfold setValue
  dsimp only
  split_ifs
  · rfl
  · cases onLogsChanged false s.val v s.loggers <;> rfl

theorem setValue_named (s : LogConfig) (v : LogDefines) :
    (s.setValue false v).named = s.named ++ v.elems.map LogDefine.name := by
  unfold setValue
  dsimp only
  split_ifs
  · rfl
  · cases onLogsChanged false s.val v s.loggers <;> rfl

theorem inv_setValue (s : LogConfig) (v : LogDefines) : (s.setValue false v).Inv := by
  unfold LogConfig.setValue
  dsimp only
  split_ifs with hc
  · intro hcrashed
    have heq : v.eq s.val = true := by simpa [show s.crashed = false from hcrashed] using hc
    exact LogDefines.alike_of_eq heq
  · cases onLogsChanged false s.val v s.loggers with
    | none => exact fun hcrashed => absurd hcrashed (by simp)
    | some loggers => exact fun _ => LogDefines.Alike.refl v

/-- A call that changes no names or levels returns at once and the loggers stay. -/
theorem converged_same (hi : s.Inv) (h : s.Converged) (heq : v.eq s.val = true) :
    (s.setValue false v).Converged ↔ Compatible s.passed v := by
  have hval := LogDefines.alike_of_eq heq
  have hpassed := hi h.completed
  have hnames : ∀ name, v.Names name ↔ s.passed.Names name :=
    fun name => (hval.names name).trans (hpassed.names name).symm
  rw [setValue_of_eq heq]
  constructor
  · intro h' d hd i hiv hname
    rw [← h.configured d hd, ← h'.configured i hiv, hname]
  · intro hcompatible
    refine ⟨h.completed, ?_, ?_⟩
    · intro i hiv
      obtain ⟨d, hd, hname⟩ := (hnames i.name).mp ⟨i, hiv, rfl⟩
      change s.loggers i.name = _
      rw [← hname, h.configured d hd]
      exact hcompatible d hd i hiv hname
    · intro name hmem hnot
      rcases List.mem_append.mp hmem with hmem | hmem
      · exact h.cleared name hmem fun hp => hnot ((hnames name).mpr hp)
      · obtain ⟨d, hd, rfl⟩ := List.mem_map.mp hmem
        exact absurd ⟨d, hd, rfl⟩ hnot

/-- A call that changes a level. -/
theorem setValue_crashed (hc : s.crashed = false) (hne : v.eq s.val = false)
    (hlevels : ¬ SameLevels s.val v.elems) : (s.setValue false v).crashed = true := by
  have hnone : onLogsChanged false s.val v s.loggers = none := by
    rw [onLogsChanged, applyDefines_none hlevels]
    rfl
  simp [setValue, hc, hne, hnone]

/-- What a call does that changes a name and no level: the loggers that are new are set up, those
that are gone are cleared, and the others are not touched. -/
theorem setValue_loggers (hc : s.crashed = false) (hne : v.eq s.val = false)
    (hlevels : SameLevels s.val v.elems) :
    (s.setValue false v).crashed = false ∧
      (∀ i ∈ v.elems, ¬ s.val.Names i.name →
        (s.setValue false v).loggers i.name = i.logger false) ∧
      (∀ name, s.val.Names name → ¬ v.Names name →
        (s.setValue false v).loggers name = ⟨.notset, []⟩) ∧
      ∀ name, (s.val.Names name ↔ v.Names name) →
        (s.setValue false v).loggers name = s.loggers name := by
  obtain ⟨loggers', hrun, hset, hsame⟩ :=
    applyDefines_some false s.loggers hlevels v.ascending
  have hchanged : onLogsChanged false s.val v s.loggers =
      some (s.val.elems.foldl (dropDefine v) loggers') := by
    rw [onLogsChanged, hrun]
    rfl
  have hs' : s.setValue false v =
      { s with
        loggers := s.val.elems.foldl (dropDefine v) loggers'
        val := v
        passed := v
        named := s.named ++ v.elems.map LogDefine.name } := by
    simp [setValue, hc, hne, hchanged]
  rw [hs']
  refine ⟨hc, ?_, ?_, ?_⟩
  · intro i hiv hnew
    change s.val.elems.foldl (dropDefine v) loggers' i.name = _
    rw [dropDefines_kept (Or.inl ⟨i, hiv, rfl⟩), hset i hiv hnew]
  · intro name hin hnot
    exact dropDefines_gone hnot hin
  · intro name hiff
    change s.val.elems.foldl (dropDefine v) loggers' name = _
    by_cases hin : s.val.Names name
    · rw [dropDefines_kept (Or.inl (hiff.mp hin)), hsame name (Or.inr hin)]
    · rw [dropDefines_kept (Or.inr fun i hi hname => hin ⟨i, hi, hname⟩),
        hsame name (Or.inl fun i hi hname => hin (hiff.mpr ⟨i, hi, hname⟩))]

/-- A call that changes a name or a level. -/
theorem converged_changed (hi : s.Inv) (h : s.Converged) (hne : v.eq s.val = false) :
    (s.setValue false v).Converged ↔ Compatible s.passed v := by
  have hpassed := hi h.completed
  by_cases hlevels : SameLevels s.val v.elems
  swap
  · have hcrashed := setValue_crashed h.completed hne hlevels
    constructor
    · intro h'
      rw [h'.completed] at hcrashed
      cases hcrashed
    · intro hcompatible
      refine absurd ?_ hlevels
      intro i hiv it hit hname
      obtain ⟨d, hd, hdname, hdlevel⟩ := hpassed.right it hit
      have := hcompatible d hd i hiv (hdname.trans hname)
      rw [← hdlevel]
      exact congrArg Logger.level this
  · obtain ⟨hcompleted, hset, hgone, hsame⟩ := setValue_loggers h.completed hne hlevels
    have hold : ∀ d ∈ s.passed.elems, ∀ i ∈ v.elems, d.name = i.name →
        (s.setValue false v).loggers i.name = d.logger false := by
      intro d hd i hiv hname
      have hin : s.val.Names i.name := (hpassed.names _).mp ⟨d, hd, hname⟩
      rw [hsame i.name (iff_of_true hin ⟨i, hiv, rfl⟩), ← hname, h.configured d hd]
    constructor
    · intro h' d hd i hiv hname
      rw [← hold d hd i hiv hname]
      exact h'.configured i (by rwa [setValue_passed])
    · intro hcompatible
      refine ⟨hcompleted, ?_, ?_⟩
      · rw [setValue_passed]
        intro i hiv
        by_cases hin : s.passed.Names i.name
        · obtain ⟨d, hd, hname⟩ := hin
          rw [hold d hd i hiv hname]
          exact hcompatible d hd i hiv hname
        · exact hset i hiv fun hval => hin ((hpassed.names _).mpr hval)
      · rw [setValue_passed, setValue_named]
        intro name hmem hnot
        by_cases hin : s.val.Names name
        · rw [hgone name hin hnot]
        · rw [hsame name (iff_of_false hin hnot)]
          rcases List.mem_append.mp hmem with hmem | hmem
          · exact h.cleared name hmem fun hp => hin ((hpassed.names _).mp hp)
          · obtain ⟨d, hd, rfl⟩ := List.mem_map.mp hmem
            exact absurd ⟨d, hd, rfl⟩ hnot

theorem new_converged (loggers : Loggers) : (new loggers).Converged where
  completed := rfl
  configured := by simp [new, LogDefines.empty]
  cleared := by simp [new]

theorem meets_iff_isChain (s : LogConfig) (vs : List LogDefines) :
    Meets step (fun s v => Compatible s.passed v) s vs ↔ (s.passed :: vs).IsChain Compatible := by
  induction vs generalizing s with
  | nil => simp [Meets]
  | cons v vs ih =>
    simp [Meets, step, ih, setValue_passed, List.isChain_cons_cons]

/-- The loggers are as configured after every call of a sequence exactly if no logger that two
successive values name is described differently. -/
theorem converged_iff_compatible (loggers : Loggers) (vs : List LogDefines) :
    Always step Converged (new loggers) vs ↔ (LogDefines.empty :: vs).IsChain Compatible := by
  have htotal : ∀ s v, ∃ s', step s v = some s' := fun s v => ⟨_, rfl⟩
  obtain ⟨s', hr⟩ := exists_run htotal (new loggers) vs
  rw [← show (new loggers).passed = LogDefines.empty from rfl, ← meets_iff_isChain]
  refine always_iff_meets Inv ?_ ?_ (fun _ => LogDefines.Alike.refl _) (new_converged loggers) hr
  · intro s v s' _ hstep
    obtain rfl := Option.some.inj hstep
    exact inv_setValue s v
  · intro s v s' hinv hs hstep
    obtain rfl := Option.some.inj hstep
    cases heq : v.eq s.val with
    | true => exact converged_same hinv hs heq
    | false => exact converged_changed hinv hs heq

/-- A value with one definition. -/
def single (d : LogDefine) : LogDefines := ⟨[d], List.pairwise_singleton _ _⟩

/-- A reload that changes the level of a logger, and one that moves its output to a file. -/
theorem not_converged_after_reload :
    (∃ s, run step (new fun _ => ⟨.info, []⟩)
        [single ⟨"a", .info, []⟩, single ⟨"a", .debug, []⟩] = some s ∧ s.crashed = true) ∧
      ∃ s, run step (new fun _ => ⟨.info, []⟩)
        [single ⟨"a", .info, [⟨.stdout, "", ""⟩]⟩, single ⟨"a", .info, [⟨.file, "", "log"⟩]⟩] =
          some s ∧ (s.loggers "a").appenders = [.stdout defaultPattern] ∧ ¬ s.Converged := by
  refine ⟨⟨_, rfl, by decide⟩, _, rfl, by decide, ?_⟩
  intro h
  exact absurd (h.configured ⟨"a", .info, [⟨.file, "", "log"⟩]⟩ (List.mem_singleton_self _))
    (by decide)

end LogConfig

end ServerFramework
