import ServerFramework.Log.LogDefineCast
import ServerFramework.Log.LogDefines

/-! # Saving the loggers

`LoggerManager::ToYamlString` writes the loggers in the form in which the variable `logs` is read.
`ToYamlString` of a terminal appender follows the pointer to its formatter, which is null until
`SetFormatter` is called; and an appender with an empty pattern is read back as one without.
-/

namespace ServerFramework

open Transition

/-- A `LogAppender`, with the pattern of its formatter if it has one. -/
structure LogAppender where
  type : AppenderType
  file : String
  formatter : Option String
  deriving DecidableEq, Repr

namespace LogAppender

/-- The pattern of `GetFormatter`. -/
def getFormatter (a : LogAppender) : String := a.formatter.getD defaultPattern

/-- The node that `ToYamlString` builds, without a result if it follows the null formatter. -/
def node (a : LogAppender) : Option YamlNode :=
  match a.type with
  | .stdout =>
    a.formatter.map fun pattern =>
      .map [("type", .scalar "StdoutLogAppender"), ("pattern", .scalar pattern)]
  | .file =>
    some (.map [("type", .scalar "FileLogAppender"), ("file", .scalar a.file),
      ("pattern", .scalar a.getFormatter)])

def toYamlString (yaml : Yaml) (a : LogAppender) : Option String := a.node.map yaml.emit

/-- What the appender does; a daemon is not given one on the terminal. -/
def appender (daemon : Bool) (a : LogAppender) : Option Appender :=
  match a.type with
  | .file => some (.file a.file a.getFormatter)
  | .stdout => if daemon then none else some (.stdout a.getFormatter)

/-- The definition that is read of the appender's node. -/
def define (a : LogAppender) : LogAppenderDefine :=
  ⟨a.type, a.getFormatter, match a.type with | .file => a.file | .stdout => ""⟩

/-- An appender on the terminal without a formatter. -/
def Bare (a : LogAppender) : Prop := a.type = .stdout ∧ a.formatter = none

end LogAppender

/-- A `Logger`. Appenders are shared between loggers. -/
structure NamedLogger where
  name : String
  level : LogLevel
  appenders : List ℕ
  deriving DecidableEq, Repr

namespace NamedLogger

/-- The order of `loggers_`. -/
def lt (a b : NamedLogger) : Bool := a.name < b.name

theorem lt_iff (a b : NamedLogger) : a.lt b = true ↔ a.name < b.name := decide_eq_true_iff

/-- The node that `ToYamlString` builds, given those of the appenders. -/
def node (l : NamedLogger) (nodes : List YamlNode) : YamlNode :=
  .map ([("name", .scalar l.name), ("level", .scalar l.level.toText)] ++
    if nodes.isEmpty then [] else [("appenders", .sequence nodes)])

def toYamlString (yaml : Yaml) (appender : ℕ → LogAppender) (l : NamedLogger) :
    Option String := do
  let nodes ← l.appenders.mapM fun a => ((appender a).toYamlString yaml).bind yaml.load
  some (yaml.emit (l.node nodes))

end NamedLogger

/-- `LoggerManager`, with the appenders that were made. -/
structure LoggerManager where
  /-- `loggers_`. -/
  loggers : List NamedLogger
  appender : ℕ → LogAppender
  made : ℕ

inductive LoggerOp where
  | getLogger (name : String)
  | setLevel (name : String) (level : LogLevel)
  | makeFile (file : String)
  | makeStdout
  | setFormatter (a : ℕ) (pattern : Option String)
  | addAppender (name : String) (a : ℕ)
  | delAppender (name : String) (a : ℕ)
  | clearAppenders (name : String)
  deriving DecidableEq, Repr

namespace LoggerManager

def new : LoggerManager where
  loggers := [⟨"root", .info, [0]⟩]
  appender _ := ⟨.stdout, "", none⟩
  made := 1

/-- A call of a logger that is there. -/
def change (s : LoggerManager) (name : String) (f : NamedLogger → NamedLogger) :
    Option LoggerManager :=
  if ∃ l ∈ s.loggers, l.name = name then
    some { s with loggers := s.loggers.map fun l => if l.name = name then f l else l }
  else none

def make (s : LoggerManager) (a : LogAppender) : LoggerManager :=
  { s with appender := Function.update s.appender s.made a, made := s.made + 1 }

def step (s : LoggerManager) : LoggerOp → Option LoggerManager
  | .getLogger name =>
    some { s with loggers := OrderedSet.insert NamedLogger.lt ⟨name, .info, []⟩ s.loggers }
  | .setLevel name level => s.change name fun l => ⟨l.name, level, l.appenders⟩
  | .makeFile file => some (s.make ⟨.file, file, none⟩)
  | .makeStdout => some (s.make ⟨.stdout, "", none⟩)
  | .setFormatter a pattern =>
    if a < s.made then
      some { s with
        appender := Function.update s.appender a { s.appender a with formatter := pattern } }
    else none
  | .addAppender name a =>
    if a < s.made then s.change name fun l => ⟨l.name, l.level, l.appenders ++ [a]⟩ else none
  | .delAppender name a => s.change name fun l => ⟨l.name, l.level, l.appenders.erase a⟩
  | .clearAppenders name => s.change name fun l => ⟨l.name, l.level, []⟩

/-- `LoggerManager::ToYamlString`, without a result if a null formatter is followed. -/
def toYamlString (yaml : Yaml) (s : LoggerManager) : Option String := do
  let nodes ← s.loggers.mapM fun l => (l.toYamlString yaml s.appender).bind yaml.load
  some (yaml.emit (if nodes.isEmpty then .null else .sequence nodes))

/-- What a logger does. -/
def logger (daemon : Bool) (s : LoggerManager) (l : NamedLogger) : Logger :=
  ⟨l.level, l.appenders.filterMap fun a => (s.appender a).appender daemon⟩

/-- The definition that is read of a logger's node. -/
def define (s : LoggerManager) (l : NamedLogger) : LogDefine :=
  ⟨l.name, l.level, l.appenders.map fun a => (s.appender a).define⟩

/-- The node of a logger. -/
def node (s : LoggerManager) (l : NamedLogger) : Option YamlNode :=
  (l.appenders.mapM fun a => (s.appender a).node).map l.node

/-- Some logger writes to the terminal by an appender without a formatter. -/
def Bare (s : LoggerManager) : Prop :=
  ∃ l ∈ s.loggers, ∃ a ∈ l.appenders, (s.appender a).Bare

/-- What is written of the loggers is parsed as it was. -/
structure Parses (yaml : Yaml) (s : LoggerManager) : Prop where
  appender : ∀ l ∈ s.loggers, ∀ a ∈ l.appenders, ∀ n ∈ (s.appender a).node,
    yaml.load (yaml.emit n) = some n
  logger : ∀ l ∈ s.loggers, ∀ n ∈ s.node l, yaml.load (yaml.emit n) = some n
  loggers : ∀ nodes ∈ s.loggers.mapM s.node,
    yaml.load (yaml.emit (.sequence nodes)) = some (.sequence nodes)

/-- The loggers are in the order of their names, with the root logger among them. -/
structure Inv (s : LoggerManager) : Prop where
  ascending : OrderedSet.Ascending NamedLogger.name s.loggers
  root : ∃ l ∈ s.loggers, l.name = "root"

section Lists

variable {α β γ : Type} {f : α → Option β} {l : List α}

theorem mapM_eq_none_iff : l.mapM f = none ↔ ∃ a ∈ l, f a = none := by
  induction l with
  | nil => simp
  | cons a l ih =>
    rw [List.mapM_cons]
    cases ha : f a with
    | none => simp [ha]
    | some b => cases hl : l.mapM f <;> simp_all

theorem mapM_congr {g : α → Option β} (h : ∀ a ∈ l, f a = g a) : l.mapM f = l.mapM g := by
  induction l with
  | nil => rfl
  | cons a l ih =>
    obtain ⟨ha, hl⟩ := List.forall_mem_cons.mp h
    rw [List.mapM_cons, List.mapM_cons, ha, ih hl]

/-- What is written element by element is read element by element. -/
theorem mapM_of_mapM {g : β → Option γ} {h : α → γ} {bs : List β} (hbs : l.mapM f = some bs)
    (hg : ∀ a ∈ l, ∀ b, f a = some b → g b = some (h a)) : bs.mapM g = some (l.map h) := by
  induction l generalizing bs with
  | nil =>
    obtain rfl : [] = bs := by simpa using hbs
    rfl
  | cons a l ih =>
    obtain ⟨ha, hl⟩ := List.forall_mem_cons.mp hg
    rw [List.mapM_cons] at hbs
    obtain ⟨b, hb, bs', hbs', rfl⟩ : ∃ b, f a = some b ∧ ∃ bs', l.mapM f = some bs' ∧
        b :: bs' = bs := by simpa [Option.bind_eq_some_iff] using hbs
    rw [List.mapM_cons, ha b hb, ih hbs' hl]
    rfl

/-- Nothing is written for no elements only. -/
theorem eq_nil_of_mapM (h : l.mapM f = some []) : l = [] := by
  cases l with
  | nil => rfl
  | cons a l =>
    rw [List.mapM_cons] at h
    simp [Option.bind_eq_some_iff] at h

theorem filterMap_eq_iff {g : α → Option β} (h : ∀ a, (f a).isSome = (g a).isSome) :
    l.filterMap f = l.filterMap g ↔ ∀ a ∈ l, f a = g a := by
  induction l with
  | nil => simp
  | cons a l ih =>
    have ha := h a
    rw [List.filterMap_cons, List.filterMap_cons, List.forall_mem_cons]
    cases hf : f a <;> cases hg : g a <;> simp_all

end Lists

section Runs

variable {s s' : LoggerManager}

theorem new_inv : new.Inv := ⟨List.pairwise_singleton _ _, _, List.mem_singleton_self _, rfl⟩

/-- A call that keeps the name of its logger. -/
theorem Inv.change (h : s.Inv) {name : String} {f : NamedLogger → NamedLogger}
    (hf : ∀ l, (f l).name = l.name) (hs : s.change name f = some s') : s'.Inv := by
  rw [LoggerManager.change] at hs
  split_ifs at hs
  cases hs
  have hname : ∀ l : NamedLogger, (if l.name = name then f l else l).name = l.name := by
    intro l
    split_ifs
    · exact hf l
    · rfl
  constructor
  · refine List.pairwise_map.mpr (h.ascending.imp ?_)
    intro a b hab
    simpa only [hname] using hab
  · obtain ⟨l, hl, hroot⟩ := h.root
    exact ⟨_, List.mem_map_of_mem hl, (hname l).trans hroot⟩

theorem Inv.getLogger (h : s.Inv) (name : String) :
    Inv { s with loggers := OrderedSet.insert NamedLogger.lt ⟨name, .info, []⟩ s.loggers } := by
  refine ⟨OrderedSet.insert_ascending NamedLogger.lt_iff h.ascending, ?_⟩
  obtain ⟨l, hl, hroot⟩ := h.root
  exact ⟨l, OrderedSet.mem_insert_of_mem hl, hroot⟩

theorem Inv.step (h : s.Inv) {op : LoggerOp} (hs : s.step op = some s') : s'.Inv := by
  cases op with
  | getLogger name =>
    cases hs
    exact h.getLogger name
  | makeFile file | makeStdout =>
    cases hs
    exact ⟨h.ascending, h.root⟩
  | setFormatter a pattern =>
    simp only [LoggerManager.step] at hs
    split_ifs at hs
    cases hs
    exact ⟨h.ascending, h.root⟩
  | addAppender name a =>
    simp only [LoggerManager.step] at hs
    split_ifs at hs
    refine h.change ?_ hs
    exact fun _ => rfl
  | setLevel name level | delAppender name a | clearAppenders name =>
    simp only [LoggerManager.step] at hs
    refine h.change ?_ hs
    exact fun _ => rfl

theorem inv_run {ops : List LoggerOp} (hr : run step new ops = some s) : s.Inv :=
  run_invariant Inv (fun _ _ _ h _ hs => h.step hs) new_inv
    (meets_of_forall (fun _ _ => trivial) _ _) hr

end Runs

section Saved

variable {yaml : Yaml} {s : LoggerManager} {l : NamedLogger}

/-- What is written is the text of the nodes. -/
theorem Parses.toYamlString_logger (h : s.Parses yaml) (hl : l ∈ s.loggers) :
    l.toYamlString yaml s.appender = (s.node l).map yaml.emit := by
  have hnodes : ∀ a ∈ l.appenders, ((s.appender a).toYamlString yaml).bind yaml.load =
      (s.appender a).node := by
    intro a ha
    rw [LogAppender.toYamlString]
    cases hn : (s.appender a).node with
    | none => rfl
    | some n => exact h.appender l hl a ha n hn
  rw [NamedLogger.toYamlString, mapM_congr hnodes, node]
  cases l.appenders.mapM fun a => (s.appender a).node <;> rfl

theorem Parses.toYamlString (h : s.Parses yaml) (hi : s.Inv) :
    s.toYamlString yaml = (s.loggers.mapM s.node).map fun nodes => yaml.emit (.sequence nodes) := by
  have hnodes : ∀ l ∈ s.loggers, (l.toYamlString yaml s.appender).bind yaml.load = s.node l := by
    intro l hl
    rw [h.toYamlString_logger hl]
    cases hn : s.node l with
    | none => rfl
    | some n => exact h.logger l hl n hn
  rw [LoggerManager.toYamlString, mapM_congr hnodes]
  cases hloggers : s.loggers.mapM s.node with
  | none => rfl
  | some nodes =>
    obtain ⟨l, hl, -⟩ := hi.root
    have hne : nodes ≠ [] := by
      rintro rfl
      rw [eq_nil_of_mapM hloggers] at hl
      exact absurd hl List.not_mem_nil
    simp [hne]

theorem node_eq_none_iff (a : LogAppender) : a.node = none ↔ a.Bare := by
  obtain ⟨type, file, formatter⟩ := a
  cases type <;> simp [LogAppender.node, LogAppender.Bare]

/-- The loggers can be written if and only if each appender can. -/
theorem mapM_node_eq_none_iff (s : LoggerManager) : s.loggers.mapM s.node = none ↔ s.Bare := by
  simp only [mapM_eq_none_iff, node, Option.map_eq_none_iff, node_eq_none_iff, Bare]

end Saved

section Read

variable {yaml : Yaml} {s : LoggerManager}

theorem decodeAppender_node (hscalar : ∀ str, yaml.asString (.scalar str) = some str)
    {a : LogAppender} {n : YamlNode} (hn : a.node = some n) :
    LogDefineCast.decodeAppender yaml (some n) = some (some a.define) := by
  obtain ⟨type, file, formatter⟩ := a
  cases type with
  | file =>
    obtain rfl := Option.some.inj hn
    simp [LogDefineCast.decodeAppender, LogDefineCast.decodeFile, YamlNode.get, List.lookup_cons,
      hscalar, LogDefineCast.optional, LogAppender.define]
  | stdout =>
    obtain ⟨pattern, hpattern, rfl⟩ := Option.map_eq_some_iff.mp hn
    obtain rfl : formatter = some pattern := hpattern
    simp [LogDefineCast.decodeAppender, LogDefineCast.decodeStdout, YamlNode.get,
      List.lookup_cons, hscalar, LogDefineCast.optional, LogAppender.define,
      LogAppender.getFormatter]

theorem readDefine_node (hscalar : ∀ str, yaml.asString (.scalar str) = some str)
    {l : NamedLogger} {n : YamlNode} (hn : s.node l = some n) :
    LogDefineCast.readDefine yaml n = some (s.define l) := by
  obtain ⟨nodes, hnodes, rfl⟩ := Option.map_eq_some_iff.mp hn
  obtain ⟨name, level, appenders⟩ := l
  have happenders : ((YamlNode.sequence nodes).items yaml.keyIs).mapM
      (LogDefineCast.decodeAppender yaml) =
        some ((appenders.map fun a => (s.appender a).define).map some) := by
    rw [LogDefineCast.items_sequence, List.mapM_map, List.map_map]
    exact mapM_of_mapM hnodes fun a _ n hn => decodeAppender_node hscalar hn
  by_cases hnil : nodes = []
  · obtain rfl : appenders = [] := eq_nil_of_mapM (hnil ▸ hnodes)
    simp [NamedLogger.node, LogDefineCast.readDefine, YamlNode.get, List.lookup_cons, hscalar,
      LogDefineCast.optional, LogLevel.fromString_toText, hnil, define]
  · simp [NamedLogger.node, LogDefineCast.readDefine, YamlNode.get, List.lookup_cons, hscalar,
      LogDefineCast.optional, LogLevel.fromString_toText, hnil, define, happenders,
      LogDefineCast.reduceOption_map_some, -List.map_map]

/-- The definitions that are read of what is written. -/
theorem Parses.decode (h : s.Parses yaml) (hi : s.Inv)
    (hscalar : ∀ str, yaml.asString (.scalar str) = some str) {nodes : List YamlNode}
    (hnodes : s.loggers.mapM s.node = some nodes) :
    ∃ v, LogDefineCast.decode yaml (yaml.emit (.sequence nodes)) = some v ∧
      v.elems = s.loggers.map s.define := by
  have hread : ((YamlNode.sequence nodes).items yaml.keyIs).mapM (fun n =>
      LogDefineCast.decodeDefine yaml (LogDefineCast.emitItem yaml n)) =
        some (s.loggers.map s.define) := by
    rw [LogDefineCast.items_sequence, List.mapM_map]
    refine mapM_of_mapM hnodes ?_
    intro l hl n hn
    rw [Function.comp_apply, LogDefineCast.emitItem, LogDefineCast.decodeDefine,
      h.logger l hl n hn]
    exact readDefine_node hscalar hn
  have hascending : OrderedSet.Ascending LogDefine.name (s.loggers.map s.define) :=
    List.pairwise_map.mpr hi.ascending
  refine ⟨⟨_, hascending⟩, ?_, rfl⟩
  rw [LogDefineCast.decode, h.loggers nodes hnodes]
  simp only [Option.bind_eq_bind, Option.bind_some, hread]
  exact congrArg some (LogDefineCast.foldl_insert_empty ⟨_, hascending⟩)

end Read

section Restored

variable {s : LoggerManager} {daemon : Bool} {loggers : Loggers}

/-- The pattern of an appender that is made is not empty. -/
def Shown (daemon : Bool) (a : LogAppender) : Prop :=
  a.type = .file ∨ daemon = false → a.getFormatter ≠ ""

theorem appender_define_iff (daemon : Bool) (a : LogAppender) :
    a.define.appender daemon = a.appender daemon ↔ Shown daemon a := by
  have hdefault : defaultPattern ≠ "" := by decide +kernel
  obtain ⟨type, file, formatter⟩ := a
  by_cases hempty : LogAppender.getFormatter ⟨type, file, formatter⟩ = ""
  · cases type <;> cases daemon <;>
      simp [LogAppender.define, LogAppenderDefine.appender, LogAppender.appender, Shown, hempty,
        hdefault]
  · cases type <;> cases daemon <;>
      simp [LogAppender.define, LogAppenderDefine.appender, LogAppender.appender, Shown, hempty]

theorem isSome_appender_define (daemon : Bool) (a : LogAppender) :
    (a.define.appender daemon).isSome = (a.appender daemon).isSome := by
  obtain ⟨type, file, formatter⟩ := a
  cases type <;> cases daemon <;> rfl

/-- A logger is read back as it was if and only if none of its appenders has an empty pattern. -/
theorem logger_define_iff (daemon : Bool) (s : LoggerManager) (l : NamedLogger) :
    (s.define l).logger daemon = s.logger daemon l ↔
      ∀ a ∈ l.appenders, Shown daemon (s.appender a) := by
  simp only [LogDefine.logger, define, logger, Logger.mk.injEq, true_and, List.filterMap_map]
  exact (filterMap_eq_iff fun a => isSome_appender_define daemon (s.appender a)).trans
    (forall₂_congr fun a _ => appender_define_iff daemon (s.appender a))

/-- The first value of `logs` sets up the loggers that it names. -/
theorem setValue_first (daemon : Bool) (loggers : Loggers) {v : LogDefines} (hv : v.elems ≠ []) :
    ((LogConfig.new loggers).setValue daemon v).crashed = false ∧
      (∀ i ∈ v.elems,
        ((LogConfig.new loggers).setValue daemon v).loggers i.name = i.logger daemon) ∧
      ∀ name, ¬ v.Names name →
        ((LogConfig.new loggers).setValue daemon v).loggers name = loggers name := by
  have hne : v.eq .empty = false := by
    obtain ⟨elems, hascending⟩ := v
    cases elems with
    | nil => exact absurd rfl hv
    | cons d elems => rfl
  have hlevels : SameLevels .empty v.elems := fun i _ it hit => absurd hit List.not_mem_nil
  obtain ⟨loggers', hrun, hset, hsame⟩ := applyDefines_some daemon loggers hlevels v.ascending
  have hchanged : onLogsChanged daemon .empty v loggers = some loggers' := by
    rw [onLogsChanged, hrun]
    rfl
  have hvalue : (LogConfig.new loggers).setValue daemon v =
      { LogConfig.new loggers with
        loggers := loggers'
        val := v
        passed := v
        named := [] ++ v.elems.map LogDefine.name } := by
    rw [LogConfig.setValue, LogConfig.new]
    simp only [hne, hchanged, Bool.or_self, Bool.false_eq_true, if_false]
  rw [hvalue]
  refine ⟨rfl, ?_, ?_⟩
  · intro i hi
    refine hset i hi ?_
    rintro ⟨d, hd, -⟩
    exact absurd hd List.not_mem_nil
  · intro name hname
    exact hsame name (.inl fun i hi hi' => hname ⟨i, hi, hi'⟩)

/-- In every run the loggers can be saved if and only if no logger has a terminal appender without
a formatter. What is saved is read as a value of `logs` that sets up these loggers and no others in
a process whose `logs` is empty; it sets them up as they were if and only if no appender that is
made again has an empty pattern. -/
theorem restored_iff (yaml : Yaml) (hscalar : ∀ str, yaml.asString (.scalar str) = some str)
    {ops : List LoggerOp} (hr : run step new ops = some s) (hparses : s.Parses yaml)
    (daemon : Bool) (loggers : Loggers) :
    (s.toYamlString yaml = none ↔ s.Bare) ∧
      ∀ text, s.toYamlString yaml = some text → ∃ v, LogDefineCast.decode yaml text = some v ∧
        ((LogConfig.new loggers).setValue daemon v).crashed = false ∧
        (∀ name, (∀ l ∈ s.loggers, l.name ≠ name) →
          ((LogConfig.new loggers).setValue daemon v).loggers name = loggers name) ∧
        ((∀ l ∈ s.loggers,
          ((LogConfig.new loggers).setValue daemon v).loggers l.name = s.logger daemon l) ↔
            ∀ l ∈ s.loggers, ∀ a ∈ l.appenders, Shown daemon (s.appender a)) := by
  have hi := inv_run hr
  rw [hparses.toYamlString hi]
  refine ⟨Option.map_eq_none_iff.trans (mapM_node_eq_none_iff s), ?_⟩
  intro text htext
  obtain ⟨nodes, hnodes, rfl⟩ := Option.map_eq_some_iff.mp htext
  obtain ⟨v, hv, helems⟩ := hparses.decode hi hscalar hnodes
  have hne : v.elems ≠ [] := by
    obtain ⟨l, hl, -⟩ := hi.root
    rw [helems]
    exact List.ne_nil_of_mem (List.mem_map_of_mem hl)
  obtain ⟨hcompleted, hset, hkept⟩ := setValue_first daemon loggers hne
  refine ⟨v, hv, hcompleted, ?_, ?_⟩
  · intro name hname
    refine hkept name ?_
    rintro ⟨d, hd, rfl⟩
    rw [helems] at hd
    obtain ⟨l, hl, rfl⟩ := List.mem_map.mp hd
    exact hname l hl rfl
  · refine forall₂_congr fun l hl => ?_
    have hmem : s.define l ∈ v.elems := helems ▸ List.mem_map_of_mem hl
    have hlogger : ((LogConfig.new loggers).setValue daemon v).loggers l.name =
        (s.define l).logger daemon := hset _ hmem
    rw [hlogger]
    exact logger_define_iff daemon s l

end Restored

section TwoLoggers

def terminalText : String := "type: StdoutLogAppender\npattern: log %m"

def fileText : String := "type: FileLogAppender\nfile: a.log\npattern: \"%m%n\""

def rootText : String :=
  "name: root\nlevel: INFO\nappenders:\n  - type: StdoutLogAppender\n    pattern: log %m"

def systemText : String :=
  "name: system\nlevel: ERROR\nappenders:\n" ++
    "  - type: FileLogAppender\n    file: a.log\n    pattern: \"%m%n\"\n" ++
    "  - type: StdoutLogAppender\n    pattern: log %m"

def loggersText : String :=
  "- name: root\n  level: INFO\n  appenders:\n" ++
    "    - type: StdoutLogAppender\n      pattern: log %m\n" ++
    "- name: system\n  level: ERROR\n  appenders:\n" ++
    "    - type: FileLogAppender\n      file: a.log\n      pattern: \"%m%n\"\n" ++
    "    - type: StdoutLogAppender\n      pattern: log %m"

def terminalNode : YamlNode :=
  .map [("type", .scalar "StdoutLogAppender"), ("pattern", .scalar "log %m")]

def fileNode : YamlNode :=
  .map [("type", .scalar "FileLogAppender"), ("file", .scalar "a.log"),
    ("pattern", .scalar "%m%n")]

def rootNode : YamlNode :=
  .map [("name", .scalar "root"), ("level", .scalar "INFO"),
    ("appenders", .sequence [terminalNode])]

def systemNode : YamlNode :=
  .map [("name", .scalar "system"), ("level", .scalar "ERROR"),
    ("appenders", .sequence [fileNode, terminalNode])]

/-- What yaml-cpp does with the texts of a root logger on the terminal and another logger that
writes to a file too. -/
def loggersYaml : Yaml where
  load := fun text =>
    if text = terminalText then some terminalNode
    else if text = fileText then some fileNode
    else if text = rootText then some rootNode
    else if text = systemText then some systemNode
    else if text = loggersText then some (.sequence [rootNode, systemNode])
    else none
  emit := fun
    | .sequence _ => loggersText
    | .map ((_, .scalar "StdoutLogAppender") :: _) => terminalText
    | .map ((_, .scalar "FileLogAppender") :: _) => fileText
    | .map ((_, .scalar "root") :: _) => rootText
    | _ => systemText
  emitUndefined := ""
  asString := fun
    | .scalar str => some str
    | _ => none
  keyIs := fun key i => key = toString i

/-- The terminal appender that a process starts with is given a formatter and shared. -/
def setUp : List LoggerOp :=
  [.setFormatter 0 (some "log %m"), .getLogger "system", .setLevel "system" .error,
    .makeFile "a.log", .setFormatter 1 (some "%m%n"), .addAppender "system" 1,
    .addAppender "system" 0]

def formatted : LoggerManager where
  loggers := [⟨"root", .info, [0]⟩, ⟨"system", .error, [1, 0]⟩]
  appender := Function.update (Function.update (Function.update new.appender
    0 ⟨.stdout, "", some "log %m"⟩) 1 ⟨.file, "a.log", none⟩) 1 ⟨.file, "a.log", some "%m%n"⟩
  made := 2

theorem run_setUp : run step new setUp = some formatted := rfl

theorem load_terminalText : loggersYaml.load terminalText = some terminalNode := by
  simp [loggersYaml]

theorem load_fileText : loggersYaml.load fileText = some fileNode := by
  have hne : fileText ≠ terminalText := by decide +kernel
  simp [loggersYaml, hne]

theorem load_rootText : loggersYaml.load rootText = some rootNode := by
  have hne : rootText ≠ terminalText ∧ rootText ≠ fileText := by decide +kernel
  simp [loggersYaml, hne]

theorem load_systemText : loggersYaml.load systemText = some systemNode := by
  have hne : systemText ≠ terminalText ∧ systemText ≠ fileText ∧ systemText ≠ rootText := by
    decide +kernel
  simp [loggersYaml, hne]

theorem load_loggersText :
    loggersYaml.load loggersText = some (.sequence [rootNode, systemNode]) := by
  have hne : loggersText ≠ terminalText ∧ loggersText ≠ fileText ∧ loggersText ≠ rootText ∧
      loggersText ≠ systemText := by decide +kernel
  simp [loggersYaml, hne]

theorem load_appender (a : ℕ) (ha : a = 0 ∨ a = 1) (n : YamlNode)
    (hn : (formatted.appender a).node = some n) :
    loggersYaml.load (loggersYaml.emit n) = some n := by
  rcases ha with rfl | rfl
  · obtain rfl : terminalNode = n := Option.some.inj hn
    exact load_terminalText
  · obtain rfl : fileNode = n := Option.some.inj hn
    exact load_fileText

theorem parses_formatted : formatted.Parses loggersYaml := by
  refine ⟨?_, ?_, ?_⟩
  · intro l hl a ha n hn
    refine load_appender a ?_ n hn
    rcases List.mem_pair.mp hl with rfl | rfl
    · exact .inl (List.mem_singleton.mp ha)
    · exact (List.mem_pair.mp ha).symm
  · intro l hl n hn
    rcases List.mem_pair.mp hl with rfl | rfl
    · obtain rfl : rootNode = n := Option.some.inj hn
      exact load_rootText
    · obtain rfl : systemNode = n := Option.some.inj hn
      exact load_systemText
  · intro nodes hnodes
    obtain rfl : [rootNode, systemNode] = nodes := Option.some.inj hnodes
    exact load_loggersText

theorem shown_formatted (a : ℕ) (ha : a = 0 ∨ a = 1) : Shown false (formatted.appender a) := by
  rcases ha with rfl | rfl
  · exact fun _ => by decide +kernel
  · exact fun _ => by decide +kernel

theorem restored_iff_formatted : ∃ v,
    LogDefineCast.decode loggersYaml loggersText = some v ∧
      ((LogConfig.new fun _ => ⟨.notset, []⟩).setValue false v).loggers "root" =
        ⟨.info, [.stdout "log %m"]⟩ ∧
      ((LogConfig.new fun _ => ⟨.notset, []⟩).setValue false v).loggers "system" =
        ⟨.error, [.file "a.log" "%m%n", .stdout "log %m"]⟩ := by
  have htext : formatted.toYamlString loggersYaml = some loggersText :=
    parses_formatted.toYamlString (inv_run run_setUp)
  obtain ⟨v, hv, -, -, hiff⟩ := (restored_iff loggersYaml (fun _ => rfl) run_setUp parses_formatted
    false fun _ => ⟨.notset, []⟩).2 loggersText htext
  have hrestored := hiff.mpr fun l hl a ha => by
    refine shown_formatted a ?_
    rcases List.mem_pair.mp hl with rfl | rfl
    · exact .inl (List.mem_singleton.mp ha)
    · exact (List.mem_pair.mp ha).symm
  exact ⟨v, hv, hrestored _ (List.mem_pair.mpr (.inl rfl)),
    hrestored _ (List.mem_pair.mpr (.inr rfl))⟩

/-- The loggers that a process starts with cannot be saved. -/
theorem new_bare : new.Bare :=
  ⟨_, List.mem_singleton_self _, 0, List.mem_singleton_self _, rfl, rfl⟩

end TwoLoggers

end LoggerManager

end ServerFramework
