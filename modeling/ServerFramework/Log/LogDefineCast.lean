import Mathlib.Data.List.ReduceOption
import ServerFramework.Config.LoadFromYaml
import ServerFramework.Log.LogFormatter

/-! # Definitions of loggers as text

`LexicalCast` reads the definitions of loggers from a YAML text and writes them to one. What may be
left out is left out where it is empty, and an appender that cannot be read is skipped.
-/

namespace ServerFramework

/-- What is used of yaml-cpp. -/
structure Yaml where
  /-- `YAML::Load`, without a result if it throws. -/
  load : String → Option YamlNode
  /-- `operator<<`. -/
  emit : YamlNode → String
  /-- `operator<<` for a node that is not defined. -/
  emitUndefined : String
  /-- `as<std::string>`, without a result if it throws. -/
  asString : YamlNode → Option String
  /-- A key of a map is the number. -/
  keyIs : String → ℕ → Bool

namespace LogLevel

/-- `LogLevel::FromString`. -/
def fromString (str : String) : LogLevel :=
  if str = "fatal" then .fatal
  else if str = "alert" then .alert
  else if str = "crit" then .crit
  else if str = "error" then .error
  else if str = "warn" then .warn
  else if str = "notice" then .notice
  else if str = "info" then .info
  else if str = "debug" then .debug
  else if str = "FATAL" then .fatal
  else if str = "ALERT" then .alert
  else if str = "CRIT" then .crit
  else if str = "ERROR" then .error
  else if str = "WARN" then .warn
  else if str = "NOTICE" then .notice
  else if str = "INFO" then .info
  else if str = "DEBUG" then .debug
  else .notset

theorem fromString_toText (level : LogLevel) : fromString level.toText = level := by
  cases level <;> rfl

end LogLevel

namespace YamlNode

/-- `node[key]`, where a node that is not defined has none. There is no result if it throws. -/
def get (key : String) : Option YamlNode → Option (Option YamlNode)
  | some (.scalar _) => none
  | some (.map entries) => some (entries.lookup key)
  | _ => some none

def size : YamlNode → ℕ
  | .sequence items => items.length
  | .map entries => entries.length
  | _ => 0

/-- `node[i]`. -/
def item (keyIs : String → ℕ → Bool) (i : ℕ) : YamlNode → Option YamlNode
  | .sequence items => items[i]?
  | .map entries => (entries.find? (keyIs ·.1 i)).map Prod.snd
  | _ => none

/-- `node[i]` for all `i < node.size()`. -/
def items (keyIs : String → ℕ → Bool) (node : YamlNode) : List (Option YamlNode) :=
  (List.range node.size).map fun i => node.item keyIs i

end YamlNode

/-- An appender as it can be read: there is no file on the terminal. -/
def LogAppenderDefine.Readable (a : LogAppenderDefine) : Prop := a.type = .stdout → a.file = ""

namespace LogDefines

/-- All appenders are as they can be read. -/
def Readable (v : LogDefines) : Prop := ∀ i ∈ v.elems, ∀ a ∈ i.appenders, a.Readable

/-- `insert`. -/
def insert (v : LogDefines) (d : LogDefine) : LogDefines :=
  ⟨OrderedSet.insert LogDefine.lt d v.elems,
    OrderedSet.insert_ascending LogDefine.lt_iff v.ascending⟩

end LogDefines

namespace LogDefineCast

variable (yaml : Yaml)

/-- An optional field, empty if it is not there. -/
def optional (field : Option YamlNode) : Option String :=
  match field with
  | some node => yaml.asString node
  | none => some ""

/-- An appender of the type `FileLogAppender`: it is skipped without a file. -/
def decodeFile (a : Option YamlNode) : Option (Option LogAppenderDefine) := do
  match ← YamlNode.get "file" a with
  | none => some none
  | some fileNode =>
    let file ← yaml.asString fileNode
    let pattern ← optional yaml (← YamlNode.get "pattern" a)
    some (some ⟨.file, pattern, file⟩)

/-- An appender of the type `StdoutLogAppender`. -/
def decodeStdout (a : Option YamlNode) : Option (Option LogAppenderDefine) := do
  let pattern ← optional yaml (← YamlNode.get "pattern" a)
  some (some ⟨.stdout, pattern, ""⟩)

/-- The body of the loop over the appenders: no appender if it is skipped, and no result at all if
something throws. -/
def decodeAppender (a : Option YamlNode) : Option (Option LogAppenderDefine) := do
  match ← YamlNode.get "type" a with
  | none => some none
  | some typeNode =>
    let type ← yaml.asString typeNode
    if type = "FileLogAppender" then decodeFile yaml a
    else if type = "StdoutLogAppender" then decodeStdout yaml a
    else some none

/-- The definition that is read from a node. -/
def readDefine (n : YamlNode) : Option LogDefine := do
  let name ← yaml.asString (← (← YamlNode.get "name" (some n)))
  let level := LogLevel.fromString (← optional yaml (← YamlNode.get "level" (some n)))
  match ← YamlNode.get "appenders" (some n) with
  | none => some ⟨name, level, []⟩
  | some appenders =>
    let as ← (appenders.items yaml.keyIs).mapM (decodeAppender yaml)
    some ⟨name, level, as.reduceOption⟩

/-- `LexicalCast<std::string, LogDefine>`, without a result if it throws. -/
def decodeDefine (v : String) : Option LogDefine := do
  let n ← yaml.load v
  readDefine yaml n

/-- What is written for a node of a sequence. -/
def emitItem : Option YamlNode → String
  | some node => yaml.emit node
  | none => yaml.emitUndefined

/-- `LexicalCast<std::string, std::set<LogDefine>>`. -/
def decode (v : String) : Option LogDefines := do
  let node ← yaml.load v
  let ds ← (node.items yaml.keyIs).mapM fun n => decodeDefine yaml (emitItem yaml n)
  some (ds.foldl LogDefines.insert LogDefines.empty)

/-- A field that is left out if it is empty. -/
def unlessEmpty (key str : String) : List (String × YamlNode) :=
  if str = "" then [] else [(key, .scalar str)]

def appenderNode (a : LogAppenderDefine) : YamlNode :=
  match a.type with
  | .file =>
    .map ([("type", .scalar "FileLogAppender"), ("file", .scalar a.file)] ++
      unlessEmpty "pattern" a.pattern)
  | .stdout => .map (("type", .scalar "StdoutLogAppender") :: unlessEmpty "pattern" a.pattern)

/-- The node that `LexicalCast<LogDefine, std::string>` builds. -/
def defineNode (i : LogDefine) : YamlNode :=
  .map ([("name", .scalar i.name), ("level", .scalar i.level.toText)] ++
    if i.appenders = [] then [] else [("appenders", .sequence (i.appenders.map appenderNode))])

/-- `LexicalCast<LogDefine, std::string>`. -/
def encodeDefine (i : LogDefine) : String := yaml.emit (defineNode i)

/-- `LexicalCast<std::set<LogDefine>, std::string>`, without a result if it throws. -/
def encode (v : LogDefines) : Option String := do
  let items ← v.elems.mapM fun i => yaml.load (encodeDefine yaml i)
  some (yaml.emit (.sequence items))

/-- What is written for the definitions is parsed as it was. -/
structure Parses (v : LogDefines) : Prop where
  define : ∀ i ∈ v.elems, yaml.load (encodeDefine yaml i) = some (defineNode i)
  defines : yaml.load (yaml.emit (.sequence (v.elems.map defineNode))) =
    some (.sequence (v.elems.map defineNode))

section MapM

variable {α β : Type} {f : α → Option β} {l : List α}

theorem mapM_eq_map {g : α → β} (h : ∀ a ∈ l, f a = some (g a)) : l.mapM f = some (l.map g) := by
  induction l with
  | nil => rfl
  | cons a l ih =>
    obtain ⟨ha, hl⟩ := List.forall_mem_cons.mp h
    rw [List.mapM_cons, ha, ih hl]
    rfl

theorem exists_of_mem_mapM {bs : List β} (h : l.mapM f = some bs) {b : β} (hb : b ∈ bs) :
    ∃ a ∈ l, f a = some b := by
  induction l generalizing bs with
  | nil =>
    obtain rfl : [] = bs := by simpa using h
    exact absurd hb List.not_mem_nil
  | cons a l ih =>
    rw [List.mapM_cons] at h
    obtain ⟨b', ha, bs', hl, rfl⟩ : ∃ b', f a = some b' ∧ ∃ bs', l.mapM f = some bs' ∧
        b' :: bs' = bs := by simpa [Option.bind_eq_some_iff] using h
    rcases List.mem_cons.mp hb with rfl | hb
    · exact ⟨a, List.mem_cons_self, ha⟩
    · obtain ⟨a', ha', hfa'⟩ := ih hl hb
      exact ⟨a', List.mem_cons_of_mem _ ha', hfa'⟩

theorem reduceOption_map_some (l : List α) : (l.map some).reduceOption = l := by
  induction l with
  | nil => rfl
  | cons a l ih => rw [List.map_cons, List.reduceOption_cons_of_some, ih]

end MapM

section Image

variable {yaml}

theorem decodeAppender_readable {n : Option YamlNode} {a : LogAppenderDefine}
    (h : decodeAppender yaml n = some (some a)) : a.Readable := by
  obtain ⟨typeNode, -, h⟩ := Option.bind_eq_some_iff.mp h
  cases typeNode with
  | none => cases h
  | some typeNode =>
    obtain ⟨type, -, h⟩ := Option.bind_eq_some_iff.mp h
    split_ifs at h
    · obtain ⟨fileNode, -, h⟩ := Option.bind_eq_some_iff.mp h
      cases fileNode with
      | none => cases h
      | some fileNode =>
        obtain ⟨file, -, h⟩ := Option.bind_eq_some_iff.mp h
        obtain ⟨field, -, h⟩ := Option.bind_eq_some_iff.mp h
        obtain ⟨pattern, -, h⟩ := Option.bind_eq_some_iff.mp h
        cases h
        exact fun htype => by cases htype
    · obtain ⟨field, -, h⟩ := Option.bind_eq_some_iff.mp h
      obtain ⟨pattern, -, h⟩ := Option.bind_eq_some_iff.mp h
      cases h
      exact fun _ => rfl
    · cases h

theorem decodeDefine_readable {text : String} {i : LogDefine}
    (h : decodeDefine yaml text = some i) : ∀ a ∈ i.appenders, a.Readable := by
  obtain ⟨n, -, h⟩ := Option.bind_eq_some_iff.mp h
  obtain ⟨field, -, h⟩ := Option.bind_eq_some_iff.mp h
  obtain ⟨nameNode, -, h⟩ := Option.bind_eq_some_iff.mp h
  obtain ⟨name, -, h⟩ := Option.bind_eq_some_iff.mp h
  obtain ⟨field, -, h⟩ := Option.bind_eq_some_iff.mp h
  obtain ⟨level, -, h⟩ := Option.bind_eq_some_iff.mp h
  obtain ⟨appenders, -, h⟩ := Option.bind_eq_some_iff.mp h
  cases appenders with
  | none =>
    cases h
    simp
  | some appenders =>
    obtain ⟨as, hdecode, h⟩ := Option.bind_eq_some_iff.mp h
    cases h
    intro a ha
    obtain ⟨n, -, hn⟩ := exists_of_mem_mapM hdecode (List.reduceOption_mem_iff.mp ha)
    exact decodeAppender_readable hn

theorem foldl_insert_elems (ds : List LogDefine) (v : LogDefines) :
    (ds.foldl LogDefines.insert v).elems =
      ds.foldl (fun l d => OrderedSet.insert LogDefine.lt d l) v.elems := by
  induction ds generalizing v with
  | nil => rfl
  | cons d ds ih => exact ih (v.insert d)

theorem eq_of_elems {v w : LogDefines} (h : v.elems = w.elems) : v = w := by
  cases v
  cases w
  cases h
  rfl

/-- A set is rebuilt from its elements. -/
theorem foldl_insert_empty (v : LogDefines) :
    v.elems.foldl LogDefines.insert LogDefines.empty = v := by
  apply eq_of_elems
  rw [foldl_insert_elems]
  exact OrderedSet.foldl_insert (l := []) LogDefine.lt_iff v.ascending

theorem mem_foldl_insert {ds : List LogDefine} {v : LogDefines} {i : LogDefine}
    (h : i ∈ (ds.foldl LogDefines.insert v).elems) : i ∈ v.elems ∨ i ∈ ds := by
  induction ds generalizing v with
  | nil => exact .inl h
  | cons d ds ih =>
    rcases ih h with h | h
    · rcases OrderedSet.mem_of_mem_insert h with rfl | h
      · exact .inr List.mem_cons_self
      · exact .inl h
    · exact .inr (List.mem_cons_of_mem _ h)

theorem decode_readable {text : String} {v : LogDefines} (h : decode yaml text = some v) :
    v.Readable := by
  obtain ⟨node, -, h⟩ := Option.bind_eq_some_iff.mp h
  obtain ⟨ds, hdecode, h⟩ := Option.bind_eq_some_iff.mp h
  cases h
  intro i hi
  rcases mem_foldl_insert hi with hi | hi
  · exact absurd hi List.not_mem_nil
  · obtain ⟨n, -, hn⟩ := exists_of_mem_mapM hdecode hi
    exact decodeDefine_readable hn

end Image

section RoundTrip

theorem items_sequence (keyIs : String → ℕ → Bool) (nodes : List YamlNode) :
    (YamlNode.sequence nodes).items keyIs = nodes.map some := by
  apply List.ext_getElem?
  intro i
  rw [YamlNode.items, List.getElem?_map, List.getElem?_map, YamlNode.size]
  by_cases hi : i < nodes.length
  · simp [YamlNode.item, hi]
  · simp [hi]

variable {yaml} (hscalar : ∀ str, yaml.asString (.scalar str) = some str)

include hscalar

theorem decodeAppender_appenderNode {a : LogAppenderDefine} (ha : a.Readable) :
    decodeAppender yaml (some (appenderNode a)) = some (some a) := by
  obtain ⟨type, pattern, file⟩ := a
  cases type with
  | file =>
    by_cases hpattern : pattern = "" <;>
      simp [decodeAppender, decodeFile, appenderNode, unlessEmpty, YamlNode.get, List.lookup_cons,
        hscalar, optional, hpattern]
  | stdout =>
    obtain rfl : file = "" := ha rfl
    by_cases hpattern : pattern = "" <;>
      simp [decodeAppender, decodeStdout, appenderNode, unlessEmpty, YamlNode.get, List.lookup_cons,
        hscalar, optional, hpattern]

theorem readDefine_defineNode {i : LogDefine} (hi : ∀ a ∈ i.appenders, a.Readable) :
    readDefine yaml (defineNode i) = some i := by
  obtain ⟨name, level, appenders⟩ := i
  have happenders : ((YamlNode.sequence (appenders.map appenderNode)).items yaml.keyIs).mapM
      (decodeAppender yaml) = some (appenders.map some) := by
    rw [items_sequence, List.map_map, List.mapM_map]
    exact mapM_eq_map fun a ha => decodeAppender_appenderNode hscalar (hi a ha)
  by_cases hnil : appenders = []
  · simp [readDefine, defineNode, YamlNode.get, List.lookup_cons, hscalar, optional, hnil,
      LogLevel.fromString_toText]
  · simp [readDefine, defineNode, YamlNode.get, List.lookup_cons, hscalar, optional, hnil,
      LogLevel.fromString_toText, happenders, reduceOption_map_some]

theorem decode_encode_of_readable {v : LogDefines} (hv : v.Readable) (hparses : Parses yaml v) :
    ∃ text, encode yaml v = some text ∧ decode yaml text = some v := by
  refine ⟨yaml.emit (.sequence (v.elems.map defineNode)), ?_, ?_⟩
  · rw [encode, mapM_eq_map hparses.define]
    rfl
  · have hread : ((YamlNode.sequence (v.elems.map defineNode)).items yaml.keyIs).mapM
        (fun n => decodeDefine yaml (emitItem yaml n)) = some v.elems := by
      rw [items_sequence, List.map_map, List.mapM_map]
      have hdefine : ∀ i ∈ v.elems,
          decodeDefine yaml (yaml.emit (defineNode i)) = some (id i) := by
        intro i hi
        have hload : yaml.load (yaml.emit (defineNode i)) = some (defineNode i) :=
          hparses.define i hi
        rw [decodeDefine, hload]
        exact readDefine_defineNode hscalar (hv i hi)
      have hall := mapM_eq_map hdefine
      rwa [List.map_id] at hall
    rw [decode, hparses.defines]
    simp only [Option.bind_eq_bind, Option.bind_some, hread, foldl_insert_empty]

/-- The definitions that some text is decoded to are those without a file on the terminal, and each
of them is encoded to a text that is decoded to it. -/
theorem decode_encode {v : LogDefines} (hparses : Parses yaml v) :
    ((∃ text, decode yaml text = some v) ↔ v.Readable) ∧
      (v.Readable → (encode yaml v).bind (decode yaml) = some v) := by
  constructor
  · constructor
    · rintro ⟨text, h⟩
      exact decode_readable h
    · intro hv
      obtain ⟨text, -, hdecode⟩ := decode_encode_of_readable hscalar hv hparses
      exact ⟨text, hdecode⟩
  · intro hv
    obtain ⟨text, hencode, hdecode⟩ := decode_encode_of_readable hscalar hv hparses
    rw [hencode, Option.bind_some, hdecode]

end RoundTrip

section Several

/-- A logger with both kinds of appenders, one with a pattern of its own. -/
def rootDefine : LogDefine := ⟨"root", .info, [⟨.file, "%m%n", "a.log"⟩, ⟨.stdout, "", ""⟩]⟩

/-- A logger on the terminal. -/
def systemDefine : LogDefine := ⟨"system", .error, [⟨.stdout, "%d %m", ""⟩]⟩

/-- A logger without a level and without appenders. -/
def userDefine : LogDefine := ⟨"user", .notset, []⟩

def severalDefines : LogDefines where
  elems := [rootDefine, systemDefine, userDefine]
  ascending := by
    rw [OrderedSet.Ascending, ← List.pairwise_map (f := LogDefine.name) (R := (· < ·))]
    decide +kernel

def rootText : String :=
  "name: root\nlevel: INFO\nappenders:\n" ++
    "  - type: FileLogAppender\n    file: a.log\n    pattern: \"%m%n\"\n" ++
    "  - type: StdoutLogAppender"

def systemText : String :=
  "name: system\nlevel: ERROR\nappenders:\n" ++
    "  - type: StdoutLogAppender\n    pattern: \"%d %m\""

def userText : String := "name: user\nlevel: NOTSET"

def severalText : String :=
  "- name: root\n  level: INFO\n  appenders:\n" ++
    "    - type: FileLogAppender\n      file: a.log\n      pattern: \"%m%n\"\n" ++
    "    - type: StdoutLogAppender\n" ++
    "- name: system\n  level: ERROR\n  appenders:\n" ++
    "    - type: StdoutLogAppender\n      pattern: \"%d %m\"\n" ++
    "- name: user\n  level: NOTSET"

/-- What yaml-cpp does with the texts of these loggers. -/
def severalYaml : Yaml where
  load := fun text =>
    if text = rootText then some (defineNode rootDefine)
    else if text = systemText then some (defineNode systemDefine)
    else if text = userText then some (defineNode userDefine)
    else if text = severalText then some (.sequence (severalDefines.elems.map defineNode))
    else none
  emit := fun
    | .sequence _ => severalText
    | .map ((_, .scalar "root") :: _) => rootText
    | .map ((_, .scalar "system") :: _) => systemText
    | _ => userText
  emitUndefined := ""
  asString := fun
    | .scalar str => some str
    | _ => none
  keyIs := fun key i => key = toString i

theorem load_rootText : severalYaml.load rootText = some (defineNode rootDefine) := by
  simp [severalYaml]

theorem load_systemText : severalYaml.load systemText = some (defineNode systemDefine) := by
  have hne : systemText ≠ rootText := by decide +kernel
  simp [severalYaml, hne]

theorem load_userText : severalYaml.load userText = some (defineNode userDefine) := by
  have hne : userText ≠ rootText ∧ userText ≠ systemText := by decide +kernel
  simp [severalYaml, hne]

theorem load_severalText :
    severalYaml.load severalText = some (.sequence (severalDefines.elems.map defineNode)) := by
  have hne : severalText ≠ rootText ∧ severalText ≠ systemText ∧ severalText ≠ userText := by
    decide +kernel
  simp [severalYaml, hne]

theorem parses_severalDefines : Parses severalYaml severalDefines := by
  refine ⟨?_, load_severalText⟩
  intro i hi
  simp only [severalDefines, List.mem_cons, List.not_mem_nil, or_false] at hi
  rcases hi with rfl | rfl | rfl
  · exact load_rootText
  · exact load_systemText
  · exact load_userText

theorem decode_encode_several :
    (∃ text, decode severalYaml text = some severalDefines) ∧
      (encode severalYaml severalDefines).bind (decode severalYaml) = some severalDefines := by
  have hscalar : ∀ str, severalYaml.asString (.scalar str) = some str := fun _ => rfl
  have h := decode_encode hscalar parses_severalDefines
  have hv : severalDefines.Readable := by
    intro i hi a ha htype
    revert i a
    decide +kernel
  exact ⟨h.1.mpr hv, h.2 hv⟩

end Several

end LogDefineCast

end ServerFramework
