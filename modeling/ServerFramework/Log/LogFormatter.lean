import Mathlib.Data.List.TakeWhile
import ServerFramework.Log.LogDefines

/-! # Log formatters

`Init` cuts a pattern into literals and conversions, collects the formats of all dates in one
string, and looks the conversions up. It reads the pattern by index: behind a "%d" that ends the
pattern it reads past the terminator.
-/

namespace ServerFramework

namespace LogFormatter

/-- The classes derived from `FormatItem`. -/
inductive FormatItem where
  | message
  | level
  | elapse
  | loggerName
  | threadId
  | fiberId
  | threadName
  | dateTime (format : List Char)
  | fileName
  | line
  | newLine
  | string (str : List Char)
  | tab
  | percentSign
  deriving DecidableEq, Repr

/-- The entries of `patterns`: of type 0 and of type 1. -/
inductive Entry where
  | literal (str : List Char)
  | conversion (c : Char)
  deriving DecidableEq, Repr

/-- The variables of `Init`. -/
structure Scan where
  patterns : List Entry
  tmp : List Char
  dateformat : List Char
  parsingString : Bool
  deriving DecidableEq, Repr

/-- How the loop of `Init` ends early. -/
inductive Halt where
  /-- A brace is not closed. -/
  | notClosed
  /-- The pattern is read behind its terminator. -/
  | outOfRange
  deriving DecidableEq, Repr

namespace Scan

/-- Append `tmp` to `patterns`. -/
def flush (s : Scan) : Scan :=
  { s with
    patterns := if s.tmp ≠ [] then s.patterns ++ [.literal s.tmp] else s.patterns
    tmp := [] }

/-- Append a conversion to `patterns`. -/
def push (s : Scan) (c : Char) : Scan :=
  { s with patterns := s.patterns ++ [.conversion c], parsingString := true }

end Scan

/-- `pattern_[i]`. There is a terminator behind the last character. -/
def charAt (pattern : List Char) (i : ℕ) : Option Char :=
  if i = pattern.length then some '\x00' else pattern[i]?

/-- The loop of `Init`. -/
def scan (pattern : List Char) (i : ℕ) (s : Scan) : Except Halt Scan :=
  if h : i < pattern.length then
    let c := pattern[i]
    if c = '%' then
      if s.parsingString then scan pattern (i + 1) { s.flush with parsingString := false }
      else scan pattern (i + 1) (s.push c)
    else if s.parsingString then scan pattern (i + 1) { s with tmp := s.tmp ++ [c] }
    else if c ≠ 'd' then scan pattern (i + 1) (s.push c)
    else if i + 1 < pattern.length ∧ charAt pattern (i + 1) ≠ some '{' then
      scan pattern (i + 1) (s.push c)
    else
      let format := (pattern.drop (i + 2)).takeWhile (· ≠ '}')
      match charAt pattern (i + 2 + format.length) with
      | none => .error .outOfRange
      | some e =>
        if e ≠ '}' then .error .notClosed
        else
          scan pattern (i + 2 + format.length + 1)
            { s.push c with dateformat := s.dateformat ++ format }
  else .ok s
termination_by pattern.length - i

/-- `s_format_items`. -/
def sFormatItems : Char → Option FormatItem
  | 'm' => some .message
  | 'p' => some .level
  | 'c' => some .loggerName
  | 'r' => some .elapse
  | 'f' => some .fileName
  | 'l' => some .line
  | 't' => some .threadId
  | 'F' => some .fiberId
  | 'N' => some .threadName
  | '%' => some .percentSign
  | 'T' => some .tab
  | 'n' => some .newLine
  | _ => none

def defaultDateFormat : List Char := "%Y-%m-%d %H:%M:%S".toList

/-- The format with which `DateTimeFormatItem` is constructed. -/
def effectiveFormat (format : List Char) : List Char :=
  if format = [] then defaultDateFormat else format

/-- The item for an entry, if there is one. -/
def makeItem (dateformat : List Char) : Entry → Option FormatItem
  | .literal str => some (.string str)
  | .conversion 'd' => some (.dateTime (effectiveFormat dateformat))
  | .conversion c => sFormatItems c

/-- The items up to the first unknown one, and whether there is one. -/
def makeItems (dateformat : List Char) : List Entry → List FormatItem × Bool
  | [] => ([], false)
  | e :: es =>
    match makeItem dateformat e with
    | some item => (item :: (makeItems dateformat es).1, (makeItems dateformat es).2)
    | none => ([], true)

/-- `items_` and `error_` after `Init`, unless the pattern is read behind its terminator. -/
def init (pattern : List Char) : Option (List FormatItem × Bool) :=
  match scan pattern 0 ⟨[], [], [], true⟩ with
  | .error .outOfRange => none
  | .error .notClosed => some ([], true)
  | .ok s => some (makeItems s.dateformat s.flush.patterns)

end LogFormatter

/-- `LogLevel::ToString`. -/
def LogLevel.toText : LogLevel → String
  | .fatal => "FATAL"
  | .alert => "ALERT"
  | .crit => "CRIT"
  | .error => "ERROR"
  | .warn => "WARN"
  | .notice => "NOTICE"
  | .info => "INFO"
  | .debug => "DEBUG"
  | .notset => "NOTSET"

structure LogEvent where
  level : LogLevel
  content : List Char
  file : List Char
  line : Int32
  elapse : Int64
  threadId : UInt32
  fiberId : UInt64
  time : Int64
  threadName : List Char
  loggerName : List Char

namespace LogFormatter

/-- `FormatItem::Format`. What is printed of a date is up to `strftime`. -/
def FormatItem.format (strftime : List Char → Int64 → List Char) (event : LogEvent) :
    FormatItem → List Char
  | .message => event.content
  | .level => event.level.toText.toList
  | .elapse => (toString event.elapse.toInt).toList
  | .loggerName => event.loggerName
  | .threadId => (toString event.threadId.toNat).toList
  | .fiberId => (toString event.fiberId.toNat).toList
  | .threadName => event.threadName
  | .dateTime format => strftime format event.time
  | .fileName => event.file
  | .line => (toString event.line.toInt).toList
  | .newLine => ['\n']
  | .string str => str
  | .tab => ['\t']
  | .percentSign => ['%']

/-- `LogFormatter::Format`. -/
def format (strftime : List Char → Int64 → List Char) (event : LogEvent)
    (items : List FormatItem) : List Char :=
  items.flatMap (FormatItem.format strftime event)

/-- The loop on the part of the pattern that is left. -/
def scanRest : List Char → Scan → Except Halt Scan
  | [], s => .ok s
  | c :: cs, s =>
    if c = '%' then
      if s.parsingString then scanRest cs { s.flush with parsingString := false }
      else scanRest cs (s.push c)
    else if s.parsingString then scanRest cs { s with tmp := s.tmp ++ [c] }
    else if c ≠ 'd' then scanRest cs (s.push c)
    else if cs = [] then .error .outOfRange
    else if cs.head? ≠ some '{' then scanRest cs (s.push c)
    else if '}' ∉ cs.tail then .error .notClosed
    else
      scanRest ((cs.tail.dropWhile (· ≠ '}')).tail)
        { s.push c with dateformat := s.dateformat ++ cs.tail.takeWhile (· ≠ '}') }
termination_by cs => cs.length
decreasing_by
  all_goals simp only [List.length_cons, List.length_tail]
  all_goals try omega
  have hdrop := (List.dropWhile_sublist (· ≠ '}') (l := cs.tail)).length_le
  simp only [List.length_tail] at hdrop
  omega

section Scan

variable {pattern : List Char}

theorem charAt_of_lt {i : ℕ} (hi : i < pattern.length) :
    charAt pattern i = (pattern.drop i).head? := by
  rw [charAt, if_neg hi.ne, List.head?_drop]

theorem le_of_charAt {i : ℕ} {c : Char} (h : charAt pattern i = some c) : i ≤ pattern.length := by
  by_contra hgt
  rw [charAt, if_neg (by omega), List.getElem?_eq_none (by omega)] at h
  cases h

/-- What the guard of the braces lets through. -/
theorem drop_of_brace {i : ℕ} (hle : i + 2 ≤ pattern.length)
    (h : ¬ (i + 1 < pattern.length ∧ charAt pattern (i + 1) ≠ some '{')) :
    pattern.drop (i + 1) = '{' :: pattern.drop (i + 2) := by
  have hopen : (pattern.drop (i + 1)).head? = some '{' := by
    rw [charAt_of_lt hle] at h
    by_contra hne
    exact h ⟨hle, hne⟩
  rw [List.head?_eq_some_iff] at hopen
  obtain ⟨cs, hcs⟩ := hopen
  rw [hcs, ← List.tail_drop, hcs, List.tail_cons]

theorem takeWhile_brace {format : List Char} (hformat : '}' ∉ format) (cs : List Char) :
    (format ++ '}' :: cs).takeWhile (· ≠ '}') = format := by
  have hall : ∀ c ∈ format, decide (c ≠ '}') = true := by
    intro c hc
    simpa using ne_of_mem_of_not_mem hc hformat
  rw [List.takeWhile_append_of_pos hall]
  simp

theorem dropWhile_brace {format : List Char} (hformat : '}' ∉ format) (cs : List Char) :
    (format ++ '}' :: cs).dropWhile (· ≠ '}') = '}' :: cs := by
  have hall : ∀ c ∈ format, decide (c ≠ '}') = true := by
    intro c hc
    simpa using ne_of_mem_of_not_mem hc hformat
  rw [List.dropWhile_append_of_pos hall]
  simp

/-- Where the inner loop stops, with or without a brace. -/
theorem charAt_brace {j : ℕ} (hj : j ≤ pattern.length) :
    charAt pattern (j + ((pattern.drop j).takeWhile (· ≠ '}')).length) =
      some (if '}' ∈ pattern.drop j then '}' else '\x00') := by
  split_ifs with hmem
  · obtain ⟨format, cs, hcs, hformat⟩ := List.eq_append_cons_of_mem hmem
    have hlen := congrArg List.length hcs
    simp only [List.length_drop, List.length_append, List.length_cons] at hlen
    rw [hcs, takeWhile_brace hformat, charAt_of_lt (by omega), ← List.drop_drop, hcs,
      List.drop_left, List.head?_cons]
  · have hall : ∀ c ∈ pattern.drop j, decide (c ≠ '}') = true := by
      intro c hc
      simpa using ne_of_mem_of_not_mem hc hmem
    rw [List.takeWhile_eq_self_iff.mpr hall, List.length_drop, charAt, if_pos (by omega)]

theorem drop_brace {j : ℕ} (hmem : '}' ∈ pattern.drop j) :
    pattern.drop (j + ((pattern.drop j).takeWhile (· ≠ '}')).length + 1) =
      ((pattern.drop j).dropWhile (· ≠ '}')).tail := by
  obtain ⟨format, cs, hcs, hformat⟩ := List.eq_append_cons_of_mem hmem
  rw [Nat.add_assoc, ← List.drop_drop, hcs, takeWhile_brace hformat, dropWhile_brace hformat,
    List.drop_length_add_append, List.drop_one]

theorem scan_eq_scanRest (pattern : List Char) (i : ℕ) (s : Scan) :
    scan pattern i s = scanRest (pattern.drop i) s := by
  fun_induction scan pattern i s with
  | case1 i s h c hc hp ih =>
    rw [ih, List.drop_eq_getElem_cons h, scanRest, if_pos hc, if_pos hp]
  | case2 i s h c hc hp ih =>
    rw [ih, List.drop_eq_getElem_cons h, scanRest, if_pos hc, if_neg hp]
  | case3 i s h c hc hp ih =>
    rw [ih, List.drop_eq_getElem_cons h, scanRest, if_neg hc, if_pos hp]
  | case4 i s h c hc hp hd ih =>
    rw [ih, List.drop_eq_getElem_cons h, scanRest, if_neg hc, if_neg hp, if_pos hd]
  | case5 i s h c hc hp hd hnext ih =>
    have hne : pattern.drop (i + 1) ≠ [] := by
      rw [ne_eq, List.drop_eq_nil_iff]
      omega
    rw [charAt_of_lt hnext.1] at hnext
    rw [ih, List.drop_eq_getElem_cons h, scanRest, if_neg hc, if_neg hp, if_neg hd, if_neg hne,
      if_pos hnext.2]
  | case6 i s h c hc hp hd hnext format hnone =>
    have hnil : pattern.drop (i + 1) = [] := by
      by_contra hne
      rw [List.drop_eq_nil_iff, not_le] at hne
      rw [charAt_brace (by omega)] at hnone
      cases hnone
    rw [List.drop_eq_getElem_cons h, scanRest, if_neg hc, if_neg hp, if_neg hd, if_pos hnil]
  | case7 i s h c hc hp hd hnext format e he hclosed =>
    have hle := le_of_charAt he
    have hmem : '}' ∉ pattern.drop (i + 2) := by
      intro hmem
      rw [charAt_brace (by omega), if_pos hmem] at he
      exact hclosed (Option.some.inj he).symm
    rw [List.drop_eq_getElem_cons h, drop_of_brace (by omega) hnext, scanRest, if_neg hc,
      if_neg hp, if_neg hd, if_neg (List.cons_ne_nil _ _), List.head?_cons,
      if_neg (not_not.mpr rfl), List.tail_cons, if_pos hmem]
  | case8 i s h c hc hp hd hnext format e he hclosed ih =>
    have hle := le_of_charAt he
    have hmem : '}' ∈ pattern.drop (i + 2) := by
      by_contra hmem
      rw [charAt_brace (by omega), if_neg hmem] at he
      exact hclosed fun h => absurd (he.trans (congrArg some h)) (by decide)
    rw [ih, drop_brace hmem, List.drop_eq_getElem_cons h, drop_of_brace (by omega) hnext, scanRest,
      if_neg hc, if_neg hp, if_neg hd, if_neg (List.cons_ne_nil _ _), List.head?_cons,
      if_neg (not_not.mpr rfl), List.tail_cons, if_neg (not_not.mpr hmem)]
  | case9 i s h =>
    rw [List.drop_eq_nil_of_le (not_lt.mp h), scanRest]

end Scan

end LogFormatter

end ServerFramework
