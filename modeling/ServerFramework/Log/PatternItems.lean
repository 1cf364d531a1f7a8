import ServerFramework.Log.LogFormatter

/-! # The pieces of a pattern

A pattern is written down piece by piece, and `Init` finds the pieces again. The dates share one
format, which all of them add to: each of them has its own only if one date at most brings a format
and no other date means a different one.
-/

namespace ServerFramework

namespace LogFormatter

/-- The conversions without an argument. -/
inductive Conversion where
  | message
  | level
  | loggerName
  | elapse
  | fileName
  | line
  | threadId
  | fiberId
  | threadName
  | percentSign
  | tab
  | newLine
  deriving DecidableEq, Repr

namespace Conversion

def letter : Conversion → Char
  | message => 'm'
  | level => 'p'
  | loggerName => 'c'
  | elapse => 'r'
  | fileName => 'f'
  | line => 'l'
  | threadId => 't'
  | fiberId => 'F'
  | threadName => 'N'
  | percentSign => '%'
  | tab => 'T'
  | newLine => 'n'

def item : Conversion → FormatItem
  | message => .message
  | level => .level
  | loggerName => .loggerName
  | elapse => .elapse
  | fileName => .fileName
  | line => .line
  | threadId => .threadId
  | fiberId => .fiberId
  | threadName => .threadName
  | percentSign => .percentSign
  | tab => .tab
  | newLine => .newLine

theorem letter_ne_date (k : Conversion) : k.letter ≠ 'd' := by
  cases k <;> decide

end Conversion

/-- A piece of a pattern: a literal, a conversion, or a date with or without a format of its own. -/
inductive Piece where
  | literal (str : List Char)
  | conversion (k : Conversion)
  | date (format : Option (List Char))
  deriving DecidableEq, Repr

namespace Piece

/-- How a piece is written. -/
def render : Piece → List Char
  | literal str => str
  | conversion k => ['%', k.letter]
  | date none => ['%', 'd']
  | date (some format) => ['%', 'd', '{'] ++ format ++ ['}']

/-- What a piece prints for an event. -/
def meaning (strftime : List Char → Int64 → List Char) (event : LogEvent) : Piece → List Char
  | literal str => str
  | conversion k => k.item.format strftime event
  | date format => strftime (effectiveFormat (format.getD [])) event.time

end Piece

/-- The pattern made of the pieces. -/
def render (ps : List Piece) : List Char := ps.flatMap Piece.render

/-- The pieces can be told apart: no literal has a percent sign, no format a brace, and no brace
follows a date without one. -/
def WellFormed : List Piece → Prop
  | [] => True
  | .literal str :: ps => '%' ∉ str ∧ WellFormed ps
  | .conversion _ :: ps => WellFormed ps
  | .date none :: ps => (render ps).head? ≠ some '{' ∧ WellFormed ps
  | .date (some format) :: ps => '}' ∉ format ∧ WellFormed ps

/-- The pattern ends in a date without braces. -/
def EndsInDate : List Piece → Prop
  | [] => False
  | .date none :: ps => render ps = [] ∨ EndsInDate ps
  | .date (some _) :: ps | .literal _ :: ps | .conversion _ :: ps => EndsInDate ps

/-- A literal before other items, merged with the one that follows it. -/
def consLiteral (str : List Char) : List FormatItem → List FormatItem
  | .string str' :: items => .string (str ++ str') :: items
  | items => if str = [] then items else .string str :: items

/-- The items of the pieces, with dates in the format that `g` gives for their own. -/
def itemsWith (g : List Char → List Char) : List Piece → List FormatItem
  | [] => []
  | .literal str :: ps => consLiteral str (itemsWith g ps)
  | .conversion k :: ps => k.item :: itemsWith g ps
  | .date format :: ps => .dateTime (g (format.getD [])) :: itemsWith g ps

/-- The items of the pieces. -/
def itemsOf (ps : List Piece) : List FormatItem := itemsWith effectiveFormat ps

/-- The formats of the dates, empty where there is none. -/
def formats : List Piece → List (List Char)
  | [] => []
  | .date format :: ps => format.getD [] :: formats ps
  | .literal _ :: ps | .conversion _ :: ps => formats ps

/-- One date at most brings a format, and all dates mean the same one. -/
def OneFormat (fs : List (List Char)) : Prop :=
  (fs.filter (· ≠ [])).length ≤ 1 ∧ ∀ f ∈ fs, ∀ f' ∈ fs, effectiveFormat f = effectiveFormat f'

/-- Where `Init` sets no error, the items are those of the pieces, and print what they mean. -/
def ItemsRight (ps : List Piece) : Prop :=
  ∀ items, WellFormed ps → init (render ps) = some (items, false) →
    items = itemsOf ps ∧ ∀ strftime event,
      format strftime event items = ps.flatMap (Piece.meaning strftime event)

section Literals

theorem consLiteral_nil (items : List FormatItem) : consLiteral [] items = items := by
  cases items with
  | nil => rfl
  | cons item items => cases item <;> rfl

theorem consLiteral_append (t str : List Char) (items : List FormatItem) :
    consLiteral (t ++ str) items = consLiteral t (consLiteral str items) := by
  by_cases hstr : str = []
  · rw [hstr, List.append_nil, consLiteral_nil]
  · cases items with
    | nil => simp [consLiteral, hstr]
    | cons item items => cases item <;> simp [consLiteral, hstr]

theorem format_consLiteral (strftime : List Char → Int64 → List Char) (event : LogEvent)
    (str : List Char) (items : List FormatItem) :
    format strftime event (consLiteral str items) = str ++ format strftime event items := by
  by_cases hstr : str = []
  · rw [hstr, consLiteral_nil, List.nil_append]
  · cases items with
    | nil => simp [consLiteral, hstr, format, FormatItem.format]
    | cons item items => cases item <;> simp [consLiteral, hstr, format, FormatItem.format]

/-- The items of the pieces print what the pieces mean. -/
theorem format_itemsOf (strftime : List Char → Int64 → List Char) (event : LogEvent)
    (ps : List Piece) :
    format strftime event (itemsOf ps) = ps.flatMap (Piece.meaning strftime event) := by
  induction ps with
  | nil => rfl
  | cons p ps ih =>
    rw [itemsOf] at ih
    cases p with
    | literal str => rw [itemsOf, itemsWith, format_consLiteral, ih, List.flatMap_cons]; rfl
    | conversion k => rw [itemsOf, itemsWith, format, List.flatMap_cons, ← format, ih]; rfl
    | date f => rw [itemsOf, itemsWith, format, List.flatMap_cons, ← format, ih]; rfl

end Literals

section Scan

/-- The state of the loop behind a piece. -/
def Scan.pass (s : Scan) : Piece → Scan
  | .literal str => { s with tmp := s.tmp ++ str }
  | .conversion k => s.flush.push k.letter
  | .date f => { s.flush.push 'd' with dateformat := s.dateformat ++ f.getD [] }

variable {s : Scan} (hs : s.parsingString = true)

include hs

theorem scanRest_literal {str : List Char} (hstr : '%' ∉ str) (cs : List Char) :
    scanRest (str ++ cs) s = scanRest cs (s.pass (.literal str)) := by
  induction str generalizing s with
  | nil => simp [Scan.pass]
  | cons c str ih =>
    rw [List.mem_cons, not_or] at hstr
    rw [List.cons_append, scanRest, if_neg (Ne.symm hstr.1), if_pos hs,
      ih (s := { s with tmp := s.tmp ++ [c] }) hs hstr.2]
    simp [Scan.pass]

/-- The percent sign that begins a conversion. -/
theorem scanRest_percent (cs : List Char) :
    scanRest ('%' :: cs) s = scanRest cs { s.flush with parsingString := false } := by
  rw [scanRest, if_pos rfl, if_pos hs]

theorem scanRest_conversion (k : Conversion) (cs : List Char) :
    scanRest ('%' :: k.letter :: cs) s = scanRest cs (s.pass (.conversion k)) := by
  rw [scanRest_percent hs, scanRest]
  simp [k.letter_ne_date, Scan.pass, Scan.push, Scan.flush]

theorem scanRest_date_nil : scanRest ['%', 'd'] s = .error .outOfRange := by
  rw [scanRest_percent hs, scanRest]
  simp

theorem scanRest_date {cs : List Char} (hne : cs ≠ []) (hcs : cs.head? ≠ some '{') :
    scanRest ('%' :: 'd' :: cs) s = scanRest cs (s.pass (.date none)) := by
  rw [scanRest_percent hs, scanRest]
  simp [hne, hcs, Scan.pass, Scan.push, Scan.flush]

theorem scanRest_format {f : List Char} (hf : '}' ∉ f) (cs : List Char) :
    scanRest ('%' :: 'd' :: '{' :: (f ++ '}' :: cs)) s = scanRest cs (s.pass (.date (some f))) := by
  rw [scanRest_percent hs, scanRest]
  simp only [List.head?_cons, List.tail_cons, takeWhile_brace hf, dropWhile_brace hf]
  simp [Scan.pass, Scan.push, Scan.flush]

theorem parsingString_pass (p : Piece) : (s.pass p).parsingString = true := by
  cases p with
  | literal str => exact hs
  | conversion k => rfl
  | date f => rfl

/-- The loop passes the pieces one by one, and reads too far if the last one is a date. -/
theorem scanRest_render {ps : List Piece} (hps : WellFormed ps) :
    EndsInDate ps ∧ scanRest (render ps) s = .error .outOfRange ∨
      ¬ EndsInDate ps ∧ scanRest (render ps) s = .ok (ps.foldl Scan.pass s) := by
  induction ps generalizing s with
  | nil =>
    right
    exact ⟨not_false, by rw [render, List.flatMap_nil, scanRest, List.foldl_nil]⟩
  | cons p ps ih =>
    have hpass := parsingString_pass hs p
    rw [render, List.flatMap_cons, ← render, List.foldl_cons]
    cases p with
    | literal str =>
      rw [Piece.render, scanRest_literal hs hps.1]
      exact ih hpass hps.2
    | conversion k =>
      rw [Piece.render, List.cons_append, List.cons_append, List.nil_append, scanRest_conversion hs]
      exact ih hpass hps
    | date f =>
      cases f with
      | none =>
        rw [Piece.render, List.cons_append, List.cons_append, List.nil_append]
        by_cases hnil : render ps = []
        · left
          rw [hnil]
          exact ⟨.inl hnil, scanRest_date_nil hs⟩
        · rw [scanRest_date hs hnil hps.1, EndsInDate, or_iff_right hnil]
          exact ih hpass hps.2
      | some f =>
        have hrender : Piece.render (.date (some f)) ++ render ps =
            '%' :: 'd' :: '{' :: (f ++ '}' :: render ps) := by simp [Piece.render]
        rw [hrender, scanRest_format hs hps.1]
        exact ih hpass hps.2

end Scan

section Entries

/-- A literal before other entries, unless it is empty. -/
def consEntry (t : List Char) (es : List Entry) : List Entry :=
  if t = [] then es else .literal t :: es

/-- The entries of the pieces behind a literal that is not finished. -/
def entries (t : List Char) : List Piece → List Entry
  | [] => consEntry t []
  | .literal str :: ps => entries (t ++ str) ps
  | .conversion k :: ps => consEntry t (.conversion k.letter :: entries [] ps)
  | .date _ :: ps => consEntry t (.conversion 'd' :: entries [] ps)

theorem foldl_pass_dateformat (ps : List Piece) (s : Scan) :
    (ps.foldl Scan.pass s).dateformat = s.dateformat ++ (formats ps).flatten := by
  induction ps generalizing s with
  | nil => simp [formats]
  | cons p ps ih =>
    rw [List.foldl_cons, ih]
    cases p <;> simp [Scan.pass, Scan.push, Scan.flush, formats]

theorem foldl_pass_patterns (ps : List Piece) (s : Scan) :
    (ps.foldl Scan.pass s).flush.patterns = s.patterns ++ entries s.tmp ps := by
  induction ps generalizing s with
  | nil => by_cases h : s.tmp = [] <;> simp [Scan.flush, entries, consEntry, h]
  | cons p ps ih =>
    rw [List.foldl_cons, ih]
    cases p <;> by_cases h : s.tmp = [] <;>
      simp [Scan.pass, Scan.push, Scan.flush, entries, consEntry, h]

theorem makeItems_cons {df : List Char} {e : Entry} {item : FormatItem}
    (h : makeItem df e = some item) (es : List Entry) :
    makeItems df (e :: es) = (item :: (makeItems df es).1, (makeItems df es).2) := by
  rw [makeItems, h]

theorem makeItem_letter (df : List Char) (k : Conversion) :
    makeItem df (.conversion k.letter) = some k.item := by
  cases k <;> rfl

/-- A literal and what ends it. -/
theorem makeItems_consEntry {df : List Char} {e : Entry} {item : FormatItem}
    (h : makeItem df e = some item) (hitem : ∀ str, item ≠ .string str) (t : List Char)
    (es : List Entry) :
    makeItems df (consEntry t (e :: es)) =
      (consLiteral t (item :: (makeItems df es).1), (makeItems df es).2) := by
  by_cases ht : t = []
  · rw [consEntry, if_pos ht, makeItems_cons h, ht, consLiteral_nil]
  · rw [consEntry, if_neg ht, makeItems_cons rfl, makeItems_cons h, consLiteral, if_neg ht]
    exact fun str _ hcons => hitem str (List.cons.inj hcons).1

/-- The entries are looked up without an error. -/
theorem makeItems_entries (df : List Char) (ps : List Piece) (t : List Char) :
    makeItems df (entries t ps) =
      (consLiteral t (itemsWith (fun _ => effectiveFormat df) ps), false) := by
  induction ps generalizing t with
  | nil =>
    by_cases ht : t = [] <;>
      simp [entries, consEntry, ht, makeItems, makeItem, itemsWith, consLiteral]
  | cons p ps ih =>
    cases p with
    | literal str => rw [entries, ih, itemsWith, consLiteral_append]
    | conversion k =>
      have hitem : ∀ str, k.item ≠ .string str := by cases k <;> simp [Conversion.item]
      rw [entries, makeItems_consEntry (makeItem_letter df k) hitem, ih, consLiteral_nil, itemsWith]
    | date f => rw [entries, makeItems_consEntry rfl (by simp), ih, consLiteral_nil, itemsWith]

end Entries

section Dates

/-- The formats of the date items. -/
def dateFormats (items : List FormatItem) : List (List Char) :=
  items.filterMap fun
    | .dateTime f => some f
    | _ => none

theorem dateFormats_consLiteral (str : List Char) (items : List FormatItem) :
    dateFormats (consLiteral str items) = dateFormats items := by
  by_cases hstr : str = []
  · rw [hstr, consLiteral_nil]
  · cases items with
    | nil => simp [consLiteral, hstr, dateFormats]
    | cons item items => cases item <;> simp [consLiteral, hstr, dateFormats]

theorem dateFormats_itemsWith (g : List Char → List Char) (ps : List Piece) :
    dateFormats (itemsWith g ps) = (formats ps).map g := by
  induction ps with
  | nil => rfl
  | cons p ps ih =>
    cases p with
    | literal str => rw [itemsWith, dateFormats_consLiteral, ih, formats]
    | conversion k => cases k <;> exact ih
    | date f => exact congrArg (_ :: ·) ih

theorem itemsWith_eq_iff {g g' : List Char → List Char} {ps : List Piece} :
    itemsWith g ps = itemsWith g' ps ↔ ∀ f ∈ formats ps, g f = g' f := by
  constructor
  · intro h
    have hdates := congrArg dateFormats h
    rwa [dateFormats_itemsWith, dateFormats_itemsWith, List.map_inj_left] at hdates
  · intro h
    induction ps with
    | nil => rfl
    | cons p ps ih =>
      cases p with
      | literal str => rw [itemsWith, itemsWith, ih h]
      | conversion k => rw [itemsWith, itemsWith, ih h]
      | date f =>
        rw [formats, List.forall_mem_cons] at h
        rw [itemsWith, itemsWith, h.1, ih h.2]

/-- All dates mean the format that they make together only if they mean one format, and one of them
brings it. -/
theorem oneFormat_iff {fs : List (List Char)} :
    OneFormat fs ↔ ∀ f ∈ fs, effectiveFormat fs.flatten = effectiveFormat f := by
  have hflatten : (fs.filter (· ≠ [])).flatten = fs.flatten := by
    simpa using List.flatten_filter_ne_nil (L := fs)
  constructor
  · rintro ⟨hlen, heq⟩ f hf
    match hfs : fs.filter (· ≠ []), hlen with
    | [], _ =>
      have hnil : f = [] := by simpa using List.filter_eq_nil_iff.mp hfs f hf
      rw [← hflatten, hfs, hnil, List.flatten_nil]
    | [f'], _ =>
      have hf' : f' ∈ fs := List.mem_of_mem_filter (hfs ▸ List.mem_singleton_self f')
      rw [← hflatten, hfs, List.flatten_singleton, heq f' hf' f hf]
  · intro h
    refine ⟨?_, fun f hf f' hf' => (h f hf).symm.trans (h f' hf')⟩
    match hfs : fs.filter (· ≠ []) with
    | [] => exact Nat.zero_le _
    | [_] => exact le_rfl
    | f :: f' :: rest =>
      -- two formats that are not empty make one that is longer than the first
      have hmem : f ∈ fs.filter (· ≠ []) := hfs ▸ List.mem_cons_self
      have hmem' : f' ∈ fs.filter (· ≠ []) := hfs ▸ List.mem_cons_of_mem _ List.mem_cons_self
      obtain ⟨hf, hne⟩ : f ∈ fs ∧ f ≠ [] := by simpa using hmem
      obtain ⟨-, hne'⟩ : f' ∈ fs ∧ f' ≠ [] := by simpa using hmem'
      have hall : fs.flatten = f ++ (f' ++ rest.flatten) := by rw [← hflatten, hfs]; rfl
      have heff := h f hf
      rw [hall, effectiveFormat, effectiveFormat, if_neg (by simp [hne]), if_neg hne,
        List.append_right_eq_self] at heff
      exact absurd (List.append_eq_nil_iff.mp heff).1 hne'

end Dates

/-- What `Init` does with the pattern of the pieces. -/
theorem init_render {ps : List Piece} (hps : WellFormed ps) :
    EndsInDate ps ∧ init (render ps) = none ∨
      ¬ EndsInDate ps ∧ init (render ps) =
        some (itemsWith (fun _ => effectiveFormat (formats ps).flatten) ps, false) := by
  rw [init, scan_eq_scanRest, List.drop_zero]
  rcases scanRest_render (s := ⟨[], [], [], true⟩) rfl hps with ⟨hend, hscan⟩ | ⟨hend, hscan⟩
  · left
    rw [hscan]
    exact ⟨hend, rfl⟩
  · right
    rw [hscan]
    refine ⟨hend, ?_⟩
    simp only [foldl_pass_patterns, foldl_pass_dateformat, List.nil_append, makeItems_entries,
      consLiteral_nil]

/-- `Init` finds the items of the pieces if and only if the dates mean one format, which one date at
most brings; a pattern that ends in a date without braces is not accepted. -/
theorem itemsRight_iff (ps : List Piece) :
    ItemsRight ps ↔ (WellFormed ps → EndsInDate ps ∨ OneFormat (formats ps)) := by
  rw [oneFormat_iff, ← itemsWith_eq_iff (g := fun _ => _), ← itemsOf]
  constructor
  · intro h hps
    rcases init_render hps with ⟨hend, -⟩ | ⟨-, hinit⟩
    · exact .inl hend
    · exact .inr (h _ hps hinit).1
  · intro h items hps hinit
    rcases init_render hps with ⟨-, hnone⟩ | ⟨hend, hsome⟩
    · rw [hnone] at hinit
      cases hinit
    · rw [hsome, (h hps).resolve_left hend, Option.some.injEq, Prod.mk.injEq] at hinit
      obtain ⟨rfl, -⟩ := hinit
      exact ⟨rfl, fun strftime event => format_itemsOf strftime event ps⟩

/-- Both dates of `%d{%Y}%d{%H}` are printed with `%Y%H`. -/
theorem not_itemsRight_twoDates :
    ¬ ItemsRight [.date (some ['%', 'Y']), .date (some ['%', 'H'])] := by
  intro h
  have hps : WellFormed [.date (some ['%', 'Y']), .date (some ['%', 'H'])] :=
    ⟨by decide, by decide, trivial⟩
  rcases init_render hps with ⟨hend, -⟩ | ⟨-, hinit⟩
  · exact hend
  · exact absurd (h _ hps hinit).1 (by decide)

end LogFormatter

end ServerFramework
