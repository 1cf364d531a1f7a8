import ServerFramework.Log.PatternItems

/-! # Patterns with errors

Which percent sign begins a conversion depends on the text before it. `Init` reports the
conversions that it does not know and the braces that are not closed, but behind a date without
braces that ends the pattern it reads too far.
-/

namespace ServerFramework

namespace LogFormatter

/-- A text with whole conversions: a percent sign behind it begins another one. -/
inductive Whole : List Char → Prop where
  | nil : Whole []
  | literal {c : Char} {cs : List Char} : c ≠ '%' → Whole cs → Whole (c :: cs)
  | conversion {c : Char} {cs : List Char} : c ≠ 'd' → Whole cs → Whole ('%' :: c :: cs)
  | date {cs : List Char} : cs.head? ≠ some '{' → Whole cs → Whole ('%' :: 'd' :: cs)
  | format {f cs : List Char} :
      '}' ∉ f → Whole cs → Whole ('%' :: 'd' :: '{' :: (f ++ '}' :: cs))

/-- A percent sign begins a conversion before a text as described. -/
def Begins (R : List Char → Prop) (pattern : List Char) : Prop :=
  ∃ before rest, Whole before ∧ pattern = before ++ '%' :: rest ∧ R rest

def HasConversion (c : Char) : List Char → Prop := Begins fun rest => rest.head? = some c

/-- A date has a brace that is not closed. -/
def NotClosed : List Char → Prop := Begins fun rest => ∃ f, rest = 'd' :: '{' :: f ∧ '}' ∉ f

/-- The last percent sign begins a conversion and nothing follows. -/
def EndsUnpaired : List Char → Prop := Begins fun rest => rest = []

/-- The last conversion is a date without braces and nothing follows. -/
def EndsInPlainDate : List Char → Prop := Begins fun rest => rest = ['d']

/-- The characters of the conversions. -/
def Known (c : Char) : Prop := c ∈ "mpcdrfltFN%Tn".toList

/-- Unless an unpaired percent sign ends the pattern, `Init` finishes, with an error if and only if
a conversion is unknown or a brace is not closed. -/
def ErrorsRight (pattern : List Char) : Prop :=
  ¬ EndsUnpaired pattern →
    ∃ items error, init pattern = some (items, error) ∧
      (error = true ↔ (∃ c, HasConversion c pattern ∧ ¬ Known c) ∨ NotClosed pattern)

/-- The ways in which a pattern can go on, or end. -/
@[elab_as_elim]
theorem pattern_induction {P : List Char → Prop} (nil : P [])
    (literal : ∀ c cs, c ≠ '%' → P cs → P (c :: cs)) (unpaired : P ['%'])
    (conversion : ∀ c cs, c ≠ 'd' → P cs → P ('%' :: c :: cs)) (plainDate : P ['%', 'd'])
    (date : ∀ cs, cs ≠ [] → cs.head? ≠ some '{' → P cs → P ('%' :: 'd' :: cs))
    (format : ∀ f cs, '}' ∉ f → P cs → P ('%' :: 'd' :: '{' :: (f ++ '}' :: cs)))
    (notClosed : ∀ f, '}' ∉ f → P ('%' :: 'd' :: '{' :: f)) (pattern : List Char) :
    P pattern := by
  induction hlen : pattern.length using Nat.strong_induction_on generalizing pattern with
  | _ n ih =>
  have hrec : ∀ cs : List Char, cs.length < pattern.length → P cs :=
    fun cs hcs => ih _ (hlen ▸ hcs) cs rfl
  match pattern with
  | [] => exact nil
  | c :: cs =>
    by_cases hc : c = '%'
    · subst hc
      match cs with
      | [] => exact unpaired
      | c :: cs =>
        by_cases hd : c = 'd'
        · subst hd
          match cs with
          | [] => exact plainDate
          | c :: cs =>
            by_cases hbrace : c = '{'
            · subst hbrace
              by_cases hmem : '}' ∈ cs
              · obtain ⟨f, rest, rfl, hf⟩ := List.eq_append_cons_of_mem hmem
                have hlt : rest.length < ('%' :: 'd' :: '{' :: (f ++ '}' :: rest)).length := by
                  simp only [List.length_cons, List.length_append]
                  omega
                exact format f rest hf (hrec rest hlt)
              · exact notClosed cs hmem
            · exact date (c :: cs) (List.cons_ne_nil _ _) (by simpa using hbrace)
                (hrec _ (by simp))
        · exact conversion c cs hd (hrec cs (by rw [List.length_cons, List.length_cons]; omega))
    · exact literal c cs hc (hrec cs (by simp))

section Begins

variable {R : List Char → Prop} {c : Char} {f cs w : List Char}

@[simp] theorem not_begins_nil : ¬ Begins R [] := by
  rintro ⟨before, rest, -, he, -⟩
  simp at he

theorem begins_literal (hc : c ≠ '%') : Begins R (c :: cs) ↔ Begins R cs := by
  constructor
  · rintro ⟨before, rest, hbefore, he, hr⟩
    cases hbefore with
    | nil => exact absurd (List.cons.inj he).1 hc
    | literal _ hwhole => exact ⟨_, rest, hwhole, (List.cons.inj he).2, hr⟩
    | conversion | date | format => exact absurd (List.cons.inj he).1 hc
  · rintro ⟨before, rest, hbefore, rfl, hr⟩
    exact ⟨c :: before, rest, .literal hc hbefore, rfl, hr⟩

theorem head?_append_percent {before rest : List Char} :
    (before ++ '%' :: rest).head? ≠ some '{' ↔ before.head? ≠ some '{' := by
  cases before <;> simp

/-- A percent sign begins a conversion, and then it depends on the conversion what is behind it. -/
theorem begins_percent : Begins R ('%' :: w) ↔ R w ∨
    (∃ c cs, w = c :: cs ∧ c ≠ 'd' ∧ Begins R cs) ∨
    (∃ cs, w = 'd' :: cs ∧ cs.head? ≠ some '{' ∧ Begins R cs) ∨
    ∃ f cs, w = 'd' :: '{' :: (f ++ '}' :: cs) ∧ '}' ∉ f ∧ Begins R cs := by
  constructor
  · rintro ⟨before, rest, hbefore, he, hr⟩
    cases hbefore with
    | nil =>
      left
      rwa [(List.cons.inj he).2]
    | literal hliteral => exact absurd (List.cons.inj he).1.symm hliteral
    | conversion hc hwhole =>
      exact .inr (.inl ⟨_, _, (List.cons.inj he).2, hc, _, rest, hwhole, rfl, hr⟩)
    | date hhead hwhole =>
      exact .inr (.inr (.inl ⟨_, (List.cons.inj he).2, head?_append_percent.mpr hhead, _, rest,
        hwhole, rfl, hr⟩))
    | format hf hwhole =>
      exact .inr (.inr (.inr ⟨_, _, by simpa using he, hf, _, rest, hwhole, rfl, hr⟩))
  · rintro (hr | ⟨c, cs, rfl, hc, before, rest, hbefore, rfl, hr⟩ |
      ⟨cs, rfl, hhead, before, rest, hbefore, rfl, hr⟩ |
      ⟨f, cs, rfl, hf, before, rest, hbefore, rfl, hr⟩)
    · exact ⟨[], w, .nil, rfl, hr⟩
    · exact ⟨'%' :: c :: before, rest, .conversion hc hbefore, rfl, hr⟩
    · exact ⟨'%' :: 'd' :: before, rest, .date (head?_append_percent.mp hhead) hbefore, rfl, hr⟩
    · exact ⟨'%' :: 'd' :: '{' :: (f ++ '}' :: before), rest, .format hf hbefore, by simp, hr⟩

theorem begins_unpaired : Begins R ['%'] ↔ R [] := by
  rw [begins_percent]
  simp

theorem begins_conversion (hc : c ≠ 'd') :
    Begins R ('%' :: c :: cs) ↔ R (c :: cs) ∨ Begins R cs := by
  rw [begins_percent]
  simp [hc]

theorem begins_date (hcs : cs.head? ≠ some '{') :
    Begins R ('%' :: 'd' :: cs) ↔ R ('d' :: cs) ∨ Begins R cs := by
  rw [begins_percent]
  refine or_congr_right ⟨?_, fun h => .inr (.inl ⟨cs, rfl, hcs, h⟩)⟩
  rintro (⟨c, cs', he, hc, -⟩ | ⟨cs', he, -, h⟩ | ⟨f, cs', he, -⟩)
  · exact absurd (List.cons.inj he).1.symm hc
  · rwa [(List.cons.inj he).2]
  · rw [(List.cons.inj he).2] at hcs
    exact absurd rfl hcs

theorem begins_format (hf : '}' ∉ f) :
    Begins R ('%' :: 'd' :: '{' :: (f ++ '}' :: cs)) ↔
      R ('d' :: '{' :: (f ++ '}' :: cs)) ∨ Begins R cs := by
  rw [begins_percent]
  refine or_congr_right ⟨?_, fun h => .inr (.inr ⟨f, cs, rfl, hf, h⟩)⟩
  rintro (⟨c, cs', he, hc, -⟩ | ⟨cs', he, hhead, -⟩ | ⟨f', cs', he, hf', h⟩)
  · exact absurd (List.cons.inj he).1.symm hc
  · rw [← (List.cons.inj he).2] at hhead
    exact absurd rfl hhead
  · have hdrop := congrArg (List.dropWhile (· ≠ '}')) (List.cons.inj (List.cons.inj he).2).2
    rw [dropWhile_brace hf, dropWhile_brace hf'] at hdrop
    rwa [(List.cons.inj hdrop).2]

theorem begins_notClosed (hf : '}' ∉ f) :
    Begins R ('%' :: 'd' :: '{' :: f) ↔ R ('d' :: '{' :: f) := by
  rw [begins_percent]
  refine or_iff_left ?_
  rintro (⟨c, cs', he, hc, -⟩ | ⟨cs', he, hhead, -⟩ | ⟨f', cs', he, -⟩)
  · exact absurd (List.cons.inj he).1.symm hc
  · rw [← (List.cons.inj he).2] at hhead
    exact absurd rfl hhead
  · rw [(List.cons.inj (List.cons.inj he).2).2] at hf
    simp at hf

end Begins

section Scan

/-- What the loop makes of the pattern that is left. -/
inductive Outcome (pattern : List Char) (s : Scan) : Except Halt Scan → Prop where
  | outOfRange : EndsInPlainDate pattern → Outcome pattern s (.error .outOfRange)
  | notClosed :
      ¬ EndsInPlainDate pattern → NotClosed pattern → Outcome pattern s (.error .notClosed)
  | ok {t : Scan} : ¬ EndsInPlainDate pattern → ¬ NotClosed pattern →
      (∀ c, .conversion c ∈ t.patterns ↔ .conversion c ∈ s.patterns ∨ HasConversion c pattern) →
      Outcome pattern s (.ok t)

/-- A step of the loop passes a part of the pattern in which no date ends it. -/
theorem Outcome.of_step {pattern cs : List Char} {s t : Scan} {r : Except Halt Scan}
    (h : Outcome cs t r) (hplain : EndsInPlainDate pattern ↔ EndsInPlainDate cs)
    (hclosed : NotClosed pattern ↔ NotClosed cs)
    (hconv : ∀ c, .conversion c ∈ s.patterns ∨ HasConversion c pattern ↔
      .conversion c ∈ t.patterns ∨ HasConversion c cs) : Outcome pattern s r := by
  cases h with
  | outOfRange hend => exact .outOfRange (hplain.mpr hend)
  | notClosed hend hbrace => exact .notClosed (mt hplain.mp hend) (hclosed.mpr hbrace)
  | ok hend hbrace hpatterns =>
    refine .ok (mt hplain.mp hend) (mt hclosed.mp hbrace) ?_
    intro c
    rw [hpatterns, hconv]

@[simp] theorem conversion_mem_flush (s : Scan) (c : Char) :
    .conversion c ∈ s.flush.patterns ↔ .conversion c ∈ s.patterns := by
  by_cases h : s.tmp = [] <;> simp [Scan.flush, h]

theorem conversion_mem_push (s : Scan) (k c : Char) :
    .conversion c ∈ (s.push k).patterns ↔ .conversion c ∈ s.patterns ∨ k = c := by
  simp [Scan.push, eq_comm]

/-- A conversion other than a date, known or not. -/
theorem scanRest_other {s : Scan} (hs : s.parsingString = true) {c : Char} (hc : c ≠ 'd')
    (cs : List Char) : scanRest ('%' :: c :: cs) s = scanRest cs (s.flush.push c) := by
  rw [scanRest_percent hs, scanRest]
  by_cases hpercent : c = '%' <;> simp [hpercent, hc, Scan.push, Scan.flush]

theorem scanRest_outcome (pattern : List Char) {s : Scan} (hs : s.parsingString = true) :
    Outcome pattern s (scanRest pattern s) := by
  induction pattern using pattern_induction generalizing s with
  | nil =>
    rw [scanRest]
    exact .ok not_begins_nil not_begins_nil (by simp [HasConversion])
  | literal c cs hc ih =>
    rw [scanRest, if_neg hc, if_pos hs]
    exact (ih (s := { s with tmp := s.tmp ++ [c] }) hs).of_step (begins_literal hc)
      (begins_literal hc) fun k => or_congr_right (begins_literal hc)
  | unpaired =>
    rw [scanRest_percent hs, scanRest]
    refine .ok ?_ ?_ ?_
    · simp [EndsInPlainDate, begins_unpaired]
    · simp [NotClosed, begins_unpaired]
    · simp [HasConversion, begins_unpaired]
  | conversion c cs hc ih =>
    rw [scanRest_other hs hc]
    refine (ih rfl).of_step ?_ ?_ fun k => ?_
    · simp [EndsInPlainDate, begins_conversion hc, hc]
    · simp [NotClosed, begins_conversion hc, hc]
    · rw [conversion_mem_push, conversion_mem_flush, HasConversion, begins_conversion hc, or_assoc]
      simp
  | plainDate =>
    rw [scanRest_date_nil hs]
    exact .outOfRange ⟨[], _, .nil, rfl, rfl⟩
  | date cs hne hcs ih =>
    rw [scanRest_date hs hne hcs]
    refine (ih rfl).of_step ?_ ?_ fun k => ?_
    · simp [EndsInPlainDate, begins_date hcs, hne]
    · have hnot : ¬ ∃ f, 'd' :: cs = 'd' :: '{' :: f ∧ '}' ∉ f := by
        rintro ⟨f, he, -⟩
        rw [(List.cons.inj he).2] at hcs
        exact hcs rfl
      rw [NotClosed, begins_date hcs, or_iff_right hnot]
    · rw [Scan.pass, conversion_mem_push, conversion_mem_flush, HasConversion, begins_date hcs,
        or_assoc]
      simp
  | format f cs hf ih =>
    rw [scanRest_format hs hf]
    refine (ih rfl).of_step ?_ ?_ fun k => ?_
    · simp [EndsInPlainDate, begins_format hf]
    · simp [NotClosed, begins_format hf]
    · rw [Scan.pass, conversion_mem_push, conversion_mem_flush, HasConversion, begins_format hf,
        or_assoc]
      simp
  | notClosed f hf =>
    have hscan : scanRest ('%' :: 'd' :: '{' :: f) s = .error .notClosed := by
      rw [scanRest_percent hs, scanRest]
      simp [hf]
    rw [hscan]
    refine .notClosed ?_ ?_
    · simp [EndsInPlainDate, begins_notClosed hf]
    · rw [NotClosed, begins_notClosed hf]
      exact ⟨f, rfl, hf⟩

end Scan

theorem known_of_sFormatItems {c : Char} (h : (sFormatItems c).isSome = true) : Known c := by
  unfold Known
  unfold sFormatItems at h
  split at h
  case h_13 => cases h
  all_goals decide

theorem makeItem_conversion_isSome (df : List Char) (c : Char) :
    (makeItem df (.conversion c)).isSome = true ↔ Known c := by
  constructor
  · intro h
    by_cases hd : c = 'd'
    · rw [hd]
      unfold Known
      decide
    · apply known_of_sFormatItems
      rwa [makeItem] at h
      exact hd
  · intro h
    have hc : c ∈ ['m', 'p', 'c', 'd', 'r', 'f', 'l', 't', 'F', 'N', '%', 'T', 'n'] := h
    simp only [List.mem_cons, List.not_mem_nil, or_false] at hc
    rcases hc with rfl | rfl | rfl | rfl | rfl | rfl | rfl | rfl | rfl | rfl | rfl | rfl | rfl <;>
      rfl

/-- The items are made without an error unless a conversion is unknown. -/
theorem makeItems_error_iff (df : List Char) (es : List Entry) :
    (makeItems df es).2 = true ↔ ∃ c, .conversion c ∈ es ∧ ¬ Known c := by
  induction es with
  | nil => simp [makeItems]
  | cons e es ih =>
    cases e with
    | literal str =>
      rw [makeItems_cons rfl, ih]
      simp
    | conversion k =>
      have hknown := makeItem_conversion_isSome df k
      cases hitem : makeItem df (.conversion k) with
      | none =>
        rw [hitem] at hknown
        rw [makeItems, hitem]
        exact iff_of_true rfl ⟨k, List.mem_cons_self, fun h => by simpa using hknown.mpr h⟩
      | some item =>
        rw [hitem] at hknown
        rw [makeItems_cons hitem, ih]
        constructor
        · rintro ⟨c, hc, hunknown⟩
          exact ⟨c, List.mem_cons_of_mem _ hc, hunknown⟩
        · rintro ⟨c, hc, hunknown⟩
          rcases List.mem_cons.mp hc with he | hc
          · obtain rfl := Entry.conversion.inj he
            exact absurd (hknown.mp rfl) hunknown
          · exact ⟨c, hc, hunknown⟩

/-- A pattern does not end in a percent sign and in a date. -/
theorem not_endsUnpaired {pattern : List Char} (h : EndsInPlainDate pattern) :
    ¬ EndsUnpaired pattern := by
  obtain ⟨before, rest, -, rfl, rfl⟩ := h
  rintro ⟨before', rest', -, he, rfl⟩
  have hlast := congrArg List.getLast? he
  simp at hlast

/-- `Init` treats the errors of a pattern right if and only if the pattern does not end in a date
without braces. -/
theorem errorsRight_iff (pattern : List Char) :
    ErrorsRight pattern ↔ ¬ EndsInPlainDate pattern := by
  have hscan := scanRest_outcome pattern (s := ⟨[], [], [], true⟩) rfl
  rw [ErrorsRight, init, scan_eq_scanRest, List.drop_zero]
  generalize scanRest pattern ⟨[], [], [], true⟩ = r at hscan
  cases hscan with
  | outOfRange hend =>
    refine iff_of_false ?_ (not_not.mpr hend)
    intro h
    obtain ⟨items, error, hinit, -⟩ := h (not_endsUnpaired hend)
    cases hinit
  | notClosed hend hbrace =>
    refine iff_of_true ?_ hend
    intro _
    exact ⟨[], true, rfl, iff_of_true rfl (.inr hbrace)⟩
  | @ok t hend hbrace hpatterns =>
    refine iff_of_true ?_ hend
    intro _
    refine ⟨_, _, rfl, ?_⟩
    simp [makeItems_error_iff, hpatterns, hbrace]

/-- `Init` reads behind the terminator of `%d`. -/
theorem not_errorsRight_plainDate : ¬ ErrorsRight ['%', 'd'] := by
  intro h
  have hunpaired : ¬ EndsUnpaired ['%', 'd'] := not_endsUnpaired ⟨[], ['d'], .nil, rfl, rfl⟩
  obtain ⟨items, error, hinit, -⟩ := h hunpaired
  have hscan : scanRest ['%', 'd'] ⟨[], [], [], true⟩ = .error .outOfRange := scanRest_date_nil rfl
  rw [init, scan_eq_scanRest, List.drop_zero, hscan] at hinit
  cases hinit

end LogFormatter

end ServerFramework
