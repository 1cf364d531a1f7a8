import Mathlib.Data.List.Basic
import Mathlib.Data.Nat.Notation
import Mathlib.Tactic.SplitIfs

/-! # URL encoding

`UrlEncode` and `UrlDecode` copy the text only once they come to a byte that they change. Which
bytes need no escape stands in a table; there the equals sign is among them.
-/

namespace ServerFramework

namespace StringUtil

def uriChars : List ℕ :=
  [0, 0, 0, 0, 0, 0, 0, 0, 0, 0, 0, 0, 0, 0, 0, 0, 0, 0, 0, 0, 0, 0, 0, 0, 0, 0, 0, 0, 0, 0, 0, 0,
   0, 0, 0, 0, 0, 0, 0, 0, 0, 0, 0, 0, 0, 1, 1, 0, 1, 1, 1, 1, 1, 1, 1, 1, 1, 1, 0, 0, 0, 1, 0, 0,
   0, 1, 1, 1, 1, 1, 1, 1, 1, 1, 1, 1, 1, 1, 1, 1, 1, 1, 1, 1, 1, 1, 1, 1, 1, 1, 1, 0, 0, 0, 0, 1,
   0, 1, 1, 1, 1, 1, 1, 1, 1, 1, 1, 1, 1, 1, 1, 1, 1, 1, 1, 1, 1, 1, 1, 1, 1, 1, 1, 0, 0, 0, 1, 0,
   0, 0, 0, 0, 0, 0, 0, 0, 0, 0, 0, 0, 0, 0, 0, 0, 0, 0, 0, 0, 0, 0, 0, 0, 0, 0, 0, 0, 0, 0, 0, 0,
   0, 0, 0, 0, 0, 0, 0, 0, 0, 0, 0, 0, 0, 0, 0, 0, 0, 0, 0, 0, 0, 0, 0, 0, 0, 0, 0, 0, 0, 0, 0, 0,
   0, 0, 0, 0, 0, 0, 0, 0, 0, 0, 0, 0, 0, 0, 0, 0, 0, 0, 0, 0, 0, 0, 0, 0, 0, 0, 0, 0, 0, 0, 0, 0,
   0, 0, 0, 0, 0, 0, 0, 0, 0, 0, 0, 0, 0, 0, 0, 0, 0, 0, 0, 0, 0, 0, 0, 0, 0, 0, 0, 0, 0, 0, 0, 0]

def xdigitChars : List UInt8 :=
  [0, 0, 0, 0, 0, 0, 0, 0, 0, 0, 0, 0, 0, 0, 0, 0, 0, 0, 0, 0,
   0, 0, 0, 0, 0, 0, 0, 0, 0, 0, 0, 0, 0, 0, 0, 0, 0, 0, 0, 0,
   0, 0, 0, 0, 0, 0, 0, 0, 0, 1, 2, 3, 4, 5, 6, 7, 8, 9, 0, 0,
   0, 0, 0, 0, 0, 10, 11, 12, 13, 14, 15, 0, 0, 0, 0, 0, 0, 0, 0, 0,
   0, 0, 0, 0, 0, 0, 0, 0, 0, 0, 0, 0, 0, 0, 0, 0, 0, 10, 11, 12,
   13, 14, 15, 0, 0, 0, 0, 0, 0, 0, 0, 0, 0, 0, 0, 0, 0, 0, 0, 0,
   0, 0, 0, 0, 0, 0, 0, 0, 0, 0, 0, 0, 0, 0, 0, 0, 0, 0, 0, 0,
   0, 0, 0, 0, 0, 0, 0, 0, 0, 0, 0, 0, 0, 0, 0, 0, 0, 0, 0, 0,
   0, 0, 0, 0, 0, 0, 0, 0, 0, 0, 0, 0, 0, 0, 0, 0, 0, 0, 0, 0,
   0, 0, 0, 0, 0, 0, 0, 0, 0, 0, 0, 0, 0, 0, 0, 0, 0, 0, 0, 0,
   0, 0, 0, 0, 0, 0, 0, 0, 0, 0, 0, 0, 0, 0, 0, 0, 0, 0, 0, 0,
   0, 0, 0, 0, 0, 0, 0, 0, 0, 0, 0, 0, 0, 0, 0, 0, 0, 0, 0, 0,
   0, 0, 0, 0, 0, 0, 0, 0, 0, 0, 0, 0, 0, 0, 0, 0]

def charIsUnreserved (c : UInt8) : Bool := uriChars.getD c.toNat 0 != 0

def hexdigits : List UInt8 := "0123456789ABCDEF".toList.map Char.toUInt8

/-- `hexdigits[n]`. -/
def hexdigit (n : UInt8) : UInt8 := hexdigits.getD n.toNat 0

/-- `isxdigit`. It is only asked about what follows a percent sign. -/
def isxdigit (c : UInt8) : Bool :=
  '0'.toUInt8 ≤ c && c ≤ '9'.toUInt8 || 'A'.toUInt8 ≤ c && c ≤ 'F'.toUInt8 ||
    'a'.toUInt8 ≤ c && c ≤ 'f'.toUInt8

/-- `xdigit_chars[c]`. -/
def xdigit (c : UInt8) : UInt8 := xdigitChars.getD c.toNat 0

/-- What `UrlEncode` appends for a byte that is not unreserved. -/
def escape (spaceAsPlus : Bool) (c : UInt8) : List UInt8 :=
  if c = ' '.toUInt8 ∧ spaceAsPlus then ['+'.toUInt8]
  else ['%'.toUInt8, hexdigit (c >>> 4), hexdigit (c &&& 0xf)]

/-- The loop of `UrlEncode`, where `ss` is allocated with a copy of what is before `c`. -/
def urlEncodeLoop (spaceAsPlus : Bool) :
    List UInt8 → List UInt8 → Option (List UInt8) → Option (List UInt8)
  | _, [], ss => ss
  | before, c :: rest, ss =>
    if !charIsUnreserved c then
      urlEncodeLoop spaceAsPlus (before ++ [c]) rest (some (ss.getD before ++ escape spaceAsPlus c))
    else urlEncodeLoop spaceAsPlus (before ++ [c]) rest (ss.map (· ++ [c]))

/-- `StringUtil::UrlEncode`. -/
def urlEncode (str : List UInt8) (spaceAsPlus : Bool) : List UInt8 :=
  (urlEncodeLoop spaceAsPlus [] str none).getD str

/-- The byte that an escape stands for, if `rest` begins with its two digits. -/
def escaped (c : UInt8) (rest : List UInt8) : Option UInt8 :=
  match rest with
  | x :: y :: _ =>
    if c = '%'.toUInt8 ∧ isxdigit x ∧ isxdigit y then some (xdigit x <<< 4 ||| xdigit y) else none
  | _ => none

/-- The loop of `UrlDecode`. -/
def urlDecodeLoop (spaceAsPlus : Bool) :
    List UInt8 → List UInt8 → Option (List UInt8) → Option (List UInt8)
  | _, [], ss => ss
  | before, c :: rest, ss =>
    if c = '+'.toUInt8 ∧ spaceAsPlus then
      urlDecodeLoop spaceAsPlus (before ++ [c]) rest (some (ss.getD before ++ [' '.toUInt8]))
    else
      match escaped c rest with
      | some b =>
        urlDecodeLoop spaceAsPlus (before ++ c :: rest.take 2) (rest.drop 2)
          (some (ss.getD before ++ [b]))
      | none => urlDecodeLoop spaceAsPlus (before ++ [c]) rest (ss.map (· ++ [c]))
termination_by _ rest => rest.length

/-- `StringUtil::UrlDecode`. -/
def urlDecode (str : List UInt8) (spaceAsPlus : Bool) : List UInt8 :=
  (urlDecodeLoop spaceAsPlus [] str none).getD str

/-- The unreserved bytes that the comment before `UrlEncode` lists. -/
def Unreserved (c : UInt8) : Prop :=
  c = '-'.toUInt8 ∨ c = '.'.toUInt8 ∨ '0'.toUInt8 ≤ c ∧ c ≤ '9'.toUInt8 ∨
    'A'.toUInt8 ≤ c ∧ c ≤ 'Z'.toUInt8 ∨ c = '_'.toUInt8 ∨ 'a'.toUInt8 ≤ c ∧ c ≤ 'z'.toUInt8 ∨
    c = '~'.toUInt8

/-- An upper-case hexadecimal digit. -/
def UpperHex (c : UInt8) : Prop := c ∈ hexdigits

instance (c : UInt8) : Decidable (Unreserved c) := inferInstanceAs (Decidable (_ ∨ _))

instance (c : UInt8) : Decidable (UpperHex c) := inferInstanceAs (Decidable (c ∈ hexdigits))

/-- The second text is the first one with every byte escaped that is not unreserved. -/
inductive Escaped (spaceAsPlus : Bool) : List UInt8 → List UInt8 → Prop where
  | nil : Escaped spaceAsPlus [] []
  | unreserved {c : UInt8} {s t : List UInt8} :
      Unreserved c → Escaped spaceAsPlus s t → Escaped spaceAsPlus (c :: s) (c :: t)
  | percent {c x y : UInt8} {s t : List UInt8} : UpperHex x → UpperHex y →
      Escaped spaceAsPlus s t → Escaped spaceAsPlus (c :: s) ('%'.toUInt8 :: x :: y :: t)
  | plus {s t : List UInt8} : spaceAsPlus = true →
      Escaped spaceAsPlus s t → Escaped spaceAsPlus (' '.toUInt8 :: s) ('+'.toUInt8 :: t)

section Bytes

theorem forall_byte {P : UInt8 → Prop} (h : ∀ n : Fin 256, P (UInt8.ofFin n)) (c : UInt8) : P c :=
  h c.toFin

theorem charIsUnreserved_iff (c : UInt8) :
    charIsUnreserved c = true ↔ Unreserved c ∨ c = '='.toUInt8 := by
  revert c
  apply forall_byte
  decide +kernel

theorem charIsUnreserved_ne {c : UInt8} (h : charIsUnreserved c = true) :
    c ≠ '+'.toUInt8 ∧ c ≠ '%'.toUInt8 := by
  constructor
  · rintro rfl
    exact absurd h (by decide +kernel)
  · rintro rfl
    exact absurd h (by decide +kernel)

theorem upperHex_hexdigit (c : UInt8) :
    UpperHex (hexdigit (c >>> 4)) ∧ UpperHex (hexdigit (c &&& 0xf)) := by
  revert c
  apply forall_byte
  decide +kernel

/-- The two digits of a byte are read back. -/
theorem escaped_hexdigits (c : UInt8) (rest : List UInt8) :
    escaped '%'.toUInt8 (hexdigit (c >>> 4) :: hexdigit (c &&& 0xf) :: rest) = some c := by
  have hdigits : ∀ c : UInt8,
      (isxdigit (hexdigit (c >>> 4)) = true ∧ isxdigit (hexdigit (c &&& 0xf)) = true) ∧
        xdigit (hexdigit (c >>> 4)) <<< 4 ||| xdigit (hexdigit (c &&& 0xf)) = c := by
    apply forall_byte
    decide +kernel
  rw [escaped, if_pos ⟨rfl, (hdigits c).1⟩, (hdigits c).2]

theorem escaped_of_ne {c : UInt8} (hc : c ≠ '%'.toUInt8) (rest : List UInt8) :
    escaped c rest = none := by
  unfold escaped
  split
  · exact if_neg fun h => hc h.1
  · rfl

end Bytes

section Encode

/-- A byte of the encoded text. -/
def encodeByte (spaceAsPlus : Bool) (c : UInt8) : List UInt8 :=
  if charIsUnreserved c then [c] else escape spaceAsPlus c

variable {e : Bool}

theorem urlEncodeLoop_eq (before rest : List UInt8) (ss : Option (List UInt8)) :
    (urlEncodeLoop e before rest ss).getD (before ++ rest) =
      ss.getD before ++ rest.flatMap (encodeByte e) := by
  induction rest generalizing before ss with
  | nil => simp [urlEncodeLoop]
  | cons c rest ih =>
    have ih := ih (before ++ [c])
    rw [List.append_assoc, List.singleton_append] at ih
    rw [urlEncodeLoop]
    by_cases hc : charIsUnreserved c = true
    · rw [if_neg (by simpa using hc), ih]
      cases ss <;> simp [encodeByte, hc]
    · rw [if_pos (by simpa using hc), ih]
      simp [encodeByte, hc]

theorem urlEncode_eq (str : List UInt8) : urlEncode str e = str.flatMap (encodeByte e) := by
  simpa [urlEncode] using urlEncodeLoop_eq (e := e) [] str none

end Encode

section Decode

variable {e d : Bool}

/-- The decoded text. -/
def decodeRest (d : Bool) : List UInt8 → List UInt8
  | [] => []
  | c :: rest =>
    if c = '+'.toUInt8 ∧ d then ' '.toUInt8 :: decodeRest d rest
    else
      match escaped c rest with
      | some b => b :: decodeRest d (rest.drop 2)
      | none => c :: decodeRest d rest
termination_by rest => rest.length

theorem urlDecodeLoop_eq (before rest : List UInt8) (ss : Option (List UInt8)) :
    (urlDecodeLoop d before rest ss).getD (before ++ rest) =
      ss.getD before ++ decodeRest d rest := by
  fun_induction urlDecodeLoop d before rest ss with
  | case1 before ss => simp [decodeRest]
  | case2 before c rest ss hplus ih =>
    rw [List.append_assoc, List.singleton_append] at ih
    rw [ih, decodeRest, if_pos hplus]
    simp
  | case3 before c rest ss hplus b hb ih =>
    rw [List.append_assoc, List.cons_append, List.take_append_drop] at ih
    rw [ih, decodeRest, if_neg hplus, hb]
    simp
  | case4 before c rest ss hplus hb ih =>
    rw [List.append_assoc, List.singleton_append] at ih
    rw [ih, decodeRest, if_neg hplus, hb]
    cases ss with
    | none => simp
    | some out => simp

theorem urlDecode_eq (str : List UInt8) : urlDecode str d = decodeRest d str := by
  simpa [urlDecode] using urlDecodeLoop_eq (d := d) [] str none

/-- An encoded byte is decoded, wherever it stands. -/
theorem decodeRest_encodeByte (hflags : ¬ (e = true ∧ d = false)) (c : UInt8)
    (rest : List UInt8) : decodeRest d (encodeByte e c ++ rest) = c :: decodeRest d rest := by
  rw [encodeByte]
  split_ifs with hc
  · obtain ⟨hplus, hpercent⟩ := charIsUnreserved_ne hc
    rw [List.singleton_append, decodeRest, if_neg (fun h => hplus h.1), escaped_of_ne hpercent]
  · rw [escape]
    split_ifs with hspace
    · have hd : d = true := by
        by_contra hd
        exact hflags ⟨hspace.2, by simpa using hd⟩
      rw [List.singleton_append, decodeRest, if_pos ⟨rfl, hd⟩, hspace.1]
    · have hne : ¬ ('%'.toUInt8 = '+'.toUInt8 ∧ d = true) := fun h => absurd h.1 (by decide)
      simp only [List.cons_append, List.nil_append]
      rw [decodeRest, if_neg hne, escaped_hexdigits]
      rfl

theorem decodeRest_encode (hflags : ¬ (e = true ∧ d = false)) (str : List UInt8) :
    decodeRest d (str.flatMap (encodeByte e)) = str := by
  induction str with
  | nil => simp [decodeRest]
  | cons c str ih => rw [List.flatMap_cons, decodeRest_encodeByte hflags, ih]

/-- A text without escapes is not changed. -/
theorem decodeRest_eq_self {str : List UInt8} (hpercent : '%'.toUInt8 ∉ str)
    (hplus : d = true → '+'.toUInt8 ∉ str) : decodeRest d str = str := by
  induction str with
  | nil => simp [decodeRest]
  | cons c str ih =>
    have hc : ¬ (c = '+'.toUInt8 ∧ d = true) := by
      rintro ⟨rfl, hd⟩
      exact hplus hd List.mem_cons_self
    rw [decodeRest, if_neg hc, escaped_of_ne (List.ne_of_not_mem_cons hpercent).symm]
    have hrest := ih (List.not_mem_of_not_mem_cons hpercent) fun hd =>
      List.not_mem_of_not_mem_cons (hplus hd)
    simp only [hrest]

end Decode

/-- Decoding undoes encoding, unless spaces are encoded as plus signs that are decoded as such;
and a text without percent signs, and without plus signs that mean spaces, is not changed. -/
theorem urlDecode_urlEncode (str : List UInt8) (e d : Bool) :
    (¬ (e = true ∧ d = false) → urlDecode (urlEncode str e) d = str) ∧
      ('%'.toUInt8 ∉ str → (d = true → '+'.toUInt8 ∉ str) → urlDecode str d = str) := by
  rw [urlEncode_eq, urlDecode_eq, urlDecode_eq]
  exact ⟨fun hflags => decodeRest_encode hflags str, decodeRest_eq_self⟩

section Escaped

variable {e : Bool}

theorem escaped_encodeByte {c : UInt8} (hc : c ≠ '='.toUInt8) {s t : List UInt8}
    (h : Escaped e s t) : Escaped e (c :: s) (encodeByte e c ++ t) := by
  rw [encodeByte]
  split_ifs with hunreserved
  · exact .unreserved ((charIsUnreserved_iff c).mp hunreserved |>.resolve_right hc) h
  · rw [escape]
    split_ifs with hspace
    · obtain ⟨rfl, he⟩ := hspace
      exact .plus he h
    · exact .percent (upperHex_hexdigit c).1 (upperHex_hexdigit c).2 h

theorem escaped_urlEncode {str : List UInt8} (hstr : '='.toUInt8 ∉ str) :
    Escaped e str (str.flatMap (encodeByte e)) := by
  induction str with
  | nil => exact .nil
  | cons c str ih =>
    rw [List.flatMap_cons]
    exact escaped_encodeByte (List.ne_of_not_mem_cons hstr).symm
      (ih (List.not_mem_of_not_mem_cons hstr))

/-- An escaped text has no equals sign. -/
theorem Escaped.not_mem {s t : List UInt8} (h : Escaped e s t) : '='.toUInt8 ∉ t := by
  induction h with
  | nil => exact List.not_mem_nil
  | unreserved hc _ ih =>
    have hne : '='.toUInt8 ≠ _ := fun h => absurd (h ▸ hc) (by decide : ¬ Unreserved '='.toUInt8)
    exact List.not_mem_cons_of_ne_of_not_mem hne ih
  | percent hx hy _ ih =>
    have hnex := ne_of_mem_of_not_mem hx (by decide : ¬ UpperHex '='.toUInt8)
    have hney := ne_of_mem_of_not_mem hy (by decide : ¬ UpperHex '='.toUInt8)
    exact List.not_mem_cons_of_ne_of_not_mem (by decide)
      (List.not_mem_cons_of_ne_of_not_mem hnex.symm
        (List.not_mem_cons_of_ne_of_not_mem hney.symm ih))
  | plus _ _ ih => exact List.not_mem_cons_of_ne_of_not_mem (by decide) ih

theorem encodeByte_equals : encodeByte e '='.toUInt8 = ['='.toUInt8] := by
  cases e <;> decide +kernel

end Escaped

/-- `UrlEncode` escapes every byte that is not unreserved if and only if there is no equals sign. -/
theorem escaped_urlEncode_iff (str : List UInt8) (e : Bool) :
    Escaped e str (urlEncode str e) ↔ '='.toUInt8 ∉ str := by
  rw [urlEncode_eq]
  constructor
  · intro h hmem
    refine h.not_mem (List.mem_flatMap.mpr ⟨_, hmem, ?_⟩)
    rw [encodeByte_equals]
    exact List.mem_singleton_self _
  · exact escaped_urlEncode

/-- `=` is not escaped. -/
theorem not_escaped_equals : ¬ Escaped true ['='.toUInt8] (urlEncode ['='.toUInt8] true) := by
  have h : urlEncode ['='.toUInt8] true = ['='.toUInt8] := by decide +kernel
  rw [h]
  exact fun hescaped => hescaped.not_mem (List.mem_singleton_self _)

end StringUtil

end ServerFramework
