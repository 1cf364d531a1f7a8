import Mathlib.Data.List.DropRight
import Mathlib.Data.Nat.Notation

/-! # Trimming

`Trim` cuts from the first to the last character that is no delimiter, `TrimLeft` from the first
one on. `TrimRight` takes the position of the last one for the length of the result.
-/

namespace ServerFramework

namespace StringUtil

variable {str delimit : List UInt8}

/-- `str.find_first_not_of(delimit)`, without a result for `npos`. -/
def findFirstNotOf (str delimit : List UInt8) : Option ℕ := str.findIdx? fun c => !delimit.elem c

/-- `str.find_last_not_of(delimit)`, without a result for `npos`. -/
def findLastNotOf (str delimit : List UInt8) : Option ℕ :=
  (findFirstNotOf str.reverse delimit).map fun k => str.length - 1 - k

/-- `str.substr(pos, n)`. -/
def substr (str : List UInt8) (pos n : ℕ) : List UInt8 := (str.drop pos).take n

/-- `StringUtil::Trim`. Where there is a first position, there is a last one. -/
def trim (str delimit : List UInt8) : List UInt8 :=
  match findFirstNotOf str delimit, findLastNotOf str delimit with
  | some begin, some last => substr str begin (last - begin + 1)
  | _, _ => []

/-- `StringUtil::TrimLeft`. -/
def trimLeft (str delimit : List UInt8) : List UInt8 :=
  match findFirstNotOf str delimit with
  | some begin => str.drop begin
  | none => []

/-- `StringUtil::TrimRight`. -/
def trimRight (str delimit : List UInt8) : List UInt8 :=
  match findLastNotOf str delimit with
  | some last => substr str 0 last
  | none => []

/-- The laws of trimming. -/
structure TrimLaws (str delimit : List UInt8) : Prop where
  left : trimLeft str delimit = str.dropWhile (delimit.elem ·)
  right : trimRight str delimit = str.rdropWhile (delimit.elem ·)
  left_right : trim str delimit = trimLeft (trimRight str delimit) delimit
  right_left : trim str delimit = trimRight (trimLeft str delimit) delimit
  trim_trim : trim (trim str delimit) delimit = trim str delimit
  left_left : trimLeft (trimLeft str delimit) delimit = trimLeft str delimit
  right_right : trimRight (trimRight str delimit) delimit = trimRight str delimit

theorem findFirstNotOf_eq_none_iff :
    findFirstNotOf str delimit = none ↔ ∀ c ∈ str, c ∈ delimit := by
  simp [findFirstNotOf]

theorem findLastNotOf_eq_none_iff :
    findLastNotOf str delimit = none ↔ ∀ c ∈ str, c ∈ delimit := by
  simp [findLastNotOf, findFirstNotOf_eq_none_iff]

/-- What is before the first position, and what stands there. -/
theorem findFirstNotOf_eq_some {k : ℕ} (h : findFirstNotOf str delimit = some k) :
    ∃ l c r, str = l ++ c :: r ∧ l.length = k ∧ (∀ b ∈ l, b ∈ delimit) ∧ c ∉ delimit := by
  induction str generalizing k with
  | nil => simp [findFirstNotOf] at h
  | cons c str ih =>
    rw [findFirstNotOf, List.findIdx?_cons] at h
    by_cases hc : c ∈ delimit
    · rw [if_neg (by simpa using hc), Option.map_eq_some_iff] at h
      obtain ⟨k, hk, rfl⟩ := h
      obtain ⟨l, c', r, rfl, rfl, hl, hc'⟩ := ih hk
      exact ⟨c :: l, c', r, rfl, rfl, List.forall_mem_cons.mpr ⟨hc, hl⟩, hc'⟩
    · rw [if_pos (by simpa using hc)] at h
      exact ⟨[], c, str, rfl, Option.some.inj h, by simp, hc⟩

theorem findLastNotOf_eq_some {k : ℕ} (h : findLastNotOf str delimit = some k) :
    ∃ l c r, str = l ++ c :: r ∧ l.length = k ∧ c ∉ delimit ∧ ∀ b ∈ r, b ∈ delimit := by
  rw [findLastNotOf, Option.map_eq_some_iff] at h
  obtain ⟨k, hk, rfl⟩ := h
  obtain ⟨r, c, l, hstr, rfl, hr, hc⟩ := findFirstNotOf_eq_some hk
  have hstr' : str = l.reverse ++ c :: r.reverse := by
    simpa using congrArg List.reverse hstr
  refine ⟨l.reverse, c, r.reverse, hstr', ?_, hc, by simpa using hr⟩
  rw [hstr']
  simp

/-- A front part of delimiters is dropped. -/
theorem dropWhile_elem {l r : List UInt8} {c : UInt8} (hl : ∀ b ∈ l, b ∈ delimit)
    (hc : c ∉ delimit) : (l ++ c :: r).dropWhile (delimit.elem ·) = c :: r := by
  rw [List.dropWhile_append_of_pos (by simpa using hl),
    List.dropWhile_cons_of_neg (by simpa using hc)]

theorem rdropWhile_elem {l r : List UInt8} {c : UInt8} (hc : c ∉ delimit)
    (hr : ∀ b ∈ r, b ∈ delimit) : (l ++ c :: r).rdropWhile (delimit.elem ·) = l ++ [c] := by
  have hrev : (l ++ c :: r).reverse = r.reverse ++ c :: l.reverse := by simp
  rw [List.rdropWhile, hrev, dropWhile_elem (by simpa using hr) hc]
  simp

theorem trimLeft_eq : trimLeft str delimit = str.dropWhile (delimit.elem ·) := by
  rw [trimLeft]
  cases h : findFirstNotOf str delimit with
  | none =>
    have hall := findFirstNotOf_eq_none_iff.mp h
    exact (List.dropWhile_eq_nil_iff.mpr (by simpa using hall)).symm
  | some k =>
    obtain ⟨l, c, r, rfl, rfl, hl, hc⟩ := findFirstNotOf_eq_some h
    rw [dropWhile_elem hl hc]
    exact List.drop_left

/-- `TrimRight` drops one character too many. -/
theorem trimRight_eq :
    trimRight str delimit = (str.rdropWhile (delimit.elem ·)).dropLast := by
  rw [trimRight]
  cases h : findLastNotOf str delimit with
  | none =>
    rw [List.rdropWhile_eq_nil_iff.mpr (by simpa using findLastNotOf_eq_none_iff.mp h)]
    rfl
  | some k =>
    obtain ⟨l, c, r, rfl, rfl, hc, hr⟩ := findLastNotOf_eq_some h
    rw [rdropWhile_elem hc hr, List.dropLast_concat]
    exact List.take_left

/-- The last position is not before the first one, and the rest is behind it. -/
theorem exists_between {l r l' r' : List UInt8} {c c' : UInt8}
    (hstr : l ++ c :: r = l' ++ c' :: r') (hl : ∀ b ∈ l, b ∈ delimit) (hc' : c' ∉ delimit) :
    ∃ m, l ++ c :: m = l' ++ [c'] ∧ r = m ++ r' := by
  have hfront : l ++ [c] <+: l ++ c :: r := ⟨r, by simp⟩
  have hback : l' ++ [c'] <+: l ++ c :: r := ⟨r', by simp [hstr]⟩
  have hle : l.length ≤ l'.length := by
    by_contra hlt
    -- otherwise the last one is among the delimiters before the first one
    have hpre : l' ++ [c'] <+: l := by
      refine List.prefix_of_prefix_length_le hback (List.prefix_append _ _) ?_
      rw [List.length_append, List.length_singleton]
      omega
    exact hc' (hl c' (hpre.subset (by simp)))
  obtain ⟨m, hm⟩ := List.prefix_of_prefix_length_le hfront hback (by simpa using hle)
  rw [List.append_assoc, List.singleton_append] at hm
  refine ⟨m, hm, ?_⟩
  have hall : (l ++ [c]) ++ r = (l ++ [c]) ++ (m ++ r') := by
    calc (l ++ [c]) ++ r
      _ = (l' ++ [c']) ++ r' := by simpa using hstr
      _ = (l ++ [c]) ++ (m ++ r') := by simp [← hm]
  exact List.append_cancel_left hall

/-- `Trim` drops the delimiters on both sides. -/
theorem trim_eq :
    trim str delimit = (str.rdropWhile (delimit.elem ·)).dropWhile (delimit.elem ·) := by
  rw [trim]
  cases hfirst : findFirstNotOf str delimit with
  | none =>
    have hall := findFirstNotOf_eq_none_iff.mp hfirst
    rw [List.rdropWhile_eq_nil_iff.mpr (by simpa using hall)]
    rfl
  | some i =>
    cases hlast : findLastNotOf str delimit with
    | none =>
      rw [findLastNotOf_eq_none_iff, ← findFirstNotOf_eq_none_iff, hfirst] at hlast
      cases hlast
    | some j =>
      obtain ⟨l, c, r, rfl, rfl, hl, hc⟩ := findFirstNotOf_eq_some hfirst
      obtain ⟨l', c', r', hstr, rfl, hc', hr'⟩ := findLastNotOf_eq_some hlast
      obtain ⟨m, hm, rfl⟩ := exists_between hstr hl hc'
      have hcount : l'.length - l.length + 1 = (c :: m).length := by
        have hlen := congrArg List.length hm
        simp only [List.length_append, List.length_cons, List.length_nil] at hlen ⊢
        omega
      calc substr (l ++ c :: (m ++ r')) l.length (l'.length - l.length + 1)
        _ = c :: m := by rw [substr, List.drop_left, hcount, ← List.cons_append, List.take_left]
        _ = ((l ++ c :: (m ++ r')).rdropWhile (delimit.elem ·)).dropWhile (delimit.elem ·) := by
          rw [hstr, rdropWhile_elem hc' hr', ← hm, dropWhile_elem hl hc]

/-- The trimming functions obey their laws if and only if there is nothing but delimiters. -/
theorem trimLaws_iff (str delimit : List UInt8) :
    TrimLaws str delimit ↔ ∀ c ∈ str, c ∈ delimit := by
  constructor
  · intro h
    have hright := h.right
    rw [trimRight_eq] at hright
    have hlen := congrArg List.length hright
    rw [List.length_dropLast] at hlen
    have hnil : str.rdropWhile (delimit.elem ·) = [] := List.length_eq_zero_iff.mp (by omega)
    simpa using List.rdropWhile_eq_nil_iff.mp hnil
  · intro hall
    have hleft : str.dropWhile (delimit.elem ·) = [] :=
      List.dropWhile_eq_nil_iff.mpr (by simpa using hall)
    have hright : str.rdropWhile (delimit.elem ·) = [] :=
      List.rdropWhile_eq_nil_iff.mpr (by simpa using hall)
    have htrim : trim str delimit = [] := by rw [trim_eq, hright]; rfl
    have htrimLeft : trimLeft str delimit = [] := by rw [trimLeft_eq, hleft]
    have htrimRight : trimRight str delimit = [] := by rw [trimRight_eq, hright]; rfl
    constructor
    · rw [htrimLeft, hleft]
    · rw [htrimRight, hright]
    all_goals simp only [htrim, htrimLeft, htrimRight]; rfl

/-- `ab` loses its last letter. -/
theorem not_trimLaws_word :
    ¬ TrimLaws ['a'.toUInt8, 'b'.toUInt8] [' '.toUInt8] := by
  intro h
  exact absurd h.right (by decide)

end StringUtil

end ServerFramework
