import Mathlib.Data.Nat.Basic
import Mathlib.Tactic.Common

/-! # Numerals

Reading the digits of a number back in a base of up to sixteen, with letters in lower case.
-/

namespace Numerals

/-- The value of a digit. -/
def digitValue (c : Char) : Option ℕ :=
  if '0' ≤ c ∧ c ≤ '9' then some (c.toNat - '0'.toNat)
  else if 'a' ≤ c ∧ c ≤ 'f' then some (c.toNat - 'a'.toNat + 10)
  else none

/-- The number with the given digits behind those of `n`. -/
def readDigits (b n : ℕ) : List Char → Option ℕ
  | [] => some n
  | c :: cs =>
    match digitValue c with
    | some d => if d < b then readDigits b (b * n + d) cs else none
    | none => none

theorem digitValue_digitChar : ∀ d < 16, digitValue d.digitChar = some d := by decide

theorem readDigits_append (b n : ℕ) (cs cs' : List Char) :
    readDigits b n (cs ++ cs') = (readDigits b n cs).bind fun m => readDigits b m cs' := by
  induction cs generalizing n with
  | nil => rfl
  | cons c cs ih =>
    rw [List.cons_append, readDigits, readDigits]
    cases digitValue c with
    | none => rfl
    | some d =>
      by_cases hd : d < b
      · simp only [if_pos hd, ih]
      · simp only [if_neg hd, Option.bind_none]

section Base

variable {b : ℕ} (hb : 1 < b) (hb16 : b ≤ 16)

include hb hb16

theorem readDigits_toDigits (n : ℕ) : readDigits b 0 (Nat.toDigits b n) = some n := by
  induction n using Nat.strong_induction_on with
  | _ n ih =>
    have hmod : n % b < b := Nat.mod_lt n (by omega)
    have hdigit := digitValue_digitChar (n % b) (by omega)
    rcases lt_or_ge n b with hlt | hge
    · rw [Nat.toDigits_of_lt_base hlt, ← Nat.mod_eq_of_lt hlt]
      simp [readDigits, hdigit, hmod]
    · have hdiv : n / b < n := Nat.div_lt_self (by omega) hb
      rw [Nat.toDigits_of_base_le hb hge, readDigits_append, ih _ hdiv]
      simp [readDigits, hdigit, hmod, Nat.div_add_mod]

theorem toDigits_injective : Function.Injective (Nat.toDigits b) := by
  intro m n he
  have hm := readDigits_toDigits hb hb16 m
  rw [he, readDigits_toDigits hb hb16 n] at hm
  exact (Option.some.inj hm).symm

/-- The characters of a number are digits. -/
theorem not_mem_toDigits {c : Char} (hc : digitValue c = none) (n : ℕ) : c ∉ Nat.toDigits b n := by
  induction n using Nat.strong_induction_on with
  | _ n ih =>
    have hmod : n % b < b := Nat.mod_lt n (by omega)
    have hne : c ≠ (n % b).digitChar := by
      rintro rfl
      rw [digitValue_digitChar (n % b) (by omega)] at hc
      cases hc
    rcases lt_or_ge n b with hlt | hge
    · rw [Nat.toDigits_of_lt_base hlt, List.mem_singleton]
      rwa [Nat.mod_eq_of_lt hlt] at hne
    · have hdiv : n / b < n := Nat.div_lt_self (by omega) hb
      simp [Nat.toDigits_of_base_le hb hge, ih _ hdiv, hne]

end Base

end Numerals
