import Mathlib.Data.Nat.BitIndices
import Mathlib.Data.Nat.Bitwise
import ServerFramework.Lib.Digits

/-! # Ones and bytes

How many bits of a number are set, and where its bits are in its bytes.
-/

namespace Bits

open Digits

/-- The number of ones in the binary representation. -/
def ones (n : ℕ) : ℕ := n.bitIndices.length

@[simp] theorem ones_zero : ones 0 = 0 := by simp [ones]

@[simp] theorem ones_two_mul (n : ℕ) : ones (2 * n) = ones n := by simp [ones]

@[simp] theorem ones_two_mul_add_one (n : ℕ) : ones (2 * n + 1) = ones n + 1 := by simp [ones]

/-- The ones of the two parts of a number. -/
theorem ones_two_pow_mul_add (k a : ℕ) {b : ℕ} (hb : b < 2 ^ k) :
    ones (2 ^ k * a + b) = ones a + ones b := by
  induction k generalizing b with
  | zero =>
    obtain rfl : b = 0 := by omega
    simp
  | succ k ih =>
    have hlt : b / 2 < 2 ^ k := by omega
    have hmul : 2 ^ (k + 1) * a = 2 * (2 ^ k * a) := by ring
    rcases Nat.mod_two_eq_zero_or_one b with hmod | hmod
    · have he : b = 2 * (b / 2) := by omega
      rw [he, hmul, ← Nat.mul_add, ones_two_mul, ones_two_mul, ih hlt]
    · have he : b = 2 * (b / 2) + 1 := by omega
      rw [he, hmul, ← Nat.add_assoc, ← Nat.mul_add, ones_two_mul_add_one, ones_two_mul_add_one,
        ih hlt, Nat.add_assoc]

theorem ones_two_pow_mul (k a : ℕ) : ones (2 ^ k * a) = ones a := by
  simpa using ones_two_pow_mul_add k a (Nat.two_pow_pos k)

theorem ones_two_pow_sub_one (k : ℕ) : ones (2 ^ k - 1) = k := by
  induction k with
  | zero => simp
  | succ k ih =>
    have hpos := Nat.two_pow_pos k
    have he : 2 ^ (k + 1) - 1 = 2 * (2 ^ k - 1) + 1 := by
      rw [Nat.pow_succ]
      omega
    rw [he, ones_two_mul_add_one, ih]

theorem ofLeBytes_cons (b : UInt8) (bs : List UInt8) :
    ofLeBytes (b :: bs) = 2 ^ 8 * ofLeBytes bs + b.toNat := by
  rw [ofLeBytes]
  omega

theorem ones_ofLeBytes (bs : List UInt8) :
    ones (ofLeBytes bs) = (bs.map fun b => ones b.toNat).sum := by
  induction bs with
  | nil => simp [ofLeBytes]
  | cons b bs ih =>
    have hb : b.toNat < 2 ^ 8 := b.toNat_lt
    rw [ofLeBytes_cons, ones_two_pow_mul_add 8 _ hb, ih, List.map_cons, List.sum_cons, Nat.add_comm]

theorem land_pred_two_mul {m : ℕ} (hm : 0 < m) :
    2 * m &&& (2 * m - 1) = 2 * (m &&& (m - 1)) := by
  have h := Nat.land_bit false m true (m - 1)
  simp only [Nat.bit_val, Bool.toNat_false, Bool.toNat_true, Bool.false_and, Nat.add_zero] at h
  rwa [show 2 * m - 1 = 2 * (m - 1) + 1 by omega]

theorem land_pred_two_mul_add_one (m : ℕ) : (2 * m + 1) &&& (2 * m + 1 - 1) = 2 * m := by
  have h := Nat.land_bit true m false m
  simpa only [Nat.bit_val, Bool.toNat_false, Bool.toNat_true, Bool.and_false, Nat.add_zero,
    Nat.and_self, Nat.add_sub_cancel] using h

/-- `n & (n - 1)` is `n` without its lowest one. -/
theorem ones_land_pred {n : ℕ} (hn : 0 < n) : ones (n &&& (n - 1)) + 1 = ones n := by
  induction n using Nat.strong_induction_on with
  | _ n ih =>
    rcases Nat.mod_two_eq_zero_or_one n with hmod | hmod
    · obtain ⟨m, rfl⟩ : ∃ m, n = 2 * m := ⟨n / 2, by omega⟩
      rw [land_pred_two_mul (by omega), ones_two_mul, ones_two_mul]
      exact ih m (by omega) (by omega)
    · obtain ⟨m, rfl⟩ : ∃ m, n = 2 * m + 1 := ⟨n / 2, by omega⟩
      rw [land_pred_two_mul_add_one, ones_two_mul, ones_two_mul_add_one]

section Bytes

/-- The bits of a number in the bytes that stand for it. -/
theorem testBit_ofLeBytes (bs : List UInt8) (i : ℕ) :
    (ofLeBytes bs).testBit i = (bs[i / 8]?.getD 0).toNat.testBit (i % 8) := by
  induction bs generalizing i with
  | nil => simp [ofLeBytes]
  | cons b bs ih =>
    have hb : b.toNat < 2 ^ 8 := b.toNat_lt
    rw [ofLeBytes_cons, Nat.testBit_two_pow_mul_add _ hb]
    split_ifs with hi
    · rw [Nat.div_eq_of_lt hi, Nat.mod_eq_of_lt hi]
      rfl
    · rw [ih, show i / 8 = (i - 8) / 8 + 1 by omega, show (i - 8) % 8 = i % 8 by omega,
        List.getElem?_cons_succ]

theorem getElem?_leBytes (n v k : ℕ) :
    (leBytes n v)[k]? = if k < n then some (UInt8.ofNat (v / 256 ^ k)) else none := by
  induction n generalizing v k with
  | zero => simp [leBytes]
  | succ n ih =>
    cases k with
    | zero => simp [leBytes]
    | succ k =>
      rw [leBytes, List.getElem?_cons_succ, ih, Nat.div_div_eq_div_mul, ← Nat.pow_succ']
      simp

/-- The bytes of a number in reverse. -/
theorem testBit_ofLeBytes_reverse (n v i : ℕ) :
    (ofLeBytes (leBytes n v).reverse).testBit i =
      (decide (i < 8 * n) && v.testBit (8 * (n - 1 - i / 8) + i % 8)) := by
  rw [testBit_ofLeBytes]
  by_cases hi : i < 8 * n
  · have hlt : i / 8 < n := by omega
    have hmod : i % 8 < 8 := Nat.mod_lt _ (by decide)
    rw [List.getElem?_reverse (by rwa [length_leBytes]), length_leBytes, getElem?_leBytes,
      if_pos (by omega), Option.getD_some, UInt8.toNat_ofNat', Nat.testBit_mod_two_pow,
      show 256 = 2 ^ 8 by rfl, ← Nat.pow_mul, Nat.testBit_div_two_pow]
    simp [hi, hmod, Nat.add_comm]
  · rw [List.getElem?_eq_none (by rw [List.length_reverse, length_leBytes]; omega)]
    simp [hi]

end Bytes

end Bits
