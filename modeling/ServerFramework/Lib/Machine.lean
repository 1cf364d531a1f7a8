import Mathlib.Algebra.Ring.Int.Defs
import Mathlib.Data.Nat.Notation
import Mathlib.Logic.Basic

/-! # Machine integers

Signed arithmetic has a result as long as the exact one is representable; overflow is undefined.
Conversions are modulo a power of two.
-/

namespace ServerFramework

/-- An integer of the signed type of `w` bits. -/
def Representable (w : ℕ) (z : ℤ) : Prop := -2 ^ (w - 1) ≤ z ∧ z < 2 ^ (w - 1)

instance (w : ℕ) (z : ℤ) : Decidable (Representable w z) := inferInstanceAs (Decidable (_ ∧ _))

/-- The result of a signed operation on `w` bits, given its exact value. -/
def signedResult (w : ℕ) (z : ℤ) : Option ℤ := if Representable w z then some z else none

theorem representable_64_iff {z : ℤ} : Representable 64 z ↔ -2 ^ 63 ≤ z ∧ z < 2 ^ 63 := Iff.rfl

theorem signedResult_eq_some_iff {w : ℕ} {z z' : ℤ} :
    signedResult w z = some z' ↔ Representable w z ∧ z = z' := Option.ite_some_none_eq_some

theorem signedResult_of_representable {w : ℕ} {z : ℤ} (h : Representable w z) :
    signedResult w z = some z := if_pos h

theorem signedResult_of_not {w : ℕ} {z : ℤ} (h : ¬ Representable w z) :
    signedResult w z = none := if_neg h

theorem toNat_ofInt (z : ℤ) : (UInt64.ofInt z).toNat = (z % 2 ^ 64).toNat := by
  rw [UInt64.ofInt, UInt64.toNat_ofNat']
  omega

end ServerFramework
