import Mathlib.Algebra.Order.BigOperators.Group.Finset
import Mathlib.Tactic.Abel

/-! # Tallies over the parties of a system

A counter that the parties share is a sum over what each of them contributes; when one party
moves, the sum changes by the difference of its contributions.
-/

namespace Tally

open scoped BigOperators

variable {ι α M : Type*} [Fintype ι] [DecidableEq ι]

theorem sum_update_add [AddCommMonoid M] (g : α → M) (f : ι → α) (i : ι) (a : α) :
    ∑ x, g (Function.update f i a x) + g (f i) = ∑ x, g (f x) + g a := by
  have hnew := Finset.add_sum_erase Finset.univ (fun x => g (Function.update f i a x))
    (Finset.mem_univ i)
  have hold := Finset.add_sum_erase Finset.univ (fun x => g (f x)) (Finset.mem_univ i)
  have hsame : ∑ x ∈ Finset.univ.erase i, g (Function.update f i a x) =
      ∑ x ∈ Finset.univ.erase i, g (f x) := by
    refine Finset.sum_congr rfl fun x hx => ?_
    rw [Function.update_of_ne (Finset.ne_of_mem_erase hx)]
  rw [← hnew, ← hold, hsame, Function.update_self]
  abel

omit [Fintype ι] in
/-- A party that moves without a change of its contribution. -/
theorem apply_update_of_eq {β : Type*} (g : α → β) {f : ι → α} {i : ι} {a : α} (h : g a = g (f i))
    (x : ι) : g (Function.update f i a x) = g (f x) := by
  by_cases hx : x = i
  · rw [hx, Function.update_self, h]
  · rw [Function.update_of_ne hx]

omit [DecidableEq ι] in
theorem le_sum (g : α → ℕ) (f : ι → α) (i : ι) : g (f i) ≤ ∑ x, g (f x) :=
  Finset.single_le_sum (f := fun x => g (f x)) (fun _ _ => Nat.zero_le _) (Finset.mem_univ i)

end Tally
