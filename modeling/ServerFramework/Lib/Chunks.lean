import Mathlib.Algebra.Ring.Nat
import Mathlib.Data.Int.Notation
import Mathlib.Data.Nat.Init

/-! # Transfers in chunks

A call that is asked to move a number of things at some place returns how many of them it has moved;
it refuses if that is not positive. Calls are made one after the other, each one asked for all that
is left behind the chunks before it. Whatever the calls return, in the end everything is moved or a
call refuses, and the chunks make up a single move.
-/

/-- The chunks that are moved by calls from a place on, where a number of things is to be moved. -/
inductive Chunks {σ : Type*} (call : ℕ → ℕ → σ → ℤ × σ) : ℕ → ℕ → List ℕ → σ → σ → Prop where
  | nil {p k : ℕ} {s : σ} : Chunks call p k [] s s
  | cons {p k c : ℕ} {cs : List ℕ} {s t u : σ} : 0 < c → call p k s = ((c : ℤ), t) →
      Chunks call (p + c) (k - c) cs t u → Chunks call p k (c :: cs) s u

namespace Chunks

variable {σ β : Type*} {call : ℕ → ℕ → σ → ℤ × σ} {p k : ℕ} {cs : List ℕ} {s t : σ}

section Bounded

variable (hle : ∀ p k s, (call p k s).1 ≤ k)

include hle

theorem sum_le (h : Chunks call p k cs s t) : cs.sum ≤ k := by
  induction h with
  | nil => exact Nat.zero_le _
  | @cons p k c cs s t u _ hcall _ ih =>
    have hc := hle p k s
    rw [hcall, Int.ofNat_le] at hc
    rw [List.sum_cons]
    omega

/-- In the end everything is moved, or a call refuses. -/
theorem exists_end (p k : ℕ) (s : σ) : ∃ cs t, Chunks call p k cs s t ∧
    (cs.sum = k ∨ cs.sum < k ∧ (call (p + cs.sum) (k - cs.sum) t).1 ≤ 0) := by
  induction k using Nat.strong_induction_on generalizing p s with
  | _ k ih =>
  by_cases hrefuse : (call p k s).1 ≤ 0
  · refine ⟨[], s, .nil, ?_⟩
    rcases Nat.eq_zero_or_pos k with hk | hk
    · exact .inl hk.symm
    · exact .inr ⟨hk, hrefuse⟩
  · obtain ⟨c, hc⟩ := Int.eq_ofNat_of_zero_le (by omega : 0 ≤ (call p k s).1)
    have hck : c ≤ k := by
      have hk := hle p k s
      rwa [hc, Int.ofNat_le] at hk
    have hpos : 0 < c := by omega
    obtain ⟨cs, t, hcs, hend⟩ := ih (k - c) (by omega) (p + c) (call p k s).2
    refine ⟨c :: cs, t, .cons hpos (Prod.ext hc rfl) hcs, ?_⟩
    rw [List.sum_cons, ← Nat.add_assoc, ← Nat.sub_sub]
    rcases hend with hall | ⟨hlt, hlast⟩
    · exact .inl (by omega)
    · exact .inr ⟨by omega, hlast⟩

end Bounded

/-- Moving one list and then another one behind it is moving both. -/
structure Composes (moved : ℕ → List β → σ → σ → Prop) : Prop where
  nil : ∀ p s, moved p [] s s
  append : ∀ {p as bs s t u}, moved p as s t → moved (p + as.length) bs t u →
    moved p (as ++ bs) s u

/-- The chunks make up a single move. -/
theorem moved {moved : ℕ → List β → σ → σ → Prop} (hm : Composes moved)
    (hcall : ∀ p k s, 0 < (call p k s).1 →
      ∃ bs : List β, (bs.length : ℤ) = (call p k s).1 ∧ moved p bs s (call p k s).2)
    (h : Chunks call p k cs s t) : ∃ bs : List β, bs.length = cs.sum ∧ moved p bs s t := by
  induction h with
  | nil => exact ⟨[], rfl, hm.nil _ _⟩
  | @cons p k c cs s t u hpos hc _ ih =>
    obtain ⟨as, hlen, has⟩ := hcall p k s (by rw [hc]; omega)
    rw [hc] at hlen has
    obtain rfl := Int.ofNat_inj.mp hlen
    obtain ⟨bs, hbs, hrest⟩ := ih
    refine ⟨as ++ bs, ?_, hm.append has hrest⟩
    rw [List.length_append, List.sum_cons, hbs]

end Chunks
