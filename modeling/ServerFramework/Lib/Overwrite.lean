import Mathlib.Data.List.Basic
import Mathlib.Data.Nat.Notation

/-! # Overwriting a segment of a list

`overwrite l p bs` replaces the segment of `l` that starts at `p` by `bs`. On a
concatenation the operation acts on the part that holds the segment, and a segment
across the boundary splits into one segment on either side.
-/

namespace Overwrite

variable {α : Type*}

/-- Replace the elements from position `p` on by `bs`, keeping the rest. -/
def overwrite (l : List α) (p : ℕ) (bs : List α) : List α :=
  l.take p ++ bs ++ l.drop (p + bs.length)

theorem length_overwrite {l bs : List α} {p : ℕ} (h : p + bs.length ≤ l.length) :
    (overwrite l p bs).length = l.length := by
  simp only [overwrite, List.length_append, List.length_take, List.length_drop]
  omega

@[simp] theorem overwrite_nil (l : List α) (p : ℕ) : overwrite l p [] = l := by
  simp [overwrite]

theorem overwrite_append_left {l r bs : List α} {p : ℕ} (h : p + bs.length ≤ l.length) :
    overwrite (l ++ r) p bs = overwrite l p bs ++ r := by
  rw [overwrite, overwrite, List.take_append_of_le_length (by omega),
    List.drop_append_of_le_length h]
  simp only [List.append_assoc]

theorem overwrite_append_right {l r bs : List α} {p : ℕ} :
    overwrite (l ++ r) (l.length + p) bs = l ++ overwrite r p bs := by
  rw [overwrite, overwrite, Nat.add_assoc, List.take_length_add_append,
    List.drop_length_add_append]
  simp only [List.append_assoc]

/-- A segment that fills the first list and goes on in the second splits at the boundary. -/
theorem overwrite_append_split {l r as bs : List α} {p : ℕ} (h : p + as.length = l.length) :
    overwrite (l ++ r) p (as ++ bs) = overwrite l p as ++ overwrite r 0 bs := by
  have hl : l.drop (p + as.length) = [] := List.drop_eq_nil_of_le (by omega)
  have hr : (l ++ r).drop (p + (as ++ bs).length) = r.drop bs.length := by
    rw [List.length_append, ← Nat.add_assoc, h, List.drop_length_add_append]
  rw [overwrite, hr, overwrite, hl, overwrite, List.take_append_of_le_length (by omega)]
  simp only [List.append_assoc, List.take_zero, List.append_nil, List.nil_append, Nat.zero_add]

theorem length_overwrite_of_le {l : List α} {p : ℕ} (bs : List α) (hp : p ≤ l.length) :
    (overwrite l p bs).length = max l.length (p + bs.length) := by
  simp only [overwrite, List.length_append, List.length_take, List.length_drop]
  omega

/-- A segment that starts in the first list may reach into the second. -/
theorem overwrite_append {l : List α} {p : ℕ} (r bs : List α) (hp : p ≤ l.length) :
    overwrite (l ++ r) p bs = overwrite l p bs ++ r.drop (p + bs.length - l.length) := by
  rw [overwrite, overwrite, List.take_append_of_le_length hp, List.drop_append]
  simp only [List.append_assoc]

/-- What is overwritten past the first `n` elements does not matter for them. -/
theorem take_overwrite {l : List α} {p n : ℕ} (bs : List α) (hp : p ≤ n) (hn : n ≤ l.length) :
    (overwrite l p bs).take (max n (p + bs.length)) = overwrite (l.take n) p bs := by
  have hlen : (l.take n).length = n := List.length_take_of_le hn
  have hfull := length_overwrite_of_le bs (hlen.symm ▸ hp : p ≤ (l.take n).length)
  rw [hlen] at hfull
  conv_lhs => rw [← List.take_append_drop n l]
  rw [overwrite_append _ _ (by omega), ← hfull, List.take_left]

/-- Two segments one behind the other are one segment. -/
theorem overwrite_overwrite {l : List α} {p : ℕ} (as bs : List α) (hp : p ≤ l.length) :
    overwrite (overwrite l p as) (p + as.length) bs = overwrite l p (as ++ bs) := by
  have hlen : (l.take p ++ as).length = p + as.length := by
    rw [List.length_append, List.length_take_of_le hp]
  have htake : (overwrite l p as).take (p + as.length) = l.take p ++ as := List.take_left' hlen
  have hdrop : (overwrite l p as).drop (p + as.length) = l.drop (p + as.length) :=
    List.drop_left' hlen
  rw [overwrite, htake, ← List.drop_drop, hdrop, List.drop_drop, overwrite, List.length_append,
    Nat.add_assoc]
  simp only [List.append_assoc]

theorem getElem?_overwrite_inside {l bs : List α} {p i : ℕ} (hp : p ≤ l.length)
    (h : i < bs.length) : (overwrite l p bs)[p + i]? = bs[i]? := by
  have hl : (l.take p).length = p := by simp [hp]
  rw [overwrite, List.append_assoc, List.getElem?_append_right (by omega), hl,
    Nat.add_sub_cancel_left, List.getElem?_append_left h]

theorem getElem?_overwrite_outside {l bs : List α} {p i : ℕ} (hp : p + bs.length ≤ l.length)
    (h : i < p ∨ p + bs.length ≤ i) : (overwrite l p bs)[i]? = l[i]? := by
  rcases h with h | h
  · rw [overwrite, List.append_assoc, List.getElem?_append_left (by simp; omega),
      List.getElem?_take_of_lt h]
  · have hl : (l.take p ++ bs).length = p + bs.length := by simp; omega
    rw [overwrite, List.getElem?_append_right (by omega), hl, List.getElem?_drop,
      Nat.add_sub_cancel' h]

end Overwrite
