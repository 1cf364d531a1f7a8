import Mathlib.Data.List.Basic
import Mathlib.Order.Lattice

/-! # Sets ordered by a comparator

An ordered set is the list of its elements in ascending order. Elements neither of which
is before the other are the same for the set. The comparator may consult mutable keys, so
what the operations preserve is stated for the keys at the time they are called.
-/

namespace OrderedSet

variable {α κ : Type*}

/-- Insert an element unless an equivalent one is present. -/
def insert (lt : α → α → Bool) (x : α) : List α → List α
  | [] => [x]
  | y :: l => if lt y x then y :: insert lt x l else if lt x y then x :: y :: l else y :: l

/-- The element equivalent to the given one. -/
def find (lt : α → α → Bool) (x : α) : List α → Option α
  | [] => none
  | y :: l => if lt y x then find lt x l else if lt x y then none else some y

/-- The elements are in strictly ascending order of their keys. -/
def Ascending [LT κ] (key : α → κ) (l : List α) : Prop := l.Pairwise fun a b => key a < key b

section Insert

variable {lt : α → α → Bool} {x y : α} {l : List α}

theorem mem_of_mem_insert (h : y ∈ insert lt x l) : y = x ∨ y ∈ l := by
  induction l with
  | nil => exact Or.inl (List.mem_singleton.mp h)
  | cons z l ih =>
    rw [insert] at h
    split_ifs at h with hzx hxz
    · rcases List.mem_cons.mp h with rfl | h
      · exact Or.inr List.mem_cons_self
      · exact (ih h).imp_right (List.mem_cons_of_mem _)
    · exact List.mem_cons.mp h
    · exact Or.inr h

theorem mem_insert_of_mem (h : y ∈ l) : y ∈ insert lt x l := by
  induction l with
  | nil => exact absurd h List.not_mem_nil
  | cons z l ih =>
    rw [insert]
    split_ifs
    · rcases List.mem_cons.mp h with rfl | h
      · exact List.mem_cons_self
      · exact List.mem_cons_of_mem _ (ih h)
    · exact List.mem_cons_of_mem _ h
    · exact h

/-- An element that does not become the first one has one before it. -/
theorem head_insert_or (lt : α → α → Bool) (x : α) (l : List α) :
    (insert lt x l).head? = some x ∨ (∃ y ∈ l, lt y x = true) ∨ insert lt x l = l := by
  cases l with
  | nil => exact Or.inl rfl
  | cons y l =>
    rw [insert]
    split_ifs with hyx hxy
    · exact Or.inr (Or.inl ⟨y, List.mem_cons_self, hyx⟩)
    · exact Or.inl rfl
    · exact Or.inr (Or.inr rfl)

end Insert

variable [LinearOrder κ] {lt : α → α → Bool} {key : α → κ}

theorem Ascending.congr {key' : α → κ} {l : List α} (h : Ascending key l)
    (hk : ∀ a ∈ l, key' a = key a) : Ascending key' l := by
  refine List.Pairwise.imp_of_mem ?_ h
  intro a b ha hb hab
  rwa [hk a ha, hk b hb]

section Comparator

variable (hlt : ∀ a b, lt a b = true ↔ key a < key b)

include hlt

theorem insert_perm {x : α} {l : List α} (hx : ∀ y ∈ l, key y ≠ key x) :
    (insert lt x l).Perm (x :: l) := by
  induction l with
  | nil => exact List.Perm.refl _
  | cons y l ih =>
    rw [insert]
    split_ifs with hyx hxy
    · exact ((ih fun z hz => hx z (List.mem_cons_of_mem _ hz)).cons y).trans
        (List.Perm.swap x y l)
    · exact List.Perm.refl _
    · rw [hlt] at hyx hxy
      exact absurd (le_antisymm (not_lt.mp hxy) (not_lt.mp hyx)) (hx y List.mem_cons_self)

theorem insert_ascending {x : α} {l : List α} (h : Ascending key l) :
    Ascending key (insert lt x l) := by
  induction l with
  | nil => exact List.pairwise_singleton _ _
  | cons y l ih =>
    obtain ⟨hy, hl⟩ := List.pairwise_cons.mp h
    rw [insert]
    split_ifs with hyx hxy
    · refine List.pairwise_cons.mpr ⟨?_, ih hl⟩
      intro z hz
      rcases mem_of_mem_insert hz with rfl | hz
      · exact (hlt _ _).mp hyx
      · exact hy z hz
    · refine List.pairwise_cons.mpr ⟨?_, h⟩
      intro z hz
      rcases List.mem_cons.mp hz with rfl | hz
      · exact (hlt _ _).mp hxy
      · exact lt_trans ((hlt _ _).mp hxy) (hy z hz)
    · exact h

/-- An element behind all others is inserted at the end. -/
theorem insert_eq_append {x : α} {l : List α} (h : ∀ y ∈ l, key y < key x) :
    insert lt x l = l ++ [x] := by
  induction l with
  | nil => rfl
  | cons y l ih =>
    obtain ⟨hy, hl⟩ := List.forall_mem_cons.mp h
    rw [insert, if_pos ((hlt y x).mpr hy), ih hl, List.cons_append]

/-- Elements inserted in ascending order stay in that order. -/
theorem foldl_insert {l xs : List α} (h : Ascending key (l ++ xs)) :
    xs.foldl (fun l x => insert lt x l) l = l ++ xs := by
  induction xs generalizing l with
  | nil => rw [List.foldl_nil, List.append_nil]
  | cons x xs ih =>
    have hx : ∀ y ∈ l, key y < key x :=
      fun y hy => (List.pairwise_append.mp h).2.2 y hy x List.mem_cons_self
    rw [List.append_cons] at h
    rw [List.foldl_cons, insert_eq_append hlt hx, ih h, List.append_cons l x xs]

/-- A member is found. -/
theorem find_of_mem {x : α} {l : List α} (h : Ascending key l) (hx : x ∈ l) :
    find lt x l = some x := by
  induction l with
  | nil => exact absurd hx List.not_mem_nil
  | cons y l ih =>
    obtain ⟨hy, hl⟩ := List.pairwise_cons.mp h
    rw [find]
    rcases List.mem_cons.mp hx with rfl | hx
    · have hself : ¬ lt x x = true := fun he => lt_irrefl _ ((hlt _ _).mp he)
      rw [if_neg hself, if_neg hself]
    · rw [if_pos ((hlt _ _).mpr (hy x hx)), ih hl hx]

/-- What is found is equivalent to what was looked for. -/
theorem find_some {x y : α} {l : List α} (h : find lt x l = some y) : y ∈ l ∧ key y = key x := by
  induction l with
  | nil => cases h
  | cons z l ih =>
    rw [find] at h
    split_ifs at h with hzx hxz
    · obtain ⟨hy, hk⟩ := ih h
      exact ⟨List.mem_cons_of_mem _ hy, hk⟩
    · obtain rfl := Option.some.inj h
      rw [hlt] at hzx hxz
      exact ⟨List.mem_cons_self, le_antisymm (not_lt.mp hxz) (not_lt.mp hzx)⟩

/-- Nothing is found only if nothing equivalent is there. -/
theorem ne_of_find_none {x : α} {l : List α} (h : Ascending key l) (hnone : find lt x l = none) :
    ∀ y ∈ l, key y ≠ key x := by
  induction l with
  | nil => exact fun y hy => absurd hy List.not_mem_nil
  | cons z l ih =>
    obtain ⟨hz, hl⟩ := List.pairwise_cons.mp h
    rw [find] at hnone
    split_ifs at hnone with hzx hxz
    · exact List.forall_mem_cons.mpr ⟨((hlt _ _).mp hzx).ne, ih hl hnone⟩
    · have hlt' := (hlt _ _).mp hxz
      exact List.forall_mem_cons.mpr ⟨hlt'.ne', fun y hy => (hlt'.trans (hz y hy)).ne'⟩

end Comparator

/-- A property that holds in a front part of a list fails behind that part. -/
theorem not_of_mem_dropWhile {p : α → Bool} {l : List α}
    (h : l.Pairwise fun a b => p b = true → p a = true) : ∀ x ∈ l.dropWhile p, ¬ p x = true := by
  induction l with
  | nil => exact fun x hx => absurd hx List.not_mem_nil
  | cons y l ih =>
    obtain ⟨hy, hl⟩ := List.pairwise_cons.mp h
    rw [List.dropWhile_cons]
    split_ifs with hp
    · exact ih hl
    · exact List.forall_mem_cons.mpr ⟨hp, fun x hx hpx => hp (hy x hx hpx)⟩

/-- There is one element for each key. -/
theorem Ascending.eq_of_key {l : List α} (h : Ascending key l) {x y : α} (hx : x ∈ l) (hy : y ∈ l)
    (hk : key x = key y) : x = y := by
  induction l with
  | nil => exact absurd hx List.not_mem_nil
  | cons z l ih =>
    obtain ⟨hz, hl⟩ := List.pairwise_cons.mp h
    rcases List.mem_cons.mp hx with rfl | hxl <;> rcases List.mem_cons.mp hy with rfl | hyl
    · rfl
    · exact absurd hk (hz y hyl).ne
    · exact absurd hk (hz x hxl).ne'
    · exact ih hl hxl hyl

end OrderedSet
