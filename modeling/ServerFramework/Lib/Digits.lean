import Mathlib.Data.Nat.Bitwise
import Mathlib.Data.Nat.Size
import Mathlib.Tactic.Ring

/-! # Numbers as byte strings

Fixed-width little-endian bytes and base-128 groups with a continuation bit. The
groups are the shortest encoding of a number; the last one is the only one below 128.
-/

namespace Digits

/-- The lowest `n` bytes of `v`, lowest first. -/
def leBytes : ℕ → ℕ → List UInt8
  | 0, _ => []
  | n + 1, v => UInt8.ofNat v :: leBytes n (v / 256)

/-- The number with the given bytes, lowest first. -/
def ofLeBytes : List UInt8 → ℕ
  | [] => 0
  | b :: bs => b.toNat + 256 * ofLeBytes bs

/-- The base-128 groups of `v`, lowest first, all but the last with the top bit set. -/
def groups (v : ℕ) : List UInt8 :=
  if v < 128 then [UInt8.ofNat v] else UInt8.ofNat (v % 128 + 128) :: groups (v / 128)

@[simp] theorem length_leBytes (n v : ℕ) : (leBytes n v).length = n := by
  induction n generalizing v with
  | zero => rfl
  | succ n ih => simp [leBytes, ih]

theorem ofLeBytes_leBytes (n v : ℕ) : ofLeBytes (leBytes n v) = v % 256 ^ n := by
  induction n generalizing v with
  | zero => simp [leBytes, ofLeBytes, Nat.mod_one]
  | succ n ih =>
    have hp : 256 ^ (n + 1) = 256 * 256 ^ n := by ring
    rw [leBytes, ofLeBytes, ih, UInt8.toNat_ofNat', hp, Nat.mod_mul]

theorem leBytes_ofLeBytes (bs : List UInt8) : leBytes bs.length (ofLeBytes bs) = bs := by
  induction bs with
  | nil => rfl
  | cons b bs ih =>
    have hb := b.toNat_lt
    have hd : (b.toNat + 256 * ofLeBytes bs) / 256 = ofLeBytes bs := by omega
    have hm : UInt8.ofNat (b.toNat + 256 * ofLeBytes bs) = b := by
      apply UInt8.toNat_inj.mp
      rw [UInt8.toNat_ofNat']
      omega
    rw [List.length_cons, ofLeBytes, leBytes, hm, hd, ih]

theorem ofLeBytes_mod (bs : List UInt8) : ofLeBytes bs % 256 ^ bs.length = ofLeBytes bs := by
  rw [← ofLeBytes_leBytes, leBytes_ofLeBytes]

theorem groups_of_lt {v : ℕ} (h : v < 128) : groups v = [UInt8.ofNat v] := by
  rw [groups, if_pos h]

theorem groups_of_le {v : ℕ} (h : 128 ≤ v) :
    groups v = UInt8.ofNat (v % 128 + 128) :: groups (v / 128) := by
  rw [groups, if_neg (by omega)]

theorem groups_ne_nil (v : ℕ) : groups v ≠ [] := by
  rw [groups]
  split_ifs <;> exact List.cons_ne_nil _ _

/-- The number that base-128 groups stand for. -/
def ofGroups : List UInt8 → ℕ
  | [] => 0
  | b :: bs => b.toNat % 128 + 128 * ofGroups bs

/-- The last byte, and no other, is below 128. -/
inductive Terminated : List UInt8 → Prop
  | last {b : UInt8} : b.toNat < 128 → Terminated [b]
  | more {b : UInt8} {bs : List UInt8} : 128 ≤ b.toNat → Terminated bs → Terminated (b :: bs)

theorem Terminated.length_pos {bs : List UInt8} (h : Terminated bs) : 0 < bs.length := by
  cases h <;> exact Nat.succ_pos _

theorem groups_terminated (v : ℕ) : Terminated (groups v) := by
  fun_induction groups v with
  | case1 v h =>
    apply Terminated.last
    rw [UInt8.toNat_ofNat']
    omega
  | case2 v h ih =>
    refine .more ?_ ih
    rw [UInt8.toNat_ofNat']
    omega

theorem ofGroups_groups (v : ℕ) : ofGroups (groups v) = v := by
  fun_induction groups v with
  | case1 v h =>
    rw [ofGroups, ofGroups, UInt8.toNat_ofNat']
    omega
  | case2 v h ih =>
    rw [ofGroups, ih, UInt8.toNat_ofNat']
    omega

/-- No encoding of a number is shorter than its groups, and no other one is as short. -/
theorem groups_shortest {bs : List UInt8} (h : Terminated bs) :
    (groups (ofGroups bs)).length ≤ bs.length ∧
      ((groups (ofGroups bs)).length = bs.length → bs = groups (ofGroups bs)) := by
  induction h with
  | @last b hb =>
    have hv : ofGroups [b] = b.toNat := by
      simp only [ofGroups]
      omega
    rw [hv, groups_of_lt hb, UInt8.ofNat_toNat]
    exact ⟨le_rfl, fun _ => rfl⟩
  | @more b bs hb hbs ih =>
    have hpos := hbs.length_pos
    have hlt := b.toNat_lt
    have hv : ofGroups (b :: bs) = b.toNat % 128 + 128 * ofGroups bs := rfl
    rcases Nat.eq_zero_or_pos (ofGroups bs) with hz | hm
    · rw [groups_of_lt (by omega), List.length_singleton, List.length_cons]
      exact ⟨by omega, by omega⟩
    · have hhead : UInt8.ofNat (ofGroups (b :: bs) % 128 + 128) = b := by
        apply UInt8.toNat_inj.mp
        rw [UInt8.toNat_ofNat']
        omega
      rw [groups_of_le (by omega), hhead, show ofGroups (b :: bs) / 128 = ofGroups bs by omega]
      simp only [List.length_cons, Nat.add_le_add_iff_right, Nat.add_right_cancel_iff]
      exact ⟨ih.1, fun he => by rw [← ih.2 he]⟩

theorem size_div_128 {v : ℕ} (h : 128 ≤ v) : (v / 128).size + 7 = v.size := by
  have hle : ∀ n, (v / 128).size ≤ n ↔ v.size ≤ n + 7 := by
    intro n
    rw [Nat.size_le, Nat.size_le, Nat.div_lt_iff_lt_mul (by decide), Nat.pow_add]
  have h7 : ¬ v.size ≤ 7 := by
    rw [Nat.size_le]
    omega
  have h1 := (hle _).mp le_rfl
  have h2 := (hle (v.size - 7)).mpr (by omega)
  omega

/-- One group for every seven bits begun, and one for zero. -/
theorem length_groups (v : ℕ) : (groups v).length = max 1 ((v.size + 6) / 7) := by
  fun_induction groups v with
  | case1 v h =>
    have : v.size ≤ 7 := Nat.size_le.mpr h
    rw [List.length_singleton]
    omega
  | case2 v h ih =>
    have hsize := size_div_128 (Nat.le_of_not_lt h)
    have hpos : 0 < (v / 128).size := Nat.size_pos.mpr (by omega)
    rw [List.length_cons, ih]
    omega

/-- The one shortest encoding of a number. -/
structure Canonical (v : ℕ) (bs : List UInt8) : Prop where
  terminated : Terminated bs
  value : ofGroups bs = v
  length_eq : bs.length = max 1 ((v.size + 6) / 7)
  shortest : ∀ cs, Terminated cs → ofGroups cs = v →
    bs.length ≤ cs.length ∧ (bs.length = cs.length → cs = bs)

theorem groups_canonical (v : ℕ) : Canonical v (groups v) where
  terminated := groups_terminated v
  value := ofGroups_groups v
  length_eq := length_groups v
  shortest := by
    rintro cs hcs rfl
    exact groups_shortest hcs

end Digits
