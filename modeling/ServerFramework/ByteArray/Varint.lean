import ServerFramework.ByteArray.Calls
import ServerFramework.Lib.Machine

/-! # Variable-length integers on the wire

Both widths write the shortest encoding of a number in base-128 groups, and zigzag maps an integer
to the same number in both, so that each reader understands the other width's writer. The zigzag
functions negate and double in the signed type, which overflows at its ends.
-/

namespace ServerFramework

open Digits

section Zigzag

variable {w : ℕ}

/-- Zigzag depends on the integer only and not on the width. -/
theorem toNat_encodeZigzag_toInt (hw : 2 ≤ w) (v : BitVec w) :
    (encodeZigzag v).toNat =
      if v.toInt < 0 then (-2 * v.toInt - 1).toNat else (2 * v.toInt).toNat := by
  have hlt := v.isLt
  have hp : 2 ^ w = 2 * 2 ^ (w - 1) := (mul_pow_sub_one (by omega) 2).symm
  rw [toNat_encodeZigzag hw, BitVec.toInt_eq_toNat_cond]
  generalize 2 ^ (w - 1) = m at *
  split_ifs <;> omega

theorem encodeZigzag64_toInt64 (v : Int32) :
    (encodeZigzag64 v.toInt64).toNat = (encodeZigzag32 v).toNat := by
  have h32 := toNat_encodeZigzag_toInt (by decide) v.toBitVec
  have h64 := toNat_encodeZigzag_toInt (by decide) v.toInt64.toBitVec
  have hv : v.toInt64.toBitVec.toInt = v.toBitVec.toInt := Int32.toInt_toInt64 v
  rw [hv] at h64
  exact h64.trans h32.symm

/-- `EncodeZigzag32` and `EncodeZigzag64` with the exact results of the operations that they perform
in the signed type. -/
def encodeZigzagTraced (v : BitVec w) : BitVec w × List ℤ :=
  if v.toInt < 0 then (-v * 2#w - 1#w, [-v.toInt]) else (v * 2#w, [v.toInt * 2])

theorem encodeZigzagTraced_fst (v : BitVec w) : (encodeZigzagTraced v).1 = encodeZigzag v := by
  unfold encodeZigzagTraced encodeZigzag
  split_ifs <;> rfl

theorem traced_representable_iff (v : BitVec w) :
    (∀ z ∈ (encodeZigzagTraced v).2, Representable w z) ↔
      -2 ^ (w - 1) < v.toInt ∧ 2 * v.toInt < 2 ^ (w - 1) := by
  have hp : (0 : ℤ) < 2 ^ (w - 1) := by positivity
  unfold encodeZigzagTraced Representable
  split_ifs with hneg
  · simp only [List.mem_singleton, forall_eq]
    omega
  · simp only [List.mem_singleton, forall_eq]
    omega

/-- The zigzag functions overflow in no signed operation if and only if the value is not the
smallest one and its double is in range. -/
theorem zigzag_no_overflow_iff (v : Int32) (v' : Int64) :
    ((encodeZigzagTraced v.toBitVec).1 = (encodeZigzag32 v).toBitVec ∧
      ((∀ z ∈ (encodeZigzagTraced v.toBitVec).2, Representable 32 z) ↔
        -2 ^ 31 < v.toInt ∧ v.toInt < 2 ^ 30)) ∧
    (encodeZigzagTraced v'.toBitVec).1 = (encodeZigzag64 v').toBitVec ∧
      ((∀ z ∈ (encodeZigzagTraced v'.toBitVec).2, Representable 64 z) ↔
        -2 ^ 63 < v'.toInt ∧ v'.toInt < 2 ^ 62) := by
  have h := traced_representable_iff v.toBitVec
  have h' := traced_representable_iff v'.toBitVec
  change _ ↔ -2 ^ 31 < v.toInt ∧ 2 * v.toInt < 2 ^ 31 at h
  change _ ↔ -2 ^ 63 < v'.toInt ∧ 2 * v'.toInt < 2 ^ 63 at h'
  rw [h, h']
  exact ⟨⟨encodeZigzagTraced_fst _, by omega⟩, encodeZigzagTraced_fst _, by omega⟩

/-- The smallest values and the first ones whose double is out of range. -/
theorem zigzag_overflows :
    ¬ (∀ z ∈ (encodeZigzagTraced Int32.minValue.toBitVec).2, Representable 32 z) ∧
    ¬ (∀ z ∈ (encodeZigzagTraced (0x40000000 : Int32).toBitVec).2, Representable 32 z) ∧
    ¬ (∀ z ∈ (encodeZigzagTraced Int64.minValue.toBitVec).2, Representable 64 z) ∧
    ¬ (∀ z ∈ (encodeZigzagTraced (0x4000000000000000 : Int64).toBitVec).2, Representable 64 z) := by
  decide

end Zigzag

namespace ByteArray

section Bounds

/-- `read` throws before it moves anything, and otherwise moves the position by the size. -/
theorem read_cases (n : ℕ) (b : ByteArray) :
    (∃ e, read n b = .error e b) ∨
      ∃ bytes b', read n b = .ok bytes b' ∧ b'.position = b.position + n := by
  unfold read
  split_ifs with hlt hz
  · exact Or.inl ⟨_, rfl⟩
  · cases b.cur with
    | none => exact Or.inl ⟨_, rfl⟩
    | some c => exact Or.inr ⟨_, _, rfl, by rw [hz, Nat.add_zero]⟩
  · cases b.cur with
    | none => exact Or.inl ⟨_, rfl⟩
    | some c =>
      cases hl : readLoop (b.position % b.baseSize) n (b.nodes.drop c) with
      | error e => exact Or.inl ⟨e, by simp only [hl]⟩
      | ok r =>
        simp only [hl]
        exact Or.inr ⟨_, _, rfl, rfl⟩

theorem readFuint8_cases (b : ByteArray) :
    (∃ e, readFuint8 b = .error e b) ∨
      ∃ v b', readFuint8 b = .ok v b' ∧ b'.position = b.position + 1 := by
  rcases read_cases 1 b with ⟨e, h⟩ | ⟨bytes, b', h, hp⟩
  · exact Or.inl ⟨e, by simp only [readFuint8, bind, EStateM.bind, h]⟩
  · refine Or.inr ⟨UInt8.ofNat (ofLeBytes bytes), b', ?_, hp⟩
    simp only [readFuint8, bind, EStateM.bind, h]
    rfl

/-- From shift `i` on, the loop consumes at most one byte for every seven bits left. -/
theorem readVarint_bound {w : ℕ} (i : ℕ) (result : BitVec w) (b : ByteArray) :
    (Keeps.finalState (readVarint i result b)).position ≤ b.position + (w - i + 6) / 7 := by
  fun_induction readVarint i result generalizing b with
  | case1 i result hi ih =>
    rcases readFuint8_cases b with ⟨e, h⟩ | ⟨v, b₁, h, hp⟩
    · simp only [bind, EStateM.bind, h, Keeps.finalState]
      omega
    · simp only [bind, EStateM.bind, h]
      split_ifs
      · change b₁.position ≤ _
        omega
      · have := ih v b₁
        omega
  | case2 i result hi => exact Nat.le_add_right _ _

end Bounds

section Widths

variable (e : Endian)

/-- The bytes of either width are the groups of the number. -/
theorem groups_of_widths {n : ℕ} {v : UInt32} {w : UInt64} (hv : v.toNat = n) (hw : w.toNat = n)
    {bs : List UInt8} (h : bs = varintBytes v.toBitVec ∨ bs = varintBytes w.toBitVec) :
    bs = groups n := by
  rcases h with rfl | rfl
  · rw [varintBytes_eq_groups (by decide)]
    exact congrArg groups hv
  · rw [varintBytes_eq_groups (by decide)]
    exact congrArg groups hw

theorem readUint_widths (v : UInt32) :
    Consumes e readUint32 (groups v.toNat) v ∧
      Consumes e readUint64 (groups v.toNat) v.toUInt64 := by
  have h := readUint64_consumes e v.toUInt64
  rw [UInt32.toNat_toUInt64] at h
  exact ⟨readUint32_consumes e v, h⟩

theorem readInt_widths (v : Int32) :
    Consumes e readInt32 (groups (encodeZigzag32 v).toNat) v ∧
      Consumes e readInt64 (groups (encodeZigzag32 v).toNat) v.toInt64 := by
  have h := readInt64_consumes e v.toInt64
  rw [encodeZigzag64_toInt64] at h
  exact ⟨readInt32_consumes e v, h⟩

/-- What the loop writes is the shortest encoding, with a byte for every seven bits. -/
theorem varintBytes_canonical {w : ℕ} (hw : 8 ≤ w) (v : BitVec w) :
    Canonical v.toNat (varintBytes v) ∧ (varintBytes v).length ≤ (w + 6) / 7 := by
  have hsize : v.toNat.size ≤ w := Nat.size_le.mpr v.isLt
  have hc := groups_canonical v.toNat
  rw [varintBytes_eq_groups hw]
  refine ⟨hc, ?_⟩
  rw [hc.length_eq]
  omega

end Widths

/-- Both widths write the shortest base-128 encoding, of at most 5 and 10 bytes. On the numbers
below `2 ^ 32` and on the integers of 32 bits they write the same bytes, which either reader takes
for the value and consumes, whatever follows; `ReadInt64` also undoes `WriteInt64`. On any input
the readers consume at most 5 and 10 bytes. -/
theorem varint_codecs (heap : Heap) (e : Endian) :
    (∀ v : UInt32, Puts e (writeUint32 heap v) (varintBytes v.toBitVec) ∧
      Canonical v.toNat (varintBytes v.toBitVec) ∧ (varintBytes v.toBitVec).length ≤ 5) ∧
    (∀ v : UInt64, Puts e (writeUint64 heap v) (varintBytes v.toBitVec) ∧
      Canonical v.toNat (varintBytes v.toBitVec) ∧ (varintBytes v.toBitVec).length ≤ 10) ∧
    (∀ v : UInt32, ∀ bs, bs = varintBytes v.toBitVec ∨ bs = varintBytes v.toUInt64.toBitVec →
      Consumes e readUint32 bs v ∧ Consumes e readUint64 bs v.toUInt64) ∧
    (∀ v : Int32, Puts e (writeInt32 heap v) (varintBytes (encodeZigzag32 v).toBitVec) ∧
      ∀ bs, bs = varintBytes (encodeZigzag32 v).toBitVec ∨
          bs = varintBytes (encodeZigzag64 v.toInt64).toBitVec →
        Consumes e readInt32 bs v ∧ Consumes e readInt64 bs v.toInt64) ∧
    (∀ v : Int64, Puts e (writeInt64 heap v) (varintBytes (encodeZigzag64 v).toBitVec) ∧
      Consumes e readInt64 (varintBytes (encodeZigzag64 v).toBitVec) v) ∧
    ∀ b : ByteArray, (Keeps.finalState (readUint32 b)).position ≤ b.position + 5 ∧
      (Keeps.finalState (readUint64 b)).position ≤ b.position + 10 := by
  refine ⟨fun v => ?_, fun v => ?_, fun v bs hbs => ?_, fun v => ?_, fun v => ?_, fun b => ?_⟩
  · exact ⟨write_puts heap e _, varintBytes_canonical (by decide) _⟩
  · exact ⟨write_puts heap e _, varintBytes_canonical (by decide) _⟩
  · rw [groups_of_widths rfl (UInt32.toNat_toUInt64 v) hbs]
    exact readUint_widths e v
  · refine ⟨write_puts heap e _, fun bs hbs => ?_⟩
    rw [groups_of_widths rfl (encodeZigzag64_toInt64 v) hbs]
    exact readInt_widths e v
  · refine ⟨write_puts heap e _, ?_⟩
    rw [varintBytes_eq_groups (by decide)]
    exact readInt64_consumes e v
  · unfold readUint32 readUint64
    rw [Keeps.finalState_map, Keeps.finalState_map]
    exact ⟨readVarint_bound 0 (0#32) b, readVarint_bound 0 (0#64) b⟩

end ByteArray

end ServerFramework
