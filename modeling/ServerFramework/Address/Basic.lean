import ServerFramework.ByteArray.Codec
import ServerFramework.Lib.Bits

/-! # Socket addresses

`sockaddr_in` and `sockaddr_in6` with their numbers as the host reads them, in network order; and
the masks of the subnet functions. A function whose behaviour is undefined has no result. Signed
overflow is undefined too, unless the code is compiled to let it wrap around.
-/

namespace ServerFramework

open Digits Bits

/-- Why a function has no result. -/
inductive Undefined where
  /-- A shift by the width of the operand or more. -/
  | shiftCount
  /-- Signed overflow. -/
  | overflow
  /-- An access outside an array. -/
  | outOfBounds
  deriving DecidableEq, Repr

/-- `sockaddr_in`. -/
structure SockaddrIn where
  sinFamily : BitVec 16
  sinPort : BitVec 16
  sAddr : BitVec 32
  deriving DecidableEq, Repr

/-- `sockaddr_in6`. -/
structure SockaddrIn6 where
  sin6Family : BitVec 16
  sin6Port : BitVec 16
  sin6Flowinfo : BitVec 32
  s6Addr : Vector (BitVec 8) 16
  sin6ScopeId : BitVec 32
  deriving DecidableEq, Repr

def afInet : BitVec 16 := 2
def afInet6 : BitVec 16 := 10

/-- `ByteswapOnLittleEndian` on integers of `n` bytes. -/
def byteswapOnLittleEndian (host : Endian) (n v : ℕ) : ℕ :=
  match host with
  | .little => byteswap n v
  | .big => v

def byteswapOnLittleEndian16 (host : Endian) (v : BitVec 16) : BitVec 16 :=
  .ofNat 16 (byteswapOnLittleEndian host 2 v.toNat)

def byteswapOnLittleEndian32 (host : Endian) (v : BitVec 32) : BitVec 32 :=
  .ofNat 32 (byteswapOnLittleEndian host 4 v.toNat)

/-- `CreateMask<T>` for a `T` of `w` bits. The shift and the subtraction are done in `int`. -/
def createMask (wraps : Bool) (w : ℕ) (bits : UInt32) : Except Undefined (BitVec w) :=
  let count := UInt64.ofNat w - bits.toUInt64
  if count.toNat ≥ 32 then .error .shiftCount
  else
    let shifted := 1#32 <<< count.toNat
    if shifted.ssubOverflow 1#32 && !wraps then .error .overflow
    else .ok ((shifted - 1#32).setWidth w)

/-- `CountBytes`. -/
def countBytes (value : ℕ) : ℕ :=
  if value = 0 then 0 else countBytes (value &&& (value - 1)) + 1
termination_by value
decreasing_by
  have : value &&& (value - 1) ≤ value - 1 := Nat.and_le_right
  omega

theorem countBytes_eq_ones (value : ℕ) : countBytes value = ones value := by
  fun_induction countBytes value with
  | case1 => simp
  | case2 value hne ih => rw [ih, ones_land_pred (Nat.pos_of_ne_zero hne)]

section Mask

/-- The mask of the lowest `n` bits. -/
def lowMask (w n : ℕ) : BitVec w := .ofNat w (2 ^ n - 1)

theorem getLsbD_lowMask (w n i : ℕ) :
    (lowMask w n).getLsbD i = (decide (i < w) && decide (i < n)) := by
  rw [lowMask, BitVec.getLsbD_ofNat, Nat.testBit_two_pow_sub_one]

/-- The mask of a prefix has as many ones as the prefix has bits. -/
theorem ones_not_lowMask {w p : ℕ} (hp : p ≤ w) : ones (~~~lowMask w (w - p)).toNat = p := by
  have hpow : 2 ^ w = 2 ^ (w - p) * 2 ^ p := by rw [← Nat.pow_add, Nat.sub_add_cancel hp]
  have hpos := Nat.two_pow_pos (w - p)
  have hle : 2 ^ (w - p) ≤ 2 ^ w := Nat.pow_le_pow_right (by decide) (Nat.sub_le _ _)
  have hlt : (2 ^ (w - p) - 1) % 2 ^ w = 2 ^ (w - p) - 1 := Nat.mod_eq_of_lt (by omega)
  have hval : (~~~lowMask w (w - p)).toNat = 2 ^ (w - p) * (2 ^ p - 1) := by
    rw [BitVec.toNat_not, lowMask, BitVec.toNat_ofNat, hlt, Nat.mul_sub, ← hpow]
    omega
  rw [hval, ones_two_pow_mul, ones_two_pow_sub_one]

theorem ssubOverflow_one_shiftLeft :
    ∀ n < 32, (1#32 <<< n).ssubOverflow 1#32 = decide (n = 31) := by decide

theorem one_shiftLeft_sub_one {n : ℕ} (hn : n < 32) (w : ℕ) :
    ((1#32 <<< n) - 1#32).setWidth w = lowMask w n := by
  have hpos := Nat.two_pow_pos n
  have hlt : 2 ^ n < 2 ^ 32 := Nat.pow_lt_pow_right (by decide) hn
  have hshift : (1#32 <<< n).toNat = 2 ^ n := by
    rw [BitVec.toNat_shiftLeft, BitVec.toNat_ofNat, Nat.shiftLeft_eq]
    omega
  have hsub : (1#32 <<< n - 1#32).toNat = 2 ^ n - 1 := by
    rw [BitVec.toNat_sub, hshift, BitVec.toNat_ofNat]
    omega
  apply BitVec.eq_of_toNat_eq
  rw [BitVec.toNat_setWidth, hsub, lowMask, BitVec.toNat_ofNat]

/-- Below 31 bits the mask is computed in range, and up to 31 bits with overflow that wraps
around. -/
theorem createMask_of_le {wraps : Bool} {w : ℕ} {bits : UInt32} (hw : w ≤ 32)
    (hle : bits.toNat ≤ w) (hlt : w - bits.toNat < 32)
    (hwraps : w - bits.toNat = 31 → wraps = true) :
    createMask wraps w bits = .ok (lowMask w (w - bits.toNat)) := by
  have hcount : (UInt64.ofNat w - bits.toUInt64).toNat = w - bits.toNat := by
    have hofNat : (UInt64.ofNat w).toNat = w := by
      rw [UInt64.toNat_ofNat']
      omega
    have hle' : bits.toUInt64 ≤ UInt64.ofNat w := by
      rwa [UInt64.le_iff_toNat_le, hofNat, UInt32.toNat_toUInt64]
    rw [UInt64.toNat_sub_of_le _ _ hle', hofNat, UInt32.toNat_toUInt64]
  have hno : ((1#32 <<< (w - bits.toNat)).ssubOverflow 1#32 && !wraps) = false := by
    rw [ssubOverflow_one_shiftLeft _ hlt]
    by_cases h31 : w - bits.toNat = 31
    · simp [hwraps h31]
    · simp [h31]
  simp only [createMask, hcount, hno, one_shiftLeft_sub_one hlt]
  rw [if_neg (by omega), if_neg Bool.false_ne_true]

end Mask

end ServerFramework
