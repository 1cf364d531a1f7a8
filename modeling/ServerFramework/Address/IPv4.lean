import ServerFramework.Address.Basic

/-! # IPv4 subnets

The subnet functions mask the address in network order, and swap the bytes of the mask for it. The
mask is one below a power of two of type `int`, which holds no `2^32`: a prefix of no bits has no
mask.
-/

namespace ServerFramework

open Digits Bits

namespace IPv4Address

section Methods

variable (host : Endian) (wraps : Bool) (addr : SockaddrIn) (prefixLen : UInt32)

def broadcastAddress : Except Undefined (Option SockaddrIn) :=
  if prefixLen > 32 then .ok none
  else do
    let mask ← createMask wraps 32 prefixLen
    return some { addr with sAddr := addr.sAddr ||| byteswapOnLittleEndian32 host mask }

def networkAddress : Except Undefined (Option SockaddrIn) :=
  if prefixLen > 32 then .ok none
  else do
    let mask ← createMask wraps 32 prefixLen
    return some { addr with sAddr := addr.sAddr &&& byteswapOnLittleEndian32 host (~~~mask) }

def subnetMask : Except Undefined SockaddrIn := do
  let mask ← createMask wraps 32 prefixLen
  return { sinFamily := afInet, sinPort := 0, sAddr := ~~~byteswapOnLittleEndian32 host mask }

/-- The address in host order. -/
def hostAddr : BitVec 32 := byteswapOnLittleEndian32 host addr.sAddr

end Methods

/-- The host mask of a prefix. -/
def hostMask (prefixLen : ℕ) : BitVec 32 := lowMask 32 (32 - prefixLen)

/-- The subnet functions at a prefix of up to 32 bits are defined and answer as they should; at a
longer one they answer with null pointers. -/
structure SubnetsRight (host : Endian) (wraps : Bool) (addr : SockaddrIn) (prefixLen : UInt32) :
    Prop where
  network : prefixLen.toNat ≤ 32 → ∃ t,
    networkAddress host wraps addr prefixLen = .ok (some t) ∧
      hostAddr host t = hostAddr host addr &&& ~~~hostMask prefixLen.toNat
  broadcast : prefixLen.toNat ≤ 32 → ∃ t,
    broadcastAddress host wraps addr prefixLen = .ok (some t) ∧
      hostAddr host t = hostAddr host addr ||| hostMask prefixLen.toNat
  mask : prefixLen.toNat ≤ 32 → ∃ t,
    subnetMask host wraps prefixLen = .ok t ∧
      hostAddr host t = ~~~hostMask prefixLen.toNat ∧
      countBytes t.sAddr.toNat = prefixLen.toNat
  null : 32 < prefixLen.toNat →
    networkAddress host wraps addr prefixLen = .ok none ∧
      broadcastAddress host wraps addr prefixLen = .ok none

section Byteswap

/-- Where `ByteswapOnLittleEndian` takes a bit from. -/
def swappedBit (host : Endian) (i : ℕ) : ℕ :=
  match host with
  | .little => 8 * (3 - i / 8) + i % 8
  | .big => i

variable (host : Endian) (v v' : BitVec 32)

theorem swappedBit_lt {i : ℕ} (hi : i < 32) : swappedBit host i < 32 := by
  cases host <;> simp only [swappedBit] <;> omega

theorem swappedBit_swappedBit {i : ℕ} (hi : i < 32) :
    swappedBit host (swappedBit host i) = i := by
  cases host <;> simp only [swappedBit]
  omega

theorem getLsbD_byteswap32 {i : ℕ} (hi : i < 32) :
    (byteswapOnLittleEndian32 host v).getLsbD i = v.getLsbD (swappedBit host i) := by
  rw [byteswapOnLittleEndian32, BitVec.getLsbD_ofNat]
  cases host with
  | little =>
    change (_ && (byteswap 4 v.toNat).testBit i) = _
    rw [byteswap, testBit_ofLeBytes_reverse, BitVec.getLsbD, swappedBit]
    simp [hi]
  | big => simp [byteswapOnLittleEndian, swappedBit, hi, BitVec.getLsbD]

theorem byteswap32_byteswap32 :
    byteswapOnLittleEndian32 host (byteswapOnLittleEndian32 host v) = v := by
  apply BitVec.eq_of_getLsbD_eq
  intro i hi
  rw [getLsbD_byteswap32 host _ hi, getLsbD_byteswap32 host _ (swappedBit_lt host hi),
    swappedBit_swappedBit host hi]

theorem byteswap32_and : byteswapOnLittleEndian32 host (v &&& v') =
    byteswapOnLittleEndian32 host v &&& byteswapOnLittleEndian32 host v' := by
  apply BitVec.eq_of_getLsbD_eq
  intro i hi
  simp only [BitVec.getLsbD_and, getLsbD_byteswap32 host _ hi]

theorem byteswap32_or : byteswapOnLittleEndian32 host (v ||| v') =
    byteswapOnLittleEndian32 host v ||| byteswapOnLittleEndian32 host v' := by
  apply BitVec.eq_of_getLsbD_eq
  intro i hi
  simp only [BitVec.getLsbD_or, getLsbD_byteswap32 host _ hi]

theorem byteswap32_not :
    byteswapOnLittleEndian32 host (~~~v) = ~~~byteswapOnLittleEndian32 host v := by
  apply BitVec.eq_of_getLsbD_eq
  intro i hi
  simp only [BitVec.getLsbD_not, getLsbD_byteswap32 host _ hi, hi, swappedBit_lt host hi]

/-- Swapping the bytes keeps the ones. -/
theorem ones_byteswap32 :
    ones (byteswapOnLittleEndian32 host v).toNat = ones v.toNat := by
  cases host with
  | little =>
    have hv : v.toNat % 256 ^ 4 = v.toNat := Nat.mod_eq_of_lt v.isLt
    have hlt := ofLeBytes_mod (leBytes 4 v.toNat).reverse
    rw [List.length_reverse, length_leBytes] at hlt
    have hswap : (byteswapOnLittleEndian32 .little v).toNat =
        ofLeBytes (leBytes 4 v.toNat).reverse := by
      rw [byteswapOnLittleEndian32, BitVec.toNat_ofNat]
      exact hlt
    rw [hswap, ones_ofLeBytes, List.map_reverse, List.sum_reverse, ← ones_ofLeBytes,
      ofLeBytes_leBytes, hv]
  | big => simp [byteswapOnLittleEndian32, byteswapOnLittleEndian]

end Byteswap

section Right

variable {host : Endian} {wraps : Bool} {addr : SockaddrIn} {prefixLen : UInt32}

/-- The subnet functions are right where the mask is computed. -/
theorem subnetsRight_of_mask
    (h : createMask wraps 32 prefixLen = .ok (hostMask prefixLen.toNat)) :
    SubnetsRight host wraps addr prefixLen := by
  have hgt : prefixLen.toNat ≤ 32 → ¬ prefixLen > 32 := by
    intro hle hlt
    exact absurd (UInt32.lt_iff_toNat_lt.mp hlt) (not_lt.mpr hle)
  constructor
  · intro hle
    refine ⟨_, by rw [networkAddress, if_neg (hgt hle), h]; rfl, ?_⟩
    rw [hostAddr, hostAddr, byteswap32_and, byteswap32_byteswap32]
  · intro hle
    refine ⟨_, by rw [broadcastAddress, if_neg (hgt hle), h]; rfl, ?_⟩
    rw [hostAddr, hostAddr, byteswap32_or, byteswap32_byteswap32]
  · intro hle
    refine ⟨_, by rw [subnetMask, h]; rfl, ?_, ?_⟩
    · rw [hostAddr, byteswap32_not, byteswap32_byteswap32]
    · rw [countBytes_eq_ones, ← byteswap32_not, ones_byteswap32, hostMask, ones_not_lowMask hle]
  · intro hlt
    have hgt' : prefixLen > 32 := UInt32.lt_iff_toNat_lt.mpr hlt
    exact ⟨if_pos hgt', if_pos hgt'⟩

/-- They are undefined where the mask is not. -/
theorem not_subnetsRight_of_error {e : Undefined} (hle : prefixLen.toNat ≤ 32)
    (h : createMask wraps 32 prefixLen = .error e) :
    ¬ SubnetsRight host wraps addr prefixLen := by
  intro hr
  obtain ⟨t, ht, -⟩ := hr.mask hle
  rw [subnetMask, h] at ht
  cases ht

end Right

/-- The subnet functions are right if and only if the prefix has a bit, and signed overflow wraps
around if it has only one. -/
theorem subnetsRight_iff (host : Endian) (wraps : Bool) (addr : SockaddrIn)
    (prefixLen : UInt32) :
    SubnetsRight host wraps addr prefixLen ↔
      1 ≤ prefixLen.toNat ∧ (prefixLen.toNat = 1 → wraps = true) := by
  by_cases hgt : 32 < prefixLen.toNat
  · have hgt' : prefixLen > 32 := UInt32.lt_iff_toNat_lt.mpr hgt
    refine iff_of_true ⟨?_, ?_, ?_, fun _ => ⟨if_pos hgt', if_pos hgt'⟩⟩ (by omega)
    all_goals exact fun hle => absurd hle (not_le.mpr hgt)
  · have hle := not_lt.mp hgt
    by_cases hzero : prefixLen.toNat = 0
    · obtain rfl : prefixLen = 0 := UInt32.toNat_inj.mp hzero
      refine iff_of_false (not_subnetsRight_of_error hle (e := .shiftCount) ?_) (by omega)
      cases wraps <;> decide
    · by_cases hone : prefixLen.toNat = 1 ∧ wraps = false
      · obtain ⟨hone, rfl⟩ := hone
        obtain rfl : prefixLen = 1 := UInt32.toNat_inj.mp hone
        exact iff_of_false (not_subnetsRight_of_error hle (e := .overflow) (by decide)) (by simp)
      · have hwraps : prefixLen.toNat = 1 → wraps = true := by
          intro h
          simpa [h] using hone
        refine iff_of_true (subnetsRight_of_mask ?_) ⟨by omega, hwraps⟩
        exact createMask_of_le le_rfl hle (by omega) fun h => hwraps (by omega)

/-- `192.168.1.120` with a prefix of no bits. -/
theorem not_subnetsRight_zero :
    ¬ SubnetsRight .little true ⟨afInet, 0, 0x7801A8C0⟩ 0 := by
  intro hr
  obtain ⟨t, ht, -⟩ := hr.network (by decide)
  exact absurd ht nofun

end IPv4Address

end ServerFramework
