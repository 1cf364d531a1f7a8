import ServerFramework.Address.Basic

/-! # IPv6 subnets

The subnet functions work on the bytes of the address: the one in which the prefix ends gets a mask,
and a loop fills those on one side of it. A prefix of 128 bits ends behind the last byte.
`NetworkAddress` keeps the wrong part of its byte.
-/

namespace ServerFramework

open Bits

namespace IPv6Address

/-- The bytes of an address. -/
def toBytes (a : BitVec 128) : Vector (BitVec 8) 16 :=
  Vector.ofFn fun i => a.extractLsb' (8 * (15 - i)) 8

/-- The loop that sets the bytes from `lo` up to `hi`. -/
def fill (bytes : Vector (BitVec 8) 16) (lo hi : ℕ) (b : BitVec 8) : Vector (BitVec 8) 16 :=
  (List.range' lo (hi - lo)).foldl (fun bytes i => bytes.setIfInBounds i b) bytes

/-- Change `s6_addr[i]`. -/
def modifyByte (bytes : Vector (BitVec 8) 16) (i : ℕ) (f : BitVec 8 → BitVec 8) :
    Except Undefined (Vector (BitVec 8) 16) :=
  if h : i < 16 then .ok (bytes.set i (f bytes[i])) else .error .outOfBounds

section Methods

variable (wraps : Bool) (addr : SockaddrIn6) (prefixLen : UInt32)

def broadcastAddress : Except Undefined SockaddrIn6 := do
  let mask ← createMask wraps 8 (prefixLen % 8)
  let bytes ← modifyByte addr.s6Addr (prefixLen / 8).toNat (· ||| mask)
  return { addr with s6Addr := fill bytes ((prefixLen / 8).toNat + 1) 16 0xff }

def networkAddress : Except Undefined SockaddrIn6 := do
  let mask ← createMask wraps 8 (prefixLen % 8)
  let bytes ← modifyByte addr.s6Addr (prefixLen / 8).toNat (· &&& mask)
  return { addr with s6Addr := fill bytes ((prefixLen / 8).toNat + 1) 16 0x00 }

def subnetMask : Except Undefined SockaddrIn6 := do
  let mask ← createMask wraps 8 (prefixLen % 8)
  let bytes ← modifyByte (.replicate 16 0) (prefixLen / 8).toNat fun _ => ~~~mask
  return { sin6Family := afInet6, sin6Port := 0, sin6Flowinfo := 0,
           s6Addr := fill bytes 0 (prefixLen / 8).toNat 0xff, sin6ScopeId := 0 }

end Methods

/-- The mask of a prefix. -/
def prefixMask (prefixLen : ℕ) : BitVec 128 := BitVec.allOnes 128 <<< (128 - prefixLen)

/-- An address object. -/
def ofBits (a : BitVec 128) (port : BitVec 16) (flowinfo scopeId : BitVec 32) : SockaddrIn6 :=
  ⟨afInet6, port, flowinfo, toBytes a, scopeId⟩

section Right

variable (wraps : Bool) (a : BitVec 128) (port : BitVec 16) (flowinfo scopeId : BitVec 32)
  (prefixLen : UInt32)

/-- `SubnetMask` writes inside the address and gives the mask of the prefix. -/
def MaskRight : Prop :=
  ∃ t, subnetMask wraps prefixLen = .ok t ∧ t.s6Addr = toBytes (prefixMask prefixLen.toNat) ∧
    (t.s6Addr.toList.map fun b => countBytes b.toNat).sum = prefixLen.toNat

/-- `NetworkAddress` writes inside the address and gives the network. -/
def NetworkRight : Prop :=
  ∃ t, networkAddress wraps (ofBits a port flowinfo scopeId) prefixLen = .ok t ∧
    t.s6Addr = toBytes (a &&& prefixMask prefixLen.toNat) ∧ t.sin6Port = port ∧
    t.sin6ScopeId = scopeId

/-- `BroadcastAddress` writes inside the address and gives the last address of the network. -/
def BroadcastRight : Prop :=
  ∃ t, broadcastAddress wraps (ofBits a port flowinfo scopeId) prefixLen = .ok t ∧
    t.s6Addr = toBytes (a ||| ~~~prefixMask prefixLen.toNat) ∧ t.sin6Port = port ∧
    t.sin6ScopeId = scopeId

/-- The subnet functions are right for a prefix that fits the address. -/
def SubnetRight : Prop :=
  prefixLen.toNat ≤ 128 →
    MaskRight wraps prefixLen ∧ NetworkRight wraps a port flowinfo scopeId prefixLen ∧
      BroadcastRight wraps a port flowinfo scopeId prefixLen

end Right

section Bytes

variable (x y : BitVec 128) {k : ℕ} (hk : k < 16)

include hk

theorem getLsbD_toBytes {j : ℕ} (hj : j < 8) :
    (toBytes x)[k].getLsbD j = x.getLsbD (8 * (15 - k) + j) := by
  simp [toBytes, hj]

theorem toBytes_and : (toBytes (x &&& y))[k] = (toBytes x)[k] &&& (toBytes y)[k] := by
  apply BitVec.eq_of_getLsbD_eq
  intro j hj
  simp only [BitVec.getLsbD_and, getLsbD_toBytes _ hk hj]

theorem toBytes_or : (toBytes (x ||| y))[k] = (toBytes x)[k] ||| (toBytes y)[k] := by
  apply BitVec.eq_of_getLsbD_eq
  intro j hj
  simp only [BitVec.getLsbD_or, getLsbD_toBytes _ hk hj]

theorem toBytes_not : (toBytes (~~~x))[k] = ~~~(toBytes x)[k] := by
  have hlt : ∀ j < 8, 8 * (15 - k) + j < 128 := by omega
  apply BitVec.eq_of_getLsbD_eq
  intro j hj
  simp only [BitVec.getLsbD_not, getLsbD_toBytes _ hk hj, hj, hlt j hj]

/-- The bytes of a mask: the prefix ends in one of them. -/
theorem toBytes_prefixMask {p : ℕ} (hp : p < 128) :
    (toBytes (prefixMask p))[k] =
      if k < p / 8 then 0xff else if k = p / 8 then ~~~lowMask 8 (8 - p % 8) else 0 := by
  have hff : (0xff : BitVec 8) = BitVec.allOnes 8 := by decide
  apply BitVec.eq_of_getLsbD_eq
  intro j hj
  rw [getLsbD_toBytes _ hk hj, prefixMask, BitVec.getLsbD_shiftLeft, BitVec.getLsbD_allOnes, hff]
  rw [Bool.eq_iff_iff]
  split_ifs with hlt heq
  · simp only [BitVec.getLsbD_allOnes, Bool.and_eq_true, Bool.not_eq_true', decide_eq_true_eq,
      decide_eq_false_iff_not]
    omega
  · simp only [BitVec.getLsbD_not, getLsbD_lowMask, Bool.and_eq_true, Bool.not_eq_true',
      Bool.and_eq_false_imp, decide_eq_true_eq, decide_eq_false_iff_not]
    omega
  · have hout : 8 * (15 - k) + j < 128 - p := by omega
    simp [hout]

end Bytes

theorem getElem_foldl_set (is : List ℕ) (bytes : Vector (BitVec 8) 16) (b : BitVec 8) {k : ℕ}
    (hk : k < 16) :
    (is.foldl (fun bytes i => bytes.setIfInBounds i b) bytes)[k] =
      if k ∈ is then b else bytes[k] := by
  induction is generalizing bytes with
  | nil => simp
  | cons i is ih =>
    rw [List.foldl_cons, ih]
    by_cases he : i = k
    · subst he
      simp
    · simp [he, Ne.symm he]

/-- What the loop leaves. -/
theorem getElem_fill (bytes : Vector (BitVec 8) 16) (lo hi : ℕ) (b : BitVec 8) {k : ℕ}
    (hk : k < 16) :
    (fill bytes lo hi b)[k] = if lo ≤ k ∧ k < hi then b else bytes[k] := by
  rw [fill, getElem_foldl_set _ _ _ hk]
  congr 1
  rw [List.mem_range'_1]
  apply propext
  omega

/-- The loop behind the byte in which the prefix ends. -/
theorem getElem_fill_set (bytes : Vector (BitVec 8) 16) {i : ℕ} (hi : i < 16) (x b : BitVec 8)
    {k : ℕ} (hk : k < 16) :
    (fill (bytes.set i x) (i + 1) 16 b)[k] =
      if k < i then bytes[k] else if k = i then x else b := by
  rw [getElem_fill _ _ _ _ hk, Vector.getElem_set]
  rcases lt_trichotomy k i with hlt | rfl | hgt
  · rw [if_neg (by omega), if_neg hlt.ne', if_pos hlt]
  · rw [if_neg (by omega), if_pos rfl, if_neg (lt_irrefl k), if_pos rfl]
  · rw [if_pos ⟨hgt, hk⟩, if_neg hgt.not_gt, if_neg hgt.ne']

section Methods

variable {wraps : Bool} {prefixLen : UInt32}

/-- The mask of the byte in which the prefix ends. -/
theorem createMask_byte (wraps : Bool) (prefixLen : UInt32) :
    createMask wraps 8 (prefixLen % 8) = .ok (lowMask 8 (8 - prefixLen.toNat % 8)) := by
  have hmod : (prefixLen % 8).toNat = prefixLen.toNat % 8 := UInt32.toNat_mod ..
  have hlt : prefixLen.toNat % 8 < 8 := Nat.mod_lt _ (by decide)
  rw [createMask_of_le (by decide) (by omega) (by omega) (by omega), hmod]

theorem toNat_div_eight (prefixLen : UInt32) : (prefixLen / 8).toNat = prefixLen.toNat / 8 :=
  UInt32.toNat_div ..

theorem modifyByte_of_lt {bytes : Vector (BitVec 8) 16} {i : ℕ} (hi : i < 16)
    (f : BitVec 8 → BitVec 8) : modifyByte bytes i f = .ok (bytes.set i (f bytes[i])) :=
  dif_pos hi

/-- A longer prefix ends behind the address. -/
theorem outOfBounds_of_le (h : 128 ≤ prefixLen.toNat) (bytes : Vector (BitVec 8) 16)
    (f : BitVec 8 → BitVec 8) :
    modifyByte bytes (prefixLen / 8).toNat f = .error .outOfBounds := by
  rw [toNat_div_eight]
  exact dif_neg (by omega)

section Inside

variable (addr : SockaddrIn6) (hlt : prefixLen.toNat / 8 < 16)

theorem subnetMask_of_lt : subnetMask wraps prefixLen = .ok
    ⟨afInet6, 0, 0, fill ((Vector.replicate 16 0).set (prefixLen.toNat / 8)
      (~~~lowMask 8 (8 - prefixLen.toNat % 8)) hlt) 0 (prefixLen.toNat / 8) 0xff, 0⟩ := by
  simp only [subnetMask, createMask_byte, toNat_div_eight, modifyByte_of_lt hlt]
  rfl

theorem broadcastAddress_of_lt : broadcastAddress wraps addr prefixLen = .ok
    { addr with
      s6Addr := fill (addr.s6Addr.set (prefixLen.toNat / 8)
        (addr.s6Addr[prefixLen.toNat / 8] ||| lowMask 8 (8 - prefixLen.toNat % 8)))
          (prefixLen.toNat / 8 + 1) 16 0xff } := by
  simp only [broadcastAddress, createMask_byte, toNat_div_eight, modifyByte_of_lt hlt]
  rfl

theorem networkAddress_of_lt : networkAddress wraps addr prefixLen = .ok
    { addr with
      s6Addr := fill (addr.s6Addr.set (prefixLen.toNat / 8)
        (addr.s6Addr[prefixLen.toNat / 8] &&& lowMask 8 (8 - prefixLen.toNat % 8)))
          (prefixLen.toNat / 8 + 1) 16 0 } := by
  simp only [networkAddress, createMask_byte, toNat_div_eight, modifyByte_of_lt hlt]
  rfl

end Inside

section Outside

variable (addr : SockaddrIn6) (h : 128 ≤ prefixLen.toNat)

include h

theorem subnetMask_of_le : subnetMask wraps prefixLen = .error .outOfBounds := by
  simp only [subnetMask, createMask_byte, outOfBounds_of_le h]
  rfl

theorem broadcastAddress_of_le :
    broadcastAddress wraps addr prefixLen = .error .outOfBounds := by
  simp only [broadcastAddress, createMask_byte, outOfBounds_of_le h]
  rfl

theorem networkAddress_of_le :
    networkAddress wraps addr prefixLen = .error .outOfBounds := by
  simp only [networkAddress, createMask_byte, outOfBounds_of_le h]
  rfl

end Outside

end Methods

/-- What is left when the prefix takes all of `i` bytes and `b` bits of the next one. -/
theorem sum_prefix_bits (i b n : ℕ) :
    ((List.range n).map fun k => if k < i then 8 else if k = i then b else 0).sum =
      if n ≤ i then 8 * n else 8 * i + b := by
  induction n with
  | zero => simp
  | succ n ih =>
    rw [List.range_succ, List.map_append, List.sum_append, ih]
    simp only [List.map_cons, List.map_nil, List.sum_cons, List.sum_nil]
    split_ifs <;> omega

/-- The ones in the bytes of a mask. -/
theorem sum_countBytes_prefixMask {p : ℕ} (hp : p < 128) :
    ((toBytes (prefixMask p)).toList.map fun b => countBytes b.toNat).sum = p := by
  have hff : ones (0xff : BitVec 8).toNat = 8 := ones_two_pow_sub_one 8
  have hzero : ones (0 : BitVec 8).toNat = 0 := ones_zero
  have hlist : (toBytes (prefixMask p)).toList.map (fun b => countBytes b.toNat) =
      (List.range 16).map fun k => if k < p / 8 then 8 else if k = p / 8 then p % 8 else 0 := by
    apply List.ext_getElem
    · simp
    · intro k hk _
      have hk16 : k < 16 := by simpa using hk
      rw [List.getElem_map, Vector.getElem_toList, toBytes_prefixMask hk16 hp,
        countBytes_eq_ones, List.getElem_map, List.getElem_range]
      split_ifs
      · exact hff
      · exact ones_not_lowMask (Nat.mod_lt p (by decide)).le
      · exact hzero
  rw [hlist, sum_prefix_bits, if_neg (by omega)]
  omega

/-- A byte has the same bits inside and outside a mask only if it has none. -/
theorem and_eq_and_not_iff {w : ℕ} (b m : BitVec w) : b &&& m = b &&& ~~~m ↔ b = 0 := by
  constructor
  · intro h
    apply BitVec.eq_of_getLsbD_eq
    intro j hj
    have hbit := congrArg (·.getLsbD j) h
    simp only [BitVec.getLsbD_and, BitVec.getLsbD_not, hj, decide_true, Bool.true_and] at hbit
    cases hb : b.getLsbD j <;> cases hm : m.getLsbD j <;> simp_all
  · rintro rfl
    simp

section Prefix

variable (a : BitVec 128) {p : ℕ} (hp : p < 128) (hlt : p / 8 < 16)

include hp

theorem fill_mask :
    fill ((Vector.replicate 16 0).set (p / 8) (~~~lowMask 8 (8 - p % 8)) hlt) 0 (p / 8) 0xff =
      toBytes (prefixMask p) := by
  apply Vector.ext
  intro k hk
  rw [toBytes_prefixMask hk hp, getElem_fill _ _ _ _ hk, Vector.getElem_set]
  simp [eq_comm]

theorem fill_broadcast :
    fill ((toBytes a).set (p / 8) ((toBytes a)[p / 8] ||| lowMask 8 (8 - p % 8)) hlt)
        (p / 8 + 1) 16 0xff = toBytes (a ||| ~~~prefixMask p) := by
  have hff : (0xff : BitVec 8) = BitVec.allOnes 8 := by decide
  apply Vector.ext
  intro k hk
  rw [toBytes_or a _ hk, toBytes_not _ hk, toBytes_prefixMask hk hp,
    getElem_fill_set _ hlt _ _ hk]
  split_ifs with hbefore heq
  · rw [hff, BitVec.not_allOnes, BitVec.or_zero]
  · subst heq
    rw [BitVec.not_not]
  · rw [hff, BitVec.ofNat_eq_ofNat, BitVec.not_zero, BitVec.or_allOnes]

/-- `NetworkAddress` keeps the bits of its byte that lie behind the prefix. -/
theorem fill_network_iff :
    fill ((toBytes a).set (p / 8) ((toBytes a)[p / 8] &&& lowMask 8 (8 - p % 8)) hlt)
        (p / 8 + 1) 16 0 = toBytes (a &&& prefixMask p) ↔ (toBytes a)[p / 8] = 0 := by
  have hff : (0xff : BitVec 8) = BitVec.allOnes 8 := by decide
  rw [← and_eq_and_not_iff _ (lowMask 8 (8 - p % 8))]
  constructor
  · intro he
    have hget := congrArg (·[p / 8]) he
    simpa [getElem_fill_set _ hlt _ _ hlt, toBytes_and a _ hlt, toBytes_prefixMask hlt hp]
      using hget
  · intro he
    apply Vector.ext
    intro k hk
    rw [toBytes_and a _ hk, toBytes_prefixMask hk hp, getElem_fill_set _ hlt _ _ hk]
    split_ifs with hbefore heq
    · rw [hff, BitVec.and_allOnes]
    · subst heq
      exact he
    · rw [BitVec.ofNat_eq_ofNat, BitVec.and_zero]

end Prefix

section Right

variable {wraps : Bool} {a : BitVec 128} {port : BitVec 16} {flowinfo scopeId : BitVec 32}
  {prefixLen : UInt32}

theorem maskRight_iff : MaskRight wraps prefixLen ↔ prefixLen.toNat < 128 := by
  constructor
  · rintro ⟨t, ht, -⟩
    by_contra hge
    rw [subnetMask_of_le (not_lt.mp hge)] at ht
    cases ht
  · intro hp
    have hlt : prefixLen.toNat / 8 < 16 := by omega
    have hbytes := fill_mask hp hlt
    refine ⟨_, subnetMask_of_lt hlt, hbytes, ?_⟩
    rw [hbytes]
    exact sum_countBytes_prefixMask hp

theorem broadcastRight_iff :
    BroadcastRight wraps a port flowinfo scopeId prefixLen ↔ prefixLen.toNat < 128 := by
  constructor
  · rintro ⟨t, ht, -⟩
    by_contra hge
    rw [broadcastAddress_of_le _ (not_lt.mp hge)] at ht
    cases ht
  · intro hp
    have hlt : prefixLen.toNat / 8 < 16 := by omega
    exact ⟨_, broadcastAddress_of_lt _ hlt, fill_broadcast a hp hlt, rfl, rfl⟩

theorem networkRight_iff :
    NetworkRight wraps a port flowinfo scopeId prefixLen ↔
      prefixLen.toNat < 128 ∧ a.extractLsb' (8 * (15 - prefixLen.toNat / 8)) 8 = 0 := by
  constructor
  · rintro ⟨t, ht, hnet, -⟩
    have hp : prefixLen.toNat < 128 := by
      by_contra hge
      rw [networkAddress_of_le _ (not_lt.mp hge)] at ht
      cases ht
    have hlt : prefixLen.toNat / 8 < 16 := by omega
    rw [networkAddress_of_lt _ hlt] at ht
    obtain rfl := Except.ok.inj ht
    have hzero := (fill_network_iff a hp hlt).mp hnet
    exact ⟨hp, by simpa [toBytes] using hzero⟩
  · rintro ⟨hp, hzero⟩
    have hlt : prefixLen.toNat / 8 < 16 := by omega
    have hbyte : (toBytes a)[prefixLen.toNat / 8] = 0 := by simpa [toBytes] using hzero
    exact ⟨_, networkAddress_of_lt _ hlt, (fill_network_iff a hp hlt).mpr hbyte, rfl, rfl⟩

end Right

/-- The subnet functions are right if and only if the prefix leaves a bit of the address and, for
`NetworkAddress`, the byte in which it ends is zero. -/
theorem subnetRight_iff (wraps : Bool) (a : BitVec 128) (port : BitVec 16)
    (flowinfo scopeId : BitVec 32) (prefixLen : UInt32) :
    SubnetRight wraps a port flowinfo scopeId prefixLen ↔
      prefixLen.toNat ≠ 128 ∧ (prefixLen.toNat < 128 →
        a.extractLsb' (8 * (15 - prefixLen.toNat / 8)) 8 = 0) := by
  rw [SubnetRight, maskRight_iff, networkRight_iff, broadcastRight_iff]
  constructor
  · intro h
    refine ⟨?_, fun hp => (h hp.le).2.1.2⟩
    intro hp
    exact absurd (h hp.le).1 hp.not_lt
  · rintro ⟨hne, hzero⟩ hle
    have hp := lt_of_le_of_ne hle hne
    exact ⟨hp, ⟨hp, hzero hp⟩, hp⟩

/-- The network of `fe80::215:5dff:fe88:d8a` with a prefix of 64 bits. -/
theorem not_subnetRight_linkLocal :
    ¬ SubnetRight false 0xfe8000000000000002155dfffe880d8a 0 0 0 64 := by
  intro hr
  obtain ⟨-, ⟨t, ht, hnet, -⟩, -⟩ := hr (by decide)
  obtain rfl := Except.ok.inj ht
  exact absurd hnet (by decide)

end IPv6Address

end ServerFramework
