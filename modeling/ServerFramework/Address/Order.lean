import Mathlib.Data.List.Lex
import Mathlib.Data.List.TakeWhile
import Mathlib.Data.UInt
import ServerFramework.Address.Basic
import ServerFramework.ByteArray.Encoding

/-! # The order of addresses

`operator<` and `operator==` of `Address` compare the memory of the `sockaddr`, as much of it as
both have, and then the lengths. For Unix addresses the length says how much of `sun_path` counts.
-/

namespace ServerFramework

open Digits

/-- `sockaddr_un` with `length_`. -/
structure UnixAddress where
  sunPath : List UInt8
  length : ℕ
  length_sunPath : sunPath.length = 108
  deriving DecidableEq, Repr

/-- `sockaddr` of another family. -/
structure UnknownAddress where
  saFamily : BitVec 16
  saData : Vector UInt8 14
  deriving DecidableEq, Repr

/-- An address by its class. -/
inductive Address where
  | ipv4 (addr : SockaddrIn)
  | ipv6 (addr : SockaddrIn6)
  | unix (addr : UnixAddress)
  | unknown (addr : UnknownAddress)
  deriving DecidableEq, Repr

/-- `memcmp` of `n` bytes. -/
def memcmp : ℕ → List UInt8 → List UInt8 → Ordering
  | n + 1, a :: as, b :: bs =>
    if a < b then .lt else if b < a then .gt else memcmp n as bs
  | _, _, _ => .eq

namespace Address

/-- What `GetAddrGetFamily` points to. -/
def memory (host : Endian) : Address → List UInt8
  | ipv4 addr => hostBytes host 2 addr.sinFamily.toNat ++ hostBytes host 2 addr.sinPort.toNat ++
      hostBytes host 4 addr.sAddr.toNat ++ List.replicate 8 0
  | ipv6 addr => hostBytes host 2 addr.sin6Family.toNat ++ hostBytes host 2 addr.sin6Port.toNat ++
      hostBytes host 4 addr.sin6Flowinfo.toNat ++
        addr.s6Addr.toList.map (fun b => UInt8.ofBitVec b) ++
        hostBytes host 4 addr.sin6ScopeId.toNat
  | unix addr => hostBytes host 2 1 ++ addr.sunPath
  | unknown addr => hostBytes host 2 addr.saFamily.toNat ++ addr.saData.toList

/-- `GetAddrLen`. -/
def getAddrLen : Address → ℕ
  | ipv4 _ => 16
  | ipv6 _ => 28
  | unix addr => addr.length
  | unknown _ => 16

/-- `operator<`. -/
def lt (host : Endian) (a b : Address) : Bool :=
  let minlen := min a.getAddrLen b.getAddrLen
  match memcmp minlen (a.memory host) (b.memory host) with
  | .lt => true
  | .gt => false
  | .eq => a.getAddrLen < b.getAddrLen

/-- `operator==`. -/
def eq (host : Endian) (a b : Address) : Bool :=
  a.getAddrLen = b.getAddrLen &&
    memcmp a.getAddrLen (a.memory host) (b.memory host) == .eq

/-- The bytes that count. -/
def bytes (host : Endian) (a : Address) : List UInt8 := (a.memory host).take a.getAddrLen

/-- The length does not go beyond the memory; `SetAddrLen` takes any. -/
def Fits (host : Endian) (a : Address) : Prop := a.getAddrLen ≤ (a.memory host).length

instance (host : Endian) (a : Address) : Decidable (a.Fits host) :=
  inferInstanceAs (Decidable (_ ≤ _))

section Memcmp

variable {n : ℕ} {as bs : List UInt8}

theorem lt_or_eq_or_lt (a b : UInt8) : a < b ∨ a = b ∨ b < a := by
  rcases UInt8.lt_or_le a b with hab | hab
  · exact .inl hab
  · exact .inr ((UInt8.lt_or_eq_of_le hab).symm.imp_left Eq.symm)

theorem memcmp_cons_of_lt {a b : UInt8} (h : a < b) :
    memcmp (n + 1) (a :: as) (b :: bs) = .lt := if_pos h

theorem memcmp_cons_of_gt {a b : UInt8} (h : b < a) :
    memcmp (n + 1) (a :: as) (b :: bs) = .gt := by
  rw [memcmp, if_neg (UInt8.lt_asymm h), if_pos h]

@[simp] theorem memcmp_cons_self (a : UInt8) :
    memcmp (n + 1) (a :: as) (a :: bs) = memcmp n as bs := by
  rw [memcmp, if_neg (UInt8.lt_irrefl a), if_neg (UInt8.lt_irrefl a)]

theorem memcmp_take {k l : ℕ} (hk : n ≤ k) (hl : n ≤ l) :
    memcmp n (as.take k) (bs.take l) = memcmp n as bs := by
  induction n generalizing as bs k l with
  | zero => simp [memcmp]
  | succ n ih =>
    obtain ⟨k, rfl⟩ := Nat.exists_eq_add_of_le' (show 1 ≤ k by omega)
    obtain ⟨l, rfl⟩ := Nat.exists_eq_add_of_le' (show 1 ≤ l by omega)
    cases as <;> cases bs <;> simp [memcmp]
    rw [ih (by omega) (by omega)]

/-- `memcmp` of as much as there is, and then the lengths, order byte strings like words. -/
theorem memcmp_lt_iff (as bs : List UInt8) :
    (match memcmp (min as.length bs.length) as bs with
      | .lt => true
      | .gt => false
      | .eq => decide (as.length < bs.length)) = true ↔ as < bs := by
  induction as generalizing bs with
  | nil => cases bs <;> simp [memcmp]
  | cons a as ih =>
    cases bs with
    | nil => simp [memcmp]
    | cons b bs =>
      rw [List.cons_lt_cons_iff, ← ih bs, List.length_cons, List.length_cons,
        Nat.add_min_add_right]
      rcases lt_or_eq_or_lt a b with hab | rfl | hab
      · rw [memcmp_cons_of_lt hab]
        simp [hab]
      · simp [UInt8.lt_irrefl]
      · rw [memcmp_cons_of_gt hab]
        simp [UInt8.lt_asymm hab, (UInt8.ne_of_lt hab).symm]

theorem memcmp_eq_iff (hlen : as.length = bs.length) :
    memcmp as.length as bs = .eq ↔ as = bs := by
  induction as generalizing bs with
  | nil =>
    obtain rfl : bs = [] := List.length_eq_zero_iff.mp hlen.symm
    simp [memcmp]
  | cons a as ih =>
    cases bs with
    | nil => cases hlen
    | cons b bs =>
      have hih := ih (by simpa using hlen : as.length = bs.length)
      rw [List.length_cons]
      rcases lt_or_eq_or_lt a b with hab | rfl | hab
      · rw [memcmp_cons_of_lt hab]
        simp [UInt8.ne_of_lt hab]
      · simp [hih]
      · rw [memcmp_cons_of_gt hab]
        simp [(UInt8.ne_of_lt hab).symm]

end Memcmp

section Order

variable {host : Endian} {a b : Address}

theorem length_bytes (h : a.Fits host) : (a.bytes host).length = a.getAddrLen := by
  rw [bytes, List.length_take, Nat.min_eq_left h]

theorem lt_iff (ha : a.Fits host) (hb : b.Fits host) :
    lt host a b = true ↔ a.bytes host < b.bytes host := by
  rw [← memcmp_lt_iff, length_bytes ha, length_bytes hb, bytes, bytes,
    memcmp_take (Nat.min_le_left _ _) (Nat.min_le_right _ _)]
  rfl

theorem eq_iff (ha : a.Fits host) (hb : b.Fits host) :
    eq host a b = true ↔ a.bytes host = b.bytes host := by
  rw [eq, Bool.and_eq_true, decide_eq_true_eq, beq_iff_eq]
  constructor
  · rintro ⟨hlen, hmemcmp⟩
    rw [← memcmp_take le_rfl hlen.le] at hmemcmp
    have hbytes : (a.bytes host).length = (b.bytes host).length := by
      rw [length_bytes ha, length_bytes hb, hlen]
    rw [← memcmp_eq_iff hbytes, length_bytes ha]
    exact hmemcmp
  · intro hbytes
    have hlen : a.getAddrLen = b.getAddrLen := by
      rw [← length_bytes ha, ← length_bytes hb, hbytes]
    refine ⟨hlen, ?_⟩
    have hmemcmp := (memcmp_eq_iff (by rw [hbytes])).mpr hbytes
    rwa [length_bytes ha, bytes, bytes, memcmp_take le_rfl hlen.le] at hmemcmp

/-- `operator<` puts addresses in the order of their bytes, a strict total order up to
`operator==`. -/
theorem order_exact (host : Endian) (a b c : Address) (ha : a.Fits host) (hb : b.Fits host)
    (hc : c.Fits host) :
    (lt host a b = true ↔ a.bytes host < b.bytes host) ∧
      (eq host a b = true ↔ a.bytes host = b.bytes host) ∧
      lt host a a = false ∧
      (lt host a b = true → lt host b c = true → lt host a c = true) ∧
      (lt host a b = true ∨ eq host a b = true ∨ lt host b a = true) := by
  rw [← Bool.not_eq_true, lt_iff ha hb, eq_iff ha hb, lt_iff ha ha, lt_iff hb hc, lt_iff ha hc,
    lt_iff hb ha]
  refine ⟨Iff.rfl, Iff.rfl, List.lt_irrefl _, List.lt_trans, ?_⟩
  by_contra hne
  rw [not_or, not_or] at hne
  exact hne.2.1 (List.le_antisymm hne.2.2 hne.1)

/-- The address of the path `a`. -/
def shortPath : UnixAddress := ⟨97 :: List.replicate 107 0, 4, rfl⟩

/-- A `sockaddr` that begins as `anyHost` does. -/
def anyFamily : UnknownAddress := ⟨afInet6, Vector.replicate 14 0⟩

def anyHost : SockaddrIn6 := ⟨afInet6, 0, 0, Vector.replicate 16 0, 0⟩

/-- Addresses of 4, 16 and 28 bytes, the second being the beginning of the third. -/
theorem order_exact_classes :
    lt .little (.unix shortPath) (.unknown anyFamily) = true ∧
      lt .little (.unknown anyFamily) (.ipv6 anyHost) = true ∧
      lt .little (.unix shortPath) (.ipv6 anyHost) = true := by
  have h := order_exact .little (.unix shortPath) (.unknown anyFamily) (.ipv6 anyHost)
    (by decide) (by decide) (by decide)
  have hfirst := h.1.mpr (by decide)
  have hsecond := (order_exact .little (.unknown anyFamily) (.ipv6 anyHost) (.ipv6 anyHost)
    (by decide) (by decide) (by decide)).1.mpr (by decide)
  exact ⟨hfirst, hsecond, h.2.2.2.1 hfirst hsecond⟩

end Order

end Address

namespace UnixAddress

/-- `UnixAddress(path)`, which throws if the path is too long. `length_` has 32 bits. -/
def create (path : List UInt8) : Option UnixAddress :=
  let length := (path.length + 1) % 2 ^ 32
  let length := if path.head? = some 0 then (length + (2 ^ 32 - 1)) % 2 ^ 32 else length
  if h : length ≤ 108 then
    let stored := (path ++ [0]).take length
    some
      { sunPath := stored ++ List.replicate (108 - stored.length) 0
        length := length + 2
        length_sunPath := by
          have hle : stored.length ≤ 108 := (List.length_take_le _ _).trans h
          simp only [List.length_append, List.length_replicate]
          omega }
  else none

/-- `GetPath`, and `Insert`. Reading behind `sun_path` is undefined. -/
def getPath (addr : UnixAddress) : Option (List UInt8) :=
  if 2 < addr.length ∧ addr.sunPath.head? = some 0 then
    if addr.length ≤ 110 then some ([92, 48] ++ (addr.sunPath.drop 1).take (addr.length - 3))
    else none
  else if 0 ∈ addr.sunPath then some (addr.sunPath.takeWhile (· ≠ 0)) else none

/-- What of a path is stored: a name that begins with a terminator has no other. -/
def stored (path : List UInt8) : List UInt8 :=
  if path.head? = some 0 then path else path ++ [0]

section Create

variable {path : List UInt8} {addr : UnixAddress}

theorem length_stored (path : List UInt8) :
    (stored path).length = if path.head? = some 0 then path.length else path.length + 1 := by
  rw [stored]
  split_ifs <;> simp

theorem take_stored (path : List UInt8) :
    (path ++ [0]).take (stored path).length = stored path := by
  rw [stored]
  split_ifs
  · exact List.take_left
  · exact List.take_length

theorem create_eq (hpath : path.length + 1 < 2 ^ 32) :
    create path = if h : (stored path).length ≤ 108 then
      some
        { sunPath := stored path ++ List.replicate (108 - (stored path).length) 0
          length := (stored path).length + 2
          length_sunPath := by
            rw [List.length_append, List.length_replicate]
            omega }
    else none := by
  have hlength : (if path.head? = some 0 then
      ((path.length + 1) % 2 ^ 32 + (2 ^ 32 - 1)) % 2 ^ 32 else (path.length + 1) % 2 ^ 32) =
      (stored path).length := by
    rw [length_stored]
    split_ifs <;> omega
  simp only [create, hlength, take_stored]

theorem append_lt_append_iff (l : List UInt8) {x y : List UInt8} :
    l ++ x < l ++ y ↔ x < y := by
  induction l with
  | nil => rfl
  | cons a l ih => simp [ih]

theorem stored_eq_iff {p q : List UInt8} :
    stored p = stored q ↔ p = q ∨ p = [] ∧ q = [0] ∨ p = [0] ∧ q = [] := by
  constructor
  · intro h
    rw [stored, stored] at h
    split_ifs at h with hp hq hq
    · exact .inl h
    · cases q with
      | nil => exact .inr (.inr ⟨h, rfl⟩)
      | cons c q => exact absurd (by simpa [h] using hp) hq
    · cases p with
      | nil => exact .inr (.inl ⟨rfl, h.symm⟩)
      | cons c p => exact absurd (by simpa [← h] using hq) hp
    · exact .inl (List.append_cancel_right h)
  · rintro (rfl | ⟨rfl, rfl⟩ | ⟨rfl, rfl⟩) <;> rfl

/-- A C string ends at its terminator. -/
theorem takeWhile_terminator (path rest : List UInt8) :
    (path ++ 0 :: rest).takeWhile (· ≠ 0) = path.takeWhile (· ≠ 0) := by
  induction path with
  | nil => rfl
  | cons c path ih => by_cases hc : c = 0 <;> simp_all

theorem takeWhile_eq_self_iff : path.takeWhile (· ≠ 0) = path ↔ 0 ∉ path := by
  rw [List.takeWhile_eq_self_iff]
  simp only [decide_eq_true_eq]
  exact ⟨fun h h0 => h 0 h0 rfl, fun h x hx => ne_of_mem_of_not_mem hx h⟩

variable (hpath : path.length + 1 < 2 ^ 32)

include hpath

theorem create_eq_none_iff : create path = none ↔ 108 < (stored path).length := by
  rw [create_eq hpath]
  split_ifs with h
  · simpa using h
  · simpa using h

theorem of_create (hcreate : create path = some addr) : (stored path).length ≤ 108 ∧
    addr.sunPath = stored path ++ List.replicate (108 - (stored path).length) 0 ∧
      addr.length = (stored path).length + 2 := by
  rw [create_eq hpath] at hcreate
  split_ifs at hcreate with h
  cases hcreate
  exact ⟨h, rfl, rfl⟩

/-- The bytes that count are those of the family and what is stored of the path. -/
theorem bytes_of_create (hcreate : create path = some addr) (host : Endian) :
    (Address.unix addr).Fits host ∧
      (Address.unix addr).bytes host = hostBytes host 2 1 ++ stored path := by
  obtain ⟨hle, hsun, hlen⟩ := of_create hpath hcreate
  constructor
  · rw [Address.Fits, Address.getAddrLen, hlen, Address.memory, List.length_append,
      length_hostBytes, addr.length_sunPath]
    omega
  · rw [Address.bytes, Address.getAddrLen, hlen, Address.memory, hsun, ← List.append_assoc]
    apply List.take_left'
    rw [List.length_append, length_hostBytes, Nat.add_comm]

/-- `GetPath` shows a name that begins with a terminator, and no name, behind `\\0`. -/
theorem getPath_of_create (hcreate : create path = some addr) :
    addr.getPath = some (if path.head? = some 0 ∨ path = [] then [92, 48] ++ path.tail
      else path.takeWhile (· ≠ 0)) := by
  obtain ⟨hle, hsun, hlen⟩ := of_create hpath hcreate
  cases path with
  | nil => simp [getPath, hsun, hlen, stored]
  | cons c path =>
    by_cases hc : c = 0
    · subst hc
      have hlt : path.length + 1 ≤ 108 := by simpa [stored] using hle
      simp [getPath, hsun, hlen, stored]
      omega
    · simpa [getPath, hsun, hlen, stored, hc] using takeWhile_terminator path _

end Create

/-- Two paths make equal addresses if and only if they are equal, save that an empty path and one
that only holds a terminator do too; the addresses are in the order of what is stored of the paths.
A path is shown as it is if it is not empty and holds no terminator. -/
theorem create_exact (host : Endian) (p q : List UInt8) (hp : p.length + 1 < 2 ^ 32)
    (hq : q.length + 1 < 2 ^ 32) :
    (create p = none ↔ 108 < (stored p).length) ∧
      ∀ a b, create p = some a → create q = some b →
        (Address.eq host (.unix a) (.unix b) = true ↔
          p = q ∨ p = [] ∧ q = [0] ∨ p = [0] ∧ q = []) ∧
        (Address.lt host (.unix a) (.unix b) = true ↔ stored p < stored q) ∧
        (a.getPath = some p ↔ p ≠ [] ∧ 0 ∉ p) := by
  refine ⟨create_eq_none_iff hp, ?_⟩
  intro a b ha hb
  obtain ⟨hfa, hba⟩ := bytes_of_create hp ha host
  obtain ⟨hfb, hbb⟩ := bytes_of_create hq hb host
  refine ⟨?_, ?_, ?_⟩
  · rw [Address.eq_iff hfa hfb, hba, hbb, List.append_right_inj, stored_eq_iff]
  · rw [Address.lt_iff hfa hfb, hba, hbb, append_lt_append_iff]
  · rw [getPath_of_create hp ha, Option.some_inj]
    cases p with
    | nil => simp
    | cons c p =>
      by_cases hc : c = 0
      · subst hc
        simp
      · rw [if_neg (by simp [hc]), takeWhile_eq_self_iff]
        simp

theorem create_exact_names : ∃ a b, create [47, 97] = some a ∧ create [0, 97] = some b ∧
    Address.lt .little (.unix b) (.unix a) = true := by
  obtain ⟨a, ha⟩ := Option.isSome_iff_exists.mp (by decide : (create [47, 97]).isSome)
  obtain ⟨b, hb⟩ := Option.isSome_iff_exists.mp (by decide : (create [0, 97]).isSome)
  have h := create_exact .little [0, 97] [47, 97] (by decide) (by decide)
  exact ⟨a, b, ha, hb, (h.2 b a hb ha).2.1.mpr (by decide)⟩

end UnixAddress

end ServerFramework
