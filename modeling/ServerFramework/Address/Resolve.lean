import ServerFramework.Address.IPv4
import ServerFramework.Address.Lookup
import ServerFramework.ByteArray.Encoding

/-! # Looking up the text of an address

`Address::Lookup` on what `ToString` prints. Nodes and services that are numbers are resolved
without asking anybody, so the address comes back, if addresses of its family are asked for; of an
IPv6 address the text holds neither its flow information nor its scope.
-/

namespace ServerFramework

open Numerals

/-- A `sockaddr` in the results of `getaddrinfo`, by its family. -/
inductive Sockaddr where
  | inet (addr : SockaddrIn)
  | inet6 (addr : SockaddrIn6)
  | other (family : BitVec 16)
  deriving DecidableEq, Repr

def Sockaddr.family : Sockaddr → BitVec 16
  | inet _ => afInet
  | inet6 _ => afInet6
  | other family => family

/-- `IPv4Address::Create`, with `inet_pton(AF_INET)` as the host reads its result. -/
def IPv4Address.create (host : Endian) (inetPton : List Char → Option (BitVec 32))
    (address : List Char) (port : BitVec 16) : Option SockaddrIn :=
  (inetPton address).map fun sAddr =>
    { sinFamily := afInet
      sinPort := byteswapOnLittleEndian16 host port
      sAddr := sAddr }

/-- `IPv6Address::Create`, with `inet_pton(AF_INET6)`. -/
def IPv6Address.create (host : Endian) (inetPton : List Char → Option (Vector (BitVec 8) 16))
    (address : List Char) (port : BitVec 16) : Option SockaddrIn6 :=
  (inetPton address).map fun s6Addr =>
    { sin6Family := afInet6
      sin6Port := byteswapOnLittleEndian16 host port
      sin6Flowinfo := 0
      s6Addr := s6Addr
      sin6ScopeId := 0 }

namespace Address

/-- An `Address`, by its class. -/
inductive Created where
  | ipv4 (addr : SockaddrIn)
  | ipv6 (addr : SockaddrIn6)
  | unknown (family : BitVec 16)
  deriving DecidableEq, Repr

/-- `Address::Create`. -/
def create : Sockaddr → Created
  | .inet addr => .ipv4 addr
  | .inet6 addr => .ipv6 addr
  | .other family => .unknown family

/-- The cast to an `IPAddress` succeeds. -/
def Created.isIP : Created → Bool
  | ipv4 _ | ipv6 _ => true
  | unknown _ => false

/-- The fields of `hints` that are not zero. -/
structure Hints where
  aiFamily : ℤ
  aiSocktype : ℤ
  aiProtocol : ℤ

def afUnspec : ℤ := 0

/-- `getaddrinfo` on a node, a service and hints: its results, or none if it fails. -/
abbrev Getaddrinfo := List Char → Option (List Char) → Hints → Option (List Sockaddr)

section Lookup

variable (getaddrinfo : Getaddrinfo) (host : List Char) (family type protocol : ℤ)

/-- `Address::Lookup`, with what it puts into an empty result. -/
def lookupAll : Bool × List Created :=
  let hints := { aiFamily := family, aiSocktype := type, aiProtocol := protocol }
  match getaddrinfo (lookup host).1 (lookup host).2 hints with
  | none => (false, [])
  | some results => (!results.isEmpty, results.map create)

/-- `Address::LookupAny`. -/
def lookupAny : Option Created :=
  let r := lookupAll getaddrinfo host family type protocol
  if r.1 then r.2.head? else none

/-- `Address::LookupAnyIPAddress`. -/
def lookupAnyIPAddress : Option Created :=
  let r := lookupAll getaddrinfo host family type protocol
  if r.1 then r.2.find? Created.isIP else none

/-- Looking up the host gives the address and nothing else. -/
structure LooksUp (addr : Created) : Prop where
  all : (lookupAll getaddrinfo host family type protocol).1 = true ∧
    ∀ x ∈ (lookupAll getaddrinfo host family type protocol).2, x = addr
  any : lookupAny getaddrinfo host family type protocol = some addr
  anyIPAddress : lookupAnyIPAddress getaddrinfo host family type protocol = some addr

end Lookup

/-- A number in decimal as it is printed, below a bound. -/
def readBelow (bound : ℕ) (cs : List Char) : Option ℕ :=
  (readDigits 10 0 cs).filter fun n => n < bound ∧ dec n = cs

/-- Four bytes between dots. -/
def readQuad (cs : List Char) : Option ℕ :=
  match (cs.splitOn '.').mapM (readBelow 256) with
  | some [a, b, c, d] => some (2 ^ 24 * a + 2 ^ 16 * b + 2 ^ 8 * c + d)
  | _ => none

def readPort (cs : List Char) : Option ℕ := readBelow (2 ^ 16) cs

/-- Addresses of the family are among those asked for. -/
def Asked (family : ℤ) (own : BitVec 16) : Prop := family = afUnspec ∨ family = own.toNat

instance (family : ℤ) (own : BitVec 16) : Decidable (Asked family own) :=
  inferInstanceAs (Decidable (_ ∨ _))

/-- `inet_pton` reads four bytes between dots, and the groups of an IPv6 address. -/
structure ReadsNumeric (host : Endian) (inetPton : List Char → Option (BitVec 32))
    (inetPton6 : List Char → Option (Vector (BitVec 8) 16)) : Prop where
  inet : ∀ address a, readQuad address = some a →
    inetPton address = some (byteswapOnLittleEndian32 host (.ofNat 32 a))
  inet6 : ∀ address bytes, expand address = some (IPv6Address.groups bytes) →
    inetPton6 address = some bytes

/-- The results are of the family that is asked for; nodes and services that are numbers are what
they say, however many sockets of the type and protocol there are. -/
structure Numeric (host : Endian) (getaddrinfo : Getaddrinfo) (type protocol : ℤ) : Prop where
  family : ∀ node service hints results, getaddrinfo node service hints = some results →
    ∀ x ∈ results, Asked hints.aiFamily x.family
  inet : ∀ node service family a port, Asked family afInet → readQuad node = some a →
    readPort service = some port →
    ∃ results, getaddrinfo node (some service) ⟨family, type, protocol⟩ = some results ∧
      results ≠ [] ∧ ∀ x ∈ results, x = .inet
        { sinFamily := afInet
          sinPort := byteswapOnLittleEndian16 host (.ofNat 16 port)
          sAddr := byteswapOnLittleEndian32 host (.ofNat 32 a) }
  inet6 : ∀ node service family bytes port, Asked family afInet6 →
    expand node = some (IPv6Address.groups bytes) → readPort service = some port →
    ∃ results, getaddrinfo node (some service) ⟨family, type, protocol⟩ = some results ∧
      results ≠ [] ∧ ∀ x ∈ results, x = .inet6
        { sin6Family := afInet6
          sin6Port := byteswapOnLittleEndian16 host (.ofNat 16 port)
          sin6Flowinfo := 0
          s6Addr := bytes
          sin6ScopeId := 0 }

section Read

theorem readBelow_dec {bound n : ℕ} (hn : n < bound) : readBelow bound (dec n) = some n := by
  have hread := readDigits_toDigits (b := 10) (by decide) (by decide) n
  rw [readBelow, dec, hread, Option.filter_some, if_pos (by simp [hn, dec])]

theorem eq_dec_of_readBelow {bound n : ℕ} {cs : List Char} (h : readBelow bound cs = some n) :
    cs = dec n := by
  obtain ⟨-, hn⟩ := Option.filter_eq_some_iff.mp h
  exact (of_decide_eq_true hn).2.symm

/-- The bytes between the dots are those of the address. -/
theorem readQuad_dotted (host : Endian) (addr : SockaddrIn) :
    readQuad (IPv4Address.dotted host addr) =
      some (byteswapOnLittleEndian32 host addr.sAddr).toNat := by
  set a := byteswapOnLittleEndian32 host addr.sAddr
  have hbyte : ∀ n, ((a >>> n) &&& 0xff).toNat = a.toNat / 2 ^ n % 256 := by
    intro n
    rw [BitVec.toNat_and, BitVec.toNat_ushiftRight, Nat.shiftRight_eq_div_pow]
    exact Nat.and_two_pow_sub_one_eq_mod _ 8
  have hzero : (a &&& 0xff).toNat = a.toNat % 256 := by
    rw [BitVec.toNat_and]
    exact Nat.and_two_pow_sub_one_eq_mod _ 8
  have htext : IPv4Address.dotted host addr = ['.'].intercalate
      [dec (a.toNat / 2 ^ 24 % 256), dec (a.toNat / 2 ^ 16 % 256), dec (a.toNat / 2 ^ 8 % 256),
        dec (a.toNat % 256)] := by
    simp only [IPv4Address.dotted, ← hbyte, ← hzero]
    simp [List.intercalate, a]
  have hdot : ∀ w ∈ [dec (a.toNat / 2 ^ 24 % 256), dec (a.toNat / 2 ^ 16 % 256),
      dec (a.toNat / 2 ^ 8 % 256), dec (a.toNat % 256)], '.' ∉ w := by
    simp [not_mem_dec (c := '.') (by decide)]
  have hlt : a.toNat < 2 ^ 32 := a.isLt
  rw [readQuad, htext, List.splitOn_intercalate _ hdot (by simp)]
  simp [readBelow_dec (Nat.mod_lt _ (by decide : 0 < 256))]
  omega

end Read

section RoundTrip

variable {getaddrinfo : Getaddrinfo} {host : Endian} {name : List Char}
  {family type protocol : ℤ}

theorem looksUp_of_results {results : List Sockaddr} (addr : Sockaddr)
    (hip : (create addr).isIP = true)
    (hresults : getaddrinfo (lookup name).1 (lookup name).2 ⟨family, type, protocol⟩ =
      some results)
    (hne : results ≠ []) (hall : ∀ x ∈ results, x = addr) :
    LooksUp getaddrinfo name family type protocol (create addr) := by
  have heq : lookupAll getaddrinfo name family type protocol = (true, results.map create) := by
    simp [lookupAll, hresults, hne]
  obtain ⟨x, rest, rfl⟩ := List.exists_cons_of_ne_nil hne
  obtain rfl : x = addr := hall x List.mem_cons_self
  constructor
  · rw [heq]
    refine ⟨rfl, ?_⟩
    intro y hy
    obtain ⟨z, hz, rfl⟩ := List.mem_map.mp hy
    rw [hall z hz]
  · simp [lookupAny, heq]
  · simp [lookupAnyIPAddress, heq, hip]

theorem LooksUp.unique {addr addr' : Created}
    (h : LooksUp getaddrinfo name family type protocol addr)
    (h' : LooksUp getaddrinfo name family type protocol addr') : addr = addr' :=
  Option.some.inj (h.any.symm.trans h'.any)

/-- What is looked up has been made of a result, which is of the family asked for. -/
theorem LooksUp.asked (h : Numeric host getaddrinfo type protocol) {addr : Created}
    (hlooks : LooksUp getaddrinfo name family type protocol addr) :
    ∃ x, create x = addr ∧ Asked family x.family := by
  have hany := hlooks.any
  rw [lookupAny, if_pos hlooks.all.1] at hany
  have hmem := List.mem_of_head? hany
  simp only [lookupAll] at hmem
  split at hmem
  · cases hmem
  · rename_i results hresults
    obtain ⟨x, hx, rfl⟩ := List.mem_map.mp hmem
    exact ⟨x, rfl, h.family _ _ _ _ hresults x hx⟩

theorem looksUp_ipv4 (h : Numeric host getaddrinfo type protocol) (addr : SockaddrIn)
    (hasked : Asked family afInet) :
    LooksUp getaddrinfo (IPv4Address.insert host addr) family type protocol
      (.ipv4 { addr with sinFamily := afInet }) := by
  have hport : readPort (dec (IPv4Address.getPort host addr)) =
      some (IPv4Address.getPort host addr) := readBelow_dec (BitVec.isLt _)
  obtain ⟨results, hresults, hne, hall⟩ :=
    h.inet _ _ _ _ _ hasked (readQuad_dotted host addr) hport
  rw [IPv4Address.getPort, BitVec.ofNat_toNat, BitVec.ofNat_toNat, BitVec.setWidth_eq,
    BitVec.setWidth_eq, byteswap16_byteswap16, IPv4Address.byteswap32_byteswap32] at hall
  apply looksUp_of_results (.inet { addr with sinFamily := afInet }) rfl _ hne hall
  rw [lookup_ipv4]
  exact hresults

theorem looksUp_ipv6 (h : Numeric host getaddrinfo type protocol) (addr : SockaddrIn6)
    (hasked : Asked family afInet6) :
    LooksUp getaddrinfo (IPv6Address.insert host addr) family type protocol
      (.ipv6 { addr with sin6Family := afInet6, sin6Flowinfo := 0, sin6ScopeId := 0 }) := by
  have hport : readPort (dec (IPv6Address.getPort host addr)) =
      some (IPv6Address.getPort host addr) := readBelow_dec (BitVec.isLt _)
  obtain ⟨results, hresults, hne, hall⟩ :=
    h.inet6 _ _ _ _ _ hasked (IPv6Address.expand_body host addr) hport
  rw [IPv6Address.getPort, BitVec.ofNat_toNat, BitVec.setWidth_eq, byteswap16_byteswap16] at hall
  apply looksUp_of_results
    (.inet6 { addr with sin6Family := afInet6, sin6Flowinfo := 0, sin6ScopeId := 0 }) rfl _ hne hall
  rw [lookup_ipv6]
  exact hresults

theorem looksUp_ipv4_iff (h : Numeric host getaddrinfo type protocol) (addr : SockaddrIn) :
    LooksUp getaddrinfo (IPv4Address.insert host addr) family type protocol (.ipv4 addr) ↔
      Asked family afInet ∧ addr.sinFamily = afInet := by
  constructor
  · intro hself
    obtain ⟨x, hx, hasked⟩ := LooksUp.asked h hself
    cases x with
    | inet x =>
      have heq := (looksUp_ipv4 h addr hasked).unique hself
      injection heq with heq
      rw [← heq]
      exact ⟨hasked, rfl⟩
    | inet6 x => cases hx
    | other family => cases hx
  · rintro ⟨hasked, hfamily⟩
    have hlooks := looksUp_ipv4 h addr hasked
    rwa [← hfamily] at hlooks

theorem looksUp_ipv6_iff (h : Numeric host getaddrinfo type protocol) (addr : SockaddrIn6) :
    LooksUp getaddrinfo (IPv6Address.insert host addr) family type protocol (.ipv6 addr) ↔
      Asked family afInet6 ∧ addr.sin6Family = afInet6 ∧ addr.sin6Flowinfo = 0 ∧
        addr.sin6ScopeId = 0 := by
  constructor
  · intro hself
    obtain ⟨x, hx, hasked⟩ := LooksUp.asked h hself
    cases x with
    | inet x => cases hx
    | inet6 x =>
      have heq := (looksUp_ipv6 h addr hasked).unique hself
      injection heq with heq
      rw [← heq]
      exact ⟨hasked, rfl, rfl, rfl⟩
    | other family => cases hx
  · rintro ⟨hasked, hfamily, hflow, hscope⟩
    obtain ⟨_, port, _, bytes, _⟩ := addr
    subst hfamily hflow hscope
    exact looksUp_ipv6 h _ hasked

/-- What `ToString` prints of an IPv4 address is looked up as that address if and only if IPv4
addresses are asked for. What it prints of an IPv6 address is if and only if IPv6 addresses are
asked for, which is not the default, and it has neither flow information nor a scope. -/
theorem lookup_toString (h : Numeric host getaddrinfo type protocol) (family : ℤ)
    (v4 : SockaddrIn) (v6 : SockaddrIn6) :
    (LooksUp getaddrinfo (IPv4Address.insert host v4) family type protocol (.ipv4 v4) ↔
      Asked family afInet ∧ v4.sinFamily = afInet) ∧
    (LooksUp getaddrinfo (IPv6Address.insert host v6) family type protocol (.ipv6 v6) ↔
      Asked family afInet6 ∧ v6.sin6Family = afInet6 ∧ v6.sin6Flowinfo = 0 ∧
        v6.sin6ScopeId = 0) :=
  ⟨looksUp_ipv4_iff h v4, looksUp_ipv6_iff h v6⟩

end RoundTrip

/-- `Create` reads back what `ToString` prints of an address, its port apart, if that is an address
of its class and has neither flow information nor a scope. -/
theorem create_toString {host : Endian} {inetPton : List Char → Option (BitVec 32)}
    {inetPton6 : List Char → Option (Vector (BitVec 8) 16)}
    (h : ReadsNumeric host inetPton inetPton6) (v4 : SockaddrIn) (v6 : SockaddrIn6) :
    (IPv4Address.create host inetPton (IPv4Address.dotted host v4)
        (.ofNat 16 (IPv4Address.getPort host v4)) = some v4 ↔ v4.sinFamily = afInet) ∧
      (IPv6Address.create host inetPton6 (IPv6Address.body host v6)
        (.ofNat 16 (IPv6Address.getPort host v6)) = some v6 ↔
          v6.sin6Family = afInet6 ∧ v6.sin6Flowinfo = 0 ∧ v6.sin6ScopeId = 0) := by
  constructor
  · rw [IPv4Address.create, h.inet _ _ (readQuad_dotted host v4), Option.map_some,
      IPv4Address.getPort, BitVec.ofNat_toNat, BitVec.ofNat_toNat, BitVec.setWidth_eq,
      BitVec.setWidth_eq, byteswap16_byteswap16, IPv4Address.byteswap32_byteswap32, Option.some_inj]
    constructor
    · intro heq
      rw [← heq]
    · intro hfamily
      rw [← hfamily]
  · rw [IPv6Address.create, h.inet6 _ _ (IPv6Address.expand_body host v6), Option.map_some,
      IPv6Address.getPort, BitVec.ofNat_toNat, BitVec.setWidth_eq, byteswap16_byteswap16,
      Option.some_inj]
    constructor
    · intro heq
      rw [← heq]
      exact ⟨rfl, rfl, rfl⟩
    · obtain ⟨_, port, _, bytes, _⟩ := v6
      rintro ⟨hfamily, hflow, hscope⟩
      subst hfamily hflow hscope
      rfl

section Resolver

/-- The bytes of the groups. -/
def ofGroups (gs : List ℕ) : Vector (BitVec 8) 16 :=
  .ofFn fun i =>
    .ofNat 8 (if i.val % 2 = 0 then gs.getD (i.val / 2) 0 / 256 else gs.getD (i.val / 2) 0 % 256)

/-- What a node is that is a number. -/
def readNode (host : Endian) (port : BitVec 16) (node : List Char) : Option Sockaddr :=
  if ':' ∈ node then (expand node).map fun gs => .inet6 ⟨afInet6, port, 0, ofGroups gs, 0⟩
  else (readQuad node).map fun a =>
    .inet ⟨afInet, port, byteswapOnLittleEndian32 host (.ofNat 32 a)⟩

/-- A resolver that knows numbers only. -/
def numericOnly (host : Endian) : Getaddrinfo := fun node service hints => do
  let port ← readPort (← service)
  let addr ← readNode host (byteswapOnLittleEndian16 host (.ofNat 16 port)) node
  if Asked hints.aiFamily addr.family then return [addr] else none

theorem ofGroups_groups (bytes : Vector (BitVec 8) 16) :
    ofGroups (IPv6Address.groups bytes) = bytes := by
  ext k hk : 1
  have hlow := (bytes.get ⟨2 * (k / 2) + 1, by omega⟩).isLt
  have hgroup : (IPv6Address.groups bytes).getD (k / 2) 0 =
      256 * (bytes.get ⟨2 * (k / 2), by omega⟩).toNat +
        (bytes.get ⟨2 * (k / 2) + 1, by omega⟩).toNat := by
    have hlt : k / 2 < 8 := by omega
    rw [List.getD_eq_getElem?_getD, IPv6Address.groups, List.getElem?_ofFn, dif_pos hlt,
      Option.getD_some]
  rw [ofGroups, Vector.getElem_ofFn]
  change BitVec.ofNat 8 (if k % 2 = 0 then (IPv6Address.groups bytes).getD (k / 2) 0 / 256
    else (IPv6Address.groups bytes).getD (k / 2) 0 % 256) = bytes.get ⟨k, hk⟩
  rw [hgroup]
  split_ifs with hmod
  · have hk2 : (⟨2 * (k / 2), by omega⟩ : Fin 16) = ⟨k, hk⟩ := Fin.ext (by dsimp only; omega)
    rw [hk2, Nat.mul_add_div (by decide), Nat.div_eq_of_lt hlow, Nat.add_zero,
      BitVec.ofNat_toNat, BitVec.setWidth_eq]
  · have hk2 : (⟨2 * (k / 2) + 1, by omega⟩ : Fin 16) = ⟨k, hk⟩ :=
      Fin.ext (by dsimp only; omega)
    rw [Nat.mul_add_mod, Nat.mod_eq_of_lt hlow, hk2, BitVec.ofNat_toNat, BitVec.setWidth_eq]

theorem eq_map_of_mapM {α β : Type} {f : α → Option β} {g : β → α}
    (hg : ∀ x y, f x = some y → x = g y) {xs : List α} {ys : List β}
    (h : xs.mapM f = some ys) : xs = ys.map g := by
  induction xs generalizing ys with
  | nil =>
    obtain rfl : [] = ys := by simpa using h
    rfl
  | cons x xs ih =>
    simp only [List.mapM_cons, Option.bind_eq_bind, Option.bind_eq_some_iff] at h
    obtain ⟨y, hy, ys', hys, h⟩ := h
    obtain rfl : y :: ys' = ys := by simpa using h
    rw [List.map_cons, ← hg x y hy, ← ih hys]

theorem colon_not_mem_of_readQuad {node : List Char} {a : ℕ} (h : readQuad node = some a) :
    ':' ∉ node := by
  rw [readQuad] at h
  split at h
  · rename_i n₁ n₂ n₃ n₄ hparts
    have hnode : ['.'].intercalate (node.splitOn '.') = node := List.intercalate_splitOn '.'
    rw [eq_map_of_mapM (fun _ _ => eq_dec_of_readBelow) hparts] at hnode
    rw [← hnode]
    simp [List.intercalate, not_mem_dec (c := ':') (by decide)]
  · cases h

theorem colon_mem_of_expand {node : List Char} {gs : List ℕ} (h : expand node = some gs) :
    ':' ∈ node := by
  by_contra hcolon
  have hsplit := IPv6Address.splitGap_append hcolon []
  rw [List.append_nil] at hsplit
  have hlen : ∀ gs', readGroups node = some gs' → gs'.length < 8 := by
    intro gs' hgs
    rw [readGroups, List.splitOn_eq_singleton hcolon] at hgs
    split_ifs at hgs
    · obtain rfl := Option.some.inj hgs
      decide
    · simp only [List.mapM_cons, List.mapM_nil, Option.bind_eq_bind, Option.bind_eq_some_iff,
        Option.pure_def, Option.some.injEq] at hgs
      obtain ⟨g, -, _, rfl, rfl⟩ := hgs
      simp
  rw [expand, hsplit] at h
  simp only [splitGap, List.append_nil] at h
  split at h
  · rename_i gs' hgs
    exact absurd (hlen gs' hgs) (by split_ifs at h; omega)
  · cases h

theorem numeric_numericOnly (host : Endian) : Numeric host (numericOnly host) 0 0 where
  family := by
    intro node service hints results h x hx
    simp only [numericOnly, Option.bind_eq_bind, Option.bind_eq_some_iff] at h
    obtain ⟨_, _, port, _, addr, _, h⟩ := h
    split_ifs at h with hasked
    obtain rfl := Option.some.inj h
    obtain rfl := List.mem_singleton.mp hx
    exact hasked
  inet := by
    intro node service family a port hasked ha hport
    simp [numericOnly, readNode, hport, ha, colon_not_mem_of_readQuad ha, Sockaddr.family, hasked]
  inet6 := by
    intro node service family bytes port hasked hexpand hport
    simp [numericOnly, readNode, hport, hexpand, colon_mem_of_expand hexpand, ofGroups_groups,
      Sockaddr.family, hasked]

theorem readsNumeric_readQuad (host : Endian) :
    ReadsNumeric host
      (fun address => (readQuad address).map fun a => byteswapOnLittleEndian32 host (.ofNat 32 a))
      (fun address => (expand address).map ofGroups) where
  inet address a ha := by rw [ha, Option.map_some]
  inet6 address bytes hbytes := by rw [hbytes, Option.map_some, ofGroups_groups]

theorem create_toString_readQuad : IPv4Address.create .big
    (fun address => (readQuad address).map fun a => byteswapOnLittleEndian32 .big (.ofNat 32 a))
    ['1', '0', '.', '0', '.', '0', '.', '2', '5', '5'] 80 = some ⟨afInet, 80, 0x0A0000FF⟩ :=
  (create_toString (readsNumeric_readQuad .big) ⟨afInet, 80, 0x0A0000FF⟩
    ⟨afInet6, 0, 0, Vector.replicate 16 0, 0⟩).1.mpr rfl

/-- By default the text of `::1` is not looked up as that address. -/
theorem lookup_toString_numericOnly :
    LooksUp (numericOnly .little)
      (IPv4Address.insert .little ⟨afInet, 0x5000, 0x0100007F⟩) 2 0 0
      (.ipv4 ⟨afInet, 0x5000, 0x0100007F⟩) ∧
    ¬ LooksUp (numericOnly .little)
      (IPv6Address.insert .little ⟨afInet6, 0x5000, 0, ofGroups [0, 0, 0, 0, 0, 0, 0, 1], 0⟩)
      2 0 0 (.ipv6 ⟨afInet6, 0x5000, 0, ofGroups [0, 0, 0, 0, 0, 0, 0, 1], 0⟩) := by
  have h := lookup_toString (numeric_numericOnly .little) 2 ⟨afInet, 0x5000, 0x0100007F⟩
    ⟨afInet6, 0x5000, 0, ofGroups [0, 0, 0, 0, 0, 0, 0, 1], 0⟩
  constructor
  · exact h.1.mpr (by decide)
  · intro hlooks
    exact absurd (h.2.mp hlooks).1 (by decide)

end Resolver

end Address

end ServerFramework
