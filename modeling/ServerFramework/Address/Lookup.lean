import Mathlib.Data.List.TakeWhile
import ServerFramework.Address.Text

/-! # Host and service

`Address::Lookup` looks for a service behind a bracket first, and behind a colon if there is no
bracket. The search for a second colon leaves the pointer to the first one behind when it succeeds:
an IPv6 address without brackets is looked up with a part of itself as its service.
-/

namespace ServerFramework

open Numerals

namespace Address

/-- `memchr` for `c` in the `n` characters from `start`, as an index. -/
def memchr (s : List Char) (start n : ℕ) (c : Char) : Option ℕ :=
  (((s.drop start).take n).findIdx? (· == c)).map (start + ·)

/-- What a function that takes a C string sees. -/
def cStr (s : List Char) : List Char := s.takeWhile (· ≠ '\x00')

/-- `node` and the pointer `service` after the brackets are read. -/
def readBrackets (host : List Char) : List Char × Option ℕ :=
  if host.head? = some '[' then
    match memchr host 1 (host.length - 1) ']' with
    | some endipv6 =>
      ((host.drop 1).take (endipv6 - 1),
        if host[endipv6 + 1]? = some ':' then some (endipv6 + 2) else none)
    | none => ([], none)
  else ([], none)

/-- `node` and the pointer `service` after the colon is read. -/
def readColon (host : List Char) : List Char × Option ℕ :=
  match memchr host 0 host.length ':' with
  | some service =>
    match memchr host (service + 1) (host.length - service - 1) ':' with
    | none => (host.take service, some (service + 1))
    | some _ => ([], some service)
  | none => ([], none)

/-- The node and the service with which `Lookup` calls `getaddrinfo`. -/
def lookup (host : List Char) : List Char × Option (List Char) :=
  let s := readBrackets host
  let s := if s.1 = [] then readColon host else s
  let node := if s.1 = [] then host else s.1
  (cStr node, s.2.map fun service => cStr (host.drop service))

/-- How a host is to be split into a node and a service. -/
inductive Splits : List Char → List Char × Option (List Char) → Prop
  | bracketService {n s : List Char} : n ≠ [] → ']' ∉ n →
      Splits (['['] ++ n ++ [']', ':'] ++ s) (n, some s)
  | bracket {n : List Char} : n ≠ [] → ']' ∉ n → Splits (['['] ++ n ++ [']']) (n, none)
  | service {n s : List Char} : n ≠ [] → n.head? ≠ some '[' → (n ++ [':'] ++ s).count ':' = 1 →
      Splits (n ++ [':'] ++ s) (n, some s)
  | whole {host : List Char} : host ≠ [] → host.head? ≠ some '[' → host.count ':' ≠ 1 →
      Splits host (host, none)

/-- `Lookup` splits the host as it should. -/
def SplitsRight (host : List Char) : Prop := ∀ p, Splits host p → lookup host = p

section Memchr

variable {c : Char}

theorem memchr_append (pre : List Char) {w : List Char} (hw : c ∉ w) (rest : List Char) {n : ℕ}
    (hn : w.length < n) :
    memchr (pre ++ w ++ c :: rest) pre.length n c = some (pre.length + w.length) := by
  obtain ⟨m, rfl⟩ : ∃ m, n = w.length + (m + 1) := ⟨n - w.length - 1, by omega⟩
  have hnone : w.findIdx? (· == c) = none := by
    rw [List.findIdx?_eq_none_iff]
    intro x hx
    have hne : x ≠ c := ne_of_mem_of_not_mem hx hw
    simpa using hne
  rw [memchr, List.append_assoc, List.drop_left, List.take_length_add_append,
    List.take_succ_cons, List.findIdx?_append, hnone]
  simp [List.findIdx?_cons]

theorem memchr_eq_none_iff {s : List Char} {start n : ℕ} :
    memchr s start n c = none ↔ c ∉ (s.drop start).take n := by
  rw [memchr, Option.map_eq_none_iff, List.findIdx?_eq_none_iff]
  simp only [beq_eq_false_iff_ne, ne_eq]
  exact ⟨fun h hc => h c hc rfl, fun h x hx => ne_of_mem_of_not_mem hx h⟩

end Memchr

section Scan

variable {n s : List Char}

@[simp] theorem drop_behind (c : Char) : (n ++ c :: s).drop (n.length + 1) = s := by
  rw [List.drop_length_add_append, List.drop_one, List.tail_cons]

/-- Brackets around a name, with or without something behind them. -/
theorem readBrackets_eq (hn : ']' ∉ n) :
    readBrackets (['['] ++ n ++ ']' :: s) =
      (n, if s.head? = some ':' then some (n.length + 3) else none) := by
  have hfind : memchr (['['] ++ n ++ ']' :: s) 1 _ ']' = some (1 + n.length) :=
    memchr_append ['['] hn s (n := n.length + (s.length + 1)) (by omega)
  have hlen : (['['] ++ n ++ ']' :: s).length - 1 = n.length + (s.length + 1) := by simp
  have hnext : (['['] ++ n ++ ']' :: s)[1 + n.length + 1]? = s.head? := by
    rw [List.getElem?_append_right (by simp)]
    simp [Nat.add_comm 1, List.head?_eq_getElem?]
  rw [readBrackets, if_pos (by rfl), hlen]
  simp only [hfind, hnext]
  simp [Nat.add_comm]

theorem readBrackets_of_head {host : List Char} (hhost : host.head? ≠ some '[') :
    readBrackets host = ([], none) := if_neg hhost

theorem readColon_of_not_mem {host : List Char} (hhost : ':' ∉ host) :
    readColon host = ([], none) := by
  have hfind : memchr host 0 host.length ':' = none := by
    rwa [memchr_eq_none_iff, List.drop_zero, List.take_length]
  rw [readColon, hfind]

theorem readColon_eq (hn : ':' ∉ n) :
    readColon (n ++ ':' :: s) =
      if ':' ∈ s then ([], some n.length) else (n, some (n.length + 1)) := by
  have hfind : memchr (n ++ ':' :: s) 0 _ ':' = some (0 + n.length) :=
    memchr_append [] hn s (n := (n ++ ':' :: s).length) (by simp)
  have hdrop : ((n ++ ':' :: s).drop (n.length + 1)).take
      ((n ++ ':' :: s).length - n.length - 1) = s := by
    simp
  have hnext : memchr (n ++ ':' :: s) (n.length + 1) ((n ++ ':' :: s).length - n.length - 1) ':' =
      none ↔ ':' ∉ s := by
    rw [memchr_eq_none_iff, hdrop]
  rw [readColon, hfind]
  simp only [Nat.zero_add]
  split_ifs with hs
  · obtain ⟨i, hi⟩ := Option.ne_none_iff_exists'.mp fun h => hnext.mp h hs
    simp only [hi]
  · simp only [hnext.mpr hs, List.take_left]

end Scan

section Lookup

variable {n s : List Char}

theorem lookup_brackets (hne : n ≠ []) (hn : ']' ∉ n) :
    lookup (['['] ++ n ++ ']' :: s) =
      (cStr n, if s.head? = some ':' then some (cStr s.tail) else none) := by
  have hdrop : (['['] ++ n ++ ']' :: s).drop (n.length + 3) = s.tail := by
    rw [List.append_assoc, List.singleton_append, List.drop_succ_cons]
    simp [List.drop_append]
  simp only [lookup, readBrackets_eq hn, hne, if_false]
  by_cases hs : s.head? = some ':'
  · simp only [hs, if_true, Option.map_some, hdrop]
  · simp only [hs, if_false, Option.map_none]

theorem lookup_of_not_mem {host : List Char} (hhead : host.head? ≠ some '[')
    (hhost : ':' ∉ host) : lookup host = (cStr host, none) := by
  simp [lookup, readBrackets_of_head hhead, readColon_of_not_mem hhost]

theorem lookup_colon (hne : n ≠ []) (hhead : (n ++ ':' :: s).head? ≠ some '[') (hn : ':' ∉ n)
    (hs : ':' ∉ s) : lookup (n ++ ':' :: s) = (cStr n, some (cStr s)) := by
  simp only [lookup, readBrackets_of_head hhead, readColon_eq hn, hs, hne, if_true, if_false,
    Option.map_some, drop_behind]

/-- Behind the second of two colons the pointer still stands on the first. -/
theorem lookup_colons (hhead : (n ++ ':' :: s).head? ≠ some '[') (hn : ':' ∉ n) (hs : ':' ∈ s) :
    lookup (n ++ ':' :: s) = (cStr (n ++ ':' :: s), some (cStr (':' :: s))) := by
  simp only [lookup, readBrackets_of_head hhead, readColon_eq hn, hs, if_true, Option.map_some,
    List.drop_left]

theorem cStr_eq_iff : cStr s = s ↔ '\x00' ∉ s := by
  rw [cStr, List.takeWhile_eq_self_iff]
  simp only [decide_eq_true_eq]
  exact ⟨fun h hs => h _ hs rfl, fun h x hx => ne_of_mem_of_not_mem hx h⟩

/-- A host with one colon has none on either side of it. -/
theorem not_mem_of_count (h : (n ++ [':'] ++ s).count ':' = 1) : ':' ∉ n ∧ ':' ∉ s := by
  simp only [List.count_append, List.count_singleton_self] at h
  constructor <;> rw [← List.count_eq_zero] <;> omega

/-- A host with a form is split by it unless a C string ends inside or there are two colons. -/
theorem lookup_eq_iff {host : List Char} {p : List Char × Option (List Char)}
    (h : Splits host p) :
    lookup host = p ↔ '\x00' ∉ host ∧ (host.head? = some '[' ∨ host.count ':' ≤ 1) := by
  cases h with
  | @bracketService n s hne hn =>
    have hform : ['['] ++ n ++ [']', ':'] ++ s = ['['] ++ n ++ ']' :: ':' :: s := by simp
    rw [hform, lookup_brackets hne hn]
    simp [cStr_eq_iff]
  | @bracket n hne hn =>
    rw [lookup_brackets hne hn]
    simp [cStr_eq_iff]
  | @service n s hne hhead hcount =>
    obtain ⟨hn, hs⟩ := not_mem_of_count hcount
    have hform : n ++ [':'] ++ s = n ++ ':' :: s := by simp
    rw [hform] at hcount ⊢
    rw [lookup_colon hne (by rwa [List.head?_append_of_ne_nil _ hne]) hn hs]
    simp [cStr_eq_iff, hcount]
  | whole hne hhead hcount =>
    by_cases hcolon : ':' ∈ host
    · obtain ⟨n, s, rfl, hn⟩ := List.eq_append_cons_of_mem hcolon
      have hs : ':' ∈ s := by
        rw [List.count_append, List.count_cons_self, List.count_eq_zero.mpr hn] at hcount
        exact List.count_pos_iff.mp (by omega)
      have hmany : 1 < (n ++ ':' :: s).count ':' := by
        have hpos := List.count_pos_iff.mpr hs
        rw [List.count_append, List.count_cons_self]
        omega
      refine iff_of_false ?_ fun h => h.2.elim hhead hmany.not_ge
      rw [lookup_colons hhead hn hs]
      exact fun h => Option.some_ne_none _ (Prod.mk.inj h).2
    · rw [lookup_of_not_mem hhead hcolon]
      simp [cStr_eq_iff, List.count_eq_zero.mpr hcolon]

end Lookup

section ToString

variable (host : Endian)

theorem lookup_ipv4 (addr : SockaddrIn) :
    lookup (IPv4Address.insert host addr) =
      (IPv4Address.dotted host addr, some (dec (IPv4Address.getPort host addr))) := by
  have hdotted : ∀ c, digitValue c = none → c ≠ '.' → c ∉ IPv4Address.dotted host addr := by
    intro c hc hdot
    simp [IPv4Address.dotted, not_mem_dec hc, hdot]
  have hne : IPv4Address.dotted host addr ≠ [] := by simp [IPv4Address.dotted]
  have hform : IPv4Address.insert host addr =
      IPv4Address.dotted host addr ++ ':' :: dec (IPv4Address.getPort host addr) := by
    simp [IPv4Address.insert]
  have hhead : (IPv4Address.insert host addr).head? ≠ some '[' := by
    rw [hform, List.head?_append_of_ne_nil _ hne]
    exact fun h => hdotted '[' (by decide) (by decide) (List.mem_of_head? h)
  rw [hform] at hhead ⊢
  rw [lookup_colon hne hhead (hdotted ':' (by decide) (by decide)) (not_mem_dec (by decide) _),
    cStr_eq_iff.mpr (hdotted _ (by decide) (by decide)),
    cStr_eq_iff.mpr (not_mem_dec (by decide) _)]

theorem lookup_ipv6 (addr : SockaddrIn6) :
    lookup (IPv6Address.insert host addr) =
      (IPv6Address.body host addr, some (dec (IPv6Address.getPort host addr))) := by
  have hne : IPv6Address.body host addr ≠ [] := by
    intro h
    have hexpand := IPv6Address.expand_body host addr
    rw [h] at hexpand
    cases hexpand
  have hform : IPv6Address.insert host addr =
      ['['] ++ IPv6Address.body host addr ++
        ']' :: ':' :: dec (IPv6Address.getPort host addr) := by
    simp [IPv6Address.insert]
  rw [hform, lookup_brackets hne (IPv6Address.not_mem_body (by decide) (by decide) host addr),
    cStr_eq_iff.mpr (IPv6Address.not_mem_body (by decide) (by decide) host addr)]
  simp [cStr_eq_iff.mpr (not_mem_dec (c := '\x00') (by decide) _)]

end ToString

/-- A host that has a form is split as it should be if and only if it holds no terminator and, not
being in brackets, has at most one colon. The texts of addresses are such hosts. -/
theorem splitsRight_iff (name : List Char) (host : Endian) (v4 : SockaddrIn) (v6 : SockaddrIn6) :
    (SplitsRight name ↔ ((∃ p, Splits name p) →
      '\x00' ∉ name ∧ (name.head? = some '[' ∨ name.count ':' ≤ 1))) ∧
    lookup (IPv4Address.insert host v4) =
      (IPv4Address.dotted host v4, some (dec (IPv4Address.getPort host v4))) ∧
    lookup (IPv6Address.insert host v6) =
      (IPv6Address.body host v6, some (dec (IPv6Address.getPort host v6))) := by
  refine ⟨?_, lookup_ipv4 host v4, lookup_ipv6 host v6⟩
  constructor
  · rintro h ⟨p, hp⟩
    exact (lookup_eq_iff hp).mp (h p hp)
  · intro h p hp
    exact (lookup_eq_iff hp).mpr (h ⟨p, hp⟩)

/-- `fe80::1` is looked up with the service `::1`. -/
theorem not_splitsRight_literal : ¬ SplitsRight ['f', 'e', '8', '0', ':', ':', '1'] := by
  intro h
  exact absurd (h _ (.whole (by decide) (by decide) (by decide))) (by decide)

end Address

end ServerFramework
