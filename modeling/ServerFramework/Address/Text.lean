import ServerFramework.Address.Basic
import ServerFramework.ByteArray.Encoding
import ServerFramework.Lib.Keeps
import ServerFramework.Lib.Numerals

/-! # The text of an address

`IPv6Address::Insert` leaves out the first run of zero groups for "::", by a flag that is set when
the run is over; a run that ends the address gets its "::" after the loop. Read by the rule for
IPv6 addresses, the text gives the groups back.
-/

namespace ServerFramework

open Digits Numerals

section Expand

/-- A group is one to four hexadecimal digits. -/
def readGroup (cs : List Char) : Option ℕ :=
  if 1 ≤ cs.length ∧ cs.length ≤ 4 then readDigits 16 0 cs else none

/-- The groups between colons. -/
def readGroups (cs : List Char) : Option (List ℕ) :=
  if cs = [] then some [] else (cs.splitOn ':').mapM readGroup

/-- The text before the first "::", and the one after it if there is one. -/
def splitGap : List Char → List Char × Option (List Char)
  | ':' :: ':' :: cs => ([], some cs)
  | c :: cs => (c :: (splitGap cs).1, (splitGap cs).2)
  | [] => ([], none)

/-- The groups of an address in text form: eight of them, or fewer around a "::" that stands for
the others. -/
def expand (cs : List Char) : Option (List ℕ) :=
  match splitGap cs with
  | (front, none) =>
    match readGroups front with
    | some gs => if gs.length = 8 then some gs else none
    | none => none
  | (front, some back) =>
    match readGroups front, readGroups back with
    | some pre, some post =>
      if pre.length + post.length < 8 then
        some (pre ++ List.replicate (8 - (pre.length + post.length)) 0 ++ post)
      else none
    | _, _ => none

end Expand

/-- What `<<` prints of a number in decimal. -/
def dec (n : ℕ) : List Char := Nat.toDigits 10 n

/-- What `<<` prints after `std::hex`. -/
def hex (n : ℕ) : List Char := Nat.toDigits 16 n

theorem byteswap_two_lt (v : ℕ) : byteswap 2 v < 2 ^ 16 := by
  have hmod := ofLeBytes_mod (leBytes 2 v).reverse
  rw [List.length_reverse, length_leBytes] at hmod
  rw [byteswap, ← hmod]
  exact Nat.mod_lt _ (by decide)

theorem byteswap16_byteswap16 (host : Endian) (v : BitVec 16) :
    byteswapOnLittleEndian16 host (byteswapOnLittleEndian16 host v) = v := by
  cases host with
  | little =>
    have hlt : byteswap 2 v.toNat < 2 ^ 16 := byteswap_two_lt v.toNat
    apply BitVec.eq_of_toNat_eq
    simp only [byteswapOnLittleEndian16, byteswapOnLittleEndian, BitVec.toNat_ofNat,
      Nat.mod_eq_of_lt hlt, byteswap_byteswap]
    have := v.isLt
    omega
  | big => simp [byteswapOnLittleEndian16, byteswapOnLittleEndian]

theorem not_mem_dec {c : Char} (hc : digitValue c = none) (n : ℕ) : c ∉ dec n :=
  not_mem_toDigits (by decide) (by decide) hc n

namespace IPv4Address

variable (host : Endian) (addr : SockaddrIn)

def getPort : ℕ := (byteswapOnLittleEndian16 host addr.sinPort).toNat

/-- The text before the port. -/
def dotted : List Char :=
  let a := byteswapOnLittleEndian32 host addr.sAddr
  dec ((a >>> 24) &&& 0xff).toNat ++ ['.'] ++ dec ((a >>> 16) &&& 0xff).toNat ++ ['.'] ++
    dec ((a >>> 8) &&& 0xff).toNat ++ ['.'] ++ dec (a &&& 0xff).toNat

def insert : List Char := dotted host addr ++ [':'] ++ dec (getPort host addr)

end IPv4Address

namespace IPv6Address

section Insert

variable (host : Endian) (addr : SockaddrIn6)

/-- `IPv6Address(const uint8_t address[16], uint16_t port)`. -/
def new (address : Vector (BitVec 8) 16) (port : BitVec 16) : SockaddrIn6 where
  sin6Family := afInet6
  sin6Port := byteswapOnLittleEndian16 host port
  sin6Flowinfo := 0
  s6Addr := address
  sin6ScopeId := 0

def getPort : ℕ := (byteswapOnLittleEndian16 host addr.sin6Port).toNat

/-- `addr[i]`, as the host reads it. -/
def group (i : Fin 8) : BitVec 16 :=
  .ofNat 16 (ofHostBytes host
    [.ofBitVec (addr.s6Addr.get ⟨2 * i, by omega⟩),
      .ofBitVec (addr.s6Addr.get ⟨2 * i + 1, by omega⟩)])

/-- One round of the loop, on the flag and what is printed so far. -/
def insertGroup (s : Bool × List Char) (i : Fin 8) : Bool × List Char :=
  if group host addr i = 0 ∧ s.1 = false then s
  else
    let s := if i ≠ 0 ∧ group host addr (i - 1) = 0 ∧ s.1 = false then (true, s.2 ++ [':']) else s
    let out := if i ≠ 0 then s.2 ++ [':'] else s.2
    (s.1, out ++ hex (byteswapOnLittleEndian16 host (group host addr i)).toNat)

/-- The text between the brackets. -/
def body : List Char :=
  let (usedZeros, out) := Fin.foldl 8 (insertGroup host addr) (false, [])
  if usedZeros = false ∧ group host addr 7 = 0 then out ++ [':', ':'] else out

def insert : List Char := ['['] ++ body host addr ++ [']', ':'] ++ dec (getPort host addr)

end Insert

/-- The eight groups of an address. -/
def groups (bytes : Vector (BitVec 8) 16) : List ℕ :=
  List.ofFn fun i : Fin 8 =>
    256 * (bytes.get ⟨2 * i, by omega⟩).toNat + (bytes.get ⟨2 * i + 1, by omega⟩).toNat

example : String.ofList (insert .little
    ⟨afInet6, 0x5000, 0, #v[0xfe, 0x80, 0, 0, 0, 0, 0, 0, 2, 0x15, 0x5d, 0xff, 0xfe, 0x88, 0, 0],
      0⟩) = "[fe80::215:5dff:fe88:0]:80" := by decide

/-- Groups with colons between them. -/
def join (gs : List ℕ) : List Char := [':'].intercalate (gs.map hex)

section Read

theorem colon_not_mem_hex (g : ℕ) : ':' ∉ hex g :=
  not_mem_toDigits (by decide) (by decide) (by decide) g

@[simp] theorem join_nil : join [] = [] := rfl

theorem join_singleton (g : ℕ) : join [g] = hex g := by simp [join]

theorem join_cons_cons (g g' : ℕ) (gs : List ℕ) :
    join (g :: g' :: gs) = hex g ++ ':' :: join (g' :: gs) := by
  simp [join, List.intercalate_cons_cons]

theorem join_concat {gs : List ℕ} (hgs : gs ≠ []) (g : ℕ) :
    join (gs ++ [g]) = join gs ++ ':' :: hex g := by
  induction gs with
  | nil => exact absurd rfl hgs
  | cons g' gs ih =>
    cases gs with
    | nil => simp [join_cons_cons, join_singleton]
    | cons g'' gs =>
      rw [List.cons_append, List.cons_append, join_cons_cons, join_cons_cons, List.append_assoc,
        List.cons_append, ← ih (List.cons_ne_nil _ _), List.cons_append]

/-- The text begins with a digit. -/
theorem join_cons_head (g : ℕ) (gs : List ℕ) (t : List Char) :
    (join (g :: gs) ++ t).head? ≠ some ':' := by
  obtain ⟨c, cs, hc⟩ : ∃ c cs, hex g = c :: cs :=
    List.exists_cons_of_ne_nil Nat.toDigits_ne_nil
  have hne : c ≠ ':' := by
    rintro rfl
    have hmem := colon_not_mem_hex g
    rw [hc] at hmem
    exact hmem List.mem_cons_self
  cases gs with
  | nil =>
    rw [join_singleton, hc]
    simpa using hne
  | cons g' gs =>
    rw [join_cons_cons, hc]
    simpa using hne

theorem splitGap_append {w : List Char} (hw : ':' ∉ w) (s : List Char) :
    splitGap (w ++ s) = (w ++ (splitGap s).1, (splitGap s).2) := by
  induction w with
  | nil => rfl
  | cons c w ih =>
    have hc : c ≠ ':' := fun h => hw (h ▸ List.mem_cons_self)
    rw [List.cons_append, splitGap, ih fun h => hw (List.mem_cons_of_mem _ h)]
    · rfl
    · intro _ h
      exact absurd h hc

theorem splitGap_colon {s : List Char} (hs : s.head? ≠ some ':') :
    splitGap (':' :: s) = (':' :: (splitGap s).1, (splitGap s).2) := by
  rw [splitGap]
  rintro t - rfl
  exact hs rfl

/-- There is no "::" in groups with colons between them. -/
theorem splitGap_join (gs : List ℕ) {t : List Char} {r : Option (List Char)}
    (ht : splitGap t = ([], r)) : splitGap (join gs ++ t) = (join gs, r) := by
  induction gs with
  | nil => exact ht
  | cons g gs ih =>
    cases gs with
    | nil => rw [join_singleton, splitGap_append (colon_not_mem_hex g), ht, List.append_nil]
    | cons g' gs =>
      rw [join_cons_cons, List.append_assoc, splitGap_append (colon_not_mem_hex g),
        List.cons_append, splitGap_colon (join_cons_head g' gs t), ih]

theorem readGroup_hex {g : ℕ} (hg : g < 2 ^ 16) : readGroup (hex g) = some g := by
  have hle : (hex g).length ≤ 4 := (Nat.length_toDigits_le_iff (by decide) (by decide)).mpr hg
  rw [readGroup, if_pos ⟨Nat.length_toDigits_pos, hle⟩]
  exact readDigits_toDigits (by decide) (by decide) g

theorem mapM_readGroup {gs : List ℕ} (hgs : ∀ g ∈ gs, g < 2 ^ 16) :
    (gs.map hex).mapM readGroup = some gs := by
  induction gs with
  | nil => rfl
  | cons g gs ih =>
    rw [List.forall_mem_cons] at hgs
    simp [readGroup_hex hgs.1, ih hgs.2]

theorem readGroups_join {gs : List ℕ} (hgs : ∀ g ∈ gs, g < 2 ^ 16) :
    readGroups (join gs) = some gs := by
  cases gs with
  | nil => rfl
  | cons g gs =>
    have hne : join (g :: gs) ≠ [] := by
      cases gs <;> simp [join_singleton, join_cons_cons, hex]
    have hcolon : ∀ w ∈ (g :: gs).map hex, ':' ∉ w := by
      intro w hw
      obtain ⟨g', -, rfl⟩ := List.mem_map.mp hw
      exact colon_not_mem_hex g'
    rw [readGroups, if_neg hne, join, List.splitOn_intercalate _ hcolon (by simp)]
    exact mapM_readGroup hgs

theorem expand_join {gs : List ℕ} (hgs : ∀ g ∈ gs, g < 2 ^ 16) (hlen : gs.length = 8) :
    expand (join gs) = some gs := by
  have hsplit := splitGap_join gs (t := []) rfl
  rw [List.append_nil] at hsplit
  simp [expand, hsplit, readGroups_join hgs, hlen]

theorem expand_gap {pre post : List ℕ} {k : ℕ} (hpre : ∀ g ∈ pre, g < 2 ^ 16)
    (hpost : ∀ g ∈ post, g < 2 ^ 16)
    (hlen : (pre ++ List.replicate (k + 1) 0 ++ post).length = 8) :
    expand (join pre ++ [':', ':'] ++ join post) =
      some (pre ++ List.replicate (k + 1) 0 ++ post) := by
  have hsplit := splitGap_join pre (t := ':' :: ':' :: join post) rfl
  have hsum : pre.length + (k + 1) + post.length = 8 := by
    simpa [Nat.add_assoc] using hlen
  have hgap : 8 - (pre.length + post.length) = k + 1 := by omega
  rw [List.append_assoc, List.cons_append, List.cons_append, List.nil_append, expand, hsplit]
  simp only [readGroups_join hpre, readGroups_join hpost, hgap]
  rw [if_pos (by omega)]

end Read

/-- What the loop has printed of the groups it has passed. -/
inductive Printed : List ℕ → Bool → List Char → Prop
  | plain {gs : List ℕ} : (∀ g ∈ gs, g ≠ 0) → Printed gs false (join gs)
  | run {gs : List ℕ} (k : ℕ) : (∀ g ∈ gs, g ≠ 0) →
      Printed (gs ++ List.replicate (k + 1) 0) false (join gs)
  | gap (pre : List ℕ) (k : ℕ) {post : List ℕ} : post ≠ [] →
      Printed (pre ++ List.replicate (k + 1) 0 ++ post) true (join pre ++ [':', ':'] ++ join post)

/-- One round of the loop, behind the groups `done`. -/
def printGroup (done : List ℕ) (s : Bool × List Char) (g : ℕ) : Bool × List Char :=
  if g = 0 ∧ s.1 = false then s
  else
    let s := if done.getLast? = some 0 ∧ s.1 = false then (true, s.2 ++ [':']) else s
    (s.1, (if done ≠ [] then s.2 ++ [':'] else s.2) ++ hex g)

theorem Printed.printGroup {done : List ℕ} {used : Bool} {out : List Char}
    (h : Printed done used out) (g : ℕ) :
    Printed (done ++ [g]) (printGroup done (used, out) g).1
      (printGroup done (used, out) g).2 := by
  cases h with
  | plain hne =>
    by_cases hg : g = 0
    · subst hg
      exact .run 0 hne
    · have hlast : done.getLast? ≠ some 0 := fun h => hne 0 (List.mem_of_getLast? h) rfl
      have hall : ∀ g' ∈ done ++ [g], g' ≠ 0 := by
        intro g' hg'
        rcases List.mem_append.mp hg' with h | h
        · exact hne g' h
        · rwa [List.mem_singleton.mp h]
      have hout : (if done ≠ [] then join done ++ [':'] else join done) ++ hex g =
          join (done ++ [g]) := by
        split_ifs with hdone
        · rw [join_concat hdone, List.append_assoc, List.singleton_append]
        · rw [not_not.mp hdone, List.nil_append, join_singleton, join_nil, List.nil_append]
      simp only [IPv6Address.printGroup, hg, hlast, false_and, if_false]
      rw [hout]
      exact .plain hall
  | @run gs k hne =>
    by_cases hg : g = 0
    · subst hg
      rw [List.append_assoc, ← List.replicate_succ']
      exact .run (k + 1) hne
    · have hgap := Printed.gap gs k (List.cons_ne_nil g [])
      simpa [IPv6Address.printGroup, hg, join_singleton, List.replicate_succ'] using hgap
  | @gap pre k post hpost =>
    have hgap := Printed.gap pre k (List.append_ne_nil_of_left_ne_nil hpost [g])
    simpa [IPv6Address.printGroup, join_concat hpost] using hgap

section Loop

variable (host : Endian) (addr : SockaddrIn6)

/-- The high byte of a group, and the low one. -/
theorem toNat_byteswap16 (b b' : BitVec 8) :
    (byteswapOnLittleEndian16 host
      (.ofNat 16 (ofHostBytes host [.ofBitVec b, .ofBitVec b']))).toNat =
        256 * b.toNat + b'.toNat := by
  have hb := b.isLt
  have hb' := b'.isLt
  cases host with
  | little =>
    have hswap := leBytes_ofLeBytes [.ofBitVec b, .ofBitVec b']
    have hmod := ofLeBytes_mod [.ofBitVec b, .ofBitVec b']
    simp only [List.length_cons, List.length_nil] at hswap hmod
    rw [byteswapOnLittleEndian16, ofHostBytes, byteswapOnLittleEndian, byteswap,
      BitVec.toNat_ofNat, BitVec.toNat_ofNat, show 2 ^ 16 = 256 ^ (0 + 1 + 1) by rfl, hmod, hswap]
    simp [ofLeBytes]
    omega
  | big =>
    simp [byteswapOnLittleEndian16, byteswapOnLittleEndian, ofHostBytes, ofLeBytes]
    omega

theorem toNat_group (i : Fin 8) :
    (byteswapOnLittleEndian16 host (group host addr i)).toNat =
      256 * (addr.s6Addr.get ⟨2 * i, by omega⟩).toNat +
        (addr.s6Addr.get ⟨2 * i + 1, by omega⟩).toNat :=
  toNat_byteswap16 host _ _

/-- Swapping the bytes keeps a zero group zero, and no other group becomes one. -/
theorem toNat_group_eq_zero (i : Fin 8) :
    (byteswapOnLittleEndian16 host (group host addr i)).toNat = 0 ↔ group host addr i = 0 := by
  have hhigh := (addr.s6Addr.get ⟨2 * i, by omega⟩).isLt
  have hlow := (addr.s6Addr.get ⟨2 * i + 1, by omega⟩).isLt
  have hzero : group host addr i = 0 ↔ (group host addr i).toNat = 0 := by
    rw [← BitVec.toNat_inj]
    rfl
  rw [hzero, toNat_group, group, BitVec.toNat_ofNat]
  cases host <;> simp [ofHostBytes, ofLeBytes] <;> omega

theorem length_groups : (groups addr.s6Addr).length = 8 := List.length_ofFn

theorem getElem?_groups (i : Fin 8) :
    (groups addr.s6Addr)[i.val]? =
      some (byteswapOnLittleEndian16 host (group host addr i)).toNat := by
  rw [toNat_group, groups, List.getElem?_ofFn]
  simp

theorem getLast?_take_groups (i : Fin 8) :
    ((groups addr.s6Addr).take i).getLast? = some 0 ↔ i ≠ 0 ∧ group host addr (i - 1) = 0 := by
  by_cases hi : i = 0
  · simp [hi]
  · have hval : i.val ≠ 0 := fun h => hi (Fin.ext h)
    have hpred : (i - 1).val = i.val - 1 := by omega
    have hget := getElem?_groups host addr (i - 1)
    rw [hpred] at hget
    rw [List.getLast?_take, if_neg hval, hget, Option.some_or, Option.some.injEq,
      toNat_group_eq_zero]
    simp [hi]

theorem insertGroup_eq (s : Bool × List Char) (i : Fin 8) :
    insertGroup host addr s i =
      printGroup ((groups addr.s6Addr).take i) s
        (byteswapOnLittleEndian16 host (group host addr i)).toNat := by
  have hfirst : (groups addr.s6Addr).take i ≠ [] ↔ i ≠ 0 := by
    rw [ne_eq, List.take_eq_nil_iff, ← List.length_eq_zero_iff, length_groups]
    simp
  simp only [insertGroup, printGroup, toNat_group_eq_zero, hfirst,
    getLast?_take_groups host addr, and_assoc]

/-- What the loop prints. -/
theorem printed_groups :
    Printed (groups addr.s6Addr) (Fin.foldl 8 (insertGroup host addr) (false, [])).1
      (Fin.foldl 8 (insertGroup host addr) (false, [])).2 := by
  have hloop := Keeps.foldl_fin (f := insertGroup host addr) (s := (false, []))
    (P := fun i s => Printed ((groups addr.s6Addr).take i) s.1 s.2) (.plain (by simp)) ?_
  · rwa [List.take_of_length_le (length_groups addr).le] at hloop
  · intro i s h
    have hround := h.printGroup (byteswapOnLittleEndian16 host (group host addr i)).toNat
    rw [List.take_add_one, getElem?_groups host addr, insertGroup_eq]
    exact hround

/-- The groups are numbers of 16 bits. -/
theorem groups_lt : ∀ g ∈ groups addr.s6Addr, g < 2 ^ 16 := by
  intro g hg
  obtain ⟨i, rfl⟩ := List.mem_ofFn.mp hg
  have hhigh := (addr.s6Addr.get ⟨2 * i, by omega⟩).isLt
  have hlow := (addr.s6Addr.get ⟨2 * i + 1, by omega⟩).isLt
  omega

theorem getLast?_groups : (groups addr.s6Addr).getLast? = some 0 ↔ group host addr 7 = 0 := by
  have hget : (groups addr.s6Addr)[7]? = _ := getElem?_groups host addr 7
  rw [List.getLast?_eq_getElem?, length_groups, hget, Option.some.injEq, toNat_group_eq_zero]

/-- The text is that of eight groups, or of the groups around a run of zeros. -/
theorem body_eq :
    body host addr = join (groups addr.s6Addr) ∨
      ∃ pre k post, groups addr.s6Addr = pre ++ List.replicate (k + 1) 0 ++ post ∧
        body host addr = join pre ++ [':', ':'] ++ join post := by
  have hprinted := printed_groups host addr
  have hlast := getLast?_groups host addr
  rw [body]
  generalize Fin.foldl 8 (insertGroup host addr) (false, []) = s at hprinted ⊢
  obtain ⟨used, out⟩ := s
  simp only [← hlast] at hprinted ⊢
  generalize groups addr.s6Addr = gs at hprinted
  cases hprinted with
  | plain hne =>
    have hnz : gs.getLast? ≠ some 0 := fun h => hne 0 (List.mem_of_getLast? h) rfl
    left
    rw [if_neg fun h => hnz h.2]
  | @run pre k hne =>
    right
    refine ⟨pre, k, [], (List.append_nil _).symm, ?_⟩
    simp [List.replicate_succ']
  | @gap pre k post hpost =>
    right
    exact ⟨pre, k, post, rfl, by simp⟩

theorem expand_body : expand (body host addr) = some (groups addr.s6Addr) := by
  have hlt := groups_lt addr
  have hlen := length_groups addr
  rcases body_eq host addr with hbody | ⟨pre, k, post, hgs, hbody⟩
  · rw [hbody, expand_join hlt hlen]
  · rw [hgs] at hlt hlen ⊢
    rw [hbody]
    exact expand_gap (fun g hg => hlt g (by simp [hg])) (fun g hg => hlt g (by simp [hg])) hlen

end Loop

section Characters

variable {c : Char} (hc : digitValue c = none)

include hc

theorem not_mem_join (hcolon : c ≠ ':') (gs : List ℕ) : c ∉ join gs := by
  have hhex : ∀ g, c ∉ hex g := not_mem_toDigits (by decide) (by decide) hc
  induction gs with
  | nil => simp
  | cons g gs ih =>
    cases gs with
    | nil => exact join_singleton g ▸ hhex g
    | cons g' gs => simp [join_cons_cons, hhex g, hcolon, ih]

/-- There are only digits and colons between the brackets. -/
theorem not_mem_body (hcolon : c ≠ ':') (host : Endian) (addr : SockaddrIn6) :
    c ∉ body host addr := by
  rcases body_eq host addr with hbody | ⟨pre, k, post, -, hbody⟩
  · rw [hbody]
    exact not_mem_join hc hcolon _
  · simp [hbody, hcolon, not_mem_join hc hcolon]

end Characters

/-- The groups tell addresses apart. -/
theorem groups_injective : Function.Injective groups := by
  intro bytes bytes' he
  have hgroup : ∀ i : Fin 8,
      bytes.get ⟨2 * i, by omega⟩ = bytes'.get ⟨2 * i, by omega⟩ ∧
        bytes.get ⟨2 * i + 1, by omega⟩ = bytes'.get ⟨2 * i + 1, by omega⟩ := by
    intro i
    have hi := congrFun (List.ofFn_injective he) i
    have hlow := (bytes.get ⟨2 * i + 1, by omega⟩).isLt
    have hlow' := (bytes'.get ⟨2 * i + 1, by omega⟩).isLt
    simp only [← BitVec.toNat_inj]
    omega
  apply Vector.ext
  intro k hk
  change bytes.get ⟨k, hk⟩ = bytes'.get ⟨k, hk⟩
  obtain ⟨heven, hodd⟩ := hgroup ⟨k / 2, by omega⟩
  rcases Nat.mod_two_eq_zero_or_one k with hmod | hmod
  · have hk2 : 2 * (k / 2) = k := by omega
    simpa only [hk2] using heven
  · have hk2 : 2 * (k / 2) + 1 = k := by omega
    simpa only [hk2] using hodd

theorem getPort_new (host : Endian) (address : Vector (BitVec 8) 16) (port : BitVec 16) :
    getPort host (new host address port) = port.toNat :=
  congrArg BitVec.toNat (byteswap16_byteswap16 host port)

/-- The memory of the port holds it in network order. -/
theorem hostBytes_sin6Port (host : Endian) (addr : SockaddrIn6) :
    hostBytes host 2 addr.sin6Port.toNat = hostBytes .big 2 (getPort host addr) := by
  have hport : addr.sin6Port.toNat =
      if Endian.big ≠ host then byteswap 2 (getPort host addr) else getPort host addr := by
    have hback := congrArg BitVec.toNat (byteswap16_byteswap16 host addr.sin6Port)
    cases host with
    | little =>
      have hlt : byteswap 2 (getPort .little addr) < 2 ^ 16 := byteswap_two_lt _
      rw [← hback, if_pos (by decide)]
      exact Nat.mod_eq_of_lt hlt
    | big => exact (Nat.mod_eq_of_lt addr.sin6Port.isLt).symm
  rw [hport]
  exact hostBytes_swap host .big 2 (getPort host addr)

/-- The text between the brackets denotes the address, and the one behind them the port, which is
the one in memory and the one that the constructor was given; no two addresses with ports have the
same text. -/
theorem insert_denotes (host : Endian) (addr : SockaddrIn6) :
    (∃ text, insert host addr = ['['] ++ text ++ [']', ':'] ++ dec (getPort host addr) ∧
        ']' ∉ text ∧ expand text = some (groups addr.s6Addr)) ∧
      (hostBytes host 2 addr.sin6Port.toNat = hostBytes .big 2 (getPort host addr) ∧
        ∀ address port, getPort host (new host address port) = port.toNat) ∧
      ∀ addr' : SockaddrIn6, insert host addr = insert host addr' →
        addr.s6Addr = addr'.s6Addr ∧ getPort host addr = getPort host addr' := by
  have hbracket : ∀ addr', ']' ∉ body host addr' := not_mem_body (by decide) (by decide) host
  refine ⟨⟨body host addr, rfl, hbracket addr, expand_body host addr⟩,
    ⟨hostBytes_sin6Port host addr, getPort_new host⟩, ?_⟩
  intro addr' he
  simp only [insert, List.append_assoc, List.cons_append, List.nil_append] at he
  have hport : ']' ∉ ':' :: dec (getPort host addr) := by
    simp [not_mem_dec (c := ']') (by decide)]
  have hparts := (List.append_cons_inj_of_notMem (hbracket addr) hport).mp (List.cons.inj he).2
  constructor
  · apply groups_injective
    rw [← Option.some_inj, ← expand_body host addr, hparts.1, expand_body]
  · exact toDigits_injective (by decide) (by decide) (List.cons.inj hparts.2.2).2

end IPv6Address

end ServerFramework
