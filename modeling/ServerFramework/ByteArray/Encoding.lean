import Mathlib.Tactic.Linarith
import ServerFramework.ByteArray.Codec
import ServerFramework.ByteArray.Memory

/-! # What the typed writers put and the typed readers consume

`Puts` and `Consumes` say what a program does to the data of a well-formed array in a
given byte order; both compose along sequencing. Every writer puts an encoding that
depends on the value and the byte order only, and the reader of the same type consumes
exactly that encoding.
-/

namespace ServerFramework

open Digits Overwrite

theorem toNat_ofNat_of_lt {w n : ℕ} (h : n < 2 ^ w) : (BitVec.ofNat w n).toNat = n := by
  rw [BitVec.toNat_ofNat, Nat.mod_eq_of_lt h]

section Fixed

variable (host e : Endian) (n v : ℕ)

theorem byteswap_byteswap : byteswap n (byteswap n v) = v % 256 ^ n := by
  have h := leBytes_ofLeBytes (leBytes n v).reverse
  rw [List.length_reverse, length_leBytes] at h
  rw [byteswap, byteswap, h, List.reverse_reverse, ofLeBytes_leBytes]

/-- Copying in host order after the conditional swap gives the bytes in the wanted order. -/
theorem hostBytes_swap :
    hostBytes host n (if e ≠ host then byteswap n v else v) = hostBytes e n v := by
  have h := leBytes_ofLeBytes (leBytes n v).reverse
  rw [List.length_reverse, length_leBytes] at h
  cases host <;> cases e <;> simp [hostBytes, byteswap, h]

theorem ofHostBytes_swap :
    (if e = host then ofHostBytes host (hostBytes e n v)
      else byteswap n (ofHostBytes host (hostBytes e n v))) = v % 256 ^ n := by
  have hs := byteswap_byteswap n v
  rw [byteswap, byteswap] at hs
  cases host <;> cases e <;> simp [hostBytes, ofHostBytes, byteswap, ofLeBytes_leBytes, hs]

@[simp] theorem length_hostBytes : (hostBytes e n v).length = n := by
  cases e <;> simp [hostBytes]

end Fixed

section Zigzag

/-- Zigzag sends the negative numbers to the odd ones and the others to the even ones. -/
theorem toNat_encodeZigzag {w : ℕ} (hw : 2 ≤ w) (v : BitVec w) :
    (encodeZigzag v).toNat =
      if v.toNat < 2 ^ (w - 1) then 2 * v.toNat else 2 * (2 ^ w - v.toNat) - 1 := by
  have hlt := v.isLt
  have hp : 2 ^ w = 2 * 2 ^ (w - 1) := (mul_pow_sub_one (by omega) 2).symm
  have hp2 : 2 ≤ 2 ^ (w - 1) := Nat.le_self_pow (by omega) 2
  have h1 : (1#w).toNat = 1 := toNat_ofNat_of_lt (by omega)
  have h2 : (2#w).toNat = 2 := toNat_ofNat_of_lt (by omega)
  generalize 2 ^ (w - 1) = m at *
  by_cases hc : v.toNat < m
  · have hnn : ¬ v.toInt < 0 := by
      rw [BitVec.toInt_eq_toNat_cond, if_pos (by omega)]
      omega
    rw [encodeZigzag, if_neg hnn, if_pos hc, BitVec.toNat_mul, h2, Nat.mod_eq_of_lt (by omega),
      Nat.mul_comm]
  · have hn : v.toInt < 0 := by
      rw [BitVec.toInt_eq_toNat_cond, if_neg (by omega)]
      omega
    rw [encodeZigzag, if_pos hn, if_neg hc, BitVec.toNat_sub, BitVec.toNat_mul, BitVec.toNat_neg,
      h1, h2, Nat.mod_eq_of_lt (a := 2 ^ w - v.toNat) (by omega)]
    by_cases he : v.toNat = m
    · have hz : (2 ^ w - v.toNat) * 2 % 2 ^ w = 0 := by
        rw [he, hp, show (2 * m - m) * 2 = 2 * m by omega, Nat.mod_self]
      rw [hz, Nat.mod_eq_of_lt (by omega)]
      omega
    · rw [Nat.mod_eq_of_lt (a := (2 ^ w - v.toNat) * 2) (by omega),
        show 2 ^ w - 1 + (2 ^ w - v.toNat) * 2 = 2 ^ w + (2 * (2 ^ w - v.toNat) - 1) by omega,
        Nat.add_mod_left, Nat.mod_eq_of_lt (by omega)]

theorem decodeZigzag_encodeZigzag {w : ℕ} (hw : 2 ≤ w) (v : BitVec w) :
    decodeZigzag (encodeZigzag v) = v := by
  have hlt := v.isLt
  have he := toNat_encodeZigzag hw v
  have h1 : (1#w).toNat = 1 := toNat_ofNat_of_lt (Nat.one_lt_two_pow (by omega))
  have hand : (encodeZigzag v &&& 1#w).toNat = (encodeZigzag v).toNat % 2 := by
    rw [BitVec.toNat_and, h1, Nat.and_one_is_mod]
  have hshift : (encodeZigzag v >>> 1).toNat = (encodeZigzag v).toNat / 2 := by
    rw [BitVec.toNat_ushiftRight, Nat.shiftRight_eq_div_pow]
  by_cases hc : v.toNat < 2 ^ (w - 1)
  · rw [if_pos hc] at he
    have hz : encodeZigzag v &&& 1#w = 0#w := by
      apply BitVec.eq_of_toNat_eq
      rw [hand, he]
      simp
    apply BitVec.eq_of_toNat_eq
    rw [decodeZigzag, hz, BitVec.neg_zero, BitVec.xor_zero, hshift, he]
    omega
  · rw [if_neg hc] at he
    have ho : encodeZigzag v &&& 1#w = 1#w := by
      apply BitVec.eq_of_toNat_eq
      rw [hand, he, h1]
      omega
    apply BitVec.eq_of_toNat_eq
    rw [decodeZigzag, ho, BitVec.neg_one_eq_allOnes, BitVec.xor_allOnes, BitVec.toNat_not, hshift,
      he]
    omega

theorem decodeZigzag32_encodeZigzag32 (v : Int32) : decodeZigzag32 (encodeZigzag32 v) = v := by
  simp only [decodeZigzag32, encodeZigzag32, decodeZigzag_encodeZigzag (by decide : 2 ≤ 32)]
  rfl

theorem decodeZigzag64_encodeZigzag64 (v : Int64) : decodeZigzag64 (encodeZigzag64 v) = v := by
  simp only [decodeZigzag64, encodeZigzag64, decodeZigzag_encodeZigzag (by decide : 2 ≤ 64)]
  rfl

end Zigzag

section Varint

theorem and_0x7F {n : ℕ} : n &&& 0x7F = n % 128 := Nat.and_two_pow_sub_one_eq_mod n 7

theorem or_0x80 {n : ℕ} (h : n < 128) : n ||| 0x80 = n + 128 := by
  rw [Nat.lor_comm, show (0x80 : ℕ) = 2 ^ 7 * 1 from rfl, ← Nat.two_pow_add_eq_or_of_lt h]
  omega

theorem varintBytes_eq_groups {w : ℕ} (hw : 8 ≤ w) (v : BitVec w) :
    varintBytes v = groups v.toNat := by
  have hp : 2 ^ 8 ≤ 2 ^ w := Nat.pow_le_pow_right (by decide) hw
  induction hn : v.toNat using Nat.strongRecOn generalizing v with
  | ind n ih =>
    subst hn
    have hs : (v >>> 7).toNat = v.toNat / 128 := by
      rw [BitVec.toNat_ushiftRight, Nat.shiftRight_eq_div_pow]
    rw [varintBytes]
    by_cases h : v.toNat ≥ 0x80
    · have hb : (v &&& 0x7F#w ||| 0x80#w).toNat = v.toNat % 128 + 128 := by
        rw [BitVec.toNat_or, BitVec.toNat_and, toNat_ofNat_of_lt (by omega),
          toNat_ofNat_of_lt (by omega), and_0x7F, or_0x80 (by omega)]
      rw [if_pos h, groups_of_le h, hb, ih (v >>> 7).toNat (by omega) _ rfl, hs]
    · rw [if_neg h, groups_of_lt (by omega)]

end Varint

namespace ByteArray

/-- The bytes written, from the start of the array. -/
def content (b : ByteArray) : List UInt8 := b.bytes.take b.size

/-- The bytes not read yet. -/
def rest (b : ByteArray) : List UInt8 := b.content.drop b.position

/-- In byte order `e`, the program puts `bs` behind the data before the position, over what stands
there, and moves the position behind it. -/
def Puts (e : Endian) (m : M Unit) (bs : List UInt8) : Prop :=
  ∀ b : ByteArray, b.Wf → b.endian = e →
    ∃ b', m b = .ok () b' ∧ b'.Wf ∧ b'.endian = e ∧ b'.position = b.position + bs.length ∧
      b'.size = max b.size b'.position ∧
      b'.content.take b'.position = b.content.take b.position ++ bs

/-- In byte order `e`, where the data goes on with `bs`, the program consumes `bs` and
returns `a`. -/
def Consumes {α : Type} (e : Endian) (m : M α) (bs : List UInt8) (a : α) : Prop :=
  ∀ (b : ByteArray) (r : List UInt8), b.Wf → b.endian = e → b.rest = bs ++ r →
    ∃ b', m b = .ok a b' ∧ b'.Wf ∧ b'.endian = e ∧ b'.rest = r

section Rules

variable {α β : Type} {e : Endian} {bs cs : List UInt8}

theorem Puts.seq {m m' : M Unit} (h : Puts e m bs) (h' : Puts e m' cs) :
    Puts e (do m; m') (bs ++ cs) := by
  intro b hb he
  obtain ⟨b₁, h₁, hb₁, he₁, hp₁, hs₁, hc₁⟩ := h b hb he
  obtain ⟨b₂, h₂, hb₂, he₂, hp₂, hs₂, hc₂⟩ := h' b₁ hb₁ he₁
  refine ⟨b₂, ?_, hb₂, he₂, ?_, by omega, by rw [hc₂, hc₁, List.append_assoc]⟩
  · simp only [bind, EStateM.bind, h₁, h₂]
  · rw [hp₂, hp₁, List.length_append, Nat.add_assoc]

theorem Consumes.pure (a : α) : Consumes e (Pure.pure a : M α) [] a :=
  fun b r hb he hr => ⟨b, rfl, hb, he, by simpa using hr⟩

theorem Consumes.bind {m : M α} {f : α → M β} {a : α} {c : β} (h : Consumes e m bs a)
    (h' : Consumes e (f a) cs c) : Consumes e (m >>= f) (bs ++ cs) c := by
  intro b r hb he hr
  obtain ⟨b₁, h₁, hb₁, he₁, hr₁⟩ := h b (cs ++ r) hb he (by rw [hr, List.append_assoc])
  obtain ⟨b₂, h₂, hb₂, he₂, hr₂⟩ := h' b₁ r hb₁ he₁ hr₁
  refine ⟨b₂, ?_, hb₂, he₂, hr₂⟩
  simp only [Bind.bind, EStateM.bind, h₁, h₂]

theorem Consumes.map {m : M α} {a : α} (h : Consumes e m bs a) (f : α → β) :
    Consumes e (do return f (← m)) bs (f a) := by
  have hb := h.bind (f := fun x => (Pure.pure (f x) : M β)) (Consumes.pure (f a))
  rwa [List.append_nil] at hb

end Rules

theorem Wf.length_content {b : ByteArray} (h : b.Wf) : b.content.length = b.size := by
  rw [content, List.length_take, h.length_bytes, Nat.min_eq_left h.size_le_capacity]

theorem Wf.length_rest {b : ByteArray} (h : b.Wf) : b.rest.length = b.getReadSize := by
  rw [rest, List.length_drop, h.length_content, getReadSize]

/-- A range of the data is that range of the memory. -/
theorem content_slice {b : ByteArray} {p n : ℕ} (h : p + n ≤ b.size) :
    (b.content.drop p).take n = (b.bytes.drop p).take n := by
  rw [content, List.drop_take, List.take_take, Nat.min_eq_left (by omega)]

/-- Overwriting the memory, extended as far as needed, overwrites the data. -/
theorem Wf.take_overwrite_bytes {b : ByteArray} (h : b.Wf) (ext buf : List UInt8) :
    (overwrite (b.bytes ++ ext) b.position buf).take (max b.size (b.position + buf.length)) =
      overwrite b.content b.position buf := by
  have hl := h.length_bytes.symm ▸ h.size_le_capacity
  rw [take_overwrite buf h.position_le_size (by rw [List.length_append]; omega),
    List.take_append_of_le_length hl, content]

theorem write_content (heap : Heap) {b : ByteArray} (h : b.Wf) (buf : List UInt8) :
    ∃ b', write heap buf b = .ok () b' ∧ b'.Wf ∧
      b'.content = overwrite b.content b.position buf ∧
      b'.position = b.position + buf.length ∧
      b'.size = max b.size (b.position + buf.length) ∧ b'.endian = b.endian ∧
      b'.baseSize = b.baseSize := by
  obtain ⟨b', ext, hw, hb', hbytes, -, hp, hs, he, hbs⟩ := write_spec heap h buf
  refine ⟨b', hw, hb', ?_, hp, hs, he, hbs⟩
  rw [content, hbytes, hs, h.take_overwrite_bytes]

theorem Wf.take_content {b : ByteArray} (h : b.Wf) :
    b.content.take b.position = b.bytes.take b.position := by
  rw [content, List.take_take, Nat.min_eq_left h.position_le_size]

/-- What stands from the old position on after bytes were put there. -/
theorem rest_after_put {b b₁ : ByteArray} {bs : List UInt8} (hb : b.Wf) (hb₁ : b₁.Wf)
    (hp : b₁.position = b.position + bs.length)
    (hc : b₁.content.take b₁.position = b.content.take b.position ++ bs) :
    ∃ b₂ tail, setPosition b.position b₁ = .ok () b₂ ∧ b₂.Wf ∧ b₂.endian = b₁.endian ∧
      b₂.rest = bs ++ tail ∧ b₂.capacity = b₁.capacity ∧
      b₁.position = b₂.size - tail.length := by
  have hsc := hb₁.size_le_capacity
  have hps := hb₁.position_le_size
  obtain ⟨b₂, h₂, hb₂, hbytes, hp₂, hs₂, he₂, -⟩ :=
    setPosition_spec (v := b.position) hb₁ (by omega)
  have hsize : b₂.size = b₁.size := by omega
  have htake : (b.content.take b.position).length = b.position := by
    rw [List.length_take, hb.length_content, Nat.min_eq_left hb.position_le_size]
  refine ⟨b₂, b₁.content.drop b₁.position, h₂, hb₂, he₂, ?_, ?_, ?_⟩
  · have hcontent : b₂.content = b₁.content := by
      rw [content, content, hbytes, hsize]
    have hsplit := List.take_append_drop b₁.position b₁.content
    rw [hc, List.append_assoc] at hsplit
    rw [rest, hcontent, hp₂]
    conv_lhs => rw [← hsplit]
    exact List.drop_left' htake
  · rw [← hb₁.length_bytes, ← hb₂.length_bytes, hbytes]
  · rw [List.length_drop, hb₁.length_content]
    omega

theorem write_puts (heap : Heap) (e : Endian) (buf : List UInt8) :
    Puts e (write heap buf) buf := by
  intro b hb he
  obtain ⟨b', ext, hw, hb', hbytes, hfit, hp', hs', he', -⟩ := write_spec heap hb buf
  refine ⟨b', hw, hb', by rw [he', he], hp', by rw [hs', hp'], ?_⟩
  have hl : b.position ≤ b.bytes.length :=
    hb.length_bytes.symm ▸ hb.position_le_size.trans hb.size_le_capacity
  have ht : ((b.bytes ++ ext).take b.position ++ buf).length = b.position + buf.length := by
    simp only [List.length_append, List.length_take]
    omega
  rw [hb'.take_content, hb.take_content, hbytes, hp', overwrite, ← ht, List.take_left,
    List.take_append_of_le_length hl]

theorem read_consumes (e : Endian) {bs : List UInt8} (hbs : bs ≠ []) :
    Consumes e (read bs.length) bs bs := by
  intro b r hb he hr
  have hlen := hb.length_rest
  rw [hr, List.length_append] at hlen
  obtain ⟨b', hread, hb', hbytes, hp, hs, he', -⟩ :=
    read_spec hb (List.length_pos_of_ne_nil hbs) (by omega)
  have hdata : (b.bytes.drop b.position).take bs.length = bs := by
    have hle : b.position + bs.length ≤ b.size := by
      have := hb.position_le_size
      unfold getReadSize at hlen
      omega
    rw [← content_slice hle]
    change b.rest.take bs.length = bs
    rw [hr, List.take_left]
  refine ⟨b', by rw [hread, hdata], hb', by rw [he', he], ?_⟩
  have hrest : b'.rest = b.rest.drop bs.length := by
    rw [rest, rest, content, content, hbytes, hp, hs, List.drop_drop]
  rw [hrest, hr, List.drop_left]

section Fixed

variable (heap : Heap) (host e : Endian)

theorem writeFixed_eq (n v : ℕ) {b : ByteArray} (he : b.endian = e) :
    writeFixed heap host n v b = write heap (hostBytes e n v) b := by
  rw [← hostBytes_swap host e, ← he]
  rfl

theorem writeFixed_puts (n v : ℕ) :
    Puts e (writeFixed heap host n v) (hostBytes e n v) := by
  intro b hb he
  rw [writeFixed_eq heap host e n v he]
  exact write_puts heap e (hostBytes e n v) b hb he

theorem readFixed_consumes {n : ℕ} (hn : 0 < n) (v : ℕ) :
    Consumes e (readFixed host n) (hostBytes e n v) (v % 256 ^ n) := by
  intro b r hb he hr
  have hne : hostBytes e n v ≠ [] := List.ne_nil_of_length_pos (by rwa [length_hostBytes])
  have hc := read_consumes e hne
  rw [length_hostBytes] at hc
  obtain ⟨b', hread, hb', he', hr'⟩ := hc b r hb he hr
  refine ⟨b', ?_, hb', he', hr'⟩
  simp only [readFixed, bind, EStateM.bind, hread]
  change EStateM.Result.ok (if b'.endian = host then _ else _) b' = _
  rw [he', ofHostBytes_swap]

theorem readFuint8_consumes (v : UInt8) : Consumes e readFuint8 [v] v := by
  have h := (read_consumes e (List.cons_ne_nil v [])).map fun bs => UInt8.ofNat (ofLeBytes bs)
  have hv : UInt8.ofNat (ofLeBytes [v]) = v := by simp [ofLeBytes]
  simp only [hv] at h
  exact h

theorem readFint8_consumes (v : Int8) : Consumes e readFint8 [v.toUInt8] v := by
  have h := (read_consumes e (List.cons_ne_nil v.toUInt8 [])).map fun bs =>
    (UInt8.ofNat (ofLeBytes bs)).toInt8
  have hv : (UInt8.ofNat (ofLeBytes [v.toUInt8])).toInt8 = v := by simp [ofLeBytes]
  simp only [hv] at h
  exact h

/-- A reader that converts the integer it finds. -/
theorem readFixed_map {α : Type} {n v : ℕ} {f : ℕ → α} {a : α} (hn : 0 < n) (hv : v < 256 ^ n)
    (hf : f v = a) : Consumes e (do return f (← readFixed host n)) (hostBytes e n v) a := by
  have h := (readFixed_consumes host e hn v).map f
  rwa [Nat.mod_eq_of_lt hv, hf] at h

theorem readFuint16_consumes (v : UInt16) :
    Consumes e (readFuint16 host) (hostBytes e 2 v.toNat) v :=
  readFixed_map host e (by decide) v.toNat_lt UInt16.ofNat_toNat

theorem readFint16_consumes (v : Int16) :
    Consumes e (readFint16 host) (hostBytes e 2 v.toUInt16.toNat) v :=
  readFixed_map host e (by decide) v.toUInt16.toNat_lt (by simp)

theorem readFuint32_consumes (v : UInt32) :
    Consumes e (readFuint32 host) (hostBytes e 4 v.toNat) v :=
  readFixed_map host e (by decide) v.toNat_lt UInt32.ofNat_toNat

theorem readFint32_consumes (v : Int32) :
    Consumes e (readFint32 host) (hostBytes e 4 v.toUInt32.toNat) v :=
  readFixed_map host e (by decide) v.toUInt32.toNat_lt (by simp)

theorem readFuint64_consumes (v : UInt64) :
    Consumes e (readFuint64 host) (hostBytes e 8 v.toNat) v :=
  readFixed_map host e (by decide) v.toNat_lt UInt64.ofNat_toNat

theorem readFint64_consumes (v : Int64) :
    Consumes e (readFint64 host) (hostBytes e 8 v.toUInt64.toNat) v :=
  readFixed_map host e (by decide) v.toUInt64.toNat_lt (by simp)

end Fixed

section Varint

variable (heap : Heap) (e : Endian)

/-- One group is put above the bits read so far. -/
theorem or_shiftLeft {w i g : ℕ} {result : BitVec w} (hres : result.toNat < 2 ^ i)
    (hg : g * 2 ^ i < 2 ^ w) :
    (result ||| (BitVec.ofNat w g <<< i)).toNat = result.toNat + g * 2 ^ i := by
  have hp : 1 ≤ 2 ^ i := Nat.one_le_two_pow
  have hgw : g < 2 ^ w := lt_of_le_of_lt (Nat.le_mul_of_pos_right g hp) hg
  rw [BitVec.toNat_or, BitVec.toNat_shiftLeft, toNat_ofNat_of_lt hgw, Nat.shiftLeft_eq,
    Nat.mod_eq_of_lt hg, Nat.lor_comm, Nat.mul_comm g, ← Nat.two_pow_add_eq_or_of_lt hres,
    Nat.add_comm]

theorem readVarint_last {w i g : ℕ} {result : BitVec w} (hi : i < w) (hg : g < 128) :
    Consumes e (readVarint i result) [UInt8.ofNat g]
      (result ||| (BitVec.ofNat w g <<< i)) := by
  have hb : (UInt8.ofNat g).toNat = g := by
    rw [UInt8.toNat_ofNat', Nat.mod_eq_of_lt (by omega)]
  have hlt : UInt8.ofNat g < 0x80 := by
    rw [UInt8.lt_iff_toNat_lt, hb]
    exact hg
  rw [readVarint, if_pos hi, ← List.append_nil [UInt8.ofNat g]]
  apply (readFuint8_consumes e _).bind
  rw [if_pos hlt, hb]
  exact Consumes.pure _

theorem readVarint_more {w i g : ℕ} {result c : BitVec w} {bs : List UInt8} (hi : i < w)
    (hg : g < 128)
    (h : Consumes e (readVarint (i + 7) (result ||| (BitVec.ofNat w g <<< i))) bs c) :
    Consumes e (readVarint i result) (UInt8.ofNat (g + 128) :: bs) c := by
  have hb : (UInt8.ofNat (g + 128)).toNat = g + 128 := by
    rw [UInt8.toNat_ofNat', Nat.mod_eq_of_lt (by omega)]
  have hlt : ¬ UInt8.ofNat (g + 128) < 0x80 := by
    rw [UInt8.lt_iff_toNat_lt, hb]
    simp
  have hand : (UInt8.ofNat (g + 128) &&& 0x7f).toNat = g := by
    rw [UInt8.toNat_and, hb]
    change (g + 128) &&& 0x7F = g
    rw [and_0x7F]
    omega
  rw [readVarint, if_pos hi]
  apply (readFuint8_consumes e _).bind
  rw [if_neg hlt, hand]
  exact h

/-- The loop adds the number its groups stand for, above the bits it has read. -/
theorem readVarint_consumes {w : ℕ} (n i : ℕ) (result : BitVec w) (hi : i < w)
    (hres : result.toNat < 2 ^ i) (hn : n * 2 ^ i < 2 ^ w) :
    Consumes e (readVarint i result) (groups n) (BitVec.ofNat w (result.toNat + n * 2 ^ i)) := by
  induction n using Nat.strongRecOn generalizing i result with
  | ind n ih =>
    by_cases h : n < 128
    · rw [groups_of_lt h, ← or_shiftLeft hres hn, BitVec.ofNat_toNat, BitVec.setWidth_eq]
      exact readVarint_last e hi h
    · have hlow : n % 128 * 2 ^ i < 2 ^ w :=
        lt_of_le_of_lt (Nat.mul_le_mul_right _ (Nat.mod_le _ _)) hn
      have hor := or_shiftLeft hres hlow
      have h7 : 2 ^ (i + 7) = 2 ^ i * 128 := Nat.pow_add 2 i 7
      have hsum : n % 128 * 2 ^ i + n / 128 * 2 ^ (i + 7) = n * 2 ^ i := by
        conv_rhs => rw [← Nat.mod_add_div n 128]
        rw [h7]
        ring
      -- a number of more than one group does not fit into seven bits
      have hiw : i + 7 < w := by
        apply (Nat.pow_lt_pow_iff_right (by decide : 1 < 2)).mp
        refine lt_of_le_of_lt ?_ hn
        rw [h7, Nat.mul_comm]
        exact Nat.mul_le_mul_right _ (by omega)
      have hres' : (result ||| (BitVec.ofNat w (n % 128) <<< i)).toNat < 2 ^ (i + 7) := by
        have hm : n % 128 * 2 ^ i ≤ 127 * 2 ^ i := Nat.mul_le_mul_right _ (by omega)
        rw [hor, h7]
        omega
      have hrec := ih (n / 128) (by omega) (i + 7) _ hiw hres' (by omega)
      rw [hor, Nat.add_assoc, hsum] at hrec
      rw [groups_of_le (by omega)]
      exact readVarint_more e hi (by omega) hrec

theorem writeUint32_puts (v : UInt32) : Puts e (writeUint32 heap v) (groups v.toNat) := by
  rw [writeUint32, varintBytes_eq_groups (by decide)]
  exact write_puts heap e _

theorem writeUint64_puts (v : UInt64) : Puts e (writeUint64 heap v) (groups v.toNat) := by
  rw [writeUint64, varintBytes_eq_groups (by decide)]
  exact write_puts heap e _

theorem readUint32_consumes (v : UInt32) : Consumes e readUint32 (groups v.toNat) v := by
  have h := (readVarint_consumes e v.toNat 0 (0#32) (by decide) (by simp)
    (by simpa using v.toNat_lt)).map UInt32.ofBitVec
  have hv : UInt32.ofBitVec (BitVec.ofNat 32 ((0#32).toNat + v.toNat * 2 ^ 0)) = v := by
    apply UInt32.toNat_inj.mp
    simp
  rwa [hv] at h

theorem readUint64_consumes (v : UInt64) : Consumes e readUint64 (groups v.toNat) v := by
  have h := (readVarint_consumes e v.toNat 0 (0#64) (by decide) (by simp)
    (by simpa using v.toNat_lt)).map UInt64.ofBitVec
  have hv : UInt64.ofBitVec (BitVec.ofNat 64 ((0#64).toNat + v.toNat * 2 ^ 0)) = v := by
    apply UInt64.toNat_inj.mp
    simp
  rwa [hv] at h

theorem readInt32_consumes (v : Int32) :
    Consumes e readInt32 (groups (encodeZigzag32 v).toNat) v := by
  have h := (readUint32_consumes e (encodeZigzag32 v)).map decodeZigzag32
  rwa [decodeZigzag32_encodeZigzag32] at h

theorem readInt64_consumes (v : Int64) :
    Consumes e readInt64 (groups (encodeZigzag64 v).toNat) v := by
  have h := (readUint64_consumes e (encodeZigzag64 v)).map decodeZigzag64
  rwa [decodeZigzag64_encodeZigzag64] at h

end Varint

theorem readString_consumes {e : Endian} {s : StdString} (hs : s.1 ≠ []) :
    Consumes e (readString s.1.length) s.1 s := by
  have h := (read_consumes e hs).map fun bs =>
    (⟨bs.take s.1.length, (List.length_take_le _ _).trans s.2⟩ : StdString)
  simp only [List.take_length] at h
  rw [readString, dif_pos s.2]
  exact h

/-- A length and a string of that length are consumed together. -/
theorem readLengthString_consumes {α : Type} {e : Endian} {m : M α} {f : α → ℕ}
    {bs : List UInt8} {a : α} (h : Consumes e m bs a) {s : StdString} (hs : s.1 ≠ [])
    (hf : f a = s.1.length) : Consumes e (do readString (f (← m))) (bs ++ s.1) s := by
  apply h.bind
  rw [hf]
  exact readString_consumes hs

end ByteArray

end ServerFramework
