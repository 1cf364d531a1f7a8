import ServerFramework.ByteArray.Untrusted

/-! # Strings that do not fit their length

`WriteStringF16` narrows the length of the string to 16 bits and writes all its bytes. A longer
string is read back short, and what follows it is read from inside the string.
-/

namespace ServerFramework

open Transition

/-- The fixed-width integers. -/
def Value.IsFixedInt : Value → Prop
  | .fint8 _ | .fuint8 _ | .fint16 _ | .fuint16 _ => True
  | .fint32 _ | .fuint32 _ | .fint64 _ | .fuint64 _ => True
  | _ => False

theorem Value.IsFixedInt.valid {v : Value} (h : v.IsFixedInt) : v.Valid := by
  cases v with
  | stringF16 | stringF32 | stringF64 | stringVint => exact h.elim
  | _ => trivial

namespace ByteArray

variable {b b' : ByteArray} {host : Endian}

/-- The first value of a stream is the one its reader returns. -/
theorem readAll_cons_ok {little : Bool} {k : Kind} {ks : List (Bool × Kind)} {v : Value}
    {vs : List Value} (h : readAll host ((little, k) :: ks) b = .ok (v :: vs) b') :
    ∃ b₁ b₂, readKind host k b₁ = .ok v b₂ := by
  obtain ⟨u, b₁, -, h₁⟩ := Keeps.run_bind_ok h
  obtain ⟨w, b₂, hk, h₂⟩ := Keeps.run_bind_ok h₁
  obtain ⟨ws, b₃, -, h₃⟩ := Keeps.run_bind_ok h₂
  cases h₃
  exact ⟨b₁, b₂, hk⟩

/-- `ReadStringF16` returns no string of more bytes than the length can announce. -/
theorem readStringF16_length {v : StdString} (h : readStringF16 host b = .ok v b') :
    v.1.length < 65536 := by
  obtain ⟨len, b₁, -, hstr⟩ := Keeps.run_bind_ok h
  exact (readString_length hstr).trans_lt len.toNat_lt

/-- A string that comes back was not too long, whatever it was written to. -/
theorem length_of_stream_f16 {heap : Heap} {ws : List (Bool × Value)} {p : ℕ} {little : Bool}
    {ks : List (Bool × Kind)} {v : StdString} {vs : List Value}
    (h : (do writeAll heap host ws
             setPosition p
             readAll host ((little, .stringF16) :: ks) : M (List Value)) b =
      .ok (.stringF16 v :: vs) b') : v.1.length < 65536 := by
  obtain ⟨u, b₁, -, h₁⟩ := Keeps.run_bind_ok h
  obtain ⟨u, b₂, -, h₂⟩ := Keeps.run_bind_ok h₁
  obtain ⟨c, c', hread⟩ := readAll_cons_ok h₂
  obtain ⟨w, c₁, hstr, hw⟩ := Keeps.run_bind_ok hread
  cases hw
  exact readStringF16_length hstr

/-- In every state that an array can get into, a string that is not empty and the fixed-width
integers written behind it are read back if and only if the length of the string fits 16 bits. -/
theorem string_f16_stream_iff {s : ℕ} (hs : 1 ≤ s) (heap : Heap) (host : Endian)
    (acts : List Act) (b : ByteArray) (hr : run (act heap host) (new heap s) acts = some b)
    (little : Bool) (v : StdString) (hv : v.1 ≠ []) (ints : List (Bool × Value))
    (hints : ∀ p ∈ ints, p.2.IsFixedInt) :
    (∃ b', (do writeAll heap host ((little, .stringF16 v) :: ints)
               setPosition b.position
               readAll host ((little, .stringF16) :: ints.map fun p => (p.1, p.2.kind)) :
                 M (List Value)) b = .ok (.stringF16 v :: ints.map Prod.snd) b') ↔
      v.1.length < 65536 := by
  have h := (wf_of_acts hs hr).toWf
  obtain ⟨b₁, h₁, hb₁, hp₁, -, hc₁⟩ := writeAll_spec heap host ((little, .stringF16 v) :: ints) h
  obtain ⟨b₂, tail, h₂, hb₂, -, hrest, -, -⟩ := rest_after_put h hb₁ hp₁ hc₁
  constructor
  · rintro ⟨b₃, h₃⟩
    exact length_of_stream_f16 h₃
  · intro hlen
    have hvalid : ∀ p ∈ (little, Value.stringF16 v) :: ints, p.2.Valid :=
      List.forall_mem_cons.mpr ⟨⟨hv, by omega⟩, fun p hp => (hints p hp).valid⟩
    obtain ⟨b₃, h₃, -, -⟩ := readAll_spec host hvalid hb₂ hrest
    refine ⟨b₃, ?_⟩
    simp only [bind, EStateM.bind, h₁, h₂]
    exact h₃

/-- Two bytes and two integers, over blocks of three bytes. -/
theorem string_f16_stream_iff_two_bytes : ∃ b : ByteArray,
    run (act (fun _ _ => 0) .little) (new (fun _ _ => 0) 3) [.call (.write [9])] = some b ∧
    ∃ b', (do writeAll (fun _ _ => 0) .little [(true, .stringF16 ⟨[104, 105], by decide⟩),
                (true, .fint32 (-7)), (false, .fuint8 5)]
              setPosition b.position
              readAll .little [(true, .stringF16), (true, .fint32), (false, .fuint8)] :
                M (List Value)) b =
      .ok [.stringF16 ⟨[104, 105], by decide⟩, .fint32 (-7), .fuint8 5] b' :=
  ⟨_, rfl, (string_f16_stream_iff (by decide : 1 ≤ 3) (fun _ _ => 0) .little [.call (.write [9])] _
    rfl true ⟨[104, 105], by decide⟩ (by decide) [(true, .fint32 (-7)), (false, .fuint8 5)]
    (by simp [Value.IsFixedInt])).mpr (by decide)⟩

theorem length_longString_le : (List.replicate 65536 (7 : UInt8)).length ≤ stringMaxSize := by
  rw [List.length_replicate]
  decide

/-- One byte more than 16 bits announce. -/
def longString : StdString := ⟨List.replicate 65536 7, length_longString_le⟩

/-- The long string is written to a new array, and not read back. -/
theorem long_string_not_returned :
    (∃ b₁, writeStringF16 (fun _ _ => 0) .little longString (new (fun _ _ => 0) 4) = .ok () b₁) ∧
    ¬ ∃ b', (do writeAll (fun _ _ => 0) .little [(false, .stringF16 longString)]
                setPosition 0
                readAll .little [(false, .stringF16)] : M (List Value)) (new (fun _ _ => 0) 4) =
      .ok [.stringF16 longString] b' := by
  constructor
  · obtain ⟨b₁, h₁, -⟩ := writeValue_puts (fun _ _ => 0) .little .big (.stringF16 longString)
      (new (fun _ _ => 0) 4) (new_wf _ (by decide)) rfl
    exact ⟨b₁, h₁⟩
  · rintro ⟨b', h⟩
    have hlt := length_of_stream_f16 h
    rw [longString, List.length_replicate] at hlt
    exact absurd hlt (by decide)

end ByteArray

end ServerFramework
