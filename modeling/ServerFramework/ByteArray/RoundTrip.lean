import ServerFramework.ByteArray.Encoding

/-! # Streams of mixed values

A stream is a list of values, each with the byte order selected before it is written.
Reading the same kinds under the same byte orders returns the values and uses up the data.
-/

namespace ServerFramework

open Digits

/-- A value with the writer it is meant for. Floating-point numbers are bit patterns. -/
inductive Value where
  | fint8 (v : Int8)
  | fuint8 (v : UInt8)
  | fint16 (v : Int16)
  | fuint16 (v : UInt16)
  | fint32 (v : Int32)
  | fuint32 (v : UInt32)
  | fint64 (v : Int64)
  | fuint64 (v : UInt64)
  | int32 (v : Int32)
  | uint32 (v : UInt32)
  | int64 (v : Int64)
  | uint64 (v : UInt64)
  | float (v : UInt32)
  | double (v : UInt64)
  | stringF16 (v : StdString)
  | stringF32 (v : StdString)
  | stringF64 (v : StdString)
  | stringVint (v : StdString)
  deriving DecidableEq

/-- The kinds of values, one for each reader. -/
inductive Kind where
  | fint8
  | fuint8
  | fint16
  | fuint16
  | fint32
  | fuint32
  | fint64
  | fuint64
  | int32
  | uint32
  | int64
  | uint64
  | float
  | double
  | stringF16
  | stringF32
  | stringF64
  | stringVint
  deriving DecidableEq, Repr

namespace Value

def kind : Value → Kind
  | .fint8 _ => .fint8
  | .fuint8 _ => .fuint8
  | .fint16 _ => .fint16
  | .fuint16 _ => .fuint16
  | .fint32 _ => .fint32
  | .fuint32 _ => .fuint32
  | .fint64 _ => .fint64
  | .fuint64 _ => .fuint64
  | .int32 _ => .int32
  | .uint32 _ => .uint32
  | .int64 _ => .int64
  | .uint64 _ => .uint64
  | .float _ => .float
  | .double _ => .double
  | .stringF16 _ => .stringF16
  | .stringF32 _ => .stringF32
  | .stringF64 _ => .stringF64
  | .stringVint _ => .stringVint

/-- The strings a stream may hold: not empty, and with a length that fits the prefix. -/
def Valid : Value → Prop
  | .stringF16 s => s.1 ≠ [] ∧ s.1.length ≤ 65535
  | .stringF32 s => s.1 ≠ [] ∧ s.1.length < 2 ^ 32
  | .stringF64 s => s.1 ≠ []
  | .stringVint s => s.1 ≠ []
  | _ => True

/-- The bytes of a value in byte order `e`. -/
def encode (e : Endian) : Value → List UInt8
  | .fint8 v => [v.toUInt8]
  | .fuint8 v => [v]
  | .fint16 v => hostBytes e 2 v.toUInt16.toNat
  | .fuint16 v => hostBytes e 2 v.toNat
  | .fint32 v => hostBytes e 4 v.toUInt32.toNat
  | .fuint32 v => hostBytes e 4 v.toNat
  | .fint64 v => hostBytes e 8 v.toUInt64.toNat
  | .fuint64 v => hostBytes e 8 v.toNat
  | .int32 v => groups (encodeZigzag32 v).toNat
  | .uint32 v => groups v.toNat
  | .int64 v => groups (encodeZigzag64 v).toNat
  | .uint64 v => groups v.toNat
  | .float v => hostBytes e 4 v.toNat
  | .double v => hostBytes e 8 v.toNat
  | .stringF16 s => hostBytes e 2 (UInt16.ofNat s.1.length).toNat ++ s.1
  | .stringF32 s => hostBytes e 4 (UInt32.ofNat s.1.length).toNat ++ s.1
  | .stringF64 s => hostBytes e 8 (UInt64.ofNat s.1.length).toNat ++ s.1
  | .stringVint s => groups (UInt64.ofNat s.1.length).toNat ++ s.1

end Value

namespace ByteArray

variable (heap : Heap) (host : Endian)

/-- Call the writer of a value. -/
def writeValue : Value → M Unit
  | .fint8 v => writeFint8 heap v
  | .fuint8 v => writeFuint8 heap v
  | .fint16 v => writeFint16 heap host v
  | .fuint16 v => writeFuint16 heap host v
  | .fint32 v => writeFint32 heap host v
  | .fuint32 v => writeFuint32 heap host v
  | .fint64 v => writeFint64 heap host v
  | .fuint64 v => writeFuint64 heap host v
  | .int32 v => writeInt32 heap v
  | .uint32 v => writeUint32 heap v
  | .int64 v => writeInt64 heap v
  | .uint64 v => writeUint64 heap v
  | .float v => writeFloat heap host v
  | .double v => writeDouble heap host v
  | .stringF16 s => writeStringF16 heap host s
  | .stringF32 s => writeStringF32 heap host s
  | .stringF64 s => writeStringF64 heap host s
  | .stringVint s => writeStringVint heap s

/-- Call the reader of a kind. -/
def readKind : Kind → M Value
  | .fint8 => do return .fint8 (← readFint8)
  | .fuint8 => do return .fuint8 (← readFuint8)
  | .fint16 => do return .fint16 (← readFint16 host)
  | .fuint16 => do return .fuint16 (← readFuint16 host)
  | .fint32 => do return .fint32 (← readFint32 host)
  | .fuint32 => do return .fuint32 (← readFuint32 host)
  | .fint64 => do return .fint64 (← readFint64 host)
  | .fuint64 => do return .fuint64 (← readFuint64 host)
  | .int32 => do return .int32 (← readInt32)
  | .uint32 => do return .uint32 (← readUint32)
  | .int64 => do return .int64 (← readInt64)
  | .uint64 => do return .uint64 (← readUint64)
  | .float => do return .float (← readFloat host)
  | .double => do return .double (← readDouble host)
  | .stringF16 => do return .stringF16 (← readStringF16 host)
  | .stringF32 => do return .stringF32 (← readStringF32 host)
  | .stringF64 => do return .stringF64 (← readStringF64 host)
  | .stringVint => do return .stringVint (← readStringVint)

/-- Write the values in order, selecting the byte order before each. -/
def writeAll : List (Bool × Value) → M Unit
  | [] => return ()
  | (little, v) :: vs => do
    setIsLittleEndian little
    writeValue heap host v
    writeAll vs

/-- Read values of the given kinds in order, selecting the byte order before each. -/
def readAll : List (Bool × Kind) → M (List Value)
  | [] => return []
  | (little, k) :: ks => do
    setIsLittleEndian little
    let v ← readKind host k
    let vs ← readAll ks
    return v :: vs

/-- The byte order that `SetIsLittleEndian` selects. -/
def order (little : Bool) : Endian := if little then .little else .big

/-- The bytes of a stream. -/
def encodeAll (vs : List (Bool × Value)) : List UInt8 :=
  vs.flatMap fun p => p.2.encode (order p.1)

@[simp] theorem encodeAll_cons (little : Bool) (v : Value) (vs : List (Bool × Value)) :
    encodeAll ((little, v) :: vs) = v.encode (order little) ++ encodeAll vs := rfl

theorem writeValue_puts (e : Endian) (v : Value) :
    Puts e (writeValue heap host v) (v.encode e) := by
  cases v with
  | fint8 v => exact write_puts heap e [v.toUInt8]
  | fuint8 v => exact write_puts heap e [v]
  | int32 v => exact writeUint32_puts heap e _
  | uint32 v => exact writeUint32_puts heap e _
  | int64 v => exact writeUint64_puts heap e _
  | uint64 v => exact writeUint64_puts heap e _
  | stringF16 s =>
    exact (writeFixed_puts heap host e 2 _).seq (write_puts heap e _)
  | stringF32 s =>
    exact (writeFixed_puts heap host e 4 _).seq (write_puts heap e _)
  | stringF64 s =>
    exact (writeFixed_puts heap host e 8 _).seq (write_puts heap e _)
  | stringVint s =>
    exact (writeUint64_puts heap e _).seq (write_puts heap e _)
  | _ => exact writeFixed_puts heap host e _ _

theorem readKind_consumes (e : Endian) {v : Value} (hv : v.Valid) :
    Consumes e (readKind host v.kind) (v.encode e) v := by
  cases v with
  | fint8 v => exact (readFint8_consumes e v).map Value.fint8
  | fuint8 v => exact (readFuint8_consumes e v).map Value.fuint8
  | fint16 v => exact (readFint16_consumes host e v).map Value.fint16
  | fuint16 v => exact (readFuint16_consumes host e v).map Value.fuint16
  | fint32 v => exact (readFint32_consumes host e v).map Value.fint32
  | fuint32 v => exact (readFuint32_consumes host e v).map Value.fuint32
  | fint64 v => exact (readFint64_consumes host e v).map Value.fint64
  | fuint64 v => exact (readFuint64_consumes host e v).map Value.fuint64
  | int32 v => exact (readInt32_consumes e v).map Value.int32
  | uint32 v => exact (readUint32_consumes e v).map Value.uint32
  | int64 v => exact (readInt64_consumes e v).map Value.int64
  | uint64 v => exact (readUint64_consumes e v).map Value.uint64
  | float v => exact (readFuint32_consumes host e v).map Value.float
  | double v => exact (readFuint64_consumes host e v).map Value.double
  | stringF16 s =>
    have hl := hv.2
    refine (readLengthString_consumes (readFuint16_consumes host e _) hv.1 ?_).map Value.stringF16
    rw [UInt16.toNat_ofNat', Nat.mod_eq_of_lt (by omega)]
  | stringF32 s =>
    have hl := hv.2
    refine (readLengthString_consumes (readFuint32_consumes host e _) hv.1 ?_).map Value.stringF32
    rw [UInt32.toNat_ofNat', Nat.mod_eq_of_lt (by omega)]
  | stringF64 s =>
    have hl := s.2
    refine (readLengthString_consumes (readFuint64_consumes host e _) hv ?_).map Value.stringF64
    unfold stringMaxSize at hl
    rw [UInt64.toNat_ofNat', Nat.mod_eq_of_lt (by omega)]
  | stringVint s =>
    have hl := s.2
    refine (readLengthString_consumes (readUint64_consumes e _) hv ?_).map Value.stringVint
    unfold stringMaxSize at hl
    rw [UInt64.toNat_ofNat', Nat.mod_eq_of_lt (by omega)]

/-- Selecting a byte order touches nothing but the byte order. -/
theorem setIsLittleEndian_spec (little : Bool) {b : ByteArray} (h : b.Wf) :
    ∃ b', setIsLittleEndian little b = .ok () b' ∧ b'.Wf ∧ b'.endian = order little ∧
      b'.position = b.position ∧ b'.size = b.size ∧ b'.content = b.content ∧ b'.rest = b.rest :=
  ⟨_, rfl, ⟨h.baseSize_pos, h.node_size, h.nodes_ne_nil, h.capacity_eq, h.position_le_size,
    h.size_le_capacity, h.cur_eq⟩, rfl, rfl, rfl, rfl, rfl⟩

/-- A stream is put over what stands behind the position. -/
theorem writeAll_spec (vs : List (Bool × Value)) {b : ByteArray} (h : b.Wf) :
    ∃ b', writeAll heap host vs b = .ok () b' ∧ b'.Wf ∧
      b'.position = b.position + (encodeAll vs).length ∧ b'.size = max b.size b'.position ∧
      b'.content.take b'.position = b.content.take b.position ++ encodeAll vs := by
  induction vs generalizing b with
  | nil =>
    have := h.position_le_size
    exact ⟨b, rfl, h, rfl, by omega, by simp [encodeAll]⟩
  | cons p vs ih =>
    obtain ⟨little, v⟩ := p
    obtain ⟨b₁, h₁, hb₁, he₁, hp₁, hs₁, hc₁, -⟩ := setIsLittleEndian_spec little h
    obtain ⟨b₂, h₂, hb₂, -, hp₂, hs₂, hc₂⟩ :=
      writeValue_puts heap host (order little) v b₁ hb₁ he₁
    obtain ⟨b₃, h₃, hb₃, hp₃, hs₃, hc₃⟩ := ih hb₂
    refine ⟨b₃, ?_, hb₃, ?_, by omega, ?_⟩
    · simp only [writeAll, bind, EStateM.bind, h₁, h₂, h₃]
    · rw [hp₃, hp₂, hp₁, encodeAll_cons, List.length_append, Nat.add_assoc]
    · rw [hc₃, hc₂, hc₁, hp₁, encodeAll_cons, List.append_assoc]

/-- Where the data goes on with a stream, the stream is read and no more. -/
theorem readAll_spec {vs : List (Bool × Value)} (hv : ∀ p ∈ vs, p.2.Valid) {b : ByteArray}
    (h : b.Wf) {tail : List UInt8} (hr : b.rest = encodeAll vs ++ tail) :
    ∃ b', readAll host (vs.map fun p => (p.1, p.2.kind)) b = .ok (vs.map Prod.snd) b' ∧ b'.Wf ∧
      b'.rest = tail := by
  induction vs generalizing b with
  | nil => exact ⟨b, rfl, h, hr⟩
  | cons p vs ih =>
    obtain ⟨little, v⟩ := p
    obtain ⟨b₁, h₁, hb₁, he₁, -, -, -, hr₁⟩ := setIsLittleEndian_spec little h
    have hsplit : b₁.rest = v.encode (order little) ++ (encodeAll vs ++ tail) := by
      rw [hr₁, hr, encodeAll_cons, List.append_assoc]
    obtain ⟨b₂, h₂, hb₂, -, hr₂⟩ :=
      readKind_consumes host (order little) (hv _ List.mem_cons_self) b₁ _ hb₁ he₁ hsplit
    obtain ⟨b₃, h₃, hb₃, hr₃⟩ := ih (fun q hq => hv q (List.mem_cons_of_mem _ hq)) hb₂ hr₂
    refine ⟨b₃, ?_, hb₃, hr₃⟩
    simp only [List.map_cons, readAll, bind, EStateM.bind, h₁, h₂, h₃]
    rfl

/-- Whatever was written to a new array is read back from its start, and nothing is left. -/
theorem stream_round_trip {s : ℕ} (hs : 1 ≤ s) (vs : List (Bool × Value))
    (hv : ∀ p ∈ vs, p.2.Valid) :
    ∃ b, (do writeAll heap host vs
             setPosition 0
             readAll host (vs.map fun p => (p.1, p.2.kind)) : M (List Value)) (new heap s) =
        .ok (vs.map Prod.snd) b ∧ b.getReadSize = 0 := by
  obtain ⟨b₁, h₁, hb₁, hp₁, hs₁, hc₁⟩ := writeAll_spec heap host vs (new_wf heap hs)
  have hend : b₁.position = b₁.size := hs₁.symm ▸ (Nat.max_eq_right (Nat.zero_le _)).symm
  obtain ⟨b₂, h₂, hb₂, hbytes, hp₂, hs₂, -, -⟩ := setPosition_spec hb₁ (Nat.zero_le _)
  have hr₂ : b₂.rest = encodeAll vs ++ [] := by
    rw [rest, content, hbytes, hp₂, hs₂, Nat.max_eq_left (Nat.zero_le _), List.drop_zero]
    change b₁.content = _
    rw [hend, ← hb₁.length_content, List.take_length] at hc₁
    rw [hc₁, List.append_nil]
    rfl
  obtain ⟨b₃, h₃, hb₃, hr₃⟩ := readAll_spec host hv hb₂ hr₂
  refine ⟨b₃, ?_, ?_⟩
  · simp only [bind, EStateM.bind, h₁, h₂, h₃]
  · rw [← hb₃.length_rest, hr₃, List.length_nil]

/-- A little-endian integer, a varint and a big-endian string across blocks of three bytes. -/
theorem stream_round_trip_mixed :
    ∃ b, (do writeAll (fun _ _ => 0) .little [(true, .fint16 (-2)), (true, .uint32 300),
               (false, .stringF16 ⟨[104, 105], by decide⟩)]
             setPosition 0
             readAll .little [(true, .fint16), (true, .uint32), (false, .stringF16)] :
               M (List Value)) (new (fun _ _ => 0) 3) =
        .ok [.fint16 (-2), .uint32 300, .stringF16 ⟨[104, 105], by decide⟩] b ∧
      b.getReadSize = 0 :=
  stream_round_trip (fun _ _ => 0) .little (by decide) [(true, .fint16 (-2)), (true, .uint32 300),
    (false, .stringF16 ⟨[104, 105], by decide⟩)] (by simp [Value.Valid])

end ByteArray

end ServerFramework
