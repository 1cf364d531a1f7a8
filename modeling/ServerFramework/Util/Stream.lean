import ServerFramework.ByteArray.Calls
import ServerFramework.Lib.Chunks

/-! # Transfers of a fixed size

`ReadFixSize` and `WriteFixSize` call the virtual functions of a stream until nothing is left or a
call returns no positive number. What is left is counted in an `int64_t`, the offset into the buffer
in a `size_t`, and a call returns an `int`.
-/

namespace ServerFramework

namespace ByteArray

/-- The bytes before the position. -/
def front (b : ByteArray) : List UInt8 := b.content.take b.position

end ByteArray

/-- What a stream works on. A buffer is a place in memory, and `device` is whatever else the stream
depends on. -/
structure StreamState (δ : Type) where
  memory : ℕ → UInt8
  ba : { b : ByteArray // b.Wf }
  /-- The bytes to come. -/
  incoming : List UInt8
  /-- The bytes that were sent. -/
  outgoing : List UInt8
  device : δ

/-- The virtual functions of a stream, each with a length last among its arguments. -/
structure Stream (δ : Type) where
  read : ℕ → UInt64 → StreamState δ → Int32 × StreamState δ
  readByteArray : UInt64 → StreamState δ → Int32 × StreamState δ
  write : ℕ → UInt64 → StreamState δ → Int32 × StreamState δ
  writeByteArray : UInt64 → StreamState δ → Int32 × StreamState δ

section Loops

variable {σ : Type}

theorem toNat_left_sub_lt {left : Int64} {r : Int32} (hleft : 0 < left) (hr : ¬ r.toInt64 ≤ 0) :
    (left - r.toInt64).toInt.toNat < left.toInt.toNat := by
  have hpos : 0 < left.toInt := Int64.lt_iff_toInt_lt.mp hleft
  have hlen : 0 < r.toInt := by
    rw [Int64.le_iff_toInt_le, Int32.toInt_toInt64] at hr
    exact not_le.mp hr
  have hlt := left.toInt_lt
  have hrlt := r.toInt_lt
  rw [Int64.toInt_sub, Int32.toInt_toInt64, Int.bmod_eq_of_le (by omega) (by omega)]
  omega

/-- The loop on a buffer. -/
def fixSizeLoop (call : ℕ → UInt64 → σ → Int32 × σ) (buffer : ℕ) (length offset : UInt64)
    (left : Int64) (s : σ) : Int32 × σ :=
  if 0 < left then
    let r := call (buffer + offset.toNat) left.toUInt64 s
    let len := r.1.toInt64
    if len ≤ 0 then (len.toInt32, r.2)
    else fixSizeLoop call buffer length (offset + len.toUInt64) (left - len) r.2
  else (length.toUInt32.toInt32, s)
termination_by left.toInt.toNat
decreasing_by exact toNat_left_sub_lt ‹_› ‹_›

/-- The loop on a `ByteArray`. -/
def fixSizeLoopByteArray (call : UInt64 → σ → Int32 × σ) (length : UInt64) (left : Int64) (s : σ) :
    Int32 × σ :=
  if 0 < left then
    let r := call left.toUInt64 s
    let len := r.1.toInt64
    if len ≤ 0 then (len.toInt32, r.2) else fixSizeLoopByteArray call length (left - len) r.2
  else (length.toUInt32.toInt32, s)
termination_by left.toInt.toNat
decreasing_by exact toNat_left_sub_lt ‹_› ‹_›

end Loops

namespace Stream

variable {δ : Type}

/-- `ReadFixSize` on a buffer. -/
def readFixSize (stream : Stream δ) (buffer : ℕ) (length : UInt64) (s : StreamState δ) :
    Int32 × StreamState δ :=
  fixSizeLoop stream.read buffer length 0 length.toInt64 s

/-- `ReadFixSize` on a `ByteArray`. -/
def readFixSizeByteArray (stream : Stream δ) (length : UInt64) (s : StreamState δ) :
    Int32 × StreamState δ :=
  fixSizeLoopByteArray stream.readByteArray length length.toInt64 s

/-- `WriteFixSize` on a buffer. -/
def writeFixSize (stream : Stream δ) (buffer : ℕ) (length : UInt64) (s : StreamState δ) :
    Int32 × StreamState δ :=
  fixSizeLoop stream.write buffer length 0 length.toInt64 s

/-- `WriteFixSize` on a `ByteArray`. -/
def writeFixSizeByteArray (stream : Stream δ) (length : UInt64) (s : StreamState δ) :
    Int32 × StreamState δ :=
  fixSizeLoopByteArray stream.writeByteArray length length.toInt64 s

end Stream

/-- Memory with the bytes stored at a place. -/
def store (m : ℕ → UInt8) (p : ℕ) (bytes : List UInt8) : ℕ → UInt8 := fun a =>
  if p ≤ a then bytes[a - p]?.getD (m a) else m a

/-- The bytes in memory at a place. -/
def load (m : ℕ → UInt8) (p n : ℕ) : List UInt8 := (List.range n).map fun i => m (p + i)

section Moved

variable {δ : Type}

/-- The next bytes to come are in the buffer. -/
structure Received (p : ℕ) (bytes : List UInt8) (s t : StreamState δ) : Prop where
  incoming : s.incoming = bytes ++ t.incoming
  memory : t.memory = store s.memory p bytes

/-- The next bytes of the buffer are sent. -/
structure Sent (p : ℕ) (bytes : List UInt8) (s t : StreamState δ) : Prop where
  outgoing : t.outgoing = s.outgoing ++ bytes
  load_eq : load s.memory p bytes.length = bytes
  memory : t.memory = s.memory

/-- The next bytes to come are put at the position of the array. -/
structure ReceivedByteArray (bytes : List UInt8) (s t : StreamState δ) : Prop where
  incoming : s.incoming = bytes ++ t.incoming
  front : t.ba.1.front = s.ba.1.front ++ bytes
  rest : t.ba.1.rest = s.ba.1.rest.drop bytes.length

/-- The next bytes from the position of the array on are sent. -/
structure SentByteArray (bytes : List UInt8) (s t : StreamState δ) : Prop where
  outgoing : t.outgoing = s.outgoing ++ bytes
  front : t.ba.1.front = s.ba.1.front ++ bytes
  rest : s.ba.1.rest = bytes ++ t.ba.1.rest

end Moved

section Outcome

variable {σ : Type}

/-- A call of the loop, in numbers. -/
def counted (call : ℕ → UInt64 → σ → Int32 × σ) (p k : ℕ) (s : σ) : ℤ × σ :=
  ((call p (.ofNat k) s).1.toInt, (call p (.ofNat k) s).2)

/-- Each call returns at most the length it is given, and moves as many bytes as it returns. -/
structure Serves (call : ℕ → UInt64 → σ → Int32 × σ)
    (moved : ℕ → List UInt8 → σ → σ → Prop) : Prop where
  le : ∀ p k s, (call p k s).1.toInt ≤ k.toNat
  moves : ∀ p k s, 0 < (call p k s).1.toInt → ∃ bytes : List UInt8,
    (bytes.length : ℤ) = (call p k s).1.toInt ∧ moved p bytes s (call p k s).2

/-- The outcome of a transfer of a fixed size. The bytes are moved in chunks, by calls that are each
asked for all that is left. -/
structure Transferred (call : ℕ → UInt64 → σ → Int32 × σ)
    (moved : ℕ → List UInt8 → σ → σ → Prop) (p : ℕ) (length : UInt64) (s : σ) (out : Int32 × σ)
    (counts : List ℕ) (bytes : List UInt8) (t : σ) : Prop where
  chunks : Chunks (counted call) p length.toNat counts s t
  counts_sum : counts.sum = bytes.length
  moved : moved p bytes s t
  le : bytes.length ≤ length.toNat
  /-- The length is returned if and only if all bytes are moved. -/
  returned : 0 < length → (out.1.toInt = length.toNat ↔ bytes.length = length.toNat)
  all : bytes.length = length.toNat → out.1.toInt = length.toNat ∧ out.2 = t
  /-- Otherwise the first number is returned that is not positive. -/
  stopped : bytes.length < length.toNat →
    out = call (p + bytes.length) (.ofNat (length.toNat - bytes.length)) t ∧ out.1.toInt ≤ 0

/-- A transfer has such an outcome. -/
def Transfers (call : ℕ → UInt64 → σ → Int32 × σ) (moved : ℕ → List UInt8 → σ → σ → Prop) (p : ℕ)
    (length : UInt64) (s : σ) (out : Int32 × σ) : Prop :=
  ∃ counts bytes t, Transferred call moved p length s out counts bytes t

end Outcome

namespace Stream

variable {δ : Type}

/-- The virtual functions move as many bytes as they return, and no more than they are asked for. -/
structure Faithful (stream : Stream δ) : Prop where
  read : Serves stream.read Received
  write : Serves stream.write Sent
  readByteArray : Serves (fun _ => stream.readByteArray) fun _ => ReceivedByteArray
  writeByteArray : Serves (fun _ => stream.writeByteArray) fun _ => SentByteArray

/-- `ReadFixSize` and `WriteFixSize` transfer the length, as far as the calls do not refuse. -/
structure TransfersFixSize (stream : Stream δ) (buffer : ℕ) (length : UInt64)
    (s : StreamState δ) : Prop where
  read : Serves stream.read Received →
    Transfers stream.read Received buffer length s (stream.readFixSize buffer length s)
  write : Serves stream.write Sent →
    Transfers stream.write Sent buffer length s (stream.writeFixSize buffer length s)
  readByteArray : Serves (fun _ => stream.readByteArray) (fun _ => ReceivedByteArray) →
    Transfers (fun _ => stream.readByteArray) (fun _ => ReceivedByteArray) 0 length s
      (stream.readFixSizeByteArray length s)
  writeByteArray : Serves (fun _ => stream.writeByteArray) (fun _ => SentByteArray) →
    Transfers (fun _ => stream.writeByteArray) (fun _ => SentByteArray) 0 length s
      (stream.writeFixSizeByteArray length s)

end Stream

section Runs

variable {σ : Type} {call : ℕ → UInt64 → σ → Int32 × σ} {buffer : ℕ} {length : UInt64}
  {o k : ℕ} {s t : σ}

/-- The offset makes no difference where it is not used. -/
theorem fixSizeLoopByteArray_eq (call : UInt64 → σ → Int32 × σ) (buffer : ℕ)
    (length offset : UInt64) (left : Int64) (s : σ) :
    fixSizeLoopByteArray call length left s =
      fixSizeLoop (fun _ => call) buffer length offset left s := by
  fun_induction fixSizeLoopByteArray call length left s generalizing offset with
  | case1 left s hleft r len hlen => rw [fixSizeLoop, if_pos hleft, if_pos hlen]
  | case2 left s hleft r len hlen ih =>
    rw [fixSizeLoop, if_pos hleft, if_neg hlen]
    exact ih _
  | case3 left s hleft => rw [fixSizeLoop, if_neg hleft]

theorem toNat_ofNat_offset (ho : o < 2 ^ 63) : (UInt64.ofNat o).toNat = o := by
  rw [UInt64.toNat_ofNat']
  omega

theorem ofNat_left_pos (hk : 0 < k) (hlt : k < 2 ^ 63) : 0 < Int64.ofNat k := by
  rw [Int64.lt_iff_toInt_lt, Int64.toInt_ofNat_of_lt hlt]
  exact Int.ofNat_lt.mpr hk

theorem fixSizeLoop_done (offset : UInt64) :
    fixSizeLoop call buffer length offset (.ofNat 0) s = (length.toUInt32.toInt32, s) := by
  rw [fixSizeLoop]
  rfl

/-- A call that moves something is followed by one for what is left behind it. -/
theorem fixSizeLoop_moves {c : ℕ} (hc : 0 < c) (hck : c ≤ k) (hok : o + k < 2 ^ 63)
    (hcall : counted call (buffer + o) k s = ((c : ℤ), t)) :
    fixSizeLoop call buffer length (.ofNat o) (.ofNat k) s =
      fixSizeLoop call buffer length (.ofNat (o + c)) (.ofNat (k - c)) t := by
  obtain ⟨hr, ht⟩ := Prod.mk.inj hcall
  have hoffset : (UInt64.ofNat o).toNat = o := toNat_ofNat_offset (by omega)
  have hlen : (call (buffer + o) (.ofNat k) s).1.toInt64 = Int64.ofNat c := by
    rw [← Int64.toInt_inj, Int32.toInt_toInt64, hr, Int64.toInt_ofNat_of_lt (by omega)]
  have hpos : ¬ Int64.ofNat c ≤ 0 := Int64.not_le.mpr (ofNat_left_pos hc (by omega))
  rw [fixSizeLoop, if_pos (ofNat_left_pos (by omega) (by omega))]
  simp only [hoffset, Int64.toUInt64_ofNat', hlen]
  rw [if_neg hpos, ht, UInt64.ofNat_add, Int64.ofNat_sub _ _ hck]

/-- A call that moves nothing is the last one. -/
theorem fixSizeLoop_refused (hk : 0 < k) (hok : o + k < 2 ^ 63)
    (hcall : (counted call (buffer + o) k s).1 ≤ 0) :
    fixSizeLoop call buffer length (.ofNat o) (.ofNat k) s = call (buffer + o) (.ofNat k) s := by
  have hoffset : (UInt64.ofNat o).toNat = o := toNat_ofNat_offset (by omega)
  have hlen : (call (buffer + o) (.ofNat k) s).1.toInt64 ≤ 0 := by
    rw [Int64.le_iff_toInt_le, Int32.toInt_toInt64]
    exact hcall
  rw [fixSizeLoop, if_pos (ofNat_left_pos hk (by omega))]
  simp only [hoffset, Int64.toUInt64_ofNat']
  rw [if_pos hlen, Int32.toInt32_toInt64]

/-- The loop goes through the chunks. -/
theorem fixSizeLoop_chunks (hle : ∀ p k s, (counted call p k s).1 ≤ k) {cs : List ℕ}
    (h : Chunks (counted call) (buffer + o) k cs s t) (hok : o + k < 2 ^ 63) :
    fixSizeLoop call buffer length (.ofNat o) (.ofNat k) s =
      fixSizeLoop call buffer length (.ofNat (o + cs.sum)) (.ofNat (k - cs.sum)) t := by
  generalize hp : buffer + o = p at h
  induction h generalizing o with
  | nil => rfl
  | @cons p k c cs s t u hpos hcall _ ih =>
    subst hp
    have hck : c ≤ k := by
      have hk := hle (buffer + o) k s
      rwa [hcall, Int.ofNat_le] at hk
    rw [fixSizeLoop_moves hpos hck hok hcall, ih (by omega) (by omega), List.sum_cons,
      Nat.add_assoc, Nat.sub_sub]

/-- The loop from its beginning on. -/
theorem fixSizeLoop_start (hle : ∀ p k s, (counted call p k s).1 ≤ k) {cs : List ℕ}
    (h : Chunks (counted call) buffer length.toNat cs s t) (hlength : length.toNat < 2 ^ 63) :
    fixSizeLoop call buffer length 0 length.toInt64 s =
      fixSizeLoop call buffer length (.ofNat cs.sum) (.ofNat (length.toNat - cs.sum)) t := by
  have hleft : length.toInt64 = .ofNat length.toNat := by
    conv_lhs => rw [← UInt64.ofNat_toNat (x := length), UInt64.toInt64_ofNat']
  have hchunks := @fixSizeLoop_chunks σ call buffer length 0 _ _ _ hle cs h (by omega)
  rwa [Nat.zero_add, ← hleft] at hchunks

end Runs

section Ends

variable {σ : Type} {call : ℕ → UInt64 → σ → Int32 × σ} {moved : ℕ → List UInt8 → σ → σ → Prop}

theorem Serves.counted_le (h : Serves call moved) (p k : ℕ) (s : σ) :
    (counted call p k s).1 ≤ k := by
  have hle := h.le p (.ofNat k) s
  rw [UInt64.toNat_ofNat'] at hle
  rw [counted]
  omega

/-- The `int` that is returned is the length if and only if it can hold it. -/
theorem toInt_length_iff (length : UInt64) :
    length.toUInt32.toInt32.toInt = length.toNat ↔ length.toNat < 2 ^ 31 := by
  have heq : length.toUInt32.toInt32 = .ofNat length.toNat := by
    conv_lhs => rw [← UInt64.ofNat_toNat (x := length), UInt64.toUInt32_ofNat',
      UInt32.toInt32_ofNat']
  constructor
  · intro h
    have hlt := length.toUInt32.toInt32.toInt_lt
    omega
  · intro h
    rw [heq, Int32.toInt_ofNat_of_lt h]

/-- Every behaviour of the calls leads to such an outcome. -/
theorem Serves.transfers (h : Serves call moved) (hmoved : Chunks.Composes moved) (buffer : ℕ)
    {length : UInt64} (hlength : length.toNat < 2 ^ 31) (s : σ) :
    Transfers call moved buffer length s
      (fixSizeLoop call buffer length 0 length.toInt64 s) := by
  obtain ⟨counts, t, hchunks, hend⟩ := Chunks.exists_end h.counted_le buffer length.toNat s
  obtain ⟨bytes, hsum, hmove⟩ := hchunks.moved hmoved fun p k s => h.moves p (.ofNat k) s
  have hle := hchunks.sum_le h.counted_le
  have hloop := fixSizeLoop_start h.counted_le hchunks (by omega)
  rw [← hsum] at hend hle hloop
  refine ⟨counts, bytes, t, ?_⟩
  rcases hend with hall | ⟨hlt, hrefused⟩
  · rw [hall, Nat.sub_self, fixSizeLoop_done] at hloop
    rw [hloop]
    exact
      { chunks := hchunks
        counts_sum := hsum.symm
        moved := hmove
        le := hle
        returned := fun _ => iff_of_true ((toInt_length_iff length).mpr hlength) hall
        all := fun _ => ⟨(toInt_length_iff length).mpr hlength, rfl⟩
        stopped := fun hlt => absurd hall hlt.ne }
  · rw [fixSizeLoop_refused (by omega) (by omega) hrefused] at hloop
    rw [hloop]
    have hstopped : (call (buffer + bytes.length) (.ofNat (length.toNat - bytes.length)) t).1.toInt
        ≤ 0 := hrefused
    exact
      { chunks := hchunks
        counts_sum := hsum.symm
        moved := hmove
        le := hle
        returned := fun hpos => iff_of_false (by omega) hlt.ne
        all := fun hall => absurd hall hlt.ne
        stopped := fun _ => ⟨rfl, hstopped⟩ }

end Ends

section Memory

variable {δ : Type} (m : ℕ → UInt8) (p : ℕ)

theorem store_nil : store m p [] = m := by
  funext a
  simp [store]

/-- Storing bytes and then others behind them is storing both. -/
theorem store_store (as bs : List UInt8) :
    store (store m p as) (p + as.length) bs = store m p (as ++ bs) := by
  funext a
  simp only [store]
  by_cases hp : p ≤ a
  · by_cases has : a - p < as.length
    · rw [if_neg (by omega), if_pos hp, if_pos hp, List.getElem?_append_left has]
    · have hrest : a - (p + as.length) = a - p - as.length := by omega
      have hnone : as[a - p]? = none := List.getElem?_eq_none (by omega)
      rw [if_pos (by omega), if_pos hp, if_pos hp, List.getElem?_append_right (by omega), hrest,
        hnone]
      rfl
  · rw [if_neg (by omega), if_neg hp, if_neg hp]

theorem load_add (i j : ℕ) : load m p (i + j) = load m p i ++ load m (p + i) j := by
  rw [load, List.range_add, List.map_append, List.map_map]
  simp [load, Function.comp_def, Nat.add_assoc]

theorem received_composes : Chunks.Composes (Received (δ := δ)) where
  nil := fun p s => ⟨rfl, (store_nil s.memory p).symm⟩
  append := by
    intro p as bs s t u has hbs
    refine ⟨?_, ?_⟩
    · rw [has.incoming, hbs.incoming, List.append_assoc]
    · rw [hbs.memory, has.memory, store_store]

theorem sent_composes : Chunks.Composes (Sent (δ := δ)) where
  nil := fun p s => ⟨(List.append_nil _).symm, rfl, rfl⟩
  append := by
    intro p as bs s t u has hbs
    refine ⟨?_, ?_, hbs.memory.trans has.memory⟩
    · rw [hbs.outgoing, has.outgoing, List.append_assoc]
    · rw [List.length_append, load_add, has.load_eq, ← has.memory, hbs.load_eq]

theorem receivedByteArray_composes :
    Chunks.Composes fun _ => ReceivedByteArray (δ := δ) where
  nil := fun p s => ⟨rfl, (List.append_nil _).symm, rfl⟩
  append := by
    intro p as bs s t u has hbs
    refine ⟨?_, ?_, ?_⟩
    · rw [has.incoming, hbs.incoming, List.append_assoc]
    · rw [hbs.front, has.front, List.append_assoc]
    · rw [hbs.rest, has.rest, List.drop_drop, List.length_append]

theorem sentByteArray_composes : Chunks.Composes fun _ => SentByteArray (δ := δ) where
  nil := fun p s => ⟨(List.append_nil _).symm, (List.append_nil _).symm, rfl⟩
  append := by
    intro p as bs s t u has hbs
    refine ⟨?_, ?_, ?_⟩
    · rw [hbs.outgoing, has.outgoing, List.append_assoc]
    · rw [hbs.front, has.front, List.append_assoc]
    · rw [has.rest, hbs.rest, List.append_assoc]

end Memory

section Bytewise

namespace ByteArray

variable {b : ByteArray}

/-- `write` puts the bytes at the position. -/
theorem write_front (heap : Heap) (h : b.Wf) (buf : List UInt8) :
    (Keeps.finalState (write heap buf b)).front = b.front ++ buf ∧
      (Keeps.finalState (write heap buf b)).rest = b.rest.drop buf.length := by
  obtain ⟨b', hwrite, -, hcontent, hposition, -⟩ := write_content heap h buf
  have hp : b.position ≤ b.content.length := h.length_content.symm ▸ h.position_le_size
  have hlen : (b.content.take b.position ++ buf).length = b.position + buf.length := by
    rw [List.length_append, List.length_take_of_le hp]
  rw [hwrite, Keeps.finalState, front, rest, hcontent, hposition, Overwrite.overwrite]
  constructor
  · rw [List.take_left' hlen, front]
  · rw [List.drop_left' hlen, rest, List.drop_drop]

/-- `read` takes the bytes from the position on. -/
theorem read_front (h : b.Wf) {bytes r : List UInt8} (hne : bytes ≠ [])
    (hrest : b.rest = bytes ++ r) :
    (Keeps.finalState (read bytes.length b)).front = b.front ++ bytes ∧
      (Keeps.finalState (read bytes.length b)).rest = r := by
  have hlen := h.length_rest
  rw [hrest, List.length_append] at hlen
  obtain ⟨b', hread, -, hbytes, hposition, hsize, -⟩ :=
    read_spec h (List.length_pos_of_ne_nil hne) (by omega)
  have hcontent : b'.content = b.content := by rw [content, content, hbytes, hsize]
  have hsplit : b.content.take b.position ++ (bytes ++ r) = b.content := by
    rw [← hrest, rest, List.take_append_drop]
  have hfront : (b.content.take b.position ++ bytes).length = b.position + bytes.length := by
    rw [List.length_append, List.length_take_of_le (h.length_content.symm ▸ h.position_le_size)]
  rw [hread, Keeps.finalState, front, rest, hcontent, hposition, ← hsplit, ← List.append_assoc]
  exact ⟨List.take_left' hfront, List.drop_left' hfront⟩

end ByteArray

variable {δ : Type} (heap : Heap)

/-- The array after a call that keeps its invariant. -/
def StreamState.afterCall {α : Type} (s : StreamState δ) (m : ByteArray.M α)
    (hm : ∀ n, Keeps (ByteArray.WfOf n) m) : StreamState δ :=
  { s with ba := ⟨Keeps.finalState (m s.ba.1), (hm s.ba.1.baseSize s.ba.1 ⟨s.ba.2, rfl⟩).toWf⟩ }

def receiveByte (p : ℕ) (s : StreamState δ) : Option (StreamState δ) :=
  s.incoming.head?.map fun b =>
    { s with incoming := s.incoming.tail, memory := store s.memory p [b] }

def sendByte (p : ℕ) (s : StreamState δ) : Option (StreamState δ) :=
  some { s with outgoing := s.outgoing ++ [s.memory p] }

def receiveByteArray (s : StreamState δ) : Option (StreamState δ) :=
  s.incoming.head?.map fun b =>
    { s.afterCall (ByteArray.write heap [b]) fun _ => ByteArray.write_keeps heap [b] with
      incoming := s.incoming.tail }

def sendByteArray (s : StreamState δ) : Option (StreamState δ) :=
  s.ba.1.rest.head?.map fun b =>
    { s.afterCall (ByteArray.read 1) fun _ => ByteArray.read_keeps 1 with
      outgoing := s.outgoing ++ [b] }

/-- A call that moves one byte, if it is asked for any and there is one. -/
def bytewise (move : StreamState δ → Option (StreamState δ)) (k : UInt64) (s : StreamState δ) :
    Int32 × StreamState δ :=
  match move s with
  | some t => if k = 0 then (0, s) else (1, t)
  | none => (0, s)

def bytewiseStream : Stream δ where
  read := fun p => bytewise (receiveByte p)
  readByteArray := bytewise (receiveByteArray heap)
  write := fun p => bytewise (sendByte p)
  writeByteArray := bytewise sendByteArray

theorem bytewise_serves {move : ℕ → StreamState δ → Option (StreamState δ)}
    {moved : ℕ → List UInt8 → StreamState δ → StreamState δ → Prop}
    (h : ∀ p s t, move p s = some t → ∃ b, moved p [b] s t) :
    Serves (fun p => bytewise (move p)) moved where
  le := by
    intro p k s
    rw [bytewise]
    cases move p s with
    | none => exact Int.natCast_nonneg _
    | some t =>
      simp only
      split_ifs with hk
      · exact Int.natCast_nonneg _
      · have hpos : k.toNat ≠ 0 := fun h => hk (UInt64.toNat_inj.mp h)
        have hone : (1 : Int32).toInt = 1 := rfl
        change (1 : Int32).toInt ≤ (k.toNat : ℤ)
        omega
  moves := by
    intro p k s
    rw [bytewise]
    cases hmove : move p s with
    | none => exact fun hpos => absurd hpos (lt_irrefl 0)
    | some t =>
      simp only
      split_ifs with hk
      · exact fun hpos => absurd hpos (lt_irrefl 0)
      · intro _
        obtain ⟨b, hb⟩ := h p s t hmove
        exact ⟨[b], rfl, hb⟩

variable {heap} {p : ℕ} {s t : StreamState δ}

theorem received_of_receiveByte (h : receiveByte p s = some t) : ∃ b, Received p [b] s t := by
  obtain ⟨b, hb, rfl⟩ := Option.map_eq_some_iff.mp h
  obtain ⟨bs, hs⟩ := List.head?_eq_some_iff.mp hb
  exact ⟨b, by simp [hs], rfl⟩

theorem sent_of_sendByte (h : sendByte p s = some t) : ∃ b, Sent p [b] s t := by
  obtain rfl := Option.some.inj h
  exact ⟨s.memory p, rfl, rfl, rfl⟩

theorem received_of_receiveByteArray (h : receiveByteArray heap s = some t) :
    ∃ b, ReceivedByteArray [b] s t := by
  obtain ⟨b, hb, rfl⟩ := Option.map_eq_some_iff.mp h
  obtain ⟨bs, hs⟩ := List.head?_eq_some_iff.mp hb
  obtain ⟨hfront, hrest⟩ := ByteArray.write_front heap s.ba.2 [b]
  exact ⟨b, by simp [hs], hfront, hrest⟩

theorem sent_of_sendByteArray (h : sendByteArray s = some t) : ∃ b, SentByteArray [b] s t := by
  obtain ⟨b, hb, rfl⟩ := Option.map_eq_some_iff.mp h
  obtain ⟨bs, hs⟩ := List.head?_eq_some_iff.mp hb
  obtain ⟨hfront, hrest⟩ := ByteArray.read_front s.ba.2 (List.cons_ne_nil b []) hs
  refine ⟨b, rfl, hfront, ?_⟩
  rw [hs]
  exact congrArg (b :: ·) hrest.symm

theorem bytewiseStream_faithful (heap : Heap) : (bytewiseStream heap : Stream δ).Faithful where
  read := bytewise_serves fun _ _ _ => received_of_receiveByte
  write := bytewise_serves fun p s t (h : sendByte p s = some t) => sent_of_sendByte h
  readByteArray := bytewise_serves fun _ _ _ => received_of_receiveByteArray
  writeByteArray := bytewise_serves fun _ _ _ => sent_of_sendByteArray

end Bytewise

/-- Every stream transfers a length that an `int` can hold. -/
theorem transfersFixSize {δ : Type} (stream : Stream δ) (buffer : ℕ) {length : UInt64}
    (hlength : length.toNat < 2 ^ 31) (s : StreamState δ) :
    stream.TransfersFixSize buffer length s where
  read := fun h => h.transfers received_composes buffer hlength s
  write := fun h => h.transfers sent_composes buffer hlength s
  readByteArray := by
    intro h
    rw [Stream.readFixSizeByteArray, fixSizeLoopByteArray_eq _ 0 length 0]
    exact h.transfers receivedByteArray_composes 0 hlength s
  writeByteArray := by
    intro h
    rw [Stream.writeFixSizeByteArray, fixSizeLoopByteArray_eq _ 0 length 0]
    exact h.transfers sentByteArray_composes 0 hlength s

/-- Three bytes are to come. -/
def threeToCome : StreamState Unit where
  memory := fun _ => 0
  ba := ⟨ByteArray.new (fun _ _ => 0) 4, ByteArray.new_wf _ (by decide)⟩
  incoming := [1, 2, 3]
  outgoing := []
  device := ()

theorem transfersFixSize_threeToCome :
    let stream : Stream Unit := bytewiseStream fun _ _ => 0
    Transfers stream.read Received 0 2 threeToCome (stream.readFixSize 0 2 threeToCome) ∧
      Transfers stream.write Sent 0 2 threeToCome (stream.writeFixSize 0 2 threeToCome) ∧
      Transfers (fun _ => stream.readByteArray) (fun _ => ReceivedByteArray) 0 2 threeToCome
        (stream.readFixSizeByteArray 2 threeToCome) ∧
      Transfers (fun _ => stream.writeByteArray) (fun _ => SentByteArray) 0 2 threeToCome
        (stream.writeFixSizeByteArray 2 threeToCome) := by
  intro stream
  have hfaithful : stream.Faithful := bytewiseStream_faithful _
  have h := transfersFixSize stream 0 (by decide : UInt64.toNat 2 < 2 ^ 31) threeToCome
  exact ⟨h.read hfaithful.read, h.write hfaithful.write, h.readByteArray hfaithful.readByteArray,
    h.writeByteArray hfaithful.writeByteArray⟩

end ServerFramework
