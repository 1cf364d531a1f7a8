import ServerFramework.ByteArray.Buffers

/-! # Saving to a file and loading from one

`WriteToFile` writes a chunk for each block from `cur_` on. It takes the offset in the block off the
smaller of what is left and the block size, which is the rest of the block only if at least a
whole block is left or the offset is zero. `ReadFromFile` writes the file to the array in chunks
of its own block size.
-/

namespace ServerFramework

open Overwrite Transition

/-- How `WriteToFile` goes wrong: it follows `nullptr` or reads outside the memory of a block. -/
inductive FileFault where
  | nullDeref
  | outsideBlock
  deriving DecidableEq, Repr

/-- `ofs.write(n->ptr + off, count)`: the bytes it writes, and whether the stream is good then. A
stream that is not good writes nothing, and neither does a negative count, which spoils it. -/
def Node.ofsWrite (n : Node) (good : Bool) (off count : ℤ) : Except FileFault (List UInt8 × Bool) :=
  if good = false ∨ count < 0 then .ok ([], false)
  else if 0 ≤ off ∧ off + count ≤ n.size then
    .ok ((n.ptr.drop off.toNat).take count.toNat, true)
  else .error .outsideBlock

namespace ByteArray

/-- The loop of `WriteToFile` over the nodes from `cur_` on: the bytes that reach the file. An
`int64_t` holds every size. -/
def saveLoop (s : ℕ) (good : Bool) (pos readSize : ℤ) : List Node → Except FileFault (List UInt8)
  | [] => if readSize > 0 then .error .nullDeref else .ok []
  | n :: rest =>
    if readSize > 0 then
      -- `int diff = pos % base_size_`
      let diff := (pos % s).bmod (2 ^ 32)
      let len := (if readSize > s then (s : ℤ) else readSize) - diff
      match n.ofsWrite good diff len with
      | .error e => .error e
      | .ok (written, good') =>
        match saveLoop s good' (pos + len) (readSize - len) rest with
        | .error e => .error e
        | .ok bytes => .ok (written ++ bytes)
    else .ok []

/-- `WriteToFile` on a file that can be opened or not: what it returns and, if the file was opened,
what it contains then. -/
def writeToFile (opens : Bool) (b : ByteArray) : Except FileFault (Bool × Option (List UInt8)) :=
  if opens then
    let nodes := match b.cur with
      | none => []
      | some c => b.nodes.drop c
    match saveLoop b.baseSize true b.position b.getReadSize nodes with
    | .error e => .error e
    | .ok bytes => .ok (true, some bytes)
  else .ok (false, none)

section Blocks

variable {s : ℕ} {blocks : List Node}

theorem saveLoop_of_nonpos {good : Bool} {pos readSize : ℤ} (h : readSize ≤ 0) :
    saveLoop s good pos readSize blocks = .ok [] := by
  cases blocks with
  | nil => rw [saveLoop, if_neg (by omega)]
  | cons n rest => rw [saveLoop, if_neg (by omega)]

theorem ofsWrite_ok {n : Node} {off count : ℕ} (h : off + count ≤ n.size) :
    n.ofsWrite true off count = .ok ((n.ptr.drop off).take count, true) := by
  rw [Node.ofsWrite, if_neg (by simp), if_pos (by omega)]
  rfl

/-- An offset that an `int` holds is not changed by the conversion. -/
theorem diff_eq {pos d : ℕ} (hpos : pos % s = d) (hd : d < 2 ^ 31) :
    ((pos : ℤ) % s).bmod (2 ^ 32) = d := by
  rw [← Int.natCast_mod, hpos]
  exact Int.bmod_eq_of_le (by omega) (by omega)

theorem chunk_eq (len : ℕ) : (if (len : ℤ) > s then (s : ℤ) else len) = (min len s : ℕ) := by
  split_ifs <;> omega

/-- A chunk that ends with the block or with what is left. -/
theorem saveLoop_chunk {n : Node} (hn : n.size = s) {pos len d m : ℕ} (hlen : 0 < len)
    (hpos : pos % s = d) (hd : d < 2 ^ 31) (hm : d + m = min len s) :
    saveLoop s true pos len (n :: blocks) =
      match saveLoop s true (pos + m : ℕ) (len - m : ℕ) blocks with
      | .error e => .error e
      | .ok bytes => .ok ((n.ptr.drop d).take m ++ bytes) := by
  have hcount : ((min len s : ℕ) : ℤ) - d = m := by omega
  have hleft : (len : ℤ) - m = (len - m : ℕ) := by omega
  rw [saveLoop, if_pos (by exact_mod_cast hlen)]
  simp only [diff_eq hpos hd, chunk_eq, hcount, ofsWrite_ok (show d + m ≤ n.size by omega), hleft,
    Nat.cast_add]

/-- From the beginning of a block on, the loop writes what is left. -/
theorem saveLoop_aligned (h : ∀ n ∈ blocks, n.size = s) {pos len : ℕ} (hpos : s ∣ pos)
    (hfit : len ≤ s * blocks.length) :
    saveLoop s true pos len blocks = .ok ((blocks.flatMap Node.ptr).take len) := by
  induction blocks generalizing pos len with
  | nil =>
    obtain rfl : len = 0 := by simpa using hfit
    rfl
  | cons n rest ih =>
    rcases Nat.eq_zero_or_pos len with rfl | hlen
    · rw [Nat.cast_zero, saveLoop_of_nonpos le_rfl, List.take_zero]
    · have hn : n.size = s := h n (by simp)
      have hptr : n.ptr.length = s := hn
      rw [List.length_cons, Nat.mul_succ] at hfit
      rw [saveLoop_chunk hn hlen (Nat.mod_eq_zero_of_dvd hpos) (by decide) (Nat.zero_add _)]
      rcases Nat.le_total len s with hle | hle
      · rw [Nat.min_eq_left hle, Nat.sub_self, Nat.cast_zero, saveLoop_of_nonpos le_rfl,
          List.flatMap_cons, List.take_append_of_le_length (by omega)]
        simp
      · rw [Nat.min_eq_right hle, ih (fun m hm => h m (by simp [hm]))
            (Nat.dvd_add hpos (Nat.dvd_refl s)) (show len - s ≤ s * rest.length by omega),
          List.flatMap_cons, List.take_append, hptr, List.drop_zero,
          List.take_of_length_le hptr.le,
          List.take_of_length_le (l := n.ptr) (i := len) (by omega)]

/-- Inside a block with less than a block left, the offset and what is left change places at every
node, and the loop does not end before the nodes do. -/
theorem saveLoop_swaps (h : ∀ n ∈ blocks, n.size = s) {good : Bool} {pos x y : ℕ}
    (hpos : pos % s = x) (hx : 0 < x) (hxl : x < 2 ^ 31) (hy : 0 < y) (hys : y < s)
    (hyl : y < 2 ^ 31) : saveLoop s good pos y blocks = .error .nullDeref := by
  induction blocks generalizing good pos x y with
  | nil => rw [saveLoop, if_pos (by exact_mod_cast hy)]
  | cons n rest ih =>
    have hn : n.size = s := h n (by simp)
    have hle := Nat.mod_le pos s
    have hxs := Nat.mod_lt pos (by omega : s > 0)
    obtain ⟨written, good', hw⟩ : ∃ written good',
        n.ofsWrite good x (y - x) = .ok (written, good') := by
      unfold Node.ofsWrite
      split_ifs
      · exact ⟨_, _, rfl⟩
      · exact ⟨_, _, rfl⟩
      · omega
    have hnext : (pos + y - x) % s = y := by
      have hdm := Nat.div_add_mod pos s
      rw [show pos + y - x = s * (pos / s) + y by omega, Nat.mul_add_mod, Nat.mod_eq_of_lt hys]
    have hcast : (pos : ℤ) + (y - x) = (pos + y - x : ℕ) := by omega
    rw [saveLoop, if_pos (by exact_mod_cast hy)]
    simp only [diff_eq hpos hxl, chunk_eq, Nat.min_eq_left hys.le, hw, hcast, sub_sub_cancel]
    rw [ih (fun m hm => h m (by simp [hm])) hnext hy hyl hx (by omega) hxl]

/-- An offset that an `int` does not hold becomes negative, so the chunk starts before the block. -/
theorem saveLoop_far {pos len : ℕ} (hfar : 2 ^ 31 ≤ pos % s) (hlt : pos % s < 2 ^ 32)
    (hlen : 0 < len) : ∃ e, saveLoop s true pos len blocks = .error e := by
  cases blocks with
  | nil => exact ⟨.nullDeref, by rw [saveLoop, if_pos (by exact_mod_cast hlen)]⟩
  | cons n rest =>
    have hdiff : ((pos : ℤ) % s).bmod (2 ^ 32) < 0 := by
      rw [← Int.natCast_mod, Int.bmod_def]
      split_ifs <;> omega
    rw [saveLoop, if_pos (by exact_mod_cast hlen)]
    simp only [chunk_eq]
    generalize ((pos : ℤ) % s).bmod (2 ^ 32) = diff at *
    refine ⟨.outsideBlock, ?_⟩
    rw [Node.ofsWrite, if_neg (by simp; omega), if_neg (by omega)]

end Blocks

/-- What is left to write is nothing, starts with a block, or is a whole block at least, and begins
at an offset that an `int` holds. -/
def Savable (b : ByteArray) : Prop :=
  b.getReadSize = 0 ∨ b.position % b.baseSize = 0 ∨
    b.baseSize ≤ b.getReadSize ∧ b.position % b.baseSize < 2 ^ 31

instance (b : ByteArray) : Decidable b.Savable :=
  inferInstanceAs (Decidable (_ ∨ _ ∨ _ ∧ _))

section Saved

variable {b : ByteArray}

/-- The loop starts with the block of the position. -/
theorem writeToFile_eq (h : b.Wf) (hlt : b.position < b.capacity) :
    writeToFile true b =
      match saveLoop b.baseSize true b.position b.getReadSize
        (b.nodes.drop (b.position / b.baseSize)) with
      | .error e => .error e
      | .ok bytes => .ok (true, some bytes) := by
  simp only [writeToFile, h.cur_eq_some hlt, if_true]

theorem writeToFile_of_savable (h : b.Wf) (hsave : b.Savable) :
    writeToFile true b = .ok (true, some b.rest) := by
  have hps := h.position_le_size
  have hsc := h.size_le_capacity
  have hrs : b.getReadSize = b.size - b.position := rfl
  rcases Nat.eq_zero_or_pos b.getReadSize with hz | hpos
  · have hrest : b.rest = [] := List.eq_nil_of_length_eq_zero (h.length_rest.trans hz)
    simp only [writeToFile, hz, Nat.cast_zero, saveLoop_of_nonpos le_rfl, hrest, if_true]
  · have hlt : b.position < b.capacity := by omega
    obtain ⟨-, -, hlen⟩ := h.bytes_split hlt
    have hrest : b.rest = (((b.nodes.drop (b.position / b.baseSize)).flatMap Node.ptr).drop
        (b.position % b.baseSize)).take b.getReadSize := by
      rw [h.drop_blocks hlt, rest, content, List.drop_take]
      rfl
    have hsize := h.drop_size (b.position / b.baseSize)
    rw [writeToFile_eq h hlt, hrest]
    generalize b.nodes.drop (b.position / b.baseSize) = blocks at *
    by_cases hd : b.position % b.baseSize = 0
    · rw [saveLoop_aligned hsize (Nat.dvd_of_mod_eq_zero hd) (by omega), hd, List.drop_zero]
    · -- the first chunk ends its block, and the others start with theirs
      obtain ⟨hle, hint⟩ : b.baseSize ≤ b.getReadSize ∧ b.position % b.baseSize < 2 ^ 31 := by
        rcases hsave with hz | hz | hwhole
        · omega
        · exact absurd hz hd
        · exact hwhole
      have hmod := h.position_mod_lt
      have hdm := Nat.div_add_mod b.position b.baseSize
      cases blocks with
      | nil =>
        simp only [List.length_nil] at hlen
        omega
      | cons n rest =>
        have hptr : n.ptr.length = b.baseSize := hsize n List.mem_cons_self
        have hnext : b.baseSize ∣ b.position + (b.baseSize - b.position % b.baseSize) := by
          refine ⟨b.position / b.baseSize + 1, ?_⟩
          rw [Nat.mul_succ]
          omega
        rw [List.length_cons, Nat.mul_succ] at hlen
        rw [saveLoop_chunk hptr hpos rfl hint (m := b.baseSize - b.position % b.baseSize)
            (by omega),
          saveLoop_aligned (fun m hm => hsize m (List.mem_cons_of_mem _ hm)) hnext (by omega),
          List.flatMap_cons, List.drop_append_of_le_length (by omega), List.take_append,
          List.length_drop, hptr, List.take_of_length_le (l := n.ptr.drop _)
            (i := b.baseSize - b.position % b.baseSize) (by simp [hptr]),
          List.take_of_length_le (l := n.ptr.drop _) (i := b.getReadSize) (by simp [hptr]; omega)]

theorem writeToFile_of_not_savable (h : b.Wf) (hs : b.baseSize ≤ 2 ^ 32) (hsave : ¬ b.Savable) :
    ∃ e, writeToFile true b = .error e := by
  obtain ⟨hpos, hd, hshort⟩ : 0 < b.getReadSize ∧ 0 < b.position % b.baseSize ∧
      (b.getReadSize < b.baseSize ∨ 2 ^ 31 ≤ b.position % b.baseSize) := by
    unfold Savable at hsave
    omega
  have hlt : b.position < b.capacity := by
    have := h.size_le_capacity
    unfold getReadSize at hpos
    omega
  have hmod := h.position_mod_lt
  have hsize := h.drop_size (b.position / b.baseSize)
  obtain ⟨e, he⟩ : ∃ e, saveLoop b.baseSize true b.position b.getReadSize
      (b.nodes.drop (b.position / b.baseSize)) = .error e := by
    generalize b.nodes.drop (b.position / b.baseSize) = blocks at *
    rcases Nat.lt_or_ge (b.position % b.baseSize) (2 ^ 31) with hint | hfar
    · rcases Nat.lt_or_ge b.getReadSize (2 ^ 31) with hint' | hfar'
      · exact ⟨_, saveLoop_swaps hsize rfl hd hint hpos (by omega) hint'⟩
      · -- the first chunk is written, and the next one starts at an offset that is too large
        cases blocks with
        | nil => exact ⟨.nullDeref, by rw [saveLoop, if_pos (by exact_mod_cast hpos)]⟩
        | cons n rest =>
          have hdm := Nat.div_add_mod b.position b.baseSize
          have hnext : (b.position + (b.getReadSize - b.position % b.baseSize)) % b.baseSize =
              b.getReadSize := by
            rw [show b.position + (b.getReadSize - b.position % b.baseSize) =
                b.baseSize * (b.position / b.baseSize) + b.getReadSize by omega,
              Nat.mul_add_mod, Nat.mod_eq_of_lt (by omega)]
          rw [saveLoop_chunk (hsize n List.mem_cons_self) hpos rfl hint
            (m := b.getReadSize - b.position % b.baseSize) (by omega)]
          obtain ⟨e, he⟩ : ∃ e, saveLoop b.baseSize true
              (b.position + (b.getReadSize - b.position % b.baseSize) : ℕ)
              (b.getReadSize - (b.getReadSize - b.position % b.baseSize) : ℕ) rest = .error e :=
            saveLoop_far (hnext.symm ▸ hfar') (by omega) (by omega)
          exact ⟨e, by rw [he]⟩
    · exact saveLoop_far hfar (by omega) hpos
  rw [writeToFile_eq h hlt, he]
  exact ⟨e, rfl⟩

/-- In every state that an array can get into, the file gets the bytes that `ToString` copies if
what is left is savable, and for blocks of up to 4 GiB only then. -/
theorem saved_iff {s : ℕ} (hs : 1 ≤ s) (heap : Heap) (host : Endian) (acts : List Act)
    (b : ByteArray) (hr : run (act heap host) (new heap s) acts = some b)
    (hcap : b.capacity < 2 ^ 63) :
    (b.Savable → ∃ str, toString b = .ok str b ∧ writeToFile true b = .ok (true, some str)) ∧
      (s ≤ 2 ^ 32 →
        ((∃ str, toString b = .ok str b ∧ writeToFile true b = .ok (true, some str)) ↔
          b.Savable)) := by
  have h := wf_of_acts hs hr
  have hsize := h.size_le_capacity
  have hsave : b.Savable →
      ∃ str, toString b = .ok str b ∧ writeToFile true b = .ok (true, some str) := fun hsave =>
    ⟨b.rest, toString_spec h.toWf (by omega), writeToFile_of_savable h.toWf hsave⟩
  refine ⟨hsave, fun hbs => ⟨?_, hsave⟩⟩
  rintro ⟨str, -, hfile⟩
  by_contra hno
  obtain ⟨e, he⟩ := writeToFile_of_not_savable h.toWf (h.baseSize_eq.le.trans hbs) hno
  rw [he] at hfile
  cases hfile

/-- The last three bytes of the first block of four and all of the second. -/
theorem saved_iff_two_blocks : ∃ b : ByteArray,
    run (act (fun _ _ => 0) .little) (new (fun _ _ => 0) 4)
      [.call (.write [1, 2, 3, 4, 5, 6, 7, 8]), .call (.setPosition 1)] = some b ∧
    ∃ str, toString b = .ok str b ∧ writeToFile true b = .ok (true, some str) :=
  ⟨_, rfl, (saved_iff (by decide : 1 ≤ 4) (fun _ _ => 0) .little
    [.call (.write [1, 2, 3, 4, 5, 6, 7, 8]), .call (.setPosition 1)] _ rfl (by decide)).1
    (by decide)⟩

/-- Two bytes in the middle of the only block. -/
theorem save_follows_null : ∃ b : ByteArray,
    run (act (fun _ _ => 0) .little) (new (fun _ _ => 0) 4)
      [.call (.write [1, 2, 3]), .call (.setPosition 1)] = some b ∧ b.rest = [2, 3] ∧
    writeToFile true b = .error .nullDeref :=
  ⟨_, rfl, rfl, rfl⟩

end Saved

section Loaded

/-- Writing in chunks writes the whole. -/
theorem fileLoop_content (heap : Heap) (k : ℕ) (file : List UInt8) {b : ByteArray} (h : b.Wf) :
    ∃ b', fileLoop heap k file b = .ok () b' ∧ b'.Wf ∧
      b'.content = overwrite b.content b.position file ∧
      b'.position = b.position + file.length ∧ b'.endian = b.endian ∧
      b'.baseSize = b.baseSize := by
  fun_induction fileLoop heap k file generalizing b with
  | case1 file hk ih =>
    obtain ⟨b₁, hw, hb₁, hc₁, hp₁, -, he₁, hbs₁⟩ := write_content heap h (file.take k)
    obtain ⟨b₂, hl, hb₂, hc₂, hp₂, he₂, hbs₂⟩ := ih hb₁
    have htake : (file.take k).length = k := List.length_take_of_le hk.2
    refine ⟨b₂, ?_, hb₂, ?_, ?_, he₂.trans he₁, hbs₂.trans hbs₁⟩
    · simp only [bind, EStateM.bind, hw, hl]
    · rw [hc₂, hc₁, hp₁, overwrite_overwrite _ _ (h.length_content.symm ▸ h.position_le_size),
        List.take_append_drop]
    · rw [hp₂, hp₁, htake, List.length_drop]
      omega
  | case2 file hk =>
    obtain ⟨b', hw, hb', hc, hp, -, he, hbs⟩ := write_content heap h file
    exact ⟨b', hw, hb', hc, hp, he, hbs⟩

/-- Loading a file is writing its bytes. -/
theorem readFromFile_content (heap : Heap) (file : List UInt8) {b : ByteArray} (h : b.Wf) :
    ∃ b', readFromFile heap (some file) b = .ok true b' ∧ b'.Wf ∧
      b'.content = overwrite b.content b.position file ∧
      b'.position = b.position + file.length ∧ b'.endian = b.endian := by
  obtain ⟨b', hl, hb', hc, hp, he, -⟩ := fileLoop_content heap b.baseSize file h
  refine ⟨b', ?_, hb', hc, hp, he⟩
  change EStateM.bind (fileLoop heap b.baseSize file) _ b = _
  simp only [EStateM.bind, hl]
  rfl

/-- In every state that an array can get into with the position at the start, the file that is
saved and loaded into a new array of any block size gives the same data; and loading a file into
any array is the same as writing its bytes. -/
theorem file_round_trip {s₁ s₂ : ℕ} (hs₁ : 1 ≤ s₁) (hs₂ : 1 ≤ s₂) (heap heap' : Heap)
    (host : Endian) (acts : List Act) (b : ByteArray)
    (hr : run (act heap host) (new heap s₁) acts = some b) (hcap : b.capacity < 2 ^ 63) :
    (b.position = 0 → ∃ file c c' str, writeToFile true b = .ok (true, some file) ∧
      readFromFile heap' (some file) (new heap' s₂) = .ok true c ∧
      setPosition 0 c = .ok () c' ∧ c'.size = b.size ∧ toString b = .ok str b ∧
      toString c' = .ok str c') ∧
    ∀ file, ∃ b₁ b₂, readFromFile heap (some file) b = .ok true b₁ ∧ write heap file b = .ok () b₂ ∧
      b₁.content = b₂.content ∧ b₁.position = b₂.position ∧ b₁.size = b₂.size ∧
      b₁.endian = b₂.endian := by
  have h := (wf_of_acts hs₁ hr).toWf
  have hsc := h.size_le_capacity
  constructor
  · intro hzero
    have hsave : b.Savable := Or.inr (Or.inl (by rw [hzero, Nat.zero_mod]))
    obtain ⟨c, hload, hc, hcontent, hp, -⟩ :=
      readFromFile_content heap' b.rest (new_wf heap' hs₂)
    obtain ⟨c', hset, hc', hbytes, hp', hs', -, -⟩ := setPosition_spec hc (Nat.zero_le _)
    have hrest : c'.rest = b.rest := by
      have hnew : (new heap' s₂).content = [] := by simp [content, new]
      rw [rest, content, hbytes, hp', hs', Nat.max_eq_left (Nat.zero_le _), List.drop_zero]
      change c.content = _
      rw [hcontent, hnew]
      simp [overwrite]
    have hsize : c'.size = b.size := by
      have hl := congrArg List.length hrest
      rwa [hc'.length_rest, h.length_rest, getReadSize, getReadSize, hp', hzero, Nat.sub_zero,
        Nat.sub_zero] at hl
    refine ⟨b.rest, c, c', b.rest, writeToFile_of_savable h hsave, hload, hset, hsize,
      toString_spec h (by omega), ?_⟩
    rw [← hrest]
    exact toString_spec hc' (by omega)
  · intro file
    obtain ⟨b₁, hload, hb₁, hc₁, hp₁, he₁⟩ := readFromFile_content heap file h
    obtain ⟨b₂, hwrite, hb₂, hc₂, hp₂, hs₂, he₂, -⟩ := write_content heap h file
    have hsize : b₁.size = b₂.size := by
      rw [← hb₁.length_content, ← hb₂.length_content, hc₁, hc₂]
    exact ⟨b₁, b₂, hload, hwrite, hc₁.trans hc₂.symm, hp₁.trans hp₂.symm, hsize,
      he₁.trans he₂.symm⟩

/-- Five bytes from blocks of four into blocks of two. -/
theorem file_round_trip_five_bytes : ∃ b : ByteArray,
    run (act (fun _ _ => 0) .little) (new (fun _ _ => 0) 4)
      [.call (.write [1, 2, 3, 4, 5]), .call (.setPosition 0)] = some b ∧
    ∃ file c c' str, writeToFile true b = .ok (true, some file) ∧
      readFromFile (fun _ _ => 9) (some file) (new (fun _ _ => 9) 2) = .ok true c ∧
      setPosition 0 c = .ok () c' ∧ c'.size = 5 ∧ toString b = .ok str b ∧
      toString c' = .ok str c' :=
  ⟨_, rfl, (file_round_trip (by decide : 1 ≤ 4) (by decide : 1 ≤ 2) (fun _ _ => 0) (fun _ _ => 9)
    .little [.call (.write [1, 2, 3, 4, 5]), .call (.setPosition 0)] _ rfl (by decide)).1 rfl⟩

end Loaded

end ByteArray

end ServerFramework
