import ServerFramework.ByteArray.Buffers

/-! # Ranges that start anywhere in the array

The `read` and the `GetReadBuffers` that take a position leave the cursor alone. The first starts
in the block of the cursor all the same, and the second bounds the length by what lies behind the
cursor; each is exact on the ranges for which that makes no difference.
-/

namespace ServerFramework.ByteArray

open Overwrite Transition

/-- The `GetReadBuffers` that walks from `root_` to the block of a position. -/
def getReadBuffersAt (len position : ℕ) : M (ℕ × List Iovec) := fun b =>
  let len := if len > b.getReadSize then b.getReadSize else len
  if len = 0 then .ok (0, []) b
  else
    -- a walk that ends behind the last node and one that would go further both follow `nullptr`
    match iovecLoop (position % b.baseSize) len (position / b.baseSize)
        (b.nodes.drop (position / b.baseSize)) with
    | .error e => .error e b
    | .ok iovs => .ok (len, iovs) b

variable {heap : Heap} {host : Endian} {b : ByteArray} {s : ℕ}

/-- Where a positional `read` starts: at the offset of the position, in the block of `cur_`. -/
def readStart (b : ByteArray) (position : ℕ) : ℕ :=
  b.baseSize * (b.position / b.baseSize) + position % b.baseSize

theorem readAt_spec (h : b.Wf) {n p : ℕ} (hn : n ≤ (b.size + 2 ^ 64 - p) % 2 ^ 64) :
    readAt n p b =
      if b.position < b.capacity ∧ (n = 0 ∨ b.readStart p + n ≤ b.capacity) then
        .ok ((b.bytes.drop (b.readStart p)).take n) b
      else .error .nullDeref b := by
  rw [readAt, if_neg (by omega)]
  by_cases hlt : b.position < b.capacity
  · obtain ⟨hsplit, hpre, hlen⟩ := h.bytes_split hlt
    have hdm := Nat.div_add_mod b.position b.baseSize
    have hmod := Nat.mod_lt p h.baseSize_pos
    have hsize := h.drop_size (b.position / b.baseSize)
    simp only [h.cur_eq_some hlt, hlt, true_and, readStart]
    rcases Nat.eq_zero_or_pos n with rfl | hpos
    · simp
    · rw [if_neg (by omega)]
      by_cases hfit : b.baseSize * (b.position / b.baseSize) + p % b.baseSize + n ≤ b.capacity
      · rw [if_pos (Or.inr hfit), readLoop_spec _ _ hsize hmod hpos (by omega)]
        conv_rhs => rw [hsplit, ← hpre, List.drop_length_add_append]
      · rw [if_neg (by omega), readLoop_of_lt _ _ hsize hmod (by omega)]
  · have hcur : b.cur = none := by
      have := h.position_le_size
      have := h.size_le_capacity
      exact h.cur_eq_none_iff.mpr (by omega)
    simp only [hcur, hlt, false_and, if_false]

/-- The range is where the positional `read` looks for it: if it lies in the data, `cur_` is not
null and points to the block of `p`; otherwise the difference of the size and `p` does not wrap
around, or not enough. -/
def InPlace (b : ByteArray) (n p : ℕ) : Prop :=
  if p + n ≤ b.size then
    b.position < b.capacity ∧ (n = 0 ∨ p / b.baseSize = b.position / b.baseSize)
  else p ≤ b.size ∨ b.size + 2 ^ 64 < p + n

instance (b : ByteArray) (n p : ℕ) : Decidable (b.InPlace n p) :=
  inferInstanceAs (Decidable (if p + n ≤ b.size then
    b.position < b.capacity ∧ (n = 0 ∨ p / b.baseSize = b.position / b.baseSize)
    else p ≤ b.size ∨ b.size + 2 ^ 64 < p + n))

/-- What the positional `read` is meant to do, wherever the cursor is. -/
def ReadsRange (b : ByteArray) (n p : ℕ) : Prop :=
  Keeps.finalState (readAt n p b) = b ∧
    ((∃ what b', readAt n p b = .error (.outOfRange what) b') ↔ b.size < p + n) ∧
    (p + n ≤ b.size → readAt n p b = .ok ((b.content.drop p).take n) b)

/-- The arrays differ in the bytes of their blocks at most. -/
structure SameShape (b b' : ByteArray) : Prop where
  baseSize : b'.baseSize = b.baseSize
  position : b'.position = b.position
  size : b'.size = b.size
  capacity : b'.capacity = b.capacity

theorem readStart_of_same_block {p : ℕ} (hp : p / b.baseSize = b.position / b.baseSize) :
    b.readStart p = p := by
  rw [readStart, ← hp, Nat.div_add_mod]

theorem readStart_ne {p : ℕ} (h : b.Wf) (hp : p / b.baseSize ≠ b.position / b.baseSize) :
    b.readStart p ≠ p := by
  intro he
  apply hp
  conv_lhs => rw [← he]
  rw [readStart, Nat.mul_add_div h.baseSize_pos, Nat.div_eq_of_lt (Nat.mod_lt _ h.baseSize_pos),
    Nat.add_zero]

theorem readAt_throws_iff (h : b.Wf) (n p : ℕ) :
    (∃ what b', readAt n p b = .error (.outOfRange what) b') ↔
      (b.size + 2 ^ 64 - p) % 2 ^ 64 < n := by
  constructor
  · rintro ⟨what, b', hr⟩
    by_contra hle
    rw [readAt_spec h (by omega)] at hr
    split_ifs at hr
    cases hr
  · intro hlt
    rw [readAt, if_pos hlt]
    exact ⟨_, _, rfl⟩

/-- What a range in the data gives, and when a range outside of it is refused. -/
theorem readsRange_iff (h : b.Wf) (hcap : b.capacity < 2 ^ 64) {n p : ℕ} (hp : p < 2 ^ 64) :
    b.ReadsRange n p ↔
      if p + n ≤ b.size then
        b.position < b.capacity ∧
          (b.bytes.drop (b.readStart p)).take n = (b.bytes.drop p).take n
      else p ≤ b.size ∨ b.size + 2 ^ 64 < p + n := by
  have hsc := h.size_le_capacity
  have hsub := unsigned_sub (hsc.trans_lt hcap) hp
  simp only [ReadsRange, finalState_readAt, true_and, readAt_throws_iff h]
  by_cases hle : p + n ≤ b.size
  · rw [if_pos (by omega)] at hsub
    have hlen : ((b.bytes.drop p).take n).length = n := by
      rw [List.length_take, List.length_drop, h.length_bytes]
      omega
    rw [if_pos hle, readAt_spec h (by omega), content_slice hle, hsub]
    constructor
    · rintro ⟨-, hread⟩
      have hok := hread hle
      split_ifs at hok with hin
      · injection hok with hbytes _
        exact ⟨hin.1, hbytes⟩
    · rintro ⟨hlt, hbytes⟩
      have hfit : n = 0 ∨ b.readStart p + n ≤ b.capacity := by
        rw [← hbytes, List.length_take, List.length_drop, h.length_bytes] at hlen
        omega
      rw [if_pos ⟨hlt, hfit⟩, hbytes]
      exact ⟨by omega, fun _ => rfl⟩
  · rw [if_neg hle, hsub]
    simp only [hle, false_implies, and_true]
    split_ifs <;> omega

/-- The data can be replaced in place by other data of its length. -/
theorem rewrite_data (h : b.Wf) (heap : Heap) (host : Endian) {cs : List UInt8}
    (hcs : cs.length = b.size) :
    ∃ b', run (act heap host) b
        [.call (.setPosition 0), .call (.write cs), .call (.setPosition b.position)] = some b' ∧
      b.SameShape b' ∧ b'.bytes = overwrite b.bytes 0 cs := by
  have hps := h.position_le_size
  have hsc := h.size_le_capacity
  obtain ⟨b₁, hset, h₁, hbytes₁, hp₁, hs₁, -, hbs₁⟩ := setPosition_spec h (Nat.zero_le b.capacity)
  have hcap₁ : b₁.capacity = b.capacity := by rw [← h₁.length_bytes, hbytes₁, h.length_bytes]
  obtain ⟨b₂, hw, h₂, hbytes₂, hp₂, hs₂, -, hbs₂⟩ :=
    write_inside heap h₁ (show b₁.position + cs.length ≤ b₁.capacity by rw [hp₁, hcap₁]; omega)
  have hcap₂ : b₂.capacity = b.capacity := by
    rw [← h₂.length_bytes, hbytes₂, length_overwrite, h₁.length_bytes, hcap₁]
    rw [h₁.length_bytes, hp₁, hcap₁]
    omega
  obtain ⟨b₃, hset', h₃, hbytes₃, hp₃, hs₃, -, hbs₃⟩ :=
    setPosition_spec h₂ (hcap₂ ▸ hps.trans hsc)
  have hcap₃ : b₃.capacity = b.capacity := by
    rw [← h₃.length_bytes, hbytes₃, h₂.length_bytes, hcap₂]
  refine ⟨b₃, ?_, ⟨?_, hp₃, ?_, hcap₃⟩, ?_⟩
  · simp only [run_cons_iff, act, after, perform, hset, hw, hset', Option.some.injEq,
      exists_eq_left', run_nil]
  · rw [hbs₃, hbs₂, hbs₁]
  · rw [hs₃, hs₂, hs₁, hp₁]
    omega
  · rw [hbytes₃, hbytes₂, hbytes₁, hp₁]

/-- Data in which the byte at `p` is not the one that the loop starts at. -/
theorem exists_data_misread (h : b.Wf) {p : ℕ} (hp : p < b.size) (hne : b.readStart p ≠ p) :
    ∃ cs : List UInt8, cs.length = b.size ∧
      (overwrite b.bytes 0 cs)[b.readStart p]? ≠ (overwrite b.bytes 0 cs)[p]? := by
  have hlen := h.length_bytes
  have hsc := h.size_le_capacity
  let x := b.bytes[b.readStart p]?.getD 0
  let cs := (List.replicate b.size x).set p (x + 1)
  have hcs : cs.length = b.size := by simp [cs]
  refine ⟨cs, hcs, ?_⟩
  have hat : (overwrite b.bytes 0 cs)[p]? = some (x + 1) := by
    have := getElem?_overwrite_inside (l := b.bytes) (Nat.zero_le _) (hcs.symm ▸ hp)
    rw [Nat.zero_add] at this
    rw [this, List.getElem?_set_self (by simpa using hp)]
  rw [hat]
  by_cases hin : b.readStart p < b.size
  · have := getElem?_overwrite_inside (l := b.bytes) (Nat.zero_le _) (hcs.symm ▸ hin)
    rw [Nat.zero_add] at this
    rw [this, List.getElem?_set_ne hne.symm, List.getElem?_replicate, if_pos hin]
    simp
  · -- behind the data the bytes stay what they are
    rw [getElem?_overwrite_outside (by omega) (by omega)]
    rcases hx : b.bytes[b.readStart p]? with _ | y
    · simp
    · have : x = y := by simp [x, hx]
      simp [this]

/-- In every state that an array can get into, the positional `read` throws exactly if the data
ends before the range does, and else copies the range, if the range is in the block of the cursor.
If this holds whatever the bytes of an array of this shape are, the range is there. -/
theorem positional_read_iff (hs : 1 ≤ s) (heap : Heap) (host : Endian) (acts : List Act)
    (b : ByteArray) (hr : run (act heap host) (new heap s) acts = some b)
    (hcap : b.capacity < 2 ^ 64) (size position : UInt64) :
    (b.InPlace size.toNat position.toNat → b.ReadsRange size.toNat position.toNat) ∧
    ((∀ acts' b', run (act heap host) (new heap s) acts' = some b' → b.SameShape b' →
        b'.ReadsRange size.toNat position.toNat) → b.InPlace size.toNat position.toNat) := by
  have h := (wf_of_acts hs hr).toWf
  have hp := position.toNat_lt
  generalize size.toNat = n
  generalize position.toNat = p at *
  constructor
  · intro hin
    rw [readsRange_iff h hcap hp]
    unfold InPlace at hin
    split_ifs at hin ⊢ with hle
    · obtain ⟨hlt, rfl | hblock⟩ := hin
      · exact ⟨hlt, by simp only [List.take_zero]⟩
      · exact ⟨hlt, by rw [readStart_of_same_block hblock]⟩
    · exact hin
  · intro hall
    have hb := (readsRange_iff h hcap hp).mp (hall acts b hr ⟨rfl, rfl, rfl, rfl⟩)
    unfold InPlace
    split_ifs at hb ⊢ with hle
    · refine ⟨hb.1, ?_⟩
      by_contra! hout
      obtain ⟨cs, hcs, hmis⟩ := exists_data_misread h (by omega) (readStart_ne h hout.2)
      obtain ⟨b', hrun, hshape, hbytes⟩ := rewrite_data h heap host hcs
      have hr' := run_append_iff.mpr ⟨b, hr, hrun⟩
      have hb' := (readsRange_iff (wf_of_acts hs hr').toWf (hshape.capacity ▸ hcap) hp).mp
        (hall _ b' hr' hshape)
      rw [hshape.size, if_pos hle, hbytes] at hb'
      have hstart : b'.readStart p = b.readStart p := by
        simp only [readStart, hshape.baseSize, hshape.position]
      have hfirst := congrArg (·[0]?) hb'.2
      simp only [hstart, List.getElem?_take_of_lt (Nat.pos_of_ne_zero hout.1), List.getElem?_drop,
        Nat.add_zero] at hfirst
      exact hmis hfirst
    · exact hb

/-- With the cursor at the start of the second block, that block is read. -/
theorem positional_read_iff_second_block : ∃ b : ByteArray,
    run (act (fun _ _ => 0) .little) (new (fun _ _ => 0) 2)
      [.call (.write [1, 2, 3, 4, 5]), .call (.setPosition 2)] = some b ∧
    readAt 2 2 b = .ok [3, 4] b := by
  have h := (positional_read_iff (by decide : 1 ≤ 2) (fun _ _ => 0) .little
    [.call (.write [1, 2, 3, 4, 5]), .call (.setPosition 2)] _ rfl (by decide) 2 2).1 (by decide)
  exact ⟨_, rfl, h.2.2 (by decide)⟩

/-- The first byte of the second block is asked for, and that of the first block is copied. -/
theorem positional_read_wrong_block : ∃ b : ByteArray,
    run (act (fun _ _ => 0) .little) (new (fun _ _ => 0) 4)
      [.call (.write [1, 2, 3, 4, 5, 6]), .call (.setPosition 0)] = some b ∧
    4 + 1 ≤ b.size ∧ readAt 1 4 b = .ok [1] b ∧ (b.content.drop 4).take 1 = [5] := by
  refine ⟨_, rfl, by decide, ?_, by decide⟩
  rw [readAt, if_neg (by decide)]
  rfl

theorem getReadBuffersAt_spec (h : b.Wf) (len p : ℕ)
    (hfit : p + min len b.getReadSize ≤ b.size) :
    ∃ iovs, getReadBuffersAt len p b = .ok (min len b.getReadSize, iovs) b ∧
      gather b.nodes iovs = (b.content.drop p).take (min len b.getReadSize) := by
  rcases Nat.eq_zero_or_pos (min len b.getReadSize) with hz | hpos
  · refine ⟨[], ?_, by simp [gather, hz]⟩
    simp only [getReadBuffersAt, clamped_len, hz, if_true]
  · obtain ⟨iovs, hl, hc, hsum⟩ := iovecLoop_at h hpos (hfit.trans h.size_le_capacity)
    refine ⟨iovs, ?_, ?_⟩
    · simp only [getReadBuffersAt, clamped_len, hl]
      rw [if_neg (by omega)]
    · rw [gather_eq h.node_size hc, hsum, content_slice hfit]
      rfl

theorem getReadBuffersAt_length {len p n : ℕ} {iovs : List Iovec} {b' : ByteArray}
    (hr : getReadBuffersAt len p b = .ok (n, iovs) b') : n = min len b.getReadSize := by
  simp only [getReadBuffersAt, clamped_len] at hr
  split_ifs at hr with hz
  · cases hr
    exact hz.symm
  · cases hl : iovecLoop (p % b.baseSize) (min len b.getReadSize) (p / b.baseSize)
        (b.nodes.drop (p / b.baseSize)) with
    | error e =>
      simp only [hl] at hr
      cases hr
    | ok iovs' =>
      simp only [hl] at hr
      cases hr
      rfl

/-- In every state that an array can get into, the read buffers from a position in the data on are
cut from the data if and only if the position is not behind the cursor or the length stays inside
the data. -/
theorem positional_gather_iff (hs : 1 ≤ s) (heap : Heap) (host : Endian) (acts : List Act)
    (b : ByteArray) (hr : run (act heap host) (new heap s) acts = some b) (len position : ℕ)
    (hp : position ≤ b.size) :
    (∃ n iovs, getReadBuffersAt len position b = .ok (n, iovs) b ∧
      min len (min b.getReadSize (b.size - position)) ≤ n ∧ n ≤ len ∧ position + n ≤ b.size ∧
      gather b.nodes iovs = (b.content.drop position).take n) ↔
    position ≤ b.position ∨ len ≤ b.size - position := by
  have h := (wf_of_acts hs hr).toWf
  have hps := h.position_le_size
  have hrs : b.getReadSize = b.size - b.position := rfl
  constructor
  · rintro ⟨n, iovs, hget, -, -, hfit, -⟩
    have := getReadBuffersAt_length hget
    omega
  · intro hcond
    obtain ⟨iovs, hget, hgather⟩ := getReadBuffersAt_spec h len position (by omega)
    exact ⟨_, iovs, hget, by omega, by omega, by omega, hgather⟩

/-- From behind the cursor up to the end of the data, across two blocks. -/
theorem positional_gather_iff_two_blocks : ∃ b : ByteArray,
    run (act (fun _ _ => 0) .little) (new (fun _ _ => 0) 2)
      [.call (.write [1, 2, 3, 4, 5]), .call (.setPosition 1)] = some b ∧
    ∃ n iovs, getReadBuffersAt 2 3 b = .ok (n, iovs) b ∧ n ≤ 2 ∧
      gather b.nodes iovs = (b.content.drop 3).take n := by
  obtain ⟨n, iovs, hget, -, hle, -, hgather⟩ := (positional_gather_iff (by decide : 1 ≤ 2)
    (fun _ _ => 0) .little [.call (.write [1, 2, 3, 4, 5]), .call (.setPosition 1)] _ rfl 2 3
    (by decide)).mpr (Or.inr (by decide))
  exact ⟨_, rfl, n, iovs, hget, hle, hgather⟩

/-- One byte of data and one that nobody wrote are handed out, and with a longer range the walk
leaves the blocks. -/
theorem positional_gather_past_end : ∃ b : ByteArray,
    run (act (fun _ _ => 0xAA) .little) (new (fun _ _ => 0xAA) 4)
      [.call (.write [1, 2, 3]), .call (.setPosition 0)] = some b ∧ b.size = 3 ∧
    (∃ iovs, getReadBuffersAt 2 2 b = .ok (2, iovs) b ∧ gather b.nodes iovs = [3, 0xAA]) ∧
    getReadBuffersAt 3 2 b = .error .nullDeref b :=
  ⟨_, rfl, rfl, ⟨_, rfl, by decide⟩, rfl⟩

end ServerFramework.ByteArray
