import Mathlib.Tactic.Ring
import ServerFramework.ByteArray.Basic

/-! # Well-formed byte arrays and what the operations do to their memory

`ByteArray.Wf` ties `cur_`, `position_`, `capacity_` and the list of blocks together.
Each operation keeps it, and its effect is stated on the bytes of all blocks taken
as one list.
-/

namespace ServerFramework.ByteArray

open Overwrite

/-- The bytes of all blocks in order. -/
def bytes (b : ByteArray) : List UInt8 := b.nodes.flatMap Node.ptr

/-- The representation invariant. -/
structure Wf (b : ByteArray) : Prop where
  baseSize_pos : 1 ≤ b.baseSize
  node_size : ∀ n ∈ b.nodes, n.size = b.baseSize
  nodes_ne_nil : b.nodes ≠ []
  capacity_eq : b.capacity = b.baseSize * b.nodes.length
  position_le_size : b.position ≤ b.size
  size_le_capacity : b.size ≤ b.capacity
  cur_eq : b.cur = b.nodeAt (b.position / b.baseSize)

section Blocks

variable {s : ℕ} {blocks : List Node}

theorem length_flatMap_ptr (h : ∀ n ∈ blocks, n.size = s) :
    (blocks.flatMap Node.ptr).length = s * blocks.length := by
  induction blocks with
  | nil => simp
  | cons n rest ih =>
    have hn : n.ptr.length = s := h n (by simp)
    rw [List.flatMap_cons, List.length_append, hn, ih fun m hm => h m (by simp [hm]),
      List.length_cons]
    ring

/-- Leaving the block early, at its end or past it counts the blocks that were finished. -/
theorem advance_eq (npos len : ℕ) (hs : npos < s) (h : npos + len ≤ s) :
    (if s = npos + len then 1 else 0) = (npos + len) / s := by
  split_ifs with he
  · rw [← he, Nat.div_self (by omega)]
  · rw [Nat.div_eq_of_lt (by omega)]

theorem advance_succ {npos len : ℕ} (hs : npos < s) (h : s - npos ≤ len) :
    (0 + (len - (s - npos))) / s + 1 = (npos + len) / s := by
  have he : npos + len = (0 + (len - (s - npos))) + s := by omega
  rw [he, Nat.add_div_right _ (by omega)]

theorem writeLoop_spec (npos : ℕ) (buf : List UInt8) (h : ∀ n ∈ blocks, n.size = s) (hs : npos < s)
    (hb : 0 < buf.length) (hfit : npos + buf.length ≤ s * blocks.length) :
    ∃ blocks', writeLoop npos buf blocks = .ok (blocks', (npos + buf.length) / s) ∧
      blocks'.flatMap Node.ptr = overwrite (blocks.flatMap Node.ptr) npos buf ∧
      blocks'.length = blocks.length ∧ ∀ n ∈ blocks', n.size = s := by
  induction blocks generalizing npos buf with
  | nil =>
    rw [List.length_nil, Nat.mul_zero] at hfit
    omega
  | cons n rest ih =>
    have hn : n.size = s := h n (by simp)
    have hrest : ∀ m ∈ rest, m.size = s := fun m hm => h m (by simp [hm])
    have hlen : n.ptr.length = s := hn
    by_cases hc : n.size - npos ≥ buf.length
    · refine ⟨n.memcpy npos buf :: rest, ?_, ?_, rfl, ?_⟩
      · rw [writeLoop, if_pos hc, hn, advance_eq _ _ hs (by omega)]
      · rw [List.flatMap_cons, List.flatMap_cons, overwrite_append_left (by omega)]
        rfl
      · intro m hm
        rcases List.mem_cons.mp hm with rfl | hm
        · rw [Node.size_memcpy (by omega), hn]
        · exact hrest m hm
    · have htake : (buf.take (n.size - npos)).length = s - npos := by simp; omega
      have hdrop : (buf.drop (n.size - npos)).length = buf.length - (s - npos) := by simp [hn]
      rw [List.length_cons, Nat.mul_succ] at hfit
      obtain ⟨rest', hr, hbytes, hl, hsz⟩ :=
        ih 0 (buf.drop (n.size - npos)) hrest (by omega) (by omega) (by omega)
      refine ⟨n.memcpy npos (buf.take (n.size - npos)) :: rest', ?_, ?_, by simp [hl], ?_⟩
      · rw [writeLoop, if_neg hc]
        simp only [hr]
        rw [hdrop, advance_succ hs (by omega)]
      · rw [List.flatMap_cons, List.flatMap_cons, hbytes]
        conv_rhs => rw [← List.take_append_drop (n.size - npos) buf]
        rw [overwrite_append_split (by omega)]
        rfl
      · intro m hm
        rcases List.mem_cons.mp hm with rfl | hm
        · rw [Node.size_memcpy (by omega), hn]
        · exact hsz m hm

theorem readLoop_spec (npos len : ℕ) (h : ∀ n ∈ blocks, n.size = s) (hs : npos < s)
    (hb : 0 < len) (hfit : npos + len ≤ s * blocks.length) :
    readLoop npos len blocks =
      .ok (((blocks.flatMap Node.ptr).drop npos).take len, (npos + len) / s) := by
  induction blocks generalizing npos len with
  | nil =>
    rw [List.length_nil, Nat.mul_zero] at hfit
    omega
  | cons n rest ih =>
    have hn : n.size = s := h n (by simp)
    have hlen : n.ptr.length = s := hn
    have hdrop : (n.ptr.drop npos).length = s - npos := by simp [hlen]
    rw [List.flatMap_cons, List.drop_append_of_le_length (by omega)]
    by_cases hc : n.size - npos ≥ len
    · rw [readLoop, if_pos hc, hn, advance_eq _ _ hs (by omega),
        List.take_append_of_le_length (by omega)]
    · rw [List.length_cons, Nat.mul_succ] at hfit
      have hr := ih 0 (len - (n.size - npos))
        (fun m hm => h m (by simp [hm])) (by omega) (by omega) (by omega)
      rw [hn] at hr
      rw [readLoop, if_neg hc]
      simp only [hn, hr]
      rw [advance_succ hs (by omega), List.take_of_length_le (l := n.ptr.drop npos) (by omega),
        List.drop_zero, List.take_append, hdrop,
        List.take_of_length_le (l := n.ptr.drop npos) (i := len) (by omega)]

theorem seekLoop_spec {v : ℕ} (h : ∀ n ∈ blocks, n.size = s) (hs : 0 < s)
    (hne : blocks ≠ []) (hv : v ≤ s * blocks.length) : seekLoop v blocks = .ok (v / s) := by
  induction blocks generalizing v with
  | nil => exact absurd rfl hne
  | cons n rest ih =>
    have hn : n.size = s := h n (by simp)
    by_cases hc : v > n.size
    · rw [List.length_cons, Nat.mul_succ] at hv
      have hrest : rest ≠ [] := by
        rintro rfl
        simp at hv
        omega
      have hr := ih (v := v - n.size) (fun m hm => h m (by simp [hm])) hrest (by omega)
      rw [hn] at hr
      rw [seekLoop, if_pos hc]
      simp only [hn, hr]
      rw [← Nat.add_div_right _ hs, Nat.sub_add_cancel (by omega)]
    · have hadv := advance_eq 0 v hs (by omega)
      rw [Nat.zero_add] at hadv
      rw [seekLoop, if_neg hc, ← hadv, hn]
      simp only [eq_comm]

end Blocks

namespace Wf

variable {b : ByteArray}

theorem length_bytes (h : b.Wf) : b.bytes.length = b.capacity := by
  rw [bytes, length_flatMap_ptr h.node_size, h.capacity_eq]

theorem position_mod_lt (h : b.Wf) : b.position % b.baseSize < b.baseSize :=
  Nat.mod_lt _ h.baseSize_pos

theorem div_lt_length_iff (h : b.Wf) (p : ℕ) :
    p / b.baseSize < b.nodes.length ↔ p < b.capacity := by
  rw [Nat.div_lt_iff_lt_mul h.baseSize_pos, h.capacity_eq, Nat.mul_comm]

theorem cur_eq_some (h : b.Wf) (hp : b.position < b.capacity) :
    b.cur = some (b.position / b.baseSize) := by
  rw [h.cur_eq, nodeAt, if_pos ((h.div_lt_length_iff _).mpr hp)]

theorem drop_size (h : b.Wf) (c : ℕ) : ∀ n ∈ b.nodes.drop c, n.size = b.baseSize :=
  fun n hn => h.node_size n (List.mem_of_mem_drop hn)

/-- The blocks from the one of a position on start at its beginning. -/
theorem bytes_split (h : b.Wf) {p : ℕ} (hp : p < b.capacity) :
    b.bytes = (b.nodes.take (p / b.baseSize)).flatMap Node.ptr ++
        (b.nodes.drop (p / b.baseSize)).flatMap Node.ptr ∧
      ((b.nodes.take (p / b.baseSize)).flatMap Node.ptr).length = b.baseSize * (p / b.baseSize) ∧
      p % b.baseSize + (b.capacity - p) =
        b.baseSize * (b.nodes.drop (p / b.baseSize)).length := by
  have hlt := (h.div_lt_length_iff _).mpr hp
  have hmod := Nat.div_add_mod p b.baseSize
  refine ⟨?_, ?_, ?_⟩
  · rw [bytes, ← List.flatMap_append, List.take_append_drop]
  · rw [length_flatMap_ptr fun n hn => h.node_size n (List.mem_of_mem_take hn),
      List.length_take, Nat.min_eq_left hlt.le]
  · rw [List.length_drop, Nat.mul_sub, ← h.capacity_eq]
    omega

/-- After the offset of a position, the blocks from its own on are the bytes from there on. -/
theorem drop_blocks (h : b.Wf) {p : ℕ} (hp : p < b.capacity) :
    ((b.nodes.drop (p / b.baseSize)).flatMap Node.ptr).drop (p % b.baseSize) =
      b.bytes.drop p := by
  obtain ⟨hsplit, hpre, -⟩ := h.bytes_split hp
  have hat : p = ((b.nodes.take (p / b.baseSize)).flatMap Node.ptr).length + p % b.baseSize := by
    rw [hpre, Nat.div_add_mod]
  rw [hsplit, ← List.drop_length_add_append, ← hat]

end Wf

theorem new_wf (heap : Heap) {s : ℕ} (hs : 1 ≤ s) : (new heap s).Wf where
  baseSize_pos := hs
  node_size := by simp [new]
  nodes_ne_nil := by simp [new]
  capacity_eq := by simp [new]
  position_le_size := le_rfl
  size_le_capacity := Nat.zero_le _
  cur_eq := by simp [new, nodeAt]

variable {b : ByteArray}

@[simp] theorem length_nodes_appendNodes (heap : Heap) (b : ByteArray) (count : ℕ) :
    (b.appendNodes heap count).nodes.length = b.nodes.length + count := by
  simp [appendNodes]

theorem bytes_appendNodes (heap : Heap) (b : ByteArray) (count : ℕ) :
    ∃ ext, (b.appendNodes heap count).bytes = b.bytes ++ ext :=
  ⟨_, List.flatMap_append⟩

/-- New nodes keep the invariant once a null `cur_` points to the first of them. -/
theorem appendNodes_wf (heap : Heap) (h : b.Wf) (count : ℕ) :
    Wf { b.appendNodes heap count with
      cur := (b.appendNodes heap count).nodeAt (b.position / b.baseSize) } where
  baseSize_pos := h.baseSize_pos
  node_size m hm := by
    rcases List.mem_append.mp hm with hm | hm
    · exact h.node_size m hm
    · obtain ⟨i, -, rfl⟩ := List.mem_map.mp hm
      exact Node.size_new _ _ _
  nodes_ne_nil := by simp [appendNodes, h.nodes_ne_nil]
  capacity_eq := by
    simp only [appendNodes, List.length_append, List.length_map, List.length_range, h.capacity_eq]
    ring
  position_le_size := h.position_le_size
  size_le_capacity := h.size_le_capacity.trans (Nat.le_add_right _ _)
  cur_eq := rfl

theorem le_ceil_mul (n : ℕ) {s : ℕ} (hs : 1 ≤ s) : n ≤ (n + s - 1) / s * s := by
  have hd := Nat.div_add_mod (n + s - 1) s
  have hm := Nat.mod_lt (n + s - 1) hs
  rw [Nat.mul_comm]
  omega

/-- The node that `AddCapacity` leaves in `cur_` is the one that holds `position_`. -/
theorem addCapacity_eq (heap : Heap) (h : b.Wf) {n : ℕ}
    (hn : b.getCapacity < n) :
    b.addCapacity heap n =
      let b' := b.appendNodes heap ((n - b.getCapacity + b.baseSize - 1) / b.baseSize)
      { b' with cur := b'.nodeAt (b.position / b.baseSize) } := by
  rw [addCapacity, if_neg (by omega), if_neg (by omega)]
  by_cases hfull : b.getCapacity = 0
  · have he : b.position = b.baseSize * b.nodes.length := by
      have := h.position_le_size
      have := h.size_le_capacity
      unfold getCapacity at hfull
      rw [← h.capacity_eq]
      omega
    rw [he, Nat.mul_div_cancel_left _ h.baseSize_pos]
    exact if_pos hfull
  · have hlt : b.position < b.capacity := by
      unfold getCapacity at hfull
      omega
    have hdiv := (h.div_lt_length_iff _).mpr hlt
    simp only [if_neg hfull, nodeAt, length_nodes_appendNodes]
    rw [if_pos (Nat.lt_add_right _ hdiv), ← h.cur_eq_some hlt]
    rfl

theorem addCapacity_spec (heap : Heap) (h : b.Wf) {n : ℕ} (hn : 0 < n) :
    (b.addCapacity heap n).Wf ∧ (∃ ext, (b.addCapacity heap n).bytes = b.bytes ++ ext) ∧
      b.position + n ≤ (b.addCapacity heap n).capacity ∧
      (b.addCapacity heap n).position = b.position ∧ (b.addCapacity heap n).size = b.size ∧
      (b.addCapacity heap n).endian = b.endian ∧
      (b.addCapacity heap n).baseSize = b.baseSize := by
  have hpos := h.position_le_size
  have hcap := h.size_le_capacity
  by_cases hc : b.getCapacity < n
  · have hceil := le_ceil_mul (n - b.getCapacity) h.baseSize_pos
    rw [addCapacity_eq heap h hc]
    refine ⟨appendNodes_wf heap h _, bytes_appendNodes heap b _, ?_, rfl, rfl, rfl, rfl⟩
    simp only [appendNodes]
    unfold getCapacity at *
    omega
  · have he : b.addCapacity heap n = b := by
      rw [addCapacity, if_neg (by omega), if_pos (by omega)]
    rw [he]
    refine ⟨h, ⟨[], by simp⟩, ?_, rfl, rfl, rfl, rfl⟩
    unfold getCapacity at hc
    omega

theorem Wf.div_add_div (h : b.Wf) (n : ℕ) :
    b.position / b.baseSize + (b.position % b.baseSize + n) / b.baseSize =
      (b.position + n) / b.baseSize := by
  conv_rhs => rw [← Nat.div_add_mod b.position b.baseSize, Nat.add_assoc,
    Nat.mul_add_div h.baseSize_pos]

/-- `if (position_ > size_) size_ = position_;` -/
theorem raised_size (s p : ℕ) : (if p > s then p else s) = max s p := by
  split_ifs <;> omega

theorem copyIn_spec (h : b.Wf) {buf : List UInt8} (hbuf : 0 < buf.length)
    (hroom : b.position + buf.length ≤ b.capacity) :
    ∃ b', copyIn buf b = .ok () b' ∧ b'.Wf ∧ b'.bytes = overwrite b.bytes b.position buf ∧
      b'.position = b.position + buf.length ∧
      b'.size = max b.size (b.position + buf.length) ∧ b'.endian = b.endian ∧
      b'.baseSize = b.baseSize := by
  have hlt : b.position < b.capacity := by omega
  obtain ⟨hsplit, hpre, hlen⟩ := h.bytes_split hlt
  have hdm := Nat.div_add_mod b.position b.baseSize
  have hcur := h.cur_eq_some hlt
  have hdiv := h.div_add_div buf.length
  have hmod := h.position_mod_lt
  generalize b.position / b.baseSize = c at *
  generalize hnp : b.position % b.baseSize = npos at *
  obtain ⟨blocks, hw, hbytes, hbl, hsz⟩ :=
    writeLoop_spec npos buf (h.drop_size c) hmod hbuf (by omega)
  have hnum : (b.nodes.take c ++ blocks).length = b.nodes.length := by
    rw [List.length_append, hbl, ← List.length_append, List.take_append_drop]
  refine ⟨{ b with
    nodes := b.nodes.take c ++ blocks
    cur := b.nodeAt ((b.position + buf.length) / b.baseSize)
    position := b.position + buf.length
    size := max b.size (b.position + buf.length) }, ?_, ?_, ?_, rfl, rfl, rfl, rfl⟩
  · unfold copyIn
    simp only [hcur, hnp, hw, hdiv, raised_size]
  · refine ⟨h.baseSize_pos, ?_, ?_, ?_, le_max_right _ _, ?_, ?_⟩
    · intro n hn
      rcases List.mem_append.mp hn with hn | hn
      · exact h.node_size n (List.mem_of_mem_take hn)
      · exact hsz n hn
    · intro (he : b.nodes.take c ++ blocks = [])
      have hz : b.nodes.length = 0 := by rw [← hnum, he, List.length_nil]
      exact h.nodes_ne_nil (List.eq_nil_of_length_eq_zero hz)
    · simp only [hnum, h.capacity_eq]
    · exact max_le h.size_le_capacity hroom
    · simp only [nodeAt, hnum]
  · rw [hsplit, ← hdm, ← hpre, overwrite_append_right, ← hbytes, ← List.flatMap_append]
    rfl

/-- `write` overwrites the bytes at `position_`, in memory extended as far as needed. -/
theorem write_spec (heap : Heap) (h : b.Wf) (buf : List UInt8) :
    ∃ b' ext, write heap buf b = .ok () b' ∧ b'.Wf ∧
      b'.bytes = overwrite (b.bytes ++ ext) b.position buf ∧
      b.position + buf.length ≤ (b.bytes ++ ext).length ∧
      b'.position = b.position + buf.length ∧
      b'.size = max b.size (b.position + buf.length) ∧ b'.endian = b.endian ∧
      b'.baseSize = b.baseSize := by
  have hpos := h.position_le_size
  have hcap := h.size_le_capacity
  rcases Nat.eq_zero_or_pos buf.length with hbuf | hbuf
  · obtain rfl := List.eq_nil_of_length_eq_zero hbuf
    refine ⟨b, [], rfl, h, by simp, ?_, rfl, ?_, rfl, rfl⟩
    · simp only [List.append_nil, List.length_nil, h.length_bytes]
      omega
    · simp only [List.length_nil]
      omega
  · obtain ⟨ha, ⟨ext, hext⟩, hroom, hap, has, hae, hab⟩ := addCapacity_spec heap h hbuf
    obtain ⟨b', hw, hwf, hbytes, hp, hs, he, hbs⟩ := copyIn_spec ha hbuf (by omega)
    refine ⟨b', ext, ?_, hwf, ?_, ?_, ?_, ?_, he.trans hae, hbs.trans hab⟩
    · rw [write, if_neg (by omega), hw]
    · rw [hbytes, hext, hap]
    · rw [← hext, ha.length_bytes]
      exact hroom
    · rw [hp, hap]
    · rw [hs, has, hap]

/-- As long as the blocks have room, no memory is added. -/
theorem write_inside (heap : Heap) (h : b.Wf) {buf : List UInt8}
    (hroom : b.position + buf.length ≤ b.capacity) :
    ∃ b', write heap buf b = .ok () b' ∧ b'.Wf ∧ b'.bytes = overwrite b.bytes b.position buf ∧
      b'.position = b.position + buf.length ∧
      b'.size = max b.size (b.position + buf.length) ∧ b'.endian = b.endian ∧
      b'.baseSize = b.baseSize := by
  have hpos := h.position_le_size
  rcases Nat.eq_zero_or_pos buf.length with hbuf | hbuf
  · obtain rfl := List.eq_nil_of_length_eq_zero hbuf
    refine ⟨b, rfl, h, (overwrite_nil _ _).symm, rfl, ?_, rfl, rfl⟩
    rw [List.length_nil]
    omega
  · have hadd : b.addCapacity heap buf.length = b := by
      rw [addCapacity, if_neg (by omega), if_pos (by unfold getCapacity; omega)]
    rw [write, if_neg (by omega), hadd]
    exact copyIn_spec h hbuf hroom

theorem read_spec (h : b.Wf) {n : ℕ} (hn : 0 < n) (hle : n ≤ b.getReadSize) :
    ∃ b', read n b = .ok ((b.bytes.drop b.position).take n) b' ∧ b'.Wf ∧ b'.bytes = b.bytes ∧
      b'.position = b.position + n ∧ b'.size = b.size ∧ b'.endian = b.endian ∧
      b'.baseSize = b.baseSize := by
  have hcap := h.size_le_capacity
  unfold getReadSize at hle
  have hlt : b.position < b.capacity := by omega
  obtain ⟨-, -, hlen⟩ := h.bytes_split hlt
  have hr := readLoop_spec (b.position % b.baseSize) n (h.drop_size (b.position / b.baseSize))
    h.position_mod_lt hn (by omega)
  refine ⟨{ b with
    cur := b.nodeAt ((b.position + n) / b.baseSize)
    position := b.position + n }, ?_, ?_, rfl, rfl, rfl, rfl, rfl⟩
  · rw [read, if_neg (by unfold getReadSize; omega)]
    simp only [h.cur_eq_some hlt, if_neg (show n ≠ 0 by omega), hr, h.drop_blocks hlt,
      h.div_add_div]
  · exact ⟨h.baseSize_pos, h.node_size, h.nodes_ne_nil, h.capacity_eq,
      show b.position + n ≤ b.size by omega, h.size_le_capacity, rfl⟩

theorem read_of_lt {n : ℕ} (hlt : b.getReadSize < n) :
    read n b = .error (.outOfRange "not enough len") b := by
  rw [read, if_pos hlt]

theorem setPosition_spec (h : b.Wf) {v : ℕ} (hv : v ≤ b.capacity) :
    ∃ b', setPosition v b = .ok () b' ∧ b'.Wf ∧ b'.bytes = b.bytes ∧ b'.position = v ∧
      b'.size = max b.size v ∧ b'.endian = b.endian ∧ b'.baseSize = b.baseSize := by
  have hs := seekLoop_spec h.node_size h.baseSize_pos h.nodes_ne_nil (h.capacity_eq ▸ hv)
  refine ⟨{ b with position := v, size := max b.size v, cur := b.nodeAt (v / b.baseSize) },
    ?_, ?_, rfl, rfl, rfl, rfl, rfl⟩
  · rw [setPosition, if_neg (by omega)]
    simp only [hs, raised_size]
  · exact ⟨h.baseSize_pos, h.node_size, h.nodes_ne_nil, h.capacity_eq, le_max_right _ _,
      max_le h.size_le_capacity hv, rfl⟩

theorem setPosition_of_lt {v : ℕ} (hv : b.capacity < v) :
    setPosition v b = .error (.outOfRange "set_position out of range") b := by
  rw [setPosition, if_pos hv]

theorem clear_spec (h : b.Wf) :
    ∃ b', clear b = .ok () b' ∧ b'.Wf ∧ b'.bytes = b.bytes.take b.baseSize ∧ b'.position = 0 ∧
      b'.size = 0 ∧ b'.endian = b.endian ∧ b'.baseSize = b.baseSize := by
  obtain ⟨root, rest, hn⟩ := List.exists_cons_of_ne_nil h.nodes_ne_nil
  have hroot : root.size = b.baseSize := h.node_size root (by simp [hn])
  refine ⟨_, rfl, ⟨h.baseSize_pos, ?_, ?_, ?_, le_rfl, Nat.zero_le _, ?_⟩, ?_, rfl, rfl, rfl, rfl⟩
  · intro n hm
    exact h.node_size n (List.mem_of_mem_take hm)
  · simp [hn]
  · simp [hn]
  · simp [nodeAt, hn]
  · rw [← hroot, bytes, bytes, hn]
    simp [Node.size]

end ServerFramework.ByteArray
