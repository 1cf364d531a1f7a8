import ServerFramework.ByteArray.Calls

/-! # Memory handed out

`GetReadBuffers` and `GetWriteBuffers` describe a range of the array by `iovec`s, which the caller
reads from or stores into. Such a range is cut at the blocks as `read` and `write` cut it, so
gathering gives the data of the range, and storing followed by `SetPosition` is a `write`. The
positional variants of `read` and `GetReadBuffers` take the range from anywhere in the array.
-/

namespace ServerFramework

open Overwrite Transition

/-- The memory of an `iovec` in the given blocks. -/
def Iovec.view (nodes : List Node) (v : Iovec) : List UInt8 :=
  match nodes[v.node]? with
  | none => []
  | some n => (n.ptr.drop v.off).take v.len

/-- Where the memory of an `iovec` starts in the blocks of size `s` taken as one list. -/
def Iovec.start (s : ℕ) (v : Iovec) : ℕ := s * v.node + v.off

/-- The bytes that the `iovec`s lead to, in order. -/
def gather (nodes : List Node) (iovs : List Iovec) : List UInt8 :=
  iovs.flatMap (Iovec.view nodes)

/-- Fill the `iovec`s in order until the data is used up. -/
def scatter : List Iovec → List UInt8 → List Node → List Node
  | [], _, nodes => nodes
  | v :: iovs, d, nodes =>
    scatter iovs (d.drop v.len) (nodes.modify v.node fun n => n.memcpy v.off (d.take v.len))

/-- The sum of the `iov_len`s. -/
def totalLen (iovs : List Iovec) : ℕ := (iovs.map Iovec.len).sum

/-- The `iovec`s lie one behind the other from `p` on, each of them non-empty and inside one of the
`count` blocks of size `s`. -/
inductive Contiguous (s count : ℕ) : ℕ → List Iovec → Prop
  | nil (p : ℕ) : Contiguous s count p []
  | cons {p : ℕ} {v : Iovec} {iovs : List Iovec} : v.start s = p → 0 < v.len → v.node < count →
      v.off + v.len ≤ s → Contiguous s count (p + v.len) iovs → Contiguous s count p (v :: iovs)

namespace Contiguous

variable {s count p : ℕ} {iovs : List Iovec}

theorem len_pos (h : Contiguous s count p iovs) : ∀ v ∈ iovs, 0 < v.len := by
  induction h with
  | nil p => simp
  | cons _ hl _ _ _ ih => exact List.forall_mem_cons.mpr ⟨hl, ih⟩

theorem inside (h : Contiguous s count p iovs) : ∀ v ∈ iovs, v.off + v.len ≤ s := by
  induction h with
  | nil p => simp
  | cons _ _ _ hv _ ih => exact List.forall_mem_cons.mpr ⟨hv, ih⟩

end Contiguous

namespace ByteArray

section Blocks

variable {s : ℕ} {blocks : List Node}

/-- The blocks before a block, the block and the blocks behind it. -/
theorem flatMap_ptr_at (h : ∀ n ∈ blocks, n.size = s) {i : ℕ} (hi : i < blocks.length) :
    blocks.flatMap Node.ptr = (blocks.take i).flatMap Node.ptr ++
        (blocks[i].ptr ++ (blocks.drop (i + 1)).flatMap Node.ptr) ∧
      ((blocks.take i).flatMap Node.ptr).length = s * i := by
  constructor
  · rw [← List.flatMap_cons, ← List.drop_eq_getElem_cons hi, ← List.flatMap_append,
      List.take_append_drop]
  · rw [length_flatMap_ptr fun n hn => h n (List.mem_of_mem_take hn), List.length_take_of_le hi.le]

theorem view_eq (h : ∀ n ∈ blocks, n.size = s) {v : Iovec} (hv : v.node < blocks.length)
    (hoff : v.off + v.len ≤ s) :
    v.view blocks = ((blocks.flatMap Node.ptr).drop (v.start s)).take v.len := by
  obtain ⟨hsplit, hpre⟩ := flatMap_ptr_at h hv
  have hn : blocks[v.node].ptr.length = s := h _ (List.getElem_mem hv)
  rw [hsplit, Iovec.start, ← hpre, List.drop_length_add_append,
    List.drop_append_of_le_length (by omega), List.take_append_of_le_length (by simp; omega)]
  simp [Iovec.view, hv]

theorem flatMap_modify (h : ∀ n ∈ blocks, n.size = s) {v : Iovec} {d : List UInt8}
    (hv : v.node < blocks.length) (hoff : v.off + d.length ≤ s) :
    (blocks.modify v.node fun n => n.memcpy v.off d).flatMap Node.ptr =
      overwrite (blocks.flatMap Node.ptr) (v.start s) d := by
  obtain ⟨hsplit, hpre⟩ := flatMap_ptr_at h hv
  have hn : blocks[v.node].ptr.length = s := h _ (List.getElem_mem hv)
  rw [hsplit, Iovec.start, ← hpre, overwrite_append_right, overwrite_append_left (by omega),
    List.modify_eq_take_cons_drop hv, List.flatMap_append, List.flatMap_cons]
  rfl

theorem size_modify (h : ∀ n ∈ blocks, n.size = s) {v : Iovec} {d : List UInt8}
    (hoff : v.off + d.length ≤ s) :
    ∀ n ∈ blocks.modify v.node fun n => n.memcpy v.off d, n.size = s := by
  intro n hn
  obtain ⟨j, hj⟩ := List.mem_iff_getElem?.mp hn
  rw [List.getElem?_modify] at hj
  obtain ⟨m, hm, rfl⟩ := Option.map_eq_some_iff.mp hj
  have hms := h m (List.mem_of_getElem? hm)
  split_ifs
  · rw [Node.size_memcpy (by omega), hms]
  · exact hms

/-- Gathering a contiguous range gives its bytes. -/
theorem gather_eq (h : ∀ n ∈ blocks, n.size = s) {p : ℕ} {iovs : List Iovec}
    (hc : Contiguous s blocks.length p iovs) :
    gather blocks iovs = ((blocks.flatMap Node.ptr).drop p).take (totalLen iovs) := by
  induction hc with
  | nil p => simp [gather, totalLen]
  | @cons p v iovs hp _ hv hoff _ ih =>
    rw [gather, List.flatMap_cons, view_eq h hv hoff, hp]
    change _ ++ gather blocks iovs = List.take (v.len + totalLen iovs) _
    rw [ih, List.take_add, List.drop_drop]

theorem scatter_keeps {iovs : List Iovec} (hi : ∀ v ∈ iovs, v.off + v.len ≤ s) (d : List UInt8)
    (h : ∀ n ∈ blocks, n.size = s) :
    (scatter iovs d blocks).length = blocks.length ∧ ∀ n ∈ scatter iovs d blocks, n.size = s := by
  induction iovs generalizing d blocks with
  | nil => exact ⟨rfl, h⟩
  | cons v iovs ih =>
    obtain ⟨hv, hi⟩ := List.forall_mem_cons.mp hi
    have htake : v.off + (d.take v.len).length ≤ s := by simp; omega
    obtain ⟨hl, hs⟩ := ih hi (d.drop v.len) (size_modify h htake)
    exact ⟨hl.trans (List.length_modify ..), hs⟩

/-- Scattering over a contiguous range overwrites it from its start. -/
theorem scatter_eq (h : ∀ n ∈ blocks, n.size = s) {p : ℕ} {iovs : List Iovec}
    (hc : Contiguous s blocks.length p iovs) {d : List UInt8} (hd : d.length ≤ totalLen iovs) :
    (scatter iovs d blocks).flatMap Node.ptr = overwrite (blocks.flatMap Node.ptr) p d := by
  generalize hk : blocks.length = k at hc
  induction hc generalizing blocks d with
  | nil p =>
    obtain rfl := List.eq_nil_of_length_eq_zero (Nat.le_zero.mp hd)
    rw [overwrite_nil]
    rfl
  | @cons p v iovs hp _ hv hoff _ ih =>
    have hsum : totalLen (v :: iovs) = v.len + totalLen iovs := rfl
    have htake : v.off + (d.take v.len).length ≤ s := by simp; omega
    have hin : p ≤ (blocks.flatMap Node.ptr).length := by
      have := Nat.mul_le_mul_left s hv
      rw [length_flatMap_ptr h, hk, ← hp, Iovec.start]
      rw [Nat.mul_succ] at this
      omega
    rw [scatter, ih (size_modify h htake) (by simp; omega) ((List.length_modify ..).trans hk),
      flatMap_modify h (hk ▸ hv) htake, hp]
    rcases Nat.le_total d.length v.len with hle | hle
    · rw [List.drop_of_length_le hle, overwrite_nil, List.take_of_length_le hle]
    · have hfull := overwrite_overwrite (d.take v.len) (d.drop v.len) hin
      rwa [List.length_take_of_le hle, List.take_append_drop] at hfull

/-- The loop cuts a range that lies in the blocks into contiguous pieces. -/
theorem iovecLoop_spec (npos len c : ℕ) (h : ∀ n ∈ blocks, n.size = s) (hs : npos < s)
    (hlen : 0 < len) (hfit : npos + len ≤ s * blocks.length) :
    ∃ iovs, iovecLoop npos len c blocks = .ok iovs ∧
      Contiguous s (c + blocks.length) (s * c + npos) iovs ∧ totalLen iovs = len := by
  induction blocks generalizing npos len c with
  | nil =>
    rw [List.length_nil, Nat.mul_zero] at hfit
    omega
  | cons n rest ih =>
    have hn : n.size = s := h n (by simp)
    have hc : c < c + (n :: rest).length := by simp
    by_cases hle : n.size - npos ≥ len
    · refine ⟨[⟨c, npos, len⟩], by rw [iovecLoop, if_pos hle], ?_, rfl⟩
      exact .cons rfl hlen hc (by simp only; omega) (.nil _)
    · rw [List.length_cons, Nat.mul_succ] at hfit
      obtain ⟨iovs, hl, hcont, hsum⟩ := ih 0 (len - (n.size - npos)) (c + 1)
        (fun m hm => h m (by simp [hm])) (by omega) (by omega) (by omega)
      refine ⟨⟨c, npos, n.size - npos⟩ :: iovs, ?_, ?_, ?_⟩
      · rw [iovecLoop, if_neg hle]
        simp only [hl]
      · have hnext : s * c + npos + (n.size - npos) = s * (c + 1) + 0 := by
          rw [Nat.mul_succ]
          omega
        refine .cons rfl (by simp only; omega) hc (by simp only; omega) ?_
        rw [hnext, List.length_cons, Nat.add_comm rest.length, ← Nat.add_assoc]
        exact hcont
      · change n.size - npos + totalLen iovs = len
        omega

/-- A range that leaves the blocks makes the loop of `read` follow the last `next`. -/
theorem readLoop_of_lt (npos len : ℕ) (h : ∀ n ∈ blocks, n.size = s) (hs : npos < s)
    (hfit : s * blocks.length < npos + len) : readLoop npos len blocks = .error .nullDeref := by
  induction blocks generalizing npos len with
  | nil => rfl
  | cons n rest ih =>
    have hn : n.size = s := h n (by simp)
    rw [List.length_cons, Nat.mul_succ] at hfit
    have hr := ih 0 (len - (n.size - npos)) (fun m hm => h m (by simp [hm])) (by omega) (by omega)
    rw [readLoop, if_neg (by omega)]
    simp only [hr]

end Blocks

/-- What happens to an array: a public call, or a store into memory that the caller was handed.
The calls that are left out do not change it. -/
inductive Act where
  | call (c : Call)
  | store (iovs : List Iovec) (d : List UInt8)
  deriving DecidableEq

/-- The memory of the `iovec` is part of a block of the array. -/
def Owns (b : ByteArray) (v : Iovec) : Prop :=
  v.node < b.nodes.length ∧ v.off + v.len ≤ b.baseSize

instance (b : ByteArray) (v : Iovec) : Decidable (b.Owns v) :=
  inferInstanceAs (Decidable (_ ∧ _))

def store (b : ByteArray) (iovs : List Iovec) (d : List UInt8) : ByteArray :=
  { b with nodes := scatter iovs d b.nodes }

/-- The array after an act; there is none after `nullptr` was followed, and no store into memory
that is not there. -/
def act (heap : Heap) (host : Endian) (b : ByteArray) : Act → Option ByteArray
  | .call c => after heap host b c
  | .store iovs d => if ∀ v ∈ iovs, b.Owns v then some (b.store iovs d) else none

section Reachable

variable {heap : Heap} {host : Endian} {b b' : ByteArray} {s : ℕ}

theorem Wf.store (h : b.Wf) {iovs : List Iovec} (hi : ∀ v ∈ iovs, v.off + v.len ≤ b.baseSize)
    (d : List UInt8) : (b.store iovs d).Wf := by
  obtain ⟨hl, hs⟩ := scatter_keeps hi d h.node_size
  refine ⟨h.baseSize_pos, hs, ?_, ?_, h.position_le_size, h.size_le_capacity, ?_⟩
  · exact List.ne_nil_of_length_pos (hl.symm ▸ List.length_pos_of_ne_nil h.nodes_ne_nil)
  · exact h.capacity_eq.trans (congrArg _ hl.symm)
  · rw [nodeAt, ByteArray.store, hl]
    exact h.cur_eq

theorem WfOf.act (h : WfOf s b) {a : Act} (ha : act heap host b a = some b') : WfOf s b' := by
  cases a with
  | call c => exact h.after ha
  | store iovs d =>
    simp only [ByteArray.act] at ha
    split_ifs at ha with hin
    obtain rfl := Option.some.inj ha
    exact ⟨h.toWf.store (fun v hv => (hin v hv).2) d, h.baseSize_eq⟩

theorem wf_of_acts (hs : 1 ≤ s) {acts : List Act}
    (hr : run (act heap host) (new heap s) acts = some b) : WfOf s b :=
  run_invariant (G := fun _ _ => True) (WfOf s) (fun _ _ _ h _ => h.act) ⟨new_wf heap hs, rfl⟩
    (meets_of_forall (fun _ _ => trivial) _ _) hr

end Reachable

section Handed

variable {b : ByteArray}

/-- From a position in the blocks on, the loop cuts the range that starts there. -/
theorem iovecLoop_at (h : b.Wf) {p len : ℕ} (hlen : 0 < len) (hfit : p + len ≤ b.capacity) :
    ∃ iovs, iovecLoop (p % b.baseSize) len (p / b.baseSize) (b.nodes.drop (p / b.baseSize)) =
        .ok iovs ∧
      Contiguous b.baseSize b.nodes.length p iovs ∧ totalLen iovs = len := by
  have hlt : p < b.capacity := by omega
  obtain ⟨-, -, hblocks⟩ := h.bytes_split hlt
  obtain ⟨iovs, hl, hc, hsum⟩ := iovecLoop_spec (p % b.baseSize) len (p / b.baseSize)
    (h.drop_size (p / b.baseSize)) (Nat.mod_lt _ h.baseSize_pos) hlen (by omega)
  rw [Nat.div_add_mod, List.length_drop,
    Nat.add_sub_cancel' ((h.div_lt_length_iff _).mpr hlt).le] at hc
  exact ⟨iovs, hl, hc, hsum⟩

theorem pushBuffers_spec (h : b.Wf) {len : ℕ} (hlen : 0 < len)
    (hfit : b.position + len ≤ b.capacity) :
    ∃ iovs, pushBuffers len b = .ok (len, iovs) b ∧
      Contiguous b.baseSize b.nodes.length b.position iovs ∧ totalLen iovs = len := by
  obtain ⟨iovs, hl, hc, hsum⟩ := iovecLoop_at h hlen hfit
  refine ⟨iovs, ?_, hc, hsum⟩
  simp only [pushBuffers, h.cur_eq_some (by omega : b.position < b.capacity), hl]

/-- The difference `size_ - position` of unsigned numbers. -/
theorem unsigned_sub {z p : ℕ} (hz : z < 2 ^ 64) (hp : p < 2 ^ 64) :
    (z + 2 ^ 64 - p) % 2 ^ 64 = if p ≤ z then z - p else z + 2 ^ 64 - p := by
  split_ifs with hle
  · rw [show z + 2 ^ 64 - p = z - p + 2 ^ 64 by omega, Nat.add_mod_right,
      Nat.mod_eq_of_lt (by omega)]
  · rw [Nat.mod_eq_of_lt (by omega)]

/-- At the position itself the positional `read` is the `read` that leaves the cursor alone. -/
theorem readAt_position (h : b.Wf) (hsize : b.size < 2 ^ 64) (n : ℕ) :
    readAt n b.position b =
      match read n b with
      | .ok bytes _ => .ok bytes b
      | .error e _ => .error e b := by
  have hps := h.position_le_size
  have hsub := unsigned_sub hsize (hps.trans_lt hsize)
  rw [if_pos hps] at hsub
  unfold readAt read getReadSize
  rw [hsub]
  split_ifs
  · rfl
  · cases b.cur <;> rfl
  · cases b.cur with
    | none => rfl
    | some c =>
      cases hl : readLoop (b.position % b.baseSize) n (b.nodes.drop c) <;> simp only [hl]

/-- The string is the data that was not read yet. -/
theorem toString_spec (h : b.Wf) (hsize : b.size < 2 ^ 64) : toString b = .ok b.rest b := by
  rcases Nat.eq_zero_or_pos b.getReadSize with hz | hpos
  · have hrest : b.rest = [] := List.eq_nil_of_length_eq_zero (h.length_rest.trans hz)
    simp only [toString, hz, if_true, hrest]
  · obtain ⟨b', hread, -⟩ := read_spec h hpos le_rfl
    simp only [toString, readAt_position h hsize, hread]
    rw [if_neg (by omega), rest, content, List.drop_take]
    rfl

/-- `len = len > GetReadSize() ? GetReadSize() : len;` -/
theorem clamped_len (len r : ℕ) : (if len > r then r else len) = min len r := by
  split_ifs <;> omega

theorem getReadBuffers_spec (h : b.Wf) (len : ℕ) :
    ∃ iovs, getReadBuffers len b = .ok (min len b.getReadSize, iovs) b ∧ (∀ v ∈ iovs, 0 < v.len) ∧
      gather b.nodes iovs = b.rest.take (min len b.getReadSize) := by
  rcases Nat.eq_zero_or_pos (min len b.getReadSize) with hz | hpos
  · refine ⟨[], ?_, by simp, by simp [gather, hz]⟩
    simp only [getReadBuffers, clamped_len, hz, if_true]
  · have hsc := h.size_le_capacity
    have hrs : b.getReadSize = b.size - b.position := rfl
    obtain ⟨iovs, hpush, hc, hsum⟩ := pushBuffers_spec h hpos (by omega)
    refine ⟨iovs, ?_, hc.len_pos, ?_⟩
    · simp only [getReadBuffers, clamped_len, hpush]
      rw [if_neg (by omega)]
    · rw [gather_eq h.node_size hc, hsum, rest, content_slice (by omega)]
      rfl

theorem getWriteBuffers_spec (heap : Heap) (h : b.Wf) {len : ℕ} (hlen : 0 < len) :
    ∃ iovs, getWriteBuffers heap len b = .ok (len, iovs) (b.addCapacity heap len) ∧
      Contiguous b.baseSize (b.addCapacity heap len).nodes.length b.position iovs ∧
      totalLen iovs = len := by
  obtain ⟨hb₁, -, hroom, hp, -, -, hbs⟩ := addCapacity_spec heap h hlen
  obtain ⟨iovs, hpush, hc, hsum⟩ := pushBuffers_spec hb₁ hlen (by rwa [hp])
  rw [hbs, hp] at hc
  refine ⟨iovs, ?_, hc, hsum⟩
  rw [getWriteBuffers, if_neg (by omega), hpush]

/-- Storing into write buffers and moving the position behind the bytes writes them. -/
theorem store_spec (heap : Heap) (h : b.Wf) {len : ℕ} {iovs : List Iovec} {d : List UInt8}
    (hc : Contiguous b.baseSize (b.addCapacity heap len).nodes.length b.position iovs)
    (hsum : totalLen iovs = len) (hd : d ≠ []) (hle : d.length ≤ len) :
    ∃ b', setPosition (b.position + d.length) ((b.addCapacity heap len).store iovs d) = .ok () b' ∧
      b'.Wf ∧ b'.content = overwrite b.content b.position d ∧
      b'.position = b.position + d.length ∧ b'.size = max b.size (b.position + d.length) := by
  have hlen : 0 < len := (List.length_pos_of_ne_nil hd).trans_le hle
  obtain ⟨hb₁, ⟨ext, hext⟩, hroom, hp, hs, -, hbs⟩ := addCapacity_spec heap h hlen
  have hbytes : ((b.addCapacity heap len).store iovs d).bytes =
      overwrite (b.bytes ++ ext) b.position d := by
    rw [← hext]
    exact scatter_eq hb₁.node_size (hbs.symm ▸ hc) (hle.trans hsum.ge)
  obtain ⟨b', hset, hb', hbytes', hp', hs', -, -⟩ := setPosition_spec
    (v := b.position + d.length) (hb₁.store (hbs.symm ▸ hc.inside) d) (by
      change _ ≤ (b.addCapacity heap len).capacity
      omega)
  have hsize : b'.size = max b.size (b.position + d.length) := by
    rw [hs', ← hs]
    rfl
  refine ⟨b', hset, hb', ?_, hp', hsize⟩
  rw [content, hbytes', hbytes, hsize, h.take_overwrite_bytes]

/-- In every state that an array can get into, the read buffers are cut from the data that
`ToString` copies, and filling write buffers and moving the position behind the bytes stored is the
same as writing them. -/
theorem scatter_gather_agree {s : ℕ} (hs : 1 ≤ s) (heap : Heap) (host : Endian) (acts : List Act)
    (b : ByteArray) (hr : run (act heap host) (new heap s) acts = some b)
    (hcap : b.capacity < 2 ^ 64) (len : ℕ) :
    (∃ iovs str, toString b = .ok str b ∧
      getReadBuffers len b = .ok (min len b.getReadSize, iovs) b ∧ (∀ v ∈ iovs, 0 < v.len) ∧
      gather b.nodes iovs = str.take (min len b.getReadSize)) ∧
    ∀ d : List UInt8, d ≠ [] → d.length ≤ len →
      ∃ iovs b₁ b₂ b₃, getWriteBuffers heap len b = .ok (len, iovs) b₁ ∧ totalLen iovs = len ∧
        setPosition (b.position + d.length) (b₁.store iovs d) = .ok () b₂ ∧
        write heap d b = .ok () b₃ ∧ b₂.content = b₃.content ∧ b₂.position = b₃.position ∧
        b₂.size = b₃.size := by
  have h := (wf_of_acts hs hr).toWf
  refine ⟨?_, fun d hd hle => ?_⟩
  · obtain ⟨iovs, hget, hpos, hgather⟩ := getReadBuffers_spec h len
    exact ⟨iovs, b.rest, toString_spec h (h.size_le_capacity.trans_lt hcap), hget, hpos, hgather⟩
  · have hlen : 0 < len := (List.length_pos_of_ne_nil hd).trans_le hle
    obtain ⟨iovs, hget, hc, hsum⟩ := getWriteBuffers_spec heap h hlen
    obtain ⟨b₂, hset, -, hc₂, hp₂, hs₂⟩ := store_spec heap h hc hsum hd hle
    obtain ⟨b₃, hwrite, -, hc₃, hp₃, hs₃, -, -⟩ := write_content heap h d
    exact ⟨iovs, _, b₂, b₃, hget, hsum, hset, hwrite, hc₂.trans hc₃.symm, hp₂.trans hp₃.symm,
      hs₂.trans hs₃.symm⟩

/-- Three bytes from inside the first of two blocks, and two of the four bytes asked for there. -/
theorem scatter_gather_agree_two_blocks : ∃ b : ByteArray,
    run (act (fun _ _ => 0) .little) (new (fun _ _ => 0) 2)
      [.call (.write [1, 2, 3, 4]), .call (.setPosition 1)] = some b ∧
    (∃ iovs str, toString b = .ok str b ∧ getReadBuffers 4 b = .ok (3, iovs) b ∧
      gather b.nodes iovs = str.take 3) ∧
    ∃ iovs b₁ b₂ b₃, getWriteBuffers (fun _ _ => 0) 4 b = .ok (4, iovs) b₁ ∧
      setPosition 3 (b₁.store iovs [7, 8]) = .ok () b₂ ∧
      write (fun _ _ => 0) [7, 8] b = .ok () b₃ ∧ b₂.content = b₃.content := by
  obtain ⟨⟨iovs, str, hstr, hget, -, hgather⟩, hput⟩ := scatter_gather_agree (by decide : 1 ≤ 2)
    (fun _ _ => 0) .little [.call (.write [1, 2, 3, 4]), .call (.setPosition 1)] _ rfl (by decide) 4
  obtain ⟨iovs', b₁, b₂, b₃, hput, -, hset, hwrite, hc, -, -⟩ := hput [7, 8] (by decide) (by decide)
  exact ⟨_, rfl, ⟨iovs, str, hstr, hget, hgather⟩, iovs', b₁, b₂, b₃, hput, hset, hwrite, hc⟩

end Handed

end ByteArray

end ServerFramework
