import ServerFramework.Lib.Keeps
import ServerFramework.Lib.Transition
import ServerFramework.ByteArray.RoundTrip

/-! # Sequences of public calls

Besides `write`, `read`, `SetPosition` and `Clear` there are the typed accessors, the calls that
hand out the memory of the array as `iovec`s, and those that copy it into a string or fill it from
a file. All of them keep the representation invariant, also when they throw.
-/

namespace ServerFramework

open Transition

/-- An `iovec`: the block that `iov_base` points into, the offset there, and `iov_len`. -/
structure Iovec where
  node : ℕ
  off : ℕ
  len : ℕ
  deriving DecidableEq, Repr

namespace ByteArray

/-- The loop of `GetReadBuffers` and `GetWriteBuffers` over the nodes from the one with index `c`
on: the `iovec`s it pushes. -/
def iovecLoop (npos len c : ℕ) : List Node → Except Error (List Iovec)
  | [] => .error .nullDeref
  | n :: rest =>
    let ncap := n.size - npos
    if ncap ≥ len then .ok [⟨c, npos, len⟩]
    else
      match iovecLoop 0 (len - ncap) (c + 1) rest with
      | .error e => .error e
      | .ok iovs => .ok (⟨c, npos, ncap⟩ :: iovs)

/-- The `iovec`s for `len` bytes from `position_` on, with their total length. -/
def pushBuffers (len : ℕ) : M (ℕ × List Iovec) := fun b =>
  match b.cur with
  | none => .error .nullDeref b
  | some c =>
    match iovecLoop (b.position % b.baseSize) len c (b.nodes.drop c) with
    | .error e => .error e b
    | .ok iovs => .ok (len, iovs) b

def getReadBuffers (len : ℕ) : M (ℕ × List Iovec) := fun b =>
  let len := if len > b.getReadSize then b.getReadSize else len
  if len = 0 then .ok (0, []) b else pushBuffers len b

def getWriteBuffers (heap : Heap) (len : ℕ) : M (ℕ × List Iovec) := fun b =>
  if len = 0 then .ok (0, []) b else pushBuffers len (b.addCapacity heap len)

/-- The `read` that leaves the array alone. It starts in the block of `cur_` whatever the position
is, and its bounds check subtracts unsigned numbers. -/
def readAt (size position : ℕ) : M (List UInt8) := fun b =>
  if size > (b.size + 2 ^ 64 - position) % 2 ^ 64 then .error (.outOfRange "not enough len") b
  else
    match b.cur with
    | none => .error .nullDeref b
    | some c =>
      if size = 0 then .ok [] b
      else
        match readLoop (position % b.baseSize) size (b.nodes.drop c) with
        | .error e => .error e b
        | .ok (bytes, _) => .ok bytes b

def toString : M (List UInt8) := fun b =>
  if b.getReadSize = 0 then .ok [] b else readAt b.getReadSize b.position b

/-- The loop of `ReadFromFile`, for a positive block size `s`. A read that finds less than `s`
bytes meets the end of the file. -/
def fileLoop (heap : Heap) (s : ℕ) (content : List UInt8) : M Unit :=
  if 1 ≤ s ∧ s ≤ content.length then do
    write heap (content.take s)
    fileLoop heap s (content.drop s)
  else write heap content
termination_by content.length
decreasing_by
  rw [List.length_drop]
  omega

/-- `ReadFromFile` on a file with the given content, `none` if it cannot be opened. -/
def readFromFile (heap : Heap) : Option (List UInt8) → M Bool
  | none => return false
  | some content => do
    let s := (← get).baseSize
    fileLoop heap s content
    return true

/-- The public calls. -/
inductive Call where
  | write (buf : List UInt8)
  | read (n : ℕ)
  | writeValue (v : Value)
  | writeStringWithoutLength (s : StdString)
  | readKind (k : Kind)
  | setIsLittleEndian (val : Bool)
  | setPosition (v : ℕ)
  | clear
  | getReadBuffers (len : ℕ)
  | getWriteBuffers (len : ℕ)
  | toString
  | readFromFile (file : Option (List UInt8))
  deriving DecidableEq

section Calls

variable (heap : Heap) (host : Endian)

/-- Make a call and drop what it returns. -/
def perform : Call → M Unit
  | .write buf => write heap buf
  | .read n => do return (fun _ => ()) (← read n)
  | .writeValue v => writeValue heap host v
  | .writeStringWithoutLength s => writeStringWithoutLength heap s
  | .readKind k => do return (fun _ => ()) (← readKind host k)
  | .setIsLittleEndian val => setIsLittleEndian val
  | .setPosition v => setPosition v
  | .clear => clear
  | .getReadBuffers len => do return (fun _ => ()) (← getReadBuffers len)
  | .getWriteBuffers len => do return (fun _ => ()) (← getWriteBuffers heap len)
  | .toString => do return (fun _ => ()) (← toString)
  | .readFromFile file => do return (fun _ => ()) (← readFromFile heap file)

/-- The array after a call that returns or throws; there is none after `nullptr` was followed. -/
def after (b : ByteArray) (c : Call) : Option ByteArray :=
  match perform heap host c b with
  | .ok _ b' => some b'
  | .error .nullDeref _ => none
  | .error (.outOfRange _) b' | .error .lengthError b' => some b'

end Calls

/-- Well-formed with blocks of `s` bytes. -/
structure WfOf (s : ℕ) (b : ByteArray) : Prop extends Wf b where
  baseSize_eq : b.baseSize = s

section Keeps

variable {s : ℕ} (heap : Heap) (host : Endian)

theorem write_keeps (buf : List UInt8) : Keeps (WfOf s) (write heap buf) := by
  intro b h
  obtain ⟨b', -, hw, hwf, -, -, -, -, -, hbs⟩ := write_spec heap h.toWf buf
  rw [hw]
  exact ⟨hwf, hbs.trans h.baseSize_eq⟩

theorem read_zero (b : ByteArray) : Keeps.finalState (read 0 b) = b := by
  rw [read, if_neg (Nat.not_lt_zero _)]
  cases b.cur <;> rfl

theorem read_keeps (n : ℕ) : Keeps (WfOf s) (read n) := by
  intro b h
  rcases Nat.eq_zero_or_pos n with rfl | hn
  · rwa [read_zero]
  · by_cases hle : n ≤ b.getReadSize
    · obtain ⟨b', hr, hwf, -, -, -, -, hbs⟩ := read_spec h.toWf hn hle
      rw [hr]
      exact ⟨hwf, hbs.trans h.baseSize_eq⟩
    · rw [read_of_lt (Nat.lt_of_not_le hle)]
      exact h

theorem setPosition_keeps (v : ℕ) : Keeps (WfOf s) (setPosition v) := by
  intro b h
  by_cases hv : v ≤ b.capacity
  · obtain ⟨b', hp, hwf, -, -, -, -, hbs⟩ := setPosition_spec h.toWf hv
    rw [hp]
    exact ⟨hwf, hbs.trans h.baseSize_eq⟩
  · rw [setPosition_of_lt (Nat.lt_of_not_le hv)]
    exact h

theorem clear_keeps : Keeps (WfOf s) clear := by
  intro b h
  obtain ⟨b', hc, hwf, -, -, -, -, hbs⟩ := clear_spec h.toWf
  rw [hc]
  exact ⟨hwf, hbs.trans h.baseSize_eq⟩

theorem setIsLittleEndian_keeps (val : Bool) : Keeps (WfOf s) (setIsLittleEndian val) := by
  rintro b ⟨⟨hpos, hnode, hne, hcap, hps, hsc, hcur⟩, hbs⟩
  exact ⟨⟨hpos, hnode, hne, hcap, hps, hsc, hcur⟩, hbs⟩

/-- The memory is handed out without a change to the array. -/
theorem finalState_pushBuffers (len : ℕ) (b : ByteArray) :
    Keeps.finalState (pushBuffers len b) = b := by
  unfold pushBuffers
  cases b.cur with
  | none => rfl
  | some c =>
    cases hl : iovecLoop (b.position % b.baseSize) len c (b.nodes.drop c) with
    | error e => simp only [hl, Keeps.finalState]
    | ok iovs => simp only [hl, Keeps.finalState]

theorem getReadBuffers_keeps (len : ℕ) : Keeps (WfOf s) (getReadBuffers len) := by
  intro b h
  simp only [getReadBuffers]
  split_ifs
  · exact h
  · rwa [finalState_pushBuffers]
  · exact h
  · rwa [finalState_pushBuffers]

theorem getWriteBuffers_keeps (len : ℕ) : Keeps (WfOf s) (getWriteBuffers heap len) := by
  intro b h
  simp only [getWriteBuffers]
  split_ifs with hlen
  · exact h
  · obtain ⟨hwf, -, -, -, -, -, hbs⟩ := addCapacity_spec heap h.toWf (Nat.pos_of_ne_zero hlen)
    rw [finalState_pushBuffers]
    exact ⟨hwf, hbs.trans h.baseSize_eq⟩

theorem finalState_readAt (size position : ℕ) (b : ByteArray) :
    Keeps.finalState (readAt size position b) = b := by
  unfold readAt
  split_ifs
  · rfl
  · cases b.cur <;> rfl
  · cases b.cur with
    | none => rfl
    | some c =>
      cases hl : readLoop (position % b.baseSize) size (b.nodes.drop c) <;>
        simp only [hl, Keeps.finalState]

theorem toString_keeps : Keeps (WfOf s) toString := by
  intro b h
  simp only [toString]
  split_ifs
  · exact h
  · rwa [finalState_readAt]

theorem fileLoop_keeps (k : ℕ) (content : List UInt8) :
    Keeps (WfOf s) (fileLoop heap k content) := by
  fun_induction fileLoop heap k content with
  | case1 content hk ih => exact (write_keeps heap _).bind fun _ => ih
  | case2 content hk => exact write_keeps heap content

theorem readFromFile_keeps (file : Option (List UInt8)) :
    Keeps (WfOf s) (readFromFile heap file) := by
  cases file with
  | none => exact Keeps.pure false
  | some content => exact Keeps.get.bind fun b => (fileLoop_keeps heap _ _).map fun _ => true

end Keeps

section Typed

variable {P : ByteArray → Prop} {heap : Heap} (host : Endian)

/-- The writers keep what `write` keeps. -/
theorem writeFixed_keeps (h : ∀ buf, Keeps P (write heap buf)) (n v : ℕ) :
    Keeps P (writeFixed heap host n v) :=
  Keeps.get.bind fun _ => h _

theorem writeValue_keeps (h : ∀ buf, Keeps P (write heap buf)) (v : Value) :
    Keeps P (writeValue heap host v) := by
  cases v with
  | fint8 v => exact h [v.toUInt8]
  | fuint8 v => exact h [v]
  | int32 | uint32 | int64 | uint64 => exact h _
  | stringF16 | stringF32 | stringF64 =>
    exact (writeFixed_keeps host h _ _).bind fun _ => h _
  | stringVint => exact (h _).bind fun _ => h _
  | _ => exact writeFixed_keeps host h _ _

/-- The readers keep what `read` keeps. -/
theorem readFixed_keeps (h : ∀ n, Keeps P (read n)) (n : ℕ) : Keeps P (readFixed host n) :=
  (h n).bind fun _ => Keeps.get.bind fun _ => Keeps.pure _

theorem readVarint_keeps (h : ∀ n, Keeps P (read n)) {w : ℕ} (i : ℕ) (result : BitVec w) :
    Keeps P (readVarint i result) := by
  fun_induction readVarint i result with
  | case1 i result hi ih =>
    refine ((h 1).map _).bind fun b => ?_
    split_ifs
    · exact Keeps.pure _
    · exact ih b
  | case2 i result hi => exact Keeps.pure _

theorem readString_keeps (h : ∀ n, Keeps P (read n)) (len : ℕ) : Keeps P (readString len) := by
  unfold readString
  split_ifs
  · exact (h len).map _
  · exact Keeps.throw _

theorem readKind_keeps (h : ∀ n, Keeps P (read n)) (k : Kind) : Keeps P (readKind host k) := by
  cases k with
  | fint8 | fuint8 => exact ((h 1).map _).map _
  | uint32 | uint64 => exact ((readVarint_keeps h _ _).map _).map _
  | int32 | int64 => exact (((readVarint_keeps h _ _).map _).map _).map _
  | stringF16 | stringF32 | stringF64 =>
    exact (((readFixed_keeps host h _).map _).bind fun _ => readString_keeps h _).map _
  | stringVint => exact (((readVarint_keeps h _ _).map _).bind fun _ => readString_keeps h _).map _
  | _ => exact ((readFixed_keeps host h _).map _).map _

end Typed

theorem perform_keeps {s : ℕ} (heap : Heap) (host : Endian) (c : Call) :
    Keeps (WfOf s) (perform heap host c) := by
  cases c with
  | write buf => exact write_keeps heap buf
  | read n => exact (read_keeps n).map _
  | writeValue v => exact writeValue_keeps host (write_keeps heap) v
  | writeStringWithoutLength v => exact write_keeps heap v.1
  | readKind k => exact (readKind_keeps host read_keeps k).map _
  | setIsLittleEndian val => exact setIsLittleEndian_keeps val
  | setPosition v => exact setPosition_keeps v
  | clear => exact clear_keeps
  | getReadBuffers len => exact (getReadBuffers_keeps len).map _
  | getWriteBuffers len => exact (getWriteBuffers_keeps heap len).map _
  | toString => exact toString_keeps.map _
  | readFromFile file => exact (readFromFile_keeps heap file).map _

variable {heap : Heap} {host : Endian} {b b' : ByteArray} {s : ℕ}

theorem WfOf.after (h : WfOf s b) {c : Call} (hs : after heap host b c = some b') :
    WfOf s b' := by
  have hk := perform_keeps heap host c b h
  unfold ByteArray.after at hs
  cases hr : perform heap host c b with
  | ok u b₁ =>
    rw [hr] at hs hk
    obtain rfl : b₁ = b' := Option.some.inj hs
    exact hk
  | error e b₁ =>
    rw [hr] at hs hk
    cases e with
    | nullDeref => cases hs
    | outOfRange _ | lengthError =>
      obtain rfl : b₁ = b' := Option.some.inj hs
      exact hk

theorem wf_of_run (hs : 1 ≤ s) {calls : List Call}
    (hr : run (after heap host) (new heap s) calls = some b) : WfOf s b :=
  run_invariant (G := fun _ _ => True) (WfOf s) (fun _ _ _ h _ => h.after) ⟨new_wf heap hs, rfl⟩
    (meets_of_forall (fun _ _ => trivial) _ _) hr

theorem Wf.cur_eq_none_iff (h : b.Wf) : b.cur = none ↔ b.position = b.capacity := by
  have hlt := h.div_lt_length_iff b.position
  have hps := h.position_le_size
  have hsc := h.size_le_capacity
  rw [h.cur_eq, nodeAt]
  split_ifs with hin
  · have := hlt.mp hin
    simp only [false_iff]
    omega
  · simp only [true_iff]
    omega

/-- After any sequence of calls on a new array, all blocks have the one size, they make up the
capacity, the position is inside the data and the data inside the blocks, and `cur_` is the block
of the position, null exactly if the position is at the end of the last one. -/
theorem representation_invariant {s : ℕ} (hs : 1 ≤ s) (heap : Heap) (host : Endian)
    (calls : List Call) (b : ByteArray)
    (hr : run (after heap host) (new heap s) calls = some b) :
    b.baseSize = s ∧ (∀ n ∈ b.nodes, n.size = b.baseSize) ∧
      b.capacity = b.baseSize * b.nodes.length ∧ b.position ≤ b.size ∧ b.size ≤ b.capacity ∧
      b.cur = b.nodeAt (b.position / b.baseSize) ∧
      (b.cur = none ↔ b.position = b.capacity) := by
  have h := wf_of_run hs hr
  exact ⟨h.baseSize_eq, h.node_size, h.capacity_eq, h.position_le_size, h.size_le_capacity,
    h.cur_eq, h.toWf.cur_eq_none_iff⟩

/-- A block of two bytes is filled by a short string, read past its end, and grown by a request
for write buffers. -/
theorem representation_invariant_grown : ∃ b : ByteArray,
    run (after (fun _ _ => 0) .little) (new (fun _ _ => 0) 2)
      [.write [7, 8], .read 3, .getWriteBuffers 3, .setPosition 5] = some b ∧
    b.capacity = 6 ∧ b.cur = some 2 ∧ b.baseSize = 2 := by
  have h := representation_invariant (by decide : 1 ≤ 2) (fun _ _ => 0) .little
    [.write [7, 8], .read 3, .getWriteBuffers 3, .setPosition 5] _ rfl
  exact ⟨_, rfl, rfl, rfl, h.1⟩

end ByteArray

end ServerFramework
