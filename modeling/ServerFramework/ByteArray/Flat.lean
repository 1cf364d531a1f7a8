import ServerFramework.Lib.Transition
import ServerFramework.ByteArray.Memory

/-! # The flat buffer behind the blocks

A flat buffer is one list of bytes with a position and a size; it knows no blocks. Its
memory may grow before a write, by bytes nobody has written. The chunked array simulates
it step by step for every block size. What can be observed depends on the bytes below the
size only, so arrays with different block sizes cannot be told apart as long as
`SetPosition` stays inside the data.
-/

namespace ServerFramework

open Overwrite Transition

/-- A call on a byte array. -/
inductive Op where
  | write (buf : List UInt8)
  | read (n : ℕ)
  | setPosition (v : ℕ)
  | clear
  deriving DecidableEq, Repr

/-- What a call hands back to its caller. -/
inductive Answer where
  | done
  | data (bytes : List UInt8)
  | threw (e : ByteArray.Error)
  deriving DecidableEq, Repr

/-- What is visible after a call. -/
structure Obs where
  answer : Answer
  position : ℕ
  size : ℕ
  deriving DecidableEq, Repr

/-- A contiguous buffer. -/
structure Flat where
  bytes : List UInt8
  position : ℕ
  size : ℕ
  deriving DecidableEq, Repr

namespace Flat

/-- The steps of the flat buffer. Its capacity is the number of its bytes. -/
inductive Step : Op → Flat → Answer → Flat → Prop where
  | write {f : Flat} {buf ext : List UInt8} :
      f.position + buf.length ≤ (f.bytes ++ ext).length →
      Step (.write buf) f .done
        { bytes := overwrite (f.bytes ++ ext) f.position buf
          position := f.position + buf.length
          size := max f.size (f.position + buf.length) }
  | read {f : Flat} {n : ℕ} : n ≤ f.size - f.position →
      Step (.read n) f (.data ((f.bytes.drop f.position).take n))
        { f with position := f.position + n }
  | read_short {f : Flat} {n : ℕ} : f.size - f.position < n →
      Step (.read n) f (.threw (.outOfRange "not enough len")) f
  | setPosition {f : Flat} {v : ℕ} : v ≤ f.bytes.length →
      Step (.setPosition v) f .done { f with position := v, size := max f.size v }
  | setPosition_far {f : Flat} {v : ℕ} : f.bytes.length < v →
      Step (.setPosition v) f (.threw (.outOfRange "set_position out of range")) f
  | clear {f : Flat} (k : ℕ) :
      Step .clear f .done { bytes := f.bytes.take k, position := 0, size := 0 }

/-- Position, size and memory are nested. -/
structure Wf (f : Flat) : Prop where
  position_le_size : f.position ≤ f.size
  size_le_length : f.size ≤ f.bytes.length

/-- Equality up to the bytes past the size. -/
structure Agree (f g : Flat) : Prop where
  position : f.position = g.position
  size : f.size = g.size
  content : f.bytes.take f.size = g.bytes.take g.size

/-- The call does not move the position past the data. -/
def Inside (f : Flat) : Op → Prop
  | .setPosition v => v ≤ f.size
  | _ => True

instance (f : Flat) : DecidablePred f.Inside
  | .setPosition v => inferInstanceAs (Decidable (v ≤ f.size))
  | .write _ | .read _ | .clear => .isTrue trivial

variable {f g f' g' : Flat} {a a' : Answer} {op : Op}

theorem Agree.getElem? (h : Agree f g) {i : ℕ} (hi : i < f.size) : f.bytes[i]? = g.bytes[i]? := by
  have hc := congrArg (·[i]?) h.content
  simpa only [List.getElem?_take_of_lt hi, List.getElem?_take_of_lt (h.size ▸ hi)] using hc

theorem Agree.slice (h : Agree f g) {n : ℕ} (hn : f.position + n ≤ f.size) :
    (f.bytes.drop f.position).take n = (g.bytes.drop g.position).take n := by
  apply List.ext_getElem?
  intro i
  by_cases hi : i < n
  · simp only [List.getElem?_take_of_lt hi, List.getElem?_drop, ← h.position]
    exact h.getElem? (by omega)
  · simp only [List.getElem?_take, hi, if_false]

theorem Agree.write (h : Agree f g) (hf : f.Wf) {buf ext ext' : List UInt8}
    (hfit : f.position + buf.length ≤ (f.bytes ++ ext).length)
    (hfit' : g.position + buf.length ≤ (g.bytes ++ ext').length) :
    (overwrite (f.bytes ++ ext) f.position buf).take (max f.size (f.position + buf.length)) =
      (overwrite (g.bytes ++ ext') g.position buf).take
        (max g.size (g.position + buf.length)) := by
  have hp := hf.position_le_size
  have hl := hf.size_le_length
  have hgl : f.size ≤ g.bytes.length := by
    have := congrArg List.length h.content
    simp only [List.length_take, ← h.size] at this
    omega
  rw [← h.position] at hfit' ⊢
  rw [← h.size]
  apply List.ext_getElem?
  intro i
  by_cases hi : i < max f.size (f.position + buf.length)
  · rw [List.getElem?_take_of_lt hi, List.getElem?_take_of_lt hi]
    by_cases hin : f.position ≤ i ∧ i < f.position + buf.length
    · obtain ⟨j, rfl⟩ := Nat.exists_eq_add_of_le hin.1
      rw [getElem?_overwrite_inside (by simp; omega) (by omega),
        getElem?_overwrite_inside (by simp; omega) (by omega)]
    · -- outside the segment and below the new size lies the old data only
      rw [getElem?_overwrite_outside hfit (by omega), getElem?_overwrite_outside hfit' (by omega),
        List.getElem?_append_left (by omega), List.getElem?_append_left (by omega)]
      exact h.getElem? (by omega)
  · simp only [List.getElem?_take, hi, if_false]

/-- Buffers that agree answer alike and go on agreeing. -/
theorem Agree.step (h : Agree f g) (hf : f.Wf) (hg : g.Wf) (hin : f.Inside op)
    (hs : Step op f a f') (hs' : Step op g a' g') : a = a' ∧ Agree f' g' := by
  have hpos := h.position
  have hsize := h.size
  have hfl := hf.size_le_length
  have hgl := hg.size_le_length
  cases hs with
  | write hfit =>
    cases hs' with
    | write hfit' =>
      exact ⟨rfl, by simp only [hpos], by simp only [hpos, hsize], h.write hf hfit hfit'⟩
  | read hn =>
    cases hs' with
    | read hn' =>
      have hp := hf.position_le_size
      rw [h.slice (by omega)]
      exact ⟨rfl, by simp only [hpos], hsize, h.content⟩
    | read_short hn' => omega
  | read_short hn =>
    cases hs' with
    | read hn' => omega
    | read_short hn' => exact ⟨rfl, h⟩
  | @setPosition f v hv =>
    replace hin : v ≤ f.size := hin
    cases hs' with
    | setPosition hv' =>
      refine ⟨rfl, rfl, by simp only [hsize], ?_⟩
      simp only [Nat.max_eq_left hin, Nat.max_eq_left (hsize ▸ hin)]
      exact h.content
    | setPosition_far hv' => omega
  | @setPosition_far f v hv =>
    replace hin : v ≤ f.size := hin
    omega
  | clear k =>
    cases hs' with
    | clear k' => exact ⟨rfl, rfl, rfl, by simp only [List.take_zero]⟩

end Flat

namespace ByteArray

/-- The flat buffer an array stands for. -/
def flat (b : ByteArray) : Flat := ⟨b.bytes, b.position, b.size⟩

/-- Perform a call, with its result as the answer. -/
def call (heap : Heap) : Op → M Answer
  | .write buf => do write heap buf; return .done
  | .read n => do return .data (← read n)
  | .setPosition v => do setPosition v; return .done
  | .clear => do clear; return .done

/-- The answer to a call and the array after it. -/
def exec (heap : Heap) (b : ByteArray) (op : Op) : Answer × ByteArray :=
  match call heap op b with
  | .ok a b' => (a, b')
  | .error e b' => (.threw e, b')

/-- The array after a call. -/
def next (heap : Heap) (b : ByteArray) (op : Op) : Option ByteArray := some (exec heap b op).2

/-- What is visible after each call of a sequence. -/
def observe (heap : Heap) : ByteArray → List Op → List Obs
  | _, [] => []
  | b, op :: ops =>
    let r := exec heap b op
    ⟨r.1, r.2.position, r.2.size⟩ :: observe heap r.2 ops

/-- Reads ask for at least one byte. -/
def Asks : Op → Prop
  | .read n => 1 ≤ n
  | _ => True

instance : DecidablePred Asks
  | .read n => inferInstanceAs (Decidable (1 ≤ n))
  | .write _ | .setPosition _ | .clear => .isTrue trivial

variable {b : ByteArray}

theorem Wf.flat (h : b.Wf) : b.flat.Wf :=
  ⟨h.position_le_size, h.length_bytes.symm ▸ h.size_le_capacity⟩

/-- One call keeps the invariant and is a step of the flat buffer. -/
theorem exec_simulates (heap : Heap) (h : b.Wf) {op : Op} (hop : Asks op) :
    (exec heap b op).2.Wf ∧ Flat.Step op b.flat (exec heap b op).1 (exec heap b op).2.flat := by
  cases op with
  | write buf =>
    obtain ⟨b', ext, hw, hwf, hbytes, hfit, hp, hs, -, -⟩ := write_spec heap h buf
    have he : exec heap b (.write buf) = (.done, b') := by
      simp only [exec, call, bind, EStateM.bind, hw]
      rfl
    have hf : b'.flat = ⟨overwrite (b.bytes ++ ext) b.position buf, b.position + buf.length,
        max b.size (b.position + buf.length)⟩ := by
      rw [ByteArray.flat, hbytes, hp, hs]
    rw [he, hf]
    exact ⟨hwf, .write (f := b.flat) hfit⟩
  | read n =>
    by_cases hle : n ≤ b.getReadSize
    · obtain ⟨b', hr, hwf, hbytes, hp, hs, -, -⟩ := read_spec h (by exact hop) hle
      have he : exec heap b (.read n) = (.data ((b.bytes.drop b.position).take n), b') := by
        simp only [exec, call, bind, EStateM.bind, hr]
        rfl
      have hf : b'.flat = { b.flat with position := b.position + n } := by
        rw [ByteArray.flat, hbytes, hp, hs]
        rfl
      rw [he, hf]
      exact ⟨hwf, .read (f := b.flat) hle⟩
    · have he : exec heap b (.read n) = (.threw (.outOfRange "not enough len"), b) := by
        simp only [exec, call, bind, EStateM.bind, read_of_lt (Nat.lt_of_not_le hle)]
      rw [he]
      exact ⟨h, .read_short (f := b.flat) (Nat.lt_of_not_le hle)⟩
  | setPosition v =>
    by_cases hv : v ≤ b.capacity
    · obtain ⟨b', hs, hwf, hbytes, hp, hsz, -, -⟩ := setPosition_spec h hv
      have he : exec heap b (.setPosition v) = (.done, b') := by
        simp only [exec, call, bind, EStateM.bind, hs]
        rfl
      have hf : b'.flat = { b.flat with position := v, size := max b.size v } := by
        rw [ByteArray.flat, hbytes, hp, hsz]
        rfl
      rw [he, hf]
      exact ⟨hwf, .setPosition (f := b.flat) (h.length_bytes.symm ▸ hv)⟩
    · have he : exec heap b (.setPosition v) =
          (.threw (.outOfRange "set_position out of range"), b) := by
        simp only [exec, call, bind, EStateM.bind, setPosition_of_lt (Nat.lt_of_not_le hv)]
      rw [he]
      exact ⟨h, .setPosition_far (f := b.flat) (h.length_bytes.symm ▸ Nat.lt_of_not_le hv)⟩
  | clear =>
    obtain ⟨b', hc, hwf, hbytes, hp, hs, -, -⟩ := clear_spec h
    have he : exec heap b .clear = (.done, b') := by
      simp only [exec, call, bind, EStateM.bind, hc]
      rfl
    have hf : b'.flat = ⟨b.bytes.take b.baseSize, 0, 0⟩ := by
      rw [ByteArray.flat, hbytes, hp, hs]
    rw [he, hf]
    exact ⟨hwf, .clear (f := b.flat) b.baseSize⟩

/-- Arrays over agreeing flat buffers are observed alike, whatever their block sizes. -/
theorem observe_eq_of_agree (heap heap' : Heap) {ops : List Op} {b c : ByteArray} (hb : b.Wf)
    (hc : c.Wf) (ha : b.flat.Agree c.flat)
    (hg : Meets (next heap) (fun d op => Asks op ∧ d.flat.Inside op) b ops) :
    observe heap b ops = observe heap' c ops := by
  induction ops generalizing b c with
  | nil => rfl
  | cons op ops ih =>
    obtain ⟨⟨hop, hin⟩, hrest⟩ := hg
    obtain ⟨hb', hs⟩ := exec_simulates heap hb hop
    obtain ⟨hc', hs'⟩ := exec_simulates heap' hc hop
    obtain ⟨hans, ha'⟩ := ha.step hb.flat hc.flat hin hs hs'
    have hp : (exec heap b op).2.position = (exec heap' c op).2.position := ha'.position
    have hz : (exec heap b op).2.size = (exec heap' c op).2.size := ha'.size
    simp only [observe, hans, hp, hz, ih hb' hc' ha' (hrest _ rfl)]

/-- Every call made on an array of any block size is a step of the flat buffer over the same
bytes, and calls that keep the position inside the data cannot observe the block size. -/
theorem refines_flat {s : ℕ} (hs : 1 ≤ s) (heap : Heap) :
    (∀ ops b op, Meets (next heap) (fun _ op => Asks op) (new heap s) ops →
      run (next heap) (new heap s) ops = some b → Asks op →
        Flat.Step op b.flat (exec heap b op).1 (exec heap b op).2.flat ∧
          b.flat.bytes.length = b.capacity) ∧
    ∀ s' heap' ops, 1 ≤ s' →
      Meets (next heap) (fun b op => Asks op ∧ b.flat.Inside op) (new heap s) ops →
        observe heap (new heap s) ops = observe heap' (new heap' s') ops := by
  constructor
  · intro ops b op hg hr hop
    have hb : b.Wf := run_invariant Wf (G := fun _ op => Asks op)
      (fun c op' c' hc hop' he => by
        obtain rfl : (exec heap c op').2 = c' := by simpa [next] using he
        exact (exec_simulates heap hc hop').1)
      (new_wf heap hs) hg hr
    exact ⟨(exec_simulates heap hb hop).2, hb.length_bytes⟩
  · intro s' heap' ops hs' hg
    refine observe_eq_of_agree heap heap' (new_wf heap hs) (new_wf heap' hs') ?_ hg
    exact ⟨rfl, rfl, by simp only [flat, new, List.take_zero]⟩

/-- Blocks of two bytes and a single block are observed alike while data is written, reread
and overwritten. -/
theorem refines_flat_two_blocks :
    observe (fun _ _ => 0) (new (fun _ _ => 0) 2) [.write [1, 2, 3], .setPosition 1, .read 2] =
      observe (fun _ _ => 7) (new (fun _ _ => 7) 4096)
        [.write [1, 2, 3], .setPosition 1, .read 2] := by
  refine (refines_flat (by decide) _).2 4096 _ _ (by decide) ⟨⟨trivial, trivial⟩, ?_⟩
  rintro _ ⟨⟩
  refine ⟨⟨trivial, by decide⟩, ?_⟩
  rintro _ ⟨⟩
  refine ⟨⟨by decide, trivial⟩, ?_⟩
  rintro _ ⟨⟩
  trivial

end ByteArray

end ServerFramework
