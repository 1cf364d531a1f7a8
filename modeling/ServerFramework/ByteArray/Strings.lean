import ServerFramework.ByteArray.Calls

/-! # Reads at the end of the last block

`read` looks at the block of `cur_` before it looks at the size, so a read of nothing follows
`nullptr` when the position is at the end of the last block. A string reader reads the bytes of the
string even if there are none, so an empty string whose length ends the last block cannot be read.
-/

namespace ServerFramework.ByteArray

open Digits Transition

/-- The encodings of the length of a string. -/
inductive StringForm
  | f16
  | f32
  | f64
  | vint
  deriving DecidableEq, Repr

namespace StringForm

def value : StringForm → StdString → Value
  | .f16 => .stringF16
  | .f32 => .stringF32
  | .f64 => .stringF64
  | .vint => .stringVint

/-- The length survives the conversion to the type it is written in. -/
def Fits : StringForm → StdString → Prop
  | .f16, v => v.1.length < 2 ^ 16
  | .f32, v => v.1.length < 2 ^ 32
  | .f64, _ | .vint, _ => True

instance : ∀ form v, Decidable (Fits form v)
  | .f16, v => inferInstanceAs (Decidable (v.1.length < 2 ^ 16))
  | .f32, v => inferInstanceAs (Decidable (v.1.length < 2 ^ 32))
  | .f64, _ | .vint, _ => isTrue trivial

/-- The bytes taken by the length of an empty string. -/
def emptySize : StringForm → ℕ
  | .f16 => 2
  | .f32 => 4
  | .f64 => 8
  | .vint => 1

end StringForm

/-- The last of `n` bytes written at the position would be the last one of its block, and no block
would follow. -/
def EndsBlocks (b : ByteArray) (n : ℕ) : Prop :=
  b.capacity ≤ b.position + n ∧ b.baseSize ∣ b.position + n

instance (b : ByteArray) (n : ℕ) : Decidable (b.EndsBlocks n) :=
  inferInstanceAs (Decidable (_ ∧ _))

variable {b b' : ByteArray} {heap : Heap}

theorem ceil_mul_eq_iff {d s : ℕ} (hs : 1 ≤ s) : (d + s - 1) / s * s = d ↔ s ∣ d := by
  constructor
  · intro h
    exact ⟨(d + s - 1) / s, by rw [Nat.mul_comm, h]⟩
  · rintro ⟨k, rfl⟩
    rw [Nat.add_sub_assoc hs, Nat.mul_add_div hs, Nat.div_eq_of_lt (Nat.sub_lt hs Nat.one_pos),
      Nat.add_zero, Nat.mul_comm]

theorem copyIn_capacity (buf : List UInt8) (c : ℕ) :
    Keeps (fun b => b.capacity = c) (copyIn buf) := by
  intro b h
  unfold copyIn
  cases b.cur with
  | none => exact h
  | some i =>
    cases hl : writeLoop (b.position % b.baseSize) buf (b.nodes.drop i) <;>
      simpa only [hl, Keeps.finalState] using h

theorem addCapacity_capacity (h : b.Wf) {n : ℕ} (hn : 0 < n) :
    b.position + n = (b.addCapacity heap n).capacity ↔ b.EndsBlocks n := by
  have hcap : b.baseSize ∣ b.capacity := ⟨_, h.capacity_eq⟩
  have hps := h.position_le_size
  have hsc := h.size_le_capacity
  unfold EndsBlocks
  by_cases hc : b.getCapacity < n
  · rw [addCapacity_eq heap h hc]
    simp only [appendNodes]
    unfold getCapacity at *
    have hd : n - (b.capacity - b.position) = b.position + n - b.capacity := by omega
    have hceil := ceil_mul_eq_iff (d := b.position + n - b.capacity) h.baseSize_pos
    rw [Nat.dvd_sub_iff_left (by omega) hcap] at hceil
    rw [← hceil, hd]
    omega
  · have he : b.addCapacity heap n = b := by
      rw [addCapacity, if_neg (by omega), if_pos (by omega)]
    unfold getCapacity at hc
    rw [he]
    constructor
    · intro hfull
      exact ⟨hfull.ge, hfull ▸ hcap⟩
    · rintro ⟨hle, -⟩
      omega

/-- Whether `write` leaves the position at the end of the last block. -/
theorem write_full_iff (h : b.Wf) {buf : List UInt8} (hbuf : buf ≠ [])
    (hw : write heap buf b = .ok () b') :
    b'.position = b'.capacity ↔ b.EndsBlocks buf.length := by
  have hlen := List.length_pos_of_ne_nil hbuf
  obtain ⟨b₁, ext, hw₁, -, -, -, hp, -, -, -⟩ := write_spec heap h buf
  obtain rfl : b₁ = b' := by
    rw [hw] at hw₁
    injection hw₁ with _ heq
    exact heq.symm
  have hkeeps := copyIn_capacity buf (b.addCapacity heap buf.length).capacity
    (b.addCapacity heap buf.length) rfl
  rw [write, if_neg (by omega)] at hw
  rw [hw] at hkeeps
  rw [hp, show b₁.capacity = (b.addCapacity heap buf.length).capacity from hkeeps]
  exact addCapacity_capacity h hlen

/-- `read` moves the position inside the blocks it finds. -/
theorem read_keeps_capacity (c z : ℕ) (n : ℕ) :
    Keeps (fun b => b.capacity = c ∧ b.size = z) (read n) := by
  intro b h
  unfold read
  split_ifs
  · exact h
  · cases b.cur <;> exact h
  · cases b.cur with
    | none => exact h
    | some i =>
      cases hl : readLoop (b.position % b.baseSize) n (b.nodes.drop i) <;>
        simpa only [hl, Keeps.finalState] using h

theorem read_zero_iff (h : b.Wf) :
    (∃ bytes b', read 0 b = .ok bytes b') ↔ b.position ≠ b.capacity := by
  rw [ne_eq, ← h.cur_eq_none_iff, read, if_neg (Nat.not_lt_zero _)]
  cases b.cur with
  | none => simp
  | some c => simp

theorem read_completes_iff (h : b.Wf) {n : ℕ} (hn : n ≤ b.getReadSize) :
    (∃ bytes b', read n b = .ok bytes b') ↔ ¬ (n = 0 ∧ b.position = b.capacity) := by
  rcases Nat.eq_zero_or_pos n with rfl | hpos
  · rw [read_zero_iff h]
    simp
  · obtain ⟨b', hr, -⟩ := read_spec h hpos hn
    simp only [hr]
    constructor
    · rintro - ⟨rfl, -⟩
      exact absurd hpos (Nat.lt_irrefl 0)
    · exact fun _ => ⟨_, _, rfl⟩

theorem readString_length {len : ℕ} {v : StdString} (h : readString len b = .ok v b') :
    v.1.length ≤ len := by
  unfold readString at h
  split_ifs at h
  · obtain ⟨bytes, b₁, -, hv⟩ := Keeps.run_bind_ok h
    cases hv
    exact List.length_take_le _ _
  · cases h

theorem readString_zero_iff (h : b.Wf) {v : StdString} (hv : v.1 = []) :
    (∃ b', readString 0 b = .ok v b') ↔ b.position ≠ b.capacity := by
  rw [← read_zero_iff h, readString, dif_pos (Nat.zero_le _)]
  simp only [bind, EStateM.bind]
  constructor
  · rintro ⟨b', hb'⟩
    cases hr : read 0 b with
    | ok bytes b₁ => exact ⟨_, _, rfl⟩
    | error e b₁ =>
      rw [hr] at hb'
      cases hb'
  · rintro ⟨bytes, b', hb'⟩
    rw [hb']
    refine ⟨b', ?_⟩
    have he : v = ⟨bytes.take 0, (List.length_take_le _ _).trans (Nat.zero_le _)⟩ :=
      Subtype.ext hv
    rw [he]
    rfl

section Returned

variable {α : Type} {e : Endian} {m : M Unit} {r : M α} {f : α → ℕ} {enc : List UInt8} {a : α}
  {v : StdString}

/-- A string written after its length is returned exactly if the length was not changed and, for
an empty one, the length does not end the blocks. -/
theorem string_returned_iff (henc : enc ≠ [])
    (hm : ∀ c : ByteArray, c.endian = e → m c = write heap enc c) (hr : Consumes e r enc a)
    (hkeeps : ∀ P : ByteArray → Prop, (∀ n, Keeps P (read n)) → Keeps P r)
    (hle : f a ≤ v.1.length) (hb : b.Wf) (he : b.endian = e) :
    (∃ b', (do (do m; write heap v.1)
               setPosition b.position
               (do readString (f (← r))) : M StdString) b = .ok v b') ↔
      f a = v.1.length ∧ ¬ (v.1 = [] ∧ b.EndsBlocks enc.length) := by
  have hput : Puts e m enc := by
    intro c hc hce
    rw [hm c hce]
    exact write_puts heap e enc c hc hce
  obtain ⟨b₁, h₁, hb₁, he₁, hadd, -, hc₁⟩ := hput.seq (write_puts heap e v.1) b hb he
  obtain ⟨b₂, tail, h₂, hb₂, he₂, hrest, hcap, hpos⟩ := rest_after_put hb hb₁ hadd hc₁
  obtain ⟨b₃, h₃, hb₃, he₃, hrest₃⟩ :=
    hr b₂ (v.1 ++ tail) hb₂ (he₂.trans he₁) (by rw [hrest, List.append_assoc])
  have hrun : (do (do m; write heap v.1)
                  setPosition b.position
                  (do readString (f (← r))) : M StdString) b = readString (f a) b₃ := by
    change EStateM.bind (do m; write heap v.1) _ b = _
    simp only [EStateM.bind, h₁]
    change EStateM.bind (setPosition b.position) _ b₁ = _
    simp only [EStateM.bind, h₂]
    change EStateM.bind r _ b₂ = _
    simp only [EStateM.bind, h₃]
  rw [hrun]
  rcases hle.lt_or_eq with hlt | heq
  · -- the length has wrapped around, and the string read is shorter
    constructor
    · rintro ⟨b', hread⟩
      have := readString_length hread
      omega
    · rintro ⟨heq, -⟩
      omega
  · by_cases hv : v.1 = []
    · have hzero : f a = 0 := by rw [heq, hv, List.length_nil]
      -- the reader of the length leaves the position behind it, in the same blocks
      have hsame := hkeeps _ (read_keeps_capacity b₂.capacity b₂.size) b₂ ⟨rfl, rfl⟩
      rw [h₃] at hsame
      obtain ⟨hcap₃, hsize₃⟩ : b₃.capacity = b₂.capacity ∧ b₃.size = b₂.size := hsame
      have hlen := hb₃.length_rest
      have hps := hb₃.position_le_size
      rw [hrest₃, hv, List.nil_append, getReadSize] at hlen
      have hpos₃ : b₃.position = b₁.position := by omega
      have hwrite : write heap enc b = .ok () b₁ := by
        rw [hv] at h₁
        change EStateM.bind m _ b = _ at h₁
        simp only [EStateM.bind, hm b he] at h₁
        obtain ⟨b₄, -, hw, -⟩ := write_spec heap hb enc
        rw [hw] at h₁ ⊢
        exact h₁
      rw [hzero, readString_zero_iff hb₃ hv, hpos₃, hcap₃, hcap, ne_eq,
        write_full_iff hb henc hwrite]
      simp [hv]
    · rw [heq]
      obtain ⟨b₄, h₄, -⟩ := readString_consumes hv b₃ tail hb₃ he₃ hrest₃
      exact ⟨fun _ => ⟨rfl, fun hempty => hv hempty.1⟩, fun _ => ⟨b₄, h₄⟩⟩

end Returned

/-- The reader of a string's value returns it if the reader of the string does. -/
theorem map_returned_iff {m : M Unit} {p : ℕ} {r : M StdString} {F : StdString → Value}
    (hF : Function.Injective F) {v : StdString} :
    (∃ b', (do m
               setPosition p
               (do return F (← r)) : M Value) b = .ok (F v) b') ↔
      ∃ b', (do m
                setPosition p
                r : M StdString) b = .ok v b' := by
  simp only [bind, EStateM.bind]
  cases m b with
  | error e b₁ => simp
  | ok u b₁ =>
    dsimp only
    cases setPosition p b₁ with
    | error e b₂ => simp
    | ok u b₂ =>
      dsimp only
      cases r b₂ with
      | error e b₃ => simp
      | ok w b₃ => simp [pure, EStateM.pure, hF.eq_iff]

theorem value_returned_iff (host : Endian) (hb : b.Wf) (form : StringForm) (v : StdString) :
    (∃ b', (do writeValue heap host (form.value v)
               setPosition b.position
               readKind host (form.value v).kind : M Value) b = .ok (form.value v) b') ↔
      form.Fits v ∧ ¬ (v.1 = [] ∧ b.EndsBlocks form.emptySize) := by
  have hmax : v.1.length < 2 ^ 64 := v.2.trans_lt (by decide)
  cases form with
  | f16 =>
    have h := string_returned_iff (f := UInt16.toNat) (v := v) (by simp [← List.length_pos_iff])
      (fun c hc => writeFixed_eq heap host b.endian 2 _ hc)
      (readFuint16_consumes host b.endian (UInt16.ofNat v.1.length))
      (fun P hP => (readFixed_keeps host hP 2).map _)
      (by rw [UInt16.toNat_ofNat']; exact Nat.mod_le _ _) hb rfl
    refine (map_returned_iff fun _ _ => Value.stringF16.inj).trans (h.trans ?_)
    rw [length_hostBytes, UInt16.toNat_ofNat', Nat.mod_eq_iff_lt (by decide)]
    rfl
  | f32 =>
    have h := string_returned_iff (f := UInt32.toNat) (v := v) (by simp [← List.length_pos_iff])
      (fun c hc => writeFixed_eq heap host b.endian 4 _ hc)
      (readFuint32_consumes host b.endian (UInt32.ofNat v.1.length))
      (fun P hP => (readFixed_keeps host hP 4).map _)
      (by rw [UInt32.toNat_ofNat']; exact Nat.mod_le _ _) hb rfl
    refine (map_returned_iff fun _ _ => Value.stringF32.inj).trans (h.trans ?_)
    rw [length_hostBytes, UInt32.toNat_ofNat', Nat.mod_eq_iff_lt (by decide)]
    rfl
  | f64 =>
    have h := string_returned_iff (f := UInt64.toNat) (v := v) (by simp [← List.length_pos_iff])
      (fun c hc => writeFixed_eq heap host b.endian 8 _ hc)
      (readFuint64_consumes host b.endian (UInt64.ofNat v.1.length))
      (fun P hP => (readFixed_keeps host hP 8).map _)
      (by rw [UInt64.toNat_ofNat']; exact Nat.mod_le _ _) hb rfl
    refine (map_returned_iff fun _ _ => Value.stringF64.inj).trans (h.trans ?_)
    rw [length_hostBytes, UInt64.toNat_ofNat', Nat.mod_eq_of_lt hmax]
    simp [StringForm.Fits, StringForm.emptySize]
  | vint =>
    have hwrite : ∀ c : ByteArray, c.endian = b.endian →
        writeUint64 heap (UInt64.ofNat v.1.length) c =
          write heap (groups (UInt64.ofNat v.1.length).toNat) c := by
      intro c _
      rw [writeUint64, varintBytes_eq_groups (by decide)]
      rfl
    have h := string_returned_iff (f := UInt64.toNat) (v := v) (groups_ne_nil _) hwrite
      (readUint64_consumes b.endian (UInt64.ofNat v.1.length))
      (fun P hP => (readVarint_keeps hP _ _).map _)
      (by rw [UInt64.toNat_ofNat']; exact Nat.mod_le _ _) hb rfl
    refine (map_returned_iff fun _ _ => Value.stringVint.inj).trans (h.trans ?_)
    rw [UInt64.toNat_ofNat', Nat.mod_eq_of_lt hmax]
    simp only [StringForm.Fits, true_and]
    refine not_congr (and_congr_right fun hv => ?_)
    rw [hv, List.length_nil, groups_of_lt (by decide)]
    rfl

/-- In every state that calls on a new array lead to, `read` completes for a size that the data
has, except for size 0 at the end of the last block. A string written at the position is read from
there exactly if its length fits and it is not an empty one whose length ends the last block. -/
theorem reads_complete_iff {s : ℕ} (hs : 1 ≤ s) (heap : Heap) (host : Endian) (calls : List Call)
    (b : ByteArray) (hr : run (after heap host) (new heap s) calls = some b) :
    (∀ n ≤ b.getReadSize,
      (∃ bytes b', read n b = .ok bytes b') ↔ ¬ (n = 0 ∧ b.position = b.capacity)) ∧
    ∀ (form : StringForm) (v : StdString),
      (∃ b', (do writeValue heap host (form.value v)
                 setPosition b.position
                 readKind host (form.value v).kind : M Value) b = .ok (form.value v) b') ↔
        form.Fits v ∧ ¬ (v.1 = [] ∧ b.EndsBlocks form.emptySize) := by
  have hb := (wf_of_run hs hr).toWf
  exact ⟨fun n hn => read_completes_iff hb hn, value_returned_iff host hb⟩

/-- A string written across two blocks is returned, and so is an empty one that does not end
the second. -/
theorem reads_complete_iff_two_blocks : ∃ b : ByteArray,
    run (after (fun _ _ => 0) .little) (new (fun _ _ => 0) 4) [.write [1, 2, 3]] = some b ∧
      (∃ bytes b', read 0 b = .ok bytes b') ∧
      (∃ b', (do writeStringF16 (fun _ _ => 0) .little ⟨[], by decide⟩
                 setPosition 3
                 (do return .stringF16 (← readStringF16 .little)) : M Value) b =
        .ok (.stringF16 ⟨[], by decide⟩) b') := by
  have h := reads_complete_iff (by decide : 1 ≤ 4) (fun _ _ => 0) .little [.write [1, 2, 3]] _ rfl
  exact ⟨_, rfl, (h.1 0 (by decide)).mpr (by decide),
    (h.2 .f16 ⟨[], by decide⟩).mpr ⟨by decide, by decide⟩⟩

/-- An empty string whose length fills the only block of two bytes. -/
theorem empty_string_follows_null : ∃ b : ByteArray,
    (do writeStringF16 (fun _ _ => 0) .little ⟨[], by decide⟩
        setPosition 0
        readStringF16 .little : M StdString) (new (fun _ _ => 0) 2) = .error .nullDeref b ∧
      b.getReadSize = 0 ∧ ∃ b', read 0 b = .error .nullDeref b' :=
  ⟨_, rfl, rfl, _, rfl⟩

end ServerFramework.ByteArray
