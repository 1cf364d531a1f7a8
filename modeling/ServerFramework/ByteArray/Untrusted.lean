import ServerFramework.ByteArray.Buffers
import ServerFramework.ByteArray.Strings
import ServerFramework.ByteArray.Varint

/-! # Typed reads of data that nobody vouches for

What a peer sends may end anywhere and may announce any length. A reader of a fixed number of bytes
throws before it moves anything. A varint is read byte by byte, and a string after its length, so
that these readers may have moved when they throw; and the string is resized to the length announced
before the data is looked at.
-/

namespace ServerFramework.ByteArray

open Digits Transition

variable {b b' : ByteArray} {α β : Type}

/-- The data ends in a varint of at most `k` bytes, after its first byte. -/
def TornVarint (b : ByteArray) (k : ℕ) : Prop :=
  b.rest ≠ [] ∧ b.rest.length < k ∧ ∀ x ∈ b.rest, 0x80 ≤ x

instance (b : ByteArray) (k : ℕ) : Decidable (b.TornVarint k) :=
  inferInstanceAs (Decidable (_ ∧ _ ∧ _))

/-- The reader throws for lack of data, having moved if and only if `torn` holds, or it returns with
the position moved forward. -/
def ReadsOrThrows (torn : Prop) (m : M α) (b : ByteArray) : Prop :=
  (∃ b', m b = .error (.outOfRange "not enough len") b' ∧ (b' = b ↔ ¬ torn)) ∨
    ¬ torn ∧ ∃ a b', m b = .ok a b' ∧ b'.Wf ∧ b.position < b'.position

theorem ReadsOrThrows.map {torn : Prop} {m : M α} (h : ReadsOrThrows torn m b) (f : α → β) :
    ReadsOrThrows torn (do return f (← m)) b := by
  rcases h with ⟨b', hm, hb'⟩ | ⟨hno, a, b', hm, hb', hlt⟩
  · exact Or.inl ⟨b', by rw [Keeps.run_map, hm], hb'⟩
  · exact Or.inr ⟨hno, f a, b', by rw [Keeps.run_map, hm], hb', hlt⟩

/-- A failure leaves everything as it was if and only if the data is not torn. -/
theorem ReadsOrThrows.atomic_iff {torn : Prop} {m : M α} (h : ReadsOrThrows torn m b) :
    (∀ what b', m b = .error (.outOfRange what) b' → b' = b) ↔ ¬ torn := by
  rcases h with ⟨b₁, hm, hb₁⟩ | ⟨hno, a, b₁, hm, -, -⟩
  · rw [← hb₁, hm]
    constructor
    · intro hall
      exact hall _ _ rfl
    · rintro rfl what b' he
      injection he with _ hb'
      exact hb'.symm
  · rw [hm]
    exact ⟨fun _ => hno, fun _ what b' he => by cases he⟩

section Readers

variable (host : Endian)

theorem read_readsOrThrows (h : b.Wf) {n : ℕ} (hn : 0 < n) : ReadsOrThrows False (read n) b := by
  by_cases hle : n ≤ b.getReadSize
  · obtain ⟨b', hr, hb', -, hp, -⟩ := read_spec h hn hle
    exact Or.inr ⟨not_false, _, b', hr, hb', by omega⟩
  · exact Or.inl ⟨b, read_of_lt (Nat.lt_of_not_le hle), by simp⟩

theorem readFixed_readsOrThrows (h : b.Wf) {n : ℕ} (hn : 0 < n) :
    ReadsOrThrows False (readFixed host n) b := by
  rcases read_readsOrThrows h hn with ⟨b', hr, hb'⟩ | ⟨hno, bytes, b', hr, hb', hlt⟩
  · refine Or.inl ⟨b', ?_, hb'⟩
    simp only [readFixed, bind, EStateM.bind, hr]
  · refine Or.inr ⟨hno, ?_⟩
    simp only [readFixed, bind, EStateM.bind, hr]
    exact ⟨_, b', rfl, hb', hlt⟩

/-- The loop throws exactly if the data ends before a byte below `0x80` and before it has read all
its bytes, and has then consumed the data. -/
theorem readVarint_cases {w : ℕ} (i : ℕ) (result : BitVec w) (h : b.Wf) :
    ((b.rest.length < (w - i + 6) / 7 ∧ ∀ x ∈ b.rest, 0x80 ≤ x) ∧
      ∃ b', readVarint i result b = .error (.outOfRange "not enough len") b' ∧
        b'.position = b.position + b.rest.length ∧ (b.rest = [] → b' = b)) ∨
    (¬ (b.rest.length < (w - i + 6) / 7 ∧ ∀ x ∈ b.rest, 0x80 ≤ x) ∧
      ∃ r b', readVarint i result b = .ok r b' ∧ b'.Wf ∧
        b.position + min 1 (w - i) ≤ b'.position) := by
  fun_induction readVarint i result generalizing b with
  | case1 i result hi ih =>
    cases hrest : b.rest with
    | nil =>
      have hread : readFuint8 b = .error (.outOfRange "not enough len") b := by
        have hz := h.length_rest
        rw [hrest, List.length_nil] at hz
        simp only [readFuint8, bind, EStateM.bind, read_of_lt (by omega : b.getReadSize < 1)]
      refine Or.inl ⟨⟨?_, by simp⟩, b, ?_, rfl, fun _ => rfl⟩
      · rw [List.length_nil]
        omega
      · simp only [bind, EStateM.bind, hread]
    | cons x xs =>
      obtain ⟨b₁, h₁, hb₁, -, hr₁⟩ := readFuint8_consumes b.endian x b xs h rfl hrest
      have hp₁ : b₁.position = b.position + 1 := by
        rcases readFuint8_cases b with ⟨e, he⟩ | ⟨v, b₂, h₂, hp⟩
        · rw [h₁] at he
          cases he
        · rw [h₁] at h₂
          injection h₂ with _ hb
          rw [hb, hp]
      simp only [bind, EStateM.bind, h₁, List.length_cons, List.forall_mem_cons]
      by_cases hx : x < 0x80
      · rw [if_pos hx]
        refine Or.inr ⟨fun hcut => absurd hx (UInt8.not_lt.mpr hcut.2.1), _, b₁, rfl, hb₁, by omega⟩
      · rw [if_neg hx]
        have hstep := ih x hb₁
        rw [hr₁] at hstep
        rcases hstep with ⟨⟨hlen, hall⟩, b', he, hp, -⟩ | ⟨hno, r, b', hok, hb', hle⟩
        · refine Or.inl ⟨⟨by omega, UInt8.not_lt.mp hx, hall⟩, b', he, by omega, ?_⟩
          intro hnil
          cases hnil
        · refine Or.inr ⟨fun hcut => hno ⟨by omega, hcut.2.2⟩, r, b', hok, hb', by omega⟩
  | case2 i result hi =>
    refine Or.inr ⟨fun hcut => ?_, result, b, rfl, h, by omega⟩
    omega

theorem readVarint_readsOrThrows (h : b.Wf) {w : ℕ} (hw : 0 < w) :
    ReadsOrThrows (b.TornVarint ((w + 6) / 7)) (readVarint 0 (0#w)) b := by
  rcases readVarint_cases 0 (0#w) h with ⟨hcut, b', he, hp, hnil⟩ | ⟨hno, r, b', hok, hb', hle⟩
  · refine Or.inl ⟨b', he, ?_⟩
    by_cases hz : b.rest = []
    · simp [hnil hz, TornVarint, hz]
    · have hne : b' ≠ b := by
        rintro rfl
        have := List.length_pos_of_ne_nil hz
        omega
      simp only [hne, false_iff, not_not]
      exact ⟨hz, hcut⟩
  · exact Or.inr ⟨fun htorn => hno htorn.2, r, b', hok, hb', by omega⟩

end Readers

section Strings

variable (host : Endian)

/-- The reader of a string with its length in the given form. -/
def readStringOf : StringForm → M StdString
  | .f16 => readStringF16 host
  | .f32 => readStringF32 host
  | .f64 => readStringF64 host
  | .vint => readStringVint

/-- The reader of the length: how many bytes the string is resized to. -/
def askedLength : StringForm → M ℕ
  | .f16 => do return (← readFuint16 host).toNat
  | .f32 => do return (← readFuint32 host).toNat
  | .f64 => do return (← readFuint64 host).toNat
  | .vint => do return (← readUint64).toNat

theorem readStringOf_eq (form : StringForm) (b : ByteArray) :
    readStringOf host form b =
      match askedLength host form b with
      | .ok len b₁ => readString len b₁
      | .error e b₁ => .error e b₁ := by
  have hbind : ∀ {γ : Type} (r : M γ) (f : γ → ℕ),
      (do readString (f (← r)) : M StdString) b =
        match (do return f (← r) : M ℕ) b with
        | .ok len b₁ => readString len b₁
        | .error e b₁ => .error e b₁ := by
    intro γ r f
    rw [Keeps.run_map]
    change EStateM.bind r _ b = _
    unfold EStateM.bind
    cases r b <;> rfl
  cases form with
  | f16 => exact hbind (readFuint16 host) UInt16.toNat
  | f32 => exact hbind (readFuint32 host) UInt32.toNat
  | f64 => exact hbind (readFuint64 host) UInt64.toNat
  | vint => exact hbind readUint64 UInt64.toNat

/-- The data ends inside the length after some of it was consumed. -/
def TornLength (b : ByteArray) : StringForm → Prop
  | .vint => b.TornVarint 10
  | _ => False

instance (b : ByteArray) : ∀ form, Decidable (b.TornLength form)
  | .vint => inferInstanceAs (Decidable (b.TornVarint 10))
  | .f16 | .f32 | .f64 => inferInstanceAs (Decidable False)

theorem askedLength_readsOrThrows (h : b.Wf) (form : StringForm) :
    ReadsOrThrows (b.TornLength form) (askedLength host form) b := by
  cases form with
  | vint => exact ((readVarint_readsOrThrows h (w := 64) (by decide)).map _).map _
  | _ => exact ((readFixed_readsOrThrows host h (by decide)).map _).map _

/-- What becomes of a length: the string is resized, and then its bytes are read. -/
theorem readString_cases (h : b.Wf) (len : ℕ) :
    (stringMaxSize < len ∧ readString len b = .error .lengthError b) ∨
    (len ≤ stringMaxSize ∧ b.getReadSize < len ∧
      readString len b = .error (.outOfRange "not enough len") b) ∨
    (len = 0 ∧ b.position = b.capacity ∧ readString len b = .error .nullDeref b) ∨
    (len ≤ stringMaxSize ∧ len ≤ b.getReadSize ∧ ¬ (len = 0 ∧ b.position = b.capacity) ∧
      ∃ v b', readString len b = .ok v b') := by
  by_cases hmax : len ≤ stringMaxSize
  · have hread : readString len b = (do
        return ⟨(← read len).take len, (List.length_take_le _ _).trans hmax⟩ : M StdString) b := by
      rw [readString, dif_pos hmax]
    rcases Nat.lt_or_ge b.getReadSize len with hlt | hle
    · exact Or.inr (Or.inl ⟨hmax, hlt, by rw [hread, Keeps.run_map, read_of_lt hlt]⟩)
    · by_cases hend : len = 0 ∧ b.position = b.capacity
      · obtain ⟨rfl, hfull⟩ := hend
        have hcur := h.cur_eq_none_iff.mpr hfull
        refine Or.inr (Or.inr (Or.inl ⟨rfl, hfull, ?_⟩))
        rw [hread, Keeps.run_map, read, if_neg (Nat.not_lt_zero _)]
        simp only [hcur]
      · obtain ⟨bytes, b', hok⟩ := (read_completes_iff h hle).mpr hend
        exact Or.inr (Or.inr (Or.inr ⟨hmax, hle, hend, _, b', by rw [hread, Keeps.run_map, hok]⟩))
  · refine Or.inl ⟨Nat.lt_of_not_le hmax, ?_⟩
    rw [readString, dif_neg hmax]
    rfl

/-- After the length, the reader does as documented exactly if the bytes are there, they fit a
string, and they are not none at the end of the last block. -/
theorem readString_documented_iff (h : b.Wf) (len : ℕ) :
    (((∃ v b', readString len b = .ok v b') ↔ len ≤ b.getReadSize) ∧
      (∀ e b', readString len b = .error e b' → ∃ what, e = .outOfRange what) ∧
      len ≤ b.getReadSize) ↔
    len ≤ b.getReadSize ∧ len ≤ stringMaxSize ∧ ¬ (len = 0 ∧ b.position = b.capacity) := by
  rcases readString_cases h len with ⟨hlt, he⟩ | ⟨-, hlt, -⟩ | ⟨hz, hfull, he⟩ |
    ⟨hmax, hle, hend, v, b', hok⟩
  · constructor
    · rintro ⟨-, herr, -⟩
      obtain ⟨what, hw⟩ := herr _ _ he
      cases hw
    · rintro ⟨-, hmax, -⟩
      omega
  · constructor <;> omega
  · constructor
    · rintro ⟨-, herr, -⟩
      obtain ⟨what, hw⟩ := herr _ _ he
      cases hw
    · rintro ⟨-, -, hno⟩
      exact absurd ⟨hz, hfull⟩ hno
  · refine ⟨fun _ => ⟨hle, hmax, hend⟩, fun _ => ⟨⟨fun _ => hle, fun _ => ⟨v, b', hok⟩⟩, ?_, hle⟩⟩
    intro e b'' he
    rw [hok] at he
    cases he

end Strings

/-- In every state that an array can get into, a string reader returns if its length and as many
bytes are there, throws `std::out_of_range` else, and never resizes beyond the data, if and only
if the length is not there or the bytes are, they fit a string, and they are not none at the end of
the last block. -/
theorem string_reads_documented_iff {s : ℕ} (hs : 1 ≤ s) (heap : Heap) (host : Endian)
    (acts : List Act) (b : ByteArray) (hr : run (act heap host) (new heap s) acts = some b)
    (form : StringForm) :
    (((∃ v b', readStringOf host form b = .ok v b') ↔
        ∃ len b₁, askedLength host form b = .ok len b₁ ∧ len ≤ b₁.getReadSize) ∧
      (∀ e b', readStringOf host form b = .error e b' → ∃ what, e = .outOfRange what) ∧
      ∀ len b₁, askedLength host form b = .ok len b₁ → len ≤ b₁.getReadSize) ↔
    ∀ len b₁, askedLength host form b = .ok len b₁ →
      len ≤ b₁.getReadSize ∧ len ≤ stringMaxSize ∧ ¬ (len = 0 ∧ b₁.position = b₁.capacity) := by
  have h := (wf_of_acts hs hr).toWf
  rw [readStringOf_eq]
  rcases askedLength_readsOrThrows host h form with ⟨b', hm, -⟩ | ⟨-, len, b₁, hm, hb₁, -⟩
  · simp [hm]
  · have hall : ∀ P : ℕ → ByteArray → Prop,
        (∀ len' b', (.ok len b₁ : EStateM.Result Error ByteArray ℕ) = .ok len' b' → P len' b') ↔
          P len b₁ :=
      fun P => ⟨fun hp => hp _ _ rfl, fun hp len' b' he => by cases he; exact hp⟩
    have hex : (∃ len' b', (.ok len b₁ : EStateM.Result Error ByteArray ℕ) = .ok len' b' ∧
        len' ≤ b'.getReadSize) ↔ len ≤ b₁.getReadSize :=
      ⟨fun ⟨len', b', he, hle⟩ => by cases he; exact hle, fun hle => ⟨_, _, rfl, hle⟩⟩
    simp only [hm]
    rw [hex, hall fun len' b' => len' ≤ b'.getReadSize, hall fun len' b' => _ ∧ _ ∧ _]
    exact readString_documented_iff hb₁ len

/-- A string of two bytes, with its length, and nothing else. -/
theorem string_reads_documented_iff_two_bytes : ∃ b : ByteArray,
    run (act (fun _ _ => 0) .little) (new (fun _ _ => 0) 4)
      [.call (.write [0, 0, 0, 2, 7, 8]), .call (.setPosition 0)] = some b ∧
    ((∃ v b', readStringOf .little .f32 b = .ok v b') ↔
      ∃ len b₁, askedLength .little .f32 b = .ok len b₁ ∧ len ≤ b₁.getReadSize) := by
  refine ⟨_, rfl, ((string_reads_documented_iff (by decide : 1 ≤ 4) (fun _ _ => 0) .little
    [.call (.write [0, 0, 0, 2, 7, 8]), .call (.setPosition 0)] _ rfl .f32).mpr ?_).1⟩
  rintro len b₁ ⟨⟩
  decide

/-- Eight bytes announce a string longer than any. -/
theorem string_read_throws_length_error : ∃ b : ByteArray,
    run (act (fun _ _ => 0) .little) (new (fun _ _ => 0) 4)
      [.call (.write (List.replicate 8 0xFF)), .call (.setPosition 0)] = some b ∧
    (∃ b', readStringOf .little .f64 b = .error .lengthError b') ∧
    ∃ len b₁, askedLength .little .f64 b = .ok len b₁ ∧ b₁.getReadSize < len :=
  ⟨_, rfl, ⟨_, rfl⟩, _, _, rfl, by decide⟩

/-- The data ends in the length of the string, or in its bytes after a whole length. -/
def TornString (host : Endian) (b : ByteArray) (form : StringForm) : Prop :=
  b.TornLength form ∨ ∃ len b₁, askedLength host form b = .ok len b₁ ∧ b₁.getReadSize < len ∧
    len ≤ stringMaxSize

/-- The value is there in part, and some of it is consumed before the rest is found missing. -/
def Torn (host : Endian) (b : ByteArray) : Kind → Prop
  | .int32 | .uint32 => b.TornVarint 5
  | .int64 | .uint64 => b.TornVarint 10
  | .stringF16 => TornString host b .f16
  | .stringF32 => TornString host b .f32
  | .stringF64 => TornString host b .f64
  | .stringVint => TornString host b .vint
  | _ => False

section Atomic

variable (host : Endian)

theorem readStringOf_atomic_iff (h : b.Wf) (form : StringForm) :
    (∀ what b', readStringOf host form b = .error (.outOfRange what) b' → b' = b) ↔
      ¬ TornString host b form := by
  rw [readStringOf_eq]
  rcases askedLength_readsOrThrows host h form with ⟨b₁, hm, hb₁⟩ | ⟨hno, len, b₁, hm, hb₁, hlt⟩
  · have htorn : TornString host b form ↔ b.TornLength form := by
      simp [TornString, hm]
    rw [htorn, ← hb₁, hm]
    constructor
    · exact fun hall => hall _ _ rfl
    · rintro rfl what b' he
      cases he
      rfl
  · have htorn : TornString host b form ↔ b₁.getReadSize < len ∧ len ≤ stringMaxSize := by
      unfold TornString
      rw [hm, or_iff_right hno]
      exact ⟨fun ⟨len', b', he, hp⟩ => by cases he; exact hp, fun hp => ⟨_, _, rfl, hp⟩⟩
    rw [htorn, hm]
    dsimp only
    rcases readString_cases hb₁ len with ⟨hmax, he⟩ | ⟨hmax, hless, he⟩ | ⟨hz, -, he⟩ |
      ⟨-, hle, -, v, b', hok⟩
    · rw [he]
      exact ⟨fun _ hp => by omega, fun _ what b' h' => by cases h'⟩
    · -- the length was consumed before the string was found missing
      have hmoved : b₁ ≠ b := by
        rintro rfl
        exact lt_irrefl _ hlt
      rw [he]
      exact ⟨fun hall => absurd (hall _ _ rfl) hmoved, fun hp => absurd ⟨hless, hmax⟩ hp⟩
    · rw [he]
      exact ⟨fun _ hp => by omega, fun _ what b' h' => by cases h'⟩
    · rw [hok]
      exact ⟨fun _ hp => by omega, fun _ what b' h' => by cases h'⟩

/-- What is thrown by a reader is thrown by the reader that wraps the result. -/
theorem map_throws_iff (m : M α) (f : α → β) :
    (∀ what b', (do return f (← m) : M β) b = .error (.outOfRange what) b' → b' = b) ↔
      ∀ what b', m b = .error (.outOfRange what) b' → b' = b := by
  rw [Keeps.run_map]
  cases m b <;> simp

/-- In every state that an array can get into, a typed reader that throws `std::out_of_range` leaves
the array as it was, if and only if the value is not there in part with some of it consumed. -/
theorem typed_reads_atomic_iff {s : ℕ} (hs : 1 ≤ s) (heap : Heap) (acts : List Act)
    (b : ByteArray) (hr : run (act heap host) (new heap s) acts = some b) (k : Kind) :
    (∀ what b', readKind host k b = .error (.outOfRange what) b' → b' = b) ↔ ¬ Torn host b k := by
  have h := (wf_of_acts hs hr).toWf
  cases k with
  | fint8 | fuint8 =>
    exact (((read_readsOrThrows h Nat.one_pos).map _).map _).atomic_iff
  | int32 | int64 =>
    exact ((((readVarint_readsOrThrows h (by decide)).map _).map _).map _).atomic_iff
  | uint32 | uint64 =>
    exact (((readVarint_readsOrThrows h (by decide)).map _).map _).atomic_iff
  | stringF16 => exact (map_throws_iff _ _).trans (readStringOf_atomic_iff host h .f16)
  | stringF32 => exact (map_throws_iff _ _).trans (readStringOf_atomic_iff host h .f32)
  | stringF64 => exact (map_throws_iff _ _).trans (readStringOf_atomic_iff host h .f64)
  | stringVint => exact (map_throws_iff _ _).trans (readStringOf_atomic_iff host h .vint)
  | _ => exact (((readFixed_readsOrThrows host h (by decide)).map _).map _).atomic_iff

/-- A varint of two bytes with another one behind it. -/
theorem typed_reads_atomic_iff_whole_varint : ∃ b : ByteArray,
    run (act (fun _ _ => 0) .little) (new (fun _ _ => 0) 2)
      [.call (.write [0x80, 1, 0x80]), .call (.setPosition 0)] = some b ∧
    ∀ what b', readKind .little .uint32 b = .error (.outOfRange what) b' → b' = b := by
  refine ⟨_, rfl, (typed_reads_atomic_iff .little (by decide : 1 ≤ 2) (fun _ _ => 0)
    [.call (.write [0x80, 1, 0x80]), .call (.setPosition 0)] _ rfl .uint32).mpr ?_⟩
  change ¬ TornVarint _ 5
  decide

/-- The length of a string of which a byte is missing is lost. -/
theorem torn_string_consumed : ∃ b : ByteArray,
    run (act (fun _ _ => 0) .little) (new (fun _ _ => 0) 4)
      [.call (.write [0, 2, 7]), .call (.setPosition 0)] = some b ∧ b.position = 0 ∧
    ∃ b', readKind .little .stringF16 b = .error (.outOfRange "not enough len") b' ∧
      b'.position = 2 :=
  ⟨_, rfl, rfl, _, rfl, rfl⟩

end Atomic

end ServerFramework.ByteArray
