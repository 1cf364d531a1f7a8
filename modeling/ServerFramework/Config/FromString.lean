import Mathlib.Data.List.Basic
import Mathlib.Tactic.SplitIfs

/-! # Values from strings

`FromString` converts a string and hands the value to `SetValue`, which calls the listeners before
it assigns. Whatever happens there, `FromString` returns false, and the listeners before one that
throws keep the value that is not assigned.
-/

namespace ServerFramework

namespace FromString

/-- How a listener ends when it is called. -/
inductive Reaction where
  | returns
  /-- It throws a `std::exception`, after it has mirrored the value or before. -/
  | throws (mirrored : Bool)
  deriving DecidableEq, Repr

/-- A listener with the value that it mirrors. How it ends depends on the values it is given. -/
structure Listener (T : Type) where
  mirror : T
  react : T → T → Reaction

structure ConfigVar (T : Type) where
  val : T
  cbs : List (Listener T)

variable {T : Type}

/-- The listener after it has mirrored the value. -/
def Listener.tell (l : Listener T) (v : T) : Listener T := { l with mirror := v }

/-- The listeners after the loop of `SetValue`, and whether one of them has thrown. -/
def callListeners (old v : T) : List (Listener T) → List (Listener T) × Bool
  | [] => ([], false)
  | l :: cbs =>
    match l.react old v with
    | .returns => (l.tell v :: (callListeners old v cbs).1, (callListeners old v cbs).2)
    | .throws mirrored => ((if mirrored then l.tell v else l) :: cbs, true)

namespace ConfigVar

-- `operator==` of the values, which need not be equality
variable (eq : T → T → Bool)

/-- `SetValue`, and whether it throws. -/
def setValue (s : ConfigVar T) (v : T) : ConfigVar T × Bool :=
  if eq v s.val then (s, false)
  else
    match callListeners s.val v s.cbs with
    | (cbs, true) => ({ s with cbs := cbs }, true)
    | (cbs, false) => ({ val := v, cbs := cbs }, false)

/-- `FromString`, with what it returns. The conversion throws if it has no result. -/
def fromString (fromStr : String → Option T) (s : ConfigVar T) (str : String) :
    ConfigVar T × Bool :=
  match fromStr str with
  | some v => ((s.setValue eq v).1, false)
  | none => (s, false)

/-- The conversion or a listener throws. -/
def Throws (fromStr : String → Option T) (s : ConfigVar T) (str : String) : Prop :=
  match fromStr str with
  | some v => (s.setValue eq v).2 = true
  | none => True

/-- True is returned if and only if the value is `==` that of the string, and nothing is left of a
value that was rejected. -/
structure Right (fromStr : String → Option T) (s : ConfigVar T) (str : String) : Prop where
  returned : (s.fromString eq fromStr str).2 = true ↔
    ∃ v, fromStr str = some v ∧ eq v (s.fromString eq fromStr str).1.val = true
  rejected : s.Throws eq fromStr str → (s.fromString eq fromStr str).2 = false ∧
    (s.fromString eq fromStr str).1.val = s.val ∧
    (s.fromString eq fromStr str).1.cbs.map Listener.mirror = s.cbs.map Listener.mirror

/-- A listener throws, and up to it those that mirror the value have had it before. -/
def StopsUntouched (s : ConfigVar T) (v : T) : Prop :=
  ∃ before l after mirrored, s.cbs = before ++ l :: after ∧
    (∀ b ∈ before, b.react s.val v = .returns ∧ b.mirror = v) ∧
    l.react s.val v = .throws mirrored ∧ (mirrored = true → l.mirror = v)

/-- The value is assigned and yet not `==` itself, as a NaN is not. -/
def AssignsUnequal (s : ConfigVar T) (v : T) : Prop :=
  (∀ l ∈ s.cbs, l.react s.val v = .returns) ∧ eq v v = false

end ConfigVar

section Listeners

variable {old v : T}

theorem callListeners_returns {cbs : List (Listener T)} (h : ∀ l ∈ cbs, l.react old v = .returns) :
    callListeners old v cbs = (cbs.map (Listener.tell · v), false) := by
  induction cbs with
  | nil => rfl
  | cons l cbs ih =>
    obtain ⟨hl, hcbs⟩ := List.forall_mem_cons.mp h
    rw [callListeners, hl, ih hcbs]
    rfl

/-- The listeners behind one that throws are not called. -/
theorem callListeners_throws {before after : List (Listener T)} {l : Listener T} {mirrored : Bool}
    (hbefore : ∀ b ∈ before, b.react old v = .returns) (hl : l.react old v = .throws mirrored) :
    callListeners old v (before ++ l :: after) =
      (before.map (Listener.tell · v) ++ (if mirrored then l.tell v else l) :: after, true) := by
  induction before with
  | nil => rw [List.nil_append, callListeners, hl, List.map_nil, List.nil_append]
  | cons b before ih =>
    obtain ⟨hb, hbefore⟩ := List.forall_mem_cons.mp hbefore
    rw [List.cons_append, callListeners, hb, ih hbefore]
    rfl

theorem returns_or_throws (old v : T) (cbs : List (Listener T)) :
    (∀ l ∈ cbs, l.react old v = .returns) ∨ ∃ before l after mirrored, cbs = before ++ l :: after ∧
      (∀ b ∈ before, b.react old v = .returns) ∧ l.react old v = .throws mirrored := by
  induction cbs with
  | nil => exact .inl (by simp)
  | cons l cbs ih =>
    cases hl : l.react old v with
    | throws mirrored => exact .inr ⟨[], l, cbs, mirrored, rfl, by simp, hl⟩
    | returns =>
      rcases ih with hall | ⟨before, l', after, mirrored, rfl, hbefore, hl'⟩
      · exact .inl (List.forall_mem_cons.mpr ⟨hl, hall⟩)
      · exact .inr ⟨l :: before, l', after, mirrored, rfl,
          List.forall_mem_cons.mpr ⟨hl, hbefore⟩, hl'⟩

/-- What the listeners mirror is as before only if those that were told had the value. -/
theorem mirrors_eq_iff {before after : List (Listener T)} {l : Listener T} {mirrored : Bool} :
    (before.map (Listener.tell · v) ++ (if mirrored then l.tell v else l) :: after).map
        Listener.mirror = (before ++ l :: after).map Listener.mirror ↔
      (∀ b ∈ before, b.mirror = v) ∧ (mirrored = true → l.mirror = v) := by
  induction before with
  | nil => cases mirrored <;> simp [Listener.tell, eq_comm]
  | cons b before ih =>
    rw [List.map_cons, List.cons_append, List.cons_append, List.map_cons, List.map_cons,
      List.cons.injEq, ih, List.forall_mem_cons, and_assoc, eq_comm]
    rfl

end Listeners

namespace ConfigVar

variable {eq : T → T → Bool} {fromStr : String → Option T} {s : ConfigVar T} {str : String} {v : T}

theorem setValue_returns (hv : eq v s.val = false) (h : ∀ l ∈ s.cbs, l.react s.val v = .returns) :
    s.setValue eq v = (⟨v, s.cbs.map (Listener.tell · v)⟩, false) := by
  rw [setValue, if_neg (by simp [hv]), callListeners_returns h]

theorem setValue_throws (hv : eq v s.val = false) {before after : List (Listener T)}
    {l : Listener T} {mirrored : Bool} (hcbs : s.cbs = before ++ l :: after)
    (hbefore : ∀ b ∈ before, b.react s.val v = .returns) (hl : l.react s.val v = .throws mirrored) :
    s.setValue eq v = (⟨s.val, before.map (Listener.tell · v) ++
      (if mirrored then l.tell v else l) :: after⟩, true) := by
  rw [setValue, if_neg (by simp [hv]), hcbs, callListeners_throws hbefore hl]

theorem fromString_of_some (hconv : fromStr str = some v) :
    s.fromString eq fromStr str = ((s.setValue eq v).1, false) := by
  rw [fromString, hconv]

/-- Where nothing is thrown, the false that is returned has to be right. -/
theorem right_iff_of_returns (hconv : fromStr str = some v) (hset : (s.setValue eq v).2 = false) :
    Right eq fromStr s str ↔ eq v (s.setValue eq v).1.val = false := by
  have hthrows : ¬ s.Throws eq fromStr str := by simp [Throws, hconv, hset]
  constructor
  · intro h
    have hreturned := h.returned
    rw [fromString_of_some hconv] at hreturned
    rw [Bool.eq_false_iff]
    intro heq
    exact absurd (hreturned.mpr ⟨v, hconv, heq⟩) (by simp)
  · intro hne
    refine ⟨?_, fun h => absurd h hthrows⟩
    rw [fromString_of_some hconv, hconv]
    simp [hne]

/-- Where `SetValue` throws, only the listeners can tell. -/
theorem right_iff_of_throws (hconv : fromStr str = some v) (hv : eq v s.val = false)
    {before after : List (Listener T)} {l : Listener T} {mirrored : Bool}
    (hcbs : s.cbs = before ++ l :: after) (hbefore : ∀ b ∈ before, b.react s.val v = .returns)
    (hl : l.react s.val v = .throws mirrored) :
    Right eq fromStr s str ↔ (∀ b ∈ before, b.mirror = v) ∧ (mirrored = true → l.mirror = v) := by
  have hset := setValue_throws hv hcbs hbefore hl
  have hfrom : s.fromString eq fromStr str = ((s.setValue eq v).1, false) :=
    fromString_of_some hconv
  have hthrows : s.Throws eq fromStr str := by simp only [Throws, hconv, hset]
  have hiff := @mirrors_eq_iff T v before after l mirrored
  rw [← hcbs] at hiff
  rw [← hiff]
  constructor
  · intro h
    have hmirrors := (h.rejected hthrows).2.2
    rwa [hfrom, hset] at hmirrors
  · intro h
    constructor
    · rw [hfrom, hset, hconv]
      simp [hv]
    · intro _
      rw [hfrom, hset]
      exact ⟨rfl, rfl, h⟩

/-- `FromString` is right if and only if the conversion throws, or it gives a new value at which a
listener throws before any of them has changed what it mirrors, or one that is not `==` itself and
is assigned. -/
theorem right_iff (eq : T → T → Bool) (fromStr : String → Option T) (s : ConfigVar T)
    (str : String) :
    Right eq fromStr s str ↔ ∀ v, fromStr str = some v →
      eq v s.val = false ∧ (s.StopsUntouched v ∨ s.AssignsUnequal eq v) := by
  cases hconv : fromStr str with
  | none =>
    have hfrom : s.fromString eq fromStr str = (s, false) := by rw [fromString, hconv]
    refine iff_of_true ⟨?_, ?_⟩ (by simp)
    · simp [hfrom, hconv]
    · intro _
      simp [hfrom]
  | some v =>
    simp only [Option.some.injEq, forall_eq']
    cases hv : eq v s.val with
    | true =>
      have hset : s.setValue eq v = (s, false) := if_pos hv
      rw [right_iff_of_returns hconv (by rw [hset]), hset]
      simp [hv]
    | false =>
      rw [and_iff_right rfl]
      rcases returns_or_throws s.val v s.cbs with
        hall | ⟨before, l, after, mirrored, hcbs, hbefore, hl⟩
      · have hset := setValue_returns hv hall
        rw [right_iff_of_returns hconv (by rw [hset]), hset]
        refine ⟨fun h => .inr ⟨hall, h⟩, ?_⟩
        rintro (⟨before, l, after, mirrored, hcbs, -, hl, -⟩ | h)
        · rw [hall l (by simp [hcbs])] at hl
          cases hl
        · exact h.2
      · constructor
        · intro h
          obtain ⟨hmirror, hstop⟩ := (right_iff_of_throws hconv hv hcbs hbefore hl).mp h
          exact .inl ⟨before, l, after, mirrored, hcbs,
            fun b hb => ⟨hbefore b hb, hmirror b hb⟩, hl, hstop⟩
        · rintro (⟨before, l, after, mirrored, hcbs, hbefore, hl, hstop⟩ | h)
          · exact (right_iff_of_throws hconv hv hcbs (fun b hb => (hbefore b hb).1) hl).mpr
              ⟨fun b hb => (hbefore b hb).2, hstop⟩
          · rw [h.1 l (by simp [hcbs])] at hl
            cases hl

/-- False is returned for a value that is assigned. -/
theorem not_right_assigned :
    ¬ Right (fun a b => decide (a = b)) (fun _ => some 1) (⟨0, []⟩ : ConfigVar Int) "1" := by
  intro h
  exact absurd (h.returned.mpr ⟨1, rfl, by decide⟩) (by decide)

end ConfigVar

end FromString

end ServerFramework
